import Woof.Parse
import Woof.Proofs.Effect
import Woof.Proofs.Recognition

namespace Woof.Receiver

variable {σ : Type}

/-- The record once the forms were delivered one by one, or the first objection and the record at
that time. -/
def feed (receive : Receiver σ) : List Form → σ → Except (Objection × σ) σ
  | [], record => .ok record
  | f :: fs, record =>
    match receive f record with
    | .ok record => receive.feed fs record
    | .error objection => .error (objection, record)

theorem feed_append (receive : Receiver σ) (fs gs : List Form) (record : σ) :
    receive.feed (fs ++ gs) record =
      match receive.feed fs record with
      | .ok r => receive.feed gs r
      | .error stop => .error stop := by
  induction fs generalizing record with
  | nil => rfl
  | cons f fs ih =>
    rw [List.cons_append, feed, feed]
    cases receive f record with
    | ok r => exact ih r
    | error e => rfl

theorem feed_ignore (fs : List Form) (record : σ) : ignore.feed fs record = .ok record := by
  induction fs with
  | nil => rfl
  | cons f fs ih => exact ih

theorem feed_collect (fs : List Form) (record : Array Form) :
    collect.feed fs record = .ok (record ++ fs.toArray) := by
  induction fs generalizing record with
  | nil => simp [feed]
  | cons f fs ih =>
    have h : collect.feed (f :: fs) record = collect.feed fs (record.push f) := rfl
    rw [h, ih]
    simp

end Woof.Receiver

namespace Woof.Grammar

open Woof.Parser Woof.Syntax

variable {σ : Type} {a : Alphabet} {limit : Nat} {c c' : Cursor} {fs : List Form}

/-- A parser that leaves the record alone from here on may as well keep none. -/
theorem bind_of_quiet {α β : Type} {q : Parser (Watched σ) α} {p : Scan α}
    {k : α → Parser (Watched σ) β} {l : α → Scan β} {record r : σ} (h : q c record = (p c, r))
    (hk : ∀ v c', k v c' r = (l v c', r)) : (q >>= k) c record = ((p >>= l) c, r) := by
  rw [bind_apply]
  match hp : p c with
  | .ok (.success v c') =>
    rw [hp] at h
    rw [bind_of_success hp, ← hk v c']
    exact Effect.bind_of_ok h
  | .ok .failure =>
    rw [hp] at h
    rw [bind_of_failure hp]
    exact Effect.bind_of_ok h
  | .ok (.error d) =>
    rw [hp] at h
    rw [bind_of_error hp]
    exact Effect.bind_of_ok h
  | .error i =>
    rw [hp] at h
    rw [bind_of_interrupt hp]
    exact Effect.bind_of_error h

theorem deliver_apply (receive : Receiver σ) (f : Form) (record : σ) :
    receive.deliver f record =
      match receive f record with
      | .ok r => (.ok (), r)
      | .error e => (.error (.refused e), record) := by
  have h : receive.deliver f record =
      (match receive f record with
        | .ok r => set r
        | .error e => throw (.refused e) : Watched σ Unit) record := rfl
  rw [h]
  cases receive f record <;> rfl

theorem topLevelForm_of_success (receive : Receiver σ) (record : σ) {f : Form}
    (h : form a limit c = .ok (.success f c')) :
    topLevelForm a limit receive c record =
      match receive f record with
      | .ok r => (.ok (.success f c'), r)
      | .error e => (.error (.refused e), record) := by
  have hl : hoist Watched.lift (form a limit) c record = (.ok (.success f c'), record) := by
    rw [hoist, h]
    rfl
  rw [topLevelForm, bind_apply, Effect.bind_of_ok hl]
  have hd := deliver_apply receive f record
  cases hf : receive f record with
  | ok r =>
    rw [hf] at hd
    have he : effect (receive.deliver f) c' record = (.ok (.success () c'), r) :=
      Effect.bind_of_ok hd
    exact Effect.bind_of_ok he
  | error e =>
    rw [hf] at hd
    have he : effect (receive.deliver f) c' record = (.error (.refused e), record) :=
      Effect.bind_of_error hd
    exact Effect.bind_of_error he

theorem topLevelForm_of_ne (receive : Receiver σ) (record : σ)
    (h : ∀ f c₁, form a limit c ≠ .ok (.success f c₁)) :
    topLevelForm a limit receive c record = (form a limit c, record) := by
  have hl : hoist Watched.lift (form a limit) c record = (form a limit c, record) := rfl
  rw [topLevelForm, bind_apply]
  match hf : form a limit c with
  | .ok (.success f c₁) => exact absurd hf (h f c₁)
  | .ok .failure | .ok (.error _) =>
    rw [hf] at hl
    exact Effect.bind_of_ok hl
  | .error _ =>
    rw [hf] at hl
    exact Effect.bind_of_error hl

/-- Repetition delivers the forms that it goes through, up to the first objection. -/
theorem repeatFrom_topLevelForm_of_steps (receive : Receiver σ) (h : Steps (form a limit) c fs c')
    (values : List Form) (record : σ) :
    repeatFrom (topLevelForm a limit receive) values c record =
      match receive.feed fs record with
      | .ok r => repeatFrom (topLevelForm a limit receive) (fs.reverse ++ values) c' r
      | .error (e, r) => (.error (.refused e), r) := by
  induction h generalizing values record with
  | nil => rfl
  | cons head less _ ih =>
    rename_i f fs _
    have ht := topLevelForm_of_success receive record head
    rw [repeatFrom]
    cases hf : receive f record with
    | error e =>
      rw [hf] at ht
      rw [Effect.bind_of_error ht]
      simp [Receiver.feed, hf]
    | ok r =>
      rw [hf] at ht
      rw [Effect.bind_of_ok ht]
      simp only [less, if_true, ih, Receiver.feed, hf, List.reverse_cons, List.append_assoc,
        List.singleton_append]

theorem repeatFrom_topLevelForm_of_ne (receive : Receiver σ) (record : σ) (values : List Form)
    (h : ∀ f c₁, form a limit c ≠ .ok (.success f c₁)) :
    repeatFrom (topLevelForm a limit receive) values c record =
      (repeatFrom (form a limit) values c, record) := by
  have ht := topLevelForm_of_ne receive record h
  rw [repeatFrom]
  cases hf : form a limit c with
  | error i =>
    rw [hf] at ht
    rw [Effect.bind_of_error ht, repeatFrom_of_interrupt values hf]
  | ok o =>
    rw [hf] at ht
    rw [Effect.bind_of_ok ht]
    cases o with
    | success f c₁ => exact absurd hf (h f c₁)
    | failure =>
      rw [repeatFrom_of_failure values hf]
      rfl
    | error d =>
      rw [repeatFrom_of_error values hf]
      rfl

/-- The forms up to the end of the text, delivered to no one. -/
def unwatched (a : Alphabet) (limit : Nat) : Scan (List Form) := do
  let fs ← zeroOrMore (form a limit)
  let _ ← endOfProgram a
  return fs

/-- Delivery has no part in what is read: it can only put an end to the run. -/
theorem program_of_steps (receive : Receiver σ) (record : σ) (hs : Steps (form a limit) c fs c')
    (hn : ∀ f c₁, form a limit c' ≠ .ok (.success f c₁)) :
    program a limit receive c record =
      match receive.feed fs record with
      | .ok r => (unwatched a limit c, r)
      | .error (e, r) => (.error (.refused e), r) := by
  have hz := repeatFrom_topLevelForm_of_steps receive hs [] record
  cases hf : receive.feed fs record with
  | error stop =>
    rw [hf] at hz
    exact Effect.bind_of_error hz
  | ok r =>
    rw [hf] at hz
    simp only [repeatFrom_topLevelForm_of_ne receive r _ hn] at hz
    rw [← repeatFrom_of_steps hs] at hz
    refine bind_of_quiet hz fun gs c₁ => ?_
    exact bind_of_quiet rfl fun _ _ => rfl

theorem exists_form_steps (limit : Nat) (c : Cursor) :
    ∃ fs c', Steps (form .woof limit) c fs c' ∧
      ∀ f c₁, form .woof limit c' ≠ .ok (.success f c₁) :=
  exists_steps (sound_form limit).left_lt c

theorem endOfProgram_of_nil (h : skip a c.remaining = []) :
    endOfProgram a c = .ok (.success () (c.seek [])) := by
  have hl : (c.seek []).left = 0 := Cursor.left_seek (List.nil_suffix)
  have he : atEnd (c.seek []) = (.ok (.success () (c.seek [])) : Except Interrupt _) := by
    rw [atEnd, if_pos hl]
    rfl
  rw [endOfProgram, lexeme_apply, h, firstOf_cons_of_ne (by simp [he]), he]

theorem endOfProgram_of_cons {t : Token Char} {ts : List (Token Char)}
    (h : skip a c.remaining = t :: ts) :
    endOfProgram a c = .ok (.error ⟨.unparsedInput, t⟩) := by
  have hs : t :: ts <:+ c.remaining := h ▸ skip_suffix a _
  have hl : (c.seek (t :: ts)).left ≠ 0 := by simp [Cursor.left_seek hs]
  have he : atEnd (c.seek (t :: ts)) = (.ok .failure : Except Interrupt _) := by
    rw [atEnd, if_neg hl]
    rfl
  have hn : next (c.seek (t :: ts)) = (.ok (.success t (c.seek ts)) : Except Interrupt _) := by
    rw [next, Cursor.next?_of_remaining_cons (Cursor.remaining_seek hs)]
    rfl
  rw [endOfProgram, lexeme_apply, h, firstOf_cons_of_failure he, firstOf_singleton,
    bind_of_success hn]
  rfl

theorem unwatched_sound (h : unwatched .woof limit c = .ok (.success fs c')) :
    ProgramText fs c.text := by
  obtain ⟨gs, c₁, hz, hk⟩ := bind_eq_success_iff.mp h
  obtain ⟨_, c₂, he, hp⟩ := bind_eq_success_iff.mp hk
  obtain ⟨rfl, rfl⟩ := Outcome.success.inj (Except.ok.inj hp)
  obtain ⟨hs, -⟩ := zeroOrMore_eq_success (sound_form limit).left_lt hz
  refine ⟨c₁.text, (sound_form limit).steps hs, ?_⟩
  have ht := trivia_skip c₁.remaining
  cases hr : skip .woof c₁.remaining with
  | nil =>
    rw [hr] at ht
    exact ht
  | cons t ts =>
    rw [endOfProgram_of_cons hr] at he
    cases he

theorem unwatched_complete (h : ProgramText fs c.text) :
    (0 < limit ∧ Form.depthAll fs ≤ limit ∧ ∃ c', unwatched .woof limit c = .ok (.success fs c')) ∨
      (¬ (0 < limit ∧ Form.depthAll fs ≤ limit) ∧ unwatched .woof limit c = .error .tooDeep) := by
  obtain ⟨r, hf, ht⟩ := h
  cases limit with
  | zero =>
    refine .inr ⟨fun hl => absurd hl.1 (Nat.lt_irrefl 0), ?_⟩
    exact bind_of_interrupt (zeroOrMore_of_interrupt (.nil c) rfl)
  | succ limit =>
    rcases forms_complete hf (limit + 1) c rfl with ⟨hd, vs, c', hs, hi⟩ | ⟨hd, c', hs, rfl⟩
    · refine .inr ⟨by omega, ?_⟩
      exact bind_of_interrupt (zeroOrMore_of_interrupt hs hi)
    · refine .inl ⟨Nat.succ_pos limit, hd, c'.seek [], ?_⟩
      have hr : skip .woof c'.remaining = [] := by
        have hn := skip_of_trivia ht (by simp [NoTrivia])
        exact List.map_eq_nil_iff.mp hn
      have ha : ahead .woof c' = none := by
        rw [ahead, hr]
        rfl
      have hff : form .woof (limit + 1) c' = .ok .failure := by
        apply form_of_other <;> simp [ha]
      rw [unwatched, bind_of_success (zeroOrMore_of_steps hs hff),
        bind_of_success (endOfProgram_of_nil hr)]
      rfl

end Woof.Grammar

namespace Woof

open Woof.Syntax Woof.Grammar Woof.Parser

variable {σ : Type}

/-- Where forms that are nested too deep are reported. -/
def ParseError.tooDeep (text : String) : ParseError :=
  .malformed ⟨.nestingTooDeep, ((Cursor.ofText text).first?.getD ⟨'\n', 1, 1⟩).location⟩

/-- What becomes of an objection: it ends the reading as it is, but that a receiver which went too
deep is taken for forms that are nested too deep. -/
def ParseError.ofObjection (text : String) : Objection → ParseError
  | .tooDeep => .tooDeep text
  | e => .interrupted (.refused e)

/-- An interrupt is reported at a place only as forms nested too deep. -/
theorem ParseError.fault_of_ofInterrupt {start : Cursor} {i : Interrupt} {d : Diagnostic}
    (h : ofInterrupt start i = .malformed d) : d.fault = .nestingTooDeep := by
  unfold ofInterrupt at h
  split at h
  · obtain rfl := malformed.inj h
    rfl
  · obtain rfl := malformed.inj h
    rfl
  · cases h

theorem ParseError.ofInterrupt_refused (text : String) (e : Objection) :
    ofInterrupt (.ofText text) (.refused e) = ofObjection text e := by
  cases e <;> rfl

theorem parseWithin_ignore (limit : Nat) (record : σ) (text : String) :
    parseWithin limit Receiver.ignore record text =
      (ParseError.ofRun (.ofText text) (unwatched .woof limit (.ofText text)), record) := by
  obtain ⟨fs, c', hs, hn⟩ := exists_form_steps limit (.ofText text)
  have hp := program_of_steps Receiver.ignore record hs hn
  rw [Receiver.feed_ignore] at hp
  rw [parseWithin, hp]

/-- What reading comes to if the forms are delivered before it comes to the result. -/
def Receiver.delivering (receive : Receiver σ) (text : String) (fs : List Form) (record : σ)
    (result : Except ParseError (List Form)) : Except ParseError (List Form) × σ :=
  match receive.feed fs record with
  | .ok r => (result, r)
  | .error (e, r) => (.error (.ofObjection text e), r)

theorem Receiver.delivering_collect (text : String) (fs : List Form) (record : Array Form)
    (result : Except ParseError (List Form)) :
    collect.delivering text fs record result = (result, record ++ fs.toArray) := by
  rw [delivering, feed_collect]

/-- What a receiver is told of, and what it has to do with the result. -/
theorem parseWithin_of_steps {limit : Nat} {text : String} {fs : List Form} {c : Cursor}
    (receive : Receiver σ) (record : σ) (hs : Steps (form .woof limit) (.ofText text) fs c)
    (hn : ∀ f c₁, form .woof limit c ≠ .ok (.success f c₁)) :
    parseWithin limit receive record text =
      receive.delivering text fs record (parseWithin limit Receiver.ignore () text).1 := by
  have hp := program_of_steps receive record hs hn
  rw [parseWithin_ignore, parseWithin, hp, Receiver.delivering]
  cases receive.feed fs record with
  | ok r => rfl
  | error stop =>
    obtain ⟨e, r⟩ := stop
    exact congrArg (fun cause => (Except.error cause, r)) (ParseError.ofInterrupt_refused text e)

theorem parseWithin_sound {limit : Nat} {fs : List Form} {text : String}
    (h : (parseWithin limit Receiver.ignore () text).1 = .ok fs) :
    ProgramText fs text.toList := by
  rw [parseWithin_ignore] at h
  match hu : unwatched .woof limit (.ofText text) with
  | .ok (.success gs c') =>
    rw [hu] at h
    obtain rfl : gs = fs := Except.ok.inj h
    have hs := unwatched_sound hu
    rwa [Cursor.text_ofText] at hs
  | .ok .failure | .ok (.error _) | .error _ =>
    rw [hu] at h
    cases h

theorem parseWithin_complete {fs : List Form} {text : String} (h : ProgramText fs text.toList)
    (limit : Nat) :
    (parseWithin limit Receiver.ignore () text).1 =
      if 0 < limit ∧ Form.depthAll fs ≤ limit then .ok fs else .error (.tooDeep text) := by
  rw [← Cursor.text_ofText text] at h
  rw [parseWithin_ignore]
  rcases unwatched_complete h with ⟨hl, hd, c', hu⟩ | ⟨hd, hu⟩
  · rw [hu, if_pos ⟨hl, hd⟩]
    rfl
  · rw [hu, if_neg hd]
    rfl

theorem parseWithin_eq_ok_iff {limit : Nat} {fs : List Form} {text : String} :
    (parseWithin limit Receiver.ignore () text).1 = .ok fs ↔
      ProgramText fs text.toList ∧ 0 < limit ∧ ∀ f ∈ fs, f.depth ≤ limit := by
  rw [← Form.depthAll_le_iff]
  constructor
  · intro h
    have ht := parseWithin_sound h
    rw [parseWithin_complete ht] at h
    split at h
    · exact ⟨ht, ‹_›⟩
    · cases h
  · rintro ⟨ht, hd⟩
    rw [parseWithin_complete ht, if_pos hd]

/-- The grammar derives a text for one list of forms only. -/
theorem programText_unique {fs gs : List Form} {s : List Char} (hf : ProgramText fs s)
    (hg : ProgramText gs s) : fs = gs := by
  rw [← String.toList_ofList (l := s)] at hf hg
  have hl : 0 < max (Form.depthAll fs) (Form.depthAll gs) + 1 := Nat.succ_pos _
  have h₁ := parseWithin_complete hf (max (Form.depthAll fs) (Form.depthAll gs) + 1)
  have h₂ := parseWithin_complete hg (max (Form.depthAll fs) (Form.depthAll gs) + 1)
  rw [if_pos ⟨hl, by omega⟩] at h₁ h₂
  exact Except.ok.inj (h₁.symm.trans h₂)

/-- A text is read as forms just where the grammar derives it for them and they are not nested too
deep. -/
theorem parse_iff_programText (text : String) (fs : List Form) :
    (parse text = .error (.tooDeep text) ∨
      (parse text = .ok fs ↔ ProgramText fs text.toList)) ∧
    ∀ limit, (parseWithin limit Receiver.ignore () text).1 = .ok fs ↔
      ProgramText fs text.toList ∧ 0 < limit ∧ ∀ f ∈ fs, f.depth ≤ limit := by
  refine ⟨?_, fun limit => parseWithin_eq_ok_iff⟩
  have hp : parse text = (parseWithin nestingLimit Receiver.ignore () text).1 := rfl
  by_cases h : ProgramText fs text.toList
  · rw [hp, parseWithin_complete h]
    by_cases hd : 0 < nestingLimit ∧ Form.depthAll fs ≤ nestingLimit
    · exact .inr ⟨fun _ => h, fun _ => if_pos hd⟩
    · exact .inl (if_neg hd)
  · exact .inr ⟨fun hs => parseWithin_sound hs, fun ht => absurd ht h⟩

end Woof
