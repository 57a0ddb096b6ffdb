import Woof.Proofs.Frame
import Woof.Proofs.Shelf

namespace Woof.Syntax

theorem Framed.suffix {J : List Char → List Char → Prop} {s r : List Char} (h : Framed J s r) :
    r <:+ s := by
  obtain ⟨u, rfl, -⟩ := h
  exact List.suffix_append u r

variable {f : Form} {fs gs : List Form} {s r t : List Char}

theorem newline_ne_of_class {x : Char}
    (h : x ∈ Alphabet.woof.symbolStarts ∨ x ∈ Alphabet.woof.digits) : x ≠ '\n' := by
  rintro rfl
  revert h
  decide

theorem exists_last_of_ne_nil {u : List Char} (hne : u ≠ []) (h : ∀ x ∈ u, x ≠ '\n') :
    ∃ x, x ≠ '\n' ∧ x :: r <:+ u ++ r := by
  refine ⟨u.getLast hne, h _ (List.getLast_mem hne), u.dropLast, ?_⟩
  rw [← List.singleton_append, ← List.append_assoc, List.dropLast_append_getLast]

/-- No form ends with a newline. -/
theorem FormText.exists_last (h : FormText f s r) : ∃ x, x ≠ '\n' ∧ x :: r <:+ s := by
  cases h with
  | symbol text =>
    obtain ⟨rfl, hn, -⟩ := text
    apply exists_last_of_ne_nil
    · intro hnil
      simp [hnil, IsName] at hn
    · intro x hx
      cases hl : ‹String›.toList with
      | nil => simp [hl] at hx
      | cons c cs =>
        rw [hl] at hn hx
        rcases List.mem_cons.mp hx with rfl | hm
        · exact newline_ne_of_class (.inl hn.1)
        · exact newline_ne_of_class (hn.2 x hm)
  | number text =>
    obtain ⟨ds, rfl, hne, hds, -⟩ := text.exists_digits
    exact exists_last_of_ne_nil hne fun d hd => newline_ne_of_class (.inr (hds d hd))
  | string text =>
    obtain ⟨body, rfl, -⟩ := text
    exact ⟨'\x22', by decide, '\x22' :: body, rfl⟩
  | application parts close =>
    have hs := close.framed.suffix.trans parts.framed.suffix
    exact ⟨')', by decide, hs.trans (List.suffix_cons _ _)⟩
  | define beforeWord word about beforeName named beforeValue body close =>
    have hv := close.framed.suffix.trans (body.framed.suffix.trans beforeValue.framed.suffix)
    have hn := hv.trans (named.framed.suffix.trans beforeName.framed.suffix)
    have hw := hn.trans (about.framed.suffix.trans (word.framed.suffix.trans beforeWord.framed.suffix))
    exact ⟨'\x7d', by decide, hw.trans (List.suffix_cons _ _)⟩
  | lambda beforeWord word openParams names distinct closeParams body close =>
    have hb := close.framed.suffix.trans (body.framed.suffix.trans (List.suffix_cons '\x7d' _))
    have hp := hb.trans (closeParams.framed.suffix.trans names.framed.suffix)
    have ho := hp.trans ((List.suffix_cons '\x7b' _).trans openParams.framed.suffix)
    have hw := ho.trans (word.framed.suffix.trans beforeWord.framed.suffix)
    exact ⟨'\x7d', by decide, hw.trans (List.suffix_cons _ _)⟩

theorem FormsText.exists_last (h : FormsText fs s r) : s = r ∨ ∃ x, x ≠ '\n' ∧ x :: r <:+ s := by
  induction fs generalizing s with
  | nil =>
    cases h
    exact .inl rfl
  | cons f fs ih =>
    cases h with
    | cons before head tail =>
      obtain ⟨y, hy, hs⟩ := head.exists_last
      rcases ih tail with rfl | ⟨x, hx, hr⟩
      · exact .inr ⟨y, hy, hs.trans before.framed.suffix⟩
      · have ht := head.framed.suffix.trans before.framed.suffix
        exact .inr ⟨x, hx, hr.trans ht⟩

theorem FormsText.append (h : FormsText fs s r) (hg : ProgramText gs r) :
    ProgramText (fs ++ gs) s := by
  induction fs generalizing s with
  | nil =>
    cases h
    exact hg
  | cons f fs ih =>
    cases h with
    | cons before head tail =>
      obtain ⟨r', hf, ht⟩ := ih tail
      exact ⟨r', .cons before head hf, ht⟩

/-- Trivia that ends with a newline is over there, whatever comes next. -/
theorem Trivia.before_text {w : List Char} (h : Trivia (w ++ ['\n']) []) (t : List Char) :
    Trivia (w ++ '\n' :: t) t := by
  have hn : Trivia ('\n' :: t) t := .blank (by decide) (.done t)
  generalize hs : w ++ ['\n'] = s at h
  generalize hr : ([] : List Char) = r at h
  induction h generalizing w with
  | done s =>
    subst hr
    simp at hs
  | blank hb _ ih =>
    cases w with
    | nil => exact hn
    | cons c w =>
      obtain ⟨rfl, rfl⟩ := List.cons.inj hs
      exact .blank hb (ih rfl hr)
  | @comment u s r hu he _ ih =>
    cases w with
    | nil => simp at hs
    | cons c w =>
      obtain ⟨rfl, hw⟩ := List.cons.inj hs
      rcases List.append_eq_append_iff.mp hw with ⟨as, rfl, has⟩ | ⟨bs, rfl, rfl⟩
      · -- the newline would be inside the comment, unless the comment ends right before it
        cases as with
        | nil =>
          rw [List.append_nil] at hu
          exact .comment hu (by simp) hn
        | cons a as =>
          have ha : '\n' = a ∧ as ++ s = [] := by simpa using has
          exact absurd ha.1.symm (hu a (by simp))
      · rw [List.cons_append, List.append_assoc]
        refine .comment hu ?_ (ih rfl hr)
        intro x hx
        cases bs with
        | nil => simpa using hx.symm
        | cons b bs => exact he x hx

/-- A text that ends with a newline is read the same whatever comes next. -/
theorem ProgramText.append_line (h : ProgramText fs (s ++ ['\n'])) (hg : ProgramText gs t) :
    ProgramText (fs ++ gs) (s ++ '\n' :: t) := by
  obtain ⟨r, hf, ht⟩ := h
  obtain ⟨u, hs, hu⟩ := hf.framed
  rcases List.eq_nil_or_concat r with rfl | ⟨w, x, rfl⟩
  · exfalso
    rcases hf.exists_last with he | ⟨x, hx, v, he⟩
    · simp at he
    · exact hx (by simpa using (List.append_inj' he rfl).2)
  · rw [List.concat_eq_append] at hs ht hu
    rw [← List.append_assoc] at hs
    obtain ⟨rfl, hx⟩ := List.append_inj' hs rfl
    obtain rfl : '\n' = x := by simpa using hx
    have hc : Closes (w ++ ['\n']) (w ++ '\n' :: t) := by
      cases w <;> exact .inl rfl
    rw [List.append_assoc]
    exact (hu _ hc).append (hg.after_trivia (ht.before_text t))

end Woof.Syntax

namespace Woof.Value

theorem equalAll_append {k : Nat} {vs vs' ws ws' : List Value}
    (h : equalAllWithin k vs ws = some true) (h' : equalAllWithin k vs' ws' = some true) :
    equalAllWithin k (vs ++ vs') (ws ++ ws') = some true := by
  induction ws generalizing vs with
  | nil =>
    cases vs with
    | nil => exact h'
    | cons => simp [equalAllWithin] at h
  | cons w ws ih =>
    obtain ⟨u, us, rfl, hu, hus⟩ := equalAll_cons_iff.mp h
    exact equalAll_cons_iff.mpr ⟨u, us ++ vs', rfl, hu, ih hus⟩

end Woof.Value

namespace Woof

open Woof.Syntax

/-- There is nothing in the text, or its last line is ended. -/
def EndsLine (text : String) : Prop := text = "" ∨ ∃ u, text = u ++ "\n"

theorem EndsLine.append {s t : String} (hs : EndsLine s) (ht : EndsLine t) : EndsLine (s ++ t) := by
  rcases ht with rfl | ⟨u, rfl⟩
  · rwa [String.append_empty]
  · exact .inr ⟨s ++ u, String.append_assoc.symm⟩

theorem endsLine_lines (fs : List Form) : EndsLine (Writer.lines fs) := by
  induction fs with
  | nil => exact .inl rfl
  | cons f fs ih =>
    have he : Writer.lines (f :: fs) = f.text ++ "\n" ++ Writer.lines fs := by
      simp [Writer.lines, String.join_cons]
    rw [he]
    exact EndsLine.append (.inr ⟨f.text, rfl⟩) ih

theorem endsLine_heading (version : String) (header : Bool) : EndsLine (heading version header) := by
  cases header with
  | false => exact .inl rfl
  | true => exact .inr ⟨"; written by woofparse " ++ version, rfl⟩

namespace WrittenAs

variable {n : Nat} {vs vs' : List Value} {fs fs' : List Form}

theorem nil (n : Nat) : WrittenAs n [] [] := ⟨Nat.zero_le n, fun _ _ => rfl⟩

theorem append (h : WrittenAs n vs fs) (h' : WrittenAs n vs' fs') :
    WrittenAs n (vs ++ vs') (fs ++ fs') := by
  constructor
  · exact Form.depthAll_append_le.mpr ⟨h.depth, h'.depth⟩
  · intro k hk
    rw [Value.ofForms_eq_map, List.map_append, ← Value.ofForms_eq_map, ← Value.ofForms_eq_map]
    exact Value.equalAll_append (h.equal k hk) (h'.equal k hk)

end WrittenAs

/-- The text is read as the forms, and so it is whatever is written after it. -/
structure Complete (fs : List Form) (text : String) : Prop where
  program : ProgramText fs text.toList
  ends : EndsLine text

namespace Complete

variable {fs gs : List Form} {s t : String}

theorem of_empty : Complete [] "" := ⟨⟨[], .nil [], .done []⟩, .inl rfl⟩

theorem append (h : Complete fs s) (h' : Complete gs t) : Complete (fs ++ gs) (s ++ t) := by
  refine ⟨?_, h.ends.append h'.ends⟩
  rw [String.toList_append]
  rcases h.ends with rfl | ⟨u, rfl⟩
  · obtain rfl := programText_unique h.program of_empty.program
    exact h'.program
  · have hp := h.program
    rw [String.toList_append] at hp ⊢
    have hl := ProgramText.append_line hp h'.program
    simpa using hl

/-- The version must not end the line of the comment that it stands in. -/
theorem of_document {version : String} {n : Nat} {header : Bool} {vs : List Value}
    {casts : List Cast} (hv : '\n' ∉ version.toList)
    (h : (document version n header vs).run [] = (.ok t, casts)) :
    ∃ gs, WrittenAs n vs gs ∧ Complete gs t := by
  obtain ⟨gs, hw, he, rfl⟩ := document_sound h
  have hends := (endsLine_heading version header).append (endsLine_lines gs)
  exact ⟨gs, he, programText_document hw hv header, hends⟩

end Complete

namespace Shelf

/-- A program that is to be written, with the header or without it. -/
structure Entry where
  header : Bool
  forms : List Value

/-- Writes the programs at the end of a stream, one after the other. -/
def appendAll (s : Shelf) (version : String) (limit : Nat) (name : String)
    (entries : List Entry) : Shelf :=
  entries.foldl (fun s e => (s.appendStream version limit name e.header e.forms).2) s

/-- The forms of the programs among these that are written and not refused. -/
def accepted (s : Shelf) (version : String) (limit : Nat) (name : String) :
    List Entry → List Value
  | [] => []
  | e :: entries =>
    match s.appendStream version limit name e.header e.forms with
    | ((.ok (), _), s') => e.forms ++ s'.accepted version limit name entries
    | ((.error _, _), s') => s'.accepted version limit name entries

variable {shelf shelf' : Shelf} {version : String} {m n : Nat} {name : String} {header : Bool}
  {vs : List Value} {casts : List Cast} {fs : List Form}

theorem appendAll_concat (s : Shelf) (entries : List Entry) (e : Entry) :
    s.appendAll version n name (entries ++ [e]) =
      ((s.appendAll version n name entries).appendStream version n name e.header e.forms).2 := by
  simp [appendAll]

theorem streams_of_appendStream
    (h : shelf.appendStream version n name header vs = ((.ok (), casts), shelf')) :
    ∃ text, (document version n header vs).run [] = (.ok text, casts) ∧
      shelf'.streams name = shelf.streams name ++ text := by
  match hd : (document version n header vs).run [] with
  | (.ok text, made) =>
    rw [appendStream, hd] at h
    obtain ⟨hc, rfl⟩ := Prod.mk.inj h
    obtain ⟨-, rfl⟩ := Prod.mk.inj hc
    exact ⟨text, rfl, streams_putStream _ _ _⟩
  | (.error e, made) =>
    rw [appendStream, hd] at h
    cases h

theorem eq_of_appendStream_error {e : WriteError}
    (h : shelf.appendStream version n name header vs = ((.error e, casts), shelf')) :
    shelf' = shelf := by
  match hd : (document version n header vs).run [] with
  | (.ok text, made) =>
    rw [appendStream, hd] at h
    cases h
  | (.error e, made) =>
    rw [appendStream, hd] at h
    exact (Prod.mk.inj h).2.symm

/-- What one write preserves: the stream is complete, with the forms that were written. -/
theorem Complete.appendStream (hv : '\n' ∉ version.toList)
    (h : Complete fs (shelf.streams name))
    (hw : shelf.appendStream version n name header vs = ((.ok (), casts), shelf')) :
    ∃ gs, WrittenAs n vs gs ∧ Complete (fs ++ gs) (shelf'.streams name) := by
  obtain ⟨text, hd, hs⟩ := streams_of_appendStream hw
  obtain ⟨gs, he, hg⟩ := Woof.Complete.of_document hv hd
  exact ⟨gs, he, hs ▸ h.append hg⟩

/-- What a run of writes preserves. -/
theorem Complete.appendAll (hv : '\n' ∉ version.toList) (h : Complete fs (shelf.streams name))
    (n : Nat) (entries : List Entry) :
    ∃ gs, WrittenAs n (shelf.accepted version n name entries) gs ∧
      Complete (fs ++ gs) ((shelf.appendAll version n name entries).streams name) := by
  induction entries generalizing shelf fs with
  | nil => exact ⟨[], .nil n, by rwa [List.append_nil]⟩
  | cons e entries ih =>
    rw [accepted, Shelf.appendAll, List.foldl_cons, ← Shelf.appendAll]
    match hw : shelf.appendStream version n name e.header e.forms with
    | ((.ok (), casts), shelf') =>
      obtain ⟨gs, he, hg⟩ := Complete.appendStream hv h hw
      obtain ⟨gs', he', hg'⟩ := ih hg
      refine ⟨gs ++ gs', he.append he', ?_⟩
      rw [← List.append_assoc]
      exact hg'
    | ((.error error, casts), shelf') =>
      obtain rfl := eq_of_appendStream_error hw
      exact ih h

theorem loadStream_eq (shelf : Shelf) (m : Nat) (name : String) :
    (shelf.loadStream m name Receiver.ignore ()).1 =
      (parseWithin m Receiver.ignore () (shelf.streams name)).1.mapError .unparsed := rfl

theorem loadStream_eq_ok_iff :
    (shelf.loadStream m name Receiver.ignore ()).1 = .ok fs ↔
      (parseWithin m Receiver.ignore () (shelf.streams name)).1 = .ok fs := by
  rw [loadStream_eq]
  cases (parseWithin m Receiver.ignore () (shelf.streams name)).1 <;> simp [Except.mapError]

theorem Complete.loadStream (h : Complete fs (shelf.streams name)) (m : Nat) :
    (shelf.loadStream m name Receiver.ignore ()).1 =
      if 0 < m ∧ Form.depthAll fs ≤ m then .ok fs
      else .error (.unparsed (.tooDeep (shelf.streams name))) := by
  rw [loadStream_eq, parseWithin_complete h.program m]
  split <;> rfl

/-- A stream accumulates the programs that are written to it. If it was empty, or was read as some
forms and ended its last line, then after any writes it is read as these forms and, behind them,
the forms of the writes that were not refused; only a limit below their depth keeps them from being
read. A write that was refused has left everything as it was. All that is asked of the version is
that it does not end the line of a header. -/
theorem loadStream_appendAll (hv : '\n' ∉ version.toList)
    (h : shelf.streams name = "" ∧ fs = [] ∨
      (shelf.loadStream m name Receiver.ignore ()).1 = .ok fs ∧
        ∃ u, shelf.streams name = u ++ "\n")
    (n : Nat) (entries : List Entry) :
    (∃ gs, Form.depthAll (fs ++ gs) ≤ max m n ∧
      (∀ k, n ≤ k → Value.equalWithin k (.list (shelf.accepted version n name entries))
        (.list (gs.map .ofForm)) = some true) ∧
      ∀ l, ((shelf.appendAll version n name entries).loadStream l name Receiver.ignore ()).1 =
        if 0 < l ∧ Form.depthAll (fs ++ gs) ≤ l then .ok (fs ++ gs)
        else .error (.unparsed
          (.tooDeep ((shelf.appendAll version n name entries).streams name)))) ∧
    ∀ before e after error, entries = before ++ e :: after →
      ((shelf.appendAll version n name before).appendStream version n name
        e.header e.forms).1.1 = .error error →
      shelf.appendAll version n name (before ++ [e]) = shelf.appendAll version n name before := by
  constructor
  · have hc : Complete fs (shelf.streams name) ∧ Form.depthAll fs ≤ m := by
      rcases h with ⟨hs, rfl⟩ | ⟨hl, he⟩
      · exact ⟨hs ▸ .of_empty, Nat.zero_le m⟩
      · obtain ⟨hp, -, hd⟩ := parseWithin_eq_ok_iff.mp (loadStream_eq_ok_iff.mp hl)
        exact ⟨⟨hp, .inr he⟩, Form.depthAll_le_iff.mpr hd⟩
    obtain ⟨gs, he, hg⟩ := Complete.appendAll hv hc.1 n entries
    have hdf : Form.depthAll fs ≤ max m n := Nat.le_trans hc.2 (Nat.le_max_left m n)
    have hdg : Form.depthAll gs ≤ max m n := Nat.le_trans he.depth (Nat.le_max_right m n)
    refine ⟨gs, Form.depthAll_append_le.mpr ⟨hdf, hdg⟩, ?_, Complete.loadStream hg⟩
    intro k hk
    rw [← Value.ofForms_eq_map]
    exact Value.equal_list_iff.mpr (he.equal k hk)
  · intro before e _ error _ he
    match hw : (shelf.appendAll version n name before).appendStream version n name
        e.header e.forms with
    | ((.ok (), casts), shelf') =>
      rw [hw] at he
      cases he
    | ((.error _, casts), shelf') =>
      rw [appendAll_concat, hw]
      exact eq_of_appendStream_error hw

theorem loadStream_appendAll_refused :
    '\n' ∉ "1.2.0".toList ∧
    (∃ u, (Shelf.empty.putStream "s" "a ;c\n").streams "s" = u ++ "\n") ∧
    ((Shelf.empty.putStream "s" "a ;c\n").loadStream 1 "s" Receiver.ignore ()).1 =
      .ok [.symbol "a"] ∧
    ∃ gs, Value.equalWithin 1 (.list [.symbol (.text "b")]) (.list (gs.map .ofForm)) = some true ∧
      (((Shelf.empty.putStream "s" "a ;c\n").appendAll "1.2.0" 1 "s"
        [⟨true, [.symbol (.text "b"), .number (.int (-1))]⟩,
          ⟨true, [.symbol (.text "b")]⟩]).loadStream 1 "s" Receiver.ignore ()).1 =
        .ok (.symbol "a" :: gs) := by
  have hv : '\n' ∉ "1.2.0".toList := by decide
  have he : ∃ u, (Shelf.empty.putStream "s" "a ;c\n").streams "s" = u ++ "\n" := ⟨"a ;c", rfl⟩
  have hp : (parseWithin 1 Receiver.ignore () "a ;c\n").1 = .ok [.symbol "a"] := by
    rw [parseWithin_ignore]
    cbv
  have hl : ((Shelf.empty.putStream "s" "a ;c\n").loadStream 1 "s" Receiver.ignore ()).1 =
      .ok [.symbol "a"] := loadStream_eq_ok_iff.mpr (by rw [streams_putStream, hp])
  have ha : (Shelf.empty.putStream "s" "a ;c\n").accepted "1.2.0" 1 "s"
      [⟨true, [.symbol (.text "b"), .number (.int (-1))]⟩, ⟨true, [.symbol (.text "b")]⟩] =
      [.symbol (.text "b")] := rfl
  obtain ⟨⟨gs, hd, hg, hr⟩, -⟩ := loadStream_appendAll hv (.inr ⟨hl, he⟩) 1
    [⟨true, [.symbol (.text "b"), .number (.int (-1))]⟩, ⟨true, [.symbol (.text "b")]⟩]
  refine ⟨hv, he, hl, gs, ha ▸ hg 1 (Nat.le_refl 1), ?_⟩
  rw [hr, if_pos ⟨Nat.one_pos, hd⟩]
  rfl

end Shelf

end Woof
