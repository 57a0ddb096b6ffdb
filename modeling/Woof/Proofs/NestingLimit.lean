import Woof.Proofs.Diagnosis

namespace Woof.Parser

open Woof.Grammar

/-- How many delimiters that open a construct are among the characters. -/
def openings (s : List Char) : Nat := s.count '(' + s.count '\x7b'

theorem openings_le_of_suffix {s r : List Char} (h : r <:+ s) : openings r ≤ openings s := by
  have hp := h.sublist.count_le '('
  have hc := h.sublist.count_le '\x7b'
  rw [openings, openings]
  omega

theorem openings_le_of_onward {c c' : Cursor} (h : c.Onward c') :
    openings c'.text ≤ openings c.text :=
  openings_le_of_suffix (h.suffix.map Token.symbol)

variable {α β : Type} {limit : Nat} {p : Scan α} {k : α → Scan β}

/-- A run is interrupted in its first part or after it. -/
theorem eq_error_of_bind {x : Except Interrupt (Outcome α)}
    {g : Outcome α → Except Interrupt (Outcome β)} {i : Interrupt} (h : x >>= g = .error i) :
    x = .error i ∨ ∃ o, x = .ok o ∧ g o = .error i := by
  cases x with
  | error j => exact .inl (congrArg _ (Except.error.inj h))
  | ok o => exact .inr ⟨o, rfl, h⟩

/-- Where fewer constructs are opened than the limit, the parser does not meet it. -/
def Fits (limit : Nat) (p : Scan α) : Prop :=
  ∀ c, openings c.text < limit → p c ≠ .error .tooDeep

namespace Fits

theorem of_reads {f : List (Token Char) → Reading α} (h : Reads p f) : Fits limit p :=
  fun _ _ => h.ne_interrupt

theorem of_pure (v : α) : Fits limit (pure v : Scan α) := of_reads (Reads.of_pure v)

theorem reject (d : Diagnostic) : Fits limit (Parser.reject d : Scan α) := by
  intro c _ h
  cases h

theorem bind (h : Fits limit p) (ha : Advances p) (hk : ∀ v, Fits limit (k v)) :
    Fits limit (p >>= k) := by
  intro c hc hb
  rcases eq_error_of_bind hb with hp | ⟨o, hp, hg⟩
  · exact h c hc hp
  · cases o with
    | success v c' => exact hk v c' (Nat.lt_of_le_of_lt (openings_le_of_onward (ha hp)) hc) hg
    | failure | error => cases hg

theorem expecting (h : Fits limit p) (d : Diagnostic) : Fits limit (Parser.expecting d p) := by
  intro c hc he
  rcases eq_error_of_bind he with hp | ⟨o, -, hg⟩
  · exact h c hc hp
  · cases o <;> cases hg

theorem optional (h : Fits limit p) : Fits limit (Parser.optional p) := by
  intro c hc ho
  rcases eq_error_of_bind ho with hp | ⟨o, -, hg⟩
  · exact h c hc hp
  · cases o <;> cases hg

theorem filter (h : Fits limit p) (wanted : α → Bool) : Fits limit (Parser.filter wanted p) := by
  intro c hc hf
  rcases eq_error_of_bind hf with hp | ⟨o, -, hg⟩
  · exact h c hc hp
  · cases o with
    | success v c' => cases hw : wanted v <;> simp [hw, pure, Except.pure] at hg
    | failure | error => cases hg

theorem map (h : Fits limit p) (f : α → β) : Fits limit (f <$> p) := by
  intro c hc hm
  rcases eq_error_of_bind hm with hp | ⟨o, -, hg⟩
  · exact h c hc hp
  · cases hg

theorem firstOf {ps : List (Scan α)} (h : ∀ p ∈ ps, Fits limit p) :
    Fits limit (Parser.firstOf ps) := by
  intro c hc hf
  have hne : Parser.firstOf ps c ≠ .ok .failure := by simp [hf]
  obtain ⟨p, hm, he⟩ := exists_mem_of_firstOf hne
  exact h p hm c hc (he.trans hf)

theorem zeroOrMore (h : Fits limit p) (ha : Advances p) : Fits limit (Parser.zeroOrMore p) := by
  have go (values : List α) (c : Cursor) :
      openings c.text < limit → repeatFrom p values c ≠ .error .tooDeep := by
    fun_induction repeatFrom p values c with
    | case1 values c ih =>
      intro hc hr
      rcases eq_error_of_bind hr with hp | ⟨o, hp, hg⟩
      · exact h c hc hp
      · cases o with
        | success v c' =>
          by_cases hl : c'.left < c.left
          · simp only [hl, if_true] at hg
            exact ih v c' hl (Nat.lt_of_le_of_lt (openings_le_of_onward (ha hp)) hc) hg
          · simp only [hl, if_false] at hg
            cases hg
        | failure | error => cases hg
  intro c hc
  exact go [] c hc

theorem oneOrMore (h : Fits limit p) (ha : Advances p) : Fits limit (Parser.oneOrMore p) :=
  (h.zeroOrMore ha).filter _

/-- What comes after an opening delimiter has one less of them to open. -/
theorem after_opening {a : Alphabet} {x : Char} {k : Token Char → Scan α}
    (hx : x = '(' ∨ x = '\x7b') (hk : ∀ t, Fits limit (k t)) :
    Fits (limit + 1) (delimiter a x >>= k) := by
  intro c hc hb
  have hr := reads_delimiter a x
  rcases eq_error_of_bind hb with hp | ⟨o, hp, hg⟩
  · exact hr.ne_interrupt hp
  · cases o with
    | success t c' =>
      obtain ⟨hs, ht⟩ := headIf_eq_some_iff.mp (hr.of_success hp).1
      have hle : openings (t.symbol :: c'.text) ≤ openings c.text := by
        have hsuf : t :: c'.remaining <:+ c.remaining := hs ▸ skip_suffix a c.remaining
        exact openings_le_of_suffix (hsuf.map Token.symbol)
      have hlt : openings c'.text < openings (t.symbol :: c'.text) := by
        rw [beq_iff_eq.mp ht]
        rcases hx with rfl | rfl <;> simp [openings]
      exact hk t c' (by omega) hg
    | failure | error => cases hg

end Fits

end Woof.Parser

namespace Woof.Grammar

open Woof.Parser

variable {a : Alphabet} {limit : Nat} {inner : Scan Form}

theorem fits_delimiter (x : Char) : Fits limit (delimiter a x) := .of_reads (reads_delimiter a x)

theorem fits_number : Fits limit (number a) := by
  refine (Fits.of_reads (reads_trivia a)).bind (.of_reads (reads_trivia a)) fun _ => ?_
  refine (Fits.of_reads (reads_digits a)).bind (.of_reads (reads_digits a)) fun ds => ?_
  intro c _ h
  rw [numeral, effect] at h
  cases hn : Numeral.read (spell ds) <;> rw [hn] at h <;> cases h

theorem fits_application (h : Fits limit inner) (ha : Advances inner) :
    Fits (limit + 1) (application a inner) := by
  refine Fits.after_opening (.inl rfl) fun _ => ?_
  refine (h.expecting _).bind (ha.expecting _) fun _ => ?_
  refine (h.zeroOrMore ha).bind ha.zeroOrMore fun _ => ?_
  exact ((fits_delimiter _).expecting _).bind ((advances_delimiter _).expecting _) fun _ => .of_pure _

theorem fits_define (h : Fits limit inner) (ha : Advances inner) :
    Fits (limit + 1) (define a inner) := by
  have hw := reads_keyword a "define"
  have hs := reads_stringLiteral a
  have hn := reads_symbol a
  refine Fits.after_opening (.inr rfl) fun _ => ?_
  refine (Fits.of_reads hw).bind (.of_reads hw) fun _ => ?_
  refine (Fits.of_reads hs).optional.bind (Advances.of_reads hs).optional fun _ => ?_
  refine ((Fits.of_reads hn).expecting _).bind ((Advances.of_reads hn).expecting _) fun _ => ?_
  refine (h.expecting _).bind (ha.expecting _) fun _ => ?_
  exact ((fits_delimiter _).expecting _).bind ((advances_delimiter _).expecting _) fun _ => .of_pure _

theorem fits_parameters (opening : Location) : Fits limit (parameters a opening) := by
  have hn := reads_symbol a
  refine ((Fits.of_reads hn).zeroOrMore (.of_reads hn)).bind (Advances.of_reads hn).zeroOrMore
    fun names => ?_
  cases firstRepeated names with
  | none => exact .of_pure _
  | some name => exact .reject _

theorem fits_lambda (h : Fits limit inner) (ha : Advances inner) :
    Fits (limit + 1) (lambda a inner) := by
  have hw := reads_keyword a "lambda"
  refine Fits.after_opening (.inr rfl) fun _ => ?_
  refine (Fits.of_reads hw).bind (.of_reads hw) fun _ => ?_
  refine ((fits_delimiter _).expecting _).bind ((advances_delimiter _).expecting _) fun _ => ?_
  refine (fits_parameters _).bind (advances_parameters _) fun _ => ?_
  refine ((fits_delimiter _).expecting _).bind ((advances_delimiter _).expecting _) fun _ => ?_
  refine ((h.oneOrMore ha).expecting _).bind (ha.oneOrMore.expecting _) fun _ => ?_
  exact ((fits_delimiter _).expecting _).bind ((advances_delimiter _).expecting _) fun _ => .of_pure _

theorem fits_special (h : Fits limit inner) (ha : Advances inner) :
    Fits (limit + 1) (special a inner) := by
  apply Fits.firstOf
  intro p hp
  simp only [List.mem_cons, List.not_mem_nil, or_false] at hp
  rcases hp with rfl | rfl | rfl
  · exact fits_define h ha
  · exact fits_lambda h ha
  · exact (fits_delimiter _).bind (advances_delimiter _) fun _ => .reject _

/-- Every form inside another is read behind a delimiter that opens a construct, so that forms are
nested no deeper than one more than the number of these delimiters. -/
theorem fits_form (a : Alphabet) (limit : Nat) : Fits limit (form a limit) := by
  induction limit with
  | zero =>
    intro c hc
    exact absurd hc (Nat.not_lt_zero _)
  | succ limit ih =>
    have ha := advances_form a limit
    apply Fits.firstOf
    intro p hp
    simp only [alternatives, List.mem_cons, List.not_mem_nil, or_false] at hp
    rcases hp with rfl | rfl | rfl | rfl | rfl
    · exact (Fits.of_reads (reads_symbol a)).map _
    · exact fits_number.map _
    · exact (Fits.of_reads (reads_stringLiteral a)).map _
    · exact fits_application ih ha
    · exact fits_special ih ha

theorem extends_unwatched {n m : Nat} (h : n ≤ m) : Extends (unwatched a m) (unwatched a n) :=
  (form_extends a h).zeroOrMore.bind fun _ => .refl _

theorem steps_of_le {n m : Nat} (h : n ≤ m) {c c' : Cursor} {fs : List Form}
    (hs : Steps (form .woof n) c fs c') : Steps (form .woof m) c fs c' := by
  induction hs with
  | nil c => exact .nil c
  | cons head less _ ih => exact .cons (form_eq_ok_of_le h head) less ih

end Woof.Grammar

namespace Woof

open Woof.Grammar Woof.Parser

variable {n m : Nat} {σ : Type}

/-- The record once the forms were delivered, up to the first objection. -/
def Receiver.after (receive : Receiver σ) (fs : List Form) (record : σ) : σ :=
  match receive.feed fs record with
  | .ok r | .error (_, r) => r

/-- Reading ended because forms are nested deeper than the limit, or because that is what was made
of a receiver that went too deep. -/
def CutOff (result : Except ParseError (List Form)) : Prop :=
  ∃ place, result = .error (.malformed ⟨.nestingTooDeep, place⟩)

/-- The forms that are read under a limit are read under a higher one too; no other is if reading
was not cut off. -/
theorem exists_more (h : n ≤ m) (text : String) :
    ∃ fs more,
      (∀ {σ : Type} (receive : Receiver σ) (record : σ),
        parseWithin n receive record text =
          receive.delivering text fs record (parseWithin n Receiver.ignore () text).1) ∧
      (∀ {σ : Type} (receive : Receiver σ) (record : σ),
        parseWithin m receive record text =
          receive.delivering text (fs ++ more) record (parseWithin m Receiver.ignore () text).1) ∧
      ((parseWithin n Receiver.ignore () text).1 = .error (.tooDeep text) ∨
        more = [] ∧ (parseWithin m Receiver.ignore () text).1 =
          (parseWithin n Receiver.ignore () text).1) := by
  obtain ⟨fs, c, hs, hn⟩ := exists_form_steps n (.ofText text)
  have hm := steps_of_le h hs
  by_cases hd : form .woof n c = .error .tooDeep
  · obtain ⟨more, c', hs', hn'⟩ := exists_form_steps m c
    have hu : unwatched .woof n (.ofText text) = .error .tooDeep :=
      bind_of_interrupt (zeroOrMore_of_interrupt hs hd)
    refine ⟨fs, more, fun _ _ => parseWithin_of_steps _ _ hs hn,
      fun _ _ => parseWithin_of_steps _ _ (hm.append hs') hn', .inl ?_⟩
    rw [parseWithin_ignore, hu]
    rfl
  · have hf := form_extends .woof h c hd
    have hu : unwatched .woof n (.ofText text) ≠ .error .tooDeep := by
      intro he
      have hstop := unwatched_stops hs hn
      rw [he] at hstop
      cases hstop with
      | tooDeep isDeep => exact hd isDeep
    refine ⟨fs, [], fun _ _ => parseWithin_of_steps _ _ hs hn, fun _ _ => ?_, .inr ⟨rfl, ?_⟩⟩
    · rw [List.append_nil]
      exact parseWithin_of_steps _ _ hm (hf ▸ hn)
    · rw [parseWithin_ignore, parseWithin_ignore, extends_unwatched h _ hu]

/-- A receiver that is to get more forms goes on from its record, unless it objects before. -/
theorem Receiver.exists_after (receive : Receiver σ) (text : String) (fs more : List Form)
    (record : σ) (result result' : Except ParseError (List Form)) :
    ∃ gs, (receive.delivering text (fs ++ more) record result').2 =
      receive.after gs (receive.delivering text fs record result).2 := by
  rw [delivering, delivering, feed_append]
  cases receive.feed fs record with
  | error stop => exact ⟨[], rfl⟩
  | ok r =>
    refine ⟨more, ?_⟩
    rw [after]
    cases hm : receive.feed more r <;> simp [hm]

theorem parseWithin_of_not_cutOff (h : n ≤ m) {text : String} {receive : Receiver σ} {record : σ}
    (hc : ¬ CutOff (parseWithin n receive record text).1) :
    parseWithin m receive record text = parseWithin n receive record text := by
  obtain ⟨fs, more, hn, hm, hd | ⟨rfl, he⟩⟩ := exists_more h text
  · -- then the receiver has objected to one of the forms that are read under either limit
    rw [hn, Receiver.delivering] at hc ⊢
    rw [hm, Receiver.delivering, Receiver.feed_append]
    cases hf : receive.feed fs record with
    | error stop => rfl
    | ok r =>
      rw [hf, hd] at hc
      exact absurd ⟨_, rfl⟩ hc
  · rw [hn, hm, he, List.append_nil]

/-- Forms that no one objects to are not nested deeper than there are delimiters that open one. -/
theorem not_cutOff_of_openings_lt {text : String} (h : openings text.toList < n) :
    ¬ CutOff (parseWithin n Receiver.ignore () text).1 := by
  rintro ⟨place, hp⟩
  obtain ⟨fs, c, hs, hstop, -⟩ := exists_run n text
  rw [parseWithin_ignore] at hp
  generalize unwatched .woof n (.ofText text) = run at hstop hp
  cases hstop with
  | done => cases hp
  | unparsed => cases hp
  | faulty errs =>
    obtain ⟨_, _, -, -, -, ho⟩ := located_of_form_error n c errs
    have hd := ParseError.malformed.inj (Except.error.inj hp)
    exact ho.fault_ne.2 (by rw [hd])
  | tooDeep isDeep =>
    have hc := openings_le_of_onward (hs.onward (advances_form .woof n))
    rw [Cursor.text_ofText] at hc
    exact fits_form .woof n c (Nat.lt_of_le_of_lt hc h) isDeep

theorem parseWithin_of_openings_lt {text : String} (hn : openings text.toList < n) (h : n ≤ m)
    (receive : Receiver σ) (record : σ) :
    parseWithin m receive record text = parseWithin n receive record text := by
  obtain ⟨fs, more, hn', hm, hd | ⟨rfl, he⟩⟩ := exists_more h text
  · exact absurd ⟨_, hd⟩ (not_cutOff_of_openings_lt hn)
  · rw [hn', hm, he, List.append_nil]

/-- Otherwise it is the receiver that went too deep, on one of the forms that are read. -/
theorem exists_objection_of_cutOff {text : String} (h : openings text.toList < n)
    {receive : Receiver σ} {record : σ} (hc : CutOff (parseWithin n receive record text).1) :
    ∃ r, receive.feed (parseWithin n Receiver.collect #[] text).2.toList record =
      .error (.tooDeep, r) := by
  obtain ⟨fs, c, -, -, hr⟩ := exists_run n text
  rw [hr Receiver.collect, Receiver.delivering_collect]
  simp only [Array.empty_append]
  rw [hr, Receiver.delivering] at hc
  cases hf : receive.feed fs record with
  | ok r =>
    rw [hf] at hc
    exact absurd hc (not_cutOff_of_openings_lt h)
  | error stop =>
    obtain ⟨e, r⟩ := stop
    rw [hf] at hc
    obtain ⟨place, hp⟩ := hc
    cases e with
    | tooDeep => exact ⟨r, rfl⟩
    | other kind message => cases hp

/-- A limit on nesting only ever cuts off. A run that it does not cut off is the same under every
higher limit, and one that it does cut off goes on from where it was. The reading of a text comes to
one end under all limits above the number of its opening delimiters, and is not cut off there, unless
it is the receiver that goes too deep on one of the forms that are read. -/
theorem parseWithin_limits (text : String) :
    (∀ (n m : Nat) (σ : Type) (receive : Receiver σ) (record : σ), n ≤ m →
      (¬ CutOff (parseWithin n receive record text).1 →
        parseWithin m receive record text = parseWithin n receive record text) ∧
      (CutOff (parseWithin n receive record text).1 →
        ∃ more, (parseWithin m receive record text).2 =
          receive.after more (parseWithin n receive record text).2)) ∧
    (∀ n m : Nat, n ≤ m →
      (parseWithin n Receiver.collect #[] text).2.toList <+:
        (parseWithin m Receiver.collect #[] text).2.toList) ∧
    ∀ (σ : Type) (receive : Receiver σ) (record : σ), ∃ result,
      (CutOff result.1 → ∃ r,
        receive.feed (parseWithin (openings text.toList + 1) Receiver.collect #[] text).2.toList
          record = .error (.tooDeep, r)) ∧
      ∀ n, openings text.toList < n → parseWithin n receive record text = result := by
  refine ⟨?_, ?_, ?_⟩
  · intro n m σ receive record h
    refine ⟨parseWithin_of_not_cutOff h, ?_⟩
    intro _
    obtain ⟨fs, more, hn, hm, -⟩ := exists_more h text
    rw [hn, hm]
    exact Receiver.exists_after receive text fs more record _ _
  · intro n m h
    obtain ⟨fs, more, hn, hm, -⟩ := exists_more h text
    rw [hn, hm, Receiver.delivering_collect, Receiver.delivering_collect]
    simp
  · intro σ receive record
    have hl := Nat.lt_succ_self (openings text.toList)
    exact ⟨_, exists_objection_of_cutOff hl, fun n hn =>
      parseWithin_of_openings_lt hl hn receive record⟩

theorem parseWithin_limits_cut :
    CutOff (parseWithin 1 Receiver.collect #[] "x (y)").1 ∧
    (∃ more, (parseWithin 2 Receiver.collect #[] "x (y)").2 =
      Receiver.collect.after more #[.symbol "x"]) ∧
    openings "x (y)".toList < 2 ∧ ¬ CutOff (parseWithin 2 Receiver.collect #[] "x (y)").1 ∧
    parseWithin 3 Receiver.collect #[] "x (y)" = parseWithin 2 Receiver.collect #[] "x (y)" := by
  have hx : parseWithin 1 Receiver.collect #[] "x (y)" =
      (.error (.malformed ⟨.nestingTooDeep, ⟨"x", 1, 1⟩⟩), #[.symbol "x"]) := by
    let c := (Cursor.ofText "x (y)").seek [⟨' ', 1, 2⟩, ⟨'(', 1, 3⟩, ⟨'y', 1, 4⟩, ⟨')', 1, 5⟩]
    have hs : Steps (form .woof 1) (.ofText "x (y)") [.symbol "x"] c :=
      .cons (by cbv) (by cbv) (.nil _)
    have hn : form .woof 1 c = .error .tooDeep := by cbv
    rw [parseWithin_of_steps _ _ hs (by simp [hn]), parseWithin_ignore,
      Receiver.delivering_collect]
    cbv
  have hc : CutOff (parseWithin 1 Receiver.collect #[] "x (y)").1 := ⟨_, congrArg Prod.fst hx⟩
  have ho : openings "x (y)".toList < 2 := by decide
  obtain ⟨hmono, -, hend⟩ := parseWithin_limits "x (y)"
  obtain ⟨more, hm⟩ := (hmono 1 2 _ Receiver.collect #[] (by decide)).2 hc
  obtain ⟨result, hr, hall⟩ := hend _ Receiver.collect #[]
  have h2 := hall 2 ho
  have hno : ¬ CutOff result.1 := by
    intro hcut
    obtain ⟨r, hf⟩ := hr hcut
    rw [Receiver.feed_collect] at hf
    cases hf
  refine ⟨hc, ⟨more, ?_⟩, ho, h2 ▸ hno, ?_⟩
  · rw [hm, hx]
  · rw [h2, hall 3 (Nat.lt_succ_of_lt ho)]

end Woof
