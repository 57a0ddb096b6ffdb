import Woof.Proofs.Form

namespace Woof.Cursor

/-- The second place is in the same text and not before the first. -/
structure Onward (c c' : Cursor) : Prop where
  tokens : c'.tokens = c.tokens
  offset : c.offset ≤ c'.offset

namespace Onward

variable {c c₁ c' : Cursor}

theorem refl (c : Cursor) : c.Onward c := ⟨rfl, Nat.le_refl _⟩

theorem trans (h : c.Onward c₁) (h' : c₁.Onward c') : c.Onward c' :=
  ⟨h'.tokens.trans h.tokens, Nat.le_trans h.offset h'.offset⟩

theorem of_seek {rest : List (Token Char)} (h : rest <:+ c.remaining) : c.Onward (c.seek rest) where
  tokens := rfl
  offset := by
    have hl := h.length_le
    have ho := c.offset_le
    rw [length_remaining, left] at hl
    show c.offset ≤ c.tokens.size - rest.length
    omega

theorem of_left_le (ht : c'.tokens = c.tokens) (h : c'.left ≤ c.left) : c.Onward c' where
  tokens := ht
  offset := by
    have ho := c'.offset_le
    have hc := c.offset_le
    rw [left, left, ht] at h
    rw [ht] at ho
    omega

theorem suffix (h : c.Onward c') : c'.remaining <:+ c.remaining := by
  have hd : c'.remaining = c.remaining.drop (c'.offset - c.offset) := by
    have ho := h.offset
    rw [remaining, remaining, h.tokens, List.drop_drop]
    congr 1
    omega
  rw [hd]
  exact List.drop_suffix _ _

theorem left_le (h : c.Onward c') : c'.left ≤ c.left := by
  rw [← length_remaining, ← length_remaining]
  exact h.suffix.length_le

end Onward

end Woof.Cursor

namespace Woof.Parser

variable {α β : Type} {p : Scan α} {k : α → Scan β}

/-- Where the parser succeeds, it stays in its text and does not go back. -/
def Advances (p : Scan α) : Prop :=
  ∀ ⦃c v c'⦄, p c = .ok (.success v c') → c.Onward c'

theorem Steps.onward (h : Advances p) {c c' : Cursor} {vs : List α} (hs : Steps p c vs c') :
    c.Onward c' := by
  induction hs with
  | nil c => exact .refl c
  | cons head _ _ ih => exact (h head).trans ih

namespace Advances

theorem of_reads {f : List (Token Char) → Reading α} (h : Reads p f) : Advances p := by
  intro c v c' hp
  obtain ⟨-, hc, hs⟩ := h.of_success hp
  rw [hc]
  exact .of_seek hs

theorem of_pure (v : α) : Advances (pure v : Scan α) := of_reads (Reads.of_pure v)

theorem bind (h : Advances p) (hk : ∀ v, Advances (k v)) : Advances (p >>= k) := by
  intro c v c' hb
  obtain ⟨u, c₁, hp, hv⟩ := bind_eq_success_iff.mp hb
  exact (h hp).trans (hk u hv)

theorem map (h : Advances p) (f : α → β) : Advances (f <$> p) := by
  intro c v c' hm
  obtain ⟨u, hp, -⟩ := map_eq_success hm
  exact h hp

theorem filter (h : Advances p) (wanted : α → Bool) : Advances (Parser.filter wanted p) := by
  intro c v c' hf
  exact h (filter_eq_success hf).1

theorem expecting (h : Advances p) (d : Diagnostic) : Advances (Parser.expecting d p) := by
  intro c v c' he
  exact h (expecting_eq_success he)

theorem reject (d : Diagnostic) : Advances (Parser.reject d : Scan α) := by
  intro c v c' hr
  cases hr

theorem effect (x : Except Interrupt α) : Advances (Parser.effect x) := by
  intro c v c' he
  cases x with
  | error i => cases he
  | ok u =>
    obtain ⟨-, rfl⟩ := Outcome.success.inj (Except.ok.inj he)
    exact .refl c

theorem optional (h : Advances p) : Advances (Parser.optional p) := by
  intro c v c' ho
  match hp : p c with
  | .ok (.success u c₁) =>
    rw [optional_of_success hp] at ho
    obtain ⟨-, rfl⟩ := Outcome.success.inj (Except.ok.inj ho)
    exact h hp
  | .ok .failure =>
    rw [optional_of_failure hp] at ho
    obtain ⟨-, rfl⟩ := Outcome.success.inj (Except.ok.inj ho)
    exact .refl c
  | .ok (.error d) | .error i =>
    rw [Parser.optional, hp] at ho
    cases ho

theorem firstOf {ps : List (Scan α)} (h : ∀ p ∈ ps, Advances p) : Advances (Parser.firstOf ps) := by
  intro c v c' hf
  have hne : Parser.firstOf ps c ≠ .ok .failure := by simp [hf]
  obtain ⟨p, hm, he⟩ := exists_mem_of_firstOf hne
  exact h p hm (he.trans hf)

theorem zeroOrMore (h : Advances p) : Advances (Parser.zeroOrMore p) := by
  have go (values : List α) (c : Cursor) :
      ∀ {vs c'}, repeatFrom p values c = .ok (.success vs c') → c.Onward c' := by
    fun_induction repeatFrom p values c with
    | case1 values c ih =>
      intro vs c' hr
      cases hp : p c with
      | error i =>
        rw [hp] at hr
        cases hr
      | ok o =>
        rw [hp] at hr
        cases o with
        | success v c₁ =>
          by_cases hl : c₁.left < c.left
          · simp only [Bind.bind, Except.bind, hl, if_true] at hr
            exact (h hp).trans (ih v c₁ hl hr)
          · simp only [Bind.bind, Except.bind, hl, if_false] at hr
            obtain ⟨-, rfl⟩ := Outcome.success.inj (Except.ok.inj hr)
            exact .refl c
        | failure =>
          obtain ⟨-, rfl⟩ := Outcome.success.inj (Except.ok.inj hr)
          exact .refl c
        | error d => cases hr
  intro c v c' hz
  exact go [] c hz

theorem oneOrMore (h : Advances p) : Advances (Parser.oneOrMore p) := h.zeroOrMore.filter _

end Advances

end Woof.Parser

namespace Woof.Grammar

open Woof.Parser

variable {a : Alphabet} {inner : Scan Form}

theorem Advances.lexeme {α : Type} {p : Scan α} (h : Advances p) : Advances (lexeme a p) :=
  (Advances.of_reads (reads_trivia a)).bind fun _ => h

theorem advances_delimiter (x : Char) : Advances (delimiter a x) :=
  .of_reads (reads_delimiter a x)

theorem advances_number : Advances (number a) :=
  Advances.lexeme ((Advances.of_reads (reads_digits a)).bind fun _ => Advances.effect _)

theorem advances_afterParen (h : Advances inner) (opening : Token Char) :
    Advances (afterParen a inner opening) :=
  (h.expecting _).bind fun _ => h.zeroOrMore.bind fun _ =>
    ((advances_delimiter _).expecting _).bind fun _ => .of_pure _

theorem advances_application (h : Advances inner) : Advances (application a inner) :=
  (advances_delimiter _).bind fun opening => advances_afterParen h opening

theorem advances_afterDefine (h : Advances inner) (opening : Token Char) :
    Advances (afterDefine a inner opening) :=
  (Advances.of_reads (reads_stringLiteral a)).optional.bind fun _ =>
    ((Advances.of_reads (reads_symbol a)).expecting _).bind fun _ =>
      (h.expecting _).bind fun _ => ((advances_delimiter _).expecting _).bind fun _ => .of_pure _

theorem advances_define (h : Advances inner) : Advances (define a inner) :=
  (advances_delimiter _).bind fun opening =>
    (Advances.of_reads (reads_keyword a _)).bind fun _ => advances_afterDefine h opening

theorem advances_parameters (opening : Location) : Advances (parameters a opening) := by
  refine (Advances.of_reads (reads_symbol a)).zeroOrMore.bind fun names => ?_
  cases firstRepeated names with
  | none => exact .of_pure _
  | some name => exact .reject _

theorem advances_afterLambda (h : Advances inner) (opening : Token Char) :
    Advances (afterLambda a inner opening) :=
  ((advances_delimiter _).expecting _).bind fun _ => (advances_parameters _).bind fun _ =>
    ((advances_delimiter _).expecting _).bind fun _ => (h.oneOrMore.expecting _).bind fun _ =>
      ((advances_delimiter _).expecting _).bind fun _ => .of_pure _

theorem advances_lambda (h : Advances inner) : Advances (lambda a inner) :=
  (advances_delimiter _).bind fun opening =>
    (Advances.of_reads (reads_keyword a _)).bind fun _ => advances_afterLambda h opening

theorem advances_special (h : Advances inner) : Advances (special a inner) := by
  apply Advances.firstOf
  intro p hp
  simp only [List.mem_cons, List.not_mem_nil, or_false] at hp
  rcases hp with rfl | rfl | rfl
  · exact advances_define h
  · exact advances_lambda h
  · exact (advances_delimiter _).bind fun _ => .reject _

/-- Reading a form stays in the text and does not go back, whatever the classes of characters. -/
theorem advances_form (a : Alphabet) (limit : Nat) : Advances (form a limit) := by
  induction limit with
  | zero =>
    intro c f c' h
    cases h
  | succ limit ih =>
    apply Advances.firstOf
    intro p hp
    simp only [alternatives, List.mem_cons, List.not_mem_nil, or_false] at hp
    rcases hp with rfl | rfl | rfl | rfl | rfl
    · exact (Advances.of_reads (reads_symbol a)).map _
    · exact advances_number.map _
    · exact (Advances.of_reads (reads_stringLiteral a)).map _
    · exact advances_application ih
    · exact advances_special ih

end Woof.Grammar
