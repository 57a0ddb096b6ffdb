import Woof.Proofs.Onward
import Woof.Proofs.Spelling

namespace Woof.Parser

variable {α β : Type} {p : Scan α} {k : α → Scan β}

/-- Where the parser succeeds, fewer tokens are left than before. -/
def Consumes (p : Scan α) : Prop :=
  ∀ ⦃c v c'⦄, p c = .ok (.success v c') → c'.left < c.left

theorem Steps.left_le {c c' : Cursor} {vs : List α} (h : Steps p c vs c') : c'.left ≤ c.left := by
  induction h with
  | nil => exact Nat.le_refl _
  | cons _ less _ ih => exact Nat.le_of_lt (Nat.lt_of_le_of_lt ih less)

namespace Consumes

theorem of_reads {f : List (Token Char) → Reading α} (h : Reads p f)
    (hf : ∀ {ts v rest}, f ts = some (v, rest) → rest.length < ts.length) : Consumes p := by
  intro c v c' hp
  obtain ⟨hr, -, -⟩ := h.of_success hp
  have hl := hf hr
  rwa [Cursor.length_remaining, Cursor.length_remaining] at hl

/-- The first part consumes something and the others give nothing back. -/
theorem bind (h : Consumes p) (hk : ∀ v, Advances (k v)) : Consumes (p >>= k) := by
  intro c v c' hb
  obtain ⟨u, c₁, hp, hv⟩ := bind_eq_success_iff.mp hb
  have hl := (hk u hv).left_le
  exact Nat.lt_of_le_of_lt hl (h hp)

theorem map (h : Consumes p) (f : α → β) : Consumes (f <$> p) := by
  intro c v c' hm
  obtain ⟨u, hp, -⟩ := map_eq_success hm
  exact h hp

theorem firstOf {ps : List (Scan α)} (h : ∀ p ∈ ps, Consumes p) : Consumes (Parser.firstOf ps) := by
  intro c v c' hf
  have hne : Parser.firstOf ps c ≠ .ok .failure := by simp [hf]
  obtain ⟨p, hm, he⟩ := exists_mem_of_firstOf hne
  exact h p hm (he.trans hf)

theorem oneOrMore (h : Consumes p) : Consumes (Parser.oneOrMore p) := by
  intro c vs c' ho
  obtain ⟨hz, hne⟩ := filter_eq_success ho
  obtain ⟨hs, -⟩ := zeroOrMore_eq_success (fun hv => h hv) hz
  cases hs with
  | nil => cases hne
  | cons _ less tail => exact Nat.lt_of_le_of_lt tail.left_le less

end Consumes

end Woof.Parser

namespace Woof.Grammar

open Woof.Parser

variable {α : Type} {a : Alphabet} {inner : Scan Form} {ts rest : List (Token Char)}

theorem length_of_headIf {wanted : Token Char → Bool} {t : Token Char}
    (h : headIf wanted ts = some (t, rest)) : rest.length < ts.length := by
  obtain ⟨rfl, -⟩ := headIf_eq_some_iff.mp h
  simp

theorem consumes_charIn (xs : List Char) : Consumes (charIn xs) :=
  .of_reads (reads_charIn xs) length_of_headIf

theorem length_of_readSymbol {name : String} (h : readSymbol a ts = some (name, rest)) :
    rest.length < ts.length := by
  cases ts with
  | nil => simp [readSymbol] at h
  | cons t ts =>
    cases hs : among a.symbolStarts t with
    | false => simp [readSymbol, hs] at h
    | true =>
      have hr : ts.dropWhile (inName a) = rest := by
        rw [readSymbol, if_pos hs] at h
        exact (Prod.mk.inj (Option.some.inj h)).2
      rw [← hr]
      exact Nat.lt_succ_of_le (List.dropWhile_suffix _).length_le

theorem length_of_readString {value : String} (h : readString ts = some (value, rest)) :
    rest.length < ts.length := by
  have hl := (str_of_readString h).length_lt
  simpa using hl

theorem length_skip_le (a : Alphabet) (ts : List (Token Char)) : (skip a ts).length ≤ ts.length :=
  (skip_suffix a ts).length_le

theorem consumes_delimiter (x : Char) : Consumes (delimiter a x) :=
  .of_reads (reads_delimiter a x) fun h =>
    Nat.lt_of_lt_of_le (length_of_headIf h) (length_skip_le a _)

theorem consumes_symbol : Consumes (symbol a) :=
  .of_reads (reads_symbol a) fun h =>
    Nat.lt_of_lt_of_le (length_of_readSymbol h) (length_skip_le a _)

theorem consumes_stringLiteral : Consumes (stringLiteral a) :=
  .of_reads (reads_stringLiteral a) fun h =>
    Nat.lt_of_lt_of_le (length_of_readString h) (length_skip_le a _)

theorem consumes_digits : Consumes (oneOrMore (charIn a.digits)) :=
  Consumes.oneOrMore (consumes_charIn a.digits)

theorem Consumes.lexeme {p : Scan α} (h : Consumes p) : Consumes (lexeme a p) := by
  intro c v c' hp
  rw [lexeme_apply] at hp
  have hl := Cursor.left_seek (skip_suffix a c.remaining)
  have hs := length_skip_le a c.remaining
  rw [Cursor.length_remaining] at hs
  have hc := h hp
  omega

theorem consumes_number : Consumes (number a) :=
  Consumes.lexeme (consumes_digits.bind fun _ => .effect _)

theorem consumes_special (h : Advances inner) : Consumes (special a inner) := by
  apply Consumes.firstOf
  intro p hp
  simp only [List.mem_cons, List.not_mem_nil, or_false] at hp
  rcases hp with rfl | rfl | rfl
  · exact (consumes_delimiter _).bind fun opening =>
      (Advances.of_reads (reads_keyword a _)).bind fun _ => advances_afterDefine h opening
  · exact (consumes_delimiter _).bind fun opening =>
      (Advances.of_reads (reads_keyword a _)).bind fun _ => advances_afterLambda h opening
  · exact (consumes_delimiter _).bind fun _ => .reject _

/-- No form is empty, whatever the classes of characters. -/
theorem consumes_form (a : Alphabet) (limit : Nat) : Consumes (form a limit) := by
  cases limit with
  | zero =>
    intro c f c' h
    cases h
  | succ limit =>
    have hi := advances_form a limit
    apply Consumes.firstOf
    intro p hp
    simp only [alternatives, List.mem_cons, List.not_mem_nil, or_false] at hp
    rcases hp with rfl | rfl | rfl | rfl | rfl
    · exact consumes_symbol.map _
    · exact consumes_number.map _
    · exact consumes_stringLiteral.map _
    · exact (consumes_delimiter _).bind fun opening => advances_afterParen hi opening
    · exact consumes_special hi

end Woof.Grammar
