import Woof.Grammar.Alphabet

namespace Woof.Alphabet

theorem digits_woof :
    woof.digits = ['0', '1', '2', '3', '4', '5', '6', '7', '8', '9'] := by decide

theorem mem_digits_iff {c : Char} : c ∈ woof.digits ↔ c.isDigit = true := by
  rw [digits_woof]
  constructor
  · intro h
    simp only [List.mem_cons, List.not_mem_nil, or_false] at h
    rcases h with rfl | rfl | rfl | rfl | rfl | rfl | rfl | rfl | rfl | rfl <;> rfl
  · intro h
    have hb := Char.isDigit_iff_toNat.mp h
    have h0 : '0'.toNat = 48 := rfl
    have h9 : '9'.toNat = 57 := rfl
    rw [h0, h9] at hb
    have hn : c.toNat ∈ List.range' 48 10 := by
      rw [List.mem_range'_1]
      omega
    rw [← Char.ofNat_toNat c]
    generalize c.toNat = n at hn
    revert n
    decide

/-- The characters with a meaning of their own, which are in no class of the language. -/
def marks : List Char := [';', '(', ')', '\x7b', '\x7d', '\x22', '\\']

/-- The marks that stand for themselves, one character each. -/
def delimiters : List Char := ['(', ')', '\x7b', '\x7d']

theorem mark_of_delimiter {c : Char} (h : c ∈ delimiters) : c ∈ marks ∧ c ≠ ';' ∧ c ≠ '\x22' := by
  simp only [delimiters, List.mem_cons, List.not_mem_nil, or_false] at h
  rcases h with rfl | rfl | rfl | rfl <;> exact ⟨by decide, by decide, by decide⟩

/-- The classes of the language and its marks have nothing in common. -/
theorem classes_disjoint :
    (∀ c ∈ woof.symbolStarts, c ∉ woof.digits ∧ c ∉ woof.whitespace ∧ c ∉ marks) ∧
    (∀ c ∈ woof.digits, c ∉ woof.whitespace ∧ c ∉ marks) ∧
    (∀ c ∈ woof.whitespace, c ∉ marks) := by
  have hs : woof.symbolStarts.all
      (fun c => c ∉ woof.digits ∧ c ∉ woof.whitespace ∧ c ∉ marks) = true := by decide
  have hd : woof.digits.all (fun c => c ∉ woof.whitespace ∧ c ∉ marks) = true := by decide
  have hw : woof.whitespace.all (fun c => c ∉ marks) = true := by decide
  refine ⟨fun c hc => ?_, fun c hc => ?_, fun c hc => ?_⟩
  · exact of_decide_eq_true (List.all_eq_true.mp hs c hc)
  · exact of_decide_eq_true (List.all_eq_true.mp hd c hc)
  · exact of_decide_eq_true (List.all_eq_true.mp hw c hc)

theorem not_mem_of_mark {c : Char} (h : c ∈ marks) : c ∉ woof.symbolStarts ∧ c ∉ woof.digits :=
  ⟨fun hs => (classes_disjoint.1 c hs).2.2 h, fun hd => (classes_disjoint.2.1 c hd).2 h⟩

theorem not_mem_of_whitespace {c : Char} (h : c ∈ woof.whitespace) :
    c ∉ woof.symbolStarts ∧ c ∉ woof.digits :=
  ⟨fun hs => (classes_disjoint.1 c hs).2.1 h, fun hd => (classes_disjoint.2.1 c hd).1 h⟩

end Woof.Alphabet
