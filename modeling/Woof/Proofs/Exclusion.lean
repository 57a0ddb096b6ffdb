import Mathlib.Data.List.Forall2
import Mathlib.Data.List.Pairwise
import Woof.Proofs.Commitment

namespace Woof.Parser

variable {α : Type} {p q : Scan α} {ps qs : List (Scan α)} {c : Cursor}

/-- At most one of the parsers does anything but fail at the place. -/
def Exclusive (ps : List (Scan α)) (c : Cursor) : Prop :=
  ps.Pairwise fun p q => p c = .ok .failure ∨ q c = .ok .failure

theorem Exclusive.of_perm (h : Exclusive ps c) (hp : ps.Perm qs) : Exclusive qs c :=
  hp.pairwise h Or.symm

theorem firstOf_cons_cons_of_failure (h : q c = .ok .failure) :
    firstOf (p :: q :: ps) c = firstOf (p :: ps) c := by
  by_cases hp : p c = .ok .failure
  · rw [firstOf_cons_of_failure hp, firstOf_cons_of_failure hp, firstOf_cons_of_failure h]
  · rw [firstOf_cons_of_ne hp, firstOf_cons_of_ne hp]

/-- Where the parsers exclude each other, a choice of them does not depend on their order. -/
theorem firstOf_of_perm (hp : ps.Perm qs) (h : Exclusive ps c) : firstOf ps c = firstOf qs c := by
  induction hp with
  | nil => rfl
  | cons p _ ih =>
    by_cases hf : p c = .ok .failure
    · rw [firstOf_cons_of_failure hf, firstOf_cons_of_failure hf]
      exact ih (List.pairwise_cons.mp h).2
    · rw [firstOf_cons_of_ne hf, firstOf_cons_of_ne hf]
  | swap p q ps =>
    have hqp : q c = .ok .failure ∨ p c = .ok .failure :=
      (List.pairwise_cons.mp h).1 p List.mem_cons_self
    rcases hqp with hq | hp
    · rw [firstOf_cons_of_failure hq, firstOf_cons_cons_of_failure hq]
    · rw [firstOf_cons_of_failure hp, firstOf_cons_cons_of_failure hp]
  | trans hp _ ih ih' => exact (ih h).trans (ih' (h.of_perm hp))

end Woof.Parser

namespace Woof.Grammar

open Woof.Parser

variable {α : Type} {a : Alphabet}

/-- The parser fails unless one of the characters is the first after trivia. -/
def OpensOn (a : Alphabet) (xs : List Char) (p : Scan α) : Prop :=
  ∀ c, (∀ x ∈ ahead a c, x ∉ xs) → p c = .ok .failure

/-- The characters that a form of each kind begins with. -/
def firstCharacters (a : Alphabet) : List (List Char) :=
  [a.symbolStarts, a.digits, ['\x22'], ['('], ['\x7b']]

theorem OpensOn.of_ne {x : Char} {p : Scan α} (h : ∀ c, ahead a c ≠ some x → p c = .ok .failure) :
    OpensOn a [x] p := by
  intro c hc
  apply h
  intro hx
  exact hc x hx List.mem_cons_self

/-- Every kind of form skips the same trivia and then asks for a character of its own. -/
theorem opensOn_alternatives (a : Alphabet) (inner : Scan Form) :
    List.Forall₂ (OpensOn a) (firstCharacters a) (alternatives a inner) := by
  refine .cons ?_ (.cons ?_ (.cons ?_ (.cons ?_ (.cons ?_ .nil))))
  · exact fun c => symbolForm_of_ahead
  · exact fun c => numberForm_eq_failure_iff.mpr
  · exact .of_ne fun c => stringForm_of_ahead
  · exact .of_ne fun c => application_of_ahead
  · exact .of_ne fun c => special_of_ahead

/-- Only one of two disjoint lists can have the first character in it. -/
theorem OpensOn.exclusive {xs ys : List Char} {p q : Scan α} (hp : OpensOn a xs p)
    (hq : OpensOn a ys q) (hd : xs.Disjoint ys) (c : Cursor) :
    p c = .ok .failure ∨ q c = .ok .failure := by
  by_cases h : ∀ x ∈ ahead a c, x ∉ xs
  · exact .inl (hp c h)
  · push Not at h
    obtain ⟨x, hx, hm⟩ := h
    refine .inr (hq c fun y hy hn => ?_)
    obtain rfl : x = y := Option.some.inj (hx.symm.trans hy)
    exact hd hm hn

/-- Parsers that open on disjoint characters exclude each other. -/
theorem exclusive_of_opensOn {xss : List (List Char)} {ps : List (Scan α)}
    (h : List.Forall₂ (OpensOn a) xss ps) (hd : xss.Pairwise List.Disjoint) (c : Cursor) :
    Exclusive ps c := by
  obtain ⟨hl, hg⟩ := List.forall₂_iff_get.mp h
  refine List.pairwise_iff_get.mpr fun i j hij => ?_
  have hi : i < xss.length := Nat.lt_of_lt_of_eq i.2 hl.symm
  have hj : j < xss.length := Nat.lt_of_lt_of_eq j.2 hl.symm
  have hxy : (xss.get ⟨i, hi⟩).Disjoint (xss.get ⟨j, hj⟩) :=
    List.pairwise_iff_get.mp hd ⟨i, hi⟩ ⟨j, hj⟩ hij
  exact (hg i hi i.2).exclusive (hg j hj j.2) hxy c

theorem disjoint_firstCharacters : (firstCharacters .woof).Pairwise List.Disjoint := by
  have classes : Alphabet.woof.symbolStarts.Disjoint Alphabet.woof.digits :=
    fun x hs hd => (Alphabet.classes_disjoint.1 x hs).1 hd
  have quote := Alphabet.not_mem_of_mark (c := '\x22') (by decide)
  have paren := Alphabet.not_mem_of_mark (c := '(') (by decide)
  have curly := Alphabet.not_mem_of_mark (c := '\x7b') (by decide)
  simp [firstCharacters, classes, quote, paren, curly]

/-- Another order for the items of a list. -/
structure Arrangement (α : Type) where
  order : List α → List α
  perm : ∀ xs, (order xs).Perm xs

/-- As `form`, with the kinds of form tried in another order. The order may be another one at each
level. -/
def rearrangedForm (a : Alphabet) (arrange : Nat → Arrangement (Scan Form)) : Nat → Scan Form
  | 0 => effect (.error .tooDeep)
  | limit + 1 =>
    firstOf ((arrange limit).order (alternatives a (rearrangedForm a arrange limit)))

/-- As `program`, with forms that are read by another parser. -/
def programOf {σ : Type} (a : Alphabet) (form : Scan Form) (receive : Receiver σ) :
    Parser (Watched σ) (List Form) := do
  let fs ← zeroOrMore do
    let f ← hoist Watched.lift form
    effect (receive.deliver f)
    return f
  let _ ← hoist Watched.lift (endOfProgram a)
  return fs

theorem program_eq_programOf {σ : Type} (a : Alphabet) (limit : Nat) (receive : Receiver σ) :
    program a limit receive = programOf a (form a limit) receive := rfl

/-- The order is of no account if no character can begin forms of two kinds. -/
theorem rearrangedForm_eq (h : (firstCharacters a).Pairwise List.Disjoint)
    (arrange : Nat → Arrangement (Scan Form)) (limit : Nat) :
    rearrangedForm a arrange limit = form a limit := by
  induction limit with
  | zero => rfl
  | succ limit ih =>
    funext c
    have hp := (arrange limit).perm (alternatives a (form a limit))
    have hx := exclusive_of_opensOn (opensOn_alternatives a (form a limit)) h c
    rw [rearrangedForm, ih, form]
    exact firstOf_of_perm hp (hx.of_perm hp.symm)

-- Where a character begins forms of two kinds, the kind that is tried first wins.
example :
    let a : Alphabet := ⟨['1'], ['1'], []⟩
    let c := Cursor.ofText "1"
    let c' : Cursor := ⟨c.tokens, 1, by decide⟩
    form a 1 c = .ok (.success (.symbol "1") c') ∧
      rearrangedForm a (fun _ => ⟨List.reverse, List.reverse_perm⟩) 1 c =
        .ok (.success (.number 1) c') := by
  constructor <;> cbv

/-- No text can be read as forms of two kinds. What a form or a program is read as, and what is
wrong with it, would be the same if the kinds were tried in another order, be it a different one at
every level. -/
theorem alternatives_rearranged :
    (∀ (inner : Scan Form) (c : Cursor), Exclusive (alternatives .woof inner) c) ∧
    ∀ (arrange : Nat → Arrangement (Scan Form)) (limit : Nat),
      rearrangedForm .woof arrange limit = form .woof limit ∧
      ∀ {σ : Type} (receive : Receiver σ),
        programOf .woof (rearrangedForm .woof arrange limit) receive =
          program .woof limit receive := by
  constructor
  · intro inner c
    exact exclusive_of_opensOn (opensOn_alternatives .woof inner) disjoint_firstCharacters c
  · intro arrange limit
    have hf := rearrangedForm_eq disjoint_firstCharacters arrange limit
    refine ⟨hf, fun receive => ?_⟩
    rw [hf, program_eq_programOf]

end Woof.Grammar
