import Woof.Grammar.Form
import Woof.Proofs.Combinator

namespace Woof.Parser

variable {α β : Type} {p q : Scan α} {k l : α → Scan β}

/-- Where the second parser does not meet the limit on nesting, the first ends as it does. -/
def Extends (q p : Scan α) : Prop := ∀ c, p c ≠ .error .tooDeep → q c = p c

namespace Extends

theorem refl (p : Scan α) : Extends p p := fun _ _ => rfl

theorem of_tooDeep (q : Scan α) (h : ∀ c, p c = .error .tooDeep) : Extends q p :=
  fun c hp => absurd (h c) hp

/-- What is made of an outcome alone. -/
theorem after (h : Extends q p) (g : Outcome α → Except Interrupt (Outcome β)) :
    Extends (fun c => q c >>= g) (fun c => p c >>= g) := by
  intro c hb
  have hp : p c ≠ .error .tooDeep := by
    intro he
    apply hb
    show p c >>= g = _
    rw [he]
    rfl
  show q c >>= g = p c >>= g
  rw [h c hp]

theorem bind (h : Extends q p) (hk : ∀ v, Extends (l v) (k v)) : Extends (q >>= l) (p >>= k) := by
  intro c hb
  have hp : p c ≠ .error .tooDeep := fun he => hb (bind_of_interrupt he)
  have hq := h c hp
  match hc : p c with
  | .ok (.success v c') =>
    rw [hc] at hq
    rw [bind_of_success hc] at hb ⊢
    rw [bind_of_success hq]
    exact hk v c' hb
  | .ok .failure =>
    rw [hc] at hq
    rw [bind_of_failure hc, bind_of_failure hq]
  | .ok (.error d) =>
    rw [hc] at hq
    rw [bind_of_error hc, bind_of_error hq]
  | .error i =>
    rw [hc] at hq
    rw [bind_of_interrupt hc, bind_of_interrupt hq]

theorem filter (h : Extends q p) (wanted : α → Bool) :
    Extends (Parser.filter wanted q) (Parser.filter wanted p) :=
  h.after _

theorem expecting (h : Extends q p) (d : Diagnostic) :
    Extends (Parser.expecting d q) (Parser.expecting d p) :=
  h.after _

theorem firstOf_cons {ps qs : List (Scan α)} (h : Extends q p)
    (hs : Extends (firstOf qs) (firstOf ps)) : Extends (firstOf (q :: qs)) (firstOf (p :: ps)) := by
  intro c hf
  by_cases hp : p c = .ok .failure
  · have hq : q c = .ok .failure := (h c (by simp [hp])).trans hp
    rw [firstOf_cons_of_failure hp] at hf ⊢
    rw [firstOf_cons_of_failure hq]
    exact hs c hf
  · rw [firstOf_cons_of_ne hp] at hf ⊢
    have hq := h c hf
    rw [firstOf_cons_of_ne (hq ▸ hp), hq]

theorem zeroOrMore (h : Extends q p) : Extends (Parser.zeroOrMore q) (Parser.zeroOrMore p) := by
  have go (values : List α) (c : Cursor) : repeatFrom p values c ≠ .error .tooDeep →
      repeatFrom q values c = repeatFrom p values c := by
    fun_induction repeatFrom p values c with
    | case1 values c ih =>
      intro hr
      have hp : p c ≠ .error .tooDeep := by
        intro he
        apply hr
        rw [he]
        rfl
      have hq := h c hp
      rw [repeatFrom.eq_def, hq]
      cases hc : p c with
      | error i => rfl
      | ok o =>
        rw [hc] at hr
        cases o with
        | success v c' =>
          by_cases hl : c'.left < c.left
          · simp only [Bind.bind, Except.bind, hl, if_true] at hr ⊢
            exact ih v c' hl hr
          · simp only [Bind.bind, Except.bind, hl, if_false]
        | failure | error d => rfl
  intro c hz
  exact go [] c hz

theorem oneOrMore (h : Extends q p) : Extends (Parser.oneOrMore q) (Parser.oneOrMore p) :=
  h.zeroOrMore.filter _

end Extends

end Woof.Parser

namespace Woof.Grammar

open Woof.Parser

variable {a : Alphabet} {inner outer : Scan Form}

theorem extends_application (h : Extends outer inner) :
    Extends (application a outer) (application a inner) :=
  (Extends.refl _).bind fun _ => (h.expecting _).bind fun _ => h.zeroOrMore.bind fun _ => .refl _

theorem extends_define (h : Extends outer inner) : Extends (define a outer) (define a inner) :=
  (Extends.refl _).bind fun _ => (Extends.refl _).bind fun _ => (Extends.refl _).bind fun _ =>
    (Extends.refl _).bind fun _ => (h.expecting _).bind fun _ => .refl _

theorem extends_lambda (h : Extends outer inner) : Extends (lambda a outer) (lambda a inner) :=
  (Extends.refl _).bind fun _ => (Extends.refl _).bind fun _ => (Extends.refl _).bind fun _ =>
    (Extends.refl _).bind fun _ => (Extends.refl _).bind fun _ =>
      (h.oneOrMore.expecting _).bind fun _ => .refl _

theorem extends_special (h : Extends outer inner) : Extends (special a outer) (special a inner) :=
  (extends_define h).firstOf_cons ((extends_lambda h).firstOf_cons (.refl _))

/-- A run that a limit does not cut off is the same under every higher limit. -/
theorem form_extends (a : Alphabet) {n m : Nat} (h : n ≤ m) : Extends (form a m) (form a n) := by
  induction n generalizing m with
  | zero => exact .of_tooDeep _ fun _ => rfl
  | succ n ih =>
    obtain ⟨m, rfl⟩ : ∃ k, m = k + 1 := ⟨m - 1, by omega⟩
    have hi := ih (Nat.le_of_succ_le_succ h)
    exact (Extends.refl _).firstOf_cons ((Extends.refl _).firstOf_cons
      ((Extends.refl _).firstOf_cons ((extends_application hi).firstOf_cons
        ((extends_special hi).firstOf_cons (.refl _)))))

end Woof.Grammar
