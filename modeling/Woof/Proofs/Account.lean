import Mathlib.Data.List.Forall2
import Woof.Parser.Repetition

namespace Woof

/-- The diagnostic of an error. -/
def Outcome.error? {α : Type} : Outcome α → Option Diagnostic
  | .error d => some d
  | _ => none

theorem Outcome.eq_error {α : Type} {o : Outcome α} {d : Diagnostic} (h : o.error? = some d) :
    o = .error d := by
  cases o with
  | error d' => exact congrArg Outcome.error (Option.some.inj h)
  | _ => cases h

namespace Parser

/-- What is asked of the effects of a run that ends with the given error, or with none. -/
structure Account (m : Type → Type) [Monad m] where
  Suits : m Unit → Option Diagnostic → Prop
  idle : Suits (pure ()) none
  andThen : ∀ {x y : m Unit} {e : Option Diagnostic}, Suits x none → Suits y e →
    Suits (x >>= fun _ => y) e

namespace Account

variable {m : Type → Type} [Monad m] {α β : Type} {A : Account m}

/-- The run ends with the outcome whatever its effects, and these are as the account asks. -/
def Covers (A : Account m) (x : m (Outcome α)) (o : Outcome α) : Prop :=
  ∃ e : m Unit, x = (e >>= fun _ => pure o) ∧ A.Suits e o.error?

/-- The first parser ends as the second does, which has no effects. -/
def Tracks (A : Account m) (p : Parser m α) (q : Parser Id α) : Prop := ∀ c, A.Covers (p c) (q c)

variable [LawfulMonad m]

namespace Covers

variable {x : m (Outcome α)} {o : Outcome α} {g : Outcome α → m (Outcome β)} {w : Outcome β}

theorem of_pure (h : o.error? = none) : A.Covers (pure o) o :=
  ⟨pure (), by rw [pure_bind], h ▸ A.idle⟩

theorem bind (h : A.Covers x o) (ho : o.error? = none) (hg : A.Covers (g o) w) :
    A.Covers (x >>= g) w := by
  obtain ⟨e, rfl, he⟩ := h
  obtain ⟨e', hg, he'⟩ := hg
  refine ⟨e >>= fun _ => e', ?_, A.andThen (ho ▸ he) he'⟩
  rw [bind_assoc, bind_assoc]
  simp only [pure_bind, hg]

/-- What is made of an outcome alone. -/
theorem conclude (h : A.Covers x o) (hg : g o = pure w) (hw : w.error? = o.error?) :
    A.Covers (x >>= g) w := by
  obtain ⟨e, rfl, he⟩ := h
  refine ⟨e, ?_, hw ▸ he⟩
  rw [bind_assoc]
  simp only [pure_bind, hg]

theorem expecting {p : Parser m α} {q : Parser Id α} {c : Cursor} {d : Diagnostic}
    (h : A.Covers (p c) (q c)) (hq : q c ≠ .failure) :
    A.Covers (Parser.expecting d p c) (Parser.expecting d q c) := by
  rw [Parser.expecting, Parser.expecting]
  match ho : q c with
  | .failure => exact absurd ho hq
  | .success v c' | .error e =>
    rw [ho] at h
    exact h.conclude rfl rfl

end Covers

theorem expecting_eq_error {q : Parser Id α} {c : Cursor} (d : Diagnostic) (h : q c = .failure) :
    Parser.expecting d q c = .error d := by
  rw [Parser.expecting, h]
  rfl

/-- The effects of what fails are all that an error in place of the failure has. -/
theorem expecting_of_failed {p : Parser m α} {c : Cursor} (d : Diagnostic) {e : m Unit}
    (h : p c = e >>= fun _ => pure .failure) :
    Parser.expecting d p c = e >>= fun _ => pure (.error d) := by
  rw [Parser.expecting, h, bind_assoc]
  simp only [pure_bind]

namespace Tracks

variable {p : Parser m α} {q : Parser Id α} {k : α → Parser m β} {l : α → Parser Id β}

theorem next : A.Tracks (Parser.next : Parser m _) Parser.next := by
  intro c
  rw [Parser.next, Parser.next]
  cases c.next? with
  | none => exact .of_pure rfl
  | some r => exact .of_pure rfl

theorem atEnd : A.Tracks (Parser.atEnd : Parser m _) Parser.atEnd := by
  intro c
  rw [Parser.atEnd, Parser.atEnd]
  by_cases h : c.left = 0
  · rw [if_pos h, if_pos h]
    exact .of_pure rfl
  · rw [if_neg h, if_neg h]
    exact .of_pure rfl

theorem of_pure (v : α) : A.Tracks (Parser.pure v) (Parser.pure v) := fun _ => .of_pure rfl

theorem bind (h : A.Tracks p q) (hk : ∀ v, A.Tracks (k v) (l v)) :
    A.Tracks (p >>= k) (q >>= l) := by
  intro c
  have hc := h c
  rw [bind_apply, bind_apply]
  match hq : q c with
  | .success v c' =>
    rw [hq] at hc
    exact hc.bind rfl (hk v c')
  | .failure | .error d =>
    rw [hq] at hc
    exact hc.conclude rfl rfl

theorem map (h : A.Tracks p q) (f : α → β) : A.Tracks (f <$> p) (f <$> q) := by
  intro c
  have hc := h c
  rw [map_apply, map_apply]
  match hq : q c with
  | .success v c' | .failure | .error d =>
    rw [hq] at hc
    exact hc.conclude rfl rfl

theorem filter (h : A.Tracks p q) (wanted : α → Bool) :
    A.Tracks (Parser.filter wanted p) (Parser.filter wanted q) := by
  intro c
  have hc := h c
  rw [Parser.filter, Parser.filter]
  match hq : q c with
  | .success v c' =>
    rw [hq] at hc
    show A.Covers _ (if wanted v then .success v c' else .failure)
    by_cases hw : wanted v = true
    · rw [if_pos hw]
      exact hc.conclude (if_pos hw) rfl
    · rw [if_neg hw]
      exact hc.conclude (if_neg hw) rfl
  | .failure | .error d =>
    rw [hq] at hc
    exact hc.conclude rfl rfl

theorem satisfying (wanted : Token Char → Bool) :
    A.Tracks (Parser.satisfying wanted : Parser m _) (Parser.satisfying wanted) :=
  next.filter wanted

theorem inOrder {ps : List (Parser m α)} {qs : List (Parser Id α)}
    (h : List.Forall₂ A.Tracks ps qs) : A.Tracks (Parser.inOrder ps) (Parser.inOrder qs) := by
  induction h with
  | nil => exact .of_pure []
  | cons head _ ih => exact head.bind fun v => ih.bind fun vs => .of_pure (v :: vs)

theorem firstOf {ps : List (Parser m α)} {qs : List (Parser Id α)}
    (h : List.Forall₂ A.Tracks ps qs) : A.Tracks (Parser.firstOf ps) (Parser.firstOf qs) := by
  induction h with
  | nil => exact fun _ => .of_pure rfl
  | @cons p q ps qs head _ ih =>
    intro c
    have hc := head c
    rw [Parser.firstOf, Parser.firstOf]
    match hq : q c with
    | .failure =>
      rw [hq] at hc
      exact hc.bind rfl (ih c)
    | .success v c' | .error d =>
      rw [hq] at hc
      exact hc.conclude rfl rfl

theorem anythingBut (h : A.Tracks p q) :
    A.Tracks (Parser.anythingBut p) (Parser.anythingBut q) := by
  intro c
  have hc := h c
  rw [Parser.anythingBut, Parser.anythingBut]
  match hq : q c with
  | .failure =>
    rw [hq] at hc
    exact hc.bind rfl (Tracks.next c)
  | .success v c' | .error d =>
    rw [hq] at hc
    exact hc.conclude rfl rfl

theorem optional (h : A.Tracks p q) : A.Tracks (Parser.optional p) (Parser.optional q) := by
  intro c
  have hc := h c
  rw [Parser.optional, Parser.optional]
  match hq : q c with
  | .success v c' | .failure | .error d =>
    rw [hq] at hc
    exact hc.conclude rfl rfl

theorem repeatFrom (h : A.Tracks p q) (values : List α) (c : Cursor) :
    A.Covers (Parser.repeatFrom p values c) (Parser.repeatFrom q values c) := by
  fun_induction Parser.repeatFrom p values c with
  | case1 values c ih =>
    have hc := h c
    rw [Parser.repeatFrom]
    match hq : q c with
    | .success v c' =>
      rw [hq] at hc
      show A.Covers _ (if c'.left < c.left then Parser.repeatFrom (m := Id) q (v :: values) c'
        else .success (v :: values).reverse c)
      by_cases hl : c'.left < c.left
      · rw [if_pos hl]
        refine hc.bind rfl ?_
        simp only [hl, if_true]
        exact ih v c' hl
      · rw [if_neg hl]
        exact hc.conclude (if_neg hl) rfl
    | .failure | .error d =>
      rw [hq] at hc
      exact hc.conclude rfl rfl

theorem zeroOrMore (h : A.Tracks p q) : A.Tracks (Parser.zeroOrMore p) (Parser.zeroOrMore q) :=
  h.repeatFrom []

theorem oneOrMore (h : A.Tracks p q) : A.Tracks (Parser.oneOrMore p) (Parser.oneOrMore q) :=
  h.zeroOrMore.filter _

/-- Where an error is made of nothing, having no effects has to suit that error. -/
theorem reject {d : Diagnostic} (hd : A.Suits (pure ()) (some d)) :
    A.Tracks (Parser.reject d : Parser m α) (Parser.reject d) := by
  intro c
  refine ⟨pure (), ?_, hd⟩
  rw [pure_bind]
  rfl

/-- Where a failure becomes an error, the effects have to suit that error. -/
theorem expecting (h : A.Tracks p q) {d : Diagnostic}
    (hd : ∀ {e : m Unit}, A.Suits e none → A.Suits e (some d)) :
    A.Tracks (Parser.expecting d p) (Parser.expecting d q) := by
  intro c
  obtain ⟨e, he, hs⟩ := h c
  by_cases hq : q c = .failure
  · rw [hq] at he hs
    rw [expecting_eq_error d hq]
    exact ⟨e, expecting_of_failed d he, hd hs⟩
  · exact (h c).expecting hq

/-- Where an error is caught, the effects before it have to suit what follows. -/
theorem rescue {k : Diagnostic → Parser m α} {l : Diagnostic → Parser Id α} (h : A.Tracks p q)
    (hk : ∀ d, A.Tracks (k d) (l d))
    (hd : ∀ {x : m Unit} {d : Diagnostic}, A.Suits x (some d) → A.Suits x none) :
    A.Tracks (Parser.rescue p k) (Parser.rescue q l) := by
  intro c
  have hc := h c
  rw [Parser.rescue, Parser.rescue]
  match hq : q c with
  | .error d =>
    rw [hq] at hc
    obtain ⟨e, he, hs⟩ := hc
    obtain ⟨e', he', hs'⟩ := hk d c
    refine ⟨e >>= fun _ => e', ?_, A.andThen (hd hs) hs'⟩
    rw [he, bind_assoc, bind_assoc]
    simp only [pure_bind]
    rw [he']
    rfl
  | .success v c' | .failure =>
    rw [hq] at hc
    exact hc.conclude rfl rfl

end Tracks

end Account

end Parser

end Woof
