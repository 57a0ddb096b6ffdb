import Woof.Grammar.Trivia

namespace Woof.Parser

variable {α β : Type} {p q : Scan α} {k : α → Scan β} {c c' : Cursor}

theorem bind_of_success {v : α} (h : p c = .ok (.success v c')) : (p >>= k) c = k v c' := by
  rw [bind_apply, h]
  rfl

theorem bind_of_failure (h : p c = .ok .failure) : (p >>= k) c = .ok .failure := by
  rw [bind_apply, h]
  rfl

theorem bind_of_error {d : Diagnostic} (h : p c = .ok (.error d)) :
    (p >>= k) c = .ok (.error d) := by
  rw [bind_apply, h]
  rfl

theorem bind_of_interrupt {i : Interrupt} (h : p c = .error i) : (p >>= k) c = .error i := by
  rw [bind_apply, h]
  rfl

/-- A sequence that does not end as its first part goes on behind a success of that part. -/
theorem exists_success_of_bind {o : Except Interrupt (Outcome β)} (h : (p >>= k) c = o)
    (hf : o ≠ .ok .failure) (he : ∀ d, o = .ok (.error d) → p c ≠ .ok (.error d))
    (hi : ∀ i, o = .error i → p c ≠ .error i) :
    ∃ v c₁, p c = .ok (.success v c₁) ∧ k v c₁ = o := by
  match hp : p c with
  | .ok (.success v c₁) => exact ⟨v, c₁, rfl, (bind_of_success hp).symm.trans h⟩
  | .ok .failure => exact absurd (h.symm.trans (bind_of_failure hp)) hf
  | .ok (.error d) => exact absurd hp (he d (h.symm.trans (bind_of_error hp)))
  | .error i => exact absurd hp (hi i (h.symm.trans (bind_of_interrupt hp)))

theorem bind_eq_success_iff {v : β} :
    (p >>= k) c = .ok (.success v c') ↔
      ∃ u c₁, p c = .ok (.success u c₁) ∧ k u c₁ = .ok (.success v c') := by
  constructor
  · intro h
    exact exists_success_of_bind h (by simp) (by simp) (by simp)
  · rintro ⟨u, c₁, hp, hk⟩
    rw [bind_of_success hp, hk]

theorem map_eq_success {f : α → β} {v : β} (h : (f <$> p) c = .ok (.success v c')) :
    ∃ u, p c = .ok (.success u c') ∧ f u = v := by
  rw [map_apply] at h
  match hp : p c with
  | .ok (.success u c₁) =>
    rw [hp] at h
    obtain ⟨rfl, rfl⟩ := Outcome.success.inj (Except.ok.inj h)
    exact ⟨u, rfl, rfl⟩
  | .ok .failure | .ok (.error d) | .error i =>
    rw [hp] at h
    cases h

theorem firstOf_cons_of_failure {ps : List (Scan α)} (h : p c = .ok .failure) :
    firstOf (p :: ps) c = firstOf ps c := by
  rw [firstOf, h]
  rfl

theorem firstOf_cons_of_ne {ps : List (Scan α)} (h : p c ≠ .ok .failure) :
    firstOf (p :: ps) c = p c := by
  rw [firstOf]
  match hp : p c with
  | .error _ => rfl
  | .ok (.success _ _) => rfl
  | .ok (.error _) => rfl
  | .ok .failure => exact absurd hp h

theorem firstOf_nil : firstOf ([] : List (Scan α)) c = .ok .failure := rfl

theorem firstOf_singleton (p : Scan α) (c : Cursor) : firstOf [p] c = p c := by
  by_cases h : p c = .ok .failure
  · rw [firstOf_cons_of_failure h, h, firstOf_nil]
  · exact firstOf_cons_of_ne h

/-- A choice that does not fail ends as one of its parsers does. -/
theorem exists_mem_of_firstOf {ps : List (Scan α)} (h : firstOf ps c ≠ .ok .failure) :
    ∃ p ∈ ps, p c = firstOf ps c := by
  induction ps with
  | nil => exact absurd rfl h
  | cons p ps ih =>
    by_cases hp : p c = .ok .failure
    · rw [firstOf_cons_of_failure hp] at h ⊢
      obtain ⟨q, hq, he⟩ := ih h
      exact ⟨q, List.mem_cons_of_mem p hq, he⟩
    · exact ⟨p, List.mem_cons_self, (firstOf_cons_of_ne hp).symm⟩

theorem expecting_of_failure (d : Diagnostic) (h : p c = .ok .failure) :
    expecting d p c = .ok (.error d) := by
  rw [expecting, h]
  rfl

theorem expecting_of_ne (d : Diagnostic) (h : p c ≠ .ok .failure) :
    expecting d p c = p c := by
  rw [expecting]
  match hp : p c with
  | .error _ => rfl
  | .ok (.success _ _) => rfl
  | .ok (.error _) => rfl
  | .ok .failure => exact absurd hp h

theorem expecting_of_success (d : Diagnostic) {v : α} (h : p c = .ok (.success v c')) :
    expecting d p c = .ok (.success v c') := by
  rw [expecting_of_ne d (by simp [h]), h]

theorem expecting_of_error (d : Diagnostic) {e : Diagnostic} (h : p c = .ok (.error e)) :
    expecting d p c = .ok (.error e) := by
  rw [expecting_of_ne d (by simp [h]), h]

theorem expecting_of_interrupt (d : Diagnostic) {i : Interrupt} (h : p c = .error i) :
    expecting d p c = .error i := by
  rw [expecting_of_ne d (by simp [h]), h]

theorem expecting_eq_success {d : Diagnostic} {v : α}
    (h : expecting d p c = .ok (.success v c')) : p c = .ok (.success v c') := by
  by_cases hp : p c = .ok .failure
  · rw [expecting_of_failure d hp] at h
    cases h
  · rwa [expecting_of_ne d hp] at h

theorem optional_of_failure (h : p c = .ok .failure) : optional p c = .ok (.success none c) := by
  rw [optional, h]
  rfl

theorem optional_of_success {v : α} (h : p c = .ok (.success v c')) :
    optional p c = .ok (.success (some v) c') := by
  rw [optional, h]
  rfl

theorem filter_of_success {wanted : α → Bool} {v : α} (h : p c = .ok (.success v c'))
    (hw : wanted v = true) : filter wanted p c = .ok (.success v c') := by
  rw [filter, h]
  simp [Bind.bind, Except.bind, hw, pure, Except.pure]

theorem filter_eq_success {wanted : α → Bool} {v : α}
    (h : filter wanted p c = .ok (.success v c')) :
    p c = .ok (.success v c') ∧ wanted v = true := by
  match hp : p c with
  | .ok (.success u c₁) =>
    cases hw : wanted u with
    | false => simp [filter, hp, hw, Bind.bind, Except.bind, pure, Except.pure] at h
    | true =>
      rw [filter_of_success hp hw] at h
      obtain ⟨rfl, rfl⟩ := Outcome.success.inj (Except.ok.inj h)
      exact ⟨rfl, hw⟩
  | .ok .failure | .ok (.error d) | .error i => simp [filter, hp, Bind.bind, Except.bind, pure, Except.pure] at h

/-- The parser is past the point where something else could be tried. -/
def Committed (p : Scan α) : Prop := ∀ c, p c ≠ .ok .failure

namespace Committed

theorem bind (h : Committed p) (hk : ∀ v, Committed (k v)) : Committed (p >>= k) := by
  intro c hb
  match hp : p c with
  | .ok (.success v c₁) => exact hk v c₁ ((bind_of_success hp).symm.trans hb)
  | .ok .failure => exact h c hp
  | .ok (.error d) => exact absurd ((bind_of_error hp).symm.trans hb) (by simp)
  | .error i => exact absurd ((bind_of_interrupt hp).symm.trans hb) (by simp)

theorem expecting (d : Diagnostic) (p : Scan α) : Committed (Parser.expecting d p) := by
  intro c h
  by_cases hp : p c = .ok .failure
  · rw [expecting_of_failure d hp] at h
    cases h
  · rw [expecting_of_ne d hp] at h
    exact hp h

theorem optional (p : Scan α) : Committed (Parser.optional p) := by
  intro c h
  rw [Parser.optional] at h
  match hp : p c with
  | .ok (.success _ _) | .ok .failure | .ok (.error _) | .error _ =>
    rw [hp] at h
    cases h

theorem reject (d : Diagnostic) : Committed (Parser.reject d : Scan α) := by
  intro c h
  cases h

theorem of_pure (v : α) : Committed (pure v : Scan α) := by
  intro c h
  cases h

theorem zeroOrMore (p : Scan α) : Committed (Parser.zeroOrMore p) := by
  have go (values : List α) (c : Cursor) : repeatFrom p values c ≠ .ok .failure := by
    fun_induction repeatFrom p values c with
    | case1 values c ih =>
      intro h
      match hp : p c with
      | .ok (.success v c') =>
        rw [hp] at h
        by_cases hl : c'.left < c.left
        · simp only [Bind.bind, Except.bind, hl, if_true] at h
          exact ih v c' hl h
        · simp [Bind.bind, Except.bind, hl, pure, Except.pure] at h
      | .ok .failure | .ok (.error _) | .error _ =>
        rw [hp] at h
        cases h
  exact go []

end Committed

/-- Some runs of a parser, each from where the one before it ended and each consuming something. -/
inductive Steps (p : Scan α) : Cursor → List α → Cursor → Prop where
  | nil (c : Cursor) : Steps p c [] c
  | cons {c c₁ c' : Cursor} {v : α} {vs : List α} (head : p c = .ok (.success v c₁))
      (less : c₁.left < c.left) (tail : Steps p c₁ vs c') : Steps p c (v :: vs) c'

theorem Steps.append {c₁ : Cursor} {vs ws : List α} (h : Steps p c vs c₁) (h' : Steps p c₁ ws c') :
    Steps p c (vs ++ ws) c' := by
  induction h with
  | nil => exact h'
  | cons head less _ ih => exact .cons head less (ih h')

theorem repeatFrom_of_failure (values : List α) (h : p c = .ok .failure) :
    repeatFrom p values c = .ok (.success values.reverse c) := by
  rw [repeatFrom, h]
  rfl

theorem repeatFrom_of_error (values : List α) {d : Diagnostic} (h : p c = .ok (.error d)) :
    repeatFrom p values c = .ok (.error d) := by
  rw [repeatFrom, h]
  rfl

theorem repeatFrom_of_interrupt (values : List α) {i : Interrupt} (h : p c = .error i) :
    repeatFrom p values c = .error i := by
  rw [repeatFrom, h]
  rfl

theorem repeatFrom_of_success (values : List α) {v : α} (h : p c = .ok (.success v c'))
    (hl : c'.left < c.left) : repeatFrom p values c = repeatFrom p (v :: values) c' := by
  rw [repeatFrom, h]
  simp only [Bind.bind, Except.bind, hl, if_true]

/-- Repetition goes through all the runs there are. -/
theorem repeatFrom_of_steps {c₁ : Cursor} {vs : List α} (h : Steps p c vs c₁) (values : List α) :
    repeatFrom p values c = repeatFrom p (vs.reverse ++ values) c₁ := by
  induction h generalizing values with
  | nil => rfl
  | cons head less _ ih =>
    rw [repeatFrom_of_success values head less, ih]
    simp

theorem zeroOrMore_of_steps {vs : List α} (h : Steps p c vs c') (hf : p c' = .ok .failure) :
    zeroOrMore p c = .ok (.success vs c') := by
  rw [zeroOrMore, repeatFrom_of_steps h, repeatFrom_of_failure _ hf]
  simp

theorem zeroOrMore_of_interrupt {vs : List α} {i : Interrupt} (h : Steps p c vs c')
    (hi : p c' = .error i) : zeroOrMore p c = .error i := by
  rw [zeroOrMore, repeatFrom_of_steps h, repeatFrom_of_interrupt _ hi]

theorem zeroOrMore_of_error {vs : List α} {d : Diagnostic} (h : Steps p c vs c')
    (hd : p c' = .ok (.error d)) : zeroOrMore p c = .ok (.error d) := by
  rw [zeroOrMore, repeatFrom_of_steps h, repeatFrom_of_error _ hd]

theorem oneOrMore_of_steps {v : α} {vs : List α} (h : Steps p c (v :: vs) c')
    (hf : p c' = .ok .failure) : oneOrMore p c = .ok (.success (v :: vs) c') :=
  filter_of_success (zeroOrMore_of_steps h hf) rfl

theorem oneOrMore_of_interrupt {vs : List α} {i : Interrupt} (h : Steps p c vs c')
    (hi : p c' = .error i) : oneOrMore p c = .error i := by
  rw [oneOrMore, filter, zeroOrMore_of_interrupt h hi]
  rfl

/-- Runs of a parser one after the other, as many as consume something: each with the place that it
began at and its value, and the place after the last, where no run consumes anything. -/
inductive Passes (p : Scan α) : Cursor → List (Cursor × α) → Cursor → Prop where
  | stop {c : Cursor} (idle : ∀ v c₁, p c = .ok (.success v c₁) → ¬ c₁.left < c.left) :
      Passes p c [] c
  | again {c c₁ c' : Cursor} {v : α} {run : List (Cursor × α)} (head : p c = .ok (.success v c₁))
      (less : c₁.left < c.left) (tail : Passes p c₁ run c') : Passes p c ((c, v) :: run) c'

theorem exists_passes (p : Scan α) (c : Cursor) : ∃ run c', Passes p c run c' := by
  induction hn : c.left using Nat.strongRecOn generalizing c with
  | ind n ih =>
    by_cases h : ∃ v c₁, p c = .ok (.success v c₁) ∧ c₁.left < c.left
    · obtain ⟨v, c₁, hv, hl⟩ := h
      obtain ⟨run, c', hr⟩ := ih c₁.left (hn ▸ hl) c₁ rfl
      exact ⟨(c, v) :: run, c', .again hv hl hr⟩
    · refine ⟨[], c, .stop ?_⟩
      intro v c₁ hv hl
      exact h ⟨v, c₁, hv, hl⟩

theorem Passes.steps {run : List (Cursor × α)} (h : Passes p c run c') :
    Steps p c (run.map Prod.snd) c' := by
  induction h with
  | stop => exact .nil _
  | again head less _ ih => exact .cons head less ih

theorem Passes.idle {run : List (Cursor × α)} (h : Passes p c run c') :
    ∀ v c₁, p c' = .ok (.success v c₁) → ¬ c₁.left < c'.left := by
  induction h with
  | stop idle => exact idle
  | again _ _ _ ih => exact ih

/-- How a repetition ends is decided by the first run that is no success, if every success consumes
something. -/
theorem exists_steps (hp : ∀ {c c' v}, p c = .ok (.success v c') → c'.left < c.left) (c : Cursor) :
    ∃ vs c', Steps p c vs c' ∧ ∀ v c₁, p c' ≠ .ok (.success v c₁) := by
  obtain ⟨run, c', h⟩ := exists_passes p c
  exact ⟨run.map Prod.snd, c', h.steps, fun v c₁ hv => h.idle v c₁ hv (hp hv)⟩

theorem zeroOrMore_eq_success {vs : List α}
    (hp : ∀ {c c' v}, p c = .ok (.success v c') → c'.left < c.left)
    (h : zeroOrMore p c = .ok (.success vs c')) : Steps p c vs c' ∧ p c' = .ok .failure := by
  obtain ⟨us, c₁, hs, he⟩ := exists_steps hp c
  rw [zeroOrMore, repeatFrom_of_steps hs] at h
  match hc : p c₁ with
  | .ok (.success v c₂) => exact absurd hc (he v c₂)
  | .ok .failure =>
    rw [repeatFrom_of_failure _ hc] at h
    obtain ⟨hv, rfl⟩ := Outcome.success.inj (Except.ok.inj h)
    have hu : us = vs := by simpa using hv
    exact ⟨hu ▸ hs, hc⟩
  | .ok (.error d) =>
    rw [repeatFrom_of_error _ hc] at h
    cases h
  | .error i =>
    rw [repeatFrom_of_interrupt _ hc] at h
    cases h

end Woof.Parser
