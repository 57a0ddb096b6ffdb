import Woof.Interrupt

namespace Woof.Effect

variable {ε σ α β : Type} {x : ExceptT ε (StateM σ) α} {k : α → ExceptT ε (StateM σ) β}
  {s s₁ s' : σ}

theorem bind_of_ok {v : α} (h : x s = (.ok v, s')) : (x >>= k) s = k v s' := by
  show ExceptT.bindCont k (x s).1 (x s).2 = k v s'
  rw [h]
  rfl

theorem bind_of_error {e : ε} (h : x s = (.error e, s')) : (x >>= k) s = (.error e, s') := by
  show ExceptT.bindCont k (x s).1 (x s).2 = (.error e, s')
  rw [h]
  rfl

theorem throw_bind (e : ε) : (throw e >>= k : ExceptT ε (StateM σ) β) = throw e := by
  funext s
  exact bind_of_error rfl

theorem exists_ok_of_bind {w : β} (h : (x >>= k) s = (.ok w, s')) :
    ∃ v s₁, x s = (.ok v, s₁) ∧ k v s₁ = (.ok w, s') := by
  match hx : x s with
  | (.ok v, s₁) =>
    rw [bind_of_ok hx] at h
    exact ⟨v, s₁, rfl, h⟩
  | (.error e, s₁) =>
    rw [bind_of_error hx] at h
    cases h

theorem exists_ok_of_mapM_cons {f : α → ExceptT ε (StateM σ) β} {v : α} {vs : List α}
    {ws : List β} (h : (v :: vs).mapM f s = (.ok ws, s')) :
    ∃ w s₁ ws', f v s = (.ok w, s₁) ∧ vs.mapM f s₁ = (.ok ws', s') ∧ ws = w :: ws' := by
  rw [List.mapM_cons] at h
  obtain ⟨w, s₁, hw, hk⟩ := exists_ok_of_bind h
  obtain ⟨ws', s₂, hws, hp⟩ := exists_ok_of_bind hk
  obtain ⟨he, rfl⟩ := Prod.mk.inj hp
  exact ⟨w, s₁, ws', hw, hws, (Except.ok.inj he).symm⟩

end Woof.Effect
