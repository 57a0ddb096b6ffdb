import Woof.Proofs.Combinator
import Woof.Proofs.Cursor

namespace Woof

/-- What is read off a list of tokens: a value and the tokens after it, or nothing. -/
abbrev Reading (α : Type) : Type := Option (α × List (Token Char))

/-- Where a cursor stands after something was read off its tokens. -/
def Outcome.landing {α : Type} (c : Cursor) : Reading α → Outcome α
  | some (v, rest) => .success v (c.seek rest)
  | none => .failure

namespace Parser

variable {α β : Type} {p q : Scan α} {k : α → Scan β} {c c' : Cursor}

/-- The parser reads what the function reads off the tokens that remain: it does not err and is
not interrupted, and whatever it leaves was there before. -/
structure Reads (p : Scan α) (f : List (Token Char) → Reading α) : Prop where
  run : ∀ c, p c = .ok (.landing c (f c.remaining))
  suffix : ∀ {ts v rest}, f ts = some (v, rest) → rest <:+ ts

/-- One token that is as wanted, read off a list. -/
def headIf (wanted : Token Char → Bool) : List (Token Char) → Reading (Token Char)
  | [] => none
  | t :: ts => if wanted t then some (t, ts) else none

/-- The values read off a list until nothing is read, and the tokens after them. -/
def readMany (f : List (Token Char) → Reading α) (ts : List (Token Char)) :
    List α × List (Token Char) :=
  match f ts with
  | none => ([], ts)
  | some (v, rest) =>
    if rest.length < ts.length then
      let (vs, after) := readMany f rest
      (v :: vs, after)
    else ([v], ts)
termination_by ts.length

theorem readMany_of_none {f : List (Token Char) → Reading α} {ts : List (Token Char)}
    (h : f ts = none) : readMany f ts = ([], ts) := by
  rw [readMany, h]

theorem readMany_of_some {f : List (Token Char) → Reading α} {ts rest : List (Token Char)} {v : α}
    (h : f ts = some (v, rest)) (hl : rest.length < ts.length) :
    readMany f ts = (v :: (readMany f rest).1, (readMany f rest).2) := by
  rw [readMany, h]
  simp only [hl, if_true]

theorem readMany_headIf (wanted : Token Char → Bool) (ts : List (Token Char)) :
    readMany (headIf wanted) ts = (ts.takeWhile wanted, ts.dropWhile wanted) := by
  induction ts with
  | nil => rw [readMany_of_none rfl]; rfl
  | cons t ts ih =>
    cases hw : wanted t with
    | false =>
      rw [readMany_of_none (by simp [headIf, hw])]
      simp [hw]
    | true =>
      have hr : headIf wanted (t :: ts) = some (t, ts) := by simp [headIf, hw]
      rw [readMany_of_some hr (by simp), ih]
      simp [hw]

theorem readMany_suffix {f : List (Token Char) → Reading α}
    (hf : ∀ {ts v rest}, f ts = some (v, rest) → rest <:+ ts) (ts : List (Token Char)) :
    (readMany f ts).2 <:+ ts := by
  fun_induction readMany f ts with
  | case1 ts h => exact List.suffix_rfl
  | case2 ts v rest h hlt vs after he ih =>
    rw [he] at ih
    exact ih.trans (hf h)
  | case3 ts v rest h hlt => exact List.suffix_rfl

namespace Reads

variable {f g : List (Token Char) → Reading α}

theorem congr (h : Reads p f) (hf : ∀ ts, f ts = g ts) : Reads p g := by
  have e : f = g := funext hf
  exact e ▸ h

theorem of_some (h : Reads p f) {v : α} {rest : List (Token Char)}
    (hf : f c.remaining = some (v, rest)) : p c = .ok (.success v (c.seek rest)) := by
  rw [h.run, hf]
  rfl

theorem of_none (h : Reads p f) (hf : f c.remaining = none) : p c = .ok .failure := by
  rw [h.run, hf]
  rfl

/-- What a success says about the tokens. -/
theorem of_success (h : Reads p f) {v : α} (hp : p c = .ok (.success v c')) :
    f c.remaining = some (v, c'.remaining) ∧ c' = c.seek c'.remaining ∧
      c'.remaining <:+ c.remaining := by
  rw [h.run] at hp
  cases hf : f c.remaining with
  | none => simp [hf, Outcome.landing] at hp
  | some r =>
    obtain ⟨w, rest⟩ := r
    have hs := h.suffix hf
    rw [hf] at hp
    simp only [Outcome.landing, Except.ok.injEq, Outcome.success.injEq] at hp
    obtain ⟨rfl, rfl⟩ := hp
    rw [Cursor.remaining_seek hs]
    exact ⟨rfl, rfl, hs⟩

theorem ne_error (h : Reads p f) {d : Diagnostic} : p c ≠ .ok (.error d) := by
  rw [h.run]
  cases f c.remaining <;> simp [Outcome.landing]

theorem ne_interrupt (h : Reads p f) {i : Interrupt} : p c ≠ .error i := by
  rw [h.run]
  simp

theorem of_pure (v : α) : Reads (pure v) (fun ts => some (v, ts)) where
  run c := by simp [Outcome.landing]; rfl
  suffix h := by
    obtain ⟨-, rfl⟩ := Prod.mk.inj (Option.some.inj h)
    exact List.suffix_rfl

theorem satisfying (wanted : Token Char → Bool) :
    Reads (Parser.satisfying wanted) (headIf wanted) where
  run c := by
    cases hr : c.remaining with
    | nil =>
      simp only [Parser.satisfying, filter, next, Cursor.next?_of_remaining_nil hr, headIf,
        Outcome.landing]
      rfl
    | cons t ts =>
      simp only [Parser.satisfying, filter, next, Cursor.next?_of_remaining_cons hr, headIf]
      cases hw : wanted t <;> simp [Outcome.landing, pure_bind, hw] <;> rfl
  suffix {ts v rest} h := by
    cases ts with
    | nil => simp [headIf] at h
    | cons t ts =>
      cases hw : wanted t with
      | false => simp [headIf, hw] at h
      | true =>
        obtain ⟨-, rfl⟩ : t = v ∧ ts = rest := by simpa [headIf, hw] using h
        exact List.suffix_cons t ts

theorem bind {l : List (Token Char) → Reading β} (h : Reads p f)
    {g : α → List (Token Char) → Reading β}
    (hk : ∀ {ts v rest}, f ts = some (v, rest) → Reads (k v) (g v))
    (hl : ∀ ts, l ts = (f ts).bind fun r => g r.1 r.2) : Reads (p >>= k) l where
  run c := by
    rw [hl]
    cases hf : f c.remaining with
    | none =>
      rw [bind_of_failure (h.of_none hf)]
      rfl
    | some r =>
      obtain ⟨v, rest⟩ := r
      have hs := h.suffix hf
      rw [bind_of_success (h.of_some hf), (hk hf).run, Cursor.remaining_seek hs]
      simp only [Option.bind_some]
      cases g v rest <;> rfl
  suffix {ts v rest} hv := by
    rw [hl] at hv
    obtain ⟨⟨u, us⟩, hu, hg⟩ := Option.bind_eq_some_iff.mp hv
    exact ((hk hu).suffix hg).trans (h.suffix hu)

theorem map {l : List (Token Char) → Reading β} (h : Reads p f) (m : α → β)
    (hl : ∀ ts, l ts = (f ts).map fun r => (m r.1, r.2)) : Reads (m <$> p) l where
  run c := by
    rw [map_apply, h.run, hl]
    cases f c.remaining <;> rfl
  suffix {ts v rest} hv := by
    rw [hl] at hv
    obtain ⟨⟨u, us⟩, hu, he⟩ := Option.map_eq_some_iff.mp hv
    obtain ⟨-, rfl⟩ := Prod.mk.inj he
    exact h.suffix hu

theorem filter {l : List (Token Char) → Reading α} (h : Reads p f) (wanted : α → Bool)
    (hl : ∀ ts, l ts = (f ts).filter fun r => wanted r.1) :
    Reads (Parser.filter wanted p) l where
  run c := by
    rw [Parser.filter, h.run, hl]
    cases f c.remaining with
    | none => rfl
    | some r =>
      cases hw : wanted r.1 <;> simp [Outcome.landing, hw, Option.filter, pure, Except.pure, Bind.bind, Except.bind]
  suffix {ts v rest} hv := by
    rw [hl] at hv
    exact h.suffix (Option.filter_eq_some_iff.mp hv).1

/-- Of two, the second reads only where the first reads nothing. -/
theorem firstOf_pair {l : List (Token Char) → Reading α} (h : Reads p f) (hq : Reads q g)
    (hl : ∀ ts, l ts = (f ts).or (g ts)) : Reads (firstOf [p, q]) l where
  run c := by
    rw [hl]
    cases hf : f c.remaining with
    | none =>
      rw [firstOf_cons_of_failure (h.of_none hf), Option.none_or]
      cases hg : g c.remaining with
      | none => rw [firstOf_cons_of_failure (hq.of_none hg)]; rfl
      | some r => rw [firstOf_cons_of_ne (by simp [hq.of_some hg]), hq.of_some hg]; rfl
    | some r => rw [firstOf_cons_of_ne (by simp [h.of_some hf]), h.of_some hf]; rfl
  suffix {ts v rest} hv := by
    rw [hl] at hv
    rcases Option.or_eq_some_iff.mp hv with hf | ⟨-, hg⟩
    · exact h.suffix hf
    · exact hq.suffix hg

theorem anythingBut {l : List (Token Char) → Reading (Token Char)} (h : Reads p f)
    (hl : ∀ ts, l ts = if (f ts).isSome then none else headIf (fun _ => true) ts) :
    Reads (Parser.anythingBut p) l where
  run c := by
    rw [Parser.anythingBut, h.run, hl]
    cases f c.remaining with
    | some r => rfl
    | none =>
      cases hr : c.remaining with
      | nil =>
        simp only [Outcome.landing, Bind.bind, Except.bind, next, Cursor.next?_of_remaining_nil hr]
        rfl
      | cons t ts =>
        simp only [Outcome.landing, Bind.bind, Except.bind, next,
          Cursor.next?_of_remaining_cons hr]
        rfl
  suffix {ts v rest} hv := by
    rw [hl] at hv
    split at hv
    · simp at hv
    · exact (satisfying fun _ => true).suffix hv

/-- Repetition reads what can be read off the list again and again. -/
theorem repeatFrom (h : Reads p f) (values : List α) (c : Cursor) :
    Parser.repeatFrom p values c =
      .ok (.success (values.reverse ++ (readMany f c.remaining).1)
        (c.seek (readMany f c.remaining).2)) := by
  induction hn : c.left using Nat.strongRecOn generalizing c values with
  | ind n ih =>
    rw [Parser.repeatFrom, h.run]
    cases hf : f c.remaining with
    | none =>
      rw [readMany_of_none hf]
      simp only [Outcome.landing, List.append_nil, Cursor.seek_remaining]
      rfl
    | some r =>
      obtain ⟨v, rest⟩ := r
      have hs := h.suffix hf
      have hl := Cursor.left_seek hs
      by_cases hlt : rest.length < c.remaining.length
      · have hc : (c.seek rest).left < c.left := by
          rw [hl, ← Cursor.length_remaining]
          exact hlt
        have hrec := ih _ (hn ▸ hc) (v :: values) (c.seek rest) rfl
        rw [Cursor.remaining_seek hs] at hrec
        rw [readMany_of_some hf hlt]
        simp only [Outcome.landing, Bind.bind, Except.bind, hc, if_true, hrec]
        simp
      · have hc : ¬ (c.seek rest).left < c.left := by
          rw [hl, ← Cursor.length_remaining]
          exact hlt
        rw [readMany, hf]
        simp only [Outcome.landing, Bind.bind, Except.bind, hc, if_false, hlt,
          List.reverse_cons, Cursor.seek_remaining]
        rfl

theorem zeroOrMore {l : List (Token Char) → Reading (List α)} (h : Reads p f)
    (hl : ∀ ts, l ts = some (readMany f ts)) : Reads (Parser.zeroOrMore p) l where
  run c := by
    rw [Parser.zeroOrMore, h.repeatFrom, hl]
    rfl
  suffix {ts v rest} hv := by
    rw [hl] at hv
    have he : (readMany f ts).2 = rest := by rw [Option.some.inj hv]
    rw [← he]
    exact readMany_suffix h.suffix ts

end Reads

end Parser

end Woof
