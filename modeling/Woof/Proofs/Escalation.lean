import Woof.Proofs.Recipe

namespace Woof.Recipe

/-- What is seen of a run from outside: that a part of a recipe begins at a place, and how the part
that began there ends. -/
inductive Event where
  | began (part : Recipe) (start : Cursor)
  | ended (part : Recipe) (start : Cursor) (outcome : Outcome Value)

namespace Event

def part : Event → Recipe
  | began r _ | ended r _ _ => r

/-- The error that a part ends with here. -/
def error? : Event → Option Diagnostic
  | began _ _ => none
  | ended _ _ o => o.error?

theorem exists_of_error {x : Event} {d : Diagnostic} (h : x.error? = some d) :
    ∃ part start, x = ended part start (.error d) := by
  cases x with
  | began part start => cases h
  | ended part start o =>
    have ho : o = .error d := Outcome.eq_error h
    exact ⟨part, start, by rw [ho]⟩

end Event

/-- Puts every begin and every end on a log. Names stand for nothing here. -/
def watching : Surroundings (StateM (List Event)) where
  around r p := fun c => do
    modify (· ++ [.began r c])
    let o ← p c
    modify (· ++ [.ended r c o])
    return o
  rule _ := fun _ => return .failure
  ref _ := fun _ => return .failure

/-- The recipe itself gives the error: it does nothing else, or it makes the error of a failure. -/
def Gives (r : Recipe) (d : Diagnostic) : Prop := r = reject d ∨ ∃ p, r = expecting d p

/-- A log in which no part ends with an error, or in which one that gives it does so first and all
that follows ends with the same error. -/
inductive Orderly : List Event → Option Diagnostic → Prop where
  | nil : Orderly [] none
  | quiet {x : Event} {es : List Event} {e : Option Diagnostic} (head : x.error? = none)
      (tail : Orderly es e) : Orderly (x :: es) e
  | given {x : Event} {es : List Event} {d : Diagnostic} (head : x.error? = some d)
      (source : x.part.Gives d) (tail : ∀ y ∈ es, y.error? = some d) : Orderly (x :: es) (some d)

namespace Orderly

variable {es es' : List Event} {e : Option Diagnostic} {x : Event} {d : Diagnostic}

theorem append (h : Orderly es none) (h' : Orderly es' e) : Orderly (es ++ es') e := by
  generalize hn : (none : Option Diagnostic) = n at h
  induction h with
  | nil => exact h'
  | quiet head _ ih => exact .quiet head (ih hn)
  | given => cases hn

/-- An error goes on to the part that the erring one is in. -/
theorem concat (h : Orderly es e) (hx : x.error? = e) : Orderly (es ++ [x]) e := by
  induction h with
  | nil => exact .quiet hx .nil
  | quiet head _ ih => exact .quiet head (ih hx)
  | given head source tail =>
    refine .given head source fun y hy => ?_
    rcases List.mem_append.mp hy with hy | hy
    · exact tail y hy
    · rw [List.mem_singleton.mp hy, hx]

/-- The log of a part that gives an error, with what it did before. -/
theorem concat_given (h : Orderly es none) (hx : x.error? = some d) (hd : x.part.Gives d) :
    Orderly (es ++ [x]) (some d) :=
  h.append (.given hx hd (by simp))

/-- Whoever ends with an error decides, and nothing begins after it. -/
theorem final {before after : List Event} (h : Orderly (before ++ x :: after) e)
    (hx : x.error? = some d) : e = some d ∧ ∀ y ∈ after, y.error? = some d := by
  induction before with
  | nil =>
    cases h with
    | quiet head => simp [hx] at head
    | given head _ tail =>
      have hd := head.symm.trans hx
      exact ⟨hd, fun y hy => (tail y hy).trans hd⟩
  | cons y before ih =>
    cases h with
    | quiet _ tail => exact ih tail
    | given _ _ tail =>
      -- The error was given before `x`, which is then one of those that pass it on.
      have hd := (tail x (by simp)).symm.trans hx
      exact ⟨hd, fun y hy => (tail y (by simp [hy])).trans hd⟩

/-- An error is first seen where it is given. -/
theorem exists_source (h : Orderly es (some d)) :
    ∃ before x after, es = before ++ x :: after ∧ (∀ y ∈ before, y.error? = none) ∧
      x.error? = some d ∧ x.part.Gives d := by
  generalize he : some d = e at h
  induction h with
  | nil => cases he
  | @quiet y es e head _ ih =>
    obtain ⟨before, x, after, rfl, hb, hx, hd⟩ := ih he
    exact ⟨y :: before, x, after, rfl, by simpa using ⟨head, hb⟩, hx, hd⟩
  | @given x es d' head source tail =>
    cases he
    exact ⟨[], x, es, rfl, by simp, head, source⟩

end Orderly

/-- The effect puts the events at the end of the log, whatever the log holds. -/
def Adds (x : StateM (List Event) Unit) (es : List Event) : Prop :=
  ∀ log, x log = ((), log ++ es)

theorem Adds.andThen {x y : StateM (List Event) Unit} {es es' : List Event} (h : Adds x es)
    (h' : Adds y es') : Adds (x >>= fun _ => y) (es ++ es') := by
  intro log
  show y (x log).2 = _
  rw [h, h', List.append_assoc]

/-- The effects add an orderly log about admitted recipes. -/
def logged (admitted : Recipe → Prop) : Parser.Account (StateM (List Event)) where
  Suits x e := ∃ es, Adds x es ∧ Orderly es e ∧ ∀ y ∈ es, admitted y.part
  idle := ⟨[], fun log => by rw [List.append_nil]; rfl, .nil, by simp⟩
  andThen := by
    rintro x y e ⟨es, hx, ho, ha⟩ ⟨es', hy, ho', ha'⟩
    exact ⟨es ++ es', hx.andThen hy, ho.append ho', by simpa [or_imp, forall_and] using ⟨ha, ha'⟩⟩

section Watching

variable {admitted : Recipe → Prop} {r : Recipe} {p : Parser (StateM (List Event)) Value}
  {q : Parser Id Value} {c : Cursor} {o o' : Outcome Value}

/-- What stands around a part adds its begin and its end, so that the log is orderly if the end goes
with what the part itself put there. -/
theorem covers_watching (hr : admitted r) {x : StateM (List Event) Unit} {es : List Event}
    (hp : p c = x >>= fun _ => pure o) (hx : Adds x es) (ha : ∀ y ∈ es, admitted y.part)
    (ho : Orderly (es ++ [.ended r c o]) o.error?) :
    (logged admitted).Covers (watching.around r p c) o := by
  have began : Adds (modify (· ++ [.began r c])) [.began r c] := fun _ => rfl
  have ended : Adds (modify (· ++ [.ended r c o])) [.ended r c o] := fun _ => rfl
  refine ⟨_, ?_, _, began.andThen (hx.andThen ended), .quiet rfl ho, ?_⟩
  · simp only [watching, hp, bind_assoc, pure_bind]
  · intro y hy
    simp only [List.mem_append, List.mem_singleton] at hy
    rcases hy with rfl | hy | rfl
    · exact hr
    · exact ha y hy
    · exact hr

/-- A part that passes on the error of the part in it. -/
theorem covers_watching_of_covers (hr : admitted r) (h : (logged admitted).Covers (p c) o) :
    (logged admitted).Covers (watching.around r p c) o := by
  obtain ⟨x, hp, es, hx, ho, ha⟩ := h
  exact covers_watching hr hp hx ha (ho.concat rfl)

theorem transparent_watching (own : ∀ {r}, admitted r → r.isName = false ∧ r.rescues = false) :
    Transparent (logged admitted) watching admitted where
  own h := (own h).1
  around hr h c := covers_watching_of_covers hr (h c)
  reject {d} hr c := by
    have hx : Adds (pure ()) [] := fun log => by rw [List.append_nil]; rfl
    exact covers_watching hr rfl hx (by simp) (Orderly.nil.concat_given rfl (.inl rfl))
  expecting {d r p q} hr h c := by
    by_cases hq : q c = .failure
    · obtain ⟨x, hp, es, hx, ho, ha⟩ := h c
      rw [hq] at hp ho
      rw [Parser.Account.expecting_eq_error d hq]
      exact covers_watching hr (Parser.Account.expecting_of_failed d hp) hx ha
        (ho.concat_given rfl (.inr ⟨r, rfl⟩))
    · exact covers_watching_of_covers hr ((h c).expecting hq)
  rescue hr := by
    have h := (own hr).2
    cases h

end Watching

theorem exists_log {r : Recipe} (own : r.SelfContained)
    (hr : ∀ q, Part q r → q.rescues = false) (c : Cursor) :
    ∃ log, parser watching r c [] = (r.outcome c, log) ∧ Orderly log (r.outcome c).error? ∧
      ∀ x ∈ log, Part x.part r := by
  let admitted (q : Recipe) : Prop := Part q r ∧ q.isName = false ∧ q.rescues = false
  have h : Transparent (logged admitted) watching admitted := transparent_watching And.right
  obtain ⟨x, hp, log, hx, ho, ha⟩ := h.tracks r (fun q hq => ⟨hq, own q hq, hr q hq⟩) c
  refine ⟨log, ?_, ho, fun y hy => (ha y hy).1⟩
  rw [hp]
  show ((parser plain r c), (x []).2) = _
  rw [hx []]
  rfl

/-- No error is swallowed where nothing rescues. A part that ends with an error decides how the whole
ends, and nothing begins after it; and the error that the whole ends with was first given by a part
that rejects with it or that makes it of a failure. Recipes that run a parser by its name, as one
that refers to itself does, are not covered. -/
theorem errors_escape (r : Recipe) (own : r.SelfContained)
    (hr : ∀ q, Part q r → q.rescues = false) (c : Cursor) :
    ∃ o log,
      (∀ definitions limit trace, ∃ trace',
        parserIn definitions (limit + 1) r c trace = (.ok o, trace')) ∧
      parser watching r c [] = (o, log) ∧
      (∀ before part start d after, log = before ++ .ended part start (.error d) :: after →
        o = .error d ∧ ∀ x ∈ after, ∃ part start, x = .ended part start (.error d)) ∧
      ∀ d, o = .error d → ∃ before part start after,
        log = before ++ .ended part start (.error d) :: after ∧
        (∀ x ∈ before, x.error? = none) ∧ Part part r ∧
        (part = .reject d ∨ ∃ p, part = .expecting d p) := by
  obtain ⟨log, hl, ho, hp⟩ := exists_log own hr c
  refine ⟨r.outcome c, log, fun definitions limit trace => ?_, hl, ?_, ?_⟩
  · exact parserIn_eq_outcome definitions limit own c trace
  · rintro before part start d after rfl
    obtain ⟨he, ha⟩ := ho.final rfl
    exact ⟨Outcome.eq_error he, fun x hx => Event.exists_of_error (ha x hx)⟩
  · intro d he
    rw [he] at ho
    obtain ⟨before, x, after, hs, hb, hx, hd⟩ := ho.exists_source
    obtain ⟨part, start, rfl⟩ := Event.exists_of_error hx
    exact ⟨before, part, start, after, hs, hb, hp (.ended part start (.error d)) (by simp [hs]), hd⟩

/-- The choice does not go on to the next token, and the error of the part in it stays. -/
theorem errors_escape_choice :
    let inner : Diagnostic := ⟨.unparsedInput, ⟨"a", 1, 1⟩⟩
    let choice : Recipe := .firstOf [.reject inner, .next]
    let r : Recipe := .expecting ⟨.lambdaMissingBody, ⟨"b", 1, 2⟩⟩ choice
    let c := Cursor.ofText "ab"
    let after : List Event := [.ended choice c (.error inner), .ended r c (.error inner)]
    r.SelfContained ∧ (∀ q, Part q r → q.rescues = false) ∧
    parser watching r c [] =
      (.error inner, [.began r c, .began choice c, .began (.reject inner) c] ++
        .ended (.reject inner) c (.error inner) :: after) ∧
    ∀ x ∈ after, ∃ part start, x = .ended part start (.error inner) := by
  intro inner choice r c after
  have parts {P : Recipe → Prop} (hr : P r) (hc : P choice) (hi : P (.reject inner))
      (hn : P .next) : ∀ q, Part q r → P q := by
    refine forall_part_iff.mpr ⟨hr, fun _ h => ?_⟩
    change Child _ (.expecting _ _) at h
    cases h
    refine forall_part_iff.mpr ⟨hc, fun p h => ?_⟩
    change Child _ (.firstOf _) at h
    cases h with
    | firstOf hp =>
      simp only [List.mem_cons, List.not_mem_nil, or_false] at hp
      rcases hp with rfl | rfl
      · exact forall_part_iff.mpr ⟨hi, fun _ h => by cases h⟩
      · exact forall_part_iff.mpr ⟨hn, fun _ h => by cases h⟩
  have own : r.SelfContained := parts rfl rfl rfl rfl
  have hr : ∀ q, Part q r → q.rescues = false := parts rfl rfl rfl rfl
  have hrun : parser watching r c [] =
      (.error inner, [.began r c, .began choice c, .began (.reject inner) c] ++
        .ended (.reject inner) c (.error inner) :: after) := rfl
  obtain ⟨o, log, -, hl, hf, -⟩ := errors_escape r own hr c
  obtain ⟨rfl, rfl⟩ := Prod.mk.inj (hl.symm.trans hrun)
  exact ⟨own, hr, hrun, (hf _ _ _ _ _ rfl).2⟩

end Woof.Recipe
