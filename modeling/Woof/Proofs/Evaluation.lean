import Woof.Proofs.Onward
import Woof.Proofs.Recipe

namespace Woof

namespace Cursor

variable {c c' : Cursor} {t : Token Char}

theorem first?_eq_map (c : Cursor) : c.first? = c.next?.map Prod.fst := by
  unfold first? next?
  split <;> simp [*]

/-- Where there is a token, advancing never raises. -/
theorem next?_eq_some_iff : c.next? = some (t, c') ↔ c.first? = some t ∧ c.advance = .ok c' := by
  rw [first?_eq_map, advance]
  cases c.next? with
  | none => simp
  | some r => simp [Prod.ext_iff]

theorem Onward.of_next? (h : c.next? = some (t, c')) : c.Onward c' := by
  rw [eq_seek_of_next? h]
  apply Onward.of_seek
  rw [remaining_of_next? h]
  exact List.suffix_cons _ _

end Cursor

namespace Value

/-- Puts a value before those of a list. -/
def cons (v : Value) : Value → Value
  | list vs => list (v :: vs)
  | w => w

def isNil : Value → Bool
  | list [] => true
  | _ => false

end Value

namespace Outcome

variable {α β : Type}

def succeeded : Outcome α → Bool
  | success _ _ => true
  | _ => false

/-- A success is at a place onward of the given one. -/
def OnwardOf (o : Outcome α) (c : Cursor) : Prop :=
  ∀ ⦃v c'⦄, o = .success v c' → c.Onward c'

/-- What a success leads to; all else stays as it is. -/
def andThen (o : Outcome α) (k : α → Cursor → Outcome β) : Outcome β :=
  match o with
  | success v c => k v c
  | failure => failure
  | error d => error d

/-- What a failure gives way to; all else stays as it is. -/
def orElse (o w : Outcome α) : Outcome α :=
  match o with
  | failure => w
  | o => o

theorem andThen_of_not_succeeded {o : Outcome α} (h : o.succeeded = false)
    (k : α → Cursor → Outcome α) : o.andThen k = o := by
  cases o with
  | success v c => cases h
  | failure => rfl
  | error d => rfl

theorem orElse_of_ne {o : Outcome α} (h : o ≠ .failure) (w : Outcome α) : o.orElse w = o := by
  cases o with
  | failure => exact absurd rfl h
  | success v c => rfl
  | error d => rfl

namespace OnwardOf

variable {c c₁ : Cursor} {o : Outcome α}

theorem of_not_succeeded (h : o.succeeded = false) : o.OnwardOf c := by
  rintro v c' rfl
  cases h

theorem map (h : o.OnwardOf c) (f : α → β) : (o.map f).OnwardOf c := by
  intro v c' ho
  cases o with
  | success u c₁ =>
    cases ho
    exact h rfl
  | _ => cases ho

theorem trans (h : o.OnwardOf c₁) (hc : c.Onward c₁) : o.OnwardOf c :=
  fun _ _ ho => hc.trans (h ho)

end OnwardOf

end Outcome

namespace Parser

variable {α : Type} (q : Parser Id α)

theorem repeatFrom_apply (values : List α) (c : Cursor) : repeatFrom q values c =
    match q c with
    | .success v c' =>
      if c'.left < c.left then repeatFrom (m := Id) q (v :: values) c'
      else .success (v :: values).reverse c
    | .failure => .success values.reverse c
    | .error d => .error d := by
  rw [repeatFrom]
  cases q c <;> rfl

/-- What was read before stands before what is read. -/
theorem repeatFrom_eq_map (values : List α) (c : Cursor) :
    repeatFrom q values c = (repeatFrom (m := Id) q [] c).map (values.reverse ++ ·) := by
  induction hn : c.left using Nat.strongRecOn generalizing values c with
  | ind n ih =>
    rw [repeatFrom_apply, repeatFrom_apply]
    cases q c with
    | success v c' =>
      show (if c'.left < c.left then _ else _) = Outcome.map _ (if c'.left < c.left then _ else _)
      by_cases h : c'.left < c.left
      · rw [if_pos h, if_pos h, ih _ (hn ▸ h) (v :: values) c' rfl, ih _ (hn ▸ h) [v] c' rfl]
        cases repeatFrom (m := Id) q [] c' with
        | success vs c₁ => simp
        | _ => rfl
      · rw [if_neg h, if_neg h]
        simp
    | failure => simp
    | error d => rfl

end Parser

namespace Recipe

/-- How a recipe is run, rule by rule. A repetition ends where a run of its part leaves as many
tokens as before and goes on where it leaves another number of them, be they fewer or more; to
consume a token is to advance, for which there is no rule where no token is left. -/
inductive Evaluates : Recipe → Cursor → Outcome Value → Prop where
  | next {c c' : Cursor} {t : Token Char} (first : c.first? = some t) (adv : c.advance = .ok c') :
      Evaluates next c (.success (.ofToken t) c')
  | nextAtEnd {c : Cursor} (first : c.first? = none) : Evaluates next c .failure
  | atEnd {c : Cursor} (left : c.left = 0) : Evaluates atEnd c (.success .absent c)
  | atEndBefore {c : Cursor} (left : c.left ≠ 0) : Evaluates atEnd c .failure
  | satisfying {wanted : Value → Bool} {c : Cursor} {o : Outcome Value}
      (run : Evaluates (filter wanted .next) c o) : Evaluates (satisfying wanted) c o
  | succeed {v : Value} {c : Cursor} : Evaluates (succeed v) c (.success v c)
  | reject {d : Diagnostic} {c : Cursor} : Evaluates (reject d) c (.error d)
  | filter {wanted : Value → Bool} {p : Recipe} {c c' : Cursor} {v : Value}
      (run : Evaluates p c (.success v c')) (hv : wanted v = true) :
      Evaluates (filter wanted p) c (.success v c')
  | filterUnwanted {wanted : Value → Bool} {p : Recipe} {c c' : Cursor} {v : Value}
      (run : Evaluates p c (.success v c')) (hv : wanted v = false) :
      Evaluates (filter wanted p) c .failure
  | filterStopped {wanted : Value → Bool} {p : Recipe} {c : Cursor} {o : Outcome Value}
      (run : Evaluates p c o) (ho : o.succeeded = false) : Evaluates (filter wanted p) c o
  | map {f : Value → Value} {p : Recipe} {c : Cursor} {o : Outcome Value}
      (run : Evaluates p c o) : Evaluates (map f p) c (o.map f)
  | bind {p : Recipe} {k : Value → Recipe} {c c' : Cursor} {v : Value} {o : Outcome Value}
      (run : Evaluates p c (.success v c')) (rest : Evaluates (k v) c' o) :
      Evaluates (bind p k) c o
  | bindStopped {p : Recipe} {k : Value → Recipe} {c : Cursor} {o : Outcome Value}
      (run : Evaluates p c o) (ho : o.succeeded = false) : Evaluates (bind p k) c o
  | inOrderNil {c : Cursor} : Evaluates (inOrder []) c (.success (.list []) c)
  | inOrderCons {p : Recipe} {ps : List Recipe} {c : Cursor} {o : Outcome Value}
      (run : Evaluates (bind p fun v => map v.cons (inOrder ps)) c o) :
      Evaluates (inOrder (p :: ps)) c o
  | firstOfNil {c : Cursor} : Evaluates (firstOf []) c .failure
  | firstOfTaken {p : Recipe} {ps : List Recipe} {c : Cursor} {o : Outcome Value}
      (run : Evaluates p c o) (ho : o ≠ .failure) : Evaluates (firstOf (p :: ps)) c o
  | firstOfSkipped {p : Recipe} {ps : List Recipe} {c : Cursor} {o : Outcome Value}
      (run : Evaluates p c .failure) (rest : Evaluates (firstOf ps) c o) :
      Evaluates (firstOf (p :: ps)) c o
  | keepFirst {p q : Recipe} {c : Cursor} {o : Outcome Value}
      (run : Evaluates (bind p fun v => map (fun _ => v) q) c o) : Evaluates (keepFirst p q) c o
  | keepSecond {p q : Recipe} {c : Cursor} {o : Outcome Value}
      (run : Evaluates (bind p fun _ => q) c o) : Evaluates (keepSecond p q) c o
  | zeroOrMoreEnded {p : Recipe} {c : Cursor} (run : Evaluates p c .failure) :
      Evaluates (zeroOrMore p) c (.success (.list []) c)
  | zeroOrMoreErred {p : Recipe} {c : Cursor} {d : Diagnostic} (run : Evaluates p c (.error d)) :
      Evaluates (zeroOrMore p) c (.error d)
  | zeroOrMoreIdle {p : Recipe} {c c₁ : Cursor} {v : Value} (run : Evaluates p c (.success v c₁))
      (idle : c₁.left = c.left) : Evaluates (zeroOrMore p) c (.success (.list [v]) c)
  | zeroOrMoreAgain {p : Recipe} {c c₁ : Cursor} {v : Value} {o : Outcome Value}
      (run : Evaluates p c (.success v c₁)) (again : c₁.left ≠ c.left)
      (rest : Evaluates (zeroOrMore p) c₁ o) : Evaluates (zeroOrMore p) c (o.map v.cons)
  | oneOrMore {p : Recipe} {c : Cursor} {o : Outcome Value}
      (run : Evaluates (filter (!·.isNil) (zeroOrMore p)) c o) : Evaluates (oneOrMore p) c o
  | anythingBut {p : Recipe} {c : Cursor} {o : Outcome Value} (run : Evaluates p c .failure)
      (rest : Evaluates .next c o) : Evaluates (anythingBut p) c o
  | anythingButMatched {p : Recipe} {c c' : Cursor} {v : Value}
      (run : Evaluates p c (.success v c')) : Evaluates (anythingBut p) c .failure
  | anythingButErred {p : Recipe} {c : Cursor} {d : Diagnostic} (run : Evaluates p c (.error d)) :
      Evaluates (anythingBut p) c (.error d)
  | optional {p : Recipe} {c : Cursor} {o : Outcome Value} (run : Evaluates p c o)
      (ho : o ≠ .failure) : Evaluates (optional p) c o
  | optionalNone {p : Recipe} {c : Cursor} (run : Evaluates p c .failure) :
      Evaluates (optional p) c (.success .absent c)
  | expecting {d : Diagnostic} {p : Recipe} {c : Cursor} {o : Outcome Value}
      (run : Evaluates p c o) (ho : o ≠ .failure) : Evaluates (expecting d p) c o
  | expectingNone {d : Diagnostic} {p : Recipe} {c : Cursor} (run : Evaluates p c .failure) :
      Evaluates (expecting d p) c (.error d)
  | rescue {p : Recipe} {handler : Diagnostic → Recipe} {c : Cursor} {o : Outcome Value}
      (run : Evaluates p c o) (ho : o.error? = none) : Evaluates (rescue p handler) c o
  | rescueErred {p : Recipe} {handler : Diagnostic → Recipe} {c : Cursor} {d : Diagnostic}
      {o : Outcome Value} (run : Evaluates p c (.error d)) (rest : Evaluates (handler d) c o) :
      Evaluates (rescue p handler) c o
  | labelled {label : String} {p : Recipe} {c : Cursor} {o : Outcome Value}
      (run : Evaluates p c o) : Evaluates (labelled label p) c o

theorem Evaluates.onwardOf {r : Recipe} {c : Cursor} {o : Outcome Value} (h : Evaluates r c o) :
    o.OnwardOf c := by
  induction h with
  | next first adv =>
    rintro _ _ ⟨⟩
    exact .of_next? (Cursor.next?_eq_some_iff.mpr ⟨first, adv⟩)
  | atEnd | succeed | inOrderNil | zeroOrMoreEnded | zeroOrMoreIdle | optionalNone =>
    rintro _ _ ⟨⟩
    exact .refl _
  | nextAtEnd | atEndBefore | reject | filterUnwanted | firstOfNil | zeroOrMoreErred
  | anythingButMatched | anythingButErred | expectingNone => exact .of_not_succeeded rfl
  | filterStopped _ ho | bindStopped _ ho => exact .of_not_succeeded ho
  | filter _ _ ih =>
    rintro _ _ ⟨⟩
    exact ih rfl
  | map _ ih => exact ih.map _
  | bind _ _ ih ihr => exact ihr.trans (ih rfl)
  | zeroOrMoreAgain _ _ _ ih ihr => exact (ihr.map _).trans (ih rfl)
  | satisfying _ ih | inOrderCons _ ih | firstOfTaken _ _ ih | keepFirst _ ih | keepSecond _ ih
  | oneOrMore _ ih | optional _ _ ih | expecting _ _ ih | rescue _ _ ih | labelled _ ih => exact ih
  | firstOfSkipped _ _ _ ihr | anythingBut _ _ _ ihr | rescueErred _ _ _ ihr => exact ihr

section Outcome

variable {p q : Recipe} {ps : List Recipe} {c : Cursor}

theorem outcome_next : next.outcome c =
    match c.next? with
    | some (t, c') => .success (.ofToken t) c'
    | none => .failure := by
  show (Parser.next (m := Id) c).map Value.ofToken = _
  unfold Parser.next
  cases c.next? <;> rfl

theorem outcome_atEnd : atEnd.outcome c =
    if c.left = 0 then .success .absent c else .failure := by
  show (Parser.atEnd (m := Id) c).map _ = _
  unfold Parser.atEnd
  split <;> rfl

theorem outcome_bind (k : Value → Recipe) :
    (bind p k).outcome c = (p.outcome c).andThen fun v c' => (k v).outcome c' := by
  show Parser.bind (m := Id) p.outcome (fun v => (k v).outcome) c = _
  unfold Parser.bind
  cases p.outcome c <;> rfl

theorem outcome_filter (wanted : Value → Bool) : (filter wanted p).outcome c =
    (p.outcome c).andThen fun v c' => if wanted v then .success v c' else .failure := by
  show Parser.filter (m := Id) wanted p.outcome c = _
  unfold Parser.filter
  cases p.outcome c <;> rfl

theorem outcome_satisfying (wanted : Value → Bool) :
    (satisfying wanted).outcome c = (filter wanted next).outcome c := by
  rw [outcome_filter, outcome_next]
  show (Parser.filter (m := Id) _ Parser.next c).map Value.ofToken = _
  unfold Parser.filter Parser.next
  cases c.next? with
  | none => rfl
  | some r =>
    show (if wanted (.ofToken r.1) then Outcome.success r.1 r.2 else .failure).map _ =
      if wanted (.ofToken r.1) then _ else _
    split <;> rfl

theorem outcome_keepFirst :
    (keepFirst p q).outcome c = (bind p fun v => map (fun _ => v) q).outcome c := by
  rw [outcome_bind]
  show Parser.bind (m := Id) p.outcome (fun v => (bind q fun _ => succeed v).outcome) c = _
  unfold Parser.bind
  cases p.outcome c with
  | success v c' =>
    show (bind q fun _ => succeed v).outcome c' = (q.outcome c').map _
    rw [outcome_bind]
    cases q.outcome c' <;> rfl
  | _ => rfl

theorem outcome_firstOf_cons :
    (firstOf (p :: ps)).outcome c = (p.outcome c).orElse ((firstOf ps).outcome c) := by
  show Parser.firstOf (m := Id) (p.outcome :: parsers plain ps) c = _
  unfold Parser.firstOf
  cases p.outcome c <;> rfl

theorem outcome_optional :
    (optional p).outcome c = (p.outcome c).orElse (.success .absent c) := by
  show (Parser.optional (m := Id) p.outcome c).map _ = _
  unfold Parser.optional
  cases p.outcome c <;> rfl

theorem outcome_expecting (d : Diagnostic) :
    (expecting d p).outcome c = (p.outcome c).orElse (.error d) := by
  show Parser.expecting (m := Id) d p.outcome c = _
  unfold Parser.expecting
  cases p.outcome c <;> rfl

theorem outcome_anythingBut : (anythingBut p).outcome c =
    match p.outcome c with
    | .failure => next.outcome c
    | .success _ _ => .failure
    | .error d => .error d := by
  show (Parser.anythingBut (m := Id) p.outcome c).map Value.ofToken = _
  unfold Parser.anythingBut
  cases p.outcome c <;> rfl

theorem outcome_rescue (handler : Diagnostic → Recipe) : (rescue p handler).outcome c =
    match p.outcome c with
    | .error d => (handler d).outcome c
    | o => o := by
  show Parser.rescue (m := Id) p.outcome (fun d => (handler d).outcome) c = _
  unfold Parser.rescue
  cases p.outcome c <;> rfl

theorem outcome_inOrder_cons :
    (inOrder (p :: ps)).outcome c = (bind p fun v => map v.cons (inOrder ps)).outcome c := by
  let rest : Parser Id (List Value) := Parser.inOrder (parsers plain ps)
  rw [outcome_bind]
  show (Parser.bind (m := Id) p.outcome
    (fun v => Parser.bind rest fun vs => Parser.pure (v :: vs)) c).map Value.list = _
  unfold Parser.bind
  cases p.outcome c with
  | success v c' =>
    show (Parser.bind rest (fun vs => Parser.pure (v :: vs)) c').map Value.list =
      ((rest c').map Value.list).map v.cons
    unfold Parser.bind
    cases rest c' <;> rfl
  | _ => rfl

theorem outcome_zeroOrMore : (zeroOrMore p).outcome c =
    match p.outcome c with
    | .success v c' =>
      if c'.left < c.left then ((zeroOrMore p).outcome c').map v.cons else .success (.list [v]) c
    | .failure => .success (.list []) c
    | .error d => .error d := by
  unfold outcome
  show (Parser.repeatFrom (parser plain p) [] c).map Value.list = _
  rw [Parser.repeatFrom_apply]
  cases parser plain p c with
  | success v c' =>
    show Outcome.map Value.list (if c'.left < c.left then _ else _) =
      if c'.left < c.left then _ else _
    by_cases h : c'.left < c.left
    · rw [if_pos h, if_pos h, Parser.repeatFrom_eq_map]
      show _ = ((Parser.repeatFrom (parser plain p) [] c').map Value.list).map v.cons
      cases Parser.repeatFrom (parser plain p) [] c' <;> rfl
    · rw [if_neg h, if_neg h]
      rfl
  | _ => rfl

theorem outcome_oneOrMore :
    (oneOrMore p).outcome c = (filter (!·.isNil) (zeroOrMore p)).outcome c := by
  let all : Parser Id (List Value) := Parser.zeroOrMore (parser plain p)
  rw [outcome_filter]
  show (Parser.filter _ all c).map Value.list = ((all c).map Value.list).andThen _
  unfold Parser.filter
  match all c with
  | .success (v :: vs) c' | .success [] c' | .failure | .error d => rfl

end Outcome

/-- The rules lead to no other end than running the recipe. -/
theorem Evaluates.eq_outcome {r : Recipe} {c : Cursor} {o : Outcome Value} (h : Evaluates r c o) :
    r.outcome c = o := by
  induction h with
  | next first adv => rw [outcome_next, Cursor.next?_eq_some_iff.mpr ⟨first, adv⟩]
  | nextAtEnd first =>
    rw [Cursor.first?_eq_map, Option.map_eq_none_iff] at first
    rw [outcome_next, first]
  | atEnd left => rw [outcome_atEnd, if_pos left]
  | atEndBefore left => rw [outcome_atEnd, if_neg left]
  | satisfying _ ih => rw [outcome_satisfying, ih]
  | succeed | reject | inOrderNil | firstOfNil => rfl
  | filter _ hv ih =>
    rw [outcome_filter, ih]
    exact if_pos hv
  | filterUnwanted _ hv ih =>
    rw [outcome_filter, ih]
    simp [Outcome.andThen, hv]
  | filterStopped _ ho ih => rw [outcome_filter, ih, Outcome.andThen_of_not_succeeded ho]
  | @map f _ _ _ _ ih => exact congrArg (Outcome.map f) ih
  | bind _ _ ih ihr =>
    rw [outcome_bind, ih]
    exact ihr
  | bindStopped _ ho ih => rw [outcome_bind, ih, Outcome.andThen_of_not_succeeded ho]
  | inOrderCons _ ih => rw [outcome_inOrder_cons, ih]
  | firstOfTaken _ ho ih => rw [outcome_firstOf_cons, ih, Outcome.orElse_of_ne ho]
  | firstOfSkipped _ _ ih ihr =>
    rw [outcome_firstOf_cons, ih]
    exact ihr
  | keepFirst _ ih => rw [outcome_keepFirst, ih]
  | keepSecond _ ih => exact ih
  | zeroOrMoreEnded _ ih | zeroOrMoreErred _ ih => rw [outcome_zeroOrMore, ih]
  | zeroOrMoreIdle _ idle ih =>
    rw [outcome_zeroOrMore, ih]
    exact if_neg (by omega)
  | zeroOrMoreAgain run again _ ih ihr =>
    have hle := (run.onwardOf rfl).left_le
    rw [outcome_zeroOrMore, ih, ← ihr]
    exact if_pos (by omega)
  | oneOrMore _ ih => rw [outcome_oneOrMore, ih]
  | anythingBut _ _ ih ihr => rw [outcome_anythingBut, ih, ihr]
  | anythingButMatched _ ih | anythingButErred _ ih => rw [outcome_anythingBut, ih]
  | optional _ ho ih => rw [outcome_optional, ih, Outcome.orElse_of_ne ho]
  | optionalNone _ ih =>
    rw [outcome_optional, ih]
    rfl
  | expecting _ ho ih => rw [outcome_expecting, ih, Outcome.orElse_of_ne ho]
  | expectingNone _ ih =>
    rw [outcome_expecting, ih]
    rfl
  | @rescue _ _ _ o _ ho ih =>
    rw [outcome_rescue, ih]
    cases o with
    | error d => cases ho
    | _ => rfl
  | rescueErred _ _ ih ihr =>
    rw [outcome_rescue, ih]
    exact ihr
  | labelled _ ih => exact ih

/-- From every place the rules lead to the end that running the recipe has. -/
def Settles (r : Recipe) : Prop := ∀ c, Evaluates r c (r.outcome c)

namespace Settles

variable {p q : Recipe} {ps : List Recipe}

theorem next : Settles next := by
  intro c
  rw [outcome_next]
  cases h : c.next? with
  | none => exact .nextAtEnd (by rw [Cursor.first?_eq_map, h]; rfl)
  | some r =>
    obtain ⟨hf, ha⟩ := Cursor.next?_eq_some_iff.mp h
    exact .next hf ha

theorem atEnd : Settles atEnd := by
  intro c
  rw [outcome_atEnd]
  by_cases h : c.left = 0
  · rw [if_pos h]
    exact .atEnd h
  · rw [if_neg h]
    exact .atEndBefore h

theorem filter (hp : Settles p) (wanted : Value → Bool) : Settles (filter wanted p) := by
  intro c
  have h := hp c
  rw [outcome_filter]
  cases ho : p.outcome c with
  | success v c' =>
    rw [ho] at h
    show Evaluates _ _ (if wanted v then _ else _)
    by_cases hv : wanted v = true
    · rw [if_pos hv]
      exact .filter h hv
    · rw [if_neg hv]
      exact .filterUnwanted h (Bool.eq_false_iff.mpr hv)
  | failure | error d =>
    rw [ho] at h
    exact .filterStopped h rfl

theorem map (hp : Settles p) (f : Value → Value) : Settles (map f p) := fun c => .map (hp c)

theorem bind {k : Value → Recipe} (hp : Settles p) (hk : ∀ v, Settles (k v)) :
    Settles (bind p k) := by
  intro c
  have h := hp c
  rw [outcome_bind]
  cases ho : p.outcome c with
  | success v c' =>
    rw [ho] at h
    exact .bind h (hk v c')
  | failure | error d =>
    rw [ho] at h
    exact .bindStopped h rfl

theorem inOrder (h : ∀ p ∈ ps, Settles p) : Settles (inOrder ps) := by
  induction ps with
  | nil => exact fun c => .inOrderNil
  | cons p ps ih =>
    obtain ⟨hp, hps⟩ := List.forall_mem_cons.mp h
    intro c
    rw [outcome_inOrder_cons]
    exact .inOrderCons (hp.bind (fun v => (ih hps).map v.cons) c)

theorem firstOf (h : ∀ p ∈ ps, Settles p) : Settles (firstOf ps) := by
  induction ps with
  | nil => exact fun c => .firstOfNil
  | cons p ps ih =>
    obtain ⟨hp, hps⟩ := List.forall_mem_cons.mp h
    intro c
    have h := hp c
    rw [outcome_firstOf_cons]
    by_cases ho : p.outcome c = .failure
    · rw [ho] at h ⊢
      exact .firstOfSkipped h (ih hps c)
    · rw [Outcome.orElse_of_ne ho]
      exact .firstOfTaken h ho

/-- A run goes on only where tokens were consumed, of which there are finitely many. -/
theorem zeroOrMore (hp : Settles p) : Settles (zeroOrMore p) := by
  intro c
  induction hn : c.left using Nat.strongRecOn generalizing c with
  | ind n ih =>
    have h := hp c
    rw [outcome_zeroOrMore]
    cases ho : p.outcome c with
    | success v c' =>
      rw [ho] at h
      show Evaluates _ _ (if c'.left < c.left then _ else _)
      -- The rules only ask whether the number of tokens changed; it can only have fallen.
      have hle := (h.onwardOf rfl).left_le
      by_cases hl : c'.left < c.left
      · rw [if_pos hl]
        exact .zeroOrMoreAgain h (by omega) (ih c'.left (by omega) c' rfl)
      · rw [if_neg hl]
        exact .zeroOrMoreIdle h (by omega)
    | failure =>
      rw [ho] at h
      exact .zeroOrMoreEnded h
    | error d =>
      rw [ho] at h
      exact .zeroOrMoreErred h

theorem anythingBut (hp : Settles p) : Settles (anythingBut p) := by
  intro c
  have h := hp c
  rw [outcome_anythingBut]
  cases ho : p.outcome c with
  | success v c' =>
    rw [ho] at h
    exact .anythingButMatched h
  | failure =>
    rw [ho] at h
    exact .anythingBut h (next c)
  | error d =>
    rw [ho] at h
    exact .anythingButErred h

theorem optional (hp : Settles p) : Settles (optional p) := by
  intro c
  have h := hp c
  rw [outcome_optional]
  by_cases ho : p.outcome c = .failure
  · rw [ho] at h ⊢
    exact .optionalNone h
  · rw [Outcome.orElse_of_ne ho]
    exact .optional h ho

theorem expecting (hp : Settles p) (d : Diagnostic) : Settles (expecting d p) := by
  intro c
  have h := hp c
  rw [outcome_expecting]
  by_cases ho : p.outcome c = .failure
  · rw [ho] at h ⊢
    exact .expectingNone h
  · rw [Outcome.orElse_of_ne ho]
    exact .expecting h ho

theorem rescue {handler : Diagnostic → Recipe} (hp : Settles p) (hk : ∀ d, Settles (handler d)) :
    Settles (rescue p handler) := by
  intro c
  have h := hp c
  rw [outcome_rescue]
  cases ho : p.outcome c with
  | error d =>
    rw [ho] at h
    exact .rescueErred h (hk d c)
  | success v c' | failure =>
    rw [ho] at h
    exact .rescue h rfl

end Settles

/-- Every recipe without names comes to an end. -/
theorem SelfContained.settles (r : Recipe) (own : r.SelfContained) : Settles r := by
  induction r using induction_child with
  | step r ih =>
    replace ih (q : Recipe) (hc : Child q r) : Settles q := ih q hc (own.child hc)
    cases r with
    | next => exact .next
    | atEnd => exact .atEnd
    | satisfying wanted =>
      intro c
      rw [outcome_satisfying]
      exact .satisfying (Settles.next.filter wanted c)
    | succeed v => exact fun c => .succeed
    | reject d => exact fun c => .reject
    | filter wanted p => exact (ih p .filter).filter wanted
    | map f p => exact (ih p .map).map f
    | bind p k => exact (ih p .bindFirst).bind fun v => ih (k v) (.bindNext v)
    | inOrder ps => exact .inOrder fun p hp => ih p (.inOrder hp)
    | firstOf ps => exact .firstOf fun p hp => ih p (.firstOf hp)
    | keepFirst p q =>
      intro c
      rw [outcome_keepFirst]
      have hq := ih q (.keepFirst (.inr rfl))
      exact .keepFirst ((ih p (.keepFirst (.inl rfl))).bind (fun v => hq.map fun _ => v) c)
    | keepSecond p q =>
      intro c
      have hq := ih q (.keepSecond (.inr rfl))
      exact .keepSecond ((ih p (.keepSecond (.inl rfl))).bind (fun _ => hq) c)
    | zeroOrMore p => exact (ih p .zeroOrMore).zeroOrMore
    | oneOrMore p =>
      intro c
      rw [outcome_oneOrMore]
      exact .oneOrMore ((ih p .oneOrMore).zeroOrMore.filter _ c)
    | anythingBut p => exact (ih p .anythingBut).anythingBut
    | optional p => exact (ih p .optional).optional
    | expecting d p => exact (ih p .expecting).expecting d
    | rescue p handler =>
      exact (ih p .rescueFirst).rescue fun d => ih (handler d) (.rescueNext d)
    | labelled label p => exact fun c => .labelled (ih p .labelled c)
    | rule r => cases own (rule r) (.refl _)
    | ref name => cases own (ref name) (.refl _)

end Recipe

end Woof
