import Mathlib.Logic.Relation
import Woof.Proofs.Account
import Woof.Proofs.Effect
import Woof.Recipe

namespace Woof.Recipe

/-- The first recipe is one that the second is directly built from; what the value of a recipe or an
error asks for counts too. -/
inductive Child : Recipe → Recipe → Prop where
  | filter {wanted : Value → Bool} {p : Recipe} : Child p (filter wanted p)
  | map {f : Value → Value} {p : Recipe} : Child p (map f p)
  | bindFirst {p : Recipe} {k : Value → Recipe} : Child p (bind p k)
  | bindNext {p : Recipe} {k : Value → Recipe} (v : Value) : Child (k v) (bind p k)
  | inOrder {p : Recipe} {ps : List Recipe} (mem : p ∈ ps) : Child p (inOrder ps)
  | firstOf {p : Recipe} {ps : List Recipe} (mem : p ∈ ps) : Child p (firstOf ps)
  | keepFirst {p q r : Recipe} (mem : r = p ∨ r = q) : Child r (keepFirst p q)
  | keepSecond {p q r : Recipe} (mem : r = p ∨ r = q) : Child r (keepSecond p q)
  | zeroOrMore {p : Recipe} : Child p (zeroOrMore p)
  | oneOrMore {p : Recipe} : Child p (oneOrMore p)
  | anythingBut {p : Recipe} : Child p (anythingBut p)
  | optional {p : Recipe} : Child p (optional p)
  | expecting {d : Diagnostic} {p : Recipe} : Child p (expecting d p)
  | rescueFirst {p : Recipe} {handler : Diagnostic → Recipe} : Child p (rescue p handler)
  | rescueNext {p : Recipe} {handler : Diagnostic → Recipe} (d : Diagnostic) :
      Child (handler d) (rescue p handler)
  | labelled {label : String} {p : Recipe} : Child p (labelled label p)

mutual

theorem acc_child : (r : Recipe) → Acc Child r
  | next | atEnd | satisfying _ | succeed _ | reject _ | rule _ | ref _ =>
    ⟨_, fun _ h => by cases h⟩
  | filter _ p | map _ p | zeroOrMore p | oneOrMore p | anythingBut p | optional p |
      expecting _ p | labelled _ p => by
    have ih := acc_child p
    exact ⟨_, fun _ h => by cases h; exact ih⟩
  | keepFirst p q | keepSecond p q => by
    have ihp := acc_child p
    have ihq := acc_child q
    exact ⟨_, fun _ h => by cases h; rcases ‹_ ∨ _› with rfl | rfl <;> assumption⟩
  | inOrder ps | firstOf ps => by
    have ih := acc_children ps
    exact ⟨_, fun q h => by cases h; exact ih q ‹_›⟩
  | bind p k => by
    have ih := acc_child p
    have ihk := fun v => acc_child (k v)
    exact ⟨_, fun _ h => by cases h <;> simp only [ih, ihk]⟩
  | rescue p handler => by
    have ih := acc_child p
    have ihk := fun d => acc_child (handler d)
    exact ⟨_, fun _ h => by cases h <;> simp only [ih, ihk]⟩

theorem acc_children : (ps : List Recipe) → ∀ p ∈ ps, Acc Child p
  | [] => by simp
  | p :: ps => List.forall_mem_cons.mpr ⟨acc_child p, acc_children ps⟩

end

/-- What holds of a recipe if it holds of all that it is built from holds of every recipe. -/
@[elab_as_elim] theorem induction_child {motive : Recipe → Prop}
    (step : ∀ r, (∀ q, Child q r → motive q) → motive r) (r : Recipe) : motive r :=
  (WellFounded.intro acc_child).induction r step

/-- The first recipe is the second or stands somewhere in it. -/
def Part : Recipe → Recipe → Prop := Relation.ReflTransGen Child

theorem Part.refl (r : Recipe) : Part r r := Relation.ReflTransGen.refl

theorem Part.of_child {q p r : Recipe} (h : Part q p) (hc : Child p r) : Part q r :=
  Relation.ReflTransGen.tail h hc

theorem forall_part_iff {P : Recipe → Prop} {r : Recipe} :
    (∀ q, Part q r → P q) ↔ P r ∧ ∀ p, Child p r → ∀ q, Part q p → P q := by
  constructor
  · intro h
    exact ⟨h r (.refl r), fun p hc q hq => h q (hq.of_child hc)⟩
  · rintro ⟨hr, hc⟩ q hq
    rcases Relation.ReflTransGen.cases_tail hq with rfl | ⟨p, hp, hpr⟩
    · exact hr
    · exact hc p hpr q hp

/-- Whether a recipe is but the name of a parser that is given elsewhere. -/
def isName : Recipe → Bool
  | rule _ | ref _ => true
  | _ => false

/-- Whether a recipe goes on where another errs. -/
def rescues : Recipe → Bool
  | rescue _ _ => true
  | _ => false

/-- All that a recipe stands for is in it. -/
def SelfContained (r : Recipe) : Prop := ∀ q, Part q r → q.isName = false

theorem SelfContained.child {q r : Recipe} (h : r.SelfContained) (hc : Child q r) :
    q.SelfContained := fun p hp => h p (hp.of_child hc)

/-- A recipe as it is, with nothing around its parts. -/
def plain : Surroundings Id where
  around _ p := p
  rule _ := fun _ => .failure
  ref _ := fun _ => .failure

/-- How running a recipe ends if it has no effects. -/
def outcome (r : Recipe) (c : Cursor) : Outcome Value := parser plain r c

section Account

open Parser.Account

variable {m : Type → Type} [Monad m]

/-- Surroundings that leave the outcome of the admitted recipes as it is and keep the account. The
two recipes that make an error and the one that takes it away are asked for as a whole. -/
structure Transparent (A : Parser.Account m) (s : Surroundings m) (admitted : Recipe → Prop) :
    Prop where
  own : ∀ {r}, admitted r → r.isName = false
  around : ∀ {r p q}, admitted r → A.Tracks p q → A.Tracks (s.around r p) q
  reject : ∀ {d}, admitted (reject d) →
    A.Tracks (s.around (.reject d) (Parser.reject d)) (Parser.reject d)
  expecting : ∀ {d r p q}, admitted (expecting d r) → A.Tracks p q →
    A.Tracks (s.around (.expecting d r) (Parser.expecting d p)) (Parser.expecting d q)
  rescue : ∀ {r handler p q k l}, admitted (rescue r handler) → A.Tracks p q →
    (∀ d, A.Tracks (k d) (l d)) →
    A.Tracks (s.around (.rescue r handler) (Parser.rescue p k)) (Parser.rescue q l)

variable [LawfulMonad m] {A : Parser.Account m} {s : Surroundings m} {admitted : Recipe → Prop}

/-- Running a recipe of admitted parts ends as it would with nothing around them. -/
theorem Transparent.tracks (h : Transparent A s admitted) (r : Recipe)
    (hr : ∀ q, Part q r → admitted q) : A.Tracks (parser s r) (parser plain r) := by
  induction r using induction_child with
  | step r ih =>
    have hself := hr r (.refl r)
    replace ih (q : Recipe) (hc : Child q r) : A.Tracks (parser s q) (parser plain q) :=
      ih q hc fun p hp => hr p (hp.of_child hc)
    have each (ps : List Recipe) (hps : ∀ p ∈ ps, Child p r) :
        List.Forall₂ A.Tracks (parsers s ps) (parsers plain ps) := by
      rw [parsers_eq_map, parsers_eq_map, List.forall₂_map_left_iff, List.forall₂_map_right_iff,
        List.forall₂_same]
      exact fun p hp => ih p (hps p hp)
    -- What stands around the recipe is dealt with by `around`, except where errors come and go.
    unfold parser
    cases r with
    | next => exact h.around hself (Tracks.next.map _)
    | atEnd => exact h.around hself (Tracks.atEnd.map _)
    | satisfying wanted => exact h.around hself ((Tracks.satisfying _).map _)
    | succeed v => exact h.around hself (.of_pure v)
    | reject d => exact h.reject hself
    | filter wanted p => exact h.around hself ((ih p .filter).filter wanted)
    | map f p => exact h.around hself ((ih p .map).map f)
    | bind p k => exact h.around hself ((ih p .bindFirst).bind fun v => ih (k v) (.bindNext v))
    | inOrder ps => exact h.around hself ((Tracks.inOrder (each ps fun _ => .inOrder)).map _)
    | firstOf ps => exact h.around hself (.firstOf (each ps fun _ => .firstOf))
    | keepFirst p q =>
      exact h.around hself ((ih p (.keepFirst (.inl rfl))).bind fun v =>
        (ih q (.keepFirst (.inr rfl))).bind fun _ => .of_pure v)
    | keepSecond p q =>
      exact h.around hself ((ih p (.keepSecond (.inl rfl))).bind fun _ =>
        ih q (.keepSecond (.inr rfl)))
    | zeroOrMore p => exact h.around hself ((ih p .zeroOrMore).zeroOrMore.map _)
    | oneOrMore p => exact h.around hself ((ih p .oneOrMore).oneOrMore.map _)
    | anythingBut p => exact h.around hself ((ih p .anythingBut).anythingBut.map _)
    | optional p => exact h.around hself ((ih p .optional).optional.map _)
    | expecting d p => exact h.expecting hself (ih p .expecting)
    | rescue p handler =>
      exact h.rescue hself (ih p .rescueFirst) fun d => ih (handler d) (.rescueNext d)
    | labelled label p => exact h.around hself (ih p .labelled)
    | rule r => cases h.own hself
    | ref name => cases h.own hself

end Account

/-- No effect interrupts the run, whatever becomes of the record. -/
def uninterrupted (σ : Type) : Parser.Account (Watched σ) where
  Suits x _ := ∀ record, ∃ record', x record = (.ok (), record')
  idle record := ⟨record, rfl⟩
  andThen hx hy record := by
    obtain ⟨record₁, h₁⟩ := hx record
    obtain ⟨record₂, h₂⟩ := hy record₁
    exact ⟨record₂, (Effect.bind_of_ok h₁).trans h₂⟩

theorem tracks_traced {p : Parser (Watched Trace) Value} {q : Parser Id Value} (r : Recipe)
    (h : (uninterrupted Trace).Tracks p q) : (uninterrupted Trace).Tracks (traced r p) q := by
  intro c
  obtain ⟨e, he, hs⟩ := h c
  cases r with
  | labelled label _ =>
    let mark : Watched Trace Unit := modify (·.push (label, c.offset))
    have hm : (uninterrupted Trace).Suits mark none := fun trace => ⟨_, rfl⟩
    refine ⟨mark >>= fun _ => e, ?_, (uninterrupted Trace).andThen hm hs⟩
    rw [bind_assoc, ← he]
    rfl
  | _ => exact ⟨e, he, hs⟩

theorem transparent_traced (rule : Rule → Parser (Watched Trace) Value)
    (ref : String → Parser (Watched Trace) Value) :
    Transparent (uninterrupted Trace) ⟨traced, rule, ref⟩ (·.isName = false) where
  own h := h
  around _ h := tracks_traced _ h
  reject {d} _ := tracks_traced (reject d) (.reject fun trace => ⟨trace, rfl⟩)
  expecting {d r _ _} _ h := tracks_traced (expecting d r) (h.expecting id)
  rescue {r handler _ _ _ _} _ h hk := tracks_traced (rescue r handler) (h.rescue hk id)

/-- Names, limits and labels have no part in how a recipe without names ends. -/
theorem parserIn_eq_outcome (definitions : String → Option Recipe) (limit : Nat) {r : Recipe}
    (h : r.SelfContained) (c : Cursor) (trace : Trace) :
    ∃ trace', parserIn definitions (limit + 1) r c trace = (.ok (r.outcome c), trace') := by
  obtain ⟨e, he, hs⟩ := (transparent_traced _ _).tracks r h c
  obtain ⟨trace', ht⟩ := hs trace
  refine ⟨trace', ?_⟩
  rw [parserIn, he, Effect.bind_of_ok ht]
  rfl

end Woof.Recipe
