import Woof.Proofs.Effect
import Woof.Proofs.Evaluation

namespace Woof

namespace Parser

variable {σ α β : Type}

/-- As `Advances`, for a run that keeps a record. -/
def Progresses (p : Parser (Watched σ) α) : Prop :=
  ∀ ⦃c record v c' record'⦄, p c record = (.ok (.success v c'), record') → c.Onward c'

/-- A run that ends here with a success is where it was. -/
theorem onward_of_pure {c c' : Cursor} {v u : α} {record record' : σ}
    (h : (pure (.success v c) : Watched σ (Outcome α)) record = (.ok (.success u c'), record')) :
    c.Onward c' := by
  obtain ⟨-, rfl⟩ := Outcome.success.inj (Except.ok.inj (Prod.mk.inj h).1)
  exact .refl c

namespace Progresses

variable {p : Parser (Watched σ) α} {k : α → Parser (Watched σ) β}

theorem of_advances {p : Scan α} (h : Advances p) :
    Progresses (hoist Watched.lift p : Parser (Watched σ) α) := by
  intro c record v c' record' hp
  exact h (Prod.mk.inj hp).1

theorem of_pure (v : α) : Progresses (pure v : Parser (Watched σ) α) := by
  intro c record u c' record' hp
  exact onward_of_pure hp

theorem effect (x : Watched σ α) : Progresses (Parser.effect x) := by
  intro c record v c' record' hx
  obtain ⟨u, record₁, -, hp⟩ := Effect.exists_ok_of_bind hx
  exact onward_of_pure hp

theorem bind (h : Progresses p) (hk : ∀ v, Progresses (k v)) : Progresses (p >>= k) := by
  intro c record v c' record' hb
  rw [bind_apply] at hb
  obtain ⟨o, record₁, hp, ho⟩ := Effect.exists_ok_of_bind hb
  cases o with
  | success u c₁ => exact (h hp).trans (hk u ho)
  | failure | error d => cases (Prod.mk.inj ho).1

theorem map (h : Progresses p) (f : α → β) : Progresses (f <$> p) := by
  intro c record v c' record' hm
  rw [map_apply] at hm
  obtain ⟨o, record₁, hp, ho⟩ := Effect.exists_ok_of_bind hm
  cases o with
  | success u c₁ =>
    obtain ⟨-, rfl⟩ := Outcome.success.inj (Except.ok.inj (Prod.mk.inj ho).1)
    exact h hp
  | failure | error d => cases (Prod.mk.inj ho).1

theorem repeatFrom (h : Progresses p) (values : List α) (c : Cursor) :
    ∀ {record vs c' record'},
      Parser.repeatFrom p values c record = (.ok (.success vs c'), record') → c.Onward c' := by
  fun_induction Parser.repeatFrom p values c with
  | case1 values c ih =>
    intro record vs c' record' hr
    obtain ⟨o, record₁, hp, ho⟩ := Effect.exists_ok_of_bind hr
    cases o with
    | success v c₁ =>
      by_cases hl : c₁.left < c.left
      · simp only [hl, if_true] at ho
        exact (h hp).trans (ih v c₁ hl ho)
      · simp only [hl, if_false] at ho
        exact onward_of_pure ho
    | failure => exact onward_of_pure ho
    | error d => cases (Prod.mk.inj ho).1

theorem zeroOrMore (h : Progresses p) : Progresses (Parser.zeroOrMore p) :=
  fun c _ _ _ _ hz => h.repeatFrom [] c hz

end Progresses

theorem advances_next : Advances (next : Scan _) := by
  intro c t c' h
  unfold next at h
  cases hn : c.next? with
  | none =>
    rw [hn] at h
    cases h
  | some r =>
    rw [hn] at h
    obtain ⟨rfl, rfl⟩ := Outcome.success.inj (Except.ok.inj h)
    exact .of_next? hn

theorem advances_atEnd : Advances (atEnd : Scan _) := by
  intro c v c' h
  unfold atEnd at h
  split at h
  · obtain ⟨-, rfl⟩ := Outcome.success.inj (Except.ok.inj h)
    exact .refl c
  · cases h

end Parser

namespace Grammar

open Woof.Parser

variable {σ : Type} (a : Alphabet) (limit : Nat) (receive : Receiver σ)

theorem advances_endOfProgram : Advances (endOfProgram a) := by
  apply Advances.lexeme
  apply Advances.firstOf
  intro p hp
  simp only [List.mem_cons, List.not_mem_nil, or_false] at hp
  rcases hp with rfl | rfl
  · exact advances_atEnd
  · exact advances_next.bind fun _ => .reject _

theorem progresses_topLevelForm : Progresses (topLevelForm a limit receive) :=
  (Progresses.of_advances (advances_form a limit)).bind fun _ =>
    (Progresses.effect _).bind fun _ => .of_pure _

theorem progresses_program : Progresses (program a limit receive) :=
  (progresses_topLevelForm a limit receive).zeroOrMore.bind fun _ =>
    (Progresses.of_advances (advances_endOfProgram a)).bind fun _ => .of_pure _

/-- Every parser of the grammar stays in its text and does not go back. -/
theorem progresses_rule (rule : Rule) : Progresses (rule.parser a limit receive) := by
  have silent {p : Scan Value} (h : Advances p) : Progresses (Rule.silent p : Parser (Watched σ) _) :=
    .of_advances h
  have form := advances_form a limit
  cases rule with
  | whitespace => exact silent ((Advances.of_reads (reads_whitespace a)).map _)
  | comment => exact silent ((Advances.of_reads reads_comment).map _)
  | trivia => exact silent ((Advances.of_reads (reads_trivia a)).map _)
  | openCurly | closeCurly | openParen | closeParen => exact silent ((advances_delimiter _).map _)
  | number => exact silent (advances_number.map _)
  | symbol => exact silent ((Advances.of_reads (reads_symbol a)).map _)
  | stringLiteral => exact silent ((Advances.of_reads (reads_stringLiteral a)).map _)
  | keyword word => exact silent ((Advances.of_reads (reads_keyword a word)).map _)
  | parameters opening => exact silent ((advances_parameters opening).map _)
  | symbolForm => exact silent (((Advances.of_reads (reads_symbol a)).map _).map _)
  | numberForm => exact silent ((advances_number.map _).map _)
  | stringForm => exact silent (((Advances.of_reads (reads_stringLiteral a)).map _).map _)
  | application => exact silent ((advances_application form).map _)
  | define => exact silent ((advances_define form).map _)
  | lambda => exact silent ((advances_lambda form).map _)
  | special => exact silent ((advances_special form).map _)
  | form => exact silent (form.map _)
  | topLevelForm => exact (progresses_topLevelForm a limit receive).map _
  | endOfProgram => exact silent ((advances_endOfProgram a).map _)
  | program => exact (progresses_program a limit receive).map _

end Grammar

theorem Cursor.Onward.bounds {c c' : Cursor} (h : c.Onward c') :
    c'.tokens = c.tokens ∧ c.offset ≤ c'.offset ∧ c'.offset ≤ c.tokens.size :=
  ⟨h.tokens, h.offset, h.tokens ▸ c'.offset_le⟩

/-- Every parser that recipes describe comes to exactly one end from every place, without ever
advancing past the last token, and no parser, be it of the grammar or a recipe's, leaves its text or
goes back in it. -/
theorem parsers_bounded :
    (∀ r : Recipe, r.SelfContained → ∀ c : Cursor, ∃ o,
      (∀ o', Recipe.Evaluates r c o' ↔ o' = o) ∧
      (∀ definitions limit trace, ∃ trace',
        Recipe.parserIn definitions (limit + 1) r c trace = (.ok o, trace')) ∧
      ∀ v c', o = .success v c' →
        c'.tokens = c.tokens ∧ c.offset ≤ c'.offset ∧ c'.offset ≤ c.tokens.size) ∧
    ∀ (a : Alphabet) (limit : Nat) (σ : Type) (receive : Receiver σ) (rule : Rule) (c : Cursor)
      (record : σ) (v : Value) (c' : Cursor) (record' : σ),
      rule.parser a limit receive c record = (.ok (.success v c'), record') →
      c'.tokens = c.tokens ∧ c.offset ≤ c'.offset ∧ c'.offset ≤ c.tokens.size := by
  constructor
  · intro r own c
    have hr := own.settles r c
    refine ⟨r.outcome c, fun o => ⟨fun h => h.eq_outcome.symm, fun h => h ▸ hr⟩, ?_, ?_⟩
    · intro definitions limit trace
      exact Recipe.parserIn_eq_outcome definitions limit own c trace
    · intro v c' h
      exact (hr.onwardOf h).bounds
  · intro a limit σ receive rule c record v c' record' h
    exact (Grammar.progresses_rule a limit receive rule h).bounds

/-- A repetition of what consumes nothing ends, and the handler starts where the erring part did. In
another alphabet letters may be blanks. -/
theorem parsers_bounded_rescue :
    let r : Recipe := .rescue
      (.keepSecond (.zeroOrMore (.succeed .absent)) (.reject ⟨.unparsedInput, ⟨"a", 1, 1⟩⟩))
      fun _ => .next
    let c := Cursor.ofText "ab"
    let c₁ : Cursor := ⟨c.tokens, 1, by decide⟩
    let c₂ : Cursor := ⟨c.tokens, 2, by decide⟩
    r.SelfContained ∧
    (∀ o, Recipe.Evaluates r c o ↔ o = .success (.ofToken ⟨'a', 1, 1⟩) c₁) ∧
    (c₁.tokens = c.tokens ∧ c.offset ≤ c₁.offset ∧ c₁.offset ≤ c.tokens.size) ∧
    Rule.whitespace.parser ⟨[], [], ['a', 'b']⟩ 1 Receiver.ignore c () =
      (.ok (.success (Rule.tokens [⟨'a', 1, 1⟩, ⟨'b', 1, 2⟩]) c₂), ()) ∧
    c₂.tokens = c.tokens ∧ c.offset ≤ c₂.offset ∧ c₂.offset ≤ c.tokens.size := by
  intro r c c₁ c₂
  have leaf {q : Recipe} (hq : q.isName = false) (h : ∀ p, ¬ Recipe.Child p q) : q.SelfContained :=
    Recipe.forall_part_iff.mpr ⟨hq, fun p hp => absurd hp (h p)⟩
  have own : r.SelfContained := by
    refine Recipe.forall_part_iff.mpr ⟨rfl, fun p hp => ?_⟩
    change Recipe.Child p (.rescue _ _) at hp
    cases hp with
    | rescueNext d => exact leaf rfl (by rintro _ ⟨⟩)
    | rescueFirst =>
      refine Recipe.forall_part_iff.mpr ⟨rfl, fun p hp => ?_⟩
      cases hp with
      | keepSecond hp =>
        rcases hp with rfl | rfl
        · refine Recipe.forall_part_iff.mpr ⟨rfl, fun p hp => ?_⟩
          cases hp
          exact leaf rfl (by rintro _ ⟨⟩)
        · exact leaf rfl (by rintro _ ⟨⟩)
  have run : Recipe.Evaluates r c (.success (.ofToken ⟨'a', 1, 1⟩) c₁) :=
    .rescueErred (.keepSecond (.bind (.zeroOrMoreIdle .succeed rfl) .reject)) (.next rfl rfl)
  have scan : (Rule.tokens <$> Grammar.whitespace ⟨[], [], ['a', 'b']⟩) c =
      .ok (.success (Rule.tokens [⟨'a', 1, 1⟩, ⟨'b', 1, 2⟩]) c₂) := by cbv
  have blanks : Rule.whitespace.parser ⟨[], [], ['a', 'b']⟩ 1 Receiver.ignore c () =
      (.ok (.success (Rule.tokens [⟨'a', 1, 1⟩, ⟨'b', 1, 2⟩]) c₂), ()) :=
    congrArg (fun x => (x, ())) scan
  obtain ⟨recipes, rules⟩ := parsers_bounded
  obtain ⟨o, ho, -, hb⟩ := recipes r own c
  obtain rfl := (ho _).mp run
  exact ⟨own, ho, hb _ _ rfl, blanks, rules _ _ _ _ _ _ _ _ _ _ blanks⟩

end Woof
