import Woof.Proofs.Consumption
import Woof.Proofs.Program

namespace Woof.Parser

variable {α : Type} {p : Scan α} {c c' : Cursor} {run : List (Cursor × α)}

namespace Passes

theorem unique (h : Passes p c run c') {run₁ : List (Cursor × α)} {c₁ : Cursor}
    (h' : Passes p c run₁ c₁) : run₁ = run ∧ c₁ = c' := by
  induction h generalizing run₁ with
  | stop idle =>
    cases h' with
    | stop => exact ⟨rfl, rfl⟩
    | again head less => exact absurd less (idle _ _ head)
  | again head less _ ih =>
    cases h' with
    | stop idle => exact absurd less (idle _ _ head)
    | again head' _ tail' =>
      obtain ⟨rfl, rfl⟩ := Outcome.success.inj (Except.ok.inj (head.symm.trans head'))
      obtain ⟨rfl, rfl⟩ := ih tail'
      exact ⟨rfl, rfl⟩

/-- Where every success consumes something, the last run is no success. -/
theorem ne_success (h : Passes p c run c') (hp : Consumes p) (v : α) (c₁ : Cursor) :
    p c' ≠ .ok (.success v c₁) :=
  fun hv => h.idle v c₁ hv (hp hv)

end Passes

theorem repeatFrom_of_idle (values : List α) {v : α} (h : p c = .ok (.success v c'))
    (hl : ¬ c'.left < c.left) :
    repeatFrom p values c = .ok (.success (v :: values).reverse c) := by
  rw [repeatFrom, h]
  simp only [Bind.bind, Except.bind, hl, if_false]
  rfl

/-- A repetition is decided by the run that is the last. -/
theorem zeroOrMore_of_passes (h : Passes p c run c') :
    zeroOrMore p c =
      match p c' with
      | .ok .failure => .ok (.success (run.map Prod.snd) c')
      | .ok (.error d) => .ok (.error d)
      | .ok (.success v _) => .ok (.success (run.map Prod.snd ++ [v]) c')
      | .error i => .error i := by
  show repeatFrom p [] c = _
  rw [repeatFrom_of_steps h.steps]
  match hc : p c' with
  | .ok .failure => simp [repeatFrom_of_failure _ hc]
  | .ok (.error d) => exact repeatFrom_of_error _ hc
  | .ok (.success v c₁) => simp [repeatFrom_of_idle _ hc (h.idle v c₁ hc)]
  | .error i => exact repeatFrom_of_interrupt _ hc

theorem oneOrMore_eq_failure_iff (p : Scan α) (c : Cursor) :
    oneOrMore p c = .ok .failure ↔ p c = .ok .failure := by
  obtain ⟨run, c', h⟩ := exists_passes p c
  have hz := zeroOrMore_of_passes h
  constructor
  · intro hf
    match hc : p c' with
    | .ok .failure =>
      rw [hc] at hz
      cases h with
      | stop => exact hc
      | again =>
        rw [oneOrMore, filter_of_success hz rfl] at hf
        cases hf
    | .ok (.success v c₁) =>
      rw [hc] at hz
      rw [oneOrMore, filter_of_success hz (by simp)] at hf
      cases hf
    | .ok (.error d) | .error i =>
      rw [hc] at hz
      rw [oneOrMore, filter, hz] at hf
      cases hf
  · intro hf
    rw [oneOrMore, filter, zeroOrMore_of_steps (.nil c) hf]
    rfl

/-- The same parser, with the places at which it is run on record. -/
def noting (p : Scan α) : Parser (Watched (List Cursor)) α := fun c => do
  modify (· ++ [c])
  Watched.lift (p c)

theorem noting_apply (p : Scan α) (c : Cursor) (places : List Cursor) :
    noting p c places = (p c, places ++ [c]) := rfl

theorem repeatFrom_noting_of_idle
    (idle : ∀ v c₁, p c = .ok (.success v c₁) → ¬ c₁.left < c.left) (values : List α)
    (places : List Cursor) :
    repeatFrom (noting p) values c places = (repeatFrom p values c, places ++ [c]) := by
  have hn := noting_apply p c places
  match hc : p c with
  | .ok .failure =>
    rw [hc] at hn
    rw [repeatFrom, Effect.bind_of_ok hn, repeatFrom_of_failure values hc]
    rfl
  | .ok (.error d) =>
    rw [hc] at hn
    rw [repeatFrom, Effect.bind_of_ok hn, repeatFrom_of_error values hc]
    rfl
  | .ok (.success v c₁) =>
    have hl := idle v c₁ hc
    rw [hc] at hn
    rw [repeatFrom, Effect.bind_of_ok hn, repeatFrom_of_idle values hc hl]
    simp only [hl, if_false]
    rfl
  | .error i =>
    rw [hc] at hn
    rw [repeatFrom, Effect.bind_of_error hn, repeatFrom_of_interrupt values hc]

/-- A repetition runs its parser once at each place of the run and once more behind it. -/
theorem repeatFrom_noting (h : Passes p c run c') (values : List α) (places : List Cursor) :
    repeatFrom (noting p) values c places =
      (repeatFrom p values c, places ++ run.map Prod.fst ++ [c']) := by
  induction h generalizing values places with
  | stop idle => simpa using repeatFrom_noting_of_idle idle values places
  | @again c c₁ _ v _ head less _ ih =>
    have hn := noting_apply p c places
    rw [head] at hn
    rw [repeatFrom, Effect.bind_of_ok hn, repeatFrom_of_success values head less]
    simp only [less, if_true]
    rw [ih (v :: values) (places ++ [c])]
    simp

end Woof.Parser

namespace Woof.Grammar

open Woof.Parser

variable {α : Type} {a : Alphabet} {limit : Nat} {c c' : Cursor}

theorem consumes_piece : Consumes (firstOf [whitespace a, comment]) := by
  apply Consumes.firstOf
  intro p hp
  simp only [List.mem_cons, List.not_mem_nil, or_false] at hp
  rcases hp with rfl | rfl
  · exact (consumes_charIn a.whitespace).oneOrMore
  · exact Consumes.bind (.of_reads (reads_char ';') length_of_headIf) fun _ =>
      (Advances.of_reads reads_inLine).zeroOrMore

/-- The parsers that the grammar repeats, but for the delivery of the forms of a program. -/
inductive Repeated (a : Alphabet) : {α : Type} → Scan α → Prop where
  | blank : Repeated a (charIn a.whitespace)
  | commentCharacter : Repeated a (anythingBut (char '\n'))
  | piece : Repeated a (firstOf [whitespace a, comment])
  | digit : Repeated a (charIn a.digits)
  | nameCharacter : Repeated a (firstOf [charIn a.symbolStarts, charIn a.digits])
  | stringCharacter : Repeated a stringCharacter
  | parameter : Repeated a (symbol a)
  | form (limit : Nat) : Repeated a (form a limit)

theorem Repeated.consumes {p : Scan α} (h : Repeated a p) : Consumes p := by
  cases h with
  | blank => exact consumes_charIn _
  | commentCharacter => exact .of_reads reads_inLine length_of_headIf
  | piece => exact consumes_piece
  | digit => exact consumes_charIn _
  | nameCharacter => exact .of_reads (reads_inName a) length_of_headIf
  | stringCharacter => exact .of_reads reads_stringCharacter length_of_readStringCharacter
  | parameter => exact consumes_symbol
  | form limit => exact consumes_form a limit

variable {σ : Type}

theorem left_lt_of_topLevelForm (receive : Receiver σ) {record record' : σ} {f : Form}
    (h : topLevelForm a limit receive c record = (.ok (.success f c'), record')) :
    c'.left < c.left := by
  by_cases hs : ∃ g c₁, form a limit c = .ok (.success g c₁)
  · obtain ⟨g, c₁, hg⟩ := hs
    rw [topLevelForm_of_success receive record hg] at h
    cases hr : receive g record with
    | error e =>
      rw [hr] at h
      cases (Prod.mk.inj h).1
    | ok r =>
      rw [hr] at h
      obtain ⟨-, rfl⟩ := Outcome.success.inj (Except.ok.inj (Prod.mk.inj h).1)
      exact consumes_form a limit hg
  · rw [topLevelForm_of_ne receive record fun g c₁ hg => hs ⟨g, c₁, hg⟩] at h
    exact consumes_form a limit (Prod.mk.inj h).1

/-- The repetition of a program is that of its forms, each delivered once it is read. -/
theorem zeroOrMore_topLevelForm (receive : Receiver σ) (record : σ) {run : List (Cursor × Form)}
    (h : Passes (form a limit) c run c') :
    zeroOrMore (topLevelForm a limit receive) c record =
      match receive.feed (run.map Prod.snd) record with
      | .ok r => (zeroOrMore (form a limit) c, r)
      | .error (e, r) => (.error (.refused e), r) := by
  have hz := repeatFrom_topLevelForm_of_steps receive h.steps [] record
  cases hf : receive.feed (run.map Prod.snd) record with
  | error stop => rwa [hf] at hz
  | ok r =>
    have hn := h.ne_success (consumes_form a limit)
    rw [hf] at hz
    simp only [repeatFrom_topLevelForm_of_ne receive r _ hn] at hz
    rwa [← repeatFrom_of_steps h.steps] at hz

/-- There is one greedy run of a parser that gives nothing back, and repetition follows it: the
parser is run at its places and no others, and the last of these runs decides. In a grammar each
run that succeeds consumes something, so the last is no success. -/
theorem repetition_greedy :
    (∀ {α : Type} (p : Scan α), (∀ c v c', p c = .ok (.success v c') → c'.left ≤ c.left) →
      ∀ c, ∃ run c',
        (∀ run₁ c₁, Passes p c run₁ c₁ ↔ run₁ = run ∧ c₁ = c') ∧
        (∀ places, zeroOrMore (noting p) c places =
          (zeroOrMore p c, places ++ run.map Prod.fst ++ [c'])) ∧
        (zeroOrMore p c =
          match p c' with
          | .ok .failure => .ok (.success (run.map Prod.snd) c')
          | .ok (.error d) => .ok (.error d)
          | .ok (.success v _) => .ok (.success (run.map Prod.snd ++ [v]) c')
          | .error i => .error i) ∧
        (∀ v c₁, p c' = .ok (.success v c₁) → c₁.left = c'.left) ∧
        zeroOrMore p c ≠ .ok .failure ∧
        (oneOrMore p c = .ok .failure ↔ p c = .ok .failure)) ∧
    ∀ a : Alphabet,
      (∀ {α : Type} (p : Scan α), Repeated a p →
        Consumes p ∧ ∀ c run c', Passes p c run c' → ∀ v c₁, p c' ≠ .ok (.success v c₁)) ∧
      ∀ (limit : Nat) {σ : Type} (receive : Receiver σ) (record : σ) (c : Cursor),
        (∀ f c' record', topLevelForm a limit receive c record = (.ok (.success f c'), record') →
          c'.left < c.left) ∧
        ∀ run c', Passes (form a limit) c run c' →
          zeroOrMore (topLevelForm a limit receive) c record =
            match receive.feed (run.map Prod.snd) record with
            | .ok r => (zeroOrMore (form a limit) c, r)
            | .error (e, r) => (.error (.refused e), r) := by
  refine ⟨?_, fun a => ⟨?_, ?_⟩⟩
  · intro α p hp c
    obtain ⟨run, c', h⟩ := exists_passes p c
    refine ⟨run, c', fun run₁ c₁ => ⟨h.unique, ?_⟩, repeatFrom_noting h [],
      zeroOrMore_of_passes h, ?_, Committed.zeroOrMore p c, oneOrMore_eq_failure_iff p c⟩
    · rintro ⟨rfl, rfl⟩
      exact h
    · intro v c₁ hv
      exact Nat.le_antisymm (hp c' v c₁ hv) (Nat.le_of_not_lt (h.idle v c₁ hv))
  · intro α p hp
    exact ⟨hp.consumes, fun c run c' h => h.ne_success hp.consumes⟩
  · intro limit σ receive record c
    exact ⟨fun f c' record' => left_lt_of_topLevelForm receive,
      fun run c' => zeroOrMore_topLevelForm receive record⟩

/-- A parser that may read nothing keeps the value of its last run. In a grammar with one letter the
run behind the last form fails. -/
theorem repetition_greedy_optional :
    let p := optional (char 'a')
    let c := Cursor.ofText "aab"
    let c₁ : Cursor := ⟨c.tokens, 1, by decide⟩
    let c₂ : Cursor := ⟨c.tokens, 2, by decide⟩
    let u : Token Char := ⟨'a', 1, 1⟩
    let v : Token Char := ⟨'a', 1, 2⟩
    let one : Alphabet := ⟨['a'], [], []⟩
    Passes p c [(c, some u), (c₁, some v)] c₂ ∧
    zeroOrMore (noting p) c [] = (.ok (.success [some u, some v, none] c₂), [c, c₁, c₂]) ∧
    (∀ f c', form one 1 c₂ ≠ .ok (.success f c')) ∧
    zeroOrMore (topLevelForm one 1 Receiver.collect) c #[] =
      (zeroOrMore (form one 1) c, #[.symbol "aa"]) := by
  intro p c c₁ c₂ u v one
  have hp : ∀ c v c', p c = .ok (.success v c') → c'.left ≤ c.left := fun _ _ _ h =>
    ((Advances.of_reads (reads_char 'a')).optional h).left_le
  have hu : p c = .ok (.success (some u) c₁) := by cbv
  have hv : p c₁ = .ok (.success (some v) c₂) := by cbv
  have hl : p c₂ = .ok (.success none c₂) := by cbv
  have hr : Passes p c [(c, some u), (c₁, some v)] c₂ := by
    refine .again hu (by decide) (.again hv (by decide) (.stop ?_))
    intro w c' hw
    obtain ⟨-, rfl⟩ := Outcome.success.inj (Except.ok.inj (hl.symm.trans hw))
    exact Nat.lt_irrefl _
  have hb : form one 1 c₂ = .ok .failure := by cbv
  have hf : Passes (form one 1) c [(c, .symbol "aa")] c₂ := by
    refine .again (by cbv) (by decide) (.stop ?_)
    intro f c' hs
    cases hb.symm.trans hs
  obtain ⟨run, c', ho, hn, hz, -⟩ := repetition_greedy.1 p hp c
  obtain ⟨rfl, rfl⟩ := (ho _ _).mp hr
  rw [hl] at hz
  obtain ⟨hc, hd⟩ := repetition_greedy.2 one
  refine ⟨hr, ?_, (hc _ (.form 1)).2 _ _ _ hf, ((hd 1 Receiver.collect #[] c).2 _ _ hf)⟩
  rw [hn [], hz]
  rfl

end Woof.Grammar
