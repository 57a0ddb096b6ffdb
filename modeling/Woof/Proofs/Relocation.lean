import Woof.Grammar.Rule
import Woof.Proofs.Bounds
import Woof.Proofs.Consumption
import Woof.Proofs.Likeness
import Woof.Proofs.Program

namespace Woof

/-- The locations of two tokens, the one as far ahead of the first place as the other is of the
second. -/
inductive Cursor.Abreast (c d : Cursor) : Location → Location → Prop where
  | mk (distance : Nat) {t u : Token Char} (left : c.remaining[distance]? = some t)
      (right : d.remaining[distance]? = some u) : Abreast c d t u

/-- The same value but for its tokens, which are related one by one. Forms hold no tokens. -/
inductive Value.Corresponds (R : Location → Location → Prop) : Value → Value → Prop where
  | absent : Corresponds R .absent .absent
  | int (n : Int) : Corresponds R (.int n) (.int n)
  | text (s : String) : Corresponds R (.text s) (.text s)
  | form (f : Form) : Corresponds R (.ofForm f) (.ofForm f)
  | token {l m : Location} (related : R l m) : Corresponds R (.token l) (.token m)
  | list {vs ws : List Value} (items : List.Forall₂ (Corresponds R) vs ws) :
      Corresponds R (.list vs) (.list ws)

/-- What comes of a run from one place and of a run from another is the same, seen from there:
where a token stands counts from the start of its run. -/
inductive Concur (c d : Cursor) :
    Except Interrupt (Outcome Value) → Except Interrupt (Outcome Value) → Prop where
  | success {v w : Value} {c' d' : Cursor} (value : v.Corresponds (c.Abreast d) w)
      (onward : c.Onward c') (onward' : d.Onward d')
      (consumed : c'.offset - c.offset = d'.offset - d.offset) :
      Concur c d (.ok (.success v c')) (.ok (.success w d'))
  | failure : Concur c d (.ok .failure) (.ok .failure)
  | error (fault : Fault) {l m : Location} (location : c.Abreast d l m) :
      Concur c d (.ok (.error ⟨fault, l⟩)) (.ok (.error ⟨fault, m⟩))
  | interrupt (i : Interrupt) : Concur c d (.error i) (.error i)

/-- A change of the value has no part in the record. -/
theorem Parser.map_watched {σ α β : Type} (f : α → β) (p : Parser (Watched σ) α) (c : Cursor)
    (record : σ) : (f <$> p) c record = ((·.map f) <$> (p c record).1, (p c record).2) := by
  rw [Parser.map_apply]
  match hp : p c record with
  | (.ok o, r) => exact Effect.bind_of_ok hp
  | (.error i, r) => exact Effect.bind_of_error hp

namespace Matching

variable {σ α β γ δ : Type} {M : Matching} {V : α → β → Prop} {W : γ → δ → Prop}

theorem Ends.map {x : Except Interrupt (Outcome α)} {y : Except Interrupt (Outcome β)}
    {f : α → γ} {g : β → δ} (h : M.Ends V x y) (hf : ∀ {v w}, V v w → W (f v) (g w)) :
    M.Ends W ((·.map f) <$> x) ((·.map g) <$> y) := by
  cases h with
  | success value rest => exact .success (hf value) rest
  | failure => exact .failure
  | error diagnostic => exact .error diagnostic
  | interrupt i => exact .interrupt i

/-- As `Parses`, for runs that keep a record: they also leave the same record. -/
def Watches (M : Matching) (V : α → β → Prop) (p : Parser (Watched σ) α)
    (q : Parser (Watched σ) β) : Prop :=
  ∀ ⦃c d⦄, M.Alike c d → ∀ record,
    M.Ends V (p c record).1 (q d record).1 ∧ (p c record).2 = (q d record).2

namespace Watches

theorem of_parses {p : Scan α} {q : Scan β} (h : M.Parses V p q) :
    M.Watches V (Parser.hoist Watched.lift p : Parser (Watched σ) α)
      (Parser.hoist Watched.lift q) :=
  fun _ _ hc _ => ⟨h hc, rfl⟩

theorem map {p : Parser (Watched σ) α} {q : Parser (Watched σ) β} {f : α → γ} {g : β → δ}
    (h : M.Watches V p q) (hf : ∀ {v w}, V v w → W (f v) (g w)) :
    M.Watches W (f <$> p) (g <$> q) := by
  intro c d hc record
  obtain ⟨he, hr⟩ := h hc record
  rw [Parser.map_watched, Parser.map_watched]
  exact ⟨he.map hf, hr⟩

end Watches

section Grammar

open Woof.Grammar

variable (a : Alphabet) (limit : Nat) (receive : Receiver σ)

theorem parses_unwatched : M.Parses Eq (unwatched a limit) (unwatched a limit) := by
  refine (parses_form a limit).zeroOrMore_same.bind fun hf => ?_
  exact (parses_endOfProgram a).bind fun _ => .of_pure hf

theorem watches_topLevelForm :
    M.Watches Eq (topLevelForm a limit receive) (topLevelForm a limit receive) := by
  intro c d hc record
  have hf := parses_form a limit hc
  by_cases hs : ∃ f c', form a limit c = .ok (.success f c')
  · obtain ⟨f, c', hs⟩ := hs
    obtain ⟨_, d', hd, rfl, hr⟩ := (hs ▸ hf).of_success
    rw [topLevelForm_of_success receive record hs, topLevelForm_of_success receive record hd]
    cases receive f record with
    | ok r => exact ⟨.success rfl hr, rfl⟩
    | error e => exact ⟨.interrupt _, rfl⟩
  · have hn : ∀ f c', form a limit c ≠ .ok (.success f c') := fun f c' h => hs ⟨f, c', h⟩
    rw [topLevelForm_of_ne receive record hn, topLevelForm_of_ne receive record (hf.ne_success hn)]
    exact ⟨hf, rfl⟩

/-- The two runs go through the same forms, so that a receiver takes or objects to the same ones. -/
theorem watches_program :
    M.Watches Eq (program a limit receive) (program a limit receive) := by
  intro c d hc record
  obtain ⟨fs, c', hs, hn⟩ := Parser.exists_steps (fun h => consumes_form a limit h) c
  obtain ⟨d', hs', hc'⟩ := exists_steps_of_alike (parses_form a limit) hs hc
  have hn' := (parses_form a limit hc').ne_success hn
  rw [program_of_steps receive record hs hn, program_of_steps receive record hs' hn']
  cases receive.feed fs record with
  | ok r => exact ⟨parses_unwatched a limit hc, rfl⟩
  | error stop => exact ⟨.interrupt _, rfl⟩

section Values

variable {R : Location → Location → Prop} (hR : ∀ {t u}, M.Matches t u → R t u)

include hR

theorem corresponds_tokens {ts us : List (Token Char)} (h : List.Forall₂ M.Matches ts us) :
    (Rule.tokens ts).Corresponds R (Rule.tokens us) := by
  refine .list ?_
  rw [List.forall₂_map_left_iff, List.forall₂_map_right_iff]
  exact h.imp fun _ _ hm => .token (hR hm)

theorem corresponds_pieces {ts us : List (List (Token Char))}
    (h : List.Forall₂ (List.Forall₂ M.Matches) ts us) :
    (Value.list (ts.map Rule.tokens)).Corresponds R (.list (us.map Rule.tokens)) := by
  refine .list ?_
  rw [List.forall₂_map_left_iff, List.forall₂_map_right_iff]
  exact h.imp fun _ _ hp => corresponds_tokens hR hp

omit hR in
theorem corresponds_forms (fs : List Form) :
    (Value.list (fs.map .ofForm)).Corresponds R (.list (fs.map .ofForm)) := by
  refine .list ?_
  rw [List.forall₂_map_left_iff, List.forall₂_map_right_iff, List.forall₂_same]
  exact fun f _ => .form f

/-- Every parser of the grammar but the one that is told a location from outside. -/
theorem watches_rule (rule : Rule) (hr : ∀ opening, rule ≠ .parameters opening) :
    M.Watches (Value.Corresponds R) (rule.parser a limit receive)
      (rule.parser a limit receive) := by
  have silent {p q : Scan Value} (h : M.Parses (Value.Corresponds R) p q) :
      M.Watches (Value.Corresponds R) (Rule.silent p : Parser (Watched σ) _) (Rule.silent q) :=
    .of_parses h
  have token {x : Char} : M.Parses (Value.Corresponds R) (.ofToken <$> delimiter a x)
      (.ofToken <$> delimiter a x) :=
    (parses_delimiter x).map fun h => .token (hR h)
  have text {p : Scan String} (h : M.Parses Eq p p) :
      M.Parses (Value.Corresponds R) (.text <$> p) (.text <$> p) :=
    h.map fun he => he ▸ .text _
  have ofForm {p : Scan Form} (h : M.Parses Eq p p) :
      M.Parses (Value.Corresponds R) (.ofForm <$> p) (.ofForm <$> p) :=
    h.map fun he => he ▸ .form _
  have form := parses_form (M := M) a limit
  cases rule with
  | whitespace => exact silent (parses_whitespace.map fun h => corresponds_tokens hR h)
  | comment => exact silent (parses_comment.map fun h => corresponds_tokens hR h)
  | trivia => exact silent (parses_trivia.map fun h => corresponds_pieces hR h)
  | openCurly | closeCurly | openParen | closeParen => exact silent token
  | number => exact silent (parses_number.map fun h => h ▸ .int _)
  | symbol => exact silent (text parses_symbol)
  | stringLiteral => exact silent (text parses_stringLiteral)
  | keyword word => exact silent (text (parses_keyword word))
  | parameters opening => exact absurd rfl (hr opening)
  | symbolForm => exact silent (ofForm (parses_symbol.map fun h => h ▸ rfl))
  | numberForm => exact silent (ofForm (parses_number.map fun h => h ▸ rfl))
  | stringForm => exact silent (ofForm (parses_stringLiteral.map fun h => h ▸ rfl))
  | application => exact silent (ofForm (parses_application form))
  | define => exact silent (ofForm (parses_define form))
  | lambda => exact silent (ofForm (parses_lambda form))
  | special => exact silent (ofForm (parses_special form))
  | form => exact silent (ofForm form)
  | topLevelForm => exact (watches_topLevelForm a limit receive).map fun h => h ▸ .form _
  | endOfProgram => exact silent ((parses_endOfProgram a).map fun _ => .absent)
  | program => exact (watches_program a limit receive).map fun h => h ▸ corresponds_forms _

end Values

end Grammar

/-- The tokens at the same distance from two places, where the same characters remain. -/
def abreast {c d : Cursor} (h : c.text = d.text) : Matching where
  Matches t u := ∃ i : Nat, c.remaining[i]? = some t ∧ d.remaining[i]? = some u
  symbol_eq := by
    rintro t u ⟨i, ht, hu⟩
    have hi := congrArg (·[i]?) h
    simpa [Cursor.text, ht, hu] using hi

theorem alike_abreast {c d : Cursor} (h : c.text = d.text) : (abreast h).Alike c d := by
  have hl := congrArg List.length h
  rw [Cursor.text, Cursor.text, List.length_map, List.length_map] at hl
  exact List.forall₂_iff_get.mpr ⟨hl, fun i hc hd => ⟨i, by simp, by simp⟩⟩

end Matching

/-- Places that are alike before and after have as many tokens between them. -/
theorem Cursor.Onward.consumed_eq {c c' d d' : Cursor} (hc : c.Onward c') (hd : d.Onward d')
    (h : c.left = d.left) (h' : c'.left = d'.left) :
    c'.offset - c.offset = d'.offset - d.offset := by
  have hcs := c'.offset_le
  have hds := d'.offset_le
  have hco := hc.offset
  have hdo := hd.offset
  rw [left, left] at h h'
  rw [hc.tokens] at h' hcs
  rw [hd.tokens] at h' hds
  omega

open Matching in
/-- What is read of a text, and what is wrong with it, depends on its characters only: not on
where it stands, nor on what is before it. -/
theorem concur_of_text_eq {σ : Type} (a : Alphabet) (limit : Nat) (receive : Receiver σ)
    (record : σ) (rule : Rule) (hr : ∀ opening, rule ≠ .parameters opening) {c d : Cursor}
    (h : c.text = d.text) :
    Concur c d (rule.parser a limit receive c record).1 (rule.parser a limit receive d record).1 ∧
    (rule.parser a limit receive c record).2 = (rule.parser a limit receive d record).2 := by
  have ha := alike_abreast h
  have hR : ∀ {t u}, (abreast h).Matches t u → c.Abreast d t u := by
    rintro t u ⟨i, ht, hu⟩
    exact .mk i ht hu
  obtain ⟨he, hs⟩ := watches_rule a limit receive hR rule hr ha record
  refine ⟨?_, hs⟩
  have hp := Grammar.progresses_rule a limit receive rule
  match hx : rule.parser a limit receive c record, hy : rule.parser a limit receive d record with
  | (x, r), (y, r') =>
    rw [hx, hy] at he
    cases he with
    | success value rest =>
      have hc := hp hx
      have hd := hp hy
      exact .success value hc hd (hc.consumed_eq hd ha.left_eq rest.left_eq)
    | failure => exact .failure
    | error diagnostic =>
      obtain ⟨fault, token⟩ := diagnostic
      exact .error fault (hR token)
    | interrupt i => exact .interrupt i

theorem concur_of_text_eq_unclosed :
    let c : Cursor := .ofText "(a"
    let d : Cursor := ⟨(Cursor.ofText "x\n(a").tokens, 2, by decide⟩
    c.text = d.text ∧
    (Rule.form.parser .woof 2 Receiver.ignore c ()).1 =
      .ok (.error ⟨.applicationMissingClose, ⟨"(", 1, 1⟩⟩) ∧
    (Rule.form.parser .woof 2 Receiver.ignore d ()).1 =
      .ok (.error ⟨.applicationMissingClose, ⟨"(", 2, 1⟩⟩) ∧
    Concur c d (Rule.form.parser .woof 2 Receiver.ignore c ()).1
      (Rule.form.parser .woof 2 Receiver.ignore d ()).1 := by
  intro c d
  have h : c.text = d.text := by decide
  exact ⟨h, by cbv, by cbv,
    (concur_of_text_eq .woof 2 Receiver.ignore () .form (by simp) h).1⟩

end Woof
