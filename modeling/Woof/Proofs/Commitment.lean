import Woof.Proofs.Consumption
import Woof.Proofs.Program

namespace Woof.Parser

variable {α β : Type} {p : Scan α} {k : α → Scan β} {c : Cursor}

/-- A choice fails only where there is nothing left to try. -/
theorem firstOf_eq_failure_iff {ps : List (Scan α)} :
    firstOf ps c = .ok .failure ↔ ∀ p ∈ ps, p c = .ok .failure := by
  induction ps with
  | nil => simp [firstOf_nil]
  | cons p ps ih =>
    rw [List.forall_mem_cons]
    by_cases h : p c = .ok .failure
    · rw [firstOf_cons_of_failure h, ih]
      simp [h]
    · rw [firstOf_cons_of_ne h]
      simp [h]

theorem map_eq_failure_iff (f : α → β) : (f <$> p) c = .ok .failure ↔ p c = .ok .failure := by
  rw [map_apply]
  match hp : p c with
  | .ok (.success _ _) | .ok (.error _) | .error _ =>
    simp [Bind.bind, Except.bind, pure, Except.pure]
  | .ok .failure => simp [Bind.bind, Except.bind, pure, Except.pure]

/-- Once its first part has succeeded, a sequence that is committed from there on cannot fail. -/
theorem bind_eq_failure_iff (hk : ∀ v, Committed (k v)) :
    (p >>= k) c = .ok .failure ↔ p c = .ok .failure := by
  constructor
  · intro h
    match hp : p c with
    | .ok (.success v c') =>
      rw [bind_of_success hp] at h
      exact absurd h (hk v c')
    | .ok .failure => rfl
    | .ok (.error d) =>
      rw [bind_of_error hp] at h
      cases h
    | .error i =>
      rw [bind_of_interrupt hp] at h
      cases h
  · exact bind_of_failure

theorem Reads.eq_failure_iff {f : List (Token Char) → Reading α} (h : Reads p f) :
    p c = .ok .failure ↔ f c.remaining = none := by
  constructor
  · intro hp
    cases hf : f c.remaining with
    | none => rfl
    | some r =>
      rw [h.of_some hf] at hp
      cases hp
  · exact h.of_none

theorem Committed.effect (x : Except Interrupt α) : Committed (Parser.effect x) := by
  intro c h
  cases x <;> cases h

end Woof.Parser

namespace Woof.Grammar

open Woof.Parser Woof.Syntax

variable {a : Alphabet} {inner : Scan Form} {limit : Nat} {c : Cursor}

/-- The word is the whole symbol at the front of the text: what comes next does not go on with
it. -/
def LeadsWith (a : Alphabet) (word : String) : List Char → Prop
  | [] => False
  | x :: s =>
    x ∈ a.symbolStarts ∧
      word.toList = x :: s.takeWhile fun y => y ∈ a.symbolStarts ∨ y ∈ a.digits

/-- An open curly is next and behind it, after trivia, the word as a whole symbol. -/
def OpensWith (a : Alphabet) (word : String) (c : Cursor) : Prop :=
  ∃ t c₁ pieces c₂, c.next? = some (t, c₁) ∧ t.symbol = '\x7b' ∧
    trivia a c₁ = .ok (.success pieces c₂) ∧ LeadsWith a word c₂.text

/-- No form begins with the text, which begins with no trivia: it is empty, or begins with a
character of no use there, or with a quote that no other quote closes. -/
inductive Barren (a : Alphabet) : List Char → Prop where
  | nil : Barren a []
  | other {x : Char} {s : List Char} (notStart : x ∉ a.symbolStarts) (notDigit : x ∉ a.digits)
      (notMark : x ∉ ['(', '\x7b', '\x22']) : Barren a (x :: s)
  | quote {s : List Char} (notStart : '\x22' ∉ a.symbolStarts) (notDigit : '\x22' ∉ a.digits)
      (incomplete : ∀ value rest, ¬ Str value ('\x22' :: s) rest) : Barren a ('\x22' :: s)

theorem readSymbol_iff_leadsWith {word : String} {ts : List (Token Char)} :
    (∃ rest, readSymbol a ts = some (word, rest)) ↔ LeadsWith a word (symbols ts) := by
  cases ts with
  | nil => simp [readSymbol, LeadsWith]
  | cons t ts =>
    have hf : inName a = (fun y => decide (y ∈ a.symbolStarts ∨ y ∈ a.digits)) ∘ Token.symbol := by
      funext u
      simp [inName, among]
    have hn : symbols (ts.takeWhile (inName a)) =
        (symbols ts).takeWhile fun y => y ∈ a.symbolStarts ∨ y ∈ a.digits := by
      rw [symbols, symbols, List.takeWhile_map, hf]
    have hw : spell (t :: ts.takeWhile (inName a)) = word ↔
        word.toList =
          t.symbol :: (symbols ts).takeWhile fun y => y ∈ a.symbolStarts ∨ y ∈ a.digits := by
      rw [spell, ← String.toList_inj, String.toList_ofList, ← hn]
      exact eq_comm
    by_cases hs : t.symbol ∈ a.symbolStarts
    · have hr : (∃ rest, readSymbol a (t :: ts) = some (word, rest)) ↔
          spell (t :: ts.takeWhile (inName a)) = word := by
        simp [readSymbol, among, hs]
      rw [hr, hw]
      exact ⟨fun h => ⟨hs, h⟩, fun h => h.2⟩
    · simp [readSymbol_of_not_start hs, LeadsWith, hs]

theorem remaining_of_trivia {pieces : List (List (Token Char))} {c' : Cursor}
    (h : trivia a c = .ok (.success pieces c')) : c'.remaining = skip a c.remaining := by
  obtain ⟨hr, -, -⟩ := (reads_trivia a).of_success h
  exact (Prod.mk.inj (Option.some.inj hr)).2.symm

theorem opensWith_iff {word : String} :
    OpensWith a word c ↔ ∃ t ts rest, c.remaining = t :: ts ∧ t.symbol = '\x7b' ∧
      readSymbol a (skip a ts) = some (word, rest) := by
  constructor
  · rintro ⟨t, c₁, pieces, c₂, hn, ht, htr, hl⟩
    rw [Cursor.text, remaining_of_trivia htr] at hl
    obtain ⟨rest, hr⟩ := readSymbol_iff_leadsWith.mpr hl
    exact ⟨t, c₁.remaining, rest, Cursor.remaining_of_next? hn, ht, hr⟩
  · rintro ⟨t, ts, rest, hc, ht, hr⟩
    have hs : ts <:+ c.remaining := hc ▸ List.suffix_cons t ts
    have htr := (reads_trivia a).of_some (c := c.seek ts) rfl
    refine ⟨t, c.seek ts, _, _, Cursor.next?_of_remaining_cons hc, ht, htr, ?_⟩
    rw [Cursor.text, remaining_of_trivia htr, Cursor.remaining_seek hs]
    exact readSymbol_iff_leadsWith.mp ⟨rest, hr⟩

section Failing

theorem delimiter_eq_failure_iff {x : Char} :
    delimiter a x c = .ok .failure ↔ ahead a c ≠ some x := by
  constructor
  · intro h hx
    obtain ⟨t, ht, rfl⟩ := Option.map_eq_some_iff.mp hx
    obtain ⟨ts, hs⟩ := List.head?_eq_some_iff.mp ht
    rw [delimiter_of_skip hs rfl] at h
    cases h
  · exact delimiter_of_ne

theorem application_eq_failure_iff :
    application a inner c = .ok .failure ↔ ahead a c ≠ some '(' :=
  (bind_eq_failure_iff (committed_afterParen a inner)).trans delimiter_eq_failure_iff

/-- The word behind a curly is the last thing that a construct can fail on. -/
theorem word_eq_failure_iff {word : String} {k : Token Char → Scan Form}
    (hk : ∀ opening, Committed (k opening)) :
    (openCurly a >>= fun opening => keyword a word >>= fun _ => k opening) c = .ok .failure ↔
      ¬ OpensWith a word (c.seek (skip a c.remaining)) := by
  have hr := Cursor.remaining_seek (skip_suffix a c.remaining)
  rw [opensWith_iff, hr]
  cases hs : skip a c.remaining with
  | nil =>
    have ho : openCurly a c = .ok .failure := delimiter_of_ne (by simp [ahead, hs])
    simp [bind_of_failure ho]
  | cons t ts =>
    by_cases ht : t.symbol = '\x7b'
    · have ho : openCurly a c = .ok (.success t (c.seek ts)) := delimiter_of_skip hs ht
      have hts : ts <:+ c.remaining := (List.suffix_cons t ts).trans (hs ▸ skip_suffix a _)
      rw [bind_of_success ho, bind_eq_failure_iff fun _ => hk t]
      constructor
      · rintro hf ⟨u, us, rest, he, -, hw⟩
        obtain ⟨rfl, rfl⟩ := List.cons.inj he
        have hn := (reads_keyword a word).eq_failure_iff.mp hf
        rw [Cursor.remaining_seek hts, hw] at hn
        simp [Option.filter] at hn
      · intro h
        exact keyword_of_other (fun rest hw => h ⟨t, ts, rest, rfl, ht, hw⟩) hts
    · have ho : openCurly a c = .ok .failure :=
        delimiter_of_ne (by simpa [ahead, hs] using ht)
      rw [bind_of_failure ho]
      simp only [true_iff]
      rintro ⟨u, us, rest, he, hu, -⟩
      obtain ⟨rfl, -⟩ := List.cons.inj he
      exact ht hu

theorem special_eq_failure_iff : special a inner c = .ok .failure ↔ ahead a c ≠ some '\x7b' := by
  constructor
  · intro h
    have hu := firstOf_eq_failure_iff.mp h (openCurly a >>= fun opening =>
      reject ⟨.specialUnparseable, opening⟩) (by simp)
    exact delimiter_eq_failure_iff.mp
      ((bind_eq_failure_iff fun _ => Committed.reject _).mp hu)
  · exact special_of_ahead

theorem symbolForm_eq_failure_iff :
    symbolForm a c = .ok .failure ↔ ∀ x ∈ ahead a c, x ∉ a.symbolStarts := by
  constructor
  · intro h x hx hm
    have hr := (reads_symbol a).eq_failure_iff.mp ((map_eq_failure_iff _).mp h)
    obtain ⟨t, ht, rfl⟩ := Option.map_eq_some_iff.mp hx
    obtain ⟨ts, hs⟩ := List.head?_eq_some_iff.mp ht
    simp [hs, readSymbol, among, hm] at hr
  · exact symbolForm_of_ahead

theorem numberForm_eq_failure_iff :
    numberForm a c = .ok .failure ↔ ∀ x ∈ ahead a c, x ∉ a.digits := by
  have hc (ds : List (Token Char)) : Committed (numeral (spell ds)) := .effect _
  have hs := Cursor.remaining_seek (skip_suffix a c.remaining)
  rw [numberForm, map_eq_failure_iff, number, lexeme_apply, bind_eq_failure_iff hc,
    (reads_digits a).eq_failure_iff, hs, readMany_headIf, ahead]
  cases hr : skip a c.remaining with
  | nil => simp [Option.filter]
  | cons t ts => cases hd : among a.digits t <;> simp_all [Option.filter, among]

theorem stringForm_eq_failure_iff :
    stringForm a c = .ok .failure ↔
      ∀ value rest, ¬ Str value (symbols (skip a c.remaining)) rest := by
  rw [stringForm, map_eq_failure_iff, (reads_stringLiteral a).eq_failure_iff]
  constructor
  · intro h value rest hv
    obtain ⟨rest, hr, -⟩ := readString_of_str hv
    rw [h] at hr
    cases hr
  · intro h
    cases hr : readString (skip a c.remaining) with
    | none => rfl
    | some r => exact absurd (str_of_readString hr) (h r.1 _)

theorem barren_iff {s : List Char} :
    Barren a s ↔ (∀ x ∈ s.head?, x ∉ a.symbolStarts ∧ x ∉ a.digits ∧ x ≠ '(' ∧ x ≠ '\x7b') ∧
      ∀ value rest, ¬ Str value s rest := by
  constructor
  · intro h
    cases h with
    | nil => simp [Str]
    | other notStart notDigit notMark =>
      simp only [List.mem_cons, List.not_mem_nil, or_false, not_or] at notMark
      refine ⟨by simp [notStart, notDigit, notMark], ?_⟩
      rintro value rest ⟨body, he, -⟩
      exact notMark.2.2 (List.cons.inj he).1
    | quote notStart notDigit incomplete => exact ⟨by simp [notStart, notDigit], incomplete⟩
  · rintro ⟨hx, hs⟩
    cases s with
    | nil => exact .nil
    | cons x s =>
      obtain ⟨hst, hd, hp, hb⟩ := hx x rfl
      by_cases hq : x = '\x22'
      · subst hq
        exact .quote hst hd hs
      · exact .other hst hd (by simp [hp, hb, hq])

/-- A form can be read or is faulty, unless none begins there. -/
theorem form_eq_failure_iff :
    form a limit c = .ok .failure ↔ 0 < limit ∧ Barren a (symbols (skip a c.remaining)) := by
  cases limit with
  | zero => simp [form, effect, Bind.bind, Except.bind]
  | succ limit =>
    have ha : ahead a c = (symbols (skip a c.remaining)).head? := by
      rw [ahead, symbols, List.head?_map]
    rw [form_succ, firstOf_eq_failure_iff, barren_iff, ← ha]
    simp only [List.forall_mem_cons, List.not_mem_nil, false_implies, implies_true, and_true,
      symbolForm_eq_failure_iff, numberForm_eq_failure_iff, stringForm_eq_failure_iff,
      application_eq_failure_iff, special_eq_failure_iff, Nat.succ_pos, true_and]
    cases ahead a c with
    | none => simp
    | some x => grind

end Failing

theorem committed_endOfProgram (a : Alphabet) : Committed (endOfProgram a) := by
  intro c h
  cases hs : skip a c.remaining with
  | nil =>
    rw [endOfProgram_of_nil hs] at h
    cases h
  | cons t ts =>
    rw [endOfProgram_of_cons hs] at h
    cases h

theorem committed_unwatched (a : Alphabet) (limit : Nat) : Committed (unwatched a limit) :=
  (Committed.zeroOrMore _).bind fun _ => (committed_endOfProgram a).bind fun _ => .of_pure _

/-- A program is read or is faulty, or the run is interrupted. -/
theorem program_ne_failure {σ : Type} (a : Alphabet) (limit : Nat) (receive : Receiver σ)
    (c : Cursor) (record : σ) : (program a limit receive c record).1 ≠ .ok .failure := by
  obtain ⟨fs, c', hs, hn⟩ := exists_steps (fun h => consumes_form a limit h) c
  rw [program_of_steps receive record hs hn]
  cases receive.feed fs record with
  | ok r => exact committed_unwatched a limit c
  | error r => simp

end Woof.Grammar

namespace Woof

open Woof.Grammar

theorem ofInterrupt_ne_unmatched (start : Cursor) (i : Interrupt) :
    ParseError.ofInterrupt start i ≠ .unmatched := by
  unfold ParseError.ofInterrupt
  split <;> simp

theorem ofRun_ne_unmatched {run : Except Interrupt (Outcome (List Form))}
    (h : run ≠ .ok .failure) (start : Cursor) : ParseError.ofRun start run ≠ .error .unmatched := by
  cases run with
  | ok outcome =>
    cases outcome with
    | success fs c | error d => simp [ParseError.ofRun]
    | failure => exact absurd rfl h
  | error i => simpa [ParseError.ofRun] using ofInterrupt_ne_unmatched start i

theorem parseWithin_ne_unmatched {σ : Type} (limit : Nat) (receive : Receiver σ) (record : σ)
    (text : String) : (parseWithin limit receive record text).1 ≠ .error .unmatched :=
  ofRun_ne_unmatched (program_ne_failure .woof limit receive (.ofText text) record) _

/-- Where the parsers of the grammar fail, whatever the classes of characters: only before they
have seen what decides on the construct. What is wrong behind that point is an error, so that a
program never fails. -/
theorem failure_iff (a : Alphabet) (limit : Nat) (c : Cursor) :
    ∃ pieces c', trivia a c = .ok (.success pieces c') ∧
      (application a (form a limit) c = .ok .failure ↔ c'.text.head? ≠ some '(') ∧
      (define a (form a limit) c = .ok .failure ↔ ¬ OpensWith a "define" c') ∧
      (lambda a (form a limit) c = .ok .failure ↔ ¬ OpensWith a "lambda" c') ∧
      (special a (form a limit) c = .ok .failure ↔ c'.text.head? ≠ some '\x7b') ∧
      (form a limit c = .ok .failure ↔ 0 < limit ∧ Barren a c'.text) ∧
      endOfProgram a c ≠ .ok .failure ∧
      ∀ {σ : Type} (receive : Receiver σ) (record : σ),
        (program a limit receive c record).1 ≠ .ok .failure ∧
        ∀ text, (parseWithin limit receive record text).1 ≠ .error .unmatched := by
  have ht := (reads_trivia a).of_some (c := c) rfl
  have hx : (c.seek (skip a c.remaining)).text = symbols (skip a c.remaining) := by
    rw [Cursor.text, remaining_of_trivia ht]
  have ha : (c.seek (skip a c.remaining)).text.head? = ahead a c := by
    rw [hx, ahead, symbols, List.head?_map]
  refine ⟨_, _, ht, ?_, ?_, ?_, ?_, ?_, committed_endOfProgram a c, ?_⟩
  · rw [ha]
    exact application_eq_failure_iff
  · exact word_eq_failure_iff (committed_afterDefine a (form a limit))
  · exact word_eq_failure_iff (committed_afterLambda a (form a limit))
  · rw [ha]
    exact special_eq_failure_iff
  · rw [hx]
    exact form_eq_failure_iff
  · intro σ receive record
    exact ⟨program_ne_failure a limit receive c record,
      parseWithin_ne_unmatched limit receive record⟩

end Woof
