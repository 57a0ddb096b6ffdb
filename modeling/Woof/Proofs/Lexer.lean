import Woof.Proofs.Form

namespace Woof.Lexer

open Woof.Parser Woof.Grammar

inductive Kind where
  | openParen
  | closeParen
  | openCurly
  | closeCurly
  | symbol (name : String)
  | number (value : Int)
  | string (value : String)
  /-- A character that no lexeme starts with, or a quote with no string behind it. -/
  | bad
deriving DecidableEq, Repr

/-- A piece of a text and the token it starts with. -/
structure Lexeme where
  kind : Kind
  start : Token Char
deriving DecidableEq, Repr

def delimiter? : Char → Option Kind
  | '(' => some .openParen
  | ')' => some .closeParen
  | '\x7b' => some .openCurly
  | '\x7d' => some .closeCurly
  | _ => none

/-- The longest lexeme that starts at a token, and the tokens after it. -/
def scan (t : Token Char) (ts : List (Token Char)) : Kind × List (Token Char) :=
  match delimiter? t.symbol with
  | some kind => (kind, ts)
  | none =>
    match readSymbol .woof (t :: ts) with
    | some (name, rest) => (.symbol name, rest)
    | none =>
      match readNumber (t :: ts) with
      | some (value, rest) => (.number value, rest)
      | none =>
        match readString (t :: ts) with
        | some (value, rest) => (.string value, rest)
        | none => (.bad, ts)

/-- The ways in which a lexeme is found, each with what it says about the token it starts with. -/
inductive Scans (t : Token Char) (ts : List (Token Char)) : Kind → List (Token Char) → Prop where
  | delimiter {kind : Kind} (first : delimiter? t.symbol = some kind) : Scans t ts kind ts
  | symbol {name : String} {rest : List (Token Char)} (first : t.symbol ∈ Alphabet.woof.symbolStarts)
      (read : readSymbol .woof (t :: ts) = some (name, rest)) : Scans t ts (.symbol name) rest
  | number {value : Int} {rest : List (Token Char)} (first : t.symbol ∈ Alphabet.woof.digits)
      (read : readNumber (t :: ts) = some (value, rest)) : Scans t ts (.number value) rest
  | string {value : String} {rest : List (Token Char)} (first : t.symbol = '\x22')
      (read : readString (t :: ts) = some (value, rest)) : Scans t ts (.string value) rest
  | unfinished (first : t.symbol = '\x22') (read : readString (t :: ts) = none) : Scans t ts .bad ts
  | other (delimiter : delimiter? t.symbol = none)
      (start : t.symbol ∉ Alphabet.woof.symbolStarts) (digit : t.symbol ∉ Alphabet.woof.digits)
      (quote : t.symbol ≠ '\x22') : Scans t ts .bad ts

variable {t : Token Char} {ts rest : List (Token Char)} {kind : Kind}

theorem scans (t : Token Char) (ts : List (Token Char)) :
    Scans t ts (scan t ts).1 (scan t ts).2 := by
  rw [scan]
  cases hd : delimiter? t.symbol with
  | some kind => exact .delimiter hd
  | none =>
    by_cases hs : t.symbol ∈ Alphabet.woof.symbolStarts
    · cases hr : readSymbol .woof (t :: ts) with
      | none => simp [readSymbol, among, hs] at hr
      | some r => exact .symbol hs hr
    · rw [readSymbol_of_not_start hs]
      by_cases hn : t.symbol ∈ Alphabet.woof.digits
      · have ht : among Alphabet.woof.digits t = true := by simpa [among] using hn
        cases hr : readNumber (t :: ts) with
        | none => simp [readNumber, List.takeWhile_cons_of_pos ht] at hr
        | some r => exact .number hn hr
      · rw [readNumber_of_not_digit hn]
        by_cases hq : t.symbol = '\x22'
        · cases hr : readString (t :: ts) with
          | none => exact .unfinished hq hr
          | some r => exact .string hq hr
        · rw [readString_of_not_quote hq]
          exact .other hd hs hn hq

theorem readSymbol_suffix {name : String} (h : readSymbol .woof (t :: ts) = some (name, rest)) :
    rest <:+ ts := by
  by_cases hs : t.symbol ∈ Alphabet.woof.symbolStarts
  · have hr : readSymbol .woof (t :: ts) =
        some (spell (t :: ts.takeWhile (inName .woof)), ts.dropWhile (inName .woof)) := by
      simp [readSymbol, among, hs]
    obtain ⟨-, rfl⟩ := Prod.mk.inj (Option.some.inj (hr.symm.trans h))
    exact List.dropWhile_suffix _
  · rw [readSymbol_of_not_start hs] at h
    cases h

theorem readNumber_suffix {value : Int} (hd : t.symbol ∈ Alphabet.woof.digits)
    (h : readNumber (t :: ts) = some (value, rest)) : rest <:+ ts := by
  have ht : among Alphabet.woof.digits t = true := by simpa [among] using hd
  simp only [readNumber, List.takeWhile_cons_of_pos ht, List.dropWhile_cons_of_pos ht] at h
  obtain ⟨-, rfl⟩ := Prod.mk.inj (Option.some.inj h)
  exact List.dropWhile_suffix _

theorem readString_suffix {value : String} (h : readString (t :: ts) = some (value, rest)) :
    rest <:+ ts := by
  obtain ⟨⟨q, us⟩, hq, hr⟩ := Option.bind_eq_some_iff.mp h
  obtain ⟨⟨q', us'⟩, hq', he⟩ := Option.map_eq_some_iff.mp hr
  obtain ⟨-, rfl⟩ := Prod.mk.inj he
  obtain rfl : ts = us := by
    simp only [headIf] at hq
    split at hq
    · exact (Prod.mk.inj (Option.some.inj hq)).2
    · cases hq
  have hm := readMany_suffix reads_stringCharacter.suffix ts
  have hs := (Reads.satisfying (·.symbol == '\x22')).suffix hq'
  exact hs.trans hm

theorem Scans.suffix (h : Scans t ts kind rest) : rest <:+ ts := by
  cases h with
  | delimiter | unfinished | other => exact List.suffix_rfl
  | symbol _ read => exact readSymbol_suffix read
  | number first read => exact readNumber_suffix first read
  | string _ read => exact readString_suffix read

/-- The lexemes of a text, from left to right, with trivia dropped. -/
def lexemes (ts : List (Token Char)) : List Lexeme :=
  match _hs : skip .woof ts with
  | [] => []
  | t :: us => ⟨(scan t us).1, t⟩ :: lexemes (scan t us).2
termination_by ts.length
decreasing_by
  have h₁ := (scans t us).suffix.length_le
  have h₂ := (skip_suffix .woof ts).length_le
  rw [_hs, List.length_cons] at h₂
  omega

theorem lexemes_of_nil (h : skip .woof ts = []) : lexemes ts = [] := by
  rw [lexemes]
  split
  · rfl
  · rename_i hs
    rw [h] at hs
    cases hs

theorem lexemes_of_cons {us : List (Token Char)} (h : skip .woof ts = t :: us) :
    lexemes ts = ⟨(scan t us).1, t⟩ :: lexemes (scan t us).2 := by
  rw [lexemes]
  split
  · rename_i hs
    rw [h] at hs
    cases hs
  · rename_i hs
    rw [h] at hs
    obtain ⟨rfl, rfl⟩ := List.cons.inj hs
    rfl

theorem skip_of_lexemes_nil (h : lexemes ts = []) : skip .woof ts = [] := by
  cases hs : skip .woof ts with
  | nil => rfl
  | cons t us =>
    rw [lexemes_of_cons hs] at h
    cases h

/-- The first lexeme of a text and the text after it. -/
theorem exists_scans {l : Lexeme} {ls : List Lexeme} (h : lexemes ts = l :: ls) :
    ∃ us rest, skip .woof ts = l.start :: us ∧ Scans l.start us l.kind rest ∧ lexemes rest = ls := by
  cases hs : skip .woof ts with
  | nil =>
    rw [lexemes_of_nil hs] at h
    cases h
  | cons t us =>
    rw [lexemes_of_cons hs] at h
    obtain ⟨rfl, rfl⟩ := List.cons.inj h
    exact ⟨us, _, rfl, scans t us, rfl⟩

theorem delimiter?_mem {x : Char} (h : delimiter? x = some kind) :
    x ∈ Alphabet.delimiters ∧ kind ∈ [.openParen, .closeParen, .openCurly, .closeCurly] := by
  unfold delimiter? at h
  split at h <;> simp_all [Alphabet.delimiters]

theorem delimiter?_inj {x y : Char} (hx : delimiter? x = some kind) (hy : delimiter? y = some kind) :
    x = y := by
  have hmx := (delimiter?_mem hx).1
  have hmy := (delimiter?_mem hy).1
  rw [← hy] at hx
  simp only [Alphabet.delimiters, List.mem_cons, List.not_mem_nil, or_false] at hmx hmy
  rcases hmx with rfl | rfl | rfl | rfl <;> rcases hmy with rfl | rfl | rfl | rfl <;>
    first
    | rfl
    | exact absurd hx (by decide)

/-- A delimiter is in no class of characters and starts no string. -/
theorem not_in_class_of_delimiter {x : Char} (h : delimiter? x = some kind) :
    x ∉ Alphabet.woof.symbolStarts ∧ x ∉ Alphabet.woof.digits ∧ x ≠ '\x22' := by
  obtain ⟨hm, -, hq⟩ := Alphabet.mark_of_delimiter (delimiter?_mem h).1
  exact ⟨(Alphabet.not_mem_of_mark hm).1, (Alphabet.not_mem_of_mark hm).2, hq⟩

theorem not_mem_of_quote {x : Char} (h : x = '\x22') :
    x ∉ Alphabet.woof.symbolStarts ∧ x ∉ Alphabet.woof.digits := by
  subst h
  exact Alphabet.not_mem_of_mark (by decide)

section Reading

variable {α : Type} {p : Scan α} {f : List (Token Char) → Reading α} {c : Cursor} {l : Lexeme}
  {ls : List Lexeme} {us : List (Token Char)}

/-- Where a parser of lexemes ends, the lexemes after the first are left. -/
theorem exists_of_read (hp : Reads p fun ts => f (skip .woof ts)) {v : α}
    (hs : skip .woof c.remaining = t :: us) (hf : f (t :: us) = some (v, rest)) :
    ∃ c', p c = .ok (.success v c') ∧ c'.remaining = rest := by
  rw [← hs] at hf
  exact ⟨c.seek rest, hp.of_some hf, Cursor.remaining_seek (hp.suffix hf)⟩

theorem delimiter_of_lexeme {x : Char} (h : lexemes c.remaining = l :: ls)
    (hx : delimiter? x = some l.kind) :
    ∃ c', delimiter .woof x c = .ok (.success l.start c') ∧ lexemes c'.remaining = ls := by
  obtain ⟨us, rest, hs, hk, rfl⟩ := exists_scans h
  generalize hl : l.kind = kind at hk hx
  have hm := (delimiter?_mem hx).2
  cases hk with
  | delimiter first =>
    have hf : headIf (·.symbol == x) (l.start :: us) = some (l.start, us) := by
      simp [headIf, delimiter?_inj first hx]
    obtain ⟨c', hp, rfl⟩ := exists_of_read (reads_delimiter .woof x) hs hf
    exact ⟨c', hp, rfl⟩
  | symbol | number | string | unfinished | other => simp at hm

theorem delimiter_of_other {x : Char} (h : lexemes c.remaining = ls) {k : Kind}
    (hx : delimiter? x = some k) (hn : ∀ l ∈ ls.head?, l.kind ≠ k) :
    delimiter .woof x c = .ok .failure := by
  apply delimiter_of_ne
  intro ha
  cases ls with
  | nil =>
    rw [ahead, skip_of_lexemes_nil h] at ha
    cases ha
  | cons l ls =>
    obtain ⟨us, rest, hs, hk, -⟩ := exists_scans h
    obtain rfl : l.start.symbol = x := Option.some.inj ((ahead_of_skip hs).symm.trans ha)
    have hkind := hn l rfl
    have hclass := not_in_class_of_delimiter hx
    generalize l.kind = kind at hk hkind
    cases hk with
    | delimiter first => exact hkind (Option.some.inj (first.symm.trans hx))
    | symbol first => exact hclass.1 first
    | number first => exact hclass.2.1 first
    | string first | unfinished first => exact hclass.2.2 first
    | other none => rw [hx] at none; cases none

theorem readSymbol_of_lexeme {name : String} (h : lexemes ts = l :: ls)
    (hk : l.kind = .symbol name) :
    ∃ rest, readSymbol .woof (skip .woof ts) = some (name, rest) ∧ lexemes rest = ls := by
  obtain ⟨us, rest, hs, hl, rfl⟩ := exists_scans h
  rw [hk] at hl
  cases hl with
  | delimiter first => simpa using (delimiter?_mem first).2
  | symbol first read => exact ⟨rest, hs ▸ read, rfl⟩

theorem readSymbol_of_other (h : lexemes ts = ls)
    (hn : ∀ name start us, ls ≠ ⟨.symbol name, start⟩ :: us) :
    readSymbol .woof (skip .woof ts) = none := by
  cases ls with
  | nil =>
    rw [skip_of_lexemes_nil h]
    rfl
  | cons l ls =>
    obtain ⟨us, rest, hs, hk, -⟩ := exists_scans h
    have hkind (name : String) (hl : l.kind = .symbol name) : False := hn name l.start ls (hl ▸ rfl)
    rw [hs]
    apply readSymbol_of_not_start
    intro hx
    generalize l.kind = kind at hk hkind
    cases hk with
    | delimiter first => exact (not_in_class_of_delimiter first).1 hx
    | symbol => exact hkind _ rfl
    | number first => exact (Alphabet.classes_disjoint.1 _ hx).1 first
    | string first | unfinished first => exact (not_mem_of_quote first).1 hx
    | other _ start => exact start hx

theorem symbol_of_lexeme {name : String} (h : lexemes c.remaining = l :: ls)
    (hk : l.kind = .symbol name) :
    ∃ c', symbol .woof c = .ok (.success name c') ∧ lexemes c'.remaining = ls := by
  obtain ⟨rest, hr, hl⟩ := readSymbol_of_lexeme h hk
  refine ⟨c.seek rest, (reads_symbol .woof).of_some hr, ?_⟩
  rw [Cursor.remaining_seek ((reads_symbol .woof).suffix hr)]
  exact hl

theorem symbol_of_other (h : lexemes c.remaining = ls)
    (hn : ∀ name start us, ls ≠ ⟨.symbol name, start⟩ :: us) : symbol .woof c = .ok .failure :=
  (reads_symbol .woof).of_none (readSymbol_of_other h hn)

theorem string_of_lexeme {value : String} (h : lexemes c.remaining = l :: ls)
    (hk : l.kind = .string value) :
    ∃ c', stringLiteral .woof c = .ok (.success value c') ∧ lexemes c'.remaining = ls := by
  obtain ⟨us, rest, hs, hl, rfl⟩ := exists_scans h
  rw [hk] at hl
  cases hl with
  | delimiter first => simpa using (delimiter?_mem first).2
  | string first read =>
    obtain ⟨c', hp, rfl⟩ := exists_of_read (reads_stringLiteral .woof) hs read
    exact ⟨c', hp, rfl⟩

theorem string_of_other (h : lexemes c.remaining = ls)
    (hn : ∀ value start us, ls ≠ ⟨.string value, start⟩ :: us) :
    stringLiteral .woof c = .ok .failure := by
  apply (reads_stringLiteral .woof).of_none
  cases ls with
  | nil =>
    rw [skip_of_lexemes_nil h]
    rfl
  | cons l ls =>
    obtain ⟨us, rest, hs, hk, -⟩ := exists_scans h
    have hkind (value : String) (hl : l.kind = .string value) : False :=
      hn value l.start ls (hl ▸ rfl)
    show readString (skip .woof c.remaining) = none
    rw [hs]
    generalize l.kind = kind at hk hkind
    cases hk with
    | delimiter first => exact readString_of_not_quote (not_in_class_of_delimiter first).2.2
    | symbol first => exact readString_of_not_quote fun hq => (not_mem_of_quote hq).1 first
    | number first => exact readString_of_not_quote fun hq => (not_mem_of_quote hq).2 first
    | string => exact absurd rfl (hkind _)
    | unfinished _ read => exact read
    | other _ _ _ quote => exact readString_of_not_quote quote

theorem number_of_lexeme {value : Int} (h : lexemes c.remaining = l :: ls)
    (hk : l.kind = .number value) :
    ∃ c', number .woof c = .ok (.success value c') ∧ lexemes c'.remaining = ls := by
  obtain ⟨us, rest, hs, hl, rfl⟩ := exists_scans h
  rw [hk] at hl
  cases hl with
  | delimiter first => simpa using (delimiter?_mem first).2
  | number first read =>
    obtain ⟨c', hp, rfl⟩ := exists_of_read reads_number hs read
    exact ⟨c', hp, rfl⟩

end Reading

end Woof.Lexer
