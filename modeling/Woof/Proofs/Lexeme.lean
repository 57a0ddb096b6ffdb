import Woof.Grammar.Lexeme
import Woof.Proofs.Alphabet
import Woof.Proofs.Numeral
import Woof.Proofs.Trivia

namespace Woof.Grammar

open Woof.Parser

/-- Whether a token may stand inside a symbol. -/
def inName (a : Alphabet) (t : Token Char) : Bool := among a.symbolStarts t || among a.digits t

/-- The longest symbol at the front of a list. -/
def readSymbol (a : Alphabet) : List (Token Char) → Reading String
  | [] => none
  | t :: ts =>
    if among a.symbolStarts t then
      some (spell (t :: ts.takeWhile (inName a)), ts.dropWhile (inName a))
    else none

/-- The longest run of digits at the front of a list, as a number. -/
def readNumber (ts : List (Token Char)) : Reading Int :=
  match ts.takeWhile (among Alphabet.woof.digits) with
  | [] => none
  | d :: ds =>
    some ((Nat.ofDigitChars 10 ((d :: ds).map Token.symbol) 0 : Nat),
      ts.dropWhile (among Alphabet.woof.digits))

/-- Whether a token stands in a string only behind a backslash. -/
def escaped (t : Token Char) : Bool := t.symbol == '\\' || t.symbol == '\x22'

def readStringCharacter : List (Token Char) → Reading (Token Char)
  | [] => none
  | t :: ts =>
    if !escaped t then some (t, ts)
    else if t.symbol == '\\' then headIf escaped ts
    else none

/-- A quote, the characters of a string and a quote at the front of a list. -/
def readString (ts : List (Token Char)) : Reading String :=
  (headIf (·.symbol == '\x22') ts).bind fun r =>
    (headIf (·.symbol == '\x22') (readMany readStringCharacter r.2).2).map fun s =>
      (spell (readMany readStringCharacter r.2).1, s.2)

section First

variable {a : Alphabet} {t : Token Char} {ts : List (Token Char)}

theorem readSymbol_of_not_start (h : t.symbol ∉ a.symbolStarts) :
    readSymbol a (t :: ts) = none := by simp [readSymbol, among, h]

theorem readNumber_of_not_digit (h : t.symbol ∉ Alphabet.woof.digits) :
    readNumber (t :: ts) = none := by
  have ht : ¬ among Alphabet.woof.digits t = true := by simpa [among] using h
  simp [readNumber, List.takeWhile_cons_of_neg ht]

theorem readString_of_not_quote (h : t.symbol ≠ '\x22') : readString (t :: ts) = none := by
  have hq : headIf (·.symbol == '\x22') (t :: ts) = none := by simp [headIf, h]
  rw [readString, hq]
  rfl

end First

theorem reads_delimiter (a : Alphabet) (x : Char) :
    Reads (delimiter a x) fun ts => headIf (·.symbol == x) (skip a ts) :=
  Reads.lexeme a (reads_char x)

theorem reads_inName (a : Alphabet) :
    Reads (firstOf [charIn a.symbolStarts, charIn a.digits]) (headIf (inName a)) := by
  refine (reads_charIn a.symbolStarts).firstOf_pair (reads_charIn a.digits) fun ts => ?_
  cases ts with
  | nil => rfl
  | cons t ts => cases h : among a.symbolStarts t <;> simp [headIf, inName, h]

theorem reads_symbol (a : Alphabet) : Reads (symbol a) fun ts => readSymbol a (skip a ts) := by
  refine Reads.lexeme a ((reads_charIn a.symbolStarts).bind
    (fun _ => ((reads_inName a).zeroOrMore fun _ => rfl).bind
      (fun _ => Reads.of_pure _) fun _ => rfl) fun ts => ?_)
  cases ts with
  | nil => rfl
  | cons t ts =>
    cases h : among a.symbolStarts t <;> simp [readSymbol, headIf, readMany_headIf, h]

theorem reads_keyword (a : Alphabet) (word : String) :
    Reads (keyword a word) fun ts => (readSymbol a (skip a ts)).filter fun r => r.1 == word :=
  (reads_symbol a).filter _ fun _ => rfl

/-- Every digit of the language is a digit to the reading of numerals, so that it is never
interrupted. -/
theorem numeral_spell {ds : List (Token Char)} (h : ∀ d ∈ ds, among Alphabet.woof.digits d = true) :
    numeral (spell ds) = pure ((Nat.ofDigitChars 10 (ds.map Token.symbol) 0 : Nat) : Int) := by
  have hd : ∀ c ∈ (spell ds).toList, c.isDigit = true := by
    intro c hc
    rw [spell, String.toList_ofList] at hc
    obtain ⟨d, hm, rfl⟩ := List.mem_map.mp hc
    rw [← Alphabet.mem_digits_iff]
    simpa [among] using h d hm
  rw [numeral, Numeral.read_of_digits hd, spell, String.toList_ofList]
  rfl

theorem reads_digits (a : Alphabet) :
    Reads (oneOrMore (charIn a.digits)) fun ts =>
      (some (readMany (headIf (among a.digits)) ts)).filter fun r => !r.1.isEmpty :=
  ((reads_charIn a.digits).zeroOrMore fun _ => rfl).filter _ fun _ => rfl

theorem reads_number : Reads (number .woof) fun ts => readNumber (skip .woof ts) := by
  refine Reads.lexeme .woof ?_
  have hk {ts ds rest : List (Token Char)}
      (h : (some (readMany (headIf (among Alphabet.woof.digits)) ts)).filter
        (fun r => !r.1.isEmpty) = some (ds, rest)) :
      Reads (numeral (spell ds)) fun us =>
        some (((Nat.ofDigitChars 10 (ds.map Token.symbol) 0 : Nat) : Int), us) := by
    have hr := (Option.filter_eq_some_iff.mp h).1
    rw [readMany_headIf] at hr
    obtain ⟨rfl, -⟩ := Prod.mk.inj (Option.some.inj hr)
    rw [numeral_spell (List.all_eq_true.mp List.all_takeWhile)]
    exact Reads.of_pure _
  refine (reads_digits .woof).bind hk fun ts => ?_
  cases h : ts.takeWhile (among Alphabet.woof.digits) <;>
    simp [readNumber, readMany_headIf, h, Option.filter]

theorem reads_backslashOrQuote : Reads backslashOrQuote (headIf escaped) := by
  refine (reads_char '\\').firstOf_pair (reads_char '\x22') fun ts => ?_
  cases ts with
  | nil => rfl
  | cons t ts => cases h : t.symbol == '\\' <;> simp [headIf, escaped, h]

theorem reads_stringCharacter : Reads stringCharacter readStringCharacter := by
  refine ((reads_char '\\').bind (fun _ => reads_backslashOrQuote) fun _ => rfl).firstOf_pair
    (reads_backslashOrQuote.anythingBut fun _ => rfl) fun ts => ?_
  cases ts with
  | nil => rfl
  | cons t ts =>
    cases hb : t.symbol == '\\' with
    | true => cases headIf escaped ts <;> simp [readStringCharacter, headIf, escaped, hb]
    | false => cases hq : t.symbol == '\x22' <;> simp [readStringCharacter, headIf, escaped, hb, hq]

theorem reads_stringLiteral (a : Alphabet) :
    Reads (stringLiteral a) fun ts => readString (skip a ts) := by
  refine Reads.lexeme a ((reads_char '\x22').bind
    (fun _ => (reads_stringCharacter.zeroOrMore fun _ => rfl).bind
      (fun _ => (reads_char '\x22').bind (fun _ => Reads.of_pure _) fun _ => rfl) fun _ => rfl)
    fun ts => ?_)
  rw [readString]
  congr 1
  funext r
  rw [Option.bind_some, Option.map_eq_bind]
  rfl

end Woof.Grammar
