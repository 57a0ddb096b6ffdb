import Woof.Grammar.Alphabet
import Woof.Interrupt
import Woof.Parser.Repetition

namespace Woof

/-- A parser of the grammar: it has no effect but that it may be interrupted. -/
abbrev Scan (α : Type) : Type := Parser (Except Interrupt) α

namespace Grammar

open Woof.Parser

variable {α : Type}

def whitespace (a : Alphabet) : Scan (List (Token Char)) := oneOrMore (charIn a.whitespace)

/-- From a semicolon up to the newline, which is not part of the comment. -/
def comment : Scan (List (Token Char)) := do
  let _ ← char ';'
  zeroOrMore (anythingBut (char '\n'))

/-- Whitespace and comments. -/
def trivia (a : Alphabet) : Scan (List (List (Token Char))) :=
  zeroOrMore (firstOf [whitespace a, comment])

/-- Skips the trivia before `p`. -/
def lexeme (a : Alphabet) (p : Scan α) : Scan α := do
  let _ ← trivia a
  p

/-- A single character, after trivia. -/
def delimiter (a : Alphabet) (x : Char) : Scan (Token Char) := lexeme a (char x)

end Grammar

end Woof
