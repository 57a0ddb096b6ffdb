import Woof.Grammar.Trivia

namespace Woof.Grammar

open Woof.Parser

/-- The characters that the tokens carry. -/
def spell (tokens : List (Token Char)) : String := String.ofList (tokens.map Token.symbol)

def openCurly (a : Alphabet) : Scan (Token Char) := delimiter a '\x7b'

def closeCurly (a : Alphabet) : Scan (Token Char) := delimiter a '\x7d'

def openParen (a : Alphabet) : Scan (Token Char) := delimiter a '('

def closeParen (a : Alphabet) : Scan (Token Char) := delimiter a ')'

/-- The number that a text stands for. -/
def numeral (text : String) : Scan Int :=
  effect <| match Numeral.read text with
    | .ok n => .ok n
    | .error e => .error (.badNumeral e)

/-- As many digits as there are. -/
def number (a : Alphabet) : Scan Int :=
  lexeme a do
    let digits ← oneOrMore (charIn a.digits)
    numeral (spell digits)

/-- A start and as many starts and digits as there are. -/
def symbol (a : Alphabet) : Scan String :=
  lexeme a do
    let start ← charIn a.symbolStarts
    let rest ← zeroOrMore (firstOf [charIn a.symbolStarts, charIn a.digits])
    return spell (start :: rest)

def keyword (a : Alphabet) (word : String) : Scan String := filter (· == word) (symbol a)

/-- The two characters that a string holds only behind a backslash. -/
def backslashOrQuote : Scan (Token Char) := firstOf [char '\\', char '\x22']

/-- A character of a string: behind a backslash one of the two, else any other. -/
def stringCharacter : Scan (Token Char) :=
  firstOf
    [do
      let _ ← char '\\'
      backslashOrQuote,
    anythingBut backslashOrQuote]

/-- The characters between two double quotes. -/
def stringLiteral (a : Alphabet) : Scan String :=
  lexeme a do
    let _ ← char '\x22'
    let characters ← zeroOrMore stringCharacter
    let _ ← char '\x22'
    return spell characters

end Woof.Grammar
