import Woof.Grammar.Program
import Woof.Value.Basic

namespace Woof

/-- The parsers of the grammar, by name. -/
inductive Rule where
  | whitespace
  | comment
  | trivia
  | openCurly
  | closeCurly
  | openParen
  | closeParen
  | number
  | symbol
  | stringLiteral
  | keyword (word : String)
  | parameters (opening : Location)
  | symbolForm
  | numberForm
  | stringForm
  | application
  | define
  | lambda
  | special
  | form
  | topLevelForm
  | endOfProgram
  | program
deriving DecidableEq, Repr

namespace Rule

variable {σ : Type}

def tokens (ts : List (Token Char)) : Value := .list (ts.map .ofToken)

/-- A parser that delivers nothing. -/
def silent (p : Scan Value) : Parser (Watched σ) Value := Parser.hoist Watched.lift p

/-- The parser of a rule, with its result as a value. The limit counts the forms nested in one
another, the outermost included. -/
def parser (a : Alphabet) (limit : Nat) (receive : Receiver σ) :
    Rule → Parser (Watched σ) Value
  | whitespace => silent (tokens <$> Grammar.whitespace a)
  | comment => silent (tokens <$> Grammar.comment)
  | trivia => silent ((fun ts => .list (ts.map tokens)) <$> Grammar.trivia a)
  | openCurly => silent (.ofToken <$> Grammar.openCurly a)
  | closeCurly => silent (.ofToken <$> Grammar.closeCurly a)
  | openParen => silent (.ofToken <$> Grammar.openParen a)
  | closeParen => silent (.ofToken <$> Grammar.closeParen a)
  | number => silent (.int <$> Grammar.number a)
  | symbol => silent (.text <$> Grammar.symbol a)
  | stringLiteral => silent (.text <$> Grammar.stringLiteral a)
  | keyword word => silent (.text <$> Grammar.keyword a word)
  | parameters opening =>
    silent ((fun ns => .tuple (ns.map .text)) <$> Grammar.parameters a opening)
  | symbolForm => silent (.ofForm <$> Grammar.symbolForm a)
  | numberForm => silent (.ofForm <$> Grammar.numberForm a)
  | stringForm => silent (.ofForm <$> Grammar.stringForm a)
  | application => silent (.ofForm <$> Grammar.application a (Grammar.form a limit))
  | define => silent (.ofForm <$> Grammar.define a (Grammar.form a limit))
  | lambda => silent (.ofForm <$> Grammar.lambda a (Grammar.form a limit))
  | special => silent (.ofForm <$> Grammar.special a (Grammar.form a limit))
  | form => silent (.ofForm <$> Grammar.form a limit)
  | topLevelForm => .ofForm <$> Grammar.topLevelForm a limit receive
  | endOfProgram => silent ((fun _ => .absent) <$> Grammar.endOfProgram a)
  | program => (fun fs => .list (fs.map .ofForm)) <$> Grammar.program a limit receive

end Rule

end Woof
