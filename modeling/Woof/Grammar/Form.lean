import Woof.Form
import Woof.Grammar.Lexeme

namespace Woof.Grammar

open Woof.Parser

def symbolForm (a : Alphabet) : Scan Form := Form.symbol <$> symbol a

def numberForm (a : Alphabet) : Scan Form := Form.number <$> number a

def stringForm (a : Alphabet) : Scan Form := Form.string <$> stringLiteral a

/-- An operator and its operands between parentheses. -/
def application (a : Alphabet) (form : Scan Form) : Scan Form := do
  let opening ← openParen a
  let operator ← expecting ⟨.applicationMissingOperator, opening⟩ form
  let operands ← zeroOrMore form
  let _ ← expecting ⟨.applicationMissingClose, opening⟩ (closeParen a)
  return .application operator operands

/-- A name for a value, with or without a text about it, after the word define between curlies. -/
def define (a : Alphabet) (form : Scan Form) : Scan Form := do
  let opening ← openCurly a
  let _ ← keyword a "define"
  let doc ← optional (stringLiteral a)
  let name ← expecting ⟨.defineMissingSymbol, opening⟩ (symbol a)
  let value ← expecting ⟨.defineMissingForm, opening⟩ form
  let _ ← expecting ⟨.defineMissingClose, opening⟩ (closeCurly a)
  return .define doc name value

/-- As many symbols as there are. An error at the given location where one occurs twice. -/
def parameters (a : Alphabet) (opening : Location) : Scan (List String) := do
  let names ← zeroOrMore (symbol a)
  match firstRepeated names with
  | some _ => reject ⟨.lambdaDuplicateParameters, opening⟩
  | none => return names

/-- Parameters between curlies and a body, after the word lambda between curlies. -/
def lambda (a : Alphabet) (form : Scan Form) : Scan Form := do
  let opening ← openCurly a
  let _ ← keyword a "lambda"
  let paramsOpening ← expecting ⟨.lambdaMissingParameters, opening⟩ (openCurly a)
  let params ← parameters a paramsOpening
  let _ ← expecting ⟨.lambdaMissingParametersClose, paramsOpening⟩ (closeCurly a)
  let body ← expecting ⟨.lambdaMissingBody, opening⟩ (oneOrMore form)
  let _ ← expecting ⟨.lambdaMissingClose, opening⟩ (closeCurly a)
  return .lambda params body

/-- What stands between curlies: anything else there is an error. -/
def special (a : Alphabet) (form : Scan Form) : Scan Form :=
  firstOf
    [define a form,
    lambda a form,
    do
      let opening ← openCurly a
      reject ⟨.specialUnparseable, opening⟩]

/-- The kinds of form, with a parser for the forms inside them. -/
def alternatives (a : Alphabet) (inner : Scan Form) : List (Scan Form) :=
  [symbolForm a, numberForm a, stringForm a, application a inner, special a inner]

/-- A form whose parts are nested less deep than the limit. -/
def form (a : Alphabet) : Nat → Scan Form
  | 0 => effect (.error .tooDeep)
  | limit + 1 => firstOf (alternatives a (form a limit))

end Woof.Grammar
