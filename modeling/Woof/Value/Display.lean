import Woof.Numeral
import Woof.Outcome
import Woof.Value.Basic

namespace Woof

/-- Why a value is not shown in a message. -/
inductive Unshowable where
  /-- It holds a number of too many digits. -/
  | oversized
  /-- It holds forms that are nested too deep. -/
  | tooDeep
deriving DecidableEq, Repr

def Location.display (l : Location) : String :=
  "Token(symbol=" ++ Text.quoted l.symbol ++ ", line=" ++ toString l.line ++ ", column=" ++
    toString l.column ++ ")"

def Diagnostic.display (d : Diagnostic) : String :=
  "Diagnostic(kind=<DiagnosticKind." ++ d.fault.label ++ ": " ++ Text.quoted d.fault.message ++
    ">, location=" ++ d.location.display ++ ")"

namespace Value

/-- Items between parentheses; a single item keeps a comma. -/
def parenthesised : List String → String
  | [item] => "(" ++ item ++ ",)"
  | items => "(" ++ ", ".intercalate items ++ ")"

def displayInt (n : Int) : Except Unshowable String :=
  (Numeral.convert n).mapError fun _ => .oversized

def displayDoc : Option String → String
  | none => "None"
  | some s => Text.quoted s

/-- Goes on inside a form, with the limit on the forms that are nested in it. -/
def showInside (limit : Nat) (inside : Nat → Except Unshowable String) : Except Unshowable String :=
  match limit with
  | 0 => .error .tooDeep
  | limit + 1 => inside limit

mutual

/-- A value as messages show it. Its parts are shown in order, and the first that is not shown
decides. The limit counts forms nested in one another. -/
def displayWithin (limit : Nat) : Value → Except Unshowable String
  | absent => return "None"
  | bool b => return if b then "True" else "False"
  | int n => displayInt n
  | float x => return x.display
  | text s => return Text.quoted s
  | list vs => do
    let items ← displayAllWithin limit vs
    return "[" ++ ", ".intercalate items ++ "]"
  | tuple vs => do
    let items ← displayAllWithin limit vs
    return parenthesised items
  | number v => showInside limit fun limit => do
    let value ← displayWithin limit v
    return "Number(value=" ++ value ++ ")"
  | symbol v => showInside limit fun limit => do
    let name ← displayWithin limit v
    return "Symbol(name=" ++ name ++ ")"
  | string s => showInside limit fun _ => return "Str(value=" ++ Text.quoted s ++ ")"
  | lambda ps fs => showInside limit fun limit => do
    let params ← displayAllWithin limit ps
    let body ← displayAllWithin limit fs
    return "Lambda(params=" ++ parenthesised params ++ ", body=" ++ parenthesised body ++ ")"
  | define doc n v => showInside limit fun limit => do
    let name ← displayWithin limit n
    let value ← displayWithin limit v
    return "Define(doc=" ++ displayDoc doc ++ ", name=" ++ name ++ ", value=" ++ value ++ ")"
  | application f fs => showInside limit fun limit => do
    let operator ← displayWithin limit f
    let operands ← displayAllWithin limit fs
    return "Application(operator=" ++ operator ++ ", operands=" ++ parenthesised operands ++ ")"
  | token l => return l.display
  | diagnostic d => return d.display

def displayAllWithin (limit : Nat) : List Value → Except Unshowable (List String)
  | [] => return []
  | v :: vs => do
    let item ← displayWithin limit v
    let items ← displayAllWithin limit vs
    return item :: items

end

def display (v : Value) : Except Unshowable String := displayWithin nestingLimit v

end Value

/-- An outcome as messages show it. -/
def Outcome.display : Outcome Value → Except Unshowable String
  | .success v c => do
    let value ← v.display
    return "Success(value=" ++ value ++ ", cursor=Cursor(offset=" ++ toString c.offset ++ "))"
  | .failure => return "FAILURE"
  | .error d => return "Error(diagnostic=" ++ d.display ++ ")"

end Woof
