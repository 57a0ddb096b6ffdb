import Woof.Grammar.Alphabet
import Woof.Value.Display

namespace Woof

/-- Why a value has no text in the language. Some causes show the value. -/
inductive WriteError where
  | nameNotText (shown : String)
  | nameStart (c : Char) (name : String)
  | nameCharacter (c : Char) (name : String)
  | notWhole (shown : String)
  | negative
  | duplicateParameter (name : String)
  | emptyBody
  | notAForm (shown : String)
  /-- A number to be written or shown has too many digits to be converted in one piece. -/
  | oversized
  | tooDeep
deriving DecidableEq, Repr

namespace WriteError

def message : WriteError → String
  | nameNotText shown => "Symbols must be non-empty strings, found " ++ shown
  | nameStart c name =>
    "Symbols cannot start with " ++ Text.quoted (String.singleton c) ++ ", found " ++
      Text.quoted name
  | nameCharacter c name =>
    "Symbols cannot contain " ++ Text.quoted (String.singleton c) ++ ", found " ++ Text.quoted name
  | notWhole shown => "Numbers must be integers, found " ++ shown
  | negative => "Woof has no negative numbers"
  | duplicateParameter name => "Duplicate lambda parameter " ++ Text.quoted name
  | emptyBody => "Lambda must have at least one body form"
  | notAForm shown => "Could not find woof syntax for " ++ shown
  | oversized => Numeral.Oversized.message {}
  | tooDeep => "Forms are nested too deeply to write"

/-- The error that shows a value, or the reason why it cannot be shown. -/
def showing (error : String → WriteError) (v : Value) : WriteError :=
  match v.display with
  | .ok shown => error shown
  | .error .oversized => oversized
  | .error .tooDeep => tooDeep

end WriteError

/-- A float that was written as the whole number it is equal to. -/
structure Cast where
  number : Binary64
deriving DecidableEq, Repr

def Cast.message (c : Cast) : String :=
  "casting number " ++ c.number.display ++ " of type float to int"

/-- Writing may be refused. The casts made are on record, also those before a refusal. -/
abbrev Writing : Type → Type := ExceptT WriteError (StateM (List Cast))

namespace Writer

/-- The first of the characters that may not stand inside a name. -/
def badCharacter? (characters : List Char) : Option Char :=
  characters.find? fun c => !(Alphabet.woof.symbolStarts.contains c || Alphabet.woof.digits.contains c)

/-- A name that the grammar reads as one symbol. -/
def name : Value → Writing String
  | .text s =>
    match s.toList with
    | [] => throw (.showing .nameNotText (.text s))
    | c :: rest =>
      if !Alphabet.woof.symbolStarts.contains c then throw (.nameStart c s)
      else match badCharacter? rest with
        | some d => throw (.nameCharacter d s)
        | none => return s
  | v => throw (.showing .nameNotText v)

/-- Names that are all different. -/
def parameters (ps : List Value) : Writing (List String) := do
  let names ← ps.mapM name
  match firstRepeated names with
  | some p => throw (.duplicateParameter p)
  | none => return names

/-- A whole number, or a float equal to one. -/
def wholeNumber : Value → Writing Int
  | .int n => return n
  | .float x =>
    match x.toInt? with
    | some n => do
      modify (· ++ [⟨x⟩])
      return n
    | none => throw (.showing .notWhole (.float x))
  | v => throw (.showing .notWhole v)

/-- The decimal text of a whole number, which has no sign. -/
def numeral (n : Int) : Writing String :=
  if n < 0 then throw .negative
  else
    match Numeral.write n with
    | .ok text => return text
    | .error _ => throw .oversized

def number (v : Value) : Writing String := do
  let n ← wholeNumber v
  numeral n

/-- How a character stands inside a string: a backslash before a backslash or a quote. -/
def escape (c : Char) : List Char :=
  if c = '\\' ∨ c = '\x22' then ['\\', c] else [c]

def quoted (text : String) : String :=
  String.ofList ('\x22' :: text.toList.flatMap escape ++ ['\x22'])

/-- The texts with a blank between each two. -/
def spaced (texts : List String) : String := " ".intercalate texts

/-- The text of a form whose parts are nested less deep than the limit. The checks on a form's own
fields come before its parts, and these from left to right. -/
def form : Nat → Value → Writing String
  | 0, _ => throw .tooDeep
  | limit + 1, v =>
    match v with
    | .number n => number n
    | .symbol s => name s
    | .string s => return quoted s
    | .lambda ps fs => do
      let params ← parameters ps
      if fs.isEmpty then throw .emptyBody
      else
        let body ← fs.mapM (form limit)
        return "\x7blambda \x7b" ++ spaced params ++ "\x7d " ++ spaced body ++ "\x7d"
    | .define doc s f => do
      let defined ← name s
      let value ← form limit f
      return "\x7b" ++ spaced ("define" :: (doc.map quoted).toList ++ [defined, value]) ++ "\x7d"
    | .application f fs => do
      let operator ← form limit f
      let operands ← fs.mapM (form limit)
      return "(" ++ spaced (operator :: operands) ++ ")"
    | other => throw (.showing .notAForm other)

/-- The text of a form and the end of its line. -/
def line (limit : Nat) (v : Value) : Writing String := do
  let text ← form limit v
  return text ++ "\n"

/-- The text of a program, a form on each line. -/
def program (limit : Nat) (forms : List Value) : Writing String := do
  let lines ← forms.mapM (line limit)
  return String.join lines

end Writer

end Woof
