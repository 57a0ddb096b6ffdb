import Woof.Grammar.Form

namespace Woof

/-- Takes the forms of a program one by one, with its record so far, or objects to one. -/
abbrev Receiver (σ : Type) : Type := Form → σ → Except Objection σ

namespace Receiver

variable {σ : Type}

/-- Puts a form on record, or interrupts the run. -/
def deliver (receive : Receiver σ) (f : Form) : Watched σ Unit := do
  match receive f (← get) with
  | .ok record => set record
  | .error objection => throw (.refused objection)

/-- Keeps every form. -/
def collect : Receiver (Array Form) := fun f fs => .ok (fs.push f)

/-- Keeps the given number of forms and objects to the next. -/
def collectUpTo (count : Nat) (objection : Objection) : Receiver (Array Form) := fun f fs =>
  if fs.size < count then .ok (fs.push f) else .error objection

/-- Takes every form and keeps none. -/
def ignore : Receiver σ := fun _ record => .ok record

end Receiver

namespace Grammar

open Woof.Parser

variable {σ : Type}

/-- A form that is delivered as soon as it is read. -/
def topLevelForm (a : Alphabet) (limit : Nat) (receive : Receiver σ) : Parser (Watched σ) Form := do
  let f ← hoist Watched.lift (form a limit)
  effect (receive.deliver f)
  return f

/-- Trivia up to the end. Whatever stands there instead is an error. -/
def endOfProgram (a : Alphabet) : Scan Unit :=
  lexeme a <|
    firstOf
      [atEnd,
      do
        let t ← next
        reject ⟨.unparsedInput, t⟩]

/-- Forms up to the end of the text. -/
def program (a : Alphabet) (limit : Nat) (receive : Receiver σ) :
    Parser (Watched σ) (List Form) := do
  let fs ← zeroOrMore (topLevelForm a limit receive)
  let _ ← hoist Watched.lift (endOfProgram a)
  return fs

end Grammar

end Woof
