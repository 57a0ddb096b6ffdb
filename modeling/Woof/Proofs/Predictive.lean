import Woof.Proofs.Lexer
import Woof.Proofs.Program

namespace Woof.Predictive

open Woof.Lexer

/-- What is left of some lexemes once at least one was taken. -/
abbrev Rest (ls : List Lexeme) : Type := { rest : List Lexeme // rest.length < ls.length }

/-- What is left of some lexemes once any number of them was taken. -/
abbrev Tail (ls : List Lexeme) : Type := { rest : List Lexeme // rest.length ≤ ls.length }

def token? (kind : Kind) : (ls : List Lexeme) → Option (Token Char × Rest ls)
  | [] => none
  | l :: ls => if l.kind = kind then some (l.start, ⟨ls, Nat.lt_succ_self _⟩) else none

def symbol? : (ls : List Lexeme) → Option (String × Rest ls)
  | ⟨.symbol name, _⟩ :: ls => some (name, ⟨ls, Nat.lt_succ_self _⟩)
  | _ => none

/-- A string, where the next lexeme is one. -/
def doc : (ls : List Lexeme) → Option String × Tail ls
  | ⟨.string value, _⟩ :: ls => (some value, ⟨ls, Nat.le_succ _⟩)
  | ls => (none, ⟨ls, Nat.le_refl _⟩)

/-- The run of symbols at the front. -/
def names : (ls : List Lexeme) → List String × Tail ls
  | ⟨.symbol name, _⟩ :: ls =>
    let (others, ⟨rest, h⟩) := names ls
    (name :: others, ⟨rest, Nat.le_succ_of_le h⟩)
  | ls => ([], ⟨ls, Nat.le_refl _⟩)

variable {α : Type}

def required (d : Diagnostic) (x : Except Diagnostic (Option α)) : Except Diagnostic α := do
  match ← x with
  | some v => return v
  | none => throw d

def distinct (d : Diagnostic) (x : List String × α) : Except Diagnostic (List String × α) :=
  if x.1.Nodup then return x else throw d

def nonempty (d : Diagnostic) (x : Except Diagnostic (List Form × α)) :
    Except Diagnostic (List Form × α) := do
  let r ← x
  if r.1.isEmpty then throw d else return r

mutual

/-- The form that the next lexeme starts, if it starts one. A curly needs a look at the lexeme
behind it. -/
def form : (ls : List Lexeme) → Except Diagnostic (Option (Form × Rest ls))
  | [] => return none
  | l :: ls =>
    match l.kind with
    | .symbol name => return some (.symbol name, ⟨ls, Nat.lt_succ_self _⟩)
    | .number value => return some (.number value, ⟨ls, Nat.lt_succ_self _⟩)
    | .string value => return some (.string value, ⟨ls, Nat.lt_succ_self _⟩)
    | .openParen => do
      let (f, ⟨rest, h⟩) ← application l.start ls
      return some (f, ⟨rest, Nat.lt_succ_of_lt h⟩)
    | .openCurly => do
      let (f, ⟨rest, h⟩) ← special l.start ls
      return some (f, ⟨rest, Nat.lt_succ_of_lt h⟩)
    | .closeParen | .closeCurly | .bad => return none
termination_by ls => (ls.length, 0)

def application (opening : Token Char) (ls : List Lexeme) : Except Diagnostic (Form × Rest ls) := do
  let (operator, ⟨ls₁, h₁⟩) ← required ⟨.applicationMissingOperator, opening⟩ (form ls)
  let (operands, ⟨ls₂, h₂⟩) ← forms ls₁
  let (_, ⟨ls₃, h₃⟩) ← required ⟨.applicationMissingClose, opening⟩ (pure (token? .closeParen ls₂))
  return (.application operator operands, ⟨ls₃, by omega⟩)
termination_by (ls.length, 1)

def special (opening : Token Char) (ls : List Lexeme) : Except Diagnostic (Form × Rest ls) :=
  match symbol? ls with
  | none => throw ⟨.specialUnparseable, opening⟩
  | some (word, ⟨ls₁, h₁⟩) =>
    if word = "define" then do
      let (f, ⟨rest, h⟩) ← define opening ls₁
      return (f, ⟨rest, by omega⟩)
    else if word = "lambda" then do
      let (f, ⟨rest, h⟩) ← lambda opening ls₁
      return (f, ⟨rest, by omega⟩)
    else throw ⟨.specialUnparseable, opening⟩
termination_by (ls.length, 1)

def define (opening : Token Char) (ls : List Lexeme) : Except Diagnostic (Form × Rest ls) := do
  let (doc, ⟨ls₁, h₁⟩) := doc ls
  let (name, ⟨ls₂, h₂⟩) ← required ⟨.defineMissingSymbol, opening⟩ (pure (symbol? ls₁))
  let (value, ⟨ls₃, h₃⟩) ← required ⟨.defineMissingForm, opening⟩ (form ls₂)
  let (_, ⟨ls₄, h₄⟩) ← required ⟨.defineMissingClose, opening⟩ (pure (token? .closeCurly ls₃))
  return (.define doc name value, ⟨ls₄, by omega⟩)
termination_by (ls.length, 1)

def lambda (opening : Token Char) (ls : List Lexeme) : Except Diagnostic (Form × Rest ls) := do
  let (paramsOpening, ⟨ls₁, h₁⟩) ←
    required ⟨.lambdaMissingParameters, opening⟩ (pure (token? .openCurly ls))
  let (params, ⟨ls₂, h₂⟩) ← distinct ⟨.lambdaDuplicateParameters, paramsOpening⟩ (names ls₁)
  let (_, ⟨ls₃, h₃⟩) ←
    required ⟨.lambdaMissingParametersClose, paramsOpening⟩ (pure (token? .closeCurly ls₂))
  let (body, ⟨ls₄, h₄⟩) ← nonempty ⟨.lambdaMissingBody, opening⟩ (forms ls₃)
  let (_, ⟨ls₅, h₅⟩) ← required ⟨.lambdaMissingClose, opening⟩ (pure (token? .closeCurly ls₄))
  return (.lambda params body, ⟨ls₅, by omega⟩)
termination_by (ls.length, 1)

/-- The forms up to a lexeme that starts none. -/
def forms (ls : List Lexeme) : Except Diagnostic (List Form × Tail ls) := do
  match ← form ls with
  | none => return ([], ⟨ls, Nat.le_refl _⟩)
  | some (f, ⟨ls₁, h₁⟩) =>
    let (fs, ⟨ls₂, h₂⟩) ← forms ls₁
    return (f :: fs, ⟨ls₂, by omega⟩)
termination_by (ls.length, 1)

end

/-- The forms up to the first lexeme that starts none, and what is wrong there unless that is the
end. -/
def program (ls : List Lexeme) : List Form × Option Diagnostic :=
  match form ls with
  | .error d => ([], some d)
  | .ok none => ([], ls.head?.map fun l => ⟨.unparsedInput, l.start⟩)
  | .ok (some (f, ⟨rest, _⟩)) =>
    let (fs, fault) := program rest
    (f :: fs, fault)
termination_by ls.length

/-- What forms and a fault come to, once the receiver is told of the forms in their order. -/
def report {σ : Type} (receive : Receiver σ) (record : σ) (text : String) (fs : List Form)
    (fault : Option Diagnostic) : Except ParseError (List Form) × σ :=
  match receive.feed fs record with
  | .error (e, r) => (.error (.ofObjection text e), r)
  | .ok r =>
    match fault with
    | some d => (.error (.malformed d), r)
    | none => (.ok fs, r)

/-- Reads a text in two stages: first its lexemes, then its forms. -/
def parse {σ : Type} (receive : Receiver σ) (record : σ) (text : String) :
    Except ParseError (List Form) × σ :=
  let found := program (lexemes (Token.tag '\n' text.toList))
  report receive record text found.1 found.2

end Woof.Predictive
