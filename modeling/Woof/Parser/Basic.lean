import Woof.Outcome

namespace Woof

/-- A parser reads from a cursor and never changes it, so that whoever runs it may start again
from the same place. Its run may have effects of `m`. -/
def Parser (m : Type → Type) (α : Type) : Type := Cursor → m (Outcome α)

namespace Parser

variable {m n : Type → Type} [Monad m] {α β : Type}

/-- Succeeds with the value, consuming nothing. -/
@[inline] protected def pure (value : α) : Parser m α := fun c => pure (.success value c)

/-- Runs a parser, then the parser that its value asks for on the tokens that remain. -/
@[inline] protected def bind (p : Parser m α) (k : α → Parser m β) : Parser m β := fun c => do
  match ← p c with
  | .success v c' => k v c'
  | .failure => pure .failure
  | .error d => pure (.error d)

@[inline] protected def map (f : α → β) (p : Parser m α) : Parser m β := fun c =>
  return (← p c).map f

instance : Monad (Parser m) where
  pure := Parser.pure
  bind := Parser.bind
  map := Parser.map

@[simp] theorem pure_apply (v : α) (c : Cursor) :
    (pure v : Parser m α) c = pure (.success v c) := rfl

theorem bind_apply (p : Parser m α) (k : α → Parser m β) (c : Cursor) :
    (p >>= k) c = p c >>= fun
      | .success v c' => k v c'
      | .failure => pure .failure
      | .error d => pure (.error d) := rfl

theorem map_apply (f : α → β) (p : Parser m α) (c : Cursor) :
    (f <$> p) c = (do return (← p c).map f) := rfl

/-- An effect, consuming nothing. -/
@[inline] def effect (x : m α) : Parser m α := fun c => do
  let v ← x
  return .success v c

/-- The same parser with its effects read in another monad. -/
@[inline] def hoist (f : m (Outcome α) → n (Outcome α)) (p : Parser m α) : Parser n α :=
  fun c => f (p c)

/-- Consumes one token and gives it; fails at the end. -/
def next : Parser m (Token Char) := fun c =>
  match c.next? with
  | some (t, c') => pure (.success t c')
  | none => pure .failure

/-- Succeeds at the end of the text only. -/
def atEnd : Parser m Unit := fun c =>
  if c.left = 0 then pure (.success () c) else pure .failure

def reject (d : Diagnostic) : Parser m α := fun _ => pure (.error d)

/-- Fails where the value of `p` is not as wanted. -/
@[inline] def filter (wanted : α → Bool) (p : Parser m α) : Parser m α := fun c => do
  match ← p c with
  | .success v c' => if wanted v then pure (.success v c') else pure .failure
  | o => pure o

/-- One token that is as wanted. -/
@[inline] def satisfying (wanted : Token Char → Bool) : Parser m (Token Char) :=
  filter wanted next

/-- One token that carries the given character. -/
@[inline] def char (x : Char) : Parser m (Token Char) := satisfying (·.symbol == x)

/-- One token that carries one of the given characters. -/
@[inline] def charIn (xs : List Char) : Parser m (Token Char) :=
  satisfying fun t => xs.contains t.symbol

/-- Runs each parser on what the one before it left and gives all values.
The first that does not succeed decides. -/
def inOrder : List (Parser m α) → Parser m (List α)
  | [] => pure []
  | p :: ps => do
    let v ← p
    let vs ← inOrder ps
    return v :: vs

/-- The outcome of the first parser that does not fail, all tried from the same cursor. -/
def firstOf : List (Parser m α) → Parser m α
  | [], _ => pure .failure
  | p :: ps, c => do
    match ← p c with
    | .failure => firstOf ps c
    | o => pure o

/-- One token at which `p` fails. Fails where `p` succeeds. -/
@[inline] def anythingBut (p : Parser m α) : Parser m (Token Char) := fun c => do
  match ← p c with
  | .failure => next c
  | .success _ _ => pure .failure
  | .error d => pure (.error d)

/-- The value of `p`, or none where `p` fails. -/
@[inline] def optional (p : Parser m α) : Parser m (Option α) := fun c => do
  match ← p c with
  | .failure => pure (.success none c)
  | .success v c' => pure (.success (some v) c')
  | .error d => pure (.error d)

/-- Turns a failure of `p` into an error. Used once a construct is recognised, so that a malformed
one is reported and nothing else is tried in its place. -/
@[inline] def expecting (d : Diagnostic) (p : Parser m α) : Parser m α := fun c => do
  match ← p c with
  | .failure => pure (.error d)
  | o => pure o

/-- Where `p` errs, runs the handler's parser from the place where `p` began. -/
@[inline] def rescue (p : Parser m α) (handler : Diagnostic → Parser m α) : Parser m α := fun c => do
  match ← p c with
  | .error d => handler d c
  | o => pure o

end Parser

end Woof
