import Woof.Parser.Basic

namespace Woof.Parser

variable {m : Type → Type} [Monad m] {α : Type}

/-- Repeats `p` after the given values, latest first, were read.
A run that consumes nothing would be repeated for ever: its value is kept and the repetition ends. -/
@[specialize] def repeatFrom (p : Parser m α) (values : List α) (c : Cursor) :
    m (Outcome (List α)) := do
  match ← p c with
  | .failure => pure (.success values.reverse c)
  | .error d => pure (.error d)
  | .success v c' =>
    if c'.left < c.left then repeatFrom p (v :: values) c'
    else pure (.success (v :: values).reverse c)
termination_by c.left

/-- The values of `p`, run until it fails. -/
@[inline] def zeroOrMore (p : Parser m α) : Parser m (List α) := repeatFrom p []

/-- As `zeroOrMore`, but fails where not even one value was read. -/
@[inline] def oneOrMore (p : Parser m α) : Parser m (List α) :=
  filter (fun values => !values.isEmpty) (zeroOrMore p)

end Woof.Parser
