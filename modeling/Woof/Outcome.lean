import Woof.Cursor
import Woof.Diagnostic

namespace Woof

/-- How running a parser ends.
A failure lets a choice try its next alternative; an error says that the text is malformed and
is final for every choice. -/
inductive Outcome (α : Type) where
  | success (value : α) (cursor : Cursor)
  | failure
  | error (diagnostic : Diagnostic)
deriving DecidableEq

namespace Outcome

variable {α β : Type}

def map (f : α → β) : Outcome α → Outcome β
  | success v c => success (f v) c
  | failure => failure
  | error d => error d

@[simp] theorem map_success (f : α → β) (v : α) (c : Cursor) :
    (success v c).map f = success (f v) c := rfl

@[simp] theorem map_failure (f : α → β) : (failure : Outcome α).map f = failure := rfl

@[simp] theorem map_error (f : α → β) (d : Diagnostic) :
    (error d : Outcome α).map f = error d := rfl

end Outcome

end Woof
