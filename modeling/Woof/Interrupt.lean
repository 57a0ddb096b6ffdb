import Woof.Numeral

namespace Woof

/-- What a receiver of forms raises instead of taking one. -/
inductive Objection where
  /-- It went deeper than it may, as the reading of forms can. -/
  | tooDeep
  | other (kind message : String)
deriving DecidableEq, Repr

/-- What can stop a run from outside the grammar. No choice or rescue takes notice of it. -/
inductive Interrupt where
  /-- Forms are nested deeper than the limit. -/
  | tooDeep
  /-- A run of digits of the alphabet is no number. -/
  | badNumeral (numeral : Numeral.Unreadable)
  /-- The receiver of the forms did not take one. -/
  | refused (objection : Objection)
  /-- A recipe names a parser that is not defined. -/
  | undefined (name : String)
deriving DecidableEq, Repr

/-- A run that may be interrupted and that keeps a record. -/
abbrev Watched (σ : Type) : Type → Type := ExceptT Interrupt (StateM σ)

namespace Watched

variable {σ α : Type}

/-- What a run that keeps no record amounts to. -/
@[inline] def lift (x : Except Interrupt α) : Watched σ α := fun s => (x, s)

end Watched

end Woof
