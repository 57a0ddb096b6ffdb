namespace Woof

/-- A symbol of a text with the line and the column it stands at, both counted from one. -/
structure Token (α : Type) where
  symbol : α
  line : Nat
  column : Nat
deriving DecidableEq, Repr

namespace Token

variable {α : Type} [DecidableEq α]

/-- The tokens of a text whose first symbol stands at the given line and column.
A newline stands at the end of the line it closes; the symbol after it opens the next line. -/
def tagFrom (newline : α) (line column : Nat) : List α → List (Token α)
  | [] => []
  | symbol :: rest =>
    ⟨symbol, line, column⟩ ::
      if symbol = newline then tagFrom newline (line + 1) 1 rest
      else tagFrom newline line (column + 1) rest

/-- The tokens of a text, one for each symbol. -/
def tag (newline : α) (text : List α) : List (Token α) := tagFrom newline 1 1 text

@[simp] theorem length_tagFrom (newline : α) (line column : Nat) (text : List α) :
    (tagFrom newline line column text).length = text.length := by
  induction text generalizing line column with
  | nil => rfl
  | cons s rest ih => by_cases h : s = newline <;> simp [tagFrom, h, ih]

@[simp] theorem symbol_tagFrom (newline : α) (line column : Nat) (text : List α) :
    (tagFrom newline line column text).map symbol = text := by
  induction text generalizing line column with
  | nil => rfl
  | cons s rest ih => by_cases h : s = newline <;> simp [tagFrom, h, ih]

@[simp] theorem length_tag (newline : α) (text : List α) :
    (tag newline text).length = text.length := length_tagFrom newline 1 1 text

@[simp] theorem symbol_tag (newline : α) (text : List α) :
    (tag newline text).map symbol = text := symbol_tagFrom newline 1 1 text

end Token

end Woof
