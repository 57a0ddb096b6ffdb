import Woof.Token

namespace Woof

/-- A place in a tagged text: the tokens before the offset are consumed, the others remain. -/
@[ext] structure Cursor where
  tokens : Array (Token Char)
  offset : Nat
  offset_le : offset ≤ tokens.size
deriving DecidableEq

/-- Raised by advancing a cursor that has no token left. -/
structure Exhausted where
deriving DecidableEq, Repr

def Exhausted.message (_ : Exhausted) : String := "Cannot advance past the end of input"

namespace Cursor

/-- The start of a text. -/
def ofText (text : String) : Cursor :=
  ⟨(Token.tag '\n' text.toList).toArray, 0, Nat.zero_le _⟩

/-- How many tokens remain. -/
def left (c : Cursor) : Nat := c.tokens.size - c.offset

def first? (c : Cursor) : Option (Token Char) := c.tokens[c.offset]?

def remaining (c : Cursor) : List (Token Char) := c.tokens.toList.drop c.offset

/-- The next token with the place after it, if a token remains. -/
def next? (c : Cursor) : Option (Token Char × Cursor) :=
  if h : c.offset < c.tokens.size then some (c.tokens[c.offset], ⟨c.tokens, c.offset + 1, h⟩)
  else none

def advance (c : Cursor) : Except Exhausted Cursor :=
  match c.next? with
  | some (_, c') => .ok c'
  | none => .error {}

@[simp] theorem length_remaining (c : Cursor) : c.remaining.length = c.left := by
  simp [remaining, left]

theorem next?_eq_none_iff {c : Cursor} : c.next? = none ↔ c.left = 0 := by
  have h := c.offset_le
  unfold next? left
  split <;> simp <;> omega

theorem left_of_next? {c c' : Cursor} {t : Token Char} (h : c.next? = some (t, c')) :
    c'.left + 1 = c.left := by
  unfold next? at h
  split at h
  · obtain ⟨-, rfl⟩ := Prod.mk.inj (Option.some.inj h)
    simp only [left]
    omega
  · simp at h

theorem remaining_of_next? {c c' : Cursor} {t : Token Char} (h : c.next? = some (t, c')) :
    c.remaining = t :: c'.remaining := by
  unfold next? at h
  split at h
  · rename_i hlt
    obtain ⟨rfl, rfl⟩ := Prod.mk.inj (Option.some.inj h)
    simp [remaining, List.drop_eq_getElem_cons hlt]
  · simp at h

end Cursor

end Woof
