namespace Woof

/-- The character classes that a grammar is built over. -/
structure Alphabet where
  /-- A symbol starts with one of these. -/
  symbolStarts : List Char
  /-- A number consists of these; a symbol may go on with them. -/
  digits : List Char
  whitespace : List Char
deriving DecidableEq, Repr

namespace Alphabet

/-- The classes of the language itself. -/
def woof : Alphabet where
  symbolStarts :=
    "abcdefghijklmnopqrstuvwxyzABCDEFGHIJKLMNOPQRSTUVWXYZ!@#$%^&*_-+=:?<>".toList
  digits := "0123456789".toList
  whitespace := [' ', '\n', '\t', '\r', '\x0c']

end Alphabet

end Woof
