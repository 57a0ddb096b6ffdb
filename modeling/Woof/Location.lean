import Woof.Token

namespace Woof

/-- What a diagnostic points at: a symbol with its line and column. One that a caller makes up need
not be in any text. -/
structure Location where
  symbol : String
  line : Int
  column : Int
deriving DecidableEq, Repr

/-- Where a token of a text stands. -/
def Token.location (t : Token Char) : Location := ⟨String.singleton t.symbol, t.line, t.column⟩

instance : Coe (Token Char) Location := ⟨Token.location⟩

end Woof
