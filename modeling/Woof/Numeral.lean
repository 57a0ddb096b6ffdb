import Woof.Text.DecimalDigit
import Woof.Text.Quoted

namespace Woof.Numeral

/-- Numerals are converted in groups of this many digits, so that the work on a group is bounded. -/
def groupSize : Nat := 4000

/-- A number is converted to or from a text in one piece only if it has at most this many digits. -/
def conversionLimit : Nat := 4300

/-- Why a group of characters is not converted to a number. -/
inductive Unreadable where
  /-- It is no whole number. -/
  | malformed (group : String)
  /-- It has more digits than are converted in one piece. -/
  | oversized (digitCount : Nat)
deriving DecidableEq, Repr

/-- The message shows at most two hundred characters of a group. -/
def Unreadable.message : Unreadable → String
  | malformed group =>
    "invalid literal for int() with base 10: " ++
      String.ofList ((Text.quoted group).toList.take 200)
  | oversized digitCount =>
    "Exceeds the limit (" ++ toString conversionLimit ++
      " digits) for integer string conversion: value has " ++ toString digitCount ++
      " digits; use sys.set_int_max_str_digits() to increase the limit"

/-- Continues a number with the digits that follow. An underscore may stand between two digits. -/
def readMore (value : Nat) : List Char → Option Nat
  | [] => some value
  | '_' :: c :: rest => do
    let d ← Text.decimalDigit? c
    readMore (10 * value + d) rest
  | c :: rest => do
    let d ← Text.decimalDigit? c
    readMore (10 * value + d) rest

/-- A number without sign: at least one digit. -/
def readUnsigned : List Char → Option Nat
  | [] => none
  | c :: rest => do
    let d ← Text.decimalDigit? c
    readMore d rest

def readSigned : List Char → Option Int
  | '-' :: rest => (readUnsigned rest).map fun n => -(n : Int)
  | '+' :: rest => (readUnsigned rest).map Int.ofNat
  | text => (readUnsigned text).map Int.ofNat

/-- A text without the blanks at both ends. -/
def strip (text : List Char) : List Char :=
  ((text.dropWhile Text.isBlank).reverse.dropWhile Text.isBlank).reverse

/-- The whole number that a group of characters stands for, converted in one piece if there are at
most so many digits in it. -/
def readGroup (limit : Nat) (group : List Char) : Except Unreadable Int :=
  let digitCount := group.countP fun c => (Text.decimalDigit? c).isSome
  if limit < digitCount then .error (.oversized digitCount)
  else
    match readSigned (strip group) with
    | some n => .ok n
    | none => .error (.malformed (String.ofList group))

/-- Continues a number with the groups of the text. -/
def readFrom (limit : Nat) (value : Int) : List Char → Except Unreadable Int
  | [] => .ok value
  | c :: rest => do
    let group := (c :: rest).take groupSize
    let n ← readGroup limit group
    readFrom limit (value * Nat.pow 10 group.length + n) ((c :: rest).drop groupSize)
termination_by text => text.length
decreasing_by
  simp only [List.length_drop, List.length_cons, groupSize]
  omega

/-- The number that a text stands for, where at most so many digits are converted in one piece.
Nothing stands for zero. -/
def readWithin (limit : Nat) (text : String) : Except Unreadable Int :=
  readFrom limit 0 text.toList

def read (text : String) : Except Unreadable Int := readWithin conversionLimit text

/-- Stands for a number that has more digits than are converted in one piece. -/
structure Oversized where
deriving DecidableEq, Repr

def Oversized.message (_ : Oversized) : String :=
  "Exceeds the limit (" ++ toString conversionLimit ++ " digits) for integer string conversion; " ++
    "use sys.set_int_max_str_digits() to increase the limit"

def decimal : Int → List Char
  | .ofNat n => Nat.toDigits 10 n
  | .negSucc n => '-' :: Nat.toDigits 10 (n + 1)

/-- The decimal text of a number, converted in one piece if it has at most so many digits. -/
def convertWithin (limit : Nat) (n : Int) : Except Oversized (List Char) :=
  if (Nat.toDigits 10 n.natAbs).length ≤ limit then .ok (decimal n) else .error {}

def convert (n : Int) : Except Oversized String :=
  (convertWithin conversionLimit n).map String.ofList

/-- The first number too large for one group. -/
@[irreducible] def groupBase : Nat := Nat.pow 10 groupSize

theorem one_lt_groupBase : 1 < groupBase := by
  have hs : groupSize ≠ 0 := by decide
  unfold groupBase
  rw [Nat.pow_eq]
  exact Nat.one_lt_pow hs (by decide)

/-- The digits of a group with zeros in front, up to its whole size. -/
def fill (group : List Char) : List Char :=
  List.replicate (groupSize - group.length) '0' ++ group

/-- The decimal digits of a number, converted group by group from the low end. -/
def digitsWithin (limit n : Nat) : Except Oversized (List Char) :=
  if n < groupBase then convertWithin limit n
  else do
    let last ← convertWithin limit (n % groupBase : Nat)
    let front ← digitsWithin limit (n / groupBase)
    return front ++ fill last
termination_by n
decreasing_by
  have hb := one_lt_groupBase
  exact Nat.div_lt_self (by omega) hb

/-- The decimal text of a number, where at most so many digits are converted in one piece. Groups
are for numbers without sign; any other is converted as a whole. -/
def writeWithin (limit : Nat) : Int → Except Oversized String
  | .ofNat n => (digitsWithin limit n).map String.ofList
  | .negSucc n => (convertWithin limit (.negSucc n)).map String.ofList

def write (n : Int) : Except Oversized String := writeWithin conversionLimit n

end Woof.Numeral
