import Woof.Binary64.Basic

namespace Woof.Binary64

/-- The number digits * 10^exponent. -/
structure Decimal where
  digits : Nat
  exponent : Int
deriving DecidableEq, Repr

/-- Compares a * 10^i with b * 2^j. -/
def compareScaled (a : Nat) (i : Int) (b : Nat) (j : Int) : Ordering :=
  compare (a * Nat.pow 10 i.toNat * Nat.pow 2 (-j).toNat)
    (b * Nat.pow 2 j.toNat * Nat.pow 10 (-i).toNat)

/-- Whether a decimal is read as m * 2^q: it lies between the points halfway to the two
neighbours, which count themselves where m is even. Below a power of two the neighbour is nearer. -/
def readsBack (m : Nat) (q : Int) (d : Decimal) : Bool :=
  let low := if m = Nat.pow 2 52 ∧ -1074 < q then 4 * m - 1 else 4 * m - 2
  let aboveLow := compareScaled d.digits d.exponent low (q - 2)
  let aboveHigh := compareScaled d.digits d.exponent (4 * m + 2) (q - 2)
  let ends := m % 2 = 0
  (aboveLow = .gt ∨ (ends ∧ aboveLow = .eq)) ∧ (aboveHigh = .lt ∨ (ends ∧ aboveHigh = .eq))

/-- The least exponent k for which m * 2^q < 10^k, for a positive m. -/
def magnitude (m : Nat) (q : Int) : Int :=
  let guess : Int := (((m.log2 : Int) + q) * 30103).fdiv 100000 - 1
  let above (k : Int) := compareScaled 1 k m q = .gt
  (([0, 1, 2].map (guess + ·)).find? fun k => above k).getD (guess + 3)

/-- The decimals next to m * 2^q on the grid of multiples of 10^exponent, below first. -/
def neighbours (m : Nat) (q exponent : Int) : Decimal × Decimal :=
  let below :=
    (m * Nat.pow 2 q.toNat * Nat.pow 10 (-exponent).toNat) /
      (Nat.pow 2 (-q).toNat * Nat.pow 10 exponent.toNat)
  (⟨below, exponent⟩, ⟨below + 1, exponent⟩)

/-- Of the two neighbours on a grid, one that reads back: the nearer one, at a tie the even one. -/
def onGrid? (m : Nat) (q exponent : Int) : Option Decimal :=
  let (below, above) := neighbours m q exponent
  match readsBack m q below, readsBack m q above with
  | true, true =>
    match compareScaled (2 * below.digits + 1) exponent (2 * m) q with
    | .gt => some below
    | .lt => some above
    | .eq => if below.digits % 2 = 0 then some below else some above
  | true, false => some below
  | false, true => some above
  | false, false => none

/-- Moves the zeros at the end of the digits into the exponent. -/
def Decimal.strip (d : Decimal) : Decimal :=
  if h : d.digits ≠ 0 ∧ d.digits % 10 = 0 then strip ⟨d.digits / 10, d.exponent + 1⟩ else d
termination_by d.digits
decreasing_by omega

/-- The decimal with the fewest digits that reads back as m * 2^q, for a positive m. -/
def shortest (m : Nat) (q : Int) : Decimal :=
  let k := magnitude m q
  let grids := (List.range 17).map fun (n : Nat) => k - (n + 1)
  ((grids.findSome? (onGrid? m q)).getD (neighbours m q (k - 17)).1).strip

/-- Lays out a decimal: positionally while the exponent of the leading digit is from -4 to 15,
with a digit after the point; otherwise with an exponent of at least two digits and its sign. -/
def layout (d : Decimal) : List Char :=
  let digits := Nat.toDigits 10 d.digits
  let lead : Int := d.exponent + digits.length - 1
  if -4 ≤ lead ∧ lead < 16 then
    if lead < 0 then '0' :: '.' :: List.replicate (-lead - 1).toNat '0' ++ digits
    else
      let whole := digits.take (lead.toNat + 1)
      let fraction := digits.drop (lead.toNat + 1)
      whole ++ List.replicate (lead.toNat + 1 - digits.length) '0' ++
        '.' :: (if fraction.isEmpty then ['0'] else fraction)
  else
    let power := Nat.toDigits 10 lead.natAbs
    digits.take 1 ++ (if digits.length = 1 then [] else '.' :: digits.drop 1) ++
      'e' :: (if lead < 0 then '-' else '+') :: List.replicate (2 - power.length) '0' ++ power

def display : Binary64 → String
  | nan => "nan"
  | infinite negative => if negative then "-inf" else "inf"
  | finite negative m q =>
    let magnitude := if m = 0 then ['0', '.', '0'] else layout (shortest m q)
    String.ofList (if negative then '-' :: magnitude else magnitude)

/-- The number of the given sign whose magnitude a text writes. -/
def ofUnsigned? (negative : Bool) (text : List Char) : Option Binary64 := do
  let mantissa := text.takeWhile (· != 'e')
  let whole := mantissa.takeWhile (· != '.')
  let fraction := (mantissa.drop whole.length).drop 1
  let exponent := (text.drop mantissa.length).drop 1
  let digits ← (String.ofList (whole ++ fraction)).toNat?
  let shift ← match exponent with
    | [] => some (0 : Int)
    | '+' :: power => (String.ofList power).toNat?.map Int.ofNat
    | '-' :: power => (String.ofList power).toNat?.map fun n => -(n : Int)
    | power => (String.ofList power).toNat?.map Int.ofNat
  return ofDecimal negative digits (shift - fraction.length)

/-- The number nearest to the one a text writes, in the notation of `display`. -/
def ofText? (text : String) : Option Binary64 :=
  match text.toList with
  | ['n', 'a', 'n'] => some nan
  | ['i', 'n', 'f'] => some (infinite false)
  | ['-', 'i', 'n', 'f'] => some (infinite true)
  | '-' :: rest => ofUnsigned? true rest
  | rest => ofUnsigned? false rest

end Woof.Binary64
