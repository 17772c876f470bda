/-
  MixinCss.Decimal.Binary

  A double-precision number taken apart: its sign and the exact value
  `m * 2 ^ q` of its magnitude. All exact work on numbers starts here.
-/

namespace MixinCss.Decimal

/-- What a double-precision number stands for. -/
inductive Binary where
  | notANumber
  | infinite (negative : Bool)
  /-- `± m * 2 ^ q` -/
  | finite (negative : Bool) (m : Nat) (q : Int)
deriving DecidableEq, Repr

namespace Binary

/-- The least exponent: subnormal numbers are multiples of `2 ^ leastExponent`. -/
def leastExponent : Int := -1074

/-- The mantissa of the smallest number of each binade. -/
def hiddenBit : Nat := Nat.pow 2 52

/-- Takes a number apart. -/
def ofFloat (f : Float) : Binary :=
  let bits := f.toBits.toNat
  let negative := bits / Nat.pow 2 63 == 1
  let exponent := bits / hiddenBit % Nat.pow 2 11
  let fraction := bits % hiddenBit
  if exponent = 2047 then
    if fraction = 0 then .infinite negative else .notANumber
  else if exponent = 0 then .finite negative fraction leastExponent
  else .finite negative (hiddenBit + fraction) ((exponent : Int) - 1075)

/-- The number nearest to `± m * 2 ^ q`; infinite if it is too large. -/
def toFloat (negative : Bool) (m : Nat) (q : Int) : Float :=
  let magnitude :=
    match q with
    | .ofNat n => Float.ofScientific (m * Nat.pow 2 n) false 0
    | .negSucc n => Float.ofScientific (m * Nat.pow 5 (n + 1)) true (n + 1)
  if negative then -magnitude else magnitude

/-- The remainder of `x` after division by `y`, with the sign of `x`. It is
    exact: both are whole multiples of the smaller of their units. -/
def remainder (x y : Float) : Float :=
  match ofFloat x, ofFloat y with
  | .finite negative m q, .finite _ n r =>
    if n = 0 then 0.0 / 0.0
    else
      let unit := min q r
      let a := m * Nat.pow 2 (q - unit).toNat
      let b := n * Nat.pow 2 (r - unit).toNat
      toFloat negative (a % b) unit
  | .finite .., .infinite _ => x
  | _, _ => 0.0 / 0.0

end Binary

/-- Whether an integer fits into 64 bits with a sign. -/
def fitsInt64 (n : Int) : Bool := Int64.minValue.toInt ≤ n && n ≤ Int64.maxValue.toInt

end MixinCss.Decimal
