/-
  MixinCss.Decimal.Shortest

  The fewest decimal digits that read back as a given number. The reals that
  round to `m * 2 ^ q` form an interval; for one digit, two digits and so on the
  two neighbours of the value on that decimal grid are tested for lying in it,
  in exact arithmetic. Of two hits the nearer one wins, and of two equally near
  ones the even one.
-/

import MixinCss.Decimal.Binary

namespace MixinCss.Decimal

/-- A decimal number `digits * 10 ^ exponent`. -/
structure Scaled where
  digits : Nat
  exponent : Int
deriving DecidableEq, Repr

/-- The interval of reals that round to a number, as fractions over one
    denominator: the value itself and both ends, and whether the ends belong. -/
structure Interval where
  value : Nat
  low : Nat
  high : Nat
  denominator : Nat
  closed : Bool

namespace Interval

/-- The interval around `m * 2 ^ q`. Half the gap lies on each side; at the
    start of a binade the gap below is half as wide as the one above. -/
def ofBinary (m : Nat) (q : Int) : Interval :=
  let lowGap := if m = Binary.hiddenBit ∧ q ≠ Binary.leastExponent then 1 else 2
  let scale := Nat.pow 2 (q - 2).toNat
  { value := 4 * m * scale
    low := (4 * m - lowGap) * scale
    high := (4 * m + 2) * scale
    denominator := Nat.pow 2 (2 - q).toNat
    closed := m % 2 == 0 }

/-- Whether `num / den` lies in the interval. -/
def contains (i : Interval) (num den : Nat) : Bool :=
  let x := num * i.denominator
  if i.closed then i.low * den ≤ x && x ≤ i.high * den
  else i.low * den < x && x < i.high * den

/-- Numerator and denominator of `d * 10 ^ p`. -/
def gridPoint (d : Nat) (p : Int) : Nat × Nat :=
  (d * Nat.pow 10 p.toNat, Nat.pow 10 (-p).toNat)

/-- A whole number on the grid `10 ^ p` whose point lies in the interval. -/
def hit? (i : Interval) (p : Int) : Option Nat :=
  let scaled := i.value * Nat.pow 10 (-p).toNat
  let unit := i.denominator * Nat.pow 10 p.toNat
  let d := scaled / unit
  let lower := let (num, den) := gridPoint d p; i.contains num den
  let upper := let (num, den) := gridPoint (d + 1) p; i.contains num den
  if lower && upper then
    let rest := scaled % unit
    if 2 * rest < unit then some d
    else if unit < 2 * rest then some (d + 1)
    else if d % 2 = 0 then some d
    else some (d + 1)
  else if lower then some d
  else if upper then some (d + 1)
  else none

/-- The number of digits before the decimal point of the value; zero or less
    for values below one tenth. No finite number is below `10 ^ -324`. -/
def magnitude (i : Interval) : Int :=
  ((Nat.toDigits 10 (i.value * Nat.pow 10 350 / i.denominator)).length : Int) - 350

end Interval

/-- Moves trailing zeros of the digits into the exponent. The fuel bounds the
    number of zeros. -/
def Scaled.strip (fuel : Nat) (s : Scaled) : Scaled :=
  match fuel with
  | 0 => s
  | fuel + 1 =>
    if s.digits ≠ 0 ∧ s.digits % 10 = 0 then
      Scaled.strip fuel ⟨s.digits / 10, s.exponent + 1⟩
    else s

/-- The shortest decimal that reads back as `m * 2 ^ q`, for `m` not zero.
    Seventeen digits always suffice. -/
def shortest (m : Nat) (q : Int) : Scaled :=
  let i := Interval.ofBinary m q
  let size := i.magnitude
  let found := (List.range 18).findSome? fun n =>
    let p := size - (n + 1 : Nat)
    (i.hit? p).map fun d => Scaled.mk d p
  match found with
  | some s => s.strip 20
  | none => ⟨0, 0⟩

end MixinCss.Decimal
