/-
  MixinCss.Color.Basic

  Colors as three channels between zero and one, and the two ways to write
  them: `rgb(…)` rounds a channel to the nearest of 256 steps, a half upward,
  and so does the hexadecimal form.
-/

import MixinCss.Decimal.Binary
import MixinCss.Text.Basic

namespace MixinCss

namespace Decimal

/-- The whole number nearest to a number that is not negative, a half going
    up. -/
def roundHalfUp (m : Nat) (q : Int) : Nat :=
  match q with
  | .ofNat n => m * Nat.pow 2 n
  | .negSucc n => (m + Nat.pow 2 n) / Nat.pow 2 (n + 1)

/-- The lesser of two numbers; not a number if one of them is none. -/
def lesser (x y : Float) : Float :=
  if x.isNaN || y.isNaN then 0.0 / 0.0 else if x < y then x else y

/-- The greater of two numbers; not a number if one of them is none. -/
def greater (x y : Float) : Float :=
  if x.isNaN || y.isNaN then 0.0 / 0.0 else if x > y then x else y

/-- `x` moved into the range from zero to one. -/
def clampUnit (x : Float) : Float := if x < 0.0 then 0.0 else if x > 1.0 then 1.0 else x

end Decimal

/-- A color by its channels. A channel outside the range from zero to one is
    cut off when it is written. -/
structure Rgb where
  red : Float
  green : Float
  blue : Float
deriving Repr, Inhabited

namespace Rgb

def map (f : Float → Float) (c : Rgb) : Rgb := ⟨f c.red, f c.green, f c.blue⟩

/-- The same value in all channels. -/
def gray (x : Float) : Rgb := ⟨x, x, x⟩

/-- A color from channels of eight bits. -/
def ofBytes (red green blue : Nat) : Rgb :=
  ⟨red.toFloat / 255.0, green.toFloat / 255.0, blue.toFloat / 255.0⟩

/-- The step of a channel out of 256. What is not a number has no step and is
    written as the least integer of 64 bits. -/
def step (x : Float) : Int :=
  match Decimal.Binary.ofFloat (Decimal.clampUnit x * 255.0) with
  | .finite _ m q => Decimal.roundHalfUp m q
  | _ => Int64.minValue.toInt

/-- The steps of the channels as they stand between the parentheses of
    `rgb(…)`. -/
def steps (c : Rgb) : Text :=
  Text.join (utf8 ", ") ([c.red, c.green, c.blue].map fun x => Text.ofInt (step x))

/-- `#rrggbb` -/
def hex (c : Rgb) : Text :=
  let digits (x : Float) := Text.hex 2 (Decimal.clampUnit x * 255.0 + 0.5).toUInt8.toNat
  ascii '#' :: (digits c.red ++ digits c.green ++ digits c.blue)

end Rgb

end MixinCss
