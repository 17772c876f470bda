/-
  MixinCss.Decimal.Layout

  Numbers as text. A style sheet writes the fewest digits that read back, in
  positional notation however large or small the number is. A setting printed
  back uses an exponent for numbers below `10 ^ -4` and from `10 ^ 6` on.
-/

import MixinCss.Decimal.Shortest
import MixinCss.Text.Basic

namespace MixinCss.Decimal

namespace Scaled

/-- Digits with a decimal point where it belongs and no exponent. -/
def positional (s : Scaled) : Text :=
  let digits := Text.ofNat s.digits
  match s.exponent with
  | .ofNat n => digits ++ List.replicate n (ascii '0')
  | .negSucc n =>
    let places := n + 1
    if digits.length ≤ places then
      utf8 "0." ++ List.replicate (places - digits.length) (ascii '0') ++ digits
    else
      let whole := digits.length - places
      digits.take whole ++ [ascii '.'] ++ digits.drop whole

/-- The exponent of the first digit. -/
def leading (s : Scaled) : Int := s.exponent + (Text.ofNat s.digits).length - 1

/-- One digit, a point, the other digits and an exponent of at least two digits. -/
def scientific (s : Scaled) : Text :=
  let digits := Text.ofNat s.digits
  let point := if digits.length ≤ 1 then [] else ascii '.' :: digits.drop 1
  let e := s.leading
  let size := Text.ofNat e.natAbs
  let sign := if e < 0 then ascii '-' else ascii '+'
  digits.take 1 ++ point ++ [ascii 'e', sign] ++
    List.replicate (2 - size.length) (ascii '0') ++ size

end Scaled

/-- Writes a number with the given layout for its digits. -/
def write (layout : Scaled → Text) (f : Float) : Text :=
  match Binary.ofFloat f with
  | .notANumber => utf8 "NaN"
  | .infinite false => utf8 "+Inf"
  | .infinite true => utf8 "-Inf"
  | .finite negative m q =>
    let magnitude := if m = 0 then utf8 "0" else layout (shortest m q)
    if negative then ascii '-' :: magnitude else magnitude

/-- A number as a style sheet writes it: never with an exponent. -/
def format (f : Float) : Text := write Scaled.positional f

/-- A number as a setting is printed: with an exponent below `10 ^ -4` and from
    `10 ^ 6` on. -/
def formatSetting (f : Float) : Text :=
  write (fun s =>
    if s.leading < -4 ∨ 6 ≤ s.leading then s.scientific else s.positional) f

end MixinCss.Decimal
