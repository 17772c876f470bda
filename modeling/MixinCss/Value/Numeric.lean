/-
  MixinCss.Value.Numeric

  Values as numbers: which values count as given, which are numbers or
  percentages, and the arithmetic of opacities and units.
-/

import MixinCss.Decimal.Reader
import MixinCss.Value.Basic

namespace MixinCss

namespace Text

/-- The text after an optional sign. -/
def afterSign : Text → Text
  | b :: rest => if b = ascii '+' || b = ascii '-' then rest else b :: rest
  | [] => []

/-- Whether `t` is empty or an exponent: a mark, an optional sign and digits. -/
def isExponent : Text → Bool
  | [] => true
  | b :: rest =>
    let digits := afterSign rest
    Byte.lower b == ascii 'e' && !digits.isEmpty && digits.all Byte.isDigit

/-- The shape of a number in a style sheet: a sign, digits with a point before,
    among or after them, and an exponent. Words such as `inf` do not have it. -/
def isNumber (t : Text) : Bool :=
  let body := afterSign t
  let whole := body.takeWhile Byte.isDigit
  match body.dropWhile Byte.isDigit with
  | b :: rest =>
    if b = ascii '.' then
      (!whole.isEmpty || !(rest.takeWhile Byte.isDigit).isEmpty) &&
        isExponent (rest.dropWhile Byte.isDigit)
    else !whole.isEmpty && isExponent (b :: rest)
  | [] => !whole.isEmpty

/-- Digits followed by a percent sign. -/
def isWholePercentage (t : Text) : Bool :=
  let digits := t.takeWhile Byte.isDigit
  !digits.isEmpty && t.dropWhile Byte.isDigit == [ascii '%']

end Text

namespace Decimal

/-- The number a text spells, infinite if it is too large, zero if it is none. -/
def readSaturating (t : Text) : Float :=
  match read t with
  | .ok f => f
  | .error .outOfRange => if t.head? = some (ascii '-') then -(1.0 / 0.0) else 1.0 / 0.0
  | .error .malformed => 0.0

end Decimal

namespace Value

/-- The value of a number without a unit, or of a word that spells one. -/
def number? : Value → Option Float
  | .number _ num => some num
  | .word raw =>
    if raw.isNumber then (Decimal.read raw).toOption else none
  | _ => none

/-- Whether an optional argument counts as given: an absent value, an empty
    text and the number zero do not. -/
def isTruthy (v : Value) : Bool :=
  if v.isAbsent then false
  else
    match v.number? with
    | some n => !(n == 0.0) && !v.text.isEmpty
    | none => !v.text.isEmpty

/-- Whether the text of a value is a whole percentage such as `20%`. -/
def isPercentage (v : Value) : Bool := v.text.isWholePercentage

def isVariable : Value → Bool
  | .variable _ => true
  | _ => false

/-- An opacity between zero and one: `20%` and `20` both become `0.2`. What is
    not numeric stays as it is. -/
def opacity (v : Value) : Value :=
  if v.isPercentage then
    .ofNumber (Decimal.readSaturating (v.text.dropTail [ascii '%']) / 100.0)
  else
    match v.number? with
    | some n => if n > 1.0 then .ofNumber (n / 100.0) else .ofNumber n
    | none => v

/-- Puts a unit behind a number that has none; other values stay. -/
def withUnit (v : Value) (unit : Text) : Value :=
  match v with
  | .number _ num => .ofDimension num unit
  | _ => v

end Value

end MixinCss
