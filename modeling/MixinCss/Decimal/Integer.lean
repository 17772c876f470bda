/-
  MixinCss.Decimal.Integer

  Text read as an integer of 64 bits. The base is shown by how the digits
  begin: `0x`, `0o` or a plain `0`, and `0b`; all others are decimal.
-/

import MixinCss.Decimal.Reader

namespace MixinCss.Decimal

/-- The base of digits and the digits without its mark. -/
def baseOf (t : Text) : Nat × Text :=
  match t with
  | z :: rest =>
    if z ≠ ascii '0' then (10, t)
    else
      match rest with
      | mark :: _ :: _ =>
        if Byte.lower mark = ascii 'b' then (2, rest.drop 1)
        else if Byte.lower mark = ascii 'o' then (8, rest.drop 1)
        else if Byte.lower mark = ascii 'x' then (16, rest.drop 1)
        else (8, rest)
      | _ => (8, rest)
  | [] => (10, t)

/-- The number that digits in a base spell; underscores are passed over. It is
    out of range as soon as it needs more than 64 bits. -/
def digitsIn (base : Nat) (n : Nat) : Text → Except ReadFault Nat
  | [] => .ok n
  | b :: rest =>
    if b = ascii '_' then digitsIn base n rest
    else if !(Byte.isDigit b || Byte.isLetter b) || base ≤ Byte.digitValue b then
      .error .malformed
    else
      let next := base * n + Byte.digitValue b
      if UInt64.size ≤ next then .error .outOfRange else digitsIn base next rest

/-- Reads all of `t` as an integer. -/
def readInteger (t : Text) : Except ReadFault Int := do
  let negative := t.head? = some (ascii '-')
  let body := if negative || t.head? = some (ascii '+') then t.drop 1 else t
  if body.isEmpty then throw .malformed
  let (base, digits) := baseOf body
  let n ← digitsIn base 0 digits
  let isDigit := if base = 16 then Byte.isHexDigit else Byte.isDigit
  let marked := digits.length + 2 = body.length
  if !underscoresFit isDigit marked (if marked then digits else body) then throw .malformed
  let value : Int := if negative then -n else n
  if fitsInt64 value then return value else throw .outOfRange

end MixinCss.Decimal
