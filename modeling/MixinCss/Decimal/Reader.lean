/-
  MixinCss.Decimal.Reader

  Text read as a number. Besides decimal numbers with an optional exponent the
  reader takes hexadecimal numbers with a binary exponent, underscores between
  digits, and the words for infinity and not-a-number. The result is the
  nearest number; a text whose value is too large is out of range.
-/

import MixinCss.Decimal.Binary
import MixinCss.Text.Basic

namespace MixinCss.Decimal

/-- Why a text is not read as a number. -/
inductive ReadFault where
  | malformed
  | outOfRange
deriving DecidableEq, Repr

/-- Whether underscores stand only between digits, or between the base mark
    `0x` and a digit. `afterDigit` tells what came before. -/
def underscoresFit (isDigit : UInt8 → Bool) (afterDigit : Bool) : Text → Bool
  | [] => true
  | b :: rest =>
    if isDigit b then underscoresFit isDigit true rest
    else if b = ascii '_' then
      match rest with
      | c :: _ => afterDigit && isDigit c && underscoresFit isDigit false rest
      | [] => false
    else underscoresFit isDigit false rest

/-- Digits, underscores and at most one point: the digits before the point, the
    digits after it, and the rest of the text. -/
def mantissa (isDigit : UInt8 → Bool) (seenPoint : Bool) : Text → Text × Text × Text
  | [] => ([], [], [])
  | b :: rest =>
    if isDigit b then
      let (whole, fraction, tail) := mantissa isDigit seenPoint rest
      if seenPoint then (whole, b :: fraction, tail) else (b :: whole, fraction, tail)
    else if b = ascii '_' then mantissa isDigit seenPoint rest
    else if b = ascii '.' ∧ !seenPoint then mantissa isDigit true rest
    else ([], [], b :: rest)

/-- The size of an exponent, from its digits. Once it has come to ten thousand
    the digits that are left are passed over. -/
def exponentSize (digits : Text) : Nat :=
  digits.foldl (fun n b => if n < 10000 then 10 * n + Byte.digitValue b else n) 0

/-- The exponent after its mark, which takes all of the text that is left. -/
def exponent? (mark : UInt8) (t : Text) : Option Int :=
  match t with
  | [] => some 0
  | b :: rest =>
    if Byte.lower b ≠ mark then none
    else
      let (negative, digits) :=
        match rest with
        | s :: ds =>
          if s = ascii '-' then (true, ds)
          else if s = ascii '+' then (false, ds)
          else (false, rest)
        | [] => (false, rest)
      match digits with
      | [] => none
      | d :: _ =>
        if Byte.isDigit d && digits.all (fun b => Byte.isDigit b || b = ascii '_') then
          let size := exponentSize (digits.filter Byte.isDigit)
          some (if negative then -(size : Int) else size)
        else none

/-- The number spelled by digits in `base`. -/
def valueIn (base : Nat) (digits : Text) : Nat :=
  digits.foldl (fun n b => base * n + Byte.digitValue b) 0

/-- A result that is not finite is out of range. -/
def inRange (f : Float) : Except ReadFault Float :=
  match Binary.ofFloat f with
  | .finite .. => .ok f
  | _ => .error .outOfRange

/-- The number nearest to `± m * 10 ^ e`. Values far beyond both ends of the
    range are decided by their size alone. -/
def nearestDecimal (negative : Bool) (m : Nat) (e : Int) : Except ReadFault Float :=
  let size := (Nat.toDigits 10 m).length + e
  let magnitude : Except ReadFault Float :=
    if m = 0 ∨ size < -400 then .ok 0.0
    else if 400 < size then .error .outOfRange
    else
      inRange <| match e with
        | .ofNat n => Float.ofScientific m false n
        | .negSucc n => Float.ofScientific m true (n + 1)
  magnitude.map fun f => if negative then -f else f

/-- The number nearest to `± m * 2 ^ e`. -/
def nearestBinary (negative : Bool) (m : Nat) (e : Int) : Except ReadFault Float :=
  let size := (Nat.toDigits 2 m).length + e
  if m = 0 ∨ size < -1200 then .ok (if negative then -0.0 else 0.0)
  else if 1200 < size then .error .outOfRange
  else inRange (Binary.toFloat negative m e)

/-- A number without its sign, decimal or hexadecimal. -/
def readUnsigned (negative : Bool) (t : Text) : Except ReadFault Float :=
  let hexadecimal :=
    match t with
    | z :: x :: _ :: _ => z = ascii '0' && Byte.lower x = ascii 'x'
    | _ => false
  if hexadecimal then
    let body := t.drop 2
    let (whole, fraction, tail) := mantissa Byte.isHexDigit false body
    if whole.isEmpty && fraction.isEmpty || tail.isEmpty ||
        !underscoresFit Byte.isHexDigit true body then
      .error .malformed
    else
      match exponent? (ascii 'p') tail with
      | none => .error .malformed
      | some e =>
        nearestBinary negative (valueIn 16 (whole ++ fraction)) (e - 4 * fraction.length)
  else
    let (whole, fraction, tail) := mantissa Byte.isDigit false t
    if whole.isEmpty && fraction.isEmpty || !underscoresFit Byte.isDigit false t then
      .error .malformed
    else
      match exponent? (ascii 'e') tail with
      | none => .error .malformed
      | some e => nearestDecimal negative (valueIn 10 (whole ++ fraction)) (e - fraction.length)

/-- Reads all of `t` as a number. -/
def read (t : Text) : Except ReadFault Float :=
  let (signed, negative, body) :=
    match t with
    | s :: rest =>
      if s = ascii '-' then (true, true, rest)
      else if s = ascii '+' then (true, false, rest)
      else (false, false, t)
    | [] => (false, false, t)
  let word := body.map Byte.lower
  if word = utf8 "inf" ∨ word = utf8 "infinity" then
    .ok (if negative then -(1.0 / 0.0) else 1.0 / 0.0)
  else if word = utf8 "nan" ∧ !signed then .ok (0.0 / 0.0)
  else readUnsigned negative body

end MixinCss.Decimal
