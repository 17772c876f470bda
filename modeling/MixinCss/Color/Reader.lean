/-
  MixinCss.Color.Reader

  Color text read as a color: names, hexadecimal digits with or without `#`,
  and the functions `rgb`, `hsl`, `hwb`, `hsv`, `oklab`, `oklch`, `lab` and
  `lch`. White space around the text and the case of letters do not matter.
-/

import MixinCss.Color.Named
import MixinCss.Color.Space
import MixinCss.Decimal.Reader
import MixinCss.Text.Space

namespace MixinCss

namespace Text

/-- Small letters for capitals. Two letters outside ASCII have a small form
    inside it: the dotted capital I and the Kelvin sign. Other letters do not
    matter to the names of colors and stay. -/
def lowered (t : Text) : Text :=
  t.runes.flatMap fun r =>
    if r.code = 0x130 then [ascii 'i']
    else if r.code = 0x212A then [ascii 'k']
    else r.bytes.map Byte.lower

/-- The runs of bytes between separators. -/
def fields (isSeparator : UInt8 → Bool) (t : Text) : List Text :=
  (split (ascii ',') (t.map fun b => if isSeparator b then ascii ',' else b)).filter
    fun part => !part.isEmpty

end Text

namespace Color

/-- Why a text is not a color. -/
inductive Fault where
  /-- `#` is not followed by 3, 4, 6 or 8 hexadecimal digits. -/
  | hexDigits (input : Text)
  /-- A function has neither three nor four parameters, or a bad opacity. -/
  | parameters
  /-- A parameter of a function is not of the kind it must be. -/
  | components (name input : Text)
  /-- A parameter of `lab` or `lch` is not of the kind it must be. -/
  | call (name : Text)
  | unrecognized (input : Text)
deriving DecidableEq, Repr

def Fault.message : Fault → Text
  | .hexDigits input => utf8 "Invalid hex color, " ++ input
  | .parameters => utf8 "Invalid format"
  | .components name input =>
    utf8 "Wrong " ++ name ++ utf8 "() components, " ++ input
  | .call name => utf8 "Invalid " ++ name ++ utf8 "()"
  | .unrecognized input => utf8 "Invalid color format, " ++ input

/-! ## Parameters -/

/-- A parameter as a number. -/
def plain? (t : Text) : Option Float := (Decimal.read t.trim).toOption

/-- A parameter that is a number or a percentage. A percentage stands for its
    hundredth part. -/
inductive Parameter where
  | plain (x : Float)
  | percent (x : Float)

namespace Parameter

def read? (t : Text) : Option Parameter :=
  if t.endsWith [ascii '%'] then (plain? (t.dropTail [ascii '%'])).map fun x => percent (x / 100.0)
  else (plain? t).map plain

def value : Parameter → Float
  | plain x => x
  | percent x => x

/-- The value, with `f` applied to a percentage. -/
def scaled (f : Float → Float) : Parameter → Float
  | plain x => x
  | percent x => f x

/-- A channel of `rgb`: a percentage or a step out of 256. -/
def channel : Parameter → Float
  | plain x => Decimal.clampUnit (x / 255.0)
  | percent x => Decimal.clampUnit x

end Parameter

/-- An angle in degrees. -/
def angle? (t : Text) : Option Float :=
  let without (unit : String) := plain? (t.dropTail (utf8 unit))
  if t.endsWith (utf8 "deg") then without "deg"
  else if t.endsWith (utf8 "grad") then (without "grad").map fun x => x / 400.0 * 360.0
  else if t.endsWith (utf8 "rad") then (without "rad").map fun x => x / 3.141592653589793 * 180.0
  else if t.endsWith (utf8 "turn") then (without "turn").map fun x => x * 360.0
  else plain? t

/-- `t` carried from the range `[-1, 1]` to `[-bound, bound]`. -/
def spread (bound t : Float) : Float :=
  (t - -1.0) * ((bound - -bound) / (1.0 - -1.0)) + -bound

/-! ## Notations -/

/-- A color by 3, 4, 6 or 8 hexadecimal digits; the opacity is left out. -/
def ofHex? (t : Text) : Option Rgb :=
  if !t.all Byte.isHexDigit then none
  else
    match t.map Byte.digitValue with
    | [r, g, b] => some (.ofBytes (17 * r) (17 * g) (17 * b))
    | [r, g, b, _] => some (.ofBytes (17 * r) (17 * g) (17 * b))
    | [r, r', g, g', b, b'] => some (.ofBytes (16 * r + r') (16 * g + g') (16 * b + b'))
    | [r, r', g, g', b, b', _, _] => some (.ofBytes (16 * r + r') (16 * g + g') (16 * b + b'))
    | _ => none

/-- The color that a function gives for its three parameters, or why there is
    none; nothing if no function has that name. -/
def ofFunction? (name x y z input : Text) : Option (Except Fault Rgb) :=
  let is (names : List String) := names.any fun n => utf8 n == name
  let wrong (function : Text) : Except Fault Rgb := .error (.components function input)
  let byHue (convert : Float → Float → Float → Rgb) (function : Text) : Except Fault Rgb :=
    match angle? x, Parameter.read? y, Parameter.read? z with
    | some h, some p, some q => .ok (convert h p.value q.value)
    | _, _, _ => wrong function
  let parameters := (Parameter.read? x, Parameter.read? y, Parameter.read? z)
  if is ["rgb", "rgba"] then
    match parameters with
    | (some r, some g, some b) => some (.ok ⟨r.channel, g.channel, b.channel⟩)
    | _ => some (wrong name)
  else if is ["hsl", "hsla"] then some (byHue ofHsl name)
  else if is ["hwb", "hwba"] then some (byHue ofHwb (utf8 "hwb"))
  else if is ["hsv", "hsva"] then some (byHue ofHsv (utf8 "hsv"))
  else if is ["oklab"] then
    match parameters with
    | (some l, some a, some b) =>
      some (.ok (ofOklab l.value (a.scaled (spread 0.4)) (b.scaled (spread 0.4))))
    | _ => some (wrong name)
  else if is ["oklch"] then
    match Parameter.read? x, Parameter.read? y, angle? z with
    | some l, some c, some h =>
      let (a, b) := polar (c.scaled (· * 0.4)) h
      some (.ok (ofOklab l.value a b))
    | _, _, _ => some (wrong name)
  else if is ["lab"] then
    match parameters with
    | (some l, some a, some b) =>
      some (.ok (ofLab (l.scaled (· * 100.0)) (a.scaled (spread 125.0)) (b.scaled (spread 125.0))))
    | _ => some (.error (.call name))
  else if is ["lch"] then
    match Parameter.read? x, Parameter.read? y, angle? z with
    | some l, some c, some h =>
      let (a, b) := polar (c.scaled (· * 150.0)) h
      some (.ok (ofLab (l.scaled (· * 100.0)) a b))
    | _, _, _ => some (.error (.call name))
  else none

/-- Text without a name or a function: bare hexadecimal digits. -/
def ofBareHex (t input : Text) : Except Fault Rgb :=
  match ofHex? t with
  | some c => .ok c
  | none => .error (.unrecognized input)

/-- Parameters are separated by commas, slashes and spaces. -/
def isSeparator (b : UInt8) : Bool := b == ascii ',' || b == ascii '/' || b == ascii ' '

/-- The color of a call `name(inner)`. A fourth parameter is the opacity; it
    must be a number or a percentage and has no effect on the channels. -/
def ofCall (name inner input : Text) : Except Fault Rgb :=
  match Text.fields isSeparator inner with
  | [x, y, z] => (ofFunction? name x y z input).getD (ofBareHex inner input)
  | [x, y, z, w] =>
    if (Parameter.read? w).isNone then .error .parameters
    else (ofFunction? name x y z input).getD (ofBareHex inner input)
  | _ => .error .parameters

/-- Reads a color. -/
def read (input : Text) : Except Fault Rgb :=
  let t := input.lowered.trim
  if t = utf8 "transparent" then .ok (.gray 0.0)
  else
    match named? t with
    | some c => .ok c
    | none =>
      if t.startsWith [ascii '#'] then
        match ofHex? (t.drop 1) with
        | some c => .ok c
        | none => .error (.hexDigits input)
      else
        let name := t.takeWhile (· != ascii '(')
        match t.dropWhile (· != ascii '(') with
        | _ :: rest =>
          if t.endsWith [ascii ')'] then
            ofCall (Text.trim name) (Text.dropTail rest [ascii ')']) input
          else ofBareHex t input
        | [] => ofBareHex t input

/-! ## Recognition -/

/-- Whether `t` holds small letters only and not just hexadecimal digits, so
    that `fade` is a word and not a color. -/
def isNameLike (t : Text) : Bool := t.all Byte.isLower && t.any fun b => ascii 'f' < b

/-- Whether a word of a style sheet is a color: by `#`, by one of the usual
    functions, or by name. -/
def isColor (word : Text) : Bool :=
  let t := word.lowered.trim
  (t.startsWith [ascii '#'] ||
    ["rgb(", "rgba(", "hsl(", "hsla(", "hwb("].any (fun f => t.startsWith (utf8 f)) ||
    isNameLike t) &&
  (read t).isOk

end Color

end MixinCss
