/-
  MixinCss.Color.Shade

  Colors written out and shaded. A color is made lighter or darker by moving
  its lightness in the `hsl` sense by percentage points.
-/

import MixinCss.Color.Reader
import MixinCss.Text.Quoted
import MixinCss.Value.Numeric

namespace MixinCss.Color

/-- A text that had to be a color and is none. -/
structure Refusal where
  color : Text
  fault : Fault
deriving DecidableEq, Repr

def Refusal.message (r : Refusal) : Text :=
  utf8 "invalid color " ++ r.color.quoted ++ utf8 ": " ++ r.fault.message

/-- Reads a color or says which text is none. -/
def demand (color : Text) : Except Refusal Rgb :=
  match read color.trim with
  | .ok c => .ok c
  | .error fault => .error ⟨color, fault⟩

/-! ## Lightness -/

/-- Hue in degrees, saturation and lightness of a color. -/
structure Hsl where
  hue : Float
  saturation : Float
  lightness : Float
deriving Repr, Inhabited

namespace Hsl

open Decimal (clampUnit lesser greater)

def ofRgb (c : Rgb) : Hsl :=
  let least := lesser (lesser c.red c.green) c.blue
  let most := greater (greater c.red c.green) c.blue
  let l := (most + least) / 2.0
  if least == most then ⟨0.0, 0.0, l⟩
  else
    let width := most - least
    let s := if l < 0.5 then width / (most + least) else width / (2.0 - most - least)
    let sixths :=
      if most == c.red then (c.green - c.blue) / width
      else if most == c.green then 2.0 + (c.blue - c.red) / width
      else 4.0 + (c.red - c.green) / width
    let h := sixths * 60.0
    ⟨if h < 0.0 then h + 360.0 else h, s, l⟩

/-- A share of a turn brought back into the range from zero to one. -/
def wrap (t : Float) : Float :=
  let t := if t < 0.0 then t + 1.0 else t
  if t > 1.0 then t - 1.0 else t

/-- One channel at the share `t` of a turn, between a low and a high value. -/
def channel (low high t : Float) : Float :=
  if 6.0 * t < 1.0 then low + (high - low) * 6.0 * t
  else if 2.0 * t < 1.0 then high
  else if 3.0 * t < 2.0 then low + (high - low) * (2.0 / 3.0 - t) * 6.0
  else low

def toRgb (c : Hsl) : Rgb :=
  let l := c.lightness
  if c.saturation == 0.0 then .gray l
  else
    let high :=
      if l < 0.5 then l * (1.0 + c.saturation) else l + c.saturation - l * c.saturation
    let low := 2.0 * l - high
    let h := c.hue / 360.0
    ⟨channel low high (wrap (h + 1.0 / 3.0)), channel low high (wrap h),
      channel low high (wrap (h - 1.0 / 3.0))⟩

/-- The color with its lightness moved by percentage points. -/
def shifted (c : Hsl) (points : Float) : Hsl :=
  { c with lightness := clampUnit (c.lightness + points / 100.0) }

end Hsl

/-! ## Written colors -/

/-- `rgb(r, g, b)` -/
def rgb (color : Text) : Except Refusal Text :=
  (demand color).map fun c => utf8 "rgb(" ++ c.steps ++ utf8 ")"

/-- `rgba(r, g, b, a)`, with the opacity brought into the range from zero to
    one. -/
def rgba (color : Text) (opacity : Float) : Except Refusal Text :=
  (demand color).map fun c =>
    utf8 "rgba(" ++ c.steps ++ utf8 ", " ++ (Value.ofNumber opacity).opacity.text ++ utf8 ")"

/-- The color made lighter by percentage points, as `#rrggbb`. -/
def lighten (color : Text) (points : Float) : Except Refusal Text :=
  (demand color).map fun c => ((Hsl.ofRgb c).shifted points).toRgb.hex

/-- The color made darker by percentage points, as `#rrggbb`. -/
def darken (color : Text) (points : Float) : Except Refusal Text := lighten color (-points)

end MixinCss.Color

/-- Whether a value is a color. Only words are, never a reference or a quoted
    string. -/
def MixinCss.Value.isColor : Value → Bool
  | .word raw => Color.isColor raw
  | _ => false
