/-
  MixinCss.Color.Space

  The other ways to name a color by three numbers, each with its conversion to
  channels: by hue (`hsl`, `hwb`, `hsv`) and by perceived lightness (`oklab`,
  `lab`, and their polar forms).
-/

import MixinCss.Color.Basic

namespace MixinCss.Color

open Decimal (clampUnit greater)

/-! ## By hue -/

/-- An angle in degrees brought into the range from 0 to 360. -/
def turned (degrees : Float) : Float :=
  let h := Decimal.Binary.remainder degrees 360.0
  if h < 0.0 then h + 360.0 else h

/-- One channel of a hue in sixths of a turn, between a low and a high value. -/
def hueChannel (low high sixths : Float) : Float :=
  let h := Decimal.Binary.remainder (Decimal.Binary.remainder sixths 6.0 + 6.0) 6.0
  clampUnit <|
    if h < 1.0 then low + ((high - low) * h)
    else if h < 3.0 then high
    else if h < 4.0 then low + ((high - low) * (4.0 - h))
    else low

/-- Hue in degrees, saturation and lightness, the last two brought into the
    range from zero to one first. -/
def ofHsl (hue saturation lightness : Float) : Rgb :=
  let s := clampUnit saturation
  let l := clampUnit lightness
  if s == 0.0 then .gray l
  else
    let high := if l < 0.5 then l * (1.0 + s) else l + s - (l * s)
    let low := 2.0 * l - high
    let h := turned hue / 60.0
    ⟨hueChannel low high (h + 2.0), hueChannel low high h, hueChannel low high (h - 2.0)⟩

/-- Hue in degrees, whiteness and blackness. Both shares are brought into the
    range from zero to one first; if together they leave no room for the hue,
    the color is a gray in their proportion. -/
def ofHwb (hue whiteness blackness : Float) : Rgb :=
  let white := clampUnit whiteness
  let black := clampUnit blackness
  if white + black >= 1.0 then .gray (white / (white + black))
  else (ofHsl hue 1.0 0.5).map fun x => x * (1.0 - white - black) + white

/-- Hue in degrees, saturation and value, the last two brought into the range
    from zero to one first. -/
def ofHsv (hue saturation value : Float) : Rgb :=
  let sv := clampUnit saturation
  let v := clampUnit value
  let l := (2.0 - sv) * v / 2.0
  let s :=
    if l == 0.0 then sv
    else if l == 1.0 then 0.0
    else if l < 0.5 then sv * v / (l * 2.0)
    else sv * v / (2.0 - l * 2.0)
  ofHsl hue s l

/-! ## By perceived lightness -/

/-- The transfer curve from light intensity to a channel. -/
def ofLinear (x : Float) : Float :=
  if x >= 0.0031308 then 1.055 * Float.exp ((5.0 / 12.0) * Float.log x) - 0.055 else 12.92 * x

def cube (x : Float) : Float := x * (x * x)

/-- Chroma and hue in degrees as the two opponent coordinates. -/
def polar (chroma hue : Float) : Float × Float :=
  let c := greater chroma 0.0
  let h := hue * 3.141592653589793 / 180.0
  (c * Float.cos h, c * Float.sin h)

/-- Lightness, green–red and blue–yellow of the Oklab space. -/
def ofOklab (lightness a b : Float) : Rgb :=
  let light := greater lightness 0.0
  let l := cube (light + 0.3963377774 * a + 0.2158037573 * b)
  let m := cube (light - 0.1055613458 * a - 0.0638541728 * b)
  let s := cube (light - 0.0894841775 * a - 1.2914855480 * b)
  Rgb.map ofLinear
    ⟨4.0767416621 * l - 3.3077115913 * m + 0.2309699292 * s,
      -1.2684380046 * l + 2.6097574011 * m - 0.3413193965 * s,
      -0.0041960863 * l - 0.7034186147 * m + 1.7076147010 * s⟩

/-- The slope of the lightness scale near black. -/
def labSlope : Float := 24389.0 / 27.0

/-- The share of the white point that a coordinate of the Lab space stands for. -/
def labShare (f : Float) : Float :=
  if cube f > 216.0 / 24389.0 then cube f else (116.0 * f - 16.0) / labSlope

/-- Lightness, green–red and blue–yellow of the Lab space. -/
def ofLab (lightness a b : Float) : Rgb :=
  let l := greater lightness 0.0
  let fy := (l + 16.0) / 116.0
  let x := 0.95047 * labShare (fy + a / 500.0)
  let y := if l > 8.0 then cube fy else l / labSlope
  let z := 1.08883 * labShare (fy - b / 200.0)
  Rgb.map (fun c => ofLinear (clampUnit c))
    ⟨3.2404537 * x - 1.537177 * y - 0.498531 * z,
      -0.969266 * x + 1.876010 * y + 0.041556 * z,
      0.055643 * x - 0.204025 * y + 1.057225 * z⟩

end MixinCss.Color
