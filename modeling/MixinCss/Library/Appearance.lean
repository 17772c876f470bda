/-
  MixinCss.Library.Appearance

  Mixins for whether an element is seen and how: display, visibility and
  opacity, backgrounds, borders and shades of a color.
-/

import MixinCss.Mixin.Basic

namespace MixinCss.Library

open Mixin

/-! ## Colors -/

/-- The number of percentage points by which a color is shaded. -/
def shadeAmount (amount : Value) : Except MixinFailure Float :=
  if amount.isAbsent then .ok 10.0
  else
    match (Value.word (amount.text.dropTail [ascii '%'])).number? with
    | some n => .ok n
    | none => .error (.amountNotNumber amount.text)

/-- Declares a shade of a color as the color. -/
def shade (transform : Text → Float → Except Color.Refusal Text) : Mixin := fun _ args => do
  let color := args.pick 0 (utf8 "color")
  if color.isAbsent then throw (.missing (utf8 "color"))
  let amount ← shadeAmount (args.pick 1 (utf8 "amount"))
  match transform color.text amount with
  | .ok result => declares "color" (.word result)
  | .error refusal => throw (.notColor refusal)

/-- The parts of the shorthand of a background. A number behind a color is its
    opacity. -/
def backgroundParts (v : Value) (rest : List Value) : Except MixinFailure (List Text) :=
  match if v.isColor then (rest.head?.getD .absent).number? else none with
  | none => .ok (v.text :: rest.map Value.text)
  | some opacity =>
    match Color.rgba v.raw opacity with
    | .error refusal => .error (.notColor refusal)
    | .ok color => do
      let behind ← itemsFrom (v :: rest) 2
      return color :: behind.map Value.text

def background : Mixin := fun _ args => do
  match args with
  | .keywords pairs => return declareKeywords "background" [] pairs
  | .positional [] => return []
  | .positional (v :: rest) =>
    if !v.isTruthy then return []
    let parts ← backgroundParts v rest
    declares "background" (.word (Text.join [ascii ' '] parts))

/-! ## Borders -/

/-- The borders that a word names. -/
def sidesOf? (side : Text) : Option (List String) :=
  let sides : List (String × List String) := [
    ("top", ["border-top"]),
    ("right", ["border-right"]),
    ("bottom", ["border-bottom"]),
    ("left", ["border-left"]),
    ("vertical", ["border-left", "border-right"]),
    ("horizontal", ["border-top", "border-bottom"])]
  (sides.find? fun entry => utf8 entry.1 == side).map Prod.snd

/-- A thin line of a color. -/
def line (color : Text) : Value := .word (utf8 "1px solid " ++ color)

/-- A color stands for a thin line of it. -/
def lineOf (v : Value) : Value := if v.isColor then line v.raw else v

/-- The same value for several properties. -/
def declareAll (properties : List String) (v : Value) : List Node :=
  properties.map fun p => .declare (utf8 p) v

/-- Borders on all sides or on those named first. -/
def border : Mixin := fun scope args => do
  atMost "border" 2 args
  let standard := line scope.vars.borderColor
  match args with
  | .keywords pairs => return declareKeywords "border" [] pairs
  | .positional [] => declares "border" standard
  | .positional [v] =>
    match sidesOf? v.text with
    | some sides => return declareAll sides standard
    | none =>
      if v.text = utf8 "0" ∨ v.text = utf8 "none" then declares "border" (word "none")
      else declares "border" (lineOf v)
  | .positional (side :: v :: _) =>
    match sidesOf? side.text with
    | some sides => return declareAll sides (lineOf v)
    | none => return [.declare (Text.underHead (utf8 "border") [] side.text) (lineOf v)]

/-! ## Opacity -/

def opacity : Mixin := fun _ args =>
  let v := args.pick 0 (utf8 "value")
  if v.isAbsent then .error (.missing (utf8 "opacity")) else declares "opacity" v.opacity

def appearance : List (String × Mixin) := [
  ("display", property "display"),
  ("inline", forward "display" (word "inline")),
  ("hide", forward "display" (word "none")),
  ("show", forward "display" (word "inherit")),
  ("visibility", property "visibility"),
  ("hidden", forward "visibility" (word "hidden")),
  ("visible", forward "visibility" (word "visible")),
  ("color", property "color"),
  ("lighten", shade Color.lighten),
  ("darken", shade Color.darken),
  ("background", background),
  ("border", border),
  ("opacity", opacity),
  ("opaque", forward "opacity" (.ofNumber 1.0)),
  ("transparent", forward "opacity" (.ofNumber 0.0))]

end MixinCss.Library
