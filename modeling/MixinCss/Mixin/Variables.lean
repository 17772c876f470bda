/-
  MixinCss.Mixin.Variables

  The design settings from which the mixins of the library take their
  defaults.
-/

import MixinCss.Value.Numeric

namespace MixinCss

/-- The settings a style sheet is built with. -/
structure Variables where
  fontWeightBold : Text
  borderColor : Text
  gridColumns : Float
  /-- A percentage. -/
  gridMargin : Text
  /-- A number without a unit gets `unit`. -/
  blockMarginBottom : Text
  unit : Text
deriving Repr, Inhabited

namespace Variables

/-- The settings that hold unless others are given. -/
def standard : Variables where
  fontWeightBold := utf8 "bold"
  borderColor := utf8 "#d2d2d2"
  gridColumns := 12.0
  gridMargin := utf8 "5%"
  blockMarginBottom := utf8 "1"
  unit := utf8 "rem"

/-- Nothing is set. -/
def empty : Variables := ⟨[], [], 0.0, [], [], []⟩

/-- `t`, or `fallback` if it is empty. -/
def textOr (t fallback : Text) : Text := if t.isEmpty then fallback else t

/-- The settings of `v`, with those that are empty or zero taken from
    `fallback`. -/
def merge (v fallback : Variables) : Variables where
  fontWeightBold := textOr v.fontWeightBold fallback.fontWeightBold
  borderColor := textOr v.borderColor fallback.borderColor
  gridColumns := if v.gridColumns == 0.0 then fallback.gridColumns else v.gridColumns
  gridMargin := textOr v.gridMargin fallback.gridMargin
  blockMarginBottom := textOr v.blockMarginBottom fallback.blockMarginBottom
  unit := textOr v.unit fallback.unit

/-- A setting as a value: a number if it reads as one, else a word. -/
def settingValue (t : Text) : Value :=
  match Decimal.read t with
  | .ok f => .ofNumber f
  | .error _ => .word t

end Variables

end MixinCss
