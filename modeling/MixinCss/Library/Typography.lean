/-
  MixinCss.Library.Typography

  Mixins for text: fonts, alignment and lists.
-/

import MixinCss.Mixin.Basic

namespace MixinCss.Library

open Mixin

/-- The order of font properties given by position. -/
def fontKeys : List String :=
  ["font-family", "font-size", "font-weight", "line-height", "font-style"]

/-- Several font families are separated by commas. -/
def fontValue (property : String) (v : Value) : Value :=
  match v with
  | .list _ => if property = "font-family" then .word (v.joined (utf8 ", ")) else v
  | _ => v

/-- Font properties by keyword or by position. By position an empty value and
    zero leave their property out. -/
def font : Mixin := fun _ args => do
  atMost "font" fontKeys.length args
  match args with
  | .keywords pairs => return declareKeywords "font" ["lineHeight", "line-height"] pairs
  | .positional values =>
    (values.zipIdx.filter fun entry => entry.1.isTruthy).mapM fun (v, i) => do
      let property ← item fontKeys i
      return .declare (utf8 property) (fontValue property v)

/-- The configured weight of bold text. -/
def bold : Mixin := fun scope _ => declares "font-weight" (.word scope.vars.fontWeightBold)

def typography : List (String × Mixin) := [
  ("font", font),
  ("bold", bold),
  ("italic", constant "font-style" "italic"),
  ("align", property "text-align"),
  ("vAlign", property "vertical-align"),
  ("unstyled", constant "list-style" "none")]

end MixinCss.Library
