/-
  MixinCss.Library.Position

  Mixins that take an element out of the flow: positions with offsets, and
  floats.
-/

import MixinCss.Mixin.Basic

namespace MixinCss.Library

open Mixin

/-- The order of offsets given by position; the left one comes before the
    bottom one. -/
def offsetKeys : List String := ["top", "right", "left", "bottom"]

/-- `position` followed by the offsets. -/
def offsets (position : String) : Mixin := fun _ args => do
  atMost position offsetKeys.length args
  let sides :=
    match args with
    | .keywords pairs => declareKeywords "" [] pairs
    | .positional values => declareInOrder offsetKeys values
  return .declare (utf8 "position") (word position) :: sides

/-- Floats to a side or, given a value, moves away from it. -/
def floatOrOffset (side : String) : Mixin := fun _ args =>
  let v := args.pick 0 (utf8 "value")
  if v.isAbsent then declares "float" (word side) else declares side v

def position : List (String × Mixin) := [
  ("absolute", offsets "absolute"),
  ("fixed", offsets "fixed"),
  ("left", floatOrOffset "left"),
  ("right", floatOrOffset "right")]

end MixinCss.Library
