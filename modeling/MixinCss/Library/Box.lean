/-
  MixinCss.Library.Box

  Mixins for the box of an element: blocks, margins and sizes.
-/

import MixinCss.Mixin.Basic

namespace MixinCss.Library

open Mixin

/-- Width and height by position, or what the keywords name. A height of zero is
    left out. -/
def sizes (args : Args) : Expansion :=
  match args with
  | .keywords pairs => .ok (declareKeywords "" [] pairs)
  | .positional [] => .ok []
  | .positional (width :: rest) => do
    if !(rest.head?.getD .absent).isTruthy then return [.declare (utf8 "width") width]
    let height ← item (width :: rest) 1
    return [.declare (utf8 "width") width, .declare (utf8 "height") height]

/-- `display` followed by width and height. -/
def sized (display : String) : Mixin := fun scope args => do
  let shown ← scope.call (utf8 "display") (.positional [word display])
  return shown ++ (← sizes args)

/-- A block with automatic margins at its sides. -/
def centeredBlock : Mixin := fun scope args => do
  let block ← scope.call (utf8 "block") args
  let margins ← scope.call (utf8 "margin")
    (.keywords [⟨utf8 "left", word "auto"⟩, ⟨utf8 "right", word "auto"⟩])
  return block ++ margins

/-- The order of margins given by position. -/
def marginKeys : List String := ["margin-top", "margin-right", "margin-left", "margin-bottom"]

/-- Margins by keyword, by position, or all by one value. -/
def margin : Mixin := fun _ args => do
  atMost "margin" marginKeys.length args
  match args with
  | .keywords pairs => return declareKeywords "margin" [] pairs
  | .positional [] => return []
  | .positional [v] => declares "margin" v
  | .positional values => return declareInOrder marginKeys values

/-- A bottom margin, by default the configured one. Numbers get the configured
    unit; keywords are not looked at. -/
def spaced : Mixin := fun scope args =>
  let given :=
    match args with
    | .positional (v :: _) => v
    | _ => .absent
  let v := if given.isAbsent then Variables.settingValue scope.vars.blockMarginBottom else given
  scope.call (utf8 "margin") (.keywords [⟨utf8 "bottom", v.withUnit scope.vars.unit⟩])

/-- The values behind the first one. -/
def others (values : List Value) : Except MixinFailure (List Value) :=
  if 1 < values.length then itemsFrom values 1 else .ok []

/-- A bottom margin and a block. By position the first argument is the margin
    and the others belong to the block. -/
def spacedBlock : Mixin := fun scope args => do
  let margins ← scope.call (utf8 "spaced") args
  match args with
  | .keywords pairs =>
    let block ← scope.call (utf8 "block") .none
    return margins ++ declareKeywords "" [] pairs ++ block
  | .positional values =>
    let block ← scope.call (utf8 "block") (.positional (← others values))
    return margins ++ block

/-- Width and height; the height is the width unless it is given. -/
def extent (width height : String) : Mixin := fun _ args =>
  let w := args.pick 0 (utf8 "width")
  let h := args.pick 1 (utf8 "height")
  if w.isAbsent then .error (.missing (utf8 width))
  else
    .ok [.declare (utf8 width) w, .declare (utf8 height) (if h.isTruthy then h else w)]

def box : List (String × Mixin) := [
  ("block", sized "block"),
  ("inlineBlock", sized "inline-block"),
  ("centeredBlock", centeredBlock),
  ("margin", margin),
  ("spaced", spaced),
  ("spacedBlock", spacedBlock),
  ("size", extent "width" "height"),
  ("minSize", extent "min-width" "min-height")]

end MixinCss.Library
