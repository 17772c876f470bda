/-
  MixinCss.Library.Columns

  Mixins for layouts of rows and columns. A column is a share of the columns of
  the grid; a row is pulled out by the margin of its first column.
-/

import MixinCss.Mixin.Basic

namespace MixinCss.Library

open Mixin

/-! ## Columns -/

/-- A column as it is asked for. A spaced one has a gutter on its left. -/
structure Column where
  span : Value
  columns : Value
  gutter : Option Value

/-- The arguments of `column`: either the width itself or a column of the grid.

    * `column()` has the whole width, `column(25%)` a quarter;
    * `column(3)` spans three columns, `column(3, 16)` three of sixteen;
    * `column(spaced, 3, 12, 2%)` has a gutter of two percent. -/
def Column.ofArgs (args : Args) : Except MixinFailure (Value ⊕ Column) :=
  let noSpan : Except MixinFailure (Value ⊕ Column) := .error (.missing (utf8 "column span"))
  match args with
  | .keywords pairs =>
    let get (key : String) := (Args.find? pairs (utf8 key)).getD .absent
    let flag := get "spaced"
    let isSpaced := flag.isTruthy && flag.text != utf8 "false"
    if (get "span").isAbsent then noSpan
    else
      .ok (.inr ⟨get "span", get "columns", if isSpaced then some (get "margin") else none⟩)
  | .positional [] => .ok (.inl (word "100%"))
  | .positional (v :: rest) =>
    let get (i : Nat) : Value := rest[i]?.getD .absent
    if v.isPercentage then .ok (.inl v)
    else if v.text = utf8 "spaced" then
      if (get 0).isAbsent then noSpan else .ok (.inr ⟨get 0, get 1, some (get 2)⟩)
    else .ok (.inr ⟨v, get 0, none⟩)

/-- The share of the grid that a column has, as a percentage. -/
def Column.width (c : Column) (gridColumns : Float) : Except MixinFailure Value := do
  let span ←
    match c.span.number? with
    | some n => pure n
    | none => throw (.spanNotNumber c.span.text)
  let total ←
    if c.columns.isAbsent then pure gridColumns
    else
      match c.columns.number? with
      | some n => pure n
      | none => throw (.columnsNotNumber c.columns.text)
  if total == 0.0 then throw .noColumns
  return .word (Decimal.format (100.0 / total * span) ++ [ascii '%'])

def floated (width : Value) : List Node :=
  [.declare (utf8 "float") (word "left"), .declare (utf8 "width") width]

def column : Mixin := fun scope args => do
  match ← Column.ofArgs args with
  | .inl width => return floated width
  | .inr c =>
    let width ← c.width scope.vars.gridColumns
    match c.gutter with
    | none => return floated width
    | some gutter =>
      let gutter := if gutter.isAbsent then .word scope.vars.gridMargin else gutter
      let left ← scope.call (utf8 "margin") (.keywords [⟨utf8 "left", gutter⟩])
      return floated width ++ left

/-! ## Rows -/

/-- The sign and the digits with which a text begins. -/
def leadingInteger : Text → Text
  | [] => []
  | b :: rest =>
    if b = ascii '-' || b = ascii '+' then b :: rest.takeWhile Byte.isDigit
    else (b :: rest).takeWhile Byte.isDigit

/-- The integer that a sign and digits spell, if it fits into 64 bits. -/
def integer64? (t : Text) : Option Int64 :=
  let negative := t.head? = some (ascii '-')
  let digits := if negative || t.head? = some (ascii '+') then t.drop 1 else t
  if digits.isEmpty || !digits.all Byte.isDigit then none
  else
    let n : Int := if negative then -(Text.toNat digits : Int) else Text.toNat digits
    if Decimal.fitsInt64 n then some (Int64.ofInt n) else none

/-- The whole part of the margin of a row, by default that of the grid. -/
def rowMargin (vars : Variables) (args : Args) : Except MixinFailure Int64 :=
  let given := args.pick 0 (utf8 "margin")
  let v := if given.isTruthy then given else .word vars.gridMargin
  match integer64? (leadingInteger (v.text.dropTail [ascii '%'])) with
  | some m => .ok m
  | none => .error (.marginNotNumber v.text)

/-- An integer as a percentage. -/
def percent (n : Int64) : Value := .word (Text.ofInt n.toInt ++ [ascii '%'])

/-- Pulls a row out by its margin. The arithmetic is that of 64-bit integers. -/
def rowModify : Mixin := fun scope args => do
  let m ← rowMargin scope.vars args
  let left ← scope.call (utf8 "margin") (.keywords [⟨utf8 "left", percent (-m)⟩])
  return left ++ [.declare (utf8 "max-width") (percent (100 + m))]

/-- A row that ends the floats of its columns. -/
def row : Mixin := fun scope args => do
  let offsets ← rowModify scope args
  let fix ← scope.call (utf8 "clearfix") .none
  return offsets ++ fix

/-- Undoes the offsets of a row. -/
def rowReset : Mixin := fun scope _ => do
  let left ← scope.call (utf8 "margin") (.keywords [⟨utf8 "left", word "0"⟩])
  return left ++ [.declare (utf8 "max-width") (word "none")]

/-! ## Clearing -/

/-- A rule behind the element that ends its floats. -/
def clearfix : Mixin := fun scope _ => do
  let clear ← scope.call (utf8 "clear") .none
  let content ← scope.call (utf8 "content") .none
  let display ← scope.call (utf8 "display") (.positional [word "block"])
  return [.rule (utf8 "&:after") (clear ++ content ++ display) .unknown]

/-- Empty content. -/
def content : Mixin := fun _ _ => declares "content" (.string (utf8 "''"))

def columns : List (String × Mixin) := [
  ("column", column),
  ("row", row),
  ("rowModify", rowModify),
  ("rowReset", rowReset),
  ("clear", propertyOr "clear" "both"),
  ("clearfix", clearfix),
  ("content", content)]

end MixinCss.Library
