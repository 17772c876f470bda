/-
  MixinCss.Sheet.Render

  Expanded sheets as style sheet text. Numbers without a unit get one, unless
  the property takes plain numbers; nested rules are indented by tabs.
-/

import MixinCss.Sheet.Basic
import MixinCss.Sheet.Selector

namespace MixinCss

/-- The units put behind plain numbers. An empty one stands for the usual one. -/
structure Units where
  standard : Text
  lineHeight : Text
deriving DecidableEq, Repr, Inhabited

namespace Units

/-- Both units are the usual ones. -/
def usual : Units := ⟨[], []⟩

/-- Properties whose numbers stay plain. -/
def plainProperties : List String := [
  "opacity", "z-index", "font-weight", "flex", "flex-grow", "flex-shrink", "order", "zoom",
  "orphans", "widows", "fill-opacity", "stroke-opacity"]

/-- The unit of numbers in a property. -/
def ofProperty (u : Units) (property : Text) : Text :=
  if plainProperties.any fun p => utf8 p == property then []
  else if property = utf8 "line-height" then
    if u.lineHeight.isEmpty then utf8 "em" else u.lineHeight
  else if u.standard.isEmpty then utf8 "rem" else u.standard

end Units

namespace Value

/-- A value with `unit` behind its plain numbers. -/
def render (unit : Text) : Value → Text
  | .number _ num => Decimal.format num ++ unit
  | .list parts => Text.join [ascii ' '] (renderAll unit parts)
  | .word raw => raw
  | .blank => []
  | .string raw => raw
  | .dimension raw _ _ => raw
  | .variable raw => raw
where
  renderAll (unit : Text) : List Value → List Text
    | [] => []
    | v :: vs => v.render unit :: renderAll unit vs

end Value

namespace Node

/-- The selector of a rule as it is written inside of `parent`. At-rules keep
    theirs. -/
def writtenSelector (selector parent : Text) : Text :=
  if isAtSelector selector then selector else Selector.substitute selector parent

/-- The selector that `&` stands for inside of a rule: its own or, in an
    at-rule, the one outside. -/
def innerParent (selector parent : Text) : Text :=
  if isAtSelector selector then parent else Selector.substitute selector parent

def indent (depth : Nat) : Text := List.replicate depth (ascii '\t')

mutual

/-- A member of a rule at a depth. Only declarations and rules are written. -/
def render (u : Units) (parent : Text) (depth : Nat) : Node → Text
  | .declaration property value _ =>
    indent depth ++ property ++ utf8 ": " ++ value.render (u.ofProperty property) ++ utf8 ";\n"
  | .rule selector children _ =>
    indent depth ++ writtenSelector selector parent ++ utf8 " \x7b\n" ++
      renderAll u (innerParent selector parent) (depth + 1) children ++
      indent depth ++ utf8 "\x7d\n"
  | .call .. => []
  | .nothing => []
  | .foreign _ => []

def renderAll (u : Units) (parent : Text) (depth : Nat) : List Node → Text
  | [] => []
  | n :: rest => render u parent depth n ++ renderAll u parent depth rest

end

end Node

/-- A rule at the top of a sheet. -/
def Rule.render (u : Units) (r : Rule) : Text :=
  Node.writtenSelector r.selector [] ++ utf8 " \x7b\n" ++
    Node.renderAll u (Node.innerParent r.selector []) 1 r.children ++ utf8 "\x7d"

/-- The rules with a blank line between them. -/
def Sheet.render (u : Units) (sheet : Sheet) : Text :=
  Text.join (utf8 "\n\n") (sheet.map (Rule.render u))

end MixinCss
