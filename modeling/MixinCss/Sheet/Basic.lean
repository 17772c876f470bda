/-
  MixinCss.Sheet.Basic

  The tree of a style sheet. A rule holds declarations, nested rules and calls
  of mixins; calls are gone once the sheet has been expanded.
-/

import MixinCss.Value.Args

namespace MixinCss

/-- A place in a source. Lines and columns count from one, the offset counts
    bytes from zero. Nodes made by mixins have the place `Pos.unknown`. -/
structure Pos where
  offset : Nat
  line : Nat
  column : Nat
deriving DecidableEq, Repr, Inhabited

namespace Pos

def unknown : Pos := ⟨0, 0, 0⟩

/-- Whether the place is one in a source. -/
def isKnown (p : Pos) : Bool := 0 < p.line

/-- `line:column` -/
def text (p : Pos) : Text := Text.ofNat p.line ++ [ascii ':'] ++ Text.ofNat p.column

/-- `t` with the place in front of it, if it is known. -/
def label (p : Pos) (t : Text) : Text :=
  if p.isKnown then p.text ++ utf8 ": " ++ t else t

end Pos

/-- A member of a rule. Mixins written by others may also return `nothing`,
    which is skipped, or a member of a `foreign` kind, which is refused. -/
inductive Node where
  /-- `property: value` -/
  | declaration (property : Text) (value : Value) (pos : Pos)
  /-- `selector { children }`; the selector may refer to its parent by `&`. -/
  | rule (selector : Text) (children : List Node) (pos : Pos)
  /-- `name(args)`; a call made by a mixin may leave the arguments out. -/
  | call (name : Text) (args : Option Args) (pos : Pos)
  | nothing
  | foreign (kind : Text)
deriving Repr, Inhabited

/-- A rule at the top of a sheet. -/
structure Rule where
  selector : Text
  children : List Node
  pos : Pos
deriving Repr, Inhabited

/-- A style sheet is a list of rules. -/
abbrev Sheet := List Rule

namespace Node

/-- A declaration made by a mixin. -/
def declare (property : Text) (value : Value) : Node := .declaration property value .unknown

end Node

/-- Selectors of at-rules such as `@media` begin with `@`. They do not take
    part in the replacement of `&`. -/
def isAtSelector : Text → Bool
  | b :: _ => b == ascii '@'
  | [] => false

def Rule.node (r : Rule) : Node := .rule r.selector r.children r.pos

end MixinCss
