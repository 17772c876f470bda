/-
  MixinCss.Value.Basic

  Values: what a declaration sets a property to and what a mixin receives as an
  argument.
-/

import MixinCss.Decimal.Layout

namespace MixinCss

/-- A scalar value or a group of values. `raw` keeps the text of the source. -/
inductive Value where
  /-- A keyword, a colour or any other run of text. -/
  | word (raw : Text)
  /-- A word without text that nevertheless counts as given. -/
  | blank
  /-- A quoted string, quotes included. -/
  | string (raw : Text)
  /-- A number without a unit. -/
  | number (raw : Text) (num : Float)
  /-- A number with a unit or a percent sign. -/
  | dimension (raw : Text) (num : Float) (unit : Text)
  /-- A reference such as `$margin` or `@gutter`, never looked into. -/
  | variable (raw : Text)
  /-- Values separated by white space. -/
  | list (parts : List Value)
deriving Repr, Inhabited

/-- The classes of values by name. -/
inductive ValueKind where
  | word
  | string
  | number
  | dimension
  | variable
  | list
deriving DecidableEq, Repr

namespace ValueKind

/-- All kinds in their numbering. -/
def all : List ValueKind := [.word, .string, .number, .dimension, .variable, .list]

def name : ValueKind → Text
  | .word => utf8 "word"
  | .string => utf8 "string"
  | .number => utf8 "number"
  | .dimension => utf8 "dimension"
  | .variable => utf8 "variable"
  | .list => utf8 "list"

/-- The name of the `n`-th kind; numbers beyond the last kind have none. -/
def nameAt (n : Nat) : Text :=
  match all[n]? with
  | some k => k.name
  | none => utf8 "unknown"

end ValueKind

namespace Value

/-- The value of an argument that was not given. -/
def absent : Value := .word []

/-- A number, written with the fewest digits. -/
def ofNumber (f : Float) : Value := .number (Decimal.format f) f

/-- A number followed by a unit. -/
def ofDimension (f : Float) (unit : Text) : Value := .dimension (Decimal.format f ++ unit) f unit

/-- A group of values; a single one stands for itself. -/
def ofParts : List Value → Value
  | [v] => v
  | parts => .list parts

def kind : Value → ValueKind
  | .word _ => .word
  | .blank => .word
  | .string _ => .string
  | .number .. => .number
  | .dimension .. => .dimension
  | .variable _ => .variable
  | .list _ => .list

/-- The text a value was made from; empty for a group. -/
def raw : Value → Text
  | .word raw => raw
  | .blank => []
  | .string raw => raw
  | .number raw _ => raw
  | .dimension raw _ _ => raw
  | .variable raw => raw
  | .list _ => []

/-- Whether a value stands for an argument that was not given. -/
def isAbsent : Value → Bool
  | .word raw => raw.isEmpty
  | _ => false

/-- The value as style sheet text. A number is written with the fewest digits,
    so `.4` becomes `0.4`; parts of a group are separated by one space. -/
def text : Value → Text
  | .word raw => raw
  | .blank => []
  | .string raw => raw
  | .number _ num => Decimal.format num
  | .dimension raw _ _ => raw
  | .variable raw => raw
  | .list parts => Text.join [ascii ' '] (texts parts)
where
  texts : List Value → List Text
    | [] => []
    | v :: vs => v.text :: texts vs

/-- The parts of a group with `sep` between them; any other value as its text. -/
def joined (sep : Text) : Value → Text
  | .list parts => Text.join sep (parts.map text)
  | v => v.text

end Value

end MixinCss
