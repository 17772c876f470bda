/-
  MixinCss.Value.Args

  The arguments of a mixin call: either by position or by keyword, never mixed.
-/

import MixinCss.Value.Basic

namespace MixinCss

/-- One `key: value` argument. -/
structure Keyword where
  key : Text
  value : Value
deriving Repr, Inhabited

/-- The arguments of a call, in the order of the source. -/
inductive Args where
  | positional (values : List Value)
  | keywords (pairs : List Keyword)
deriving Repr, Inhabited

namespace Args

def size : Args → Nat
  | .positional values => values.length
  | .keywords pairs => pairs.length

/-- The value at a position; absent outside the list. -/
def valueAt (values : List Value) (i : Int) : Value :=
  match i with
  | .ofNat n => values[n]?.getD .absent
  | .negSucc _ => .absent

/-- The value of the first argument with the given key. -/
def find? (pairs : List Keyword) (key : Text) : Option Value :=
  (pairs.find? fun k => k.key == key).map Keyword.value

/-- The argument at position `i` or, in a keyword call, the one named `key`;
    absent if there is none. -/
def pick (args : Args) (i : Nat) (key : Text) : Value :=
  match args with
  | .positional values => values[i]?.getD .absent
  | .keywords pairs => (find? pairs key).getD .absent

/-- No arguments, as in `name()`. -/
def none : Args := .positional []

end Args

end MixinCss
