/-
  MixinCss.Mixin.Basic

  Mixins: functions from the arguments of a call to the nodes that replace it.
  A mixin sees the settings and may call other mixins by name, so that a mixin
  put in place of `display` is also seen by those that are made from it.
-/

import MixinCss.Color.Shade
import MixinCss.Mixin.Variables
import MixinCss.Sheet.Basic
import MixinCss.Text.Kebab

namespace MixinCss

/-- Why a mixin gives no nodes. -/
inductive MixinFailure where
  /-- No mixin has the name. -/
  | unknown (name : Text)
  /-- An argument that must be given is not. -/
  | missing (what : Text)
  /-- The value of a property is not given. -/
  | missingValue (property : Text)
  | tooManyArguments (name : Text) (most given : Nat)
  | spanNotNumber (span : Text)
  | columnsNotNumber (columns : Text)
  | noColumns
  | marginNotNumber (margin : Text)
  | amountNotNumber (amount : Text)
  | notColor (refusal : Color.Refusal)
  /-- A position is used where a list of the given size holds nothing. -/
  | outOfRange (index size : Nat)
  /-- A list of the given size is cut behind its end. -/
  | outOfBounds (start size : Nat)
  /-- A mixin of the user fails on its own account. -/
  | declared (message : Text)
  /-- A mixin of the user breaks off. -/
  | brokenOff (message : Text)
  /-- Mixins call each other without end. No mixin reports this: it stands for a
      stack that overflows. -/
  | runaway
deriving DecidableEq, Repr

def MixinFailure.message : MixinFailure → Text
  | .unknown name => utf8 "unknown mixin: " ++ name
  | .missing what => utf8 "missing " ++ what
  | .missingValue property => property ++ utf8 ": missing value"
  | .tooManyArguments name most given =>
    name ++ utf8 ": expected at most " ++ Text.ofNat most ++ utf8 " arguments, got " ++
      Text.ofNat given
  | .spanNotNumber span => utf8 "column: span " ++ span.quoted ++ utf8 " is not a number"
  | .columnsNotNumber columns =>
    utf8 "column: columns " ++ columns.quoted ++ utf8 " is not a number"
  | .noColumns => utf8 "column: grid has zero columns"
  | .marginNotNumber margin => utf8 "row: margin " ++ margin.quoted ++ utf8 " is not a number"
  | .amountNotNumber amount => utf8 "amount " ++ amount.quoted ++ utf8 " is not a number"
  | .notColor refusal => refusal.message
  | .outOfRange index size =>
    utf8 "panic: runtime error: index out of range [" ++ Text.ofNat index ++
      utf8 "] with length " ++ Text.ofNat size
  | .outOfBounds start size =>
    utf8 "panic: runtime error: slice bounds out of range [" ++ Text.ofNat start ++ utf8 ":" ++
      Text.ofNat size ++ utf8 "]"
  | .declared message => message
  | .brokenOff message => utf8 "panic: " ++ message
  | .runaway => utf8 "mixins call each other without end"

/-- The nodes that replace a call, or why there are none. -/
abbrev Expansion := Except MixinFailure (List Node)

/-- What a mixin may use besides its arguments. -/
structure Scope where
  vars : Variables
  /-- Calls another mixin by name. -/
  call : Text → Args → Expansion

abbrev Mixin := Scope → Args → Expansion

namespace Mixin

/-- The value of a property given as a word. -/
def word (s : String) : Value := .word (utf8 s)

/-- A single declaration. -/
def declares (property : String) (v : Value) : Expansion := .ok [.declare (utf8 property) v]

/-- One declaration for each keyword, in the order of the call. Properties are
    named by the keywords under `head`; those in `plain` stand alone. -/
def declareKeywords (head : String) (plain : List String) (pairs : List Keyword) : List Node :=
  pairs.map fun k =>
    .declare (Text.underHead (utf8 head) (plain.map utf8) k.key) k.value

/-- Declares the properties with the values, as far as both reach. -/
def declareInOrder (properties : List String) (values : List Value) : List Node :=
  List.zipWith (fun p v => .declare (utf8 p) v) properties values

/-- Fails if there are more than `most` arguments by position. -/
def atMost (name : String) (most : Nat) (args : Args) : Except MixinFailure Unit :=
  match args with
  | .positional values =>
    if most < values.length then .error (.tooManyArguments (utf8 name) most values.length)
    else .ok ()
  | .keywords _ => .ok ()

/-- What a list holds at a position, which must be one of its own. -/
def item {α : Type} (items : List α) (i : Nat) : Except MixinFailure α :=
  match items[i]? with
  | some a => .ok a
  | none => .error (.outOfRange i items.length)

/-- What a list holds from a position on, which must not be behind its end. -/
def itemsFrom {α : Type} (items : List α) (start : Nat) : Except MixinFailure (List α) :=
  if start ≤ items.length then .ok (items.drop start)
  else .error (.outOfBounds start items.length)

/-- Declares one property with the first argument, which must be given. -/
def property (name : String) : Mixin := fun _ args =>
  let v := args.pick 0 (utf8 "value")
  if v.isAbsent then .error (.missingValue (utf8 name)) else declares name v

/-- Declares one property with the first argument or, without one, `fallback`. -/
def propertyOr (name fallback : String) : Mixin := fun _ args =>
  let v := args.pick 0 (utf8 "value")
  declares name (if v.isAbsent then word fallback else v)

/-- Always the same declaration. -/
def constant (name value : String) : Mixin := fun _ _ => declares name (word value)

/-- Calls another mixin with one fixed argument, whatever the own ones are. -/
def forward (name : String) (v : Value) : Mixin := fun scope _ =>
  scope.call (utf8 name) (.positional [v])

end Mixin

end MixinCss
