/-
  MixinCss.Config.Setting

  Settings as a tree of keys. Several sources of settings are laid over each
  other, and a value is looked up by its path, with points between the keys.
-/

import MixinCss.Decimal.Layout
import MixinCss.Decimal.Reader

namespace MixinCss

/-- A setting as it is given. -/
inductive Setting where
  | null
  | switch (b : Bool)
  | whole (n : Int)
  | fraction (f : Float)
  | text (t : Text)
  | list (items : List Setting)
  | map (members : List (Text × Setting))
deriving Repr, Inhabited

/-- Settings by key. -/
abbrev Settings := List (Text × Setting)

namespace Setting

mutual

/-- A setting as text. -/
def print : Setting → Text
  | .null => utf8 "<nil>"
  | .switch b => utf8 (if b then "true" else "false")
  | .whole n => Text.ofInt n
  | .fraction f => Decimal.formatSetting f
  | .text t => t
  | .list items => utf8 "[" ++ Text.join [ascii ' '] (printAll items) ++ utf8 "]"
  | .map members =>
    let entries := (printMembers members).mergeSort fun a b => Text.notAfter a.1 b.1
    utf8 "map[" ++ Text.join [ascii ' '] (entries.map fun e => e.1 ++ [ascii ':'] ++ e.2) ++
      utf8 "]"

def printAll : List Setting → List Text
  | [] => []
  | s :: rest => print s :: printAll rest

def printMembers : List (Text × Setting) → List (Text × Text)
  | [] => []
  | (key, s) :: rest => (key, print s) :: printMembers rest

end

end Setting

namespace Settings

/-- Sets a key, in its place if it is there. -/
def set (s : Settings) (key : Text) (v : Setting) : Settings :=
  match s with
  | [] => [(key, v)]
  | (k, old) :: rest => if k = key then (k, v) :: rest else (k, old) :: set rest key v

mutual

/-- A setting laid over an older one. Only two maps are merged; in all other
    cases the new setting takes the place of the old one. -/
def overlay (old : Option Setting) : Setting → Setting
  | .map members =>
    match old with
    | some (.map base) => .map (merge base members)
    | _ => .map members
  | .null => .null
  | .switch b => .switch b
  | .whole n => .whole n
  | .fraction f => .fraction f
  | .text t => .text t
  | .list items => .list items

/-- Settings laid over `base`. -/
def merge (base : Settings) : List (Text × Setting) → Settings
  | [] => base
  | (key, v) :: rest => merge (set base key (overlay (base.lookup key) v)) rest

end

mutual

/-- The setting at a path, if there is one. -/
def find? : List (Text × Setting) → Text → Option Setting
  | [], _ => none
  | (key, v) :: rest, path =>
    if key = path then some v
    else
      match path.after? (key ++ [ascii '.']) with
      | some below => (findBelow? v below).or (find? rest path)
      | none => find? rest path

def findBelow? : Setting → Text → Option Setting
  | .map members, path => find? members path
  | .null, _ => none
  | .switch _, _ => none
  | .whole _, _ => none
  | .fraction _, _ => none
  | .text _, _ => none
  | .list _, _ => none

end

/-- A setting for a path of keys, inside of as many maps. -/
def nested (v : Setting) : List Text → Setting
  | [] => v
  | key :: rest => .map [(key, nested v rest)]

/-- Lays a value over the settings at a path of keys. -/
def put (s : Settings) (path : List Text) (v : Setting) : Settings :=
  match path with
  | [] => s
  | key :: rest => merge s [(key, nested v rest)]

/-! ## Typed access -/

/-- Whether a path is set, be it to nothing. -/
def isSet (s : Settings) (path : String) : Bool := (find? s (utf8 path)).isSome

/-- The text of a setting; empty if it is not set. -/
def getText (s : Settings) (path : String) : Text :=
  match find? s (utf8 path) with
  | none => []
  | some .null => []
  | some v => v.print

/-- Words for yes and no. -/
def readSwitch? (t : Text) : Option Bool :=
  if ["1", "t", "T", "TRUE", "true", "True"].any fun w => utf8 w == t then some true
  else if ["0", "f", "F", "FALSE", "false", "False"].any fun w => utf8 w == t then some false
  else none

/-- The switch at a path; off if its text is no word for yes. -/
def getSwitch (s : Settings) (path : String) : Bool :=
  match find? s (utf8 path) with
  | some (.switch b) => b
  | some v => (readSwitch? v.print).getD false
  | none => false

/-- A number without its fraction. One that needs more than 64 bits, or is
    none, becomes the least integer. -/
def truncate (f : Float) : Int :=
  match Decimal.Binary.ofFloat f with
  | .finite negative m q =>
    let magnitude : Int := (m * Nat.pow 2 q.toNat / Nat.pow 2 (-q).toNat : Nat)
    let n := if negative then -magnitude else magnitude
    if Decimal.fitsInt64 n then n else Int64.minValue.toInt
  | _ => Int64.minValue.toInt

/-- The integer at a path; zero if its text is no number. -/
def getWhole (s : Settings) (path : String) : Int :=
  match find? s (utf8 path) with
  | some (.whole n) => n
  | some v =>
    match Decimal.read v.print with
    | .ok f => truncate f
    | .error _ => 0
  | none => 0

/-- The texts of a list; none for anything else. -/
def getTexts (s : Settings) (path : String) : List Text :=
  match find? s (utf8 path) with
  | some (.list items) => items.map Setting.print
  | _ => []

/-- The text at the first of two paths that is not empty. -/
def textAt (s : Settings) (first second : String) (fallback : Text) : Text :=
  let a := s.getText first
  if !a.isEmpty then a
  else
    let b := s.getText second
    if !b.isEmpty then b else fallback

/-- The switch at the first of two paths that is set. -/
def switchAt (s : Settings) (first second : String) (fallback : Bool) : Bool :=
  if s.isSet first then s.getSwitch first
  else if s.isSet second then s.getSwitch second
  else fallback

/-- The integer at the first of two paths that is set. -/
def wholeAt (s : Settings) (first second : String) (fallback : Int) : Int :=
  if s.isSet first then s.getWhole first
  else if s.isSet second then s.getWhole second
  else fallback

end Settings

end MixinCss
