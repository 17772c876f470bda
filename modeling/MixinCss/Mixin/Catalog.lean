/-
  MixinCss.Mixin.Catalog

  The catalog of mixins a sheet is expanded with: those of the user in front of
  those of the library.
-/

import MixinCss.Library.Index

namespace MixinCss

/-- Mixins by name. A name of the user may be left without a mixin; it then
    hides nothing. -/
structure Catalog where
  overrides : List (Text × Option Mixin)
  library : List (Text × Mixin)
  vars : Variables

namespace Catalog

/-- The library with mixins of the user and settings. -/
def ofOverrides (overrides : List (Text × Option Mixin)) (vars : Variables) : Catalog :=
  ⟨overrides, Library.all, vars⟩

/-- The mixins of the user without the library, with the standard settings if
    none are given. -/
def ofUser (overrides : List (Text × Option Mixin)) (vars : Option Variables) : Catalog :=
  ⟨overrides, [], vars.getD .standard⟩

/-- The mixin of the user with the given name. -/
def override? (c : Catalog) (name : Text) : Option Mixin :=
  (c.overrides.lookup name).join

/-- The mixin that a call of `name` runs. -/
def find? (c : Catalog) (name : Text) : Option Mixin :=
  (c.override? name).or (c.library.lookup name)

/-- Whether `name` runs a mixin of the user. -/
def isUserMixin (c : Catalog) (name : Text) : Bool := (c.override? name).isSome

/-- All names of the catalog in byte order, each once. -/
def names (c : Catalog) : List Text :=
  (Text.sort (c.overrides.map Prod.fst ++ c.library.map Prod.fst)).eraseReps

/-- Calls a mixin; the calls it makes in turn nest at most `fuel` deep. -/
def callWithin (c : Catalog) : Nat → Text → Args → Expansion
  | 0, _, _ => .error .runaway
  | fuel + 1, name, args =>
    match c.find? name with
    | none => .error (.unknown name)
    | some mixin => mixin ⟨c.vars, c.callWithin fuel⟩ args

/-- How deep calls among mixins may nest. Nothing but the stack limits them: the
    number stands for its size, and calls that nest deeper for a stack that
    overflows. Those of the library nest four deep. -/
def nestingLimit : Nat := 10000

/-- Calls a mixin by name. -/
def call (c : Catalog) (name : Text) (args : Option Args) : Expansion :=
  c.callWithin nestingLimit name (args.getD .none)

end Catalog

end MixinCss
