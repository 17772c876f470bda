/-
  MixinCss.Compile

  From source to style sheet text: the source is parsed, its calls are
  expanded, and the result is written out.
-/

import MixinCss.Grammar.Parse
import MixinCss.Sheet.Expansion
import MixinCss.Sheet.Render

namespace MixinCss

/-- What a source is compiled with. -/
structure Options where
  mixins : List (Text × Option Mixin)
  units : Units
  design : Option Variables

namespace Options

/-- The library as it comes. -/
def standard : Options := ⟨[], .usual, none⟩

/-- The settings of the catalog. The unit that mixins use is that of plain
    numbers unless it is set itself. -/
def settings (o : Options) : Variables :=
  let base := { Variables.standard with
    unit := Variables.textOr o.units.standard Variables.standard.unit }
  match o.design with
  | some v => v.merge base
  | none => base

/-- The catalog of mixins that the options describe. -/
def catalog (o : Options) : Catalog := .ofOverrides o.mixins o.settings

end Options

/-- Why a source cannot be compiled. -/
inductive CompileError where
  | parse (e : SyntaxError)
  | expand (e : ExpandError)
deriving Repr

def CompileError.message : CompileError → Text
  | .parse e => utf8 "parse: " ++ e.text
  | .expand e => utf8 "resolve: " ++ e.message

/-- A compiled source. -/
structure Compiled where
  css : Text
  warnings : List Warning
deriving DecidableEq, Repr

/-- Compiles a source with a catalog. -/
def compileWith (catalog : Catalog) (units : Units) (src : Text) : Except CompileError Compiled :=
  match parse src with
  | .error e => .error (.parse e)
  | .ok sheet =>
    let visit := catalog.expand sheet
    match visit.result with
    | .error e => .error (.expand e)
    | .ok expanded => .ok ⟨Sheet.render units expanded, warningsOf visit.notes⟩

/-- Compiles a source. -/
def compile (src : Text) (o : Options) : Except CompileError Compiled :=
  compileWith o.catalog o.units src

end MixinCss
