/-
  MixinCss.Mixin.Recipe

  Mixins given as data: a list of steps that are run in order, each adding
  nodes or ending the run.
-/

import MixinCss.Mixin.Basic

namespace MixinCss

/-- The arguments a step passes on. -/
inductive PassedArgs where
  /-- These arguments; none at all if they are left out. -/
  | given (args : Option Args)
  /-- The arguments of the mixin itself. -/
  | same
  /-- The arguments of the mixin itself without the first one by position. -/
  | rest

/-- A step of a recipe. -/
inductive Step where
  | node (n : Node)
  /-- Calls another mixin. -/
  | call (name : Text) (args : PassedArgs)
  /-- Declares a property with the argument at a position or with a key. -/
  | declare (property : Text) (index : Int) (key : Text)
  /-- Fails with a message. -/
  | fail (message : Text)
  /-- Breaks off with a message. -/
  | breakOff (message : Text)

namespace PassedArgs

def resolve (passed : PassedArgs) (own : Args) : Args :=
  match passed with
  | .given args => args.getD .none
  | .same => own
  | .rest =>
    match own with
    | .positional values => .positional (values.drop 1)
    | .keywords pairs => .keywords pairs

end PassedArgs

namespace Step

/-- The nodes of one step. -/
def run (scope : Scope) (args : Args) : Step → Expansion
  | .node n => .ok [n]
  | .call name passed => scope.call name (passed.resolve args)
  | .declare property index key =>
    let v :=
      match args with
      | .positional values => Args.valueAt values index
      | .keywords pairs => (Args.find? pairs key).getD .absent
    .ok [.declare property v]
  | .fail message => .error (.declared message)
  | .breakOff message => .error (.brokenOff message)

end Step

/-- The mixin that runs the steps in order and gives all their nodes. -/
def Mixin.ofSteps (steps : List Step) : Mixin := fun scope args => do
  let parts ← steps.mapM (Step.run scope args)
  return parts.flatten

end MixinCss
