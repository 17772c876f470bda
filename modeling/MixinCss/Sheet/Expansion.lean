/-
  MixinCss.Sheet.Expansion

  Sheets with every call replaced by what its mixin gives. The nodes of a sheet
  are visited in order; the nodes that take the place of a call are visited
  again, because they may hold calls themselves. A call of an unknown name is
  dropped and noted. How deep calls may come out of calls is limited.

  A visit gives the notes it made, in order, beside its result, so the notes
  made before a failure are kept.
-/

import MixinCss.Mixin.Catalog

namespace MixinCss

/-- A note made while a sheet is expanded. -/
inductive Note where
  /-- A call was dropped because no mixin has its name. -/
  | unknown (name : Text) (pos : Pos)
  /-- A call, inside of `depth` others, was replaced by `count` nodes. -/
  | expanded (name : Text) (pos : Pos) (count depth : Nat)
deriving DecidableEq, Repr

/-- A call of an unknown name, as it is reported. -/
structure Warning where
  message : Text
  pos : Pos
deriving DecidableEq, Repr

/-- The warning with its place in front. -/
def Warning.text (w : Warning) : Text := w.pos.label w.message

/-- The warning of a note, if it is one. -/
def Note.warning? : Note → Option Warning
  | .unknown name pos => some ⟨utf8 "unknown mixin: " ++ name, pos⟩
  | .expanded .. => none

/-- The warnings among notes, in order. -/
def warningsOf (notes : List Note) : List Warning := notes.filterMap Note.warning?

/-- What is wrong with a call. -/
inductive CallFault where
  /-- It comes out of too many other calls. -/
  | tooDeep
  /-- Its mixin failed. -/
  | mixin (failure : MixinFailure)
  /-- Its mixin gave a node of an unknown kind. -/
  | unexpectedNode (kind : Text)
deriving DecidableEq, Repr

/-- Why a sheet cannot be expanded. -/
inductive ExpandError where
  | call (name : Text) (pos : Pos) (fault : CallFault)
  /-- The sheet itself holds a node of an unknown kind. -/
  | unexpectedNode (kind : Text)
deriving DecidableEq, Repr

namespace CallFault

def message : CallFault → Text
  | .tooDeep => utf8 "mixin expansion too deep"
  | .mixin failure => failure.message
  | .unexpectedNode kind => utf8 "unexpected node " ++ kind

end CallFault

namespace ExpandError

def message : ExpandError → Text
  | .call name pos fault => pos.label (utf8 "mixin " ++ name ++ utf8 ": " ++ fault.message)
  | .unexpectedNode kind => utf8 "unexpected node " ++ kind

/-- Lays an error inside the expansion of a call to that call, unless it
    belongs to a call further inside. -/
def within (name : Text) (pos : Pos) : ExpandError → ExpandError
  | .call inner innerPos fault => .call inner innerPos fault
  | .unexpectedNode kind => .call name pos (.unexpectedNode kind)

end ExpandError

/-- The notes of a visit and its result. -/
structure Visit (α : Type) where
  notes : List Note
  result : Except ExpandError α
deriving Repr

namespace Visit

def pure {α : Type} (a : α) : Visit α := ⟨[], .ok a⟩

def fail {α : Type} (e : ExpandError) : Visit α := ⟨[], .error e⟩

/-- Goes on with the result of a visit, if there is one. -/
def bind {α β : Type} (v : Visit α) (f : α → Visit β) : Visit β :=
  match v.result with
  | .ok a =>
    let next := f a
    ⟨v.notes ++ next.notes, next.result⟩
  | .error e => ⟨v.notes, .error e⟩

def map {α β : Type} (f : α → β) (v : Visit α) : Visit β := ⟨v.notes, v.result.map f⟩

/-- Makes a note first. -/
def noting {α : Type} (n : Note) (v : Visit α) : Visit α := ⟨n :: v.notes, v.result⟩

def mapError {α : Type} (f : ExpandError → ExpandError) (v : Visit α) : Visit α :=
  ⟨v.notes, v.result.mapError f⟩

end Visit

namespace Node

mutual

/-- Visits a node. `onCall` says what takes the place of a call. -/
def visit (onCall : Text → Option Args → Pos → Visit (List Node)) : Node → Visit (List Node)
  | .declaration property value pos => .pure [.declaration property value pos]
  | .rule selector children pos =>
    (visitAll onCall children).map fun inside => [.rule selector inside pos]
  | .call name args pos => onCall name args pos
  | .nothing => .pure []
  | .foreign kind => .fail (.unexpectedNode kind)

/-- Visits nodes in order, up to the first failure, and puts what takes their
    places together. -/
def visitAll (onCall : Text → Option Args → Pos → Visit (List Node)) :
    List Node → Visit (List Node)
  | [] => .pure []
  | n :: rest =>
    (visit onCall n).bind fun front => (visitAll onCall rest).map fun back => front ++ back

end

end Node

namespace Catalog

/-- What takes the place of a call that comes out of `depth` others, where
    `remaining` further levels are allowed. -/
def expandCall (c : Catalog) (depth : Nat) (remaining : Nat) (name : Text) (args : Option Args)
    (pos : Pos) : Visit (List Node) :=
  match c.find? name with
  | none => ⟨[.unknown name pos], .ok []⟩
  | some _ =>
    match remaining with
    | 0 => .fail (.call name pos .tooDeep)
    | remaining + 1 =>
      match c.call name args with
      | .error failure => .fail (.call name pos (.mixin failure))
      | .ok nodes =>
        ((Node.visitAll (c.expandCall (depth + 1) remaining) nodes).noting
          (.expanded name pos nodes.length depth)).mapError (.within name pos)
termination_by structural remaining

section Calls

variable {c : Catalog} {name : Text} {args : Option Args}

theorem expandCall_of_unknown (h : c.find? name = none) (depth remaining : Nat)
    (args : Option Args) (pos : Pos) :
    c.expandCall depth remaining name args pos = ⟨[.unknown name pos], .ok []⟩ := by
  unfold expandCall
  rw [h]

theorem expandCall_zero {mixin : Mixin} (h : c.find? name = some mixin) (depth : Nat)
    (args : Option Args) (pos : Pos) :
    c.expandCall depth 0 name args pos = .fail (.call name pos .tooDeep) := by
  unfold expandCall
  rw [h]

theorem expandCall_of_failure {mixin : Mixin} {failure : MixinFailure}
    (h : c.find? name = some mixin) (hcall : c.call name args = .error failure)
    (depth remaining : Nat) (pos : Pos) :
    c.expandCall depth (remaining + 1) name args pos = .fail (.call name pos (.mixin failure)) := by
  unfold expandCall
  rw [h, hcall]

/-- The nodes of a mixin are visited with one level less. -/
theorem expandCall_of_nodes {mixin : Mixin} {nodes : List Node} (h : c.find? name = some mixin)
    (hcall : c.call name args = .ok nodes) (depth remaining : Nat) (pos : Pos) :
    c.expandCall depth (remaining + 1) name args pos =
      ((Node.visitAll (c.expandCall (depth + 1) remaining) nodes).noting
        (.expanded name pos nodes.length depth)).mapError (.within name pos) := by
  rw [expandCall, h, hcall]

end Calls

/-- How deep calls may come out of calls. -/
def depthLimit : Nat := 64

/-- The limit where another one may be asked for. Only a positive one counts. -/
def depthLimitOf (asked : Int) : Nat := if 0 < asked then asked.toNat else depthLimit

/-- Expands every rule of a sheet in order. -/
def expandWithin (c : Catalog) (limit : Nat) : Sheet → Visit Sheet
  | [] => .pure []
  | r :: rest =>
    (Node.visitAll (c.expandCall 0 limit) r.children).bind fun children =>
      (expandWithin c limit rest).map fun rules => { r with children := children } :: rules

def expand (c : Catalog) (sheet : Sheet) : Visit Sheet := c.expandWithin depthLimit sheet

end Catalog

end MixinCss
