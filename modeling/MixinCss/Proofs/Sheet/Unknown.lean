/-
  MixinCss.Proofs.Sheet.Unknown

  Calls of unknown names. Where mixins give no further calls, the warnings of an
  expansion are those calls of the sheet itself whose names are unknown, in
  document order (`Catalog.warnings_of_isFlat`), and the sheet without them
  expands to the same result (`Catalog.expandWithin_keepCalls`).
-/

import MixinCss.Proofs.Sheet.Order

namespace MixinCss

/-! ## The calls of a sheet -/

namespace Node

/-- The name and the place of a call. -/
def call? : Node → Option (Text × Pos)
  | .call name _ pos => some (name, pos)
  | _ => none

/-- The calls in nodes, in document order. -/
def callsAll (nodes : List Node) : List (Text × Pos) := (membersAll nodes).filterMap call?

theorem callsAll_append (front back : List Node) :
    callsAll (front ++ back) = callsAll front ++ callsAll back := by
  unfold callsAll
  rw [membersAll_append, List.filterMap_append]

theorem callsAll_cons (n : Node) (rest : List Node) :
    callsAll (n :: rest) = callsAll [n] ++ callsAll rest := callsAll_append [n] rest

theorem callsAll_rule (selector : Text) (children : List Node) (pos : Pos) :
    callsAll [.rule selector children pos] = callsAll children := by
  unfold callsAll
  rw [membersAll_singleton, members, List.filterMap_cons]
  rfl

end Node

/-- The calls of a sheet, in document order. -/
def Sheet.calls (sheet : Sheet) : List (Text × Pos) := Node.callsAll (sheet.map Rule.node)

theorem Sheet.calls_cons (r : Rule) (rest : Sheet) :
    Sheet.calls (r :: rest) = Node.callsAll r.children ++ Sheet.calls rest := by
  unfold Sheet.calls
  rw [List.map_cons, Node.callsAll_cons, Rule.node, Node.callsAll_rule]

/-! ## Warnings -/

/-- The warning that a call of an unknown name is worth. -/
def Warning.ofCall (call : Text × Pos) : Warning := ⟨utf8 "unknown mixin: " ++ call.1, call.2⟩

namespace Node

variable {inside : Text → Option Args → Pos → List Stop} {depth : Nat}
  {owner : Option (Text × Pos)} {β : Type} {f : Stop → Option β} {g : Node → Option β}

mutual

theorem outline_filterMap (hf : ∀ n, f ⟨n, depth, owner⟩ = g n)
    (hinside : ∀ name args pos, (inside name args pos).filterMap f = []) :
    ∀ n : Node, (outline inside depth owner n).filterMap f = n.members.filterMap g
  | .declaration .. => by
    rw [outline, members, List.filterMap_cons, List.filterMap_cons, hf]
    rfl
  | .rule selector children pos => by
    rw [outline, members, List.filterMap_cons, List.filterMap_cons, hf,
      outlineAll_filterMap hf hinside children]
  | .call name args pos => by
    rw [outline, members, List.filterMap_cons, List.filterMap_cons, hf, hinside]
    rfl
  | .nothing => by
    rw [outline, members, List.filterMap_cons, List.filterMap_cons, hf]
    rfl
  | .foreign _ => by
    rw [outline, members, List.filterMap_cons, List.filterMap_cons, hf]
    rfl

/-- If nothing of interest comes out of calls, what is of interest in an outline
    is in the nodes themselves. -/
theorem outlineAll_filterMap (hf : ∀ n, f ⟨n, depth, owner⟩ = g n)
    (hinside : ∀ name args pos, (inside name args pos).filterMap f = []) :
    ∀ nodes : List Node,
      (outlineAll inside depth owner nodes).filterMap f = (membersAll nodes).filterMap g
  | [] => rfl
  | n :: rest => by
    rw [outlineAll, membersAll_cons, List.filterMap_append, List.filterMap_append,
      outline_filterMap hf hinside n, outlineAll_filterMap hf hinside rest]

end

end Node

namespace Catalog

variable {c : Catalog}

/-- No mixin gives a call, at any depth of rules. -/
def IsFlat (c : Catalog) : Prop :=
  ∀ name args nodes, c.call name args = .ok nodes → Node.callsAll nodes = []

/-- Whether no mixin has the name of a call. -/
def isUnknown (c : Catalog) (call : Text × Pos) : Bool := (c.find? call.1).isNone

theorem filterMap_warning? (c : Catalog) (depth : Nat) (owner : Option (Text × Pos))
    (nodes : List Node) :
    nodes.filterMap (fun n => c.warning? ⟨n, depth, owner⟩) =
      ((nodes.filterMap Node.call?).filter c.isUnknown).map .ofCall := by
  induction nodes with
  | nil => rfl
  | cons n rest ih =>
    cases n with
    | call name args pos =>
      have hcall : c.warning? ⟨.call name args pos, depth, owner⟩ =
          if c.isUnknown (name, pos) then some (.ofCall (name, pos)) else none := rfl
      have hnode : (Node.call name args pos).call? = some (name, pos) := rfl
      rw [List.filterMap_cons, List.filterMap_cons, hcall, hnode, ih]
      dsimp only
      cases hunknown : c.isUnknown (name, pos) with
      | true => rw [List.filter_cons_of_pos hunknown]; rfl
      | false => rw [List.filter_cons_of_neg (by simp [hunknown])]; rfl
    | _ => exact ih

/-- What comes out of a call is worth no warning, if mixins give no calls. -/
theorem outlineCall_warnings (h : c.IsFlat) (depth remaining : Nat) (name : Text)
    (args : Option Args) (pos : Pos) :
    (c.outlineCall depth remaining name args pos).filterMap c.warning? = [] := by
  induction remaining generalizing depth name args pos with
  | zero => rfl
  | succ remaining ih =>
    rw [outlineCall]
    split
    · rename_i mixin nodes _ hcall
      rw [Node.outlineAll_filterMap (fun _ => rfl) (ih (depth + 1)) nodes, filterMap_warning?]
      have hnone : (Node.membersAll nodes).filterMap Node.call? = [] := h name args nodes hcall
      rw [hnone]
      rfl
    · rfl

/-- The warnings of an expansion are its unknown calls, in document order. -/
theorem warnings_of_isFlat (h : c.IsFlat) {limit : Nat} {sheet out : Sheet}
    (hresult : (c.expandWithin limit sheet).result = .ok out) :
    (c.expandWithin limit sheet).warnings =
      ((Sheet.calls sheet).filter c.isUnknown).map .ofCall := by
  have hfollows := c.expandWithin_follows limit sheet
  have hnone := hfollows.error
  rw [Visit.error?_eq_none_iff.mpr ⟨out, hresult⟩] at hnone
  rw [hfollows.warnings, reached_of_findSome?_eq_none hnone.symm]
  unfold outline
  rw [Node.outlineAll_filterMap (fun _ => rfl) (c.outlineCall_warnings h 0 limit),
    filterMap_warning?]
  rfl

end Catalog

/-! ## Sheets without their unknown calls -/

namespace Node

mutual

/-- The node without the calls in it whose names are not to be kept; nothing is
    left of such a call itself. -/
def keepCalls (keep : Text → Bool) : Node → List Node
  | .declaration property value pos => [.declaration property value pos]
  | .rule selector children pos => [.rule selector (keepCallsAll keep children) pos]
  | .call name args pos => if keep name then [.call name args pos] else []
  | .nothing => [.nothing]
  | .foreign kind => [.foreign kind]

def keepCallsAll (keep : Text → Bool) : List Node → List Node
  | [] => []
  | n :: rest => keepCalls keep n ++ keepCallsAll keep rest

end

mutual

theorem callsAll_keepCalls (keep : Text → Bool) :
    ∀ n : Node, callsAll (keepCalls keep n) = (callsAll [n]).filter fun call => keep call.1
  | .declaration .. => rfl
  | .rule selector children pos => by
    rw [keepCalls, callsAll_rule, callsAll_rule, callsAll_keepCallsAll keep children]
  | .call name args pos => by
    rw [keepCalls]
    cases hkeep : keep name with
    | true => simp [callsAll, members, call?, hkeep]
    | false => simp [callsAll, members, call?, hkeep]
  | .nothing => rfl
  | .foreign _ => rfl

theorem callsAll_keepCallsAll (keep : Text → Bool) :
    ∀ nodes : List Node,
      callsAll (keepCallsAll keep nodes) = (callsAll nodes).filter fun call => keep call.1
  | [] => rfl
  | n :: rest => by
    rw [keepCallsAll, callsAll_append, callsAll_keepCalls keep n, callsAll_keepCallsAll keep rest,
      callsAll_cons n rest, List.filter_append]

end

end Node

theorem Visit.bind_result_congr {α β : Type} {v w : Visit α} {f g : α → Visit β}
    (hv : v.result = w.result) (hf : ∀ a, (f a).result = (g a).result) :
    (v.bind f).result = (w.bind g).result := by
  unfold bind
  rw [hv]
  cases w.result with
  | ok a => exact hf a
  | error e => rfl

theorem Visit.map_result_congr {α β : Type} {v w : Visit α} (f : α → β)
    (h : v.result = w.result) : (v.map f).result = (w.map f).result :=
  congrArg (Except.map f) h

namespace Node

variable {onCall : Text → Option Args → Pos → Visit (List Node)} {keep : Text → Bool}

mutual

theorem visit_keepCalls
    (hcall : ∀ name args pos, keep name = false → (onCall name args pos).result = .ok []) :
    ∀ n : Node, (visitAll onCall (keepCalls keep n)).result = (visit onCall n).result
  | .declaration .. => by rw [keepCalls, visitAll_singleton]
  | .rule selector children pos => by
    rw [keepCalls, visitAll_singleton, visit, visit]
    exact Visit.map_result_congr _ (visitAll_keepCalls hcall children)
  | .call name args pos => by
    rw [keepCalls]
    cases hkeep : keep name with
    | true => rw [if_pos rfl, visitAll_singleton]
    | false =>
      rw [if_neg (by simp)]
      exact (hcall name args pos hkeep).symm
  | .nothing => by rw [keepCalls, visitAll_singleton]
  | .foreign _ => by rw [keepCalls, visitAll_singleton]

/-- A visit has the same result without calls that nothing takes the place of. -/
theorem visitAll_keepCalls
    (hcall : ∀ name args pos, keep name = false → (onCall name args pos).result = .ok []) :
    ∀ nodes : List Node,
      (visitAll onCall (keepCallsAll keep nodes)).result = (visitAll onCall nodes).result
  | [] => rfl
  | n :: rest => by
    rw [keepCallsAll, visitAll_append, visitAll_cons]
    refine Visit.bind_result_congr (visit_keepCalls hcall n) fun front => ?_
    exact Visit.map_result_congr _ (visitAll_keepCalls hcall rest)

end

end Node

/-- The sheet without the calls whose names are not to be kept. -/
def Sheet.keepCalls (keep : Text → Bool) (sheet : Sheet) : Sheet :=
  sheet.map fun r => { r with children := Node.keepCallsAll keep r.children }

theorem Sheet.calls_keepCalls (keep : Text → Bool) (sheet : Sheet) :
    Sheet.calls (Sheet.keepCalls keep sheet) =
      (Sheet.calls sheet).filter fun call => keep call.1 := by
  induction sheet with
  | nil => rfl
  | cons r rest ih =>
    have hrest : Sheet.keepCalls keep (r :: rest) =
        { r with children := Node.keepCallsAll keep r.children } :: Sheet.keepCalls keep rest := rfl
    rw [hrest, Sheet.calls_cons, ih, Node.callsAll_keepCallsAll, Sheet.calls_cons,
      List.filter_append]

namespace Catalog

/-- Whether a mixin has the name. -/
def isKnown (c : Catalog) (name : Text) : Bool := (c.find? name).isSome

/-- A sheet and the sheet without its unknown calls expand to the same result,
    be it a sheet or an error. -/
theorem expandWithin_keepCalls (c : Catalog) (limit : Nat) (sheet : Sheet) :
    (c.expandWithin limit (Sheet.keepCalls c.isKnown sheet)).result =
      (c.expandWithin limit sheet).result := by
  have hcall : ∀ name args pos, c.isKnown name = false →
      (c.expandCall 0 limit name args pos).result = .ok [] := by
    intro name args pos hname
    rw [expandCall_of_unknown (Option.isNone_iff_eq_none.mp (by simpa [isKnown] using hname))]
  induction sheet with
  | nil => rfl
  | cons r rest ih =>
    show (c.expandWithin limit ({ r with children := Node.keepCallsAll c.isKnown r.children } ::
      Sheet.keepCalls c.isKnown rest)).result = _
    rw [expandWithin, expandWithin]
    refine Visit.bind_result_congr (Node.visitAll_keepCalls hcall r.children) fun children => ?_
    exact Visit.map_result_congr _ ih

end Catalog

end MixinCss
