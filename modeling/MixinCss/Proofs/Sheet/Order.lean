/-
  MixinCss.Proofs.Sheet.Order

  The order in which a sheet is expanded and in which its diagnostics come.

    * Nodes are visited one behind the other. What takes their places is put
      together in the same order, and so are the warnings, up to the first
      failure (`visitAll_append`, `expandWithin_append`).
    * The outline of a sheet lists its nodes at every depth, each in front of
      the nodes that it holds or that its mixin gives. The outline knows nothing
      of failures; a run goes along it as far as the first node that has a fault
      (`visitAll_follows`, `expandWithin_follows`).
-/

import MixinCss.Proofs.Sheet.Expansion

namespace MixinCss

/-! ## Parts of a visit -/

theorem warningsOf_append (front back : List Note) :
    warningsOf (front ++ back) = warningsOf front ++ warningsOf back := List.filterMap_append

namespace Visit

variable {α β : Type}

/-- The warnings made by a visit. -/
def warnings (v : Visit α) : List Warning := warningsOf v.notes

/-- The error by which a visit failed. -/
def error? (v : Visit α) : Option ExpandError :=
  match v.result with
  | .ok _ => none
  | .error e => some e

theorem error?_eq_none_iff {v : Visit α} : v.error? = none ↔ ∃ a, v.result = .ok a := by
  unfold error?
  cases v.result with
  | ok a => simp
  | error e => simp

theorem error?_eq_some_iff {v : Visit α} {e : ExpandError} :
    v.error? = some e ↔ v.result = .error e := by
  unfold error?
  cases v.result with
  | ok a => simp
  | error e' => simp

@[simp] theorem error?_map (v : Visit α) (f : α → β) : (v.map f).error? = v.error? := by
  unfold error? map
  cases v.result <;> rfl

@[simp] theorem error?_noting (v : Visit α) (n : Note) : (v.noting n).error? = v.error? := rfl

@[simp] theorem error?_mapError (v : Visit α) (f : ExpandError → ExpandError) :
    (v.mapError f).error? = v.error?.map f := by
  unfold error? mapError
  cases v.result <;> rfl

@[simp] theorem warnings_map (v : Visit α) (f : α → β) : (v.map f).warnings = v.warnings := rfl

theorem bind_of_ok {v : Visit α} {f : α → Visit β} {a : α} (h : v.result = .ok a) :
    v.bind f = ⟨v.notes ++ (f a).notes, (f a).result⟩ := by
  unfold bind
  rw [h]

theorem bind_of_error {v : Visit α} {f : α → Visit β} {e : ExpandError}
    (h : v.result = .error e) : v.bind f = ⟨v.notes, .error e⟩ := by
  unfold bind
  rw [h]

theorem warnings_bind_of_ok {v : Visit α} {f : α → Visit β} {a : α} (h : v.result = .ok a) :
    (v.bind f).warnings = v.warnings ++ (f a).warnings := by
  unfold warnings
  rw [bind_of_ok h, warningsOf_append]

theorem error?_bind_of_ok {v : Visit α} {f : α → Visit β} {a : α} (h : v.result = .ok a) :
    (v.bind f).error? = (f a).error? := by
  rw [bind_of_ok h]
  rfl

/-- Two visits one behind the other, with their results put together. -/
def andThen (v w : Visit (List α)) : Visit (List α) :=
  v.bind fun front => w.map fun back => front ++ back

/-- `whole` does what the `parts` do one behind the other. If all of them
    succeed, their results are put together and so are their warnings. If one
    fails and those before it do not, its error is the error of the whole, and
    the warnings are those of the parts before it and its own. -/
structure Splices (whole : Visit (List α)) (parts : List (Visit (List α))) : Prop where
  ok : ∀ outs : List (List α), parts.map result = outs.map .ok →
    whole.result = .ok outs.flatten ∧ whole.warnings = (parts.map warnings).flatten
  error : ∀ front failing back (outs : List (List α)) e, parts = front ++ failing :: back →
    front.map result = outs.map .ok → failing.result = .error e →
      whole.result = .error e ∧
        whole.warnings = (front.map warnings).flatten ++ failing.warnings

theorem splices_nil : Splices (.pure ([] : List α)) [] := by
  refine ⟨?_, ?_⟩
  · intro outs houts
    obtain rfl : outs = [] := by
      cases outs with
      | nil => rfl
      | cons out outs => cases houts
    exact ⟨rfl, rfl⟩
  · intro front failing back outs e hparts
    cases front <;> cases hparts

/-- One more part in front. -/
theorem Splices.cons {whole : Visit (List α)} {parts : List (Visit (List α))}
    (h : Splices whole parts) (v : Visit (List α)) : Splices (v.andThen whole) (v :: parts) := by
  refine ⟨?_, ?_⟩
  · intro outs houts
    cases outs with
    | nil => cases houts
    | cons out outs =>
      rw [List.map_cons, List.map_cons, List.cons.injEq] at houts
      obtain ⟨hv, hrest⟩ := houts
      obtain ⟨hresult, hwarnings⟩ := h.ok outs hrest
      have hmap : (whole.map fun back => out ++ back).result = .ok (out ++ outs.flatten) :=
        map_result_eq_ok.mpr ⟨outs.flatten, hresult, rfl⟩
      refine ⟨?_, ?_⟩
      · rw [andThen, bind_of_ok hv]
        exact hmap
      · rw [andThen, warnings_bind_of_ok hv, warnings_map, hwarnings]
        rfl
  · intro front failing back outs e hparts hfront hfailing
    cases front with
    | nil =>
      cases hparts
      rw [andThen, bind_of_error hfailing]
      exact ⟨rfl, rfl⟩
    | cons first front =>
      -- The part that fails is one of the others, so they fail as a whole.
      rw [List.cons_append, List.cons.injEq] at hparts
      obtain ⟨rfl, rfl⟩ := hparts
      cases outs with
      | nil => cases hfront
      | cons out outs =>
        rw [List.map_cons, List.map_cons, List.cons.injEq] at hfront
        obtain ⟨hv, hrest⟩ := hfront
        obtain ⟨hresult, hwarnings⟩ := h.error front failing back outs e rfl hrest hfailing
        have hmap : (whole.map fun back => out ++ back).result = .error e :=
          map_result_eq_error.mpr hresult
        refine ⟨?_, ?_⟩
        · rw [andThen, bind_of_ok hv]
          exact hmap
        · rw [andThen, warnings_bind_of_ok hv, warnings_map, hwarnings, List.map_cons,
            List.flatten_cons, List.append_assoc]

theorem andThen_of_ok {v w : Visit (List α)} {front back : List α} (hv : v.result = .ok front)
    (hw : w.result = .ok back) : v.andThen w = ⟨v.notes ++ w.notes, .ok (front ++ back)⟩ := by
  rw [andThen, bind_of_ok hv, map_result_eq_ok.2 ⟨back, hw, rfl⟩]
  rfl

theorem andThen_pure (v : Visit (List α)) : v.andThen (.pure []) = v := by
  obtain ⟨notes, result⟩ := v
  cases result with
  | ok a => simp [andThen, bind, map, pure, Except.map]
  | error e => rfl

theorem pure_andThen (v : Visit (List α)) : (Visit.pure []).andThen v = v := by
  obtain ⟨notes, result⟩ := v
  cases result <;> rfl

theorem andThen_assoc (u v w : Visit (List α)) :
    (u.andThen v).andThen w = u.andThen (v.andThen w) := by
  obtain ⟨_, result⟩ := u
  cases result with
  | error e => rfl
  | ok a =>
    obtain ⟨_, result⟩ := v
    cases result with
    | error e => rfl
    | ok b =>
      obtain ⟨_, result⟩ := w
      cases result <;> simp [andThen, bind, map, Except.map]

end Visit

/-! ## Nodes and rules one behind the other -/

namespace Node

variable {onCall : Text → Option Args → Pos → Visit (List Node)}

theorem visitAll_cons (n : Node) (rest : List Node) :
    visitAll onCall (n :: rest) = (visit onCall n).andThen (visitAll onCall rest) := rfl

theorem visitAll_singleton (n : Node) : visitAll onCall [n] = visit onCall n :=
  Visit.andThen_pure _

/-- Nodes can be visited in two parts. -/
theorem visitAll_append (front back : List Node) :
    visitAll onCall (front ++ back) = (visitAll onCall front).andThen (visitAll onCall back) := by
  induction front with
  | nil => exact (Visit.pure_andThen _).symm
  | cons n rest ih =>
    rw [List.cons_append, visitAll_cons, visitAll_cons, ih, Visit.andThen_assoc]

/-- A node is spliced in between what stands before and behind it. -/
theorem visitAll_splices (xs : List Node) (n : Node) (ys : List Node) :
    Visit.Splices (visitAll onCall (xs ++ [n] ++ ys))
      [visitAll onCall xs, visit onCall n, visitAll onCall ys] := by
  have hparts : visitAll onCall (xs ++ [n] ++ ys) =
      (visitAll onCall xs).andThen ((visit onCall n).andThen
        ((visitAll onCall ys).andThen (.pure []))) := by
    rw [visitAll_append, visitAll_append, visitAll_singleton, Visit.andThen_pure,
      Visit.andThen_assoc]
  rw [hparts]
  exact ((Visit.splices_nil.cons _).cons _).cons _

end Node

namespace Catalog

theorem expandWithin_cons (c : Catalog) (limit : Nat) (r : Rule) (rest : Sheet) :
    c.expandWithin limit (r :: rest) =
      (c.expandWithin limit [r]).andThen (c.expandWithin limit rest) := by
  rw [expandWithin, expandWithin]
  cases hresult : (Node.visitAll (c.expandCall 0 limit) r.children).result with
  | error e => rw [Visit.andThen, Visit.bind_of_error hresult, Visit.bind_of_error hresult]; rfl
  | ok children =>
    rw [Visit.andThen, Visit.bind_of_ok hresult, Visit.bind_of_ok hresult]
    simp [expandWithin, Visit.bind, Visit.map, Visit.pure, Except.map]

/-- Sheets can be expanded in two parts. -/
theorem expandWithin_append (c : Catalog) (limit : Nat) (front back : Sheet) :
    c.expandWithin limit (front ++ back) =
      (c.expandWithin limit front).andThen (c.expandWithin limit back) := by
  induction front with
  | nil => exact (Visit.pure_andThen _).symm
  | cons r rest ih =>
    rw [List.cons_append, expandWithin_cons, ih, c.expandWithin_cons limit r rest,
      Visit.andThen_assoc]

theorem expandWithin_splices (c : Catalog) (limit : Nat) (rs : Sheet) (r : Rule) (ss : Sheet) :
    Visit.Splices (c.expandWithin limit (rs ++ [r] ++ ss))
      [c.expandWithin limit rs, c.expandWithin limit [r], c.expandWithin limit ss] := by
  have hparts : c.expandWithin limit (rs ++ [r] ++ ss) =
      (c.expandWithin limit rs).andThen ((c.expandWithin limit [r]).andThen
        ((c.expandWithin limit ss).andThen (.pure []))) := by
    rw [expandWithin_append, expandWithin_append, Visit.andThen_pure, Visit.andThen_assoc]
  rw [hparts]
  exact ((Visit.splices_nil.cons _).cons _).cons _

end Catalog

/-! ## Outlines -/

/-- A node on the way through a sheet, with the number of expansions around it
    and the innermost call out of which it comes. -/
structure Stop where
  node : Node
  depth : Nat
  owner : Option (Text × Pos)

namespace Node

mutual

/-- The node and all nodes below it, each in front of what it holds; `inside`
    lists what comes out of a call. -/
def outline (inside : Text → Option Args → Pos → List Stop) (depth : Nat)
    (owner : Option (Text × Pos)) : Node → List Stop
  | .rule selector children pos =>
    ⟨.rule selector children pos, depth, owner⟩ :: outlineAll inside depth owner children
  | .call name args pos => ⟨.call name args pos, depth, owner⟩ :: inside name args pos
  | .declaration property value pos => [⟨.declaration property value pos, depth, owner⟩]
  | .nothing => [⟨.nothing, depth, owner⟩]
  | .foreign kind => [⟨.foreign kind, depth, owner⟩]

def outlineAll (inside : Text → Option Args → Pos → List Stop) (depth : Nat)
    (owner : Option (Text × Pos)) : List Node → List Stop
  | [] => []
  | n :: rest => outline inside depth owner n ++ outlineAll inside depth owner rest

end

end Node

/-- Lays an error to the innermost call around it, if there is one. -/
def ExpandError.laidTo : Option (Text × Pos) → ExpandError → ExpandError
  | none, e => e
  | some (name, pos), e => e.within name pos

namespace Catalog

/-- What comes out of a call that stands inside of `depth` expansions, where
    `remaining` further ones are listed. -/
def outlineCall (c : Catalog) (depth : Nat) (remaining : Nat) (name : Text) (args : Option Args)
    (pos : Pos) : List Stop :=
  match remaining with
  | 0 => []
  | remaining + 1 =>
    match c.find? name, c.call name args with
    | some _, .ok nodes =>
      Node.outlineAll (c.outlineCall (depth + 1) remaining) (depth + 1) (some (name, pos)) nodes
    | _, _ => []
termination_by structural remaining

/-- The nodes of a sheet and of all that comes out of its calls, in document
    order. -/
def outline (c : Catalog) (limit : Nat) (sheet : Sheet) : List Stop :=
  Node.outlineAll (c.outlineCall 0 limit) 0 none (sheet.map Rule.node)

/-- What is wrong with a node in its place: a call of a known name may stand too
    deep or its mixin may fail, and foreign nodes are refused. -/
def fault? (c : Catalog) (limit : Nat) (s : Stop) : Option ExpandError :=
  match s.node with
  | .call name args pos =>
    if (c.find? name).isNone then none
    else if limit ≤ s.depth then some (.call name pos .tooDeep)
    else
      match c.call name args with
      | .ok _ => none
      | .error failure => some (.call name pos (.mixin failure))
  | .foreign kind => some (.laidTo s.owner (.unexpectedNode kind))
  | _ => none

/-- The warning that a node is worth: a call of an unknown name is. -/
def warning? (c : Catalog) (s : Stop) : Option Warning :=
  match s.node with
  | .call name _ pos =>
    if (c.find? name).isNone then some ⟨utf8 "unknown mixin: " ++ name, pos⟩ else none
  | _ => none

/-- The part of an outline in front of the first fault. -/
def reached (c : Catalog) (limit : Nat) (stops : List Stop) : List Stop :=
  stops.takeWhile fun s => (c.fault? limit s).isNone

/-- A visit goes along an outline: its warnings are those of the nodes in front
    of the first fault, and it fails by that fault. The error is laid to
    `owner`, out of which the nodes come. -/
structure Follows {α : Type} (c : Catalog) (limit : Nat) (owner : Option (Text × Pos))
    (v : Visit α) (stops : List Stop) : Prop where
  warnings : v.warnings = (c.reached limit stops).filterMap c.warning?
  error : v.error?.map (.laidTo owner) = stops.findSome? (c.fault? limit)

section Follows

variable {α β : Type} {c : Catalog} {limit : Nat} {owner : Option (Text × Pos)}

theorem reached_append_of_findSome?_eq_none {front back : List Stop}
    (h : front.findSome? (c.fault? limit) = none) :
    c.reached limit (front ++ back) = front ++ c.reached limit back := by
  rw [List.findSome?_eq_none_iff] at h
  apply List.takeWhile_append_of_pos
  intro s hs
  rw [h s hs]
  rfl

theorem reached_of_findSome?_eq_none {stops : List Stop}
    (h : stops.findSome? (c.fault? limit) = none) : c.reached limit stops = stops := by
  have happend : c.reached limit (stops ++ []) = stops ++ c.reached limit [] :=
    reached_append_of_findSome?_eq_none h
  rw [List.append_nil] at happend
  rw [happend]
  exact List.append_nil stops

theorem reached_append_of_findSome?_eq_some {front back : List Stop} {e : ExpandError}
    (h : front.findSome? (c.fault? limit) = some e) :
    c.reached limit (front ++ back) = c.reached limit front := by
  induction front with
  | nil => cases h
  | cons s front ih =>
    unfold reached at ih ⊢
    rw [List.findSome?_cons] at h
    cases hs : c.fault? limit s with
    | some fault => simp [hs]
    | none =>
      rw [hs] at h
      rw [List.cons_append, List.takeWhile_cons_of_pos (by simp [hs]),
        List.takeWhile_cons_of_pos (by simp [hs]), ih h]

/-- One visit behind another goes along the one outline behind the other. -/
theorem Follows.bind {v : Visit α} {f : α → Visit β} {front back : List Stop}
    (hv : c.Follows limit owner v front)
    (hf : ∀ a, v.result = .ok a → c.Follows limit owner (f a) back) :
    c.Follows limit owner (v.bind f) (front ++ back) := by
  have herror := hv.error
  cases hresult : v.result with
  | ok a =>
    -- Nothing is wrong in front, so the outline is followed into the back.
    rw [Visit.error?_eq_none_iff.mpr ⟨a, hresult⟩] at herror
    have hnone : front.findSome? (c.fault? limit) = none := herror.symm
    refine ⟨?_, ?_⟩
    · rw [Visit.warnings_bind_of_ok hresult, hv.warnings, (hf a hresult).warnings,
        reached_append_of_findSome?_eq_none hnone, reached_of_findSome?_eq_none hnone,
        List.filterMap_append]
    · rw [Visit.error?_bind_of_ok hresult, (hf a hresult).error, List.findSome?_append, hnone]
      rfl
  | error e =>
    have he : v.error? = some e := by
      unfold Visit.error?
      rw [hresult]
    rw [he] at herror
    have hsome : front.findSome? (c.fault? limit) = some (.laidTo owner e) := herror.symm
    rw [Visit.bind_of_error hresult]
    refine ⟨?_, ?_⟩
    · rw [reached_append_of_findSome?_eq_some hsome, ← hv.warnings]
      rfl
    · rw [List.findSome?_append, hsome]
      rfl

theorem Follows.map {v : Visit α} {stops : List Stop} (h : c.Follows limit owner v stops)
    (f : α → β) : c.Follows limit owner (v.map f) stops :=
  ⟨by rw [Visit.warnings_map, h.warnings], by rw [Visit.error?_map, h.error]⟩

/-- A node that is no call and has no fault passes without a trace. -/
theorem Follows.cons {v : Visit α} {stops : List Stop} {s : Stop}
    (h : c.Follows limit owner v stops) (hfault : c.fault? limit s = none)
    (hwarning : c.warning? s = none) : c.Follows limit owner v (s :: stops) := by
  refine ⟨?_, ?_⟩
  · unfold reached
    rw [List.takeWhile_cons_of_pos (by simp [hfault]), List.filterMap_cons, hwarning]
    exact h.warnings
  · rw [List.findSome?_cons, hfault]
    exact h.error

theorem follows_pure (a : α) : c.Follows limit owner (.pure a) [] := ⟨rfl, rfl⟩

/-- A fault in the first node ends the visit before anything is noted. -/
theorem follows_fail {stops : List Stop} {s : Stop} {e : ExpandError}
    (h : c.fault? limit s = some (.laidTo owner e)) :
    c.Follows limit owner (.fail e : Visit α) (s :: stops) := by
  refine ⟨?_, ?_⟩
  · unfold reached
    rw [List.takeWhile_cons_of_neg (by simp [h])]
    rfl
  · rw [List.findSome?_cons, h]
    rfl

end Follows

end Catalog

namespace Node

variable {c : Catalog} {limit depth : Nat} {owner : Option (Text × Pos)}
  {onCall : Text → Option Args → Pos → Visit (List Node)}
  {inside : Text → Option Args → Pos → List Stop}

mutual

theorem visit_follows
    (hcall : ∀ name args pos, c.Follows limit owner (onCall name args pos)
      (⟨.call name args pos, depth, owner⟩ :: inside name args pos)) :
    ∀ n : Node, c.Follows limit owner (visit onCall n) (outline inside depth owner n)
  | .declaration .. => (Catalog.follows_pure _).cons rfl rfl
  | .rule _ children _ => ((visitAll_follows hcall children).map _).cons rfl rfl
  | .call name args pos => hcall name args pos
  | .nothing => (Catalog.follows_pure _).cons rfl rfl
  | .foreign _ => Catalog.follows_fail rfl

/-- A visit of nodes goes along their outline, if its answers to calls go along
    what comes out of the calls. -/
theorem visitAll_follows
    (hcall : ∀ name args pos, c.Follows limit owner (onCall name args pos)
      (⟨.call name args pos, depth, owner⟩ :: inside name args pos)) :
    ∀ nodes : List Node,
      c.Follows limit owner (visitAll onCall nodes) (outlineAll inside depth owner nodes)
  | [] => Catalog.follows_pure _
  | n :: rest => by
    rw [visitAll, outlineAll]
    exact (visit_follows hcall n).bind fun front _ => (visitAll_follows hcall rest).map _

end

end Node

namespace Catalog

theorem outlineCall_of_unknown {c : Catalog} {name : Text} (h : c.find? name = none)
    (depth remaining : Nat) (args : Option Args) (pos : Pos) :
    c.outlineCall depth remaining name args pos = [] := by
  cases remaining with
  | zero => rfl
  | succ remaining => rw [outlineCall, h]

theorem follows_unknown {c : Catalog} {name : Text} (h : c.find? name = none)
    (limit depth remaining : Nat) (owner : Option (Text × Pos)) (args : Option Args) (pos : Pos) :
    c.Follows limit owner (c.expandCall depth remaining name args pos)
      (⟨.call name args pos, depth, owner⟩ :: c.outlineCall depth remaining name args pos) := by
  rw [expandCall_of_unknown h, outlineCall_of_unknown h]
  refine ⟨?_, ?_⟩
  · simp [Visit.warnings, warningsOf, Note.warning?, reached, fault?, warning?, h]
  · simp [Visit.error?, fault?, h]

/-- An answer to a call goes along the call and what comes out of it. The
    induction is on the levels that are left; `depth` of `limit` are used. -/
theorem expandCall_follows (c : Catalog) {limit : Nat} (owner : Option (Text × Pos))
    {depth remaining : Nat} (hlimit : depth + remaining = limit) (name : Text)
    (args : Option Args) (pos : Pos) :
    c.Follows limit owner (c.expandCall depth remaining name args pos)
      (⟨.call name args pos, depth, owner⟩ :: c.outlineCall depth remaining name args pos) := by
  induction remaining generalizing depth owner name args pos with
  | zero =>
    cases hfind : c.find? name with
    | none => exact follows_unknown hfind ..
    | some mixin =>
      rw [expandCall_zero hfind]
      apply follows_fail
      have hdeep : limit ≤ depth := by omega
      simp only [fault?, hfind, Option.isNone_some, if_pos hdeep]
      cases owner <;> rfl
  | succ remaining ih =>
    have hdeep : ¬ limit ≤ depth := by omega
    cases hfind : c.find? name with
    | none => exact follows_unknown hfind ..
    | some mixin =>
      cases hcall : c.call name args with
      | error failure =>
        rw [expandCall_of_failure hfind hcall]
        apply follows_fail
        simp only [fault?, hfind, hcall, Option.isNone_some, if_neg hdeep]
        cases owner <;> rfl
      | ok nodes =>
        -- The call itself has no fault; the nodes of its mixin are laid to it.
        have hinside := Node.visitAll_follows
          (fun inner args innerPos =>
            ih (some (name, pos)) (by omega : (depth + 1) + remaining = limit) inner args innerPos)
          nodes
        have hfault : c.fault? limit ⟨.call name args pos, depth, owner⟩ = none := by
          simp only [fault?, hfind, hcall, Option.isNone_some, if_neg hdeep]
          rfl
        have hwarning : c.warning? ⟨.call name args pos, depth, owner⟩ = none := by
          simp [warning?, hfind]
        rw [expandCall_of_nodes hfind hcall, outlineCall, hfind, hcall]
        refine Follows.cons ⟨?_, ?_⟩ hfault hwarning
        · exact hinside.warnings
        · rw [Visit.error?_mapError, Visit.error?_noting, ← hinside.error, Option.map_map]
          congr 1
          funext e
          cases owner with
          | none => rfl
          | some outer => cases e <;> rfl

/-- An expansion goes along the outline of its sheet. -/
theorem expandWithin_follows (c : Catalog) (limit : Nat) (sheet : Sheet) :
    c.Follows limit none (c.expandWithin limit sheet) (c.outline limit sheet) := by
  have hcall := fun name args pos =>
    c.expandCall_follows none (Nat.zero_add limit) name args pos
  unfold outline
  induction sheet with
  | nil => exact follows_pure _
  | cons r rest ih =>
    have hrule := (Node.visitAll_follows hcall r.children).cons
      (s := ⟨r.node, 0, none⟩) rfl rfl
    rw [expandWithin, List.map_cons, Node.outlineAll]
    exact hrule.bind fun children _ => ih.map _

/-- Calls are spliced in where they stand, and diagnostics come in document
    order. Whatever stands before and behind a node of a rule is expanded on its
    own, at the same depth; the results and the warnings are put together in
    order, up to the first part that fails. The warnings of a run are those of
    the nodes in front of its first fault, where the nodes that come out of a
    call follow the call; the fault is the error of the run. A rule keeps its
    selector and its place and holds what takes the places of its children. The
    same holds for the rules of a sheet. -/
theorem expansion_in_document_order (c : Catalog) (limit depth remaining : Nat)
    (owner : Option (Text × Pos)) :
    (∀ xs n ys, Visit.Splices (Node.visitAll (c.expandCall depth remaining) (xs ++ [n] ++ ys))
      [Node.visitAll (c.expandCall depth remaining) xs,
        Node.visit (c.expandCall depth remaining) n,
        Node.visitAll (c.expandCall depth remaining) ys]) ∧
    (∀ nodes, c.Follows (depth + remaining) owner
      (Node.visitAll (c.expandCall depth remaining) nodes)
      (Node.outlineAll (c.outlineCall depth remaining) depth owner nodes)) ∧
    (∀ selector children pos, Node.visit (c.expandCall depth remaining)
      (.rule selector children pos) =
        (Node.visitAll (c.expandCall depth remaining) children).map fun inside =>
          [.rule selector inside pos]) ∧
    (∀ rs r ss, Visit.Splices (c.expandWithin limit (rs ++ [r] ++ ss))
      [c.expandWithin limit rs, c.expandWithin limit [r], c.expandWithin limit ss]) ∧
    ∀ sheet, c.Follows limit none (c.expandWithin limit sheet) (c.outline limit sheet) := by
  refine ⟨?_, ?_, ?_, ?_, ?_⟩
  · intro xs n ys
    exact Node.visitAll_splices xs n ys
  · intro nodes
    exact Node.visitAll_follows (fun name args pos => c.expandCall_follows owner rfl name args pos)
      nodes
  · intro selector children pos
    rfl
  · intro rs r ss
    exact c.expandWithin_splices limit rs r ss
  · intro sheet
    exact c.expandWithin_follows limit sheet

/-- The second call gives an unknown call and then a foreign node: the warnings
    in front of the fault are kept, and the call behind it is not reached. -/
example :
    let wrap : Mixin := .ofSteps
      [.node (.call (utf8 "inner") none .unknown), .node (.foreign (utf8 "thing"))]
    let catalog : Catalog := .ofOverrides [(utf8 "wrap", some wrap)] .standard
    let sheet : Sheet := [⟨utf8 ".a", [.call (utf8 "outer") none ⟨5, 1, 6⟩,
      .call (utf8 "wrap") none ⟨14, 1, 15⟩, .call (utf8 "later") none ⟨22, 1, 23⟩], ⟨0, 1, 1⟩⟩]
    (warningsOf (catalog.expandWithin 4 sheet).notes).map Warning.message =
      [utf8 "unknown mixin: outer", utf8 "unknown mixin: inner"] := by
  rfl

end Catalog

end MixinCss
