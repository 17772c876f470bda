/-
  MixinCss.Proofs.Sheet.Limit

  The limit on how deep calls may come out of calls. It is a bound on the work
  and not a setting of the language: a run that the limit does not cut off is
  the same run under every larger limit, with the same notes and the same
  result (`expandWithin_of_le`).

  As in `MixinCss.Proofs.Sheet.Expansion`, a statement is first made about a
  visit whose calls are answered somehow, and then about the calls, by induction
  on the levels that are left.
-/

import MixinCss.Proofs.Sheet.Expansion

namespace MixinCss

/-! ## Runs that are cut off -/

namespace Visit

variable {α β : Type}

theorem map_id (v : Visit α) : v.map (fun a => a) = v := by
  obtain ⟨notes, result⟩ := v
  cases result <;> rfl

/-- The visit failed because a call came out of too many others. -/
def TooDeep (v : Visit α) : Prop := ∃ name pos, v.result = .error (.call name pos .tooDeep)

theorem not_tooDeep_of_ok {v : Visit α} {a : α} (h : v.result = .ok a) : ¬ v.TooDeep := by
  rintro ⟨name, pos, herror⟩
  rw [h] at herror
  cases herror

theorem TooDeep.bind {v : Visit α} {f : α → Visit β} (h : v.TooDeep) : (v.bind f).TooDeep := by
  obtain ⟨name, pos, herror⟩ := h
  exact ⟨name, pos, bind_result_eq_error.mpr (.inl herror)⟩

theorem TooDeep.bind_right {v : Visit α} {f : α → Visit β} {a : α} (ha : v.result = .ok a)
    (h : (f a).TooDeep) : (v.bind f).TooDeep := by
  obtain ⟨name, pos, herror⟩ := h
  exact ⟨name, pos, bind_result_eq_error.mpr (.inr ⟨a, ha, herror⟩)⟩

theorem tooDeep_map_iff {v : Visit α} {f : α → β} : (v.map f).TooDeep ↔ v.TooDeep := by
  unfold TooDeep
  simp only [map_result_eq_error]

theorem tooDeep_noting_iff {v : Visit α} {n : Note} : (v.noting n).TooDeep ↔ v.TooDeep := by
  unfold TooDeep
  rw [noting_result]

/-- Laying an error to a call further outside keeps the depth check apart from
    all other errors. -/
theorem tooDeep_within_iff {v : Visit α} {name : Text} {pos : Pos} :
    (v.mapError (.within name pos)).TooDeep ↔ v.TooDeep := by
  unfold TooDeep
  simp only [mapError_result_eq_error]
  constructor
  · rintro ⟨inner, innerPos, e, he, hwithin⟩
    cases e with
    | call name' pos' fault =>
      cases hwithin
      exact ⟨inner, innerPos, he⟩
    | unexpectedNode kind => cases hwithin
  · rintro ⟨inner, innerPos, he⟩
    exact ⟨inner, innerPos, .call inner innerPos .tooDeep, he, rfl⟩

end Visit

/-! ## Visits -/

namespace Node

variable {onCall onCall' : Text → Option Args → Pos → Visit (List Node)}

mutual

/-- A visit that is not cut off stays the same when calls that are not cut off
    keep their answers. -/
theorem visit_eq_of_not_tooDeep
    (hcall : ∀ name args pos, ¬ (onCall name args pos).TooDeep →
      onCall' name args pos = onCall name args pos) :
    ∀ n : Node, ¬ (visit onCall n).TooDeep → visit onCall' n = visit onCall n
  | .declaration property value pos, _ => rfl
  | .rule selector children pos, h => by
    rw [visit, Visit.tooDeep_map_iff] at h
    rw [visit, visit, visitAll_eq_of_not_tooDeep hcall children h]
  | .call name args pos, h => hcall name args pos h
  | .nothing, _ => rfl
  | .foreign kind, _ => rfl

theorem visitAll_eq_of_not_tooDeep
    (hcall : ∀ name args pos, ¬ (onCall name args pos).TooDeep →
      onCall' name args pos = onCall name args pos) :
    ∀ nodes : List Node, ¬ (visitAll onCall nodes).TooDeep →
      visitAll onCall' nodes = visitAll onCall nodes
  | [], _ => rfl
  | n :: rest, h => by
    rw [visitAll] at h
    have hfirst := visit_eq_of_not_tooDeep hcall n (fun hdeep => h hdeep.bind)
    rw [visitAll, visitAll, hfirst]
    unfold Visit.bind
    -- The rest is visited only if the first node has a result.
    cases hresult : (visit onCall n).result with
    | error e => rfl
    | ok front =>
      have hrest : ¬ (visitAll onCall rest).TooDeep := fun hdeep =>
        h (.bind_right hresult (Visit.tooDeep_map_iff.mpr hdeep))
      dsimp only
      rw [visitAll_eq_of_not_tooDeep hcall rest hrest]

end

mutual

/-- Only calls are refused for their depth. -/
theorem visit_tooDeep_known (known : Text → Prop)
    (hcall : ∀ name args pos inner innerPos,
      (onCall name args pos).result = .error (.call inner innerPos .tooDeep) → known inner) :
    ∀ (n : Node) {name : Text} {pos : Pos},
      (visit onCall n).result = .error (.call name pos .tooDeep) → known name
  | .declaration property value _, name, pos, h => by
    simp [visit, Visit.pure] at h
  | .rule selector children _, name, pos, h => by
    rw [visit, Visit.map_result_eq_error] at h
    exact visitAll_tooDeep_known known hcall children h
  | .call name' args pos', name, pos, h => hcall name' args pos' name pos h
  | .nothing, name, pos, h => by
    simp [visit, Visit.pure] at h
  | .foreign kind, name, pos, h => by
    simp [visit, Visit.fail] at h

theorem visitAll_tooDeep_known (known : Text → Prop)
    (hcall : ∀ name args pos inner innerPos,
      (onCall name args pos).result = .error (.call inner innerPos .tooDeep) → known inner) :
    ∀ (nodes : List Node) {name : Text} {pos : Pos},
      (visitAll onCall nodes).result = .error (.call name pos .tooDeep) → known name
  | [], name, pos, h => by
    simp [visitAll, Visit.pure] at h
  | n :: rest, name, pos, h => by
    rw [visitAll, Visit.bind_result_eq_error] at h
    rcases h with h | ⟨front, -, h⟩
    · exact visit_tooDeep_known known hcall n h
    · exact visitAll_tooDeep_known known hcall rest (Visit.map_result_eq_error.mp h)

end

/-- The nodes inside of rules with the given selectors and places, the outermost
    rule first. -/
def enclose : List (Text × Pos) → List Node → List Node
  | [], nodes => nodes
  | (selector, pos) :: headings, nodes => [.rule selector (enclose headings nodes) pos]

/-- Rules around nodes are still around what takes the places of the nodes, and
    that is all they do: calls are answered as they were. -/
theorem visitAll_enclose (headings : List (Text × Pos)) (nodes : List Node) :
    visitAll onCall (enclose headings nodes) =
      (visitAll onCall nodes).map (enclose headings) := by
  induction headings with
  | nil => exact (Visit.map_id _).symm
  | cons heading headings ih =>
    obtain ⟨selector, pos⟩ := heading
    rw [enclose, visitAll, visit, ih, visitAll]
    unfold Visit.bind Visit.map Visit.pure
    cases (visitAll onCall nodes).result with
    | ok inside => simp [Except.map, enclose]
    | error e => simp [Except.map]

end Node

/-! ## Calls and sheets -/

namespace Catalog

/-- More levels than a call uses change nothing about it. The induction is on
    the levels that it is given. -/
theorem expandCall_of_le (c : Catalog) {n m : Nat} (h : n ≤ m) (depth : Nat) (name : Text)
    (args : Option Args) (pos : Pos) (hdeep : ¬ (c.expandCall depth n name args pos).TooDeep) :
    c.expandCall depth m name args pos = c.expandCall depth n name args pos := by
  induction n generalizing m depth name args pos with
  | zero =>
    -- Without a level left only an unknown call is not cut off.
    cases hfind : c.find? name with
    | none => rw [expandCall_of_unknown hfind, expandCall_of_unknown hfind]
    | some mixin =>
      rw [expandCall_zero hfind] at hdeep
      exact absurd ⟨name, pos, rfl⟩ hdeep
  | succ n ih =>
    obtain ⟨m, rfl⟩ : ∃ m', m = m' + 1 := ⟨m - 1, by omega⟩
    cases hfind : c.find? name with
    | none => rw [expandCall_of_unknown hfind, expandCall_of_unknown hfind]
    | some mixin =>
      cases hcall : c.call name args with
      | error failure => rw [expandCall_of_failure hfind hcall, expandCall_of_failure hfind hcall]
      | ok nodes =>
        rw [expandCall_of_nodes hfind hcall, Visit.tooDeep_within_iff,
          Visit.tooDeep_noting_iff] at hdeep
        have hinside := Node.visitAll_eq_of_not_tooDeep
          (fun name args pos => ih (by omega : n ≤ m) (depth + 1) name args pos) nodes hdeep
        rw [expandCall_of_nodes hfind hcall, expandCall_of_nodes hfind hcall, hinside]

/-- A call that is refused for its depth is a call of a known name. -/
theorem expandCall_tooDeep_known (c : Catalog) {depth remaining : Nat} {name : Text}
    {args : Option Args} {pos : Pos} {inner : Text} {innerPos : Pos}
    (h : (c.expandCall depth remaining name args pos).result =
      .error (.call inner innerPos .tooDeep)) : (c.find? inner).isSome := by
  induction remaining generalizing depth name args pos inner innerPos with
  | zero =>
    cases hfind : c.find? name with
    | none =>
      rw [expandCall_of_unknown hfind] at h
      cases h
    | some mixin =>
      rw [expandCall_zero hfind] at h
      cases h
      rw [hfind]
      rfl
  | succ remaining ih =>
    cases hfind : c.find? name with
    | none =>
      rw [expandCall_of_unknown hfind] at h
      cases h
    | some mixin =>
      cases hcall : c.call name args with
      | error failure =>
        rw [expandCall_of_failure hfind hcall] at h
        cases h
      | ok nodes =>
        rw [expandCall_of_nodes hfind hcall, Visit.mapError_result_eq_error] at h
        obtain ⟨e, he, hwithin⟩ := h
        -- What was found inside is laid to the call itself only if it is a node.
        cases e with
        | unexpectedNode kind => cases hwithin
        | call name' pos' fault =>
          cases hwithin
          exact Node.visitAll_tooDeep_known (fun name => (c.find? name).isSome)
            (fun _ _ _ _ _ herror => ih herror) nodes he

/-- A run that is not cut off is the same under every larger limit. -/
theorem expandWithin_of_le (c : Catalog) {n m : Nat} (h : n ≤ m) (sheet : Sheet)
    (hdeep : ¬ (c.expandWithin n sheet).TooDeep) :
    c.expandWithin m sheet = c.expandWithin n sheet := by
  induction sheet with
  | nil => rfl
  | cons r rest ih =>
    rw [expandWithin] at hdeep
    have hchildren := Node.visitAll_eq_of_not_tooDeep
      (fun name args pos => c.expandCall_of_le h 0 name args pos) r.children
      (fun hdeep' => hdeep hdeep'.bind)
    rw [expandWithin, expandWithin, hchildren]
    unfold Visit.bind
    cases hresult : (Node.visitAll (c.expandCall 0 n) r.children).result with
    | error e => rfl
    | ok children =>
      have hrest : ¬ (c.expandWithin n rest).TooDeep := fun hdeep' =>
        hdeep (.bind_right hresult (Visit.tooDeep_map_iff.mpr hdeep'))
      dsimp only
      rw [ih hrest]

theorem expandWithin_tooDeep_known (c : Catalog) {limit : Nat} {sheet : Sheet} {name : Text}
    {pos : Pos} (h : (c.expandWithin limit sheet).result = .error (.call name pos .tooDeep)) :
    (c.find? name).isSome := by
  induction sheet with
  | nil => cases h
  | cons r rest ih =>
    rw [expandWithin, Visit.bind_result_eq_error] at h
    rcases h with h | ⟨children, -, h⟩
    · exact Node.visitAll_tooDeep_known (fun name => (c.find? name).isSome)
        (fun _ _ _ _ _ herror => c.expandCall_tooDeep_known herror) r.children h
    · exact ih (Visit.map_result_eq_error.mp h)

/-- The limit cuts runs off and does nothing else. A run that does not fail on
    the depth check is the same under every larger limit, notes, warnings and
    error included; so a run that fails on it fails on it under every smaller
    limit. Rules use no depth, however many are around a node. The depth check
    refuses known names only: a call of an unknown name is dropped and noted
    whatever number of levels is left, also if none is. -/
theorem expandWithin_limit (c : Catalog) {n m : Nat} (h : n ≤ m) (sheet : Sheet) :
    (¬ (c.expandWithin n sheet).TooDeep → c.expandWithin m sheet = c.expandWithin n sheet) ∧
      ((c.expandWithin m sheet).TooDeep → (c.expandWithin n sheet).TooDeep) ∧
      (∀ depth remaining headings nodes,
        Node.visitAll (c.expandCall depth remaining) (Node.enclose headings nodes) =
          (Node.visitAll (c.expandCall depth remaining) nodes).map (Node.enclose headings)) ∧
      (∀ name pos, (c.expandWithin n sheet).result = .error (.call name pos .tooDeep) →
        (c.find? name).isSome) ∧
      ∀ name args pos depth remaining, c.find? name = none →
        c.expandCall depth remaining name args pos = ⟨[.unknown name pos], .ok []⟩ := by
  have hsame := c.expandWithin_of_le h sheet
  refine ⟨hsame, ?_, ?_, ?_, ?_⟩
  · intro hdeep
    by_cases hfine : (c.expandWithin n sheet).TooDeep
    · exact hfine
    · rwa [hsame hfine] at hdeep
  · intro depth remaining headings nodes
    exact Node.visitAll_enclose headings nodes
  · intro name pos herror
    exact c.expandWithin_tooDeep_known herror
  · intro name args pos depth remaining hfind
    exact expandCall_of_unknown hfind depth remaining args pos

/-- A call that needs two levels and drops an unknown call at the second one,
    and a call that comes out of itself. -/
theorem expandWithin_limit_recipes :
    let wrap : Mixin := .ofSteps [.node (.call (utf8 "hide") none .unknown),
      .node (.rule (utf8 "&:hover") [.call (utf8 "missing") none .unknown] .unknown)]
    let again : Mixin := .ofSteps [.node (.call (utf8 "again") none .unknown)]
    let catalog : Catalog :=
      .ofOverrides [(utf8 "wrap", some wrap), (utf8 "again", some again)] .standard
    let nested : Sheet := [⟨utf8 ".a", [.call (utf8 "wrap") none ⟨5, 1, 6⟩], ⟨0, 1, 1⟩⟩]
    let runaway : Sheet := [⟨utf8 ".a", [.call (utf8 "again") none ⟨5, 1, 6⟩], ⟨0, 1, 1⟩⟩]
    ¬ (catalog.expandWithin 2 nested).TooDeep ∧
      catalog.expandWithin 64 nested = catalog.expandWithin 2 nested ∧
      (catalog.expandWithin 3 runaway).TooDeep ∧ (catalog.expandWithin 1 runaway).TooDeep := by
  intro wrap again catalog nested runaway
  have hfine : ¬ (catalog.expandWithin 2 nested).TooDeep := Visit.not_tooDeep_of_ok rfl
  have hdeep : (catalog.expandWithin 3 runaway).TooDeep := ⟨utf8 "again", .unknown, rfl⟩
  refine ⟨hfine, ?_, hdeep, ?_⟩
  · exact (catalog.expandWithin_limit (by decide : 2 ≤ 64) nested).1 hfine
  · exact (catalog.expandWithin_limit (by decide : 1 ≤ 3) runaway).2.1 hdeep

end Catalog

end MixinCss
