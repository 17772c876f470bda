/-
  MixinCss.Proofs.Sheet.Attribution

  Which call an error is laid to. The outline of a sheet lists every node on the
  way through it, and a run fails by the first node of the outline that is at
  fault. If that node is a call, the error is its own. If it is a foreign node,
  the error belongs to the call out of which the node came:

    * `Node.outlineAll_placed` says where a node can stand in an outline;
    * `Catalog.outlineAll_comesFrom` finds the call out of which it came, by
      induction on the levels of expansion;
    * `Catalog.expandWithin_error_innermost` reads the two along a run.
-/

import MixinCss.Proofs.Check
import MixinCss.Proofs.Sheet.Order

namespace MixinCss

/-! ## Places in an outline -/

theorem append_eq_append_cons {α : Type} {xs ys front back : List α} {a : α}
    (h : xs ++ ys = front ++ a :: back) :
    (∃ more, xs = front ++ a :: more ∧ back = more ++ ys) ∨
      ∃ more, front = xs ++ more ∧ ys = more ++ a :: back := by
  rcases List.append_eq_append_iff.mp h with ⟨more, hfront, hys⟩ | ⟨more, hxs, hback⟩
  · exact .inr ⟨more, hfront, hys⟩
  · cases more with
    | nil =>
      rw [List.append_nil] at hxs
      exact .inr ⟨[], by rw [hxs, List.append_nil], hback.symm⟩
    | cons b more =>
      cases hback
      exact .inl ⟨more, hxs, rfl⟩

namespace Node

variable {inside : Text → Option Args → Pos → List Stop} {depth : Nat}
  {owner : Option (Text × Pos)} {nodes : List Node} {front back : List Stop} {s : Stop}

/-- Where a stop stands in the outline of `nodes`, with the stops in front of it
    and behind it. -/
inductive Placed (inside : Text → Option Args → Pos → List Stop) (depth : Nat)
    (owner : Option (Text × Pos)) (nodes : List Node) : List Stop → Stop → List Stop → Prop where
  /-- It is one of the nodes or below one. What comes out of a call follows it. -/
  | own {front back : List Stop} {n : Node} (hn : n ∈ membersAll nodes)
      (hcall : ∀ name args pos, n = .call name args pos → inside name args pos <+: back) :
      Placed inside depth owner nodes front ⟨n, depth, owner⟩ back
  /-- It comes out of a call that is one of the nodes or below one. -/
  | inner {before mid post back : List Stop} {s : Stop} {name : Text} {args : Option Args}
      {pos : Pos} (hinside : inside name args pos = mid ++ s :: post) :
      Placed inside depth owner nodes (before ++ ⟨.call name args pos, depth, owner⟩ :: mid) s
        (post ++ back)

/-- More nodes around those of an outline leave the place as it is. -/
theorem Placed.extend {nodes' : List Node} (h : Placed inside depth owner nodes front s back)
    (hnodes : membersAll nodes ⊆ membersAll nodes') (before behind : List Stop) :
    Placed inside depth owner nodes' (before ++ front) s (back ++ behind) := by
  cases h with
  | own hn hcall =>
    refine .own (hnodes hn) fun name args pos hname => ?_
    exact (hcall name args pos hname).trans (List.prefix_append _ behind)
  | inner hinside =>
    rw [← List.append_assoc before, List.append_assoc _ _ behind]
    exact .inner hinside

/-- The first stop in the outline of a node is the node itself. -/
theorem placed_first {n : Node} {below : List Stop}
    (hcall : ∀ name args pos, n = .call name args pos → inside name args pos = below)
    (hbelow : ∀ mid, below = mid ++ s :: back →
      Placed inside depth owner [n] (⟨n, depth, owner⟩ :: mid) s back)
    (h : (⟨n, depth, owner⟩ : Stop) :: below = front ++ s :: back) :
    Placed inside depth owner [n] front s back := by
  rcases List.cons_eq_append_iff.mp h with ⟨rfl, hhead⟩ | ⟨mid, rfl, hrest⟩
  · rw [List.cons.injEq] at hhead
    obtain ⟨rfl, rfl⟩ := hhead
    refine .own ?_ fun name args pos hname => ?_
    · rw [membersAll_singleton]
      exact mem_members n
    · exact hcall name args pos hname ▸ List.prefix_refl _
  · exact hbelow mid hrest

/-- A node that holds nothing is the only stop of its outline. -/
theorem placed_leaf {n : Node} (hn : ∀ name args pos, n ≠ .call name args pos)
    (h : [(⟨n, depth, owner⟩ : Stop)] = front ++ s :: back) :
    Placed inside depth owner [n] front s back := by
  refine placed_first (fun name args pos hname => absurd hname (hn name args pos)) ?_ h
  intro mid hmid
  exact absurd hmid.symm (by simp)

mutual

theorem outline_placed :
    ∀ (n : Node) {front back : List Stop} {s : Stop},
      outline inside depth owner n = front ++ s :: back →
        Placed inside depth owner [n] front s back
  | .declaration .., front, back, s, h => placed_leaf (by simp) h
  | .rule selector children pos, front, back, s, h => by
    refine placed_first (by simp) ?_ h
    intro mid hmid
    have hsub : membersAll children ⊆ membersAll [.rule selector children pos] := by
      intro m hm
      simp [members, hm]
    have hplaced := (outlineAll_placed children hmid).extend hsub
      [⟨.rule selector children pos, depth, owner⟩] []
    rwa [List.append_nil] at hplaced
  | .call name args pos, front, back, s, h => by
    refine placed_first ?_ ?_ h
    · intro name' args' pos' hname
      cases hname
      rfl
    · intro mid hmid
      have hplaced : Placed inside depth owner [.call name args pos]
          ([] ++ ⟨.call name args pos, depth, owner⟩ :: mid) s (back ++ []) := .inner hmid
      rwa [List.append_nil] at hplaced
  | .nothing, front, back, s, h => placed_leaf (by simp) h
  | .foreign _, front, back, s, h => placed_leaf (by simp) h

/-- A stop in the outline of nodes is one of them, or comes out of a call. -/
theorem outlineAll_placed :
    ∀ (nodes : List Node) {front back : List Stop} {s : Stop},
      outlineAll inside depth owner nodes = front ++ s :: back →
        Placed inside depth owner nodes front s back
  | [], front, back, s, h => absurd h.symm (by simp [outlineAll])
  | n :: rest, front, back, s, h => by
    rcases append_eq_append_cons h with ⟨more, hn, rfl⟩ | ⟨more, rfl, hrest⟩
    · refine (outline_placed n hn).extend ?_ [] (outlineAll inside depth owner rest)
      rw [membersAll_singleton, membersAll_cons]
      exact List.subset_append_left _ _
    · have hsub : membersAll rest ⊆ membersAll (n :: rest) := List.subset_append_right _ _
      have hplaced :=
        (outlineAll_placed rest hrest).extend hsub (outline inside depth owner n) []
      rwa [List.append_nil] at hplaced

end

end Node

/-! ## Where a stop comes from -/

namespace Catalog

variable {c : Catalog} {limit depth remaining : Nat} {owner : Option (Text × Pos)}
  {nodes : List Node} {front back : List Stop} {s : Stop}

/-- What comes out of a call comes out of the nodes of its mixin. -/
theorem outlineCall_eq_append_cons {name : Text} {args : Option Args} {pos : Pos}
    (h : c.outlineCall depth remaining name args pos = front ++ s :: back) :
    ∃ rest made, remaining = rest + 1 ∧ (c.find? name).isSome ∧ c.call name args = .ok made ∧
      Node.outlineAll (c.outlineCall (depth + 1) rest) (depth + 1) (some (name, pos)) made =
        front ++ s :: back := by
  cases remaining with
  | zero => exact absurd h.symm (by simp [outlineCall])
  | succ rest =>
    rw [outlineCall] at h
    split at h
    · rename_i mixin made hfind hcall
      exact ⟨rest, made, rfl, by rw [hfind]; rfl, hcall, h⟩
    · exact absurd h.symm (by simp)

/-- A stop that comes directly out of a call in front of it: its node is one of
    those that the mixin of the call gave, or below one, and no other call is
    between the two. -/
inductive ComesFrom (c : Catalog) (limit : Nat) : List Stop → Stop → List Stop → Prop where
  | intro {before mid post rest : List Stop} {n : Node} {name : Text} {args : Option Args}
      {pos : Pos} {depth : Nat} {owner : Option (Text × Pos)} {made : List Node}
      (hdepth : depth < limit) (hknown : (c.find? name).isSome)
      (hcall : c.call name args = .ok made) (hn : n ∈ Node.membersAll made)
      (hinside : c.outlineCall depth (limit - depth) name args pos =
        mid ++ ⟨n, depth + 1, some (name, pos)⟩ :: post) :
      ComesFrom c limit (before ++ ⟨.call name args pos, depth, owner⟩ :: mid)
        ⟨n, depth + 1, some (name, pos)⟩ (post ++ rest)

theorem ComesFrom.extend (h : c.ComesFrom limit front s back) (before behind : List Stop) :
    c.ComesFrom limit (before ++ front) s (back ++ behind) := by
  obtain ⟨hdepth, hknown, hcall, hn, hinside⟩ := h
  rw [← List.append_assoc before, List.append_assoc _ _ behind]
  exact .intro hdepth hknown hcall hn hinside

/-- A stop in the outline of nodes is one of them or below one, or it comes out
    of a call. The induction is on the levels of expansion that are listed. -/
theorem outlineAll_comesFrom (hlimit : depth + remaining = limit)
    (h : Node.outlineAll (c.outlineCall depth remaining) depth owner nodes = front ++ s :: back) :
    s.node ∈ Node.membersAll nodes ∧ s.depth = depth ∧ s.owner = owner ∨
      c.ComesFrom limit front s back := by
  induction remaining generalizing depth owner nodes front back with
  | zero =>
    cases Node.outlineAll_placed nodes h with
    | own hn _ => exact .inl ⟨hn, rfl, rfl⟩
    | inner hinside => exact absurd hinside.symm (by simp [outlineCall])
  | succ remaining ih =>
    cases Node.outlineAll_placed nodes h with
    | own hn _ => exact .inl ⟨hn, rfl, rfl⟩
    | @inner before mid post rest s name args pos hinside =>
      obtain ⟨less, made, hless, hknown, hcall, hmade⟩ := outlineCall_eq_append_cons hinside
      obtain rfl : remaining = less := by omega
      rcases ih (by omega) hmade with ⟨hn, hdepth, howner⟩ | hcomes
      · -- The stop is one of the nodes of this very call.
        obtain ⟨n, d, o⟩ := s
        obtain rfl : d = depth + 1 := hdepth
        obtain rfl : o = some (name, pos) := howner
        have hleft : limit - depth = remaining + 1 := by omega
        refine .inr (.intro (by omega) hknown hcall hn ?_)
        rw [hleft]
        exact hinside
      · have hextended := hcomes.extend (before ++ [⟨.call name args pos, depth, owner⟩]) rest
        rw [List.append_assoc] at hextended
        exact .inr hextended

/-- Behind a call in an outline stands what comes out of it, and no call is
    inside of more expansions than are allowed. -/
theorem outlineAll_call {name : Text} {args : Option Args} {pos : Pos} {d : Nat}
    {o : Option (Text × Pos)} (hlimit : depth + remaining = limit)
    (h : Node.outlineAll (c.outlineCall depth remaining) depth owner nodes =
      front ++ ⟨.call name args pos, d, o⟩ :: back) :
    d ≤ limit ∧ c.outlineCall d (limit - d) name args pos <+: back := by
  induction remaining generalizing depth owner nodes front back with
  | zero =>
    cases Node.outlineAll_placed nodes h with
    | own hn hcall =>
      have hleft : limit - d = 0 := by omega
      rw [hleft]
      exact ⟨by omega, hcall name args pos rfl⟩
    | inner hinside => exact absurd hinside.symm (by simp [outlineCall])
  | succ remaining ih =>
    cases Node.outlineAll_placed nodes h with
    | own hn hcall =>
      have hleft : limit - d = remaining + 1 := by omega
      rw [hleft]
      exact ⟨by omega, hcall name args pos rfl⟩
    | inner hinside =>
      obtain ⟨less, made, hless, -, -, hmade⟩ := outlineCall_eq_append_cons hinside
      obtain rfl : remaining = less := by omega
      obtain ⟨hd, hpost⟩ := ih (by omega) hmade
      exact ⟨hd, hpost.trans (List.prefix_append _ _)⟩

/-! ## The call at fault -/

/-- Nothing is wrong with a node in its place. A call passes if its name is
    unknown, and it is dropped, or if it is inside of fewer expansions than are
    allowed and its mixin gives nodes. Foreign nodes do not pass. -/
def Passes (c : Catalog) (limit : Nat) (s : Stop) : Prop :=
  match s.node with
  | .call name args _ =>
    c.find? name = none ∨ s.depth < limit ∧ ∃ made, c.call name args = .ok made
  | .foreign _ => False
  | _ => True

theorem passes_of_fault? (h : c.fault? limit s = none) : c.Passes limit s := by
  obtain ⟨n, d, o⟩ := s
  cases n with
  | call name args pos =>
    show c.find? name = none ∨ d < limit ∧ ∃ made, c.call name args = .ok made
    simp only [fault?] at h
    split at h
    · rename_i hunknown
      exact .inl (Option.isNone_iff_eq_none.mp hunknown)
    · split at h
      · cases h
      · rename_i hdeep
        split at h
        · rename_i made hcall
          exact .inr ⟨by omega, made, hcall⟩
        · cases h
  | foreign kind => cases h
  | _ => trivial

/-- Why a call is at fault that stands inside of `depth` expansions. -/
inductive FailsBy (c : Catalog) (limit depth : Nat) (name : Text) (args : Option Args)
    (pos : Pos) : CallFault → Prop where
  /-- It is inside of as many expansions as are allowed. -/
  | tooDeep (hdepth : depth = limit) : FailsBy c limit depth name args pos .tooDeep
  /-- Its own mixin fails or breaks off. -/
  | mixin {failure : MixinFailure} (hdepth : depth < limit)
      (hcall : c.call name args = .error failure) :
      FailsBy c limit depth name args pos (.mixin failure)
  /-- Its own mixin gives a foreign node, and nothing that comes out of the call
      in front of that node is at fault. -/
  | unexpectedNode {made : List Node} {kind : Text} {mid post : List Stop} (hdepth : depth < limit)
      (hcall : c.call name args = .ok made) (hnode : .foreign kind ∈ Node.membersAll made)
      (hinside : c.outlineCall depth (limit - depth) name args pos =
        mid ++ ⟨.foreign kind, depth + 1, some (name, pos)⟩ :: post)
      (hmid : ∀ s ∈ mid, c.Passes limit s) :
      FailsBy c limit depth name args pos (.unexpectedNode kind)

theorem FailsBy.tooDeep_iff {name : Text} {args : Option Args} {pos : Pos} {fault : CallFault}
    (h : c.FailsBy limit depth name args pos fault) : fault = .tooDeep ↔ depth = limit := by
  cases h with
  | tooDeep hdepth => exact iff_of_true rfl hdepth
  | mixin hdepth _ => exact iff_of_false (by simp) (by omega)
  | unexpectedNode hdepth _ _ _ _ => exact iff_of_false (by simp) (by omega)

/-- A call that is at fault itself fails by its depth or by its own mixin. -/
theorem failsBy_of_fault? {name : Text} {args : Option Args} {pos : Pos} {e : ExpandError}
    (h : c.fault? limit ⟨.call name args pos, depth, owner⟩ = some e) (hdepth : depth ≤ limit) :
    ∃ fault, e = .call name pos fault ∧ (c.find? name).isSome ∧
      c.FailsBy limit depth name args pos fault := by
  simp only [fault?] at h
  split at h
  · cases h
  · rename_i hunknown
    have hknown : (c.find? name).isSome := by
      cases hfind : c.find? name with
      | none => exact absurd (by rw [hfind]; rfl) hunknown
      | some mixin => rfl
    split at h
    · rename_i hdeep
      cases h
      exact ⟨.tooDeep, rfl, hknown, .tooDeep (by omega)⟩
    · rename_i hdeep
      split at h
      · cases h
      · rename_i failure hcall
        cases h
        exact ⟨.mixin failure, rfl, hknown, .mixin (by omega) hcall⟩

/-- Every error of an expansion is laid to the innermost call at fault. It is a
    call of a known name in the sheet or in what came out of another call, and
    every node in front of it on the way through the sheet has passed. What is
    wrong with it is its depth exactly if it stands inside of as many expansions
    as are allowed; else the failure of its own mixin; else a foreign node among
    the nodes of its own mixin. No call further outside adds anything. -/
theorem expandWithin_error_innermost (c : Catalog) (limit : Nat) (src : Text) (sheet : Sheet)
    (e : ExpandError) (hparse : parse src = .ok sheet)
    (h : (c.expandWithin limit sheet).result = .error e) :
    ∃ name args pos fault depth owner front back,
      e = .call name pos fault ∧
      e.message = pos.label (utf8 "mixin " ++ name ++ utf8 ": " ++ fault.message) ∧
      c.outline limit sheet = front ++ ⟨.call name args pos, depth, owner⟩ ::
        (c.outlineCall depth (limit - depth) name args pos ++ back) ∧
      (c.find? name).isSome ∧
      (∀ s ∈ front, c.Passes limit s) ∧
      c.FailsBy limit depth name args pos fault ∧
      (fault = .tooDeep ↔ depth = limit) := by
  have herror := (c.expandWithin_follows limit sheet).error
  rw [Visit.error?_eq_some_iff.mpr h] at herror
  obtain ⟨front, s, back, houtline, hfault, hfront⟩ := List.findSome?_eq_some_iff.mp herror.symm
  have hpasses : ∀ s ∈ front, c.Passes limit s := fun s hs => passes_of_fault? (hfront s hs)
  obtain ⟨n, depth, owner⟩ := s
  cases n with
  | declaration => cases hfault
  | rule => cases hfault
  | nothing => cases hfault
  | call name args pos =>
    obtain ⟨hdepth, rest, rfl⟩ := outlineAll_call (Nat.zero_add limit) houtline
    obtain ⟨fault, rfl, hknown, hfails⟩ := failsBy_of_fault? hfault hdepth
    exact ⟨name, args, pos, fault, depth, owner, front, rest, rfl, rfl, houtline, hknown, hpasses,
      hfails, hfails.tooDeep_iff⟩
  | foreign kind =>
    rcases outlineAll_comesFrom (Nat.zero_add limit) houtline with ⟨hmem, -, -⟩ | hcomes
    · -- The sheet itself holds no foreign node.
      obtain ⟨_, -, hderived⟩ := parse_eq_ok_iff.mp hparse
      exact absurd (hderived.not_foreign _ hmem) (by simp [Node.isForeign])
    · cases hcomes with
      | @intro before mid post rest n name args pos d o made hdepth hknown hcall hn hinside =>
        cases hfault
        rw [List.forall_mem_append, List.forall_mem_cons] at hpasses
        obtain ⟨hbefore, -, hmid⟩ := hpasses
        have hfails : c.FailsBy limit d name args pos (.unexpectedNode kind) :=
          .unexpectedNode hdepth hcall hn hinside hmid
        refine ⟨name, args, pos, .unexpectedNode kind, d, o, before, rest, rfl, rfl, ?_, hknown,
          hbefore, hfails, hfails.tooDeep_iff⟩
        rw [houtline, hinside]
        simp

/-- A call gives a rule with a second call, and the second call drops an unknown
    one and then gives a foreign node inside of a rule: the error is that of the
    second call. -/
theorem expandWithin_error_innermost_nested :
    let inner : Mixin := .ofSteps [.node (.call (utf8 "no") none .unknown),
      .node (.rule (utf8 "&:hover") [.foreign (utf8 "thing")] .unknown)]
    let outer : Mixin := .ofSteps [.node (.call (utf8 "hide") none .unknown),
      .node (.rule (utf8 "& p") [.call (utf8 "inner") none .unknown] .unknown)]
    let catalog : Catalog :=
      .ofOverrides [(utf8 "inner", some inner), (utf8 "outer", some outer)] .standard
    let src := utf8 "a\x7bno();outer();\x7d"
    ∃ sheet, parse src = .ok sheet ∧
      (catalog.expandWithin 4 sheet).result =
        .error (.call (utf8 "inner") .unknown (.unexpectedNode (utf8 "thing"))) ∧
      ∃ args depth owner front back,
        catalog.outline 4 sheet = front ++ ⟨.call (utf8 "inner") args .unknown, depth, owner⟩ ::
          (catalog.outlineCall depth (4 - depth) (utf8 "inner") args .unknown ++ back) ∧
        (∀ s ∈ front, catalog.Passes 4 s) ∧
        catalog.FailsBy 4 depth (utf8 "inner") args .unknown (.unexpectedNode (utf8 "thing")) := by
  intro inner outer catalog src
  have hrun : (parse src).toOption.map (fun sheet => (catalog.expandWithin 4 sheet).error?) =
      some (some (.call (utf8 "inner") .unknown (.unexpectedNode (utf8 "thing")))) := by
    decide +kernel
  obtain ⟨sheet, hparse, herror⟩ := Option.map_eq_some_iff.mp hrun
  rw [toOption_eq_some_iff] at hparse
  have hresult := Visit.error?_eq_some_iff.mp herror
  obtain ⟨name, args, pos, fault, depth, owner, front, back, he, -, houtline, -, hfront, hfails, -⟩ :=
    catalog.expandWithin_error_innermost 4 src sheet _ hparse hresult
  cases he
  exact ⟨sheet, hparse, hresult, args, depth, owner, front, back, houtline, hfront, hfails⟩

end Catalog

end MixinCss
