/-
  MixinCss.Proofs.Sheet.Placement

  Places do not matter. `unplaced` takes the places out of nodes, notes, errors
  and visits. What is written of a sheet is what is written of the sheet without
  places (`Sheet.render_unplaced`), and an expansion comes out the same up to
  places whatever the places in the sheet are (`Catalog.expandWithin_unplaced`).
-/

import MixinCss.Proofs.Sheet.Order
import MixinCss.Sheet.Render

namespace MixinCss

/-! ## Without places -/

namespace Node

mutual

/-- The node without the places in it. -/
def unplaced : Node → Node
  | .declaration property value _ => .declaration property value .unknown
  | .rule selector children _ => .rule selector (unplacedAll children) .unknown
  | .call name args _ => .call name args .unknown
  | .nothing => .nothing
  | .foreign kind => .foreign kind

def unplacedAll : List Node → List Node
  | [] => []
  | n :: rest => unplaced n :: unplacedAll rest

end

@[simp] theorem unplacedAll_append (front back : List Node) :
    unplacedAll (front ++ back) = unplacedAll front ++ unplacedAll back := by
  induction front with
  | nil => rfl
  | cons n rest ih => rw [List.cons_append, unplacedAll, ih, unplacedAll, List.cons_append]

end Node

def Rule.unplaced (r : Rule) : Rule := ⟨r.selector, Node.unplacedAll r.children, .unknown⟩

theorem Rule.unplaced_selector (r : Rule) : r.unplaced.selector = r.selector := rfl

theorem Rule.unplaced_node (r : Rule) : r.unplaced.node = r.node.unplaced := rfl

def Sheet.unplaced (sheet : Sheet) : Sheet := sheet.map Rule.unplaced

@[simp] theorem Sheet.unplaced_cons (r : Rule) (rest : Sheet) :
    Sheet.unplaced (r :: rest) = r.unplaced :: Sheet.unplaced rest := rfl

/-! ## Members -/

namespace Node

mutual

theorem members_unplaced : ∀ n : Node, n.unplaced.members = n.members.map unplaced
  | .declaration .. => rfl
  | .rule selector children pos => by
    rw [unplaced, members, membersAll_unplaced children, members, List.map_cons, unplaced]
  | .call .. => rfl
  | .nothing => rfl
  | .foreign _ => rfl

theorem membersAll_unplaced :
    ∀ nodes : List Node, membersAll (unplacedAll nodes) = (membersAll nodes).map unplaced
  | [] => rfl
  | n :: rest => by
    rw [unplacedAll, membersAll_cons, members_unplaced n, membersAll_unplaced rest, membersAll_cons,
      List.map_append]

end

@[simp] theorem isPlain_unplaced (n : Node) : n.unplaced.isPlain = n.isPlain := by
  cases n <;> rfl

end Node

theorem Sheet.members_unplaced (sheet : Sheet) :
    Sheet.members (Sheet.unplaced sheet) = (Sheet.members sheet).map Node.unplaced := by
  induction sheet with
  | nil => rfl
  | cons r rest ih =>
    rw [Sheet.unplaced_cons, Sheet.members_cons, ih, Sheet.members_cons, List.map_append,
      List.map_cons, ← Node.membersAll_unplaced]
    rfl

/-- Sheets that are the same up to places have the same kinds of members. -/
theorem Sheet.isPlain_congr {sheet sheet' : Sheet}
    (h : Sheet.unplaced sheet' = Sheet.unplaced sheet)
    (hplain : ∀ m ∈ Sheet.members sheet, m.isPlain) :
    ∀ m ∈ Sheet.members sheet', m.isPlain := by
  intro m hm
  have hmem : m.unplaced ∈ (Sheet.members sheet).map Node.unplaced := by
    rw [← Sheet.members_unplaced, ← h, Sheet.members_unplaced]
    exact List.mem_map_of_mem hm
  obtain ⟨n, hn, heq⟩ := List.mem_map.1 hmem
  rw [← Node.isPlain_unplaced, ← heq, Node.isPlain_unplaced]
  exact hplain n hn

/-! ## Writing -/

namespace Node

mutual

theorem render_unplaced (u : Units) (parent : Text) (depth : Nat) :
    ∀ n : Node, n.unplaced.render u parent depth = n.render u parent depth
  | .declaration .. => rfl
  | .rule selector children pos => by
    rw [unplaced, render, renderAll_unplaced u _ _ children, render]
  | .call .. => rfl
  | .nothing => rfl
  | .foreign _ => rfl

theorem renderAll_unplaced (u : Units) (parent : Text) (depth : Nat) :
    ∀ nodes : List Node,
      renderAll u parent depth (unplacedAll nodes) = renderAll u parent depth nodes
  | [] => rfl
  | n :: rest => by
    rw [unplacedAll, renderAll, render_unplaced u parent depth n,
      renderAll_unplaced u parent depth rest, renderAll]

end

end Node

/-- What is written of a sheet does not depend on places. -/
theorem Sheet.render_unplaced (u : Units) (sheet : Sheet) :
    Sheet.render u (Sheet.unplaced sheet) = Sheet.render u sheet := by
  have hrule (r : Rule) : r.unplaced.render u = r.render u := by
    unfold Rule.render
    rw [Rule.unplaced, Node.renderAll_unplaced]
  unfold Sheet.render Sheet.unplaced
  rw [List.map_map]
  congr 2
  funext r
  exact hrule r

/-! ## Expansion -/

def Note.unplaced : Note → Note
  | .unknown name _ => .unknown name .unknown
  | .expanded name _ count depth => .expanded name .unknown count depth

def ExpandError.unplaced : ExpandError → ExpandError
  | .call name _ fault => .call name .unknown fault
  | .unexpectedNode kind => .unexpectedNode kind

theorem ExpandError.within_unplaced (e : ExpandError) (name : Text) (p q : Pos) :
    (e.within name p).unplaced = (e.within name q).unplaced := by
  cases e <;> rfl

theorem warningsOf_unplaced (notes : List Note) :
    (warningsOf (notes.map Note.unplaced)).map Warning.message =
      (warningsOf notes).map Warning.message := by
  induction notes with
  | nil => rfl
  | cons n rest ih =>
    cases n with
    | unknown name pos => exact congrArg ((utf8 "unknown mixin: " ++ name) :: ·) ih
    | expanded => exact ih

namespace Visit

variable {α β : Type}

/-- The visit without places, where `f` takes them out of the result. -/
def unplaced (f : α → β) (v : Visit α) : Visit β :=
  ⟨v.notes.map Note.unplaced,
    match v.result with
    | .ok a => .ok (f a)
    | .error e => .error e.unplaced⟩

/-- Visits that are the same up to places succeed or fail together. -/
theorem unplaced_eq_iff {f : α → β} {v w : Visit α} :
    v.unplaced f = w.unplaced f ↔
      v.notes.map Note.unplaced = w.notes.map Note.unplaced ∧
        ((∃ a b, v.result = .ok a ∧ w.result = .ok b ∧ f a = f b) ∨
          ∃ d e, v.result = .error d ∧ w.result = .error e ∧ d.unplaced = e.unplaced) := by
  unfold unplaced
  rw [Visit.mk.injEq]
  refine and_congr_right fun _ => ?_
  cases v.result <;> cases w.result <;> simp

theorem bind_unplaced {γ δ : Type} {f : α → β} {g : γ → δ} {v w : Visit α} {k l : α → Visit γ}
    (h : v.unplaced f = w.unplaced f)
    (hnext : ∀ a b, f a = f b → (k a).unplaced g = (l b).unplaced g) :
    (v.bind k).unplaced g = (w.bind l).unplaced g := by
  obtain ⟨hnotes, ⟨a, b, hv, hw, hab⟩ | ⟨d, e, hv, hw, hde⟩⟩ := unplaced_eq_iff.1 h
  · obtain ⟨hmore, hresult⟩ := unplaced_eq_iff.1 (hnext a b hab)
    rw [bind_of_ok hv, bind_of_ok hw]
    refine unplaced_eq_iff.2 ⟨?_, hresult⟩
    rw [List.map_append, hnotes, hmore, List.map_append]
  · rw [bind_of_error hv, bind_of_error hw]
    exact unplaced_eq_iff.2 ⟨hnotes, .inr ⟨d, e, rfl, rfl, hde⟩⟩

theorem map_unplaced {γ δ : Type} {f : α → β} {g : γ → δ} {v w : Visit α} {k l : α → γ}
    (h : v.unplaced f = w.unplaced f) (hnext : ∀ a b, f a = f b → g (k a) = g (l b)) :
    (v.map k).unplaced g = (w.map l).unplaced g := by
  obtain ⟨hnotes, ⟨a, b, hv, hw, hab⟩ | ⟨d, e, hv, hw, hde⟩⟩ := unplaced_eq_iff.1 h
  · refine unplaced_eq_iff.2 ⟨hnotes, .inl ⟨k a, l b, ?_, ?_, hnext a b hab⟩⟩
    · exact map_result_eq_ok.2 ⟨a, hv, rfl⟩
    · exact map_result_eq_ok.2 ⟨b, hw, rfl⟩
  · exact unplaced_eq_iff.2 ⟨hnotes, .inr ⟨d, e, map_result_eq_error.2 hv, map_result_eq_error.2 hw,
      hde⟩⟩

end Visit

namespace Node

variable {onCall : Text → Option Args → Pos → Visit (List Node)}

mutual

theorem visit_unplaced
    (h : ∀ name args p q,
      (onCall name args p).unplaced unplacedAll = (onCall name args q).unplaced unplacedAll) :
    ∀ n : Node, (visit onCall n.unplaced).unplaced unplacedAll =
      (visit onCall n).unplaced unplacedAll
  | .declaration .. => rfl
  | .rule selector children pos => by
    rw [unplaced, visit, visit]
    refine Visit.map_unplaced (visitAll_unplaced h children) fun a b hab => ?_
    show [Node.rule selector (unplacedAll a) .unknown] = [.rule selector (unplacedAll b) .unknown]
    rw [hab]
  | .call name args pos => h name args .unknown pos
  | .nothing => rfl
  | .foreign _ => rfl

theorem visitAll_unplaced
    (h : ∀ name args p q,
      (onCall name args p).unplaced unplacedAll = (onCall name args q).unplaced unplacedAll) :
    ∀ nodes : List Node, (visitAll onCall (unplacedAll nodes)).unplaced unplacedAll =
      (visitAll onCall nodes).unplaced unplacedAll
  | [] => rfl
  | n :: rest => by
    rw [unplacedAll, visitAll, visitAll]
    refine Visit.bind_unplaced (visit_unplaced h n) fun front front' hfront => ?_
    refine Visit.map_unplaced (visitAll_unplaced h rest) fun back back' hback => ?_
    rw [unplacedAll_append, unplacedAll_append, hfront, hback]

end

end Node

namespace Catalog

open Node (unplacedAll)

/-- What takes the place of a call is the same up to places wherever the call is. -/
theorem expandCall_unplaced (c : Catalog) (depth remaining : Nat) (name : Text)
    (args : Option Args) (p q : Pos) :
    (c.expandCall depth remaining name args p).unplaced unplacedAll =
      (c.expandCall depth remaining name args q).unplaced unplacedAll := by
  cases hfind : c.find? name with
  | none =>
    rw [expandCall_of_unknown hfind, expandCall_of_unknown hfind]
    rfl
  | some mixin =>
    cases remaining with
    | zero =>
      rw [expandCall_zero hfind, expandCall_zero hfind]
      rfl
    | succ remaining =>
      cases hcall : c.call name args with
      | error failure =>
        rw [expandCall_of_failure hfind hcall, expandCall_of_failure hfind hcall]
        rfl
      | ok nodes =>
        -- The place of the call goes into the note and into errors, and nowhere else.
        rw [expandCall_of_nodes hfind hcall, expandCall_of_nodes hfind hcall]
        generalize Node.visitAll (c.expandCall (depth + 1) remaining) nodes = v
        let placed (pos : Pos) :=
          (v.noting (.expanded name pos nodes.length depth)).mapError (.within name pos)
        refine Visit.unplaced_eq_iff.2 ⟨rfl, ?_⟩
        cases hv : v.result with
        | ok inside =>
          have hok (pos : Pos) : (placed pos).result = .ok inside :=
            Visit.mapError_result_eq_ok.2 hv
          exact .inl ⟨inside, inside, hok p, hok q, rfl⟩
        | error e =>
          have herror (pos : Pos) : (placed pos).result = .error (e.within name pos) :=
            Visit.mapError_result_eq_error.2 ⟨e, hv, rfl⟩
          exact .inr ⟨_, _, herror p, herror q, e.within_unplaced name p q⟩

/-- An expansion is the same up to places whatever the places in the sheet are. -/
theorem expandWithin_unplaced (c : Catalog) (limit : Nat) (sheet : Sheet) :
    (c.expandWithin limit (Sheet.unplaced sheet)).unplaced Sheet.unplaced =
      (c.expandWithin limit sheet).unplaced Sheet.unplaced := by
  induction sheet with
  | nil => rfl
  | cons r rest ih =>
    rw [Sheet.unplaced_cons, expandWithin, expandWithin]
    refine Visit.bind_unplaced (Node.visitAll_unplaced (c.expandCall_unplaced 0 limit) r.children)
      fun inside inside' hinside => ?_
    refine Visit.map_unplaced ih fun rules rules' hrules => ?_
    rw [Sheet.unplaced_cons, Sheet.unplaced_cons, hrules, Rule.unplaced, Rule.unplaced, hinside]
    rfl

end Catalog

end MixinCss
