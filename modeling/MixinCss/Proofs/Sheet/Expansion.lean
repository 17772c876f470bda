/-
  MixinCss.Proofs.Sheet.Expansion

  What the expansion of a sheet keeps and what it leaves behind.

  An expansion visits a tree whose calls are answered by other visits, one level
  of expansion further down. Each statement is therefore proved twice over: for
  a visit, by induction on the tree and under the assumption that the answers
  to calls have the property, and then for the calls themselves, by induction
  on the levels that are left.
-/

import MixinCss.Mixin.Recipe
import MixinCss.Proofs.Outcome
import MixinCss.Proofs.Sheet.Members
import MixinCss.Sheet.Expansion

namespace MixinCss

/-! ## Results of visits -/

namespace Visit

variable {α β : Type}

theorem bind_result_eq_ok {v : Visit α} {f : α → Visit β} {b : β} :
    (v.bind f).result = .ok b ↔ ∃ a, v.result = .ok a ∧ (f a).result = .ok b := by
  unfold bind
  cases v.result with
  | ok a => simp
  | error e => simp

theorem bind_result_eq_error {v : Visit α} {f : α → Visit β} {e : ExpandError} :
    (v.bind f).result = .error e ↔
      v.result = .error e ∨ ∃ a, v.result = .ok a ∧ (f a).result = .error e := by
  unfold bind
  cases v.result with
  | ok a => simp
  | error e => simp

theorem map_result_eq_ok {v : Visit α} {f : α → β} {b : β} :
    (v.map f).result = .ok b ↔ ∃ a, v.result = .ok a ∧ f a = b := map_eq_ok_iff

theorem map_result_eq_error {v : Visit α} {f : α → β} {e : ExpandError} :
    (v.map f).result = .error e ↔ v.result = .error e := by
  unfold map
  cases v.result with
  | ok a => simp [Except.map]
  | error e => simp [Except.map]

theorem mapError_result_eq_ok {v : Visit α} {f : ExpandError → ExpandError} {a : α} :
    (v.mapError f).result = .ok a ↔ v.result = .ok a := mapError_eq_ok_iff

theorem mapError_result_eq_error {v : Visit α} {f : ExpandError → ExpandError} {e : ExpandError} :
    (v.mapError f).result = .error e ↔ ∃ e', v.result = .error e' ∧ f e' = e := by
  unfold mapError
  dsimp only
  cases v.result with
  | ok a => exact ⟨fun h => (nomatch h), fun ⟨_, h, _⟩ => (nomatch h)⟩
  | error e' =>
    constructor
    · intro h
      cases h
      exact ⟨e', rfl, rfl⟩
    · rintro ⟨_, he, rfl⟩
      cases he
      rfl

@[simp] theorem noting_result (n : Note) (v : Visit α) : (v.noting n).result = v.result := rfl

end Visit

/-- Whether an error is laid to a call. -/
def ExpandError.isCall : ExpandError → Bool
  | .call .. => true
  | .unexpectedNode _ => false

theorem ExpandError.within_isCall (name : Text) (pos : Pos) (e : ExpandError) :
    (e.within name pos).isCall := by
  cases e <;> rfl

/-! ## What is left after an expansion -/

namespace Node

variable {onCall : Text → Option Args → Pos → Visit (List Node)}

mutual

/-- A visit leaves declarations and rules only, if the answers to calls do. -/
theorem visit_isPlain
    (hcall : ∀ name args pos out, (onCall name args pos).result = .ok out →
      ∀ m ∈ membersAll out, m.isPlain) :
    ∀ (n : Node) {out : List Node}, (visit onCall n).result = .ok out →
      ∀ m ∈ membersAll out, m.isPlain
  | .declaration property value pos, out, h => by
    simp only [visit, Visit.pure, Except.ok.injEq] at h
    subst h
    intro m hm
    rw [membersAll_singleton, members, List.mem_singleton] at hm
    rw [hm]
    rfl
  | .rule selector children pos, out, h => by
    rw [visit, Visit.map_result_eq_ok] at h
    obtain ⟨inside, hinside, rfl⟩ := h
    intro m hm
    rw [membersAll_singleton, members, List.mem_cons] at hm
    rcases hm with rfl | hm
    · rfl
    · exact visitAll_isPlain hcall children hinside m hm
  | .call name args pos, out, h => hcall name args pos out h
  | .nothing, out, h => by
    simp only [visit, Visit.pure, Except.ok.injEq] at h
    subst h
    intro m hm
    exact absurd hm List.not_mem_nil
  | .foreign kind, out, h => by
    simp [visit, Visit.fail] at h

theorem visitAll_isPlain
    (hcall : ∀ name args pos out, (onCall name args pos).result = .ok out →
      ∀ m ∈ membersAll out, m.isPlain) :
    ∀ (nodes : List Node) {out : List Node}, (visitAll onCall nodes).result = .ok out →
      ∀ m ∈ membersAll out, m.isPlain
  | [], out, h => by
    simp only [visitAll, Visit.pure, Except.ok.injEq] at h
    subst h
    intro m hm
    exact absurd hm List.not_mem_nil
  | n :: rest, out, h => by
    rw [visitAll, Visit.bind_result_eq_ok] at h
    obtain ⟨front, hfront, hrest⟩ := h
    rw [Visit.map_result_eq_ok] at hrest
    obtain ⟨back, hback, rfl⟩ := hrest
    intro m hm
    rw [membersAll_append, List.mem_append] at hm
    rcases hm with hm | hm
    · exact visit_isPlain hcall n hfront m hm
    · exact visitAll_isPlain hcall rest hback m hm

end

mutual

/-- Declarations and rules stay as they are, whatever calls would be answered. -/
theorem visit_of_isPlain :
    ∀ (n : Node), (∀ m ∈ n.members, m.isPlain) → visit onCall n = .pure [n]
  | .declaration property value pos, _ => rfl
  | .rule selector children pos, h => by
    rw [members, List.forall_mem_cons] at h
    rw [visit, visitAll_of_isPlain children h.2]
    rfl
  | .call name args pos, h => by
    have hm := h (.call name args pos) (by simp [members])
    simp [isPlain] at hm
  | .nothing, h => by
    have hm := h .nothing (by simp [members])
    simp [isPlain] at hm
  | .foreign kind, h => by
    have hm := h (.foreign kind) (by simp [members])
    simp [isPlain] at hm

theorem visitAll_of_isPlain :
    ∀ (nodes : List Node), (∀ m ∈ membersAll nodes, m.isPlain) →
      visitAll onCall nodes = .pure nodes
  | [], _ => rfl
  | n :: rest, h => by
    rw [membersAll_cons, List.forall_mem_append] at h
    rw [visitAll, visit_of_isPlain n h.1, visitAll_of_isPlain rest h.2]
    rfl

end

mutual

/-- Where the sheet itself holds no foreign node, a visit fails only in the
    answer to a call. -/
theorem visit_error_isCall
    (hcall : ∀ name args pos e, (onCall name args pos).result = .error e → e.isCall) :
    ∀ (n : Node) {e : ExpandError}, (∀ m ∈ n.members, m.isForeign = false) →
      (visit onCall n).result = .error e → e.isCall
  | .declaration property value pos, e, _, h => by
    simp [visit, Visit.pure] at h
  | .rule selector children pos, e, hn, h => by
    rw [visit, Visit.map_result_eq_error] at h
    rw [members, List.forall_mem_cons] at hn
    exact visitAll_error_isCall hcall children hn.2 h
  | .call name args pos, e, _, h => hcall name args pos e h
  | .nothing, e, _, h => by
    simp [visit, Visit.pure] at h
  | .foreign kind, e, hn, _ => by
    have hm := hn (.foreign kind) (by simp [members])
    simp [isForeign] at hm

theorem visitAll_error_isCall
    (hcall : ∀ name args pos e, (onCall name args pos).result = .error e → e.isCall) :
    ∀ (nodes : List Node) {e : ExpandError}, (∀ m ∈ membersAll nodes, m.isForeign = false) →
      (visitAll onCall nodes).result = .error e → e.isCall
  | [], e, _, h => by
    simp [visitAll, Visit.pure] at h
  | n :: rest, e, hnodes, h => by
    rw [membersAll_cons, List.forall_mem_append] at hnodes
    obtain ⟨hn, hrest⟩ := hnodes
    rw [visitAll, Visit.bind_result_eq_error] at h
    rcases h with h | ⟨front, -, h⟩
    · exact visit_error_isCall hcall n hn h
    · exact visitAll_error_isCall hcall rest hrest (Visit.map_result_eq_error.mp h)

end

end Node

namespace Catalog

/-- What takes the place of a call holds no call. The induction is on the levels
    that are left: the nodes of a mixin are visited with one level less. -/
theorem expandCall_isPlain (c : Catalog) {depth remaining : Nat} {name : Text}
    {args : Option Args} {pos : Pos} {out : List Node}
    (h : (c.expandCall depth remaining name args pos).result = .ok out) :
    ∀ m ∈ Node.membersAll out, m.isPlain := by
  induction remaining generalizing depth name args pos out with
  | zero =>
    unfold expandCall at h
    split at h
    · cases h
      intro m hm
      exact absurd hm List.not_mem_nil
    · cases h
  | succ remaining ih =>
    unfold expandCall at h
    split at h
    · cases h
      intro m hm
      exact absurd hm List.not_mem_nil
    · dsimp only at h
      split at h
      · cases h
      · rename_i nodes _
        -- The mixin's own nodes are visited with one level less.
        rw [Visit.mapError_result_eq_ok, Visit.noting_result] at h
        exact Node.visitAll_isPlain (fun _ _ _ _ hout => ih hout) nodes h

/-- A call that fails is laid to itself or to a call further inside, also where
    its mixin gave a foreign node. -/
theorem expandCall_error_isCall (c : Catalog) {depth remaining : Nat} {name : Text}
    {args : Option Args} {pos : Pos} {e : ExpandError}
    (h : (c.expandCall depth remaining name args pos).result = .error e) : e.isCall := by
  unfold expandCall at h
  split at h
  · cases h
  · split at h
    · cases h
      rfl
    · split at h
      · cases h
        rfl
      · -- A failure further inside is laid to some call, whatever it was.
        rw [Visit.mapError_result_eq_error] at h
        obtain ⟨inner, -, rfl⟩ := h
        exact ExpandError.within_isCall name pos inner

theorem expandWithin_cons_eq_ok {c : Catalog} {limit : Nat} {r : Rule} {rest out : Sheet} :
    (c.expandWithin limit (r :: rest)).result = .ok out ↔
      ∃ children rules, (Node.visitAll (c.expandCall 0 limit) r.children).result = .ok children ∧
        (c.expandWithin limit rest).result = .ok rules ∧
        out = { r with children := children } :: rules := by
  rw [expandWithin, Visit.bind_result_eq_ok]
  constructor
  · rintro ⟨children, hchildren, hrest⟩
    obtain ⟨rules, hrules, rfl⟩ := Visit.map_result_eq_ok.mp hrest
    exact ⟨children, rules, hchildren, hrules, rfl⟩
  · rintro ⟨children, rules, hchildren, hrules, rfl⟩
    exact ⟨children, hchildren, Visit.map_result_eq_ok.mpr ⟨rules, hrules, rfl⟩⟩

/-- A sheet without foreign nodes fails only in its calls. -/
theorem expandWithin_error_isCall (c : Catalog) (limit : Nat) {sheet : Sheet} {e : ExpandError}
    (hsheet : ∀ m ∈ Sheet.members sheet, m.isForeign = false)
    (h : (c.expandWithin limit sheet).result = .error e) : e.isCall := by
  induction sheet with
  | nil => cases h
  | cons r rest ih =>
    rw [Sheet.members_cons, List.forall_mem_append, List.forall_mem_cons] at hsheet
    obtain ⟨⟨-, hchildren⟩, hrest⟩ := hsheet
    rw [expandWithin, Visit.bind_result_eq_error] at h
    rcases h with h | ⟨children, -, h⟩
    · exact Node.visitAll_error_isCall (fun _ _ _ _ herr => c.expandCall_error_isCall herr) _
        hchildren h
    · exact ih hrest (Visit.map_result_eq_error.mp h)

/-- An expanded sheet is made of declarations and rules at every depth. -/
theorem expandWithin_isPlain (c : Catalog) (limit : Nat) {sheet out : Sheet}
    (h : (c.expandWithin limit sheet).result = .ok out) :
    ∀ m ∈ Sheet.members out, m.isPlain := by
  induction sheet generalizing out with
  | nil =>
    cases h
    intro m hm
    exact absurd hm List.not_mem_nil
  | cons r rest ih =>
    obtain ⟨children, rules, hchildren, hrules, rfl⟩ := expandWithin_cons_eq_ok.mp h
    intro m hm
    rw [Sheet.members_cons, List.mem_append, List.mem_cons] at hm
    rcases hm with (rfl | hm) | hm
    · rfl
    · exact Node.visitAll_isPlain (fun _ _ _ _ hout => c.expandCall_isPlain hout) _ hchildren m hm
    · exact ih hrules m hm

/-- An expansion changes what the rules of a sheet hold, and nothing else of
    them. -/
theorem expandWithin_headings (c : Catalog) (limit : Nat) {sheet out : Sheet}
    (h : (c.expandWithin limit sheet).result = .ok out) :
    out.map (fun r => (r.selector, r.pos)) = sheet.map (fun r => (r.selector, r.pos)) := by
  induction sheet generalizing out with
  | nil => cases h; rfl
  | cons r rest ih =>
    obtain ⟨children, rules, -, hrules, rfl⟩ := expandWithin_cons_eq_ok.mp h
    rw [List.map_cons, List.map_cons, ih hrules]

/-- A sheet without calls expands to itself, with nothing to note. -/
theorem expandWithin_of_isPlain (c : Catalog) (limit : Nat) {sheet : Sheet}
    (h : ∀ m ∈ Sheet.members sheet, m.isPlain) :
    c.expandWithin limit sheet = .pure sheet := by
  induction sheet with
  | nil => rfl
  | cons r rest ih =>
    rw [Sheet.members_cons, List.forall_mem_append, List.forall_mem_cons] at h
    obtain ⟨⟨-, hchildren⟩, hrest⟩ := h
    rw [expandWithin, Node.visitAll_of_isPlain _ hchildren, ih hrest]
    rfl

/-- An expansion that succeeds leaves no call, no empty place and no foreign
    node at any depth, keeps the number, the order, the selectors and the
    places of the rules, and is final: expanded again, with any mixins and any
    limit, the sheet stays as it is and nothing is noted. -/
theorem expandWithin_settles (c : Catalog) (limit : Nat) (sheet out : Sheet)
    (h : (c.expandWithin limit sheet).result = .ok out) :
    (∀ m ∈ Sheet.members out, m.isPlain) ∧
      out.map (fun r => (r.selector, r.pos)) = sheet.map (fun r => (r.selector, r.pos)) ∧
      ∀ (other : Catalog) (otherLimit : Nat),
        (other.expandWithin otherLimit out).result = .ok out ∧
          warningsOf (other.expandWithin otherLimit out).notes = [] := by
  have hplain := c.expandWithin_isPlain limit h
  refine ⟨hplain, c.expandWithin_headings limit h, ?_⟩
  intro other otherLimit
  rw [other.expandWithin_of_isPlain otherLimit hplain]
  exact ⟨rfl, rfl⟩

/-- A mixin that gives a rule with a known call, an empty place and an unknown
    call in it. -/
theorem expandWithin_settles_hover :
    let hover : Mixin := .ofSteps [.node (.rule (utf8 "&:hover")
      [.call (utf8 "hide") none .unknown, .nothing, .call (utf8 "missing") none .unknown]
      .unknown)]
    let catalog : Catalog := .ofOverrides [(utf8 "hover", some hover)] .standard
    let sheet : Sheet := [⟨utf8 ".a", [.call (utf8 "hover") none ⟨5, 1, 6⟩], ⟨0, 1, 1⟩⟩]
    let out : Sheet := [⟨utf8 ".a",
      [.rule (utf8 "&:hover") [.declare (utf8 "display") (.word (utf8 "none"))] .unknown],
      ⟨0, 1, 1⟩⟩]
    (catalog.expandWithin 2 sheet).result = .ok out ∧
      (∀ m ∈ Sheet.members out, m.isPlain) ∧
      out.map (fun r => (r.selector, r.pos)) = sheet.map (fun r => (r.selector, r.pos)) ∧
      ∀ (other : Catalog) (otherLimit : Nat),
        (other.expandWithin otherLimit out).result = .ok out ∧
          warningsOf (other.expandWithin otherLimit out).notes = [] := by
  intro hover catalog sheet out
  have h : (catalog.expandWithin 2 sheet).result = .ok out := by rfl
  exact ⟨h, catalog.expandWithin_settles 2 sheet out h⟩

end Catalog

end MixinCss
