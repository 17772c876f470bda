/-
  MixinCss.Proofs.Sheet.Parents

  What becomes of `&`. The selectors of an expanded sheet are settled from the
  outside to the inside, each with the written selector of the nearest literal
  rule around it; the text of the sheet is that of the settled sheet, written as
  it stands (`Sheet.render_eq_verbatim`).

  A `&` is left in a literal selector for one of two reasons
  (`Sheet.exists_left_iff`): it stands in no literal rule, which the parser
  refuses at the top of a sheet but not in an at-rule, or the literal rule around
  it is written with an empty selector (`compile_leaves_parentMark_iff`).
-/

import MixinCss.Proofs.Compile
import MixinCss.Proofs.Library.Flat
import MixinCss.Proofs.Sheet.Selector

namespace MixinCss

open Selector (parentMark substitute)

/-! ## Settled sheets -/

/-- The selector that `&` stands for inside of literal rules, of which the
    nearest comes first. -/
def Selector.inside : List Text → Text
  | [] => []
  | selector :: around => substitute selector (inside around)

/-- The selector of a rule, with those of the literal rules around it. The
    nearest of them comes first. -/
structure Heading where
  selector : Text
  around : List Text

namespace Heading

def isLiteral (h : Heading) : Bool := !isAtSelector h.selector

/-- The selector as it is written. -/
def written (h : Heading) : Text := Node.writtenSelector h.selector (Selector.inside h.around)

/-- A literal selector with a `&`, in no literal rule. -/
def IsBare (h : Heading) : Prop :=
  h.isLiteral = true ∧ parentMark ∈ h.selector ∧ h.around = []

/-- A literal selector with a `&`, in a literal rule that is written with an empty
    selector, because there is only white space to put for its own `&`. -/
def IsHollow (h : Heading) : Prop :=
  h.isLiteral = true ∧ parentMark ∈ h.selector ∧
    ∃ next around, h.around = next :: around ∧ Selector.inside h.around = [] ∧
      Selector.inside around ≠ [] ∧ (Selector.inside around).trim = []

theorem written_of_isLiteral {h : Heading} (hliteral : h.isLiteral = true) :
    h.written = substitute h.selector (Selector.inside h.around) := by
  rw [isLiteral, Bool.not_eq_true'] at hliteral
  rw [written, Node.writtenSelector, hliteral, if_neg Bool.false_ne_true]

theorem parentMark_mem_written {h : Heading} (hliteral : h.isLiteral = true) :
    parentMark ∈ h.written ↔ parentMark ∈ h.selector ∧
      (Selector.inside h.around = [] ∨ parentMark ∈ Selector.inside h.around) := by
  rw [written_of_isLiteral hliteral, Selector.parentMark_mem_substitute]

end Heading

namespace Node

/-- The selector of a rule. -/
def selector? : Node → Option Text
  | .rule selector _ _ => some selector
  | _ => none

/-- The selectors of nodes at every depth, in document order. -/
def selectorsAll (nodes : List Node) : List Text := (membersAll nodes).filterMap selector?

theorem selectorsAll_append (front back : List Node) :
    selectorsAll (front ++ back) = selectorsAll front ++ selectorsAll back := by
  rw [selectorsAll, membersAll_append, List.filterMap_append]
  rfl

theorem selectorsAll_cons (n : Node) (rest : List Node) :
    selectorsAll (n :: rest) = selectorsAll [n] ++ selectorsAll rest :=
  selectorsAll_append [n] rest

theorem selectorsAll_rule (selector : Text) (children : List Node) (pos : Pos) :
    selectorsAll [.rule selector children pos] = selector :: selectorsAll children := by
  rw [selectorsAll, membersAll_singleton, members, List.filterMap_cons]
  rfl

mutual

/-- The headings of a node and of what it holds, in document order. -/
def headings (around : List Text) : Node → List Heading
  | .rule selector children _ =>
    ⟨selector, around⟩ ::
      headingsAll (if isAtSelector selector then around else selector :: around) children
  | .declaration .. | .call .. | .nothing | .foreign _ => []

def headingsAll (around : List Text) : List Node → List Heading
  | [] => []
  | n :: rest => headings around n ++ headingsAll around rest

end

mutual

/-- A node inside of `parent` with the selectors that are written. -/
def settle (parent : Text) : Node → Node
  | .rule selector children pos =>
    .rule (writtenSelector selector parent) (settleAll (innerParent selector parent) children) pos
  | .declaration property value pos => .declaration property value pos
  | .call name args pos => .call name args pos
  | .nothing => .nothing
  | .foreign kind => .foreign kind

def settleAll (parent : Text) : List Node → List Node
  | [] => []
  | n :: rest => settle parent n :: settleAll parent rest

end

mutual

/-- A node as text, where selectors are written as they stand. -/
def verbatim (u : Units) (depth : Nat) : Node → Text
  | .declaration property value _ =>
    indent depth ++ property ++ utf8 ": " ++ value.render (u.ofProperty property) ++ utf8 ";\n"
  | .rule selector children _ =>
    indent depth ++ selector ++ utf8 " \x7b\n" ++ verbatimAll u (depth + 1) children ++
      indent depth ++ utf8 "\x7d\n"
  | .call .. | .nothing | .foreign _ => []

def verbatimAll (u : Units) (depth : Nat) : List Node → Text
  | [] => []
  | n :: rest => verbatim u depth n ++ verbatimAll u depth rest

end

mutual

theorem render_eq_verbatim (u : Units) (parent : Text) (depth : Nat) :
    ∀ n : Node, render u parent depth n = verbatim u depth (settle parent n)
  | .declaration .. => by rw [render, settle, verbatim]
  | .rule selector children pos => by
    rw [render, settle, verbatim, renderAll_eq_verbatimAll]
  | .call .. => by rw [render, settle, verbatim]
  | .nothing => by rw [render, settle, verbatim]
  | .foreign _ => by rw [render, settle, verbatim]

theorem renderAll_eq_verbatimAll (u : Units) (parent : Text) (depth : Nat) :
    ∀ nodes : List Node,
      renderAll u parent depth nodes = verbatimAll u depth (settleAll parent nodes)
  | [] => by rw [renderAll, settleAll, verbatimAll]
  | n :: rest => by
    rw [renderAll, settleAll, verbatimAll, render_eq_verbatim u parent depth n,
      renderAll_eq_verbatimAll u parent depth rest]

end

theorem innerParent_inside (selector : Text) (around : List Text) :
    innerParent selector (Selector.inside around) =
      Selector.inside (if isAtSelector selector then around else selector :: around) := by
  rw [innerParent]
  split <;> rfl

mutual

/-- The selectors of a settled node are its headings as they are written. -/
theorem selectorsAll_settle (around : List Text) :
    ∀ n : Node, selectorsAll [settle (Selector.inside around) n] =
      (headings around n).map Heading.written
  | .declaration .. => by rw [settle, headings]; rfl
  | .rule selector children pos => by
    rw [settle, headings, selectorsAll_rule, innerParent_inside, selectorsAll_settleAll,
      List.map_cons]
    rfl
  | .call .. => by rw [settle, headings]; rfl
  | .nothing => by rw [settle, headings]; rfl
  | .foreign _ => by rw [settle, headings]; rfl

theorem selectorsAll_settleAll (around : List Text) :
    ∀ nodes : List Node, selectorsAll (settleAll (Selector.inside around) nodes) =
      (headingsAll around nodes).map Heading.written
  | [] => by rw [settleAll, headingsAll]; rfl
  | n :: rest => by
    rw [settleAll, headingsAll, selectorsAll_cons, selectorsAll_settle around n,
      selectorsAll_settleAll around rest, List.map_append]

end

mutual

theorem headings_selector (around : List Text) :
    ∀ n : Node, (headings around n).map Heading.selector = selectorsAll [n]
  | .declaration .. => by rw [headings]; rfl
  | .rule selector children pos => by
    rw [headings, selectorsAll_rule, List.map_cons, headingsAll_selector]
  | .call .. => by rw [headings]; rfl
  | .nothing => by rw [headings]; rfl
  | .foreign _ => by rw [headings]; rfl

theorem headingsAll_selector (around : List Text) :
    ∀ nodes : List Node, (headingsAll around nodes).map Heading.selector = selectorsAll nodes
  | [] => by rw [headingsAll]; rfl
  | n :: rest => by
    rw [headingsAll, selectorsAll_cons, List.map_append, headings_selector around n,
      headingsAll_selector around rest]

end

mutual

/-- The nearest literal rule around a heading has a heading itself, unless it is
    one that was around from the start. -/
theorem enclosing_mem_headings {around : List Text} :
    ∀ {n : Node} {h : Heading}, h ∈ headings around n → ∀ {next : Text} {rest : List Text},
      h.around = next :: rest →
      h.around = around ∨ isAtSelector next = false ∧ ⟨next, rest⟩ ∈ headings around n
  | .declaration .., h, hmem, _, _, _ => by rw [headings] at hmem; cases hmem
  | .rule selector children pos, h, hmem, next, rest, haround => by
    rw [headings, List.mem_cons] at hmem ⊢
    rcases hmem with rfl | hmem
    · exact .inl rfl
    · rcases enclosing_mem_headingsAll hmem haround with heq | ⟨hnext, hmem⟩
      · -- Nothing is between the heading and this rule, so it is the nearest one,
        -- unless it is an at-rule, which is passed over.
        cases hat : isAtSelector selector with
        | true =>
          rw [hat, if_pos rfl] at heq
          exact .inl heq
        | false =>
          rw [hat, if_neg Bool.false_ne_true, haround] at heq
          obtain ⟨rfl, rfl⟩ := List.cons.inj heq
          exact .inr ⟨hat, .inl rfl⟩
      · exact .inr ⟨hnext, .inr hmem⟩
  | .call .., h, hmem, _, _, _ => by rw [headings] at hmem; cases hmem
  | .nothing, h, hmem, _, _, _ => by rw [headings] at hmem; cases hmem
  | .foreign _, h, hmem, _, _, _ => by rw [headings] at hmem; cases hmem

theorem enclosing_mem_headingsAll {around : List Text} :
    ∀ {nodes : List Node} {h : Heading}, h ∈ headingsAll around nodes →
      ∀ {next : Text} {rest : List Text}, h.around = next :: rest →
      h.around = around ∨ isAtSelector next = false ∧ ⟨next, rest⟩ ∈ headingsAll around nodes
  | [], h, hmem, _, _, _ => by rw [headingsAll] at hmem; cases hmem
  | n :: more, h, hmem, next, rest, haround => by
    rw [headingsAll, List.mem_append] at hmem ⊢
    rcases hmem with hmem | hmem
    · rcases enclosing_mem_headings hmem haround with heq | ⟨hnext, hmem⟩
      · exact .inl heq
      · exact .inr ⟨hnext, .inl hmem⟩
    · rcases enclosing_mem_headingsAll hmem haround with heq | ⟨hnext, hmem⟩
      · exact .inl heq
      · exact .inr ⟨hnext, .inr hmem⟩

end

end Node

namespace Sheet

/-- The headings of a sheet at every depth, in document order. -/
def headings (sheet : Sheet) : List Heading := Node.headingsAll [] (sheet.map Rule.node)

/-- The selectors of a sheet at every depth, in document order. -/
def selectors (sheet : Sheet) : List Text := Node.selectorsAll (sheet.map Rule.node)

/-- The sheet with the selectors that are written. -/
def settled (sheet : Sheet) : Sheet :=
  sheet.map fun r =>
    ⟨Node.writtenSelector r.selector [],
      Node.settleAll (Node.innerParent r.selector []) r.children, r.pos⟩

/-- The sheet as text, where selectors are written as they stand. -/
def verbatim (u : Units) (sheet : Sheet) : Text :=
  Text.join (utf8 "\n\n") <| sheet.map fun r =>
    r.selector ++ utf8 " \x7b\n" ++ Node.verbatimAll u 1 r.children ++ utf8 "\x7d"

theorem render_eq_verbatim (u : Units) (sheet : Sheet) :
    render u sheet = verbatim u sheet.settled := by
  rw [render, verbatim, settled, List.map_map]
  congr 1
  refine List.map_congr_left fun r _ => ?_
  rw [Rule.render, Node.renderAll_eq_verbatimAll]
  rfl

theorem selectors_settled (sheet : Sheet) :
    selectors sheet.settled = sheet.headings.map Heading.written := by
  have hsettled : sheet.settled.map Rule.node = Node.settleAll [] (sheet.map Rule.node) := by
    induction sheet with
    | nil => rfl
    | cons r rest ih =>
      rw [settled, List.map_cons, List.map_cons, List.map_cons, Node.settleAll, ← ih]
      rfl
  rw [selectors, hsettled]
  exact Node.selectorsAll_settleAll [] _

theorem headings_selector (sheet : Sheet) :
    sheet.headings.map Heading.selector = selectors sheet :=
  Node.headingsAll_selector [] _

/-- The nearest literal rule around a heading of a sheet has a heading itself. -/
theorem enclosing_mem_headings {sheet : Sheet} {h : Heading} (hmem : h ∈ sheet.headings)
    {next : Text} {around : List Text} (haround : h.around = next :: around) :
    (⟨next, around⟩ : Heading).isLiteral = true ∧ ⟨next, around⟩ ∈ sheet.headings := by
  rcases Node.enclosing_mem_headingsAll hmem haround with heq | ⟨hnext, hnextMem⟩
  · rw [haround] at heq
    cases heq
  · refine ⟨?_, hnextMem⟩
    rw [Heading.isLiteral, hnext]
    rfl

/-- A `&` is left in a literal selector exactly if one stands in no literal rule,
    or in a rule that is written with an empty selector. -/
theorem exists_left_iff {sheet : Sheet} (hselectors : [] ∉ selectors sheet) :
    (∃ h ∈ sheet.headings, h.isLiteral ∧ parentMark ∈ h.written) ↔
      (∃ h ∈ sheet.headings, h.IsBare) ∨ ∃ h ∈ sheet.headings, h.IsHollow := by
  constructor
  · rintro ⟨⟨selector, around⟩, hmem, hliteral, hleft⟩
    -- From the inside to the outside: as long as the `&` comes from the rule
    -- around, that rule has one as well.
    induction around generalizing selector with
    | nil =>
      have hmark := ((Heading.parentMark_mem_written hliteral).mp hleft).1
      exact .inl ⟨_, hmem, hliteral, hmark, rfl⟩
    | cons next around ih =>
      obtain ⟨hnext, hnextMem⟩ := enclosing_mem_headings hmem rfl
      obtain ⟨hmark, hempty | hinside⟩ := (Heading.parentMark_mem_written hliteral).mp hleft
      · -- The rule around is written with nothing, but not because it has no
        -- selector.
        have hne : next ≠ [] := by
          rintro rfl
          rw [← headings_selector] at hselectors
          exact hselectors (List.mem_map_of_mem hnextMem)
        obtain ⟨houter, htrim⟩ := Selector.trim_of_substitute_eq_nil hne hempty
        exact .inr ⟨_, hmem, hliteral, hmark, next, around, rfl, hempty, houter, htrim⟩
      · refine ih next hnextMem hnext ?_
        rwa [Heading.written_of_isLiteral hnext]
  · have hleft : ∀ h : Heading, h.isLiteral = true → parentMark ∈ h.selector →
        Selector.inside h.around = [] → h.isLiteral ∧ parentMark ∈ h.written := by
      intro h hliteral hmark hempty
      exact ⟨hliteral, (Heading.parentMark_mem_written hliteral).mpr ⟨hmark, .inl hempty⟩⟩
    rintro (⟨h, hmem, hliteral, hmark, haround⟩ | ⟨h, hmem, hliteral, hmark, -, -, -, hempty, -⟩)
    · exact ⟨h, hmem, hleft h hliteral hmark (by rw [haround]; rfl)⟩
    · exact ⟨h, hmem, hleft h hliteral hmark hempty⟩

end Sheet

/-! ## What stands in no literal rule -/

namespace Node

mutual

/-- Whether a node has a `&` that stands in no literal rule: in a selector, or in
    the rule that a call of the library gives. -/
def dangles : Node → Bool
  | .rule selector children _ =>
    if isAtSelector selector then danglesAny children else selector.contains parentMark
  | .call name _ _ => Library.givesRule name
  | .declaration .. | .nothing | .foreign _ => false

def danglesAny : List Node → Bool
  | [] => false
  | n :: rest => dangles n || danglesAny rest

end

theorem danglesAny_append (front back : List Node) :
    danglesAny (front ++ back) = (danglesAny front || danglesAny back) := by
  induction front with
  | nil => rfl
  | cons n rest ih => rw [List.cons_append, danglesAny, danglesAny, ih, Bool.or_assoc]

theorem danglesAny_singleton (n : Node) : danglesAny [n] = dangles n := by
  rw [danglesAny, danglesAny, Bool.or_false]

theorem danglesAny_of_isDeclaration {nodes : List Node} (h : ∀ n ∈ nodes, n.isDeclaration) :
    danglesAny nodes = false := by
  induction nodes with
  | nil => rfl
  | cons n rest ih =>
    obtain ⟨hn, hrest⟩ := List.forall_mem_cons.mp h
    rw [danglesAny, ih hrest, Bool.or_false]
    cases n with
    | declaration property value pos => rfl
    | _ => cases hn

mutual

/-- Headings below a literal rule are in that rule. -/
theorem around_ne_nil_of_mem_headings {selector : Text} {around : List Text} :
    ∀ {n : Node} {h : Heading}, h ∈ headings (selector :: around) n → h.around ≠ []
  | .declaration .., h, hmem => by rw [headings] at hmem; cases hmem
  | .rule inner children pos, h, hmem => by
    rw [headings, List.mem_cons] at hmem
    rcases hmem with rfl | hmem
    · exact List.cons_ne_nil _ _
    · split at hmem
      · exact around_ne_nil_of_mem_headingsAll hmem
      · exact around_ne_nil_of_mem_headingsAll hmem
  | .call .., h, hmem => by rw [headings] at hmem; cases hmem
  | .nothing, h, hmem => by rw [headings] at hmem; cases hmem
  | .foreign _, h, hmem => by rw [headings] at hmem; cases hmem

theorem around_ne_nil_of_mem_headingsAll {selector : Text} {around : List Text} :
    ∀ {nodes : List Node} {h : Heading}, h ∈ headingsAll (selector :: around) nodes →
      h.around ≠ []
  | [], h, hmem => by rw [headingsAll] at hmem; cases hmem
  | n :: rest, h, hmem => by
    rw [headingsAll, List.mem_append] at hmem
    rcases hmem with hmem | hmem
    · exact around_ne_nil_of_mem_headings hmem
    · exact around_ne_nil_of_mem_headingsAll hmem

end

mutual

/-- Where all calls are gone, a `&` that stands in no literal rule is one in the
    selector of a literal rule that stands in none. -/
theorem dangles_iff :
    ∀ n : Node, (∀ m ∈ n.members, m.isPlain) →
      (n.dangles = true ↔ ∃ h ∈ headings [] n, h.IsBare)
  | .declaration .., _ => by simp [dangles, headings]
  | .rule selector children pos, hplain => by
    rw [members, List.forall_mem_cons] at hplain
    rw [dangles, headings]
    cases hat : isAtSelector selector with
    | true =>
      rw [if_pos rfl, if_pos rfl, danglesAny_iff children hplain.2]
      constructor
      · rintro ⟨h, hmem, hbare⟩
        exact ⟨h, List.mem_cons_of_mem _ hmem, hbare⟩
      · rintro ⟨h, hmem, hbare⟩
        rcases List.mem_cons.mp hmem with rfl | hmem
        · have hliteral : (!isAtSelector selector) = true := hbare.1
          rw [hat] at hliteral
          cases hliteral
        · exact ⟨h, hmem, hbare⟩
    | false =>
      rw [if_neg Bool.false_ne_true, if_neg Bool.false_ne_true, List.contains_iff_mem]
      constructor
      · intro hmark
        refine ⟨⟨selector, []⟩, List.mem_cons_self, ?_, hmark, rfl⟩
        rw [Heading.isLiteral, hat]
        rfl
      · rintro ⟨h, hmem, -, hmark, haround⟩
        rcases List.mem_cons.mp hmem with rfl | hmem
        · exact hmark
        · -- What is inside of a literal rule is not bare.
          exact absurd haround (around_ne_nil_of_mem_headingsAll hmem)
  | .call name args pos, hplain => absurd (hplain _ (mem_members _)) Bool.false_ne_true
  | .nothing, hplain => absurd (hplain _ (mem_members _)) Bool.false_ne_true
  | .foreign _, hplain => absurd (hplain _ (mem_members _)) Bool.false_ne_true

theorem danglesAny_iff :
    ∀ nodes : List Node, (∀ m ∈ membersAll nodes, m.isPlain) →
      (danglesAny nodes = true ↔ ∃ h ∈ headingsAll [] nodes, h.IsBare)
  | [], _ => by simp [danglesAny, headingsAll]
  | n :: rest, hplain => by
    obtain ⟨hn, hrest⟩ := List.forall_mem_append.mp hplain
    rw [danglesAny, headingsAll, Bool.or_eq_true, dangles_iff n hn, danglesAny_iff rest hrest]
    simp only [List.mem_append, or_and_right, exists_or]

end

/-! ## Expansion -/

variable {onCall : Text → Option Args → Pos → Visit (List Node)}

mutual

/-- A visit keeps whether a `&` stands in no literal rule, if the answers to
    calls do. -/
theorem visit_dangles
    (hcall : ∀ name args pos out, (onCall name args pos).result = .ok out →
      danglesAny out = Library.givesRule name) :
    ∀ (n : Node) {out : List Node}, (visit onCall n).result = .ok out →
      danglesAny out = n.dangles
  | .declaration property value pos, out, h => by
    cases h
    rfl
  | .rule selector children pos, out, h => by
    rw [visit, Visit.map_result_eq_ok] at h
    obtain ⟨inside, hinside, rfl⟩ := h
    rw [danglesAny_singleton, dangles, dangles, visitAll_dangles hcall children hinside]
  | .call name args pos, out, h => by
    rw [hcall name args pos out h, dangles]
  | .nothing, out, h => by
    cases h
    rfl
  | .foreign kind, out, h => by cases h

theorem visitAll_dangles
    (hcall : ∀ name args pos out, (onCall name args pos).result = .ok out →
      danglesAny out = Library.givesRule name) :
    ∀ (nodes : List Node) {out : List Node}, (visitAll onCall nodes).result = .ok out →
      danglesAny out = danglesAny nodes
  | [], out, h => by
    cases h
    rfl
  | n :: rest, out, h => by
    rw [visitAll, Visit.bind_result_eq_ok] at h
    obtain ⟨front, hfront, hrest⟩ := h
    obtain ⟨back, hback, rfl⟩ := Visit.map_result_eq_ok.mp hrest
    rw [danglesAny_append, danglesAny, visit_dangles hcall n hfront,
      visitAll_dangles hcall rest hback]

end

mutual

/-- A visit leaves the selectors that were there, and adds those of the answers
    to calls. -/
theorem visit_selectors {added : Text}
    (hcall : ∀ name args pos out, (onCall name args pos).result = .ok out →
      ∀ s ∈ selectorsAll out, s = added) :
    ∀ (n : Node) {out : List Node}, (visit onCall n).result = .ok out →
      ∀ s ∈ selectorsAll out, s ∈ selectorsAll [n] ∨ s = added
  | .declaration property value pos, out, h => by
    cases h
    exact fun s hs => .inl hs
  | .rule selector children pos, out, h => by
    rw [visit, Visit.map_result_eq_ok] at h
    obtain ⟨inside, hinside, rfl⟩ := h
    intro s hs
    rw [selectorsAll_rule, List.mem_cons] at hs ⊢
    rcases hs with rfl | hs
    · exact .inl (.inl rfl)
    · exact (visitAll_selectors hcall children hinside s hs).imp_left .inr
  | .call name args pos, out, h => fun s hs => .inr (hcall name args pos out h s hs)
  | .nothing, out, h => by
    cases h
    exact fun s hs => .inl hs
  | .foreign kind, out, h => by cases h

theorem visitAll_selectors {added : Text}
    (hcall : ∀ name args pos out, (onCall name args pos).result = .ok out →
      ∀ s ∈ selectorsAll out, s = added) :
    ∀ (nodes : List Node) {out : List Node}, (visitAll onCall nodes).result = .ok out →
      ∀ s ∈ selectorsAll out, s ∈ selectorsAll nodes ∨ s = added
  | [], out, h => by
    cases h
    exact fun s hs => .inl hs
  | n :: rest, out, h => by
    rw [visitAll, Visit.bind_result_eq_ok] at h
    obtain ⟨front, hfront, hrest⟩ := h
    obtain ⟨back, hback, rfl⟩ := Visit.map_result_eq_ok.mp hrest
    intro s hs
    rw [selectorsAll_append, List.mem_append] at hs
    rw [selectorsAll_cons, List.mem_append]
    rcases hs with hs | hs
    · exact (visit_selectors hcall n hfront s hs).imp_left .inl
    · exact (visitAll_selectors hcall rest hback s hs).imp_left .inr

end

end Node

namespace Library

/-- A `&` is in the rule of an answer, and there is no other. -/
theorem Shape.danglesAny {name : Text} {nodes : List Node} (h : Shape name nodes) :
    Node.danglesAny nodes = givesRule name := by
  rw [Shape] at h
  split at h
  · rename_i hrule
    obtain ⟨front, children, rfl, -, -⟩ := h
    rw [hrule, Node.danglesAny_append, Node.danglesAny_singleton, Node.dangles]
    exact Bool.or_true _
  · rename_i hrule
    rw [Node.danglesAny_of_isDeclaration h, Bool.eq_false_iff.mpr hrule]

theorem Shape.selectorsAll {name : Text} {nodes : List Node} (h : Shape name nodes) :
    ∀ s ∈ Node.selectorsAll nodes, s = utf8 "&:after" := by
  have hdeclarations : ∀ nodes : List Node, (∀ n ∈ nodes, n.isDeclaration) →
      Node.selectorsAll nodes = [] := by
    intro nodes hnodes
    rw [Node.selectorsAll, Node.membersAll_of_isDeclaration hnodes, List.filterMap_eq_nil_iff]
    intro n hn
    have hdeclaration := hnodes n hn
    cases n with
    | declaration property value pos => rfl
    | _ => cases hdeclaration
  rw [Shape] at h
  split at h
  · obtain ⟨front, children, rfl, hfront, hchildren⟩ := h
    rw [Node.selectorsAll_append, Node.selectorsAll_rule, hdeclarations front hfront,
      hdeclarations children hchildren]
    exact List.forall_mem_singleton.mpr rfl
  · rw [hdeclarations nodes h]
    exact List.forall_mem_nil _

end Library

namespace Catalog

variable {overrides : List (Text × Option Mixin)} {vars : Variables}

/-- What takes the place of a call is what the mixin gives, or nothing for a
    name that is unknown. -/
theorem expandCall_eq_ok (huser : ∀ name, (ofOverrides overrides vars).isUserMixin name = false)
    {limit : Nat} {name : Text} {args : Option Args} {pos : Pos} {out : List Node}
    (h : ((ofOverrides overrides vars).expandCall 0 limit name args pos).result = .ok out) :
    Library.Shape name out := by
  cases hfind : (ofOverrides overrides vars).find? name with
  | none =>
    -- The two names that give a rule are in the library, so they are known.
    have hname : Library.givesRule name = false := by
      by_contra hrule
      rw [Bool.not_eq_false, Library.givesRule, Bool.or_eq_true, beq_iff_eq, beq_iff_eq] at hrule
      rw [find?_of_library (huser name)] at hfind
      rcases hrule with rfl | rfl
      · cases hfind
      · cases hfind
    rw [expandCall_of_unknown hfind] at h
    cases h
    rw [Library.Shape, hname, if_neg Bool.false_ne_true]
    exact List.forall_mem_nil _
  | some mixin =>
    cases limit with
    | zero =>
      rw [expandCall_zero hfind] at h
      cases h
    | succ limit =>
      have hanswer := call_answers huser (mem_names_of_find? huser hfind) args
      cases hcall : (ofOverrides overrides vars).call name args with
      | error failure =>
        rw [expandCall_of_failure hfind hcall] at h
        cases h
      | ok nodes =>
        have hshape : Library.Shape name nodes := hanswer.of_ok hcall
        rw [expandCall_of_nodes hfind hcall, Node.visitAll_of_isPlain nodes hshape.isPlain] at h
        cases h
        exact hshape

/-- Expansion with the library keeps whether a `&` stands in no literal rule. -/
theorem expandWithin_dangles
    (huser : ∀ name, (ofOverrides overrides vars).isUserMixin name = false) {limit : Nat}
    {sheet out : Sheet}
    (h : ((ofOverrides overrides vars).expandWithin limit sheet).result = .ok out) :
    Node.danglesAny (out.map Rule.node) = Node.danglesAny (sheet.map Rule.node) := by
  induction sheet generalizing out with
  | nil =>
    cases h
    rfl
  | cons r rest ih =>
    obtain ⟨children, rules, hchildren, hrules, rfl⟩ := expandWithin_cons_eq_ok.mp h
    have hsame := Node.visitAll_dangles
      (fun name args pos nodes hnodes => (expandCall_eq_ok huser hnodes).danglesAny) _ hchildren
    rw [List.map_cons, List.map_cons, Node.danglesAny, Node.danglesAny, ih hrules, Rule.node,
      Rule.node, Node.dangles, Node.dangles, hsame]

/-- Expansion with the library adds no selector but `&:after`. -/
theorem expandWithin_selectors
    (huser : ∀ name, (ofOverrides overrides vars).isUserMixin name = false) {limit : Nat}
    {sheet out : Sheet}
    (h : ((ofOverrides overrides vars).expandWithin limit sheet).result = .ok out) :
    ∀ s ∈ Sheet.selectors out, s ∈ Sheet.selectors sheet ∨ s = utf8 "&:after" := by
  induction sheet generalizing out with
  | nil =>
    cases h
    exact List.forall_mem_nil _
  | cons r rest ih =>
    obtain ⟨children, rules, hchildren, hrules, rfl⟩ := expandWithin_cons_eq_ok.mp h
    have hadded := Node.visitAll_selectors
      (fun name args pos nodes hnodes => (expandCall_eq_ok huser hnodes).selectorsAll) _ hchildren
    intro s hs
    rw [Sheet.selectors, List.map_cons, Node.selectorsAll_cons, Rule.node, Node.selectorsAll_rule,
      List.mem_append, List.mem_cons] at hs ⊢
    rcases hs with (rfl | hs) | hs
    · exact .inl (.inl (.inl rfl))
    · exact (hadded s hs).imp_left fun hs => .inl (.inr hs)
    · exact (ih hrules s hs).imp_left .inr

end Catalog

/-! ## Parsed sheets -/

theorem Lexer.text_ne_nil_of_mem_lex {offset : Nat} {s : Text} {t : Token}
    (h : t ∈ lex offset s) : t.text ≠ [] := by
  fun_induction lex offset s with
  | case1 => cases h
  | case2 offset b rest kind n hscan text ih =>
    rcases List.mem_cons.mp h with rfl | h
    · exact List.cons_ne_nil _ _
    · exact ih h

namespace Grammar

open Node (selectorsAll)

variable {src : Source}

theorem BeginsWith.raw_ne_nil {ts : List Token} {first : Token} (h : BeginsWith ts first)
    (htext : ∀ t ∈ ts, t.text ≠ []) : Token.raw ts ≠ [] := by
  have hmem : first ∈ ts := by
    obtain ⟨lead, rest, -, -, rfl⟩ := h
    simp
  have hsolid : first.isSpace = false := by
    obtain ⟨lead, rest, -, hkind, -⟩ := h
    exact Token.isSpace_eq_false_iff.mpr hkind
  obtain ⟨rest, htrim⟩ := h.trim
  rw [Token.raw, htrim, List.flatMap_cons, hsolid, if_neg Bool.false_ne_true]
  exact List.append_ne_nil_of_left_ne_nil (htext first hmem) _

theorem selectorsAll_statement {ts : List Token} {n : Node}
    (h : Declares src ts n ∨ Calls src ts n) : selectorsAll [n] = [] := by
  rcases h with h | h
  · cases h
    rfl
  · cases h
    rfl

mutual

theorem Items.selectors {ts : List Token} {nodes : List Node} :
    Items src ts nodes → (∀ t ∈ ts, t.text ≠ []) → [] ∉ selectorsAll nodes
  | .done, _ => List.not_mem_nil
  | .space _ hrest, htext => hrest.selectors (List.forall_mem_cons.mp htext).2
  | .semicolon _ hrest, htext => hrest.selectors (List.forall_mem_cons.mp htext).2
  | .rule hrule hrest, htext => by
    obtain ⟨hfront, hback⟩ := List.forall_mem_append.mp htext
    rw [Node.selectorsAll_cons, List.mem_append, not_or]
    exact ⟨hrule.selectors hfront, hrest.selectors hback⟩
  | .statement _ hn _ hrest, htext => by
    have hback := (List.forall_mem_cons.mp (List.forall_mem_append.mp htext).2).2
    rw [Node.selectorsAll_cons, selectorsAll_statement hn, List.nil_append]
    exact hrest.selectors hback

/-- No selector of a parsed rule is empty. -/
theorem Block.selectors {ts : List Token} {r : Rule} :
    Block src ts r → (∀ t ∈ ts, t.text ≠ []) → [] ∉ selectorsAll [r.node]
  | .intro _ hfirst _ hbody hlast _, htext => by
    obtain ⟨hselector, htext⟩ := List.forall_mem_append.mp htext
    obtain ⟨hinside, -⟩ := List.forall_mem_append.mp (List.forall_mem_cons.mp htext).2
    rw [Rule.node, Node.selectorsAll_rule, Node.selectorsAll_append, List.mem_cons,
      List.mem_append, not_or, not_or]
    refine ⟨(hfirst.raw_ne_nil hselector).symm, hbody.selectors hinside, ?_⟩
    cases hlast with
    | nothing => exact List.not_mem_nil
    | declaration _ hn =>
      rw [selectorsAll_statement (.inl hn)]
      exact List.not_mem_nil

end

theorem Document.selectors {ts : List Token} {sheet : Sheet} (h : Document src ts sheet)
    (htext : ∀ t ∈ ts, t.text ≠ []) : [] ∉ Sheet.selectors sheet := by
  induction h with
  | done => exact List.not_mem_nil
  | space _ _ ih => exact ih (List.forall_mem_cons.mp htext).2
  | semicolon _ _ ih => exact ih (List.forall_mem_cons.mp htext).2
  | rule hrule _ _ ih =>
    obtain ⟨hfront, hback⟩ := List.forall_mem_append.mp htext
    rw [Sheet.selectors, List.map_cons, Node.selectorsAll_cons, List.mem_append, not_or]
    exact ⟨hrule.selectors hfront, ih hback⟩

theorem Document.parentMark_not_mem {ts : List Token} {sheet : Sheet}
    (h : Document src ts sheet) : ∀ r ∈ sheet, parentMark ∉ r.selector := by
  induction h with
  | done => exact List.forall_mem_nil _
  | space _ _ ih => exact ih
  | semicolon _ _ ih => exact ih
  | rule _ hparent _ ih => exact List.forall_mem_cons.mpr ⟨hparent, ih⟩

end Grammar

theorem nil_not_mem_selectors_of_parse {src : Text} {sheet : Sheet}
    (h : parse src = .ok sheet) : [] ∉ Sheet.selectors sheet := by
  obtain ⟨ts, htokens, hderived⟩ := parse_eq_ok_iff.mp h
  obtain ⟨-, rfl⟩ := Grammar.tokens_eq_ok_iff.mp htokens
  refine hderived.selectors fun t ht => ?_
  exact Lexer.text_ne_nil_of_mem_lex (List.mem_filter.mp ht).1

/-- At the top of a sheet no selector refers to a parent. -/
theorem parentMark_not_mem_of_parse {src : Text} {sheet : Sheet} (h : parse src = .ok sheet) :
    ∀ r ∈ sheet, parentMark ∉ r.selector := by
  obtain ⟨ts, -, hderived⟩ := parse_eq_ok_iff.mp h
  exact hderived.parentMark_not_mem

/-- So what stands in no literal rule stands in an at-rule. -/
theorem danglesAny_iff_of_parse {src : Text} {sheet : Sheet} (h : parse src = .ok sheet) :
    Node.danglesAny (sheet.map Rule.node) = true ↔
      ∃ r ∈ sheet, isAtSelector r.selector = true ∧ Node.danglesAny r.children = true := by
  have htop := parentMark_not_mem_of_parse h
  clear h
  induction sheet with
  | nil => simp [Node.danglesAny]
  | cons r rest ih =>
    obtain ⟨hr, hrest⟩ := List.forall_mem_cons.mp htop
    rw [List.map_cons, Node.danglesAny, Bool.or_eq_true, List.exists_mem_cons_iff]
    refine or_congr ?_ (ih hrest)
    rw [Rule.node, Node.dangles]
    cases isAtSelector r.selector with
    | true => simp
    | false => simpa using hr

/-! ## Compiled sources -/

/-- What a compiled source has for each `&`. Its text is that of the expanded
    sheet with settled selectors: the selector of a literal rule is put for each
    `&` in the literal selectors right inside of it, also across at-rules.

    With the library alone a `&` is left in a literal selector exactly if the
    source has one that stands in no literal rule, its own or that of a `clearfix`
    or `row`, which needs an at-rule at the top because a selector at the top must
    have none; or if the literal rule around it is written with an empty
    selector, which needs one of white space further out. -/
theorem compile_leaves_parentMark_iff (src : Text) (o : Options) (out : Compiled)
    (huser : ∀ name, o.catalog.isUserMixin name = false) (hcompile : compile src o = .ok out) :
    ∃ sheet expanded : Sheet, parse src = .ok sheet ∧
      (o.catalog.expand sheet).result = .ok expanded ∧
      out.css = Sheet.verbatim o.units expanded.settled ∧
      Sheet.selectors expanded.settled = expanded.headings.map Heading.written ∧
      (∀ r ∈ sheet, parentMark ∉ r.selector) ∧
      ((∃ h ∈ expanded.headings, h.isLiteral ∧ parentMark ∈ h.written) ↔
        (∃ r ∈ sheet, isAtSelector r.selector ∧ Node.danglesAny r.children) ∨
          ∃ h ∈ expanded.headings, h.IsHollow) := by
  obtain ⟨sheet, expanded, hparse, hexpand, rfl⟩ := compile_eq_ok_iff.mp hcompile
  refine ⟨sheet, expanded, hparse, hexpand, Sheet.render_eq_verbatim _ _,
    Sheet.selectors_settled expanded, parentMark_not_mem_of_parse hparse, ?_⟩
  have hselectors : [] ∉ Sheet.selectors expanded := by
    intro hnil
    rcases Catalog.expandWithin_selectors huser hexpand [] hnil with hnil | hafter
    · exact nil_not_mem_selectors_of_parse hparse hnil
    · cases hafter
  have hbare := Node.danglesAny_iff _ (Catalog.expandWithin_isPlain _ _ hexpand)
  rw [Catalog.expandWithin_dangles huser hexpand, danglesAny_iff_of_parse hparse] at hbare
  rw [Sheet.exists_left_iff hselectors, hbare]
  rfl

/-- The `&` in the rule of `clearfix` is left: the rule `.a` stands beside it and
    not around it. -/
theorem compile_leaves_parentMark_iff_clearfix :
    let src := utf8 "@media x \x7b .a \x7b &.b \x7b hide(); \x7d \x7d clearfix(); \x7d"
    ∃ out, compile src .standard = .ok out ∧
      ∃ sheet expanded : Sheet, parse src = .ok sheet ∧
        (Options.standard.catalog.expand sheet).result = .ok expanded ∧
        out.css = Sheet.verbatim .usual expanded.settled ∧
        ∃ h ∈ expanded.headings, h.isLiteral ∧ parentMark ∈ h.written := by
  intro src
  have hsome : (compile src .standard).toOption.isSome := by decide +kernel
  obtain ⟨out, hout⟩ := Option.isSome_iff_exists.mp hsome
  have hcompile := toOption_eq_some_iff.mp hout
  obtain ⟨sheet, expanded, hparse, hexpand, hcss, -, -, hleft⟩ :=
    compile_leaves_parentMark_iff src .standard out (fun _ => rfl) hcompile
  refine ⟨out, hcompile, sheet, expanded, hparse, hexpand, hcss, hleft.mpr (.inl ?_)⟩
  have hdangling : (parse src).toOption.map (fun sheet =>
      sheet.any fun r => isAtSelector r.selector && Node.danglesAny r.children) = some true := by
    decide +kernel
  rw [hparse] at hdangling
  obtain ⟨r, hr, hboth⟩ := List.any_eq_true.mp (Option.some.inj hdangling)
  exact ⟨r, hr, Bool.and_eq_true_iff.mp hboth⟩

/-- In an at-rule at the top a `&` has nothing to stand for, and is written as it
    is. -/
theorem compile_leaves_parentMark :
    compile (utf8 "@media x \x7b &.b \x7b color: red; \x7d \x7d") .standard =
      .ok ⟨utf8 "@media x \x7b\n\t&.b \x7b\n\t\tcolor: red;\n\t\x7d\n\x7d", []⟩ := by
  rw [← toOption_eq_some_iff]
  decide +kernel

end MixinCss
