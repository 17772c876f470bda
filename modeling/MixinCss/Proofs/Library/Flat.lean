/-
  MixinCss.Proofs.Library.Flat

  What a call of the library comes to. It is answered by declarations, with one
  rule behind them if it is a call of `clearfix` or `row`, or it is refused for
  its arguments; there is no third case, and in particular no position of the
  arguments is used where there is none (`Catalog.callWithin_answers`).

  So no call comes out of a call, and the limit on how deep calls may come out
  of calls does nothing (`Catalog.library_calls_are_flat`).
-/

import MixinCss.Proofs.Library.Callees
import MixinCss.Proofs.Sheet.Limit

namespace MixinCss

def Node.isDeclaration : Node → Bool
  | .declaration .. => true
  | _ => false

/-- Declarations hold nothing. -/
theorem Node.membersAll_of_isDeclaration {nodes : List Node} (h : ∀ n ∈ nodes, n.isDeclaration) :
    membersAll nodes = nodes := by
  induction nodes with
  | nil => rfl
  | cons n rest ih =>
    obtain ⟨hn, hrest⟩ := List.forall_mem_cons.mp h
    rw [membersAll_cons, ih hrest]
    cases n with
    | declaration property value pos => rfl
    | _ => cases hn

namespace Library

open Mixin

/-! ## Answers -/

/-- Whether a mixin of the library gives a rule. -/
def givesRule (name : Text) : Bool := name == utf8 "clearfix" || name == utf8 "row"

/-- The nodes are declarations; those of a mixin that gives a rule have the rule
    `&:after` behind them, with declarations inside. -/
def Shape (name : Text) (nodes : List Node) : Prop :=
  if givesRule name then
    ∃ front children, nodes = front ++ [.rule (utf8 "&:after") children .unknown] ∧
      (∀ n ∈ front, n.isDeclaration) ∧ ∀ n ∈ children, n.isDeclaration
  else ∀ n ∈ nodes, n.isDeclaration

/-- Nodes of the shape that the mixin gives, or a refusal of the arguments. -/
def Answers (name : Text) : Expansion → Prop := Meets (fun e => e.isRefusal = true) (Shape name)

/-- All nodes are declarations, or the arguments are refused. -/
abbrev Declares : Expansion → Prop :=
  Yields (fun e => e.isRefusal = true) fun n => n.isDeclaration = true

theorem answers_iff_declares {name : Text} (h : givesRule name = false) (x : Expansion) :
    Answers name x ↔ Declares x := by
  have hshape : Shape name = fun nodes => ∀ n ∈ nodes, n.isDeclaration = true := by
    funext nodes
    rw [Shape, h, if_neg Bool.false_ne_true]
  rw [Answers, hshape]
  rfl

/-- What gives no rule calls nothing that does. -/
theorem givesRule_callees :
    ∀ name ∈ names, givesRule name = false → ∀ n ∈ callees name, givesRule n = false := by
  decide

variable {scope : Scope}

/-- A mixin that gives no rule. It does not see what else there is to call, so
    that may be left out. -/
theorem answers_of_not_givesRule {name : Text} {mixin : Mixin} (hmem : (name, mixin) ∈ all)
    (hname : givesRule name = false)
    (hcall : ∀ n ∈ callees name, ∀ args, Answers n (scope.call n args)) (args : Args) :
    Answers name (mixin scope args) := by
  -- In the whole scope `row` and `clearfix` may be called, which give a rule. In
  -- the narrow one every call gives declarations, and the mixin sees no difference.
  let narrow : Scope :=
    ⟨scope.vars, fun n args => if n ∈ callees name then scope.call n args else .error (.missing [])⟩
  have hsame : mixin scope args = mixin narrow args :=
    all_callOnly (name, mixin) hmem scope narrow rfl (fun n hn args => (if_pos hn).symm) args
  have hnarrow : ∀ n args, Declares (narrow.call n args) := by
    intro n args
    show Declares (if n ∈ callees name then scope.call n args else .error (.missing []))
    split
    · rename_i hn
      have hrule := givesRule_callees name (List.mem_map_of_mem hmem) hname n hn
      exact (answers_iff_declares hrule _).mp (hcall n hn args)
    · rfl
  have hclearfix : name ≠ utf8 "clearfix" := by
    rintro rfl
    exact Bool.false_ne_true hname.symm
  rw [answers_iff_declares hname, hsame]
  exact all_keep (fun _ h => h) (fun _ _ => rfl) (name, mixin) hmem hclearfix narrow hnarrow args

/-- The rule of `clearfix` holds what the three mixins give that it calls. -/
theorem clearfix_answers
    (hcall : ∀ n ∈ callees (utf8 "clearfix"), ∀ args, Answers n (scope.call n args))
    (args : Args) : Answers (utf8 "clearfix") (clearfix scope args) := by
  have hdeclares : ∀ n ∈ callees (utf8 "clearfix"), ∀ args, Declares (scope.call n args) := by
    intro n hn args
    have hrule : ∀ n ∈ callees (utf8 "clearfix"), givesRule n = false := by decide
    exact (answers_iff_declares (hrule n hn) _).mp (hcall n hn args)
  refine (hdeclares (utf8 "clear") (by decide) _).bind fun clear hclear => ?_
  refine (hdeclares (utf8 "content") (by decide) _).bind fun content hcontent => ?_
  refine (hdeclares (utf8 "display") (by decide) _).bind fun display hdisplay => ?_
  refine ⟨[], clear ++ content ++ display, rfl, List.forall_mem_nil _, ?_⟩
  exact List.forall_mem_append.mpr ⟨List.forall_mem_append.mpr ⟨hclear, hcontent⟩, hdisplay⟩

/-- The offsets of `row` stand in front of the rule of `clearfix`. -/
theorem row_answers (hcall : ∀ n ∈ callees (utf8 "row"), ∀ args, Answers n (scope.call n args))
    (args : Args) : Answers (utf8 "row") (row scope args) := by
  have hmargin : ∀ args, Declares (scope.call (utf8 "margin") args) := fun args =>
    (answers_iff_declares rfl _).mp (hcall (utf8 "margin") (by decide) args)
  have hoffsets : Declares (rowModify scope args) := by
    refine (meets_rowMargin (fun _ h => h) _ args).bind fun m _ => ?_
    refine (hmargin _).bind fun left hleft => ?_
    exact List.forall_mem_append.mpr ⟨hleft, List.forall_mem_singleton.mpr rfl⟩
  refine hoffsets.bind fun offsets hfront => ?_
  refine (hcall (utf8 "clearfix") (by decide) _).bind fun fix hfix => ?_
  obtain ⟨front, children, rfl, hdeclared, hchildren⟩ := hfix
  refine ⟨offsets ++ front, children, (List.append_assoc _ _ _).symm, ?_, hchildren⟩
  exact List.forall_mem_append.mpr ⟨hfront, hdeclared⟩

theorem all_answer {name : Text} {mixin : Mixin} (hlookup : all.lookup name = some mixin)
    (hmem : (name, mixin) ∈ all)
    (hcall : ∀ n ∈ callees name, ∀ args, Answers n (scope.call n args)) (args : Args) :
    Answers name (mixin scope args) := by
  by_cases hfix : name = utf8 "clearfix"
  · subst hfix
    cases hlookup
    exact clearfix_answers hcall args
  by_cases hrow : name = utf8 "row"
  · subst hrow
    cases hlookup
    exact row_answers hcall args
  have hname : givesRule name = false := by
    rw [givesRule, beq_false_of_ne hfix, beq_false_of_ne hrow]
    rfl
  exact answers_of_not_givesRule hmem hname hcall args

/-- No call, no empty place and no foreign node is in an answer, at any depth. -/
theorem Shape.isPlain {name : Text} {nodes : List Node} (h : Shape name nodes) :
    ∀ m ∈ Node.membersAll nodes, m.isPlain := by
  have hdeclarations : ∀ nodes : List Node, (∀ n ∈ nodes, n.isDeclaration) →
      ∀ m ∈ Node.membersAll nodes, m.isPlain := by
    intro nodes hnodes n hn
    rw [Node.membersAll_of_isDeclaration hnodes] at hn
    have hdeclaration := hnodes n hn
    cases n with
    | declaration property value pos => rfl
    | _ => cases hdeclaration
  rw [Shape] at h
  split at h
  · obtain ⟨front, children, rfl, hfront, hchildren⟩ := h
    rw [Node.membersAll_append, Node.membersAll_singleton, Node.members]
    refine List.forall_mem_append.mpr ⟨hdeclarations front hfront, ?_⟩
    exact List.forall_mem_cons.mpr ⟨rfl, hdeclarations children hchildren⟩
  · exact hdeclarations nodes h

end Library

namespace Catalog

variable {overrides : List (Text × Option Mixin)} {vars : Variables}

/-- Calls of the library are answered, with as many levels as they take or more.
    The induction goes from the names that are called to the name itself. -/
theorem callWithin_answers
    (huser : ∀ name, (ofOverrides overrides vars).isUserMixin name = false) :
    ∀ name ∈ Library.names, ∀ fuel, (Library.callees name).length < fuel → ∀ args,
      Library.Answers name ((ofOverrides overrides vars).callWithin fuel name args) := by
  refine Library.names_induction fun name hname ih fuel hfuel args => ?_
  obtain ⟨fuel, rfl⟩ : ∃ k, fuel = k + 1 := ⟨fuel - 1, by omega⟩
  obtain ⟨mixin, hlookup, hmem⟩ := Library.exists_lookup hname
  rw [callWithin_succ ((find?_of_library (huser name)).trans hlookup)]
  refine Library.all_answer hlookup hmem (fun n hn args => ?_) args
  have hless := (Library.callees_ranked name hname n hn).2.2
  exact ih n hn fuel (by omega) args

theorem call_answers (huser : ∀ name, (ofOverrides overrides vars).isUserMixin name = false)
    {name : Text} (hname : name ∈ Library.names) (args : Option Args) :
    Library.Answers name ((ofOverrides overrides vars).call name args) :=
  callWithin_answers huser name hname _ (length_callees_lt name hname) _

/-! ## Levels of calls -/

theorem mem_names_of_find? (huser : ∀ name, (ofOverrides overrides vars).isUserMixin name = false)
    {name : Text} {mixin : Mixin} (h : (ofOverrides overrides vars).find? name = some mixin) :
    name ∈ Library.names := by
  rw [find?_of_library (huser name)] at h
  obtain ⟨front, back, hall, -⟩ := List.lookup_eq_some_iff.mp h
  exact List.mem_map.mpr ⟨(name, mixin), by simp [hall], rfl⟩

/-- One level is enough for a call: what it is answered by holds no call. So the
    call is unknown, refused, or replaced by the nodes as they are. -/
theorem expandCall_library (huser : ∀ name, (ofOverrides overrides vars).isUserMixin name = false)
    (depth remaining : Nat) (name : Text) (args : Option Args) (pos : Pos) :
    (ofOverrides overrides vars).expandCall depth (remaining + 1) name args pos =
        (ofOverrides overrides vars).expandCall depth 1 name args pos ∧
      ¬ ((ofOverrides overrides vars).expandCall depth (remaining + 1) name args pos).TooDeep := by
  cases hfind : (ofOverrides overrides vars).find? name with
  | none =>
    rw [expandCall_of_unknown hfind, expandCall_of_unknown hfind]
    exact ⟨rfl, Visit.not_tooDeep_of_ok rfl⟩
  | some mixin =>
    have hanswer := call_answers huser (mem_names_of_find? huser hfind) args
    cases hcall : (ofOverrides overrides vars).call name args with
    | error failure =>
      rw [expandCall_of_failure hfind hcall, expandCall_of_failure hfind hcall]
      refine ⟨rfl, ?_⟩
      rintro ⟨inner, innerPos, h⟩
      cases h
    | ok nodes =>
      -- With no calls in them, the nodes are visited without a further level.
      have hplain := Library.Shape.isPlain (hanswer.of_ok hcall)
      rw [expandCall_of_nodes hfind hcall, expandCall_of_nodes hfind hcall,
        Node.visitAll_of_isPlain nodes hplain, Node.visitAll_of_isPlain nodes hplain]
      exact ⟨rfl, Visit.not_tooDeep_of_ok rfl⟩

theorem expandWithin_library
    (huser : ∀ name, (ofOverrides overrides vars).isUserMixin name = false) (limit : Nat)
    (sheet : Sheet) :
    (ofOverrides overrides vars).expandWithin (limit + 1) sheet =
        (ofOverrides overrides vars).expandWithin 1 sheet ∧
      ¬ ((ofOverrides overrides vars).expandWithin (limit + 1) sheet).TooDeep := by
  have hcalls : (ofOverrides overrides vars).expandCall 0 (limit + 1) =
      (ofOverrides overrides vars).expandCall 0 1 := by
    funext name args pos
    exact (expandCall_library huser 0 limit name args pos).1
  induction sheet with
  | nil => exact ⟨rfl, Visit.not_tooDeep_of_ok rfl⟩
  | cons r rest ih =>
    refine ⟨?_, ?_⟩
    · rw [expandWithin, expandWithin, hcalls, ih.1]
    · rintro ⟨name, pos, herror⟩
      rw [expandWithin, Visit.bind_result_eq_error] at herror
      rcases herror with herror | ⟨children, -, herror⟩
      · -- Only an answer to a call could be too deep, and none is.
        refine Node.visitAll_tooDeep_known (fun _ => False) ?_ r.children herror
        intro name args pos inner innerPos hdeep
        exact (expandCall_library huser 0 limit name args pos).2 ⟨inner, innerPos, hdeep⟩
      · exact ih.2 ⟨name, pos, Visit.map_result_eq_error.mp herror⟩

/-- The library is safe and flat. Without mixins of the user, a call of the
    library with any arguments and settings is answered by declarations, with
    the one rule `&:after` behind them for `clearfix` and `row`, or is refused
    for its arguments; it never uses a position that the arguments do not have.
    Hence a sheet expands in the same way under every limit that allows calls at
    all, with the same notes and the same error, and never fails for its
    depth. -/
theorem library_calls_are_flat (overrides : List (Text × Option Mixin)) (vars : Variables)
    (huser : ∀ name, (ofOverrides overrides vars).isUserMixin name = false) :
    (∀ name ∈ Library.names, ∀ args,
      (∃ failure, (ofOverrides overrides vars).call name args = .error failure ∧
          failure.isRefusal = true ∧
          (∀ index size, failure ≠ .outOfRange index size) ∧
          ∀ start size, failure ≠ .outOfBounds start size) ∨
        ∃ nodes, (ofOverrides overrides vars).call name args = .ok nodes ∧
          Library.Shape name nodes) ∧
    ∀ (sheet : Sheet) (limit : Nat), 1 ≤ limit →
      (ofOverrides overrides vars).expandWithin limit sheet =
          (ofOverrides overrides vars).expandWithin 1 sheet ∧
        ¬ ((ofOverrides overrides vars).expandWithin limit sheet).TooDeep := by
  constructor
  · intro name hname args
    have hanswer := call_answers huser hname args
    cases hcall : (ofOverrides overrides vars).call name args with
    | error failure =>
      have hrefusal : failure.isRefusal = true := hanswer.of_error hcall
      refine .inl ⟨failure, rfl, hrefusal, ?_, ?_⟩
      · rintro index size rfl
        exact Bool.false_ne_true hrefusal
      · rintro start size rfl
        exact Bool.false_ne_true hrefusal
    | ok nodes => exact .inr ⟨nodes, rfl, hanswer.of_ok hcall⟩
  · intro sheet limit hlimit
    obtain ⟨limit, rfl⟩ : ∃ k, limit = k + 1 := ⟨limit - 1, by omega⟩
    exact expandWithin_library huser limit sheet

/-- A name without a mixin is no mixin of the user. A second argument that is
    missing is not asked for, and a list of families too long is refused. -/
theorem library_calls_are_flat_samples :
    let c := ofOverrides [(utf8 "display", none)] .standard
    let sheet : Sheet := [⟨utf8 ".a", [.call (utf8 "row") none ⟨5, 1, 6⟩], ⟨0, 1, 1⟩⟩]
    (∀ name, c.isUserMixin name = false) ∧
      (∃ nodes, c.call (utf8 "background") (some (.positional [.word (utf8 "red")])) = .ok nodes ∧
        Library.Shape (utf8 "background") nodes) ∧
      (∃ failure,
        c.call (utf8 "font") (some (.positional (List.replicate 6 (.word (utf8 "a"))))) =
          .error failure ∧ failure.isRefusal = true) ∧
      c.expandWithin 64 sheet = c.expandWithin 1 sheet ∧ ¬ (c.expandWithin 64 sheet).TooDeep := by
  intro c sheet
  have huser : ∀ name, c.isUserMixin name = false := by
    intro name
    show (List.lookup name [(utf8 "display", none)]).join.isSome = false
    rw [List.lookup_cons]
    cases name == utf8 "display" with
    | true => rfl
    | false => rfl
  obtain ⟨hcalls, hsheets⟩ := library_calls_are_flat [(utf8 "display", none)] .standard huser
  refine ⟨huser, ?_, ?_, hsheets sheet 64 (by decide)⟩
  · rcases hcalls (utf8 "background") (by decide)
      (some (.positional [.word (utf8 "red")])) with ⟨failure, hfailure, -⟩ | hnodes
    · have hok : (c.call (utf8 "background")
          (some (.positional [.word (utf8 "red")]))).toOption.isSome := by
        decide +kernel
      rw [hfailure] at hok
      exact absurd hok Bool.false_ne_true
    · exact hnodes
  · rcases hcalls (utf8 "font") (by decide)
      (some (.positional (List.replicate 6 (.word (utf8 "a"))))) with
      ⟨failure, hfailure, hrefusal, -⟩ | ⟨nodes, hnodes, -⟩
    · exact ⟨failure, hfailure, hrefusal⟩
    · have hnone : (c.call (utf8 "font")
          (some (.positional (List.replicate 6 (.word (utf8 "a")))))).toOption.isNone := by
        decide +kernel
      rw [hnodes] at hnone
      exact absurd hnone Bool.false_ne_true

end Catalog

end MixinCss
