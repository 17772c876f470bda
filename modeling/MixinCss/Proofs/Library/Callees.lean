/-
  MixinCss.Proofs.Library.Callees

  Which mixins a mixin of the library calls, and what follows from it. A mixin
  sees the catalog through its scope alone, and each mixin of the library looks
  at the settings and at the answers to a few names only
  (`Library.all_callOnly`). The names that are called on behalf of a call have
  fewer such names themselves, so a call ends after a few levels, and a mixin of
  the user is seen exactly by the mixins that reach its name
  (`Catalog.callWithin_congr`).
-/

import MixinCss.Mixin.Catalog
import MixinCss.Proofs.Library.Yields

namespace MixinCss

namespace Mixin

/-! ## What a mixin looks at -/

/-- The mixin looks at nothing of its scope but the settings and the answers to
    calls of these names. -/
def CallsOnly (names : List Text) (mixin : Mixin) : Prop :=
  ∀ s s' : Scope, s.vars = s'.vars → (∀ n ∈ names, ∀ args, s.call n args = s'.call n args) →
    ∀ args, mixin s args = mixin s' args

section

variable {called : List Text}

theorem property_callsOnly (name : String) : CallsOnly called (property name) :=
  fun _ _ _ _ _ => rfl

theorem propertyOr_callsOnly (name fallback : String) :
    CallsOnly called (propertyOr name fallback) :=
  fun _ _ _ _ _ => rfl

theorem constant_callsOnly (name value : String) : CallsOnly called (constant name value) :=
  fun _ _ _ _ _ => rfl

theorem forward_callsOnly {name : String} (h : utf8 name ∈ called) (v : Value) :
    CallsOnly called (forward name v) :=
  fun _ _ _ hcall _ => hcall _ h _

end

end Mixin

namespace Library

open Mixin

section

variable {called : List Text}

theorem offsets_callsOnly (name : String) : CallsOnly called (offsets name) :=
  fun _ _ _ _ _ => rfl

theorem floatOrOffset_callsOnly (side : String) : CallsOnly called (floatOrOffset side) :=
  fun _ _ _ _ _ => rfl

theorem sized_callsOnly (h : utf8 "display" ∈ called) (display : String) :
    CallsOnly called (sized display) := by
  intro s s' _ hcall args
  simp only [sized, hcall _ h]

theorem centeredBlock_callsOnly (hblock : utf8 "block" ∈ called)
    (hmargin : utf8 "margin" ∈ called) : CallsOnly called centeredBlock := by
  intro s s' _ hcall args
  simp only [centeredBlock, hcall _ hblock, hcall _ hmargin]

theorem margin_callsOnly : CallsOnly called margin := fun _ _ _ _ _ => rfl

theorem spaced_callsOnly (h : utf8 "margin" ∈ called) : CallsOnly called spaced := by
  intro s s' hvars hcall args
  simp only [spaced, hvars, hcall _ h]

theorem spacedBlock_callsOnly (hspaced : utf8 "spaced" ∈ called) (hblock : utf8 "block" ∈ called) :
    CallsOnly called spacedBlock := by
  intro s s' _ hcall args
  simp only [spacedBlock, hcall _ hspaced, hcall _ hblock]

theorem extent_callsOnly (width height : String) : CallsOnly called (extent width height) :=
  fun _ _ _ _ _ => rfl

theorem column_callsOnly (h : utf8 "margin" ∈ called) : CallsOnly called column := by
  intro s s' hvars hcall args
  simp only [column, hvars, hcall _ h]

theorem rowModify_callsOnly (h : utf8 "margin" ∈ called) : CallsOnly called rowModify := by
  intro s s' hvars hcall args
  simp only [rowModify, hvars, hcall _ h]

theorem row_callsOnly (hmargin : utf8 "margin" ∈ called) (hfix : utf8 "clearfix" ∈ called) :
    CallsOnly called row := by
  intro s s' hvars hcall args
  simp only [row, rowModify_callsOnly hmargin s s' hvars hcall args, hcall _ hfix]

theorem rowReset_callsOnly (h : utf8 "margin" ∈ called) : CallsOnly called rowReset := by
  intro s s' _ hcall args
  simp only [rowReset, hcall _ h]

theorem clearfix_callsOnly (hclear : utf8 "clear" ∈ called) (hcontent : utf8 "content" ∈ called)
    (hdisplay : utf8 "display" ∈ called) : CallsOnly called clearfix := by
  intro s s' _ hcall args
  simp only [clearfix, hcall _ hclear, hcall _ hcontent, hcall _ hdisplay]

theorem content_callsOnly : CallsOnly called content := fun _ _ _ _ _ => rfl

theorem shade_callsOnly (transform : Text → Float → Except Color.Refusal Text) :
    CallsOnly called (shade transform) :=
  fun _ _ _ _ _ => rfl

theorem background_callsOnly : CallsOnly called background := fun _ _ _ _ _ => rfl

theorem border_callsOnly : CallsOnly called border := by
  intro s s' hvars _ args
  simp only [border, hvars]

theorem opacity_callsOnly : CallsOnly called opacity := fun _ _ _ _ _ => rfl

theorem font_callsOnly : CallsOnly called font := fun _ _ _ _ _ => rfl

theorem bold_callsOnly : CallsOnly called bold := by
  intro s s' hvars _ args
  simp only [bold, hvars]

end

/-! ## The names that a call reaches -/

/-- The mixins that are made from others, with all names that are called on
    behalf of a call of them. -/
def madeFrom : List (String × List String) := [
  ("inline", ["display"]),
  ("hide", ["display"]),
  ("show", ["display"]),
  ("block", ["display"]),
  ("inlineBlock", ["display"]),
  ("hidden", ["visibility"]),
  ("visible", ["visibility"]),
  ("opaque", ["opacity"]),
  ("transparent", ["opacity"]),
  ("spaced", ["margin"]),
  ("column", ["margin"]),
  ("rowModify", ["margin"]),
  ("rowReset", ["margin"]),
  ("centeredBlock", ["block", "display", "margin"]),
  ("spacedBlock", ["spaced", "margin", "block", "display"]),
  ("clearfix", ["clear", "content", "display"]),
  ("row", ["margin", "clearfix", "clear", "content", "display"])]

/-- The names that are called on behalf of a call; none for a mixin that is not
    made from others. -/
def callees (name : Text) : List Text :=
  match madeFrom.find? fun entry => utf8 entry.1 == name with
  | some entry => entry.2.map utf8
  | none => []

/-- A name and those that are called on behalf of it. -/
def reach (name : Text) : List Text := name :: callees name

/-- The names of the library. -/
def names : List Text := all.map Prod.fst

theorem position_callOnly : ∀ entry ∈ position, CallsOnly (callees (utf8 entry.1)) entry.2 := by
  simp only [position, List.forall_mem_cons, List.not_mem_nil, false_imp_iff, implies_true,
    and_true]
  exact ⟨offsets_callsOnly _, offsets_callsOnly _, floatOrOffset_callsOnly _,
    floatOrOffset_callsOnly _⟩

theorem box_callOnly : ∀ entry ∈ box, CallsOnly (callees (utf8 entry.1)) entry.2 := by
  simp only [box, List.forall_mem_cons, List.not_mem_nil, false_imp_iff, implies_true, and_true]
  exact ⟨sized_callsOnly (by decide) _, sized_callsOnly (by decide) _,
    centeredBlock_callsOnly (by decide) (by decide), margin_callsOnly,
    spaced_callsOnly (by decide), spacedBlock_callsOnly (by decide) (by decide),
    extent_callsOnly _ _, extent_callsOnly _ _⟩

theorem columns_callOnly : ∀ entry ∈ columns, CallsOnly (callees (utf8 entry.1)) entry.2 := by
  simp only [columns, List.forall_mem_cons, List.not_mem_nil, false_imp_iff, implies_true,
    and_true]
  exact ⟨column_callsOnly (by decide), row_callsOnly (by decide) (by decide),
    rowModify_callsOnly (by decide), rowReset_callsOnly (by decide), propertyOr_callsOnly _ _,
    clearfix_callsOnly (by decide) (by decide) (by decide), content_callsOnly⟩

theorem appearance_callOnly : ∀ entry ∈ appearance, CallsOnly (callees (utf8 entry.1)) entry.2 := by
  simp only [appearance, List.forall_mem_cons, List.not_mem_nil, false_imp_iff, implies_true,
    and_true]
  exact ⟨property_callsOnly _, forward_callsOnly (by decide) _, forward_callsOnly (by decide) _,
    forward_callsOnly (by decide) _, property_callsOnly _, forward_callsOnly (by decide) _,
    forward_callsOnly (by decide) _, property_callsOnly _, shade_callsOnly _, shade_callsOnly _,
    background_callsOnly, border_callsOnly, opacity_callsOnly, forward_callsOnly (by decide) _,
    forward_callsOnly (by decide) _⟩

theorem typography_callOnly : ∀ entry ∈ typography, CallsOnly (callees (utf8 entry.1)) entry.2 := by
  simp only [typography, List.forall_mem_cons, List.not_mem_nil, false_imp_iff, implies_true,
    and_true]
  exact ⟨font_callsOnly, bold_callsOnly, constant_callsOnly _ _, property_callsOnly _,
    property_callsOnly _, constant_callsOnly _ _⟩

/-- Every mixin of the library calls the names that the table has for it, and no
    others. -/
theorem all_callOnly : ∀ entry ∈ all, CallsOnly (callees entry.1) entry.2 := by
  unfold all
  rw [List.forall_mem_map]
  simp only [List.forall_mem_append]
  exact ⟨⟨⟨⟨position_callOnly, box_callOnly⟩, columns_callOnly⟩, appearance_callOnly⟩,
    typography_callOnly⟩

/-- What is called on behalf of a call belongs to the library, is closed under
    calls, and has fewer names to call itself. -/
theorem callees_ranked :
    ∀ name ∈ names, ∀ n ∈ callees name,
      n ∈ names ∧ (∀ m ∈ callees n, m ∈ callees name) ∧
        (callees n).length < (callees name).length := by
  decide

/-- No mixin calls itself, however far around, so a property of all names
    follows from the step from the names that are called to the name itself. -/
theorem names_induction {motive : Text → Prop}
    (step : ∀ name ∈ names, (∀ n ∈ callees name, motive n) → motive name) :
    ∀ name ∈ names, motive name := by
  -- By how many names are called, which gets less along every call.
  have hrank : ∀ rank, ∀ name ∈ names, (callees name).length < rank → motive name := by
    intro rank
    induction rank with
    | zero => exact fun _ _ h => absurd h (Nat.not_lt_zero _)
    | succ rank ih =>
      intro name hname hlt
      refine step name hname fun n hn => ?_
      obtain ⟨hmem, -, hless⟩ := callees_ranked name hname n hn
      exact ih n hmem (by omega)
  exact fun name hname => hrank _ name hname (Nat.lt_succ_self _)

theorem exists_lookup {name : Text} (h : name ∈ names) :
    ∃ mixin, all.lookup name = some mixin ∧ (name, mixin) ∈ all := by
  cases hlookup : all.lookup name with
  | none =>
    obtain ⟨entry, hentry, rfl⟩ := List.mem_map.mp h
    have hne := List.lookup_eq_none_iff.mp hlookup entry hentry
    simp at hne
  | some mixin =>
    obtain ⟨front, back, hall, -⟩ := List.lookup_eq_some_iff.mp hlookup
    exact ⟨mixin, rfl, by simp [hall]⟩

end Library

/-! ## Catalogs -/

namespace Catalog

theorem override?_eq_none {c : Catalog} {name : Text} (h : c.isUserMixin name = false) :
    c.override? name = none :=
  Option.isNone_iff_eq_none.mp (by simpa [isUserMixin] using h)

/-- A name of the library that no mixin of the user has runs the one of the
    library. -/
theorem find?_of_library {overrides : List (Text × Option Mixin)} {vars : Variables} {name : Text}
    (h : (ofOverrides overrides vars).isUserMixin name = false) :
    (ofOverrides overrides vars).find? name = Library.all.lookup name := by
  rw [find?, override?_eq_none h]
  rfl

theorem callWithin_succ {c : Catalog} {name : Text} {mixin : Mixin}
    (h : c.find? name = some mixin) (fuel : Nat) (args : Args) :
    c.callWithin (fuel + 1) name args = mixin ⟨c.vars, c.callWithin fuel⟩ args := by
  rw [callWithin, h]

section

variable {vars : Variables} {overrides overrides' : List (Text × Option Mixin)}

/-- Two catalogs in which the names that a call reaches run the mixins of the
    library answer the call alike, however deep calls may nest beyond what it
    takes. -/
theorem callWithin_congr :
    ∀ name ∈ Library.names,
      (∀ n ∈ Library.reach name, (ofOverrides overrides vars).isUserMixin n = false) →
      (∀ n ∈ Library.reach name, (ofOverrides overrides' vars).isUserMixin n = false) →
      ∀ fuel fuel', (Library.callees name).length < fuel → (Library.callees name).length < fuel' →
      ∀ args, (ofOverrides overrides vars).callWithin fuel name args =
        (ofOverrides overrides' vars).callWithin fuel' name args := by
  refine Library.names_induction fun name hname ih huser huser' fuel fuel' hfuel hfuel' args => ?_
  obtain ⟨fuel, rfl⟩ : ∃ k, fuel = k + 1 := ⟨fuel - 1, by omega⟩
  obtain ⟨fuel', rfl⟩ : ∃ k, fuel' = k + 1 := ⟨fuel' - 1, by omega⟩
  obtain ⟨mixin, hlookup, hmem⟩ := Library.exists_lookup hname
  have hfind := find?_of_library (huser name List.mem_cons_self)
  have hfind' := find?_of_library (huser' name List.mem_cons_self)
  rw [callWithin_succ (hfind.trans hlookup), callWithin_succ (hfind'.trans hlookup)]
  refine Library.all_callOnly (name, mixin) hmem
    ⟨vars, (ofOverrides overrides vars).callWithin fuel⟩
    ⟨vars, (ofOverrides overrides' vars).callWithin fuel'⟩ rfl (fun n hn args => ?_) args
  -- The names that `n` reaches are among those that `name` reaches.
  obtain ⟨-, hclosed, hless⟩ := Library.callees_ranked name hname n hn
  have hreach : ∀ m ∈ Library.reach n, m ∈ Library.reach name := by
    intro m hm
    rcases List.mem_cons.mp hm with rfl | hm
    · exact List.mem_cons_of_mem _ hn
    · exact List.mem_cons_of_mem _ (hclosed m hm)
  exact ih n hn (fun m hm => huser m (hreach m hm)) (fun m hm => huser' m (hreach m hm)) fuel fuel'
    (by omega) (by omega) args

end

/-- A call takes fewer levels than are allowed. -/
theorem length_callees_lt :
    ∀ name ∈ Library.names, (Library.callees name).length < nestingLimit := by
  decide

/-- Without mixins of the user a call runs the mixin of the library. -/
theorem call_builtin (vars : Variables) {name : Text} {mixin : Mixin}
    (h : Library.all.lookup name = some mixin) (args : Args) :
    (ofOverrides [] vars).call name (some args) =
      mixin ⟨vars, (ofOverrides [] vars).callWithin (nestingLimit - 1)⟩ args := by
  have hfind : (ofOverrides [] vars).find? name = some mixin := (find?_of_library rfl).trans h
  exact callWithin_succ hfind (nestingLimit - 1) args

/-- `block` is what `display` gives, whoever answers to that name, and the sizes
    behind it. -/
theorem callWithin_block {overrides : List (Text × Option Mixin)} {vars : Variables}
    {display : Mixin}
    (hdisplay : (ofOverrides overrides vars).find? (utf8 "display") = some display)
    (hblock : (ofOverrides overrides vars).isUserMixin (utf8 "block") = false) (fuel : Nat)
    (args : Args) :
    (ofOverrides overrides vars).callWithin (fuel + 2) (utf8 "block") args = (do
      let shown ← display ⟨vars, (ofOverrides overrides vars).callWithin fuel⟩
        (.positional [Mixin.word "block"])
      return shown ++ (← Library.sizes args)) := by
  have hfind : (ofOverrides overrides vars).find? (utf8 "block") = some (Library.sized "block") :=
    find?_of_library hblock
  rw [callWithin_succ hfind, Library.sized]
  dsimp only
  rw [callWithin_succ hdisplay]
  rfl

theorem exists_sizes (args : Args) : ∃ sizes, Library.sizes args = .ok sizes := by
  have hyields : Mixin.Yields (fun _ => False) (fun _ => True) (Library.sizes args) :=
    Library.yields_sizes (fun _ _ => trivial) args
  cases hsizes : Library.sizes args with
  | ok sizes => exact ⟨sizes, rfl⟩
  | error e => exact (hyields.of_error hsizes).elim

/-- A mixin of the user is seen by the mixins of the library that reach its name
    and by no others: a call that reaches no name of the user is answered as if
    there were no mixins of the user. Put in the place of `display`, a mixin is
    what `block` begins with; the sizes stay the same. -/
theorem call_sees_overrides (overrides : List (Text × Option Mixin)) (vars : Variables) :
    (∀ name ∈ Library.names,
      (∀ n ∈ Library.reach name, (ofOverrides overrides vars).isUserMixin n = false) →
      ∀ args, (ofOverrides overrides vars).call name args = (ofOverrides [] vars).call name args) ∧
    ∀ f : Mixin, (ofOverrides overrides vars).override? (utf8 "display") = some f →
      (ofOverrides overrides vars).isUserMixin (utf8 "block") = false →
      ∀ args, ∃ sizes : List Node,
        (ofOverrides [] vars).call (utf8 "block") args =
          .ok (.declare (utf8 "display") (Mixin.word "block") :: sizes) ∧
        (ofOverrides overrides vars).call (utf8 "block") args =
          (f ⟨vars, (ofOverrides overrides vars).callWithin (nestingLimit - 2)⟩
            (.positional [Mixin.word "block"])).map (· ++ sizes) := by
  constructor
  · intro name hname huser args
    have hlimit := length_callees_lt name hname
    exact callWithin_congr name hname huser (fun _ _ => rfl) nestingLimit nestingLimit hlimit
      hlimit _
  · intro f hf hblock args
    obtain ⟨sizes, hsizes⟩ := exists_sizes (args.getD .none)
    have hfind : (ofOverrides overrides vars).find? (utf8 "display") = some f := by
      rw [find?, hf]
      rfl
    have hplain : (ofOverrides [] vars).find? (utf8 "display") =
        some (Mixin.property "display") := rfl
    refine ⟨sizes, ?_, ?_⟩
    · have hcall := callWithin_block hplain rfl (nestingLimit - 2) (args.getD .none)
      rw [hsizes] at hcall
      exact hcall
    · have hcall := callWithin_block hfind hblock (nestingLimit - 2) (args.getD .none)
      rw [hsizes] at hcall
      refine Eq.trans hcall ?_
      cases f _ _ with
      | ok shown => rfl
      | error e => rfl

/-- A mixin in the place of `display` and a name without a mixin: `spaced` calls
    `margin` as ever, and `block` begins with what the mixin gives. -/
theorem call_sees_overrides_flex :
    let flex : Mixin := fun _ _ => .ok [.declare (utf8 "display") (Mixin.word "flex")]
    let overrides : List (Text × Option Mixin) :=
      [(utf8 "display", some flex), (utf8 "margin", none)]
    let c := ofOverrides overrides .standard
    utf8 "spaced" ∈ Library.names ∧
      (∀ n ∈ Library.reach (utf8 "spaced"), c.isUserMixin n = false) ∧
      (∀ args, c.call (utf8 "spaced") args =
        (ofOverrides [] .standard).call (utf8 "spaced") args) ∧
      c.override? (utf8 "display") = some flex ∧ c.isUserMixin (utf8 "block") = false ∧
      ∀ args, ∃ sizes : List Node,
        (ofOverrides [] .standard).call (utf8 "block") args =
          .ok (.declare (utf8 "display") (Mixin.word "block") :: sizes) ∧
        c.call (utf8 "block") args =
          .ok (.declare (utf8 "display") (Mixin.word "flex") :: sizes) := by
  intro flex overrides c
  have hname : utf8 "spaced" ∈ Library.names := by decide
  have huser : ∀ n ∈ Library.reach (utf8 "spaced"), c.isUserMixin n = false := by decide
  have hdisplay : c.override? (utf8 "display") = some flex := rfl
  have hblock : c.isUserMixin (utf8 "block") = false := rfl
  obtain ⟨hsame, hseen⟩ := call_sees_overrides overrides .standard
  exact ⟨hname, huser, hsame _ hname huser, hdisplay, hblock, hseen flex hdisplay hblock⟩

end Catalog

end MixinCss
