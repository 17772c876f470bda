/-
  MixinCss.Proofs.Library.Yields

  What the mixins of the library give, and how they fail. A mixin builds its
  nodes out of declarations and of the nodes that other mixins give, so a
  property of nodes that declarations have is kept by all of them, except that
  `clearfix` puts nodes into a rule. A mixin fails where it refuses its
  arguments or where one that it calls fails, and in no other way: a position
  is used only where the list of arguments reaches (`Library.all_keep`).

  Called through a catalog, mixins call each other at most as deep as the
  catalog allows, and a property of nodes is carried through by induction on
  that depth (`Catalog.call_yields`).
-/

import MixinCss.Mixin.Catalog
import MixinCss.Proofs.Outcome

namespace MixinCss

/-- The failures by which a mixin of the library refuses its arguments. -/
def MixinFailure.isRefusal : MixinFailure → Bool
  | .missing _ | .missingValue _ | .tooManyArguments .. | .spanNotNumber _
  | .columnsNotNumber _ | .noColumns | .marginNotNumber _ | .amountNotNumber _
  | .notColor _ => true
  | .unknown _ | .outOfRange .. | .outOfBounds .. | .declared _ | .brokenOff _ | .runaway => false

namespace Mixin

/-! ## Results and failures -/

/-- The computation gives a result with the property `Q` or fails with the
    property `E`. -/
def Meets {α : Type} (E : MixinFailure → Prop) (Q : α → Prop) : Except MixinFailure α → Prop
  | .ok a => Q a
  | .error e => E e

/-- All nodes that the expansion gives have the property `P`, and if it fails,
    the failure has the property `E`. -/
def Yields (E : MixinFailure → Prop) (P : Node → Prop) : Expansion → Prop :=
  Meets E fun nodes => ∀ n ∈ nodes, P n

/-- The mixin gives nodes and failures with the properties, if those that it
    calls do. -/
def Keeps (E : MixinFailure → Prop) (P : Node → Prop) (mixin : Mixin) : Prop :=
  ∀ scope, (∀ name args, Yields E P (scope.call name args)) →
    ∀ args, Yields E P (mixin scope args)

section

variable {α β : Type} {E : MixinFailure → Prop} {Q : α → Prop} {R : β → Prop}

theorem Meets.bind {x : Except MixinFailure α} {f : α → Except MixinFailure β} (hx : Meets E Q x)
    (hf : ∀ a, Q a → Meets E R (f a)) : Meets E R (x >>= f) := by
  cases x with
  | ok a => exact hf a hx
  | error e => exact hx

theorem Meets.of_ok {x : Except MixinFailure α} {a : α} (hx : Meets E Q x) (h : x = .ok a) :
    Q a := by
  rw [h] at hx
  exact hx

theorem Meets.of_error {x : Except MixinFailure α} {e : MixinFailure} (hx : Meets E Q x)
    (h : x = .error e) : E e := by
  rw [h] at hx
  exact hx

theorem meets_mapM {f : α → Except MixinFailure β} {items : List α}
    (h : ∀ a ∈ items, Meets E R (f a)) : Meets E (fun bs => ∀ b ∈ bs, R b) (items.mapM f) := by
  induction items with
  | nil => exact List.forall_mem_nil _
  | cons a items ih =>
    rw [List.forall_mem_cons] at h
    rw [List.mapM_cons]
    refine h.1.bind fun b hb => (ih h.2).bind fun bs hbs => ?_
    exact List.forall_mem_cons.mpr ⟨hb, hbs⟩

/-- A position of the list is there. -/
theorem meets_item {items : List α} {i : Nat} (hi : i < items.length) (hQ : ∀ a, Q a) :
    Meets E Q (item items i) := by
  have hsome : items[i]? = some items[i] := List.getElem?_eq_getElem hi
  rw [item, hsome]
  exact hQ _

theorem itemsFrom_of_le {items : List α} {start : Nat} (h : start ≤ items.length) :
    itemsFrom items start = .ok (items.drop start) := if_pos h

end

/-- An argument that is not given does not count as given. -/
theorem ne_nil_of_isTruthy {rest : List Value} (h : (rest.head?.getD .absent).isTruthy = true) :
    rest ≠ [] := by
  rintro rfl
  exact Bool.false_ne_true h

/-- An argument that is not given is no number. -/
theorem ne_nil_of_number? {rest : List Value} {n : Float}
    (h : (rest.head?.getD .absent).number? = some n) : rest ≠ [] := by
  rintro rfl
  cases h

/-! ## Mixins made of declarations -/

section

variable {E : MixinFailure → Prop} {P : Node → Prop}
  (hrefusal : ∀ e, MixinFailure.isRefusal e = true → E e)
  (hdeclare : ∀ property value, P (.declare property value))

include hrefusal in
theorem meets_atMost (name : String) (most : Nat) (args : Args) :
    Meets E (fun _ => ∀ values, args = .positional values → values.length ≤ most)
      (atMost name most args) := by
  cases args with
  | keywords pairs => exact fun _ h => nomatch h
  | positional values =>
    unfold atMost
    dsimp only
    split
    · exact hrefusal _ rfl
    · rename_i hmost
      intro values' h
      cases h
      exact Nat.not_lt.mp hmost

include hdeclare

theorem yields_declares (name : String) (v : Value) : Yields E P (declares name v) :=
  List.forall_mem_singleton.mpr (hdeclare (utf8 name) v)

theorem forall_mem_declareKeywords (head : String) (plain : List String) (pairs : List Keyword) :
    ∀ n ∈ declareKeywords head plain pairs, P n := by
  intro n hn
  obtain ⟨k, -, rfl⟩ := List.mem_map.mp hn
  exact hdeclare _ _

theorem forall_mem_declareInOrder (properties : List String) (values : List Value) :
    ∀ n ∈ declareInOrder properties values, P n := by
  induction properties generalizing values with
  | nil => simp [declareInOrder]
  | cons p properties ih =>
    cases values with
    | nil => simp [declareInOrder]
    | cons v values =>
      intro n hn
      rcases List.mem_cons.mp hn with rfl | hn
      · exact hdeclare _ _
      · exact ih values n hn

include hrefusal in
theorem property_keeps (name : String) : Keeps E P (property name) := by
  intro scope _ args
  unfold property
  dsimp only
  split
  · exact hrefusal _ rfl
  · exact yields_declares hdeclare _ _

theorem propertyOr_keeps (name fallback : String) : Keeps E P (propertyOr name fallback) :=
  fun _ _ _ => yields_declares hdeclare _ _

theorem constant_keeps (name value : String) : Keeps E P (constant name value) :=
  fun _ _ _ => yields_declares hdeclare _ _

omit hdeclare in
theorem forward_keeps (name : String) (v : Value) : Keeps E P (forward name v) :=
  fun _ hscope _ => hscope _ _

end

end Mixin

end MixinCss

namespace MixinCss.Library

open Mixin

/-! ## The library -/

section

variable {E : MixinFailure → Prop} {P : Node → Prop}
  (hrefusal : ∀ e, MixinFailure.isRefusal e = true → E e)
  (hdeclare : ∀ property value, P (.declare property value))

include hrefusal hdeclare in
theorem offsets_keeps (name : String) : Keeps E P (offsets name) := by
  intro scope _ args
  refine (meets_atMost hrefusal _ _ _).bind fun _ _ => ?_
  refine List.forall_mem_cons.mpr ⟨hdeclare _ _, ?_⟩
  cases args with
  | keywords pairs => exact forall_mem_declareKeywords hdeclare _ _ _
  | positional values => exact forall_mem_declareInOrder hdeclare _ _

include hdeclare in
theorem floatOrOffset_keeps (side : String) : Keeps E P (floatOrOffset side) := by
  intro scope _ args
  unfold floatOrOffset
  dsimp only
  split
  · exact yields_declares hdeclare _ _
  · exact yields_declares hdeclare _ _

include hdeclare in
/-- The second argument is taken only if there is one. -/
theorem yields_sizes (args : Args) : Yields E P (sizes args) := by
  match args with
  | .keywords pairs => exact forall_mem_declareKeywords hdeclare _ _ _
  | .positional [] => exact List.forall_mem_nil _
  | .positional (width :: rest) =>
    unfold sizes
    dsimp only
    split
    · exact List.forall_mem_singleton.mpr (hdeclare _ _)
    · rename_i hheight
      have hrest : rest ≠ [] := ne_nil_of_isTruthy (by simpa using hheight)
      have hpos : 0 < rest.length := List.length_pos_iff.mpr hrest
      have hsecond : 1 < (width :: rest).length := by
        rw [List.length_cons]
        omega
      refine (meets_item (Q := fun _ => True) hsecond fun _ => trivial).bind fun height _ => ?_
      exact List.forall_mem_cons.mpr
        ⟨hdeclare _ _, List.forall_mem_singleton.mpr (hdeclare _ _)⟩

include hdeclare in
theorem sized_keeps (display : String) : Keeps E P (sized display) := by
  intro scope hscope args
  refine (hscope _ _).bind fun shown hshown => ?_
  refine (yields_sizes hdeclare args).bind fun extent hextent => ?_
  exact List.forall_mem_append.mpr ⟨hshown, hextent⟩

theorem centeredBlock_keeps : Keeps E P centeredBlock := by
  intro scope hscope args
  refine (hscope _ _).bind fun block hblock => (hscope _ _).bind fun margins hmargins => ?_
  exact List.forall_mem_append.mpr ⟨hblock, hmargins⟩

include hrefusal hdeclare in
theorem margin_keeps : Keeps E P margin := by
  intro scope _ args
  refine (meets_atMost hrefusal _ _ _).bind fun _ _ => ?_
  match args with
  | .keywords pairs => exact forall_mem_declareKeywords hdeclare _ _ _
  | .positional [] => exact List.forall_mem_nil _
  | .positional [v] => exact yields_declares hdeclare _ _
  | .positional (v :: w :: rest) => exact forall_mem_declareInOrder hdeclare _ _

theorem spaced_keeps : Keeps E P spaced := fun _ hscope _ => hscope _ _

theorem meets_others (values : List Value) : Meets E (fun _ => True) (others values) := by
  unfold others
  split
  · rename_i hmore
    rw [itemsFrom_of_le (Nat.le_of_lt hmore)]
    trivial
  · trivial

include hdeclare in
theorem spacedBlock_keeps : Keeps E P spacedBlock := by
  intro scope hscope args
  refine (hscope _ _).bind fun margins hmargins => ?_
  cases args with
  | keywords pairs =>
    refine (hscope _ _).bind fun block hblock => ?_
    refine List.forall_mem_append.mpr ⟨?_, hblock⟩
    exact List.forall_mem_append.mpr ⟨hmargins, forall_mem_declareKeywords hdeclare _ _ _⟩
  | positional values =>
    refine (meets_others values).bind fun own _ => (hscope _ _).bind fun block hblock => ?_
    exact List.forall_mem_append.mpr ⟨hmargins, hblock⟩

include hrefusal hdeclare in
theorem extent_keeps (width height : String) : Keeps E P (extent width height) := by
  intro scope _ args
  unfold extent
  dsimp only
  split
  · exact hrefusal _ rfl
  · exact List.forall_mem_cons.mpr
      ⟨hdeclare _ _, List.forall_mem_singleton.mpr (hdeclare _ _)⟩

include hdeclare in
theorem forall_mem_floated (width : Value) : ∀ n ∈ floated width, P n :=
  List.forall_mem_cons.mpr ⟨hdeclare _ _, List.forall_mem_singleton.mpr (hdeclare _ _)⟩

include hrefusal in
theorem meets_column_ofArgs (args : Args) : Meets E (fun _ => True) (Column.ofArgs args) := by
  match args with
  | .keywords pairs =>
    unfold Column.ofArgs
    dsimp only
    split
    · exact hrefusal _ rfl
    · trivial
  | .positional [] => trivial
  | .positional (v :: rest) =>
    unfold Column.ofArgs
    dsimp only
    split
    · trivial
    · split
      · split
        · exact hrefusal _ rfl
        · trivial
      · trivial

include hrefusal in
theorem meets_column_width (c : Column) (gridColumns : Float) :
    Meets E (fun _ => True) (c.width gridColumns) := by
  have hshare (total : Float) (width : Value) :
      Meets E (fun _ => True) (if (total == 0.0) = true then .error .noColumns else .ok width) := by
    split
    · exact hrefusal _ rfl
    · trivial
  unfold Column.width
  cases c.span.number? with
  | none => exact hrefusal _ rfl
  | some span =>
    dsimp only
    split
    · exact hshare gridColumns _
    · cases c.columns.number? with
      | none => exact hrefusal _ rfl
      | some total => exact hshare total _

include hrefusal hdeclare in
theorem column_keeps : Keeps E P column := by
  intro scope hscope args
  refine (meets_column_ofArgs hrefusal args).bind fun found _ => ?_
  cases found with
  | inl width => exact forall_mem_floated hdeclare width
  | inr c =>
    refine (meets_column_width hrefusal c _).bind fun width _ => ?_
    cases c.gutter with
    | none => exact forall_mem_floated hdeclare width
    | some gutter =>
      refine (hscope _ _).bind fun left hleft => ?_
      exact List.forall_mem_append.mpr ⟨forall_mem_floated hdeclare width, hleft⟩

include hrefusal in
theorem meets_rowMargin (vars : Variables) (args : Args) :
    Meets E (fun _ => True) (rowMargin vars args) := by
  unfold rowMargin
  dsimp only
  split
  · trivial
  · exact hrefusal _ rfl

include hrefusal hdeclare in
theorem rowModify_keeps : Keeps E P rowModify := by
  intro scope hscope args
  refine (meets_rowMargin hrefusal _ args).bind fun m _ => ?_
  refine (hscope _ _).bind fun left hleft => ?_
  exact List.forall_mem_append.mpr ⟨hleft, List.forall_mem_singleton.mpr (hdeclare _ _)⟩

include hrefusal hdeclare in
theorem row_keeps : Keeps E P row := by
  intro scope hscope args
  refine (rowModify_keeps hrefusal hdeclare scope hscope args).bind fun pulled hpulled => ?_
  refine (hscope _ _).bind fun fix hfix => ?_
  exact List.forall_mem_append.mpr ⟨hpulled, hfix⟩

include hdeclare in
theorem rowReset_keeps : Keeps E P rowReset := by
  intro scope hscope args
  refine (hscope _ _).bind fun left hleft => ?_
  exact List.forall_mem_append.mpr ⟨hleft, List.forall_mem_singleton.mpr (hdeclare _ _)⟩

/-- `clearfix` puts what other mixins give into a rule of its own. -/
theorem clearfix_keeps
    (hrule : ∀ selector children, (∀ n ∈ children, P n) → P (.rule selector children .unknown)) :
    Keeps E P clearfix := by
  intro scope hscope args
  refine (hscope _ _).bind fun clear hclear => (hscope _ _).bind fun content hcontent => ?_
  refine (hscope _ _).bind fun display hdisplay => ?_
  refine List.forall_mem_singleton.mpr (hrule _ _ ?_)
  exact List.forall_mem_append.mpr ⟨List.forall_mem_append.mpr ⟨hclear, hcontent⟩, hdisplay⟩

include hdeclare in
theorem content_keeps : Keeps E P content := fun _ _ _ => yields_declares hdeclare _ _

include hrefusal in
theorem meets_shadeAmount (amount : Value) : Meets E (fun _ => True) (shadeAmount amount) := by
  unfold shadeAmount
  split
  · trivial
  · split
    · trivial
    · exact hrefusal _ rfl

include hrefusal hdeclare in
theorem shade_keeps (transform : Text → Float → Except Color.Refusal Text) :
    Keeps E P (shade transform) := by
  intro scope _ args
  unfold shade
  dsimp only
  split
  · exact hrefusal _ rfl
  · refine (meets_shadeAmount hrefusal _).bind fun amount _ => ?_
    split
    · exact yields_declares hdeclare _ _
    · exact hrefusal _ rfl

include hrefusal in
/-- What is behind the second argument is taken only if that one is a number. -/
theorem meets_backgroundParts (v : Value) (rest : List Value) :
    Meets E (fun _ => True) (backgroundParts v rest) := by
  unfold backgroundParts
  split
  · trivial
  · rename_i opacity hopacity
    split
    · exact hrefusal _ rfl
    · have hsecond : rest ≠ [] := by
        split at hopacity
        · exact ne_nil_of_number? hopacity
        · cases hopacity
      have hpos : 0 < rest.length := List.length_pos_iff.mpr hsecond
      have htwo : 2 ≤ (v :: rest).length := by
        rw [List.length_cons]
        omega
      rw [itemsFrom_of_le htwo]
      trivial

include hrefusal hdeclare in
theorem background_keeps : Keeps E P background := by
  intro scope _ args
  match args with
  | .keywords pairs => exact forall_mem_declareKeywords hdeclare _ _ _
  | .positional [] => exact List.forall_mem_nil _
  | .positional (v :: rest) =>
    unfold background
    dsimp only
    split
    · exact List.forall_mem_nil _
    · refine (meets_backgroundParts hrefusal v rest).bind fun parts _ => ?_
      exact yields_declares hdeclare _ _

include hdeclare in
theorem forall_mem_declareAll (properties : List String) (v : Value) :
    ∀ n ∈ declareAll properties v, P n := by
  intro n hn
  obtain ⟨p, -, rfl⟩ := List.mem_map.mp hn
  exact hdeclare _ _

include hrefusal hdeclare in
theorem border_keeps : Keeps E P border := by
  intro scope _ args
  refine (meets_atMost hrefusal _ _ _).bind fun _ _ => ?_
  match args with
  | .keywords pairs => exact forall_mem_declareKeywords hdeclare _ _ _
  | .positional [] => exact yields_declares hdeclare _ _
  | .positional [v] =>
    dsimp only
    split
    · exact forall_mem_declareAll hdeclare _ _
    · split
      · exact yields_declares hdeclare _ _
      · exact yields_declares hdeclare _ _
  | .positional (side :: v :: rest) =>
    dsimp only
    split
    · exact forall_mem_declareAll hdeclare _ _
    · exact List.forall_mem_singleton.mpr (hdeclare _ _)

include hrefusal hdeclare in
theorem opacity_keeps : Keeps E P opacity := by
  intro scope _ args
  unfold opacity
  dsimp only
  split
  · exact hrefusal _ rfl
  · exact yields_declares hdeclare _ _

include hrefusal hdeclare in
/-- There are no more values than properties, so each value has its own. -/
theorem font_keeps : Keeps E P font := by
  intro scope _ args
  refine (meets_atMost hrefusal _ _ _).bind fun _ hmost => ?_
  cases args with
  | keywords pairs => exact forall_mem_declareKeywords hdeclare _ _ _
  | positional values =>
    refine meets_mapM fun entry hentry => ?_
    -- Values that count as missing are left out, but each keeps its position.
    have hindex : entry.2 < values.length := by
      have hlast := List.snd_lt_of_mem_zipIdx (List.mem_filter.mp hentry).1
      omega
    have hfits : entry.2 < fontKeys.length := Nat.lt_of_lt_of_le hindex (hmost values rfl)
    refine (meets_item (Q := fun _ => True) hfits fun _ => trivial).bind fun property _ => ?_
    exact hdeclare _ _

include hdeclare in
theorem bold_keeps : Keeps E P bold := fun _ _ _ => yields_declares hdeclare _ _

include hrefusal hdeclare

theorem position_keep : ∀ entry ∈ position, Keeps E P entry.2 := by
  simp only [position, List.forall_mem_cons, List.not_mem_nil, false_imp_iff, implies_true,
    and_true]
  exact ⟨offsets_keeps hrefusal hdeclare _, offsets_keeps hrefusal hdeclare _,
    floatOrOffset_keeps hdeclare _, floatOrOffset_keeps hdeclare _⟩

theorem box_keep : ∀ entry ∈ box, Keeps E P entry.2 := by
  simp only [box, List.forall_mem_cons, List.not_mem_nil, false_imp_iff, implies_true, and_true]
  exact ⟨sized_keeps hdeclare _, sized_keeps hdeclare _, centeredBlock_keeps,
    margin_keeps hrefusal hdeclare, spaced_keeps, spacedBlock_keeps hdeclare,
    extent_keeps hrefusal hdeclare _ _, extent_keeps hrefusal hdeclare _ _⟩

theorem columns_keep :
    ∀ entry ∈ columns, entry.1 ≠ "clearfix" → Keeps E P entry.2 := by
  simp only [columns, List.forall_mem_cons, List.not_mem_nil, false_imp_iff, implies_true,
    and_true]
  exact ⟨fun _ => column_keeps hrefusal hdeclare, fun _ => row_keeps hrefusal hdeclare,
    fun _ => rowModify_keeps hrefusal hdeclare, fun _ => rowReset_keeps hdeclare,
    fun _ => propertyOr_keeps hdeclare _ _, fun h => absurd rfl h,
    fun _ => content_keeps hdeclare⟩

theorem appearance_keep : ∀ entry ∈ appearance, Keeps E P entry.2 := by
  simp only [appearance, List.forall_mem_cons, List.not_mem_nil, false_imp_iff, implies_true,
    and_true]
  exact ⟨property_keeps hrefusal hdeclare _, forward_keeps _ _, forward_keeps _ _,
    forward_keeps _ _, property_keeps hrefusal hdeclare _, forward_keeps _ _, forward_keeps _ _,
    property_keeps hrefusal hdeclare _, shade_keeps hrefusal hdeclare _,
    shade_keeps hrefusal hdeclare _, background_keeps hrefusal hdeclare,
    border_keeps hrefusal hdeclare, opacity_keeps hrefusal hdeclare, forward_keeps _ _,
    forward_keeps _ _⟩

theorem typography_keep : ∀ entry ∈ typography, Keeps E P entry.2 := by
  simp only [typography, List.forall_mem_cons, List.not_mem_nil, false_imp_iff, implies_true,
    and_true]
  exact ⟨font_keeps hrefusal hdeclare, bold_keeps hdeclare, constant_keeps hdeclare _ _,
    property_keeps hrefusal hdeclare _, property_keeps hrefusal hdeclare _,
    constant_keeps hdeclare _ _⟩

/-- Every mixin of the library but `clearfix` keeps a property that declarations
    have, and fails as it refuses its arguments or as those fail that it
    calls. -/
theorem all_keep : ∀ entry ∈ all, entry.1 ≠ utf8 "clearfix" → Keeps E P entry.2 := by
  unfold all
  rw [List.forall_mem_map]
  intro entry hentry hname
  have hname' : entry.1 ≠ "clearfix" := fun h => hname (congrArg utf8 h)
  simp only [List.mem_append] at hentry
  rcases hentry with (((hentry | hentry) | hentry) | hentry) | hentry
  · exact position_keep hrefusal hdeclare entry hentry
  · exact box_keep hrefusal hdeclare entry hentry
  · exact columns_keep hrefusal hdeclare entry hentry hname'
  · exact appearance_keep hrefusal hdeclare entry hentry
  · exact typography_keep hrefusal hdeclare entry hentry

/-- Whatever the library has under a name keeps a property that rules have
    besides, if what they hold has it. -/
theorem keeps_of_lookup
    (hrule : ∀ selector children, (∀ n ∈ children, P n) → P (.rule selector children .unknown))
    {name : Text} {mixin : Mixin} (hlookup : all.lookup name = some mixin) : Keeps E P mixin := by
  obtain ⟨front, back, hall, -⟩ := List.lookup_eq_some_iff.mp hlookup
  have hmem : (name, mixin) ∈ all := by simp [hall]
  by_cases hname : name = utf8 "clearfix"
  · subst hname
    cases hlookup
    exact clearfix_keeps hrule
  · exact all_keep hrefusal hdeclare _ hmem hname

end

end MixinCss.Library

namespace MixinCss.Catalog

open Mixin

variable {P : Node → Prop}

/-- Calls give nodes with a property that all mixins of the catalog keep. The
    induction is on how deep mixins may call each other. -/
theorem call_yields {c : Catalog}
    (h : ∀ name mixin, c.find? name = some mixin → Keeps (fun _ => True) P mixin) (name : Text)
    (args : Option Args) : Yields (fun _ => True) P (c.call name args) := by
  have hwithin (fuel : Nat) (name : Text) (args : Args) :
      Yields (fun _ => True) P (c.callWithin fuel name args) := by
    induction fuel generalizing name args with
    | zero => trivial
    | succ fuel ih =>
      rw [callWithin]
      split
      · trivial
      · rename_i mixin hfind
        exact h name mixin hfind _ ih args
  exact hwithin _ _ _

/-- The same for the library alone, with any settings. -/
theorem library_call_yields (hdeclare : ∀ property value, P (.declare property value))
    (hrule : ∀ selector children, (∀ n ∈ children, P n) → P (.rule selector children .unknown))
    (vars : Variables) (name : Text) (args : Option Args) :
    Yields (fun _ => True) P ((Catalog.ofOverrides [] vars).call name args) := by
  refine call_yields (fun name mixin hfind => ?_) name args
  have hlookup : Library.all.lookup name = some mixin := hfind
  exact Library.keeps_of_lookup (fun _ _ => trivial) hdeclare hrule hlookup

end MixinCss.Catalog
