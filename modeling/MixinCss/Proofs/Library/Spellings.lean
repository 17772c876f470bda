/-
  MixinCss.Proofs.Library.Spellings

  Calls by position against calls by keyword. A mixin that picks its arguments
  one by one cannot tell the two apart. A mixin that declares what it is given
  goes through the values in its own order in one case and through the keywords
  of the call in the other, and the names of the keywords are made into the same
  properties. So both spellings of a call are answered alike, by the same nodes or
  the same refusal (`positional_agrees_with_keywords`).
-/

import MixinCss.Proofs.Grammar.ArgumentWords
import MixinCss.Proofs.Library.Flat

namespace MixinCss

/-! ## Two spellings of a call -/

/-- Values with the keys that name them. -/
def Args.named (keys : List String) (values : List Value) : List Keyword :=
  List.zipWith (fun key v => ⟨utf8 key, v⟩) keys values

/-- The call with the values by position and the call with the keywords have the
    same answer: the same nodes, or the same refusal of the arguments. -/
def Catalog.Agree (c : Catalog) (name : Text) (values : List Value) (pairs : List Keyword) : Prop :=
  (∃ nodes, c.call name (some (.positional values)) = .ok nodes ∧
    c.call name (some (.keywords pairs)) = .ok nodes) ∨
  ∃ e, MixinFailure.isRefusal e = true ∧ c.call name (some (.positional values)) = .error e ∧
    c.call name (some (.keywords pairs)) = .error e

namespace Library

open Mixin

/-- What is the same on both sides is an answer, so it agrees. -/
theorem agree_of_eq {vars : Variables} {name : Text} {values : List Value} {pairs : List Keyword}
    {mixin : Mixin} (hlookup : all.lookup name = some mixin)
    (h : ∀ scope, mixin scope (.positional values) = mixin scope (.keywords pairs)) :
    (Catalog.ofOverrides [] vars).Agree name values pairs := by
  have hname : name ∈ names := by
    obtain ⟨front, back, hall, -⟩ := List.lookup_eq_some_iff.mp hlookup
    exact List.mem_map.mpr ⟨(name, mixin), by simp [hall], rfl⟩
  have hsame : (Catalog.ofOverrides [] vars).call name (some (.keywords pairs)) =
      (Catalog.ofOverrides [] vars).call name (some (.positional values)) := by
    rw [Catalog.call_builtin vars hlookup, Catalog.call_builtin vars hlookup, h]
  have hanswers := @Catalog.call_answers [] vars (fun _ => rfl) name hname
    (some (.positional values))
  rw [Catalog.Agree, hsame]
  cases hcall : (Catalog.ofOverrides [] vars).call name (some (.positional values)) with
  | ok nodes => exact .inl ⟨nodes, rfl, rfl⟩
  | error e => exact .inr ⟨e, Meets.of_error hanswers hcall, rfl, rfl⟩

/-! ## Arguments that are picked -/

theorem find?_named {keys : List String} (hkeys : (keys.map utf8).Nodup) (values : List Value)
    {i : Nat} {key : String} (hkey : keys[i]? = some key) :
    Args.find? (Args.named keys values) (utf8 key) = values[i]? := by
  induction keys generalizing values i with
  | nil => cases hkey
  | cons first keys ih =>
    rw [List.map_cons, List.nodup_cons] at hkeys
    cases values with
    | nil => rfl
    | cons v values =>
      cases i with
      | zero =>
        obtain rfl : first = key := Option.some.inj hkey
        simp [Args.find?, Args.named]
      | succ i =>
        -- The key stands further behind, so the first one is another.
        have hne : utf8 first ≠ utf8 key := by
          intro heq
          exact hkeys.1 (heq ▸ List.mem_map_of_mem (List.mem_of_getElem? hkey))
        have htail := ih hkeys.2 values hkey
        rw [Args.find?] at htail ⊢
        rw [Args.named, List.zipWith_cons_cons, List.find?_cons_of_neg (by simpa using hne)]
        exact htail

/-- The mixin uses its arguments only by picking those of the keys, each at its
    own position. -/
def Picks (keys : List String) (mixin : Mixin) : Prop :=
  ∀ scope args args', (∀ i key, keys[i]? = some key →
    Args.pick args i (utf8 key) = Args.pick args' i (utf8 key)) →
    mixin scope args = mixin scope args'

theorem property_picks (name : String) : Picks ["value"] (property name) := by
  intro scope args args' h
  rw [property, property, h 0 "value" rfl]

theorem propertyOr_picks (name fallback : String) : Picks ["value"] (propertyOr name fallback) := by
  intro scope args args' h
  rw [propertyOr, propertyOr, h 0 "value" rfl]

theorem floatOrOffset_picks (side : String) : Picks ["value"] (floatOrOffset side) := by
  intro scope args args' h
  rw [floatOrOffset, floatOrOffset, h 0 "value" rfl]

theorem opacity_picks : Picks ["value"] opacity := by
  intro scope args args' h
  rw [opacity, opacity, h 0 "value" rfl]

theorem extent_picks (width height : String) : Picks ["width", "height"] (extent width height) := by
  intro scope args args' h
  rw [extent, extent, h 0 "width" rfl, h 1 "height" rfl]

theorem shade_picks (transform : Text → Float → Except Color.Refusal Text) :
    Picks ["color", "amount"] (shade transform) := by
  intro scope args args' h
  rw [shade, shade, h 0 "color" rfl, h 1 "amount" rfl]

theorem rowModify_picks : Picks ["margin"] rowModify := by
  intro scope args args' h
  have hmargin : rowMargin scope.vars args = rowMargin scope.vars args' := by
    unfold rowMargin
    rw [h 0 "margin" rfl]
  rw [rowModify, rowModify, hmargin]

theorem row_picks : Picks ["margin"] row := by
  intro scope args args' h
  rw [row, row, rowModify_picks scope args args' h]

/-- The mixins that pick their arguments, with the keys in the order of the
    positions. -/
def pickedKeys : List (String × List String) := [
  ("size", ["width", "height"]),
  ("minSize", ["width", "height"]),
  ("lighten", ["color", "amount"]),
  ("darken", ["color", "amount"]),
  ("display", ["value"]),
  ("visibility", ["value"]),
  ("align", ["value"]),
  ("vAlign", ["value"]),
  ("color", ["value"]),
  ("clear", ["value"]),
  ("left", ["value"]),
  ("right", ["value"]),
  ("opacity", ["value"]),
  ("row", ["margin"]),
  ("rowModify", ["margin"])]

theorem pickedKeys_nodup : ∀ entry ∈ pickedKeys, (entry.2.map utf8).Nodup := by
  decide

theorem exists_picks : ∀ entry ∈ pickedKeys,
    ∃ mixin, all.lookup (utf8 entry.1) = some mixin ∧ Picks entry.2 mixin := by
  simp only [pickedKeys, List.forall_mem_cons, List.not_mem_nil, false_imp_iff, implies_true,
    and_true]
  exact ⟨⟨_, rfl, extent_picks _ _⟩, ⟨_, rfl, extent_picks _ _⟩, ⟨_, rfl, shade_picks _⟩,
    ⟨_, rfl, shade_picks _⟩, ⟨_, rfl, property_picks _⟩, ⟨_, rfl, property_picks _⟩,
    ⟨_, rfl, property_picks _⟩, ⟨_, rfl, property_picks _⟩, ⟨_, rfl, property_picks _⟩,
    ⟨_, rfl, propertyOr_picks _ _⟩, ⟨_, rfl, floatOrOffset_picks _⟩,
    ⟨_, rfl, floatOrOffset_picks _⟩, ⟨_, rfl, opacity_picks⟩, ⟨_, rfl, row_picks⟩,
    ⟨_, rfl, rowModify_picks⟩⟩

theorem pickedKeys_agree (vars : Variables) : ∀ entry ∈ pickedKeys, ∀ values,
    (Catalog.ofOverrides [] vars).Agree (utf8 entry.1) values (Args.named entry.2 values) := by
  intro entry hentry values
  obtain ⟨mixin, hlookup, hpicks⟩ := exists_picks entry hentry
  refine agree_of_eq hlookup fun scope => hpicks scope _ _ fun i key hkey => ?_
  show values[i]?.getD .absent = (Args.find? _ _).getD .absent
  rw [find?_named (pickedKeys_nodup entry hentry) values hkey]

/-! ## Arguments that are declared -/

/-- The properties that keywords are made into. -/
def propertiesOf (head : String) (plain keys : List String) : List Text :=
  keys.map fun key => Text.underHead (utf8 head) (plain.map utf8) (utf8 key)

/-- The keys of the properties of a font, in the order of the positions. -/
def fontArguments : List String := ["family", "size", "weight", "lineHeight", "style"]

theorem propertiesOf_keys :
    propertiesOf "" [] offsetKeys = offsetKeys.map utf8 ∧
      propertiesOf "margin" [] offsetKeys = marginKeys.map utf8 ∧
      propertiesOf "font" ["lineHeight", "line-height"] fontArguments = fontKeys.map utf8 := by
  decide +kernel

/-- Keywords that are made into the properties of the positions are declared as
    the values are. -/
theorem declareKeywords_named {head : String} {plain keys properties : List String}
    (hkeys : propertiesOf head plain keys = properties.map utf8) (values : List Value) :
    declareKeywords head plain (Args.named keys values) = declareInOrder properties values := by
  induction keys generalizing properties values with
  | nil =>
    obtain rfl := List.map_eq_nil_iff.mp hkeys.symm
    rfl
  | cons key keys ih =>
    obtain ⟨property, properties, rfl, hfirst, hrest⟩ := List.map_eq_cons_iff.mp hkeys.symm
    cases values with
    | nil => rfl
    | cons v values =>
      have hnode : Node.declare (Text.underHead (utf8 head) (plain.map utf8) (utf8 key)) v =
          Node.declare (utf8 property) v := congrArg (Node.declare · v) hfirst.symm
      exact congr (congrArg List.cons hnode) (ih hrest.symm values)

theorem offsets_named (position : String) (scope : Scope) {values : List Value}
    (h : values.length ≤ 4) :
    offsets position scope (.positional values) =
      offsets position scope (.keywords (Args.named offsetKeys values)) := by
  have hfits : atMost position offsetKeys.length (.positional values) = .ok () :=
    if_neg (Nat.not_lt.mpr h)
  rw [offsets, offsets, hfits]
  dsimp only
  rw [declareKeywords_named propertiesOf_keys.1]
  rfl

theorem margin_named (scope : Scope) {values : List Value} (hleast : 2 ≤ values.length)
    (hmost : values.length ≤ 4) :
    margin scope (.positional values) =
      margin scope (.keywords (Args.named offsetKeys values)) := by
  have hfits : atMost "margin" marginKeys.length (.positional values) = .ok () :=
    if_neg (Nat.not_lt.mpr hmost)
  cases values with
  | nil => cases hleast
  | cons v values =>
    cases values with
    | nil => exact absurd hleast (Nat.not_succ_le_self 1)
    | cons w values =>
      -- Two values or more are neither the empty call nor the one for all sides.
      rw [margin, margin, hfits, declareKeywords_named propertiesOf_keys.2.1]
      · rfl
      · exact fun h => by cases h
      · exact fun _ h => by cases h

theorem fontValue_of_ne {property : String} (h : property ≠ "font-family") (v : Value) :
    fontValue property v = v := by
  cases v with
  | list parts => exact if_neg h
  | _ => rfl

theorem fontValue_of_kind (property : String) {v : Value} (h : v.kind ≠ .list) :
    fontValue property v = v := by
  cases v with
  | list parts => exact absurd rfl h
  | _ => rfl

theorem font_named (scope : Scope) {f s w l st : Value}
    (htruthy : ∀ v ∈ [f, s, w, l, st], v.isTruthy = true) (hf : f.kind ≠ .list) :
    font scope (.positional [f, s, w, l, st]) =
      font scope (.keywords (Args.named fontArguments [f, s, w, l, st])) := by
  have hfilter : [f, s, w, l, st].zipIdx.filter (fun entry => entry.1.isTruthy) =
      [(f, 0), (s, 1), (w, 2), (l, 3), (st, 4)] := by
    refine List.filter_eq_self.mpr fun entry hentry => htruthy _ ?_
    exact List.fst_mem_of_mem_zipIdx hentry
  calc font scope (.positional [f, s, w, l, st])
      = .ok (declareInOrder fontKeys [fontValue "font-family" f, fontValue "font-size" s,
          fontValue "font-weight" w, fontValue "line-height" l, fontValue "font-style" st]) := by
        rw [font]
        dsimp only
        rw [hfilter]
        rfl
    _ = .ok (declareInOrder fontKeys [f, s, w, l, st]) := by
        rw [fontValue_of_kind _ hf, fontValue_of_ne (by decide), fontValue_of_ne (by decide),
          fontValue_of_ne (by decide), fontValue_of_ne (by decide)]
    _ = font scope (.keywords (Args.named fontArguments [f, s, w, l, st])) := by
        rw [font, declareKeywords_named propertiesOf_keys.2.2]
        rfl

/-! ## Columns -/

/-- Of a call of `column` only the column that is asked for matters. -/
theorem column_congr (scope : Scope) {args args' : Args}
    (h : Column.ofArgs args = Column.ofArgs args') : column scope args = column scope args' := by
  rw [column, column, h]

theorem ofArgs_spaced {flag : Value} (hflag : flag.isTruthy = true)
    (hfalse : flag.text ≠ utf8 "false") (span columns margin : Value) :
    Column.ofArgs (.positional [word "spaced", span, columns, margin]) =
      Column.ofArgs (.keywords (Args.named ["spaced", "span", "columns", "margin"]
        [flag, span, columns, margin])) := by
  have hspaced : (flag.isTruthy && flag.text != utf8 "false") = true := by
    rw [hflag, bne_iff_ne.mpr hfalse]
    rfl
  have hkeywords : Column.ofArgs (.keywords (Args.named ["spaced", "span", "columns", "margin"]
      [flag, span, columns, margin])) =
      if span.isAbsent then .error (.missing (utf8 "column span"))
      else .ok (.inr ⟨span, columns,
        if flag.isTruthy && flag.text != utf8 "false" then some margin else none⟩) := rfl
  rw [hkeywords, hspaced, if_pos rfl]
  rfl

theorem ofArgs_plain {span : Value} (hgiven : span.isAbsent = false)
    (hpercent : span.isPercentage = false) (hword : span.text ≠ utf8 "spaced") (columns : Value) :
    Column.ofArgs (.positional [span, columns]) =
      Column.ofArgs (.keywords (Args.named ["span", "columns"] [span, columns])) := by
  have hkeywords : Column.ofArgs (.keywords (Args.named ["span", "columns"] [span, columns])) =
      if span.isAbsent then .error (.missing (utf8 "column span"))
      else .ok (.inr ⟨span, columns, none⟩) := rfl
  rw [hkeywords, hgiven, if_neg Bool.false_ne_true, Column.ofArgs]
  dsimp only
  rw [hpercent, if_neg Bool.false_ne_true, if_neg hword]
  rfl

end Library

open Library Mixin

/-- A call by position and the call that names the same values agree. This holds
    for the mixins that pick their arguments; for up to four offsets, and for two to
    four margins, in the order top, right, left, bottom; for the five properties of a
    font that all count as given, the family being no group; for a spaced column,
    whatever flag says that it is spaced; and for a column with its span and the
    number of columns, if the span is neither missing nor a whole percentage nor the
    word `spaced`. An argument in a source that reads `spaced` is that word. -/
theorem positional_agrees_with_keywords (vars : Variables) :
    let c := Catalog.ofOverrides [] vars
    (∀ entry ∈ pickedKeys, ∀ values,
      c.Agree (utf8 entry.1) values (Args.named entry.2 values)) ∧
    (∀ name ∈ ["absolute", "fixed"], ∀ values, values.length ≤ 4 →
      c.Agree (utf8 name) values (Args.named ["top", "right", "left", "bottom"] values)) ∧
    (∀ values, 2 ≤ values.length → values.length ≤ 4 →
      c.Agree (utf8 "margin") values (Args.named ["top", "right", "left", "bottom"] values)) ∧
    (∀ f s w l st, (∀ v ∈ [f, s, w, l, st], v.isTruthy = true) → f.kind ≠ .list →
      c.Agree (utf8 "font") [f, s, w, l, st] (Args.named fontArguments [f, s, w, l, st])) ∧
    (∀ t s n g, t.isTruthy = true → t.text ≠ utf8 "false" →
      c.Agree (utf8 "column") [word "spaced", s, n, g]
        (Args.named ["spaced", "span", "columns", "margin"] [t, s, n, g])) ∧
    (∀ s n, s.isAbsent = false → s.isPercentage = false → s.text ≠ utf8 "spaced" →
      c.Agree (utf8 "column") [s, n] (Args.named ["span", "columns"] [s, n])) ∧
    ∀ src sheet, parse src = .ok sheet → ∀ name values pos,
      Node.call name (some (.positional values)) pos ∈ Sheet.members sheet →
      ∀ v ∈ values, v.text = utf8 "spaced" → v = word "spaced" := by
  refine ⟨pickedKeys_agree vars, ?_, ?_, ?_, ?_, ?_, ?_⟩
  · intro name hname values hmost
    simp only [List.mem_cons, List.not_mem_nil, or_false] at hname
    rcases hname with rfl | rfl
    · exact agree_of_eq rfl fun scope => offsets_named "absolute" scope hmost
    · exact agree_of_eq rfl fun scope => offsets_named "fixed" scope hmost
  · intro values hleast hmost
    exact agree_of_eq rfl fun scope => margin_named scope hleast hmost
  · intro f s w l st htruthy hf
    exact agree_of_eq rfl fun scope => font_named scope htruthy hf
  · intro t s n g ht hfalse
    exact agree_of_eq rfl fun scope => column_congr scope (ofArgs_spaced ht hfalse s n g)
  · intro s n hgiven hpercent hword
    exact agree_of_eq rfl fun scope => column_congr scope (ofArgs_plain hgiven hpercent hword n)
  · intro src sheet hparse name values pos hn v hv htext
    have hspaced : utf8 "spaced" = ascii 's' :: utf8 "paced" := by decide
    rw [hspaced] at htext
    rw [word, hspaced]
    exact parse_argument_word hparse hn hv htext (by decide) (by decide)

/-- A font with all its properties, and three of twelve columns. -/
theorem positional_agrees_with_keywords_font_and_column :
    let c := Catalog.ofOverrides [] .standard
    let font := [word "serif", word "2em", word "bold", word "1.5", word "italic"]
    let span := Value.ofNumber 3.0
    (∀ v ∈ font, v.isTruthy = true) ∧ (word "serif").kind ≠ .list ∧
      c.Agree (utf8 "font") font (Args.named fontArguments font) ∧
      span.isAbsent = false ∧ span.isPercentage = false ∧ span.text ≠ utf8 "spaced" ∧
      c.Agree (utf8 "column") [span, word "12"]
        (Args.named ["span", "columns"] [span, word "12"]) := by
  intro c font span
  have htruthy : ∀ v ∈ font, v.isTruthy = true := by decide +kernel
  have hspan : span.isPercentage = false ∧ span.text ≠ utf8 "spaced" := by decide +kernel
  obtain ⟨-, -, -, hfont, -, hcolumn, -⟩ := positional_agrees_with_keywords .standard
  exact ⟨htruthy, by decide, hfont _ _ _ _ _ htruthy (by decide), rfl, hspan.1, hspan.2,
    hcolumn span (word "12") rfl hspan.1 hspan.2⟩

end MixinCss
