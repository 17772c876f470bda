/-
  MixinCss.Proofs.Files.Place

  The places that paths lead to. A path goes up from the working directory and
  then down along names, so what it passes on its way holds its place or holds
  the working directory (`Path.above_or_isPrefix_of_mem_chain`). Its place is
  what it spells behind the working directory (`Path.place_ofText`): two texts
  lead to one place if they spell the same rooted path.
-/

import MixinCss.Proofs.Files.Below

namespace MixinCss

open MixinCss.Path (IsName IsStep)

namespace Place

/-- The place that names lead to. -/
def extend (place : Place) (names : List Text) : Place := ⟨place.names ++ names⟩

/-- All steps to a place are names. -/
def IsNormal (place : Place) : Prop := ∀ s ∈ place.names, IsName s

instance (place : Place) : Decidable place.IsNormal :=
  inferInstanceAs (Decidable (∀ s ∈ place.names, IsName s))

/-- A directory on the way to a place, other than the place itself. -/
structure Above (q p : Place) : Prop where
  leads : q.names <+: p.names
  shorter : q.names.length < p.names.length

instance (q p : Place) : Decidable (q.Above p) :=
  decidable_of_iff (q.names <+: p.names ∧ q.names.length < p.names.length)
    ⟨fun h => ⟨h.1, h.2⟩, fun h => ⟨h.leads, h.shorter⟩⟩

/-- `q` is something at any depth in the directory `p`. -/
def IsBelow (q p : Place) : Prop :=
  ∃ names, names ≠ [] ∧ (∀ s ∈ names, IsName s) ∧ q = p.extend names

variable {p q r : Place}

theorem Above.ne (h : q.Above p) : q ≠ p := by
  rintro rfl
  exact Nat.lt_irrefl _ h.shorter

theorem above_extend (p : Place) {names : List Text} (hne : names ≠ []) :
    p.Above (p.extend names) := by
  refine ⟨List.prefix_append _ _, ?_⟩
  have hpos := List.length_pos_iff.mpr hne
  show p.names.length < (p.names ++ names).length
  rw [List.length_append]
  omega

/-- What holds a place below `p` is below `p` too, or is `p` or above it. -/
theorem Above.isBelow_or (h : q.Above r) (hr : r.IsBelow p) :
    q.IsBelow p ∨ q = p ∨ q.Above p := by
  obtain ⟨names, -, hnames, rfl⟩ := hr
  obtain ⟨⟨tail, htail⟩, -⟩ := h
  change q.names ++ tail = p.names ++ names at htail
  rcases List.append_eq_append_iff.mp htail with ⟨more, hp, -⟩ | ⟨front, hq, hsplit⟩
  · -- `p` is where `q` leads, or further down.
    have hplace : p = q.extend more := congrArg Place.mk hp
    by_cases hmore : more = []
    · rw [hplace, hmore, extend, List.append_nil]
      exact .inr (.inl rfl)
    · rw [hplace]
      exact .inr (.inr (above_extend q hmore))
  · have hplace : q = p.extend front := congrArg Place.mk hq
    by_cases hfront : front = []
    · rw [hplace, hfront, extend, List.append_nil]
      exact .inr (.inl rfl)
    · rw [hsplit, List.forall_mem_append] at hnames
      exact .inl ⟨front, hfront, hnames.1, hplace⟩

/-! ## Steps -/

theorem step_up (place : Place) : place.step Path.up = place.parent := if_pos rfl

theorem step_name {s : Text} (hs : s ≠ Path.up) (place : Place) :
    place.step s = place.extend [s] := if_neg hs

theorem foldl_step_names {names : List Text} (h : Path.up ∉ names) (place : Place) :
    names.foldl step place = place.extend names := by
  induction names generalizing place with
  | nil => exact congrArg Place.mk (List.append_nil _).symm
  | cons s names ih =>
    rw [List.mem_cons, not_or] at h
    rw [List.foldl_cons, step_name (Ne.symm h.1), ih h.2, extend, extend, extend,
      List.append_assoc]
    rfl

/-- Steps up lead to directories that hold the place. -/
theorem foldl_step_ups {steps : List Text} (h : ∀ s ∈ steps, s = Path.up) (place : Place) :
    (steps.foldl step place).names <+: place.names := by
  induction steps generalizing place with
  | nil => exact List.prefix_refl _
  | cons s steps ih =>
    obtain ⟨hs, hrest⟩ := List.forall_mem_cons.mp h
    rw [List.foldl_cons, hs, step_up]
    exact (ih hrest place.parent).trans (List.dropLast_prefix _)

theorem IsNormal.step {place : Place} (h : place.IsNormal) {s : Text}
    (hs : s = Path.up ∨ IsName s) : (place.step s).IsNormal := by
  by_cases hup : s = Path.up
  · rw [hup, step_up]
    exact fun a ha => h a ((List.dropLast_sublist _).subset ha)
  · rw [step_name hup]
    exact List.forall_mem_append.mpr
      ⟨h, List.forall_mem_singleton.mpr (hs.resolve_left hup)⟩

theorem IsNormal.foldl_step {place : Place} (h : place.IsNormal) {steps : List Text}
    (hsteps : ∀ s ∈ steps, s = Path.up ∨ IsName s) : (steps.foldl Place.step place).IsNormal := by
  induction steps generalizing place with
  | nil => exact h
  | cons s steps ih =>
    obtain ⟨hs, hrest⟩ := List.forall_mem_cons.mp hsteps
    exact ih (h.step hs) hrest

end Place

namespace Path

variable {p q : Path} {home : Place}

/-! ## Places of paths -/

theorem place_extend (p : Path) {names : List Text} (h : ∀ s ∈ names, IsName s) (home : Place) :
    (p.extend names).place home = (p.place home).extend names := by
  have hup : up ∉ names := fun hmem => (h up hmem).notUp rfl
  unfold place extend
  rw [List.foldl_append, Place.foldl_step_names hup]

theorem IsBelow.place (h : q.IsBelow p) (home : Place) :
    (q.place home).IsBelow (p.place home) := by
  obtain ⟨names, hne, hnames, rfl⟩ := h
  exact ⟨names, hne, hnames, place_extend p hnames home⟩

theorem Normal.place (h : p.Normal) (hhome : home.IsNormal) : (p.place home).IsNormal := by
  have hstart : (if p.rooted then Place.root else home).IsNormal := by
    split
    · exact List.forall_mem_nil _
    · exact hhome
  refine hstart.foldl_step fun s hs => ?_
  obtain ⟨hstep, hne, hhere⟩ := h.plain s hs
  by_cases hup : s = up
  · exact .inl hup
  · exact .inr ⟨hstep, hne, hhere, hup⟩

/-- What a path passes on its way holds its place, or the working directory if
    there are still steps up to come. -/
theorem above_or_isPrefix_of_mem_chain (hp : p.Normal) (hq : q ∈ p.parent.chain) (home : Place) :
    (q.place home).Above (p.place home) ∨ (q.place home).names <+: home.names := by
  obtain ⟨rest, hrest, hrooted, hsegments⟩ := exists_of_mem_chain_parent hq
  by_cases hup : up ∈ rest
  · -- All that stands in front of a step up is one too.
    have hfalse : p.rooted = false := by
      refine Bool.eq_false_iff.mpr fun htrue => hp.down htrue ?_
      rw [hsegments]
      exact List.mem_append_right _ hup
    have hups : ∀ s ∈ q.segments, s = up := by
      intro s hs
      have hpairs := hp.ups
      rw [hsegments] at hpairs
      exact (List.pairwise_append.mp hpairs).2.2 s hs up hup rfl
    refine .inr ?_
    rw [place, hrooted, hfalse]
    exact Place.foldl_step_ups hups home
  · refine .inl ?_
    have hplace : p.place home = (q.place home).extend rest := by
      rw [place, place, hsegments, List.foldl_append, Place.foldl_step_names hup, hrooted]
    rw [hplace]
    exact Place.above_extend _ hrest

/-! ## Rooted spellings -/

/-- Walking from the working directory and then resolving is walking from the
    root. The induction carries the path walked so far, `walked`, beside the
    place it leads to. -/
theorem foldl_walk_place (hhome : home.IsNormal) {steps : List Text}
    (hsteps : ∀ s ∈ steps, IsStep s) (walked : List Text)
    (hwalked : ∀ s ∈ walked, s = up ∨ IsName s) :
    steps.foldl (walk true) (walked.reverse.foldl Place.step home).names.reverse =
      ((steps.foldl (walk false) walked).reverse.foldl Place.step home).names.reverse := by
  induction steps generalizing walked with
  | nil => rfl
  | cons s steps ih =>
    obtain ⟨hs, hrest⟩ := List.forall_mem_cons.mp hsteps
    suffices hstep : walk true (walked.reverse.foldl Place.step home).names.reverse s =
          ((walk false walked s).reverse.foldl Place.step home).names.reverse ∧
        ∀ a ∈ walk false walked s, a = up ∨ IsName a by
      rw [List.foldl_cons, List.foldl_cons, hstep.1]
      exact ih hrest _ hstep.2
    have hnormal : (walked.reverse.foldl Place.step home).IsNormal :=
      hhome.foldl_step fun a ha => hwalked a (List.mem_reverse.mp ha)
    by_cases hnil : s = []
    · subst hnil
      exact ⟨rfl, hwalked⟩
    by_cases hdot : s = utf8 "."
    · subst hdot
      exact ⟨rfl, hwalked⟩
    by_cases hup : s = up
    · subst hup
      -- The last name of the place goes, whether it comes from the working
      -- directory or from the path.
      have hparent : ∀ place : Place, place.IsNormal →
          walk true place.names.reverse up = place.parent.names.reverse := by
        intro place hplace
        show _ = place.names.dropLast.reverse
        rw [← List.tail_reverse]
        cases hnames : place.names.reverse with
        | nil => rfl
        | cons last front =>
          have hmem : last ∈ place.names := List.mem_reverse.mp (hnames ▸ List.mem_cons_self)
          rw [walk_up_name (hplace last hmem).notUp]
          rfl
      rw [hparent _ hnormal]
      cases walked with
      | nil =>
        refine ⟨?_, List.forall_mem_singleton.mpr (.inl rfl)⟩
        rw [walk_up_nil, if_neg Bool.false_ne_true]
        rfl
      | cons last front =>
        by_cases hlast : last = up
        · subst hlast
          refine ⟨?_, List.forall_mem_cons.mpr ⟨.inl rfl, hwalked⟩⟩
          have hback : (up :: up :: front).reverse = (up :: front).reverse ++ [up] :=
            List.reverse_cons
          rw [walk_up_up, hback, List.foldl_append]
          rfl
        · rw [walk_up_name hlast]
          refine ⟨?_, (List.forall_mem_cons.mp hwalked).2⟩
          rw [List.reverse_cons, List.foldl_append, List.foldl_cons, List.foldl_nil,
            Place.step_name hlast]
          exact congrArg List.reverse (List.dropLast_concat)
    · rw [walk_name hnil hdot hup, walk_name hnil hdot hup]
      refine ⟨?_, List.forall_mem_cons.mpr ⟨.inr ⟨hs, hnil, hdot, hup⟩, hwalked⟩⟩
      rw [List.reverse_cons, List.foldl_append, List.foldl_cons, List.foldl_nil,
        Place.step_name hup]
      exact List.reverse_concat.symm

/-- The place of a text is the rooted path that it spells, behind the text of
    the working directory if it is not rooted itself. -/
theorem place_ofText (hhome : home.IsNormal) (path : Text) :
    (⟨true, ((ofText path).place home).names⟩ : Path) =
      ofText (if path.startsWith [ascii '/'] then path
        else text ⟨true, home.names⟩ ++ ascii '/' :: path) := by
  have hnormal := normal_ofText path
  have hrooted : (ofText path).rooted = path.startsWith [ascii '/'] := rfl
  cases hslash : path.startsWith [ascii '/'] with
  | true =>
    rw [hslash] at hrooted
    have hplace : (ofText path).place home = ⟨(ofText path).segments⟩ := by
      rw [place, hrooted, if_pos rfl, Place.foldl_step_names (hnormal.down hrooted)]
      rfl
    rw [hplace, if_pos rfl, ← hrooted]
  | false =>
    rw [hslash] at hrooted
    have hrootedHome : Normal ⟨true, home.names⟩ := Normal.nil.extend hhome
    have hspelled : ofText (text ⟨true, home.names⟩) = ⟨true, home.names⟩ :=
      hrootedHome.text_spells.1
    have htext : text ⟨true, home.names⟩ ≠ [] := List.cons_ne_nil _ _
    have hsteps : ∀ s ∈ Text.split (ascii '/') path, IsStep s :=
      fun s hs => Text.not_mem_of_mem_split hs
    have hwalk := foldl_walk_place hhome hsteps [] (List.forall_mem_nil _)
    rw [if_neg Bool.false_ne_true, ofText_append htext, hspelled]
    have hplace : (ofText path).place home =
        ((Text.split (ascii '/') path).foldl (walk false) []).reverse.foldl Place.step home := by
      rw [place, hrooted, ofText, hslash]
      rfl
    rw [hplace]
    refine congrArg (Path.mk true) ?_
    rw [← List.reverse_reverse (List.foldl Place.step home _).names, ← hwalk]
    rfl

end Path

end MixinCss
