/-
  MixinCss.Proofs.Files.Below

  Paths below a directory: those that are reached from it by names alone, where
  neither `.` nor `..` is a name. A pattern or a way without `..` stays below the
  directory it is joined to (`exists_ofText_join`), and the way from a directory
  to what is below it is made of names (`relativeTo_eq`).
-/

import MixinCss.Proofs.Files.Path
import MixinCss.Proofs.Text.Joined

namespace MixinCss

namespace Text

theorem split_join {sep : UInt8} {parts : List Text} (hne : parts ≠ [])
    (hparts : ∀ part ∈ parts, sep ∉ part) : split sep (join [sep] parts) = parts := by
  induction parts with
  | nil => exact absurd rfl hne
  | cons part rest ih =>
    obtain ⟨hpart, hrest⟩ := List.forall_mem_cons.mp hparts
    cases rest with
    | nil => exact split_of_not_mem hpart
    | cons next rest =>
      rw [join_cons_cons, split_append_cons, split_of_not_mem hpart,
        ih (List.cons_ne_nil _ _) hrest]
      rfl

theorem exists_eq_takeWhile_append {t : Text} {b : UInt8} (h : b ∈ t) :
    ∃ rest, t = t.takeWhile (· != b) ++ b :: rest := by
  induction t with
  | nil => cases h
  | cons c t ih =>
    by_cases hc : c = b
    · exact ⟨t, by simp [hc]⟩
    · obtain ⟨rest, hrest⟩ := ih (List.mem_of_ne_of_mem (Ne.symm hc) h)
      have hpass : (c != b) = true := bne_iff_ne.mpr hc
      refine ⟨rest, ?_⟩
      rw [List.takeWhile_cons, hpass, if_pos rfl, List.cons_append, ← hrest]

end Text

namespace Path

theorem join_append {steps rest : List Text} (hrest : rest ≠ []) :
    Text.join [ascii '/'] (steps ++ rest) = lead steps ++ Text.join [ascii '/'] rest := by
  induction steps with
  | nil => rfl
  | cons s steps ih =>
    have hne : steps ++ rest ≠ [] := List.append_ne_nil_of_right_ne_nil steps hrest
    obtain ⟨next, more, hmore⟩ := List.exists_cons_of_ne_nil hne
    rw [List.cons_append, lead_cons, List.append_assoc, List.cons_append, ← ih, hmore]
    exact Text.join_cons_cons _ _ _ _

/-! ## Names -/

/-- A step that leads from a directory to something in it. -/
structure IsName (s : Text) : Prop where
  step : IsStep s
  nonempty : s ≠ []
  notHere : s ≠ utf8 "."
  notUp : s ≠ up

instance (s : Text) : Decidable (IsName s) :=
  decidable_of_iff (IsStep s ∧ s ≠ [] ∧ s ≠ utf8 "." ∧ s ≠ up)
    ⟨fun h => ⟨h.1, h.2.1, h.2.2.1, h.2.2.2⟩, fun h => ⟨h.step, h.nonempty, h.notHere, h.notUp⟩⟩

/-- The path that steps lead to. -/
def extend (p : Path) (steps : List Text) : Path := { p with segments := p.segments ++ steps }

@[simp] theorem extend_nil (p : Path) : p.extend [] = p := by
  rw [extend, List.append_nil]

theorem extend_extend (p : Path) (steps more : List Text) :
    (p.extend steps).extend more = p.extend (steps ++ more) := by
  rw [extend, extend, extend, List.append_assoc]

/-- `q` is the directory `p`, or something at any depth in it. -/
def IsWithin (q p : Path) : Prop := ∃ names, (∀ s ∈ names, IsName s) ∧ q = p.extend names

/-- `q` is something at any depth in the directory `p`. -/
def IsBelow (q p : Path) : Prop :=
  ∃ names, names ≠ [] ∧ (∀ s ∈ names, IsName s) ∧ q = p.extend names

theorem IsWithin.refl (p : Path) : p.IsWithin p := ⟨[], List.forall_mem_nil _, (extend_nil p).symm⟩

theorem IsWithin.trans {p q r : Path} (h : r.IsWithin q) (h' : q.IsWithin p) : r.IsWithin p := by
  obtain ⟨more, hmore, rfl⟩ := h
  obtain ⟨names, hnames, rfl⟩ := h'
  exact ⟨names ++ more, List.forall_mem_append.mpr ⟨hnames, hmore⟩, extend_extend p names more⟩

theorem Normal.extend {p : Path} (h : p.Normal) {names : List Text}
    (hnames : ∀ s ∈ names, IsName s) : (p.extend names).Normal := by
  induction names generalizing p with
  | nil => rwa [extend_nil]
  | cons s names ih =>
    obtain ⟨hs, hrest⟩ := List.forall_mem_cons.mp hnames
    have hstep : (p.extend [s]).Normal :=
      h.concat ⟨hs.step, hs.nonempty, hs.notHere⟩ fun hup => absurd hup hs.notUp
    have hall := ih hstep hrest
    rwa [extend_extend] at hall

theorem Normal.of_append {rooted : Bool} {front back : List Text}
    (h : Normal ⟨rooted, front ++ back⟩) : Normal ⟨rooted, front⟩ where
  plain s hs := h.plain s (List.mem_append_left _ hs)
  ups := (List.pairwise_append.mp h.ups).1
  down hrooted hmem := h.down hrooted (List.mem_append_left _ hmem)

/-! ## Walks along names -/

variable {rooted : Bool} {steps names : List Text}

theorem foldl_walk_names (h : ∀ s ∈ names, IsName s) (place : List Text) :
    names.foldl (walk rooted) place = names.reverse ++ place := by
  induction names generalizing place with
  | nil => rfl
  | cons s names ih =>
    obtain ⟨hs, hrest⟩ := List.forall_mem_cons.mp h
    rw [List.foldl_cons, walk_name hs.nonempty hs.notHere hs.notUp, ih hrest, List.reverse_cons,
      List.append_assoc]
    rfl

/-- Steps without `..` lead along names only. -/
theorem exists_foldl_walk (rooted : Bool) (hsteps : ∀ s ∈ steps, IsStep s) (hup : up ∉ steps) :
    ∃ names : List Text, (∀ s ∈ names, IsName s) ∧
      ∀ place, steps.foldl (walk rooted) place = names.reverse ++ place := by
  induction steps with
  | nil => exact ⟨[], List.forall_mem_nil _, fun _ => rfl⟩
  | cons s steps ih =>
    obtain ⟨hs, hrest⟩ := List.forall_mem_cons.mp hsteps
    rw [List.mem_cons, not_or] at hup
    obtain ⟨names, hnames, hwalk⟩ := ih hrest hup.2
    by_cases hstay : s = [] ∨ s = utf8 "."
    · -- The walk stays where it is.
      refine ⟨names, hnames, fun place => ?_⟩
      have hplace : walk rooted place s = place := by
        rcases hstay with rfl | rfl
        · rfl
        · rfl
      rw [List.foldl_cons, hplace, hwalk]
    · rw [not_or] at hstay
      have hname : IsName s := ⟨hs, hstay.1, hstay.2, Ne.symm hup.1⟩
      refine ⟨s :: names, List.forall_mem_cons.mpr ⟨hname, hnames⟩, fun place => ?_⟩
      rw [List.foldl_cons, walk_name hstay.1 hstay.2 (Ne.symm hup.1), hwalk, List.reverse_cons,
        List.append_assoc]
      rfl

/-- A text behind a slash is walked from the path that stands in front. -/
theorem ofText_append {a : Text} (ha : a ≠ []) (b : Text) :
    ofText (a ++ ascii '/' :: b) =
      ⟨(ofText a).rooted, ((Text.split (ascii '/') b).foldl (walk (ofText a).rooted)
        (ofText a).segments.reverse).reverse⟩ := by
  obtain ⟨first, rest, rfl⟩ := List.exists_cons_of_ne_nil ha
  have hrooted : Text.startsWith (first :: rest ++ ascii '/' :: b) [ascii '/'] =
      Text.startsWith (first :: rest) [ascii '/'] := by
    simp [Text.startsWith, List.isPrefixOf]
  unfold ofText
  dsimp only
  rw [hrooted, Text.split_append_cons, List.foldl_append, List.reverse_reverse]

theorem ofText_clean (t : Text) : ofText (clean t) = ofText t := (normal_ofText t).text_spells.1

/-- A text without `..` that is joined to a directory stays in it. -/
theorem exists_ofText_join {directory t : Text} (hdirectory : directory ≠ [])
    (hup : up ∉ Text.split (ascii '/') t) :
    ∃ names, (∀ s ∈ names, IsName s) ∧
      ofText (join directory t) = (ofText directory).extend names := by
  have hempty : directory.isEmpty = false := List.isEmpty_eq_false_iff.mpr hdirectory
  rw [join, hempty, if_neg Bool.false_ne_true]
  split
  · exact ⟨[], List.forall_mem_nil _, by rw [ofText_clean, extend_nil]⟩
  · obtain ⟨names, hnames, hwalk⟩ := exists_foldl_walk (ofText directory).rooted
      (fun s hs => Text.not_mem_of_mem_split hs) hup
    refine ⟨names, hnames, ?_⟩
    rw [ofText_clean, List.append_assoc]
    show ofText (directory ++ ascii '/' :: t) = _
    rw [ofText_append hdirectory, hwalk, List.reverse_append, List.reverse_reverse,
      List.reverse_reverse]
    rfl

/-- Names that are joined to a directory lead into it. -/
theorem ofText_join_names {directory : Text} (hdirectory : directory ≠ [])
    (hne : names ≠ []) (h : ∀ s ∈ names, IsName s) :
    ofText (join directory (Text.join [ascii '/'] names)) = (ofText directory).extend names := by
  have hempty : directory.isEmpty = false := List.isEmpty_eq_false_iff.mpr hdirectory
  have hsplit := Text.split_join hne fun s hs => (h s hs).step
  -- An empty text would leave out the slash; it would be the one name `[]`.
  have htext : (Text.join [ascii '/'] names).isEmpty = false := by
    rw [List.isEmpty_eq_false_iff]
    intro hnil
    rw [hnil] at hsplit
    subst hsplit
    exact (h [] (List.mem_singleton_self _)).nonempty rfl
  rw [join, hempty, htext, if_neg Bool.false_ne_true, if_neg Bool.false_ne_true, ofText_clean,
    List.append_assoc]
  show ofText (directory ++ ascii '/' :: Text.join [ascii '/'] names) = _
  rw [ofText_append hdirectory, hsplit, foldl_walk_names h, List.reverse_append,
    List.reverse_reverse, List.reverse_reverse]
  rfl

/-! ## The way to what is below -/

theorem dropShared_append (segments names : List Text) :
    dropShared segments (segments ++ names) = ([], names) := by
  induction segments with
  | nil => cases names <;> rfl
  | cons s segments ih => rw [List.cons_append, dropShared, if_pos rfl, ih]

/-- An empty text stands for the working directory. -/
def orHere (directory : Text) : Text := if directory.isEmpty then utf8 "." else directory

theorem orHere_ne_nil (directory : Text) : orHere directory ≠ [] := by
  unfold orHere
  split
  · decide
  · rename_i h
    simpa using h

theorem ofText_orHere (directory : Text) : ofText (orHere directory) = ofText directory := by
  unfold orHere
  split
  · rename_i h
    rw [List.isEmpty_iff.mp h]
    decide
  · rfl

/-- The way to something below a directory is made of names. -/
theorem relativeTo_eq {directory file : Text} (hne : names ≠ [])
    (hfile : ofText file = (ofText directory).extend names) :
    relativeTo directory file = Text.join [ascii '/'] names := by
  have hother : (ofText directory).extend names ≠ ofText directory := by
    intro hsame
    have hsegments := congrArg segments hsame
    exact hne (List.append_right_eq_self.mp hsegments)
  show (relative? (orHere directory) file).getD file = _
  rw [relative?, ofText_orHere, hfile]
  dsimp only
  rw [if_neg hother.symm]
  have hrooted : ((ofText directory).rooted != ((ofText directory).extend names).rooted) = false :=
    bne_self_eq_false _
  have hshared : dropShared (ofText directory).segments ((ofText directory).extend names).segments =
      ([], names) := dropShared_append _ _
  rw [hrooted, if_neg Bool.false_ne_true, hshared]
  rfl

/-! ## Extensions -/

/-- The extension of a text is a part of its last step. -/
theorem exists_stem (steps : List Text) {last : Text} (hlast : IsStep last) :
    ∃ stem, last = stem ++ extension (lead steps ++ last) := by
  -- The dot is looked for from the end, and no further than to the last slash.
  have hback : (lead steps ++ last).reverse.takeWhile (· != ascii '/') = last.reverse := by
    have hpass : ∀ b ∈ last.reverse, (b != ascii '/') = true := by
      intro b hb
      rw [bne_iff_ne]
      rintro rfl
      exact hlast (List.mem_reverse.mp hb)
    rw [List.reverse_append, List.takeWhile_append_of_pos hpass]
    rcases List.eq_nil_or_concat steps with rfl | ⟨init, s, rfl⟩
    · exact List.append_nil _
    · simp [lead]
  rw [extension, hback]
  split
  · rename_i hdot
    obtain ⟨rest, hrest⟩ := Text.exists_eq_takeWhile_append (List.contains_iff_mem.mp hdot)
    have hwhole := congrArg List.reverse hrest
    rw [List.reverse_reverse, List.reverse_append, List.reverse_cons, List.append_assoc] at hwhole
    exact ⟨rest.reverse, hwhole⟩
  · exact ⟨last, (List.append_nil _).symm⟩

/-- A name with `.css` behind it is neither empty nor made of dots. -/
theorem isName_css {stem : Text} (h : IsStep stem) : IsName (stem ++ utf8 ".css") := by
  have hstep : IsStep (stem ++ utf8 ".css") := by
    intro hmem
    rcases List.mem_append.mp hmem with hmem | hmem
    · exact h hmem
    · exact absurd hmem (by decide)
  have hlength : 4 ≤ (stem ++ utf8 ".css").length := by
    rw [List.length_append]
    exact Nat.le_add_left 4 _
  have hne : ∀ s : Text, s.length < 4 → stem ++ utf8 ".css" ≠ s := by
    rintro s hs rfl
    omega
  exact ⟨hstep, hne _ (by decide), hne _ (by decide), hne _ (by decide)⟩

end Path

end MixinCss
