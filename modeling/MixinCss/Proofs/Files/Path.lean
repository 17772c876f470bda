/-
  MixinCss.Proofs.Files.Path

  Texts of paths. A text is its steps, taken apart at the slashes. Walking them
  gives a path in normal form, the text of such a path spells it again, and the
  directory that is cut off from the text is the parent of the path.
-/

import MixinCss.Files.Path

namespace MixinCss

/-! ## Parts of a text -/

namespace Text

variable {sep : UInt8}

theorem split_cons_self (t : Text) : split sep (sep :: t) = [] :: split sep t := by
  simp [split]

theorem split_cons_of_ne {b : UInt8} {rest part : Text} {parts : List Text} (hb : b ≠ sep)
    (hrest : split sep rest = part :: parts) : split sep (b :: rest) = (b :: part) :: parts := by
  simp [split, hb, hrest]

theorem exists_split_eq_cons (sep : UInt8) (t : Text) :
    ∃ part parts, split sep t = part :: parts :=
  List.exists_cons_of_ne_nil (split_ne_nil sep t)

theorem split_of_not_mem {t : Text} (h : sep ∉ t) : split sep t = [t] := by
  induction t with
  | nil => rfl
  | cons b rest ih =>
    have hb : b ≠ sep := fun hb => h (hb ▸ List.mem_cons_self)
    have hrest : sep ∉ rest := fun hmem => h (List.mem_cons_of_mem b hmem)
    exact split_cons_of_ne hb (ih hrest)

theorem split_append_cons (a b : Text) :
    split sep (a ++ sep :: b) = split sep a ++ split sep b := by
  induction a with
  | nil => exact split_cons_self b
  | cons c a ih =>
    by_cases hc : c = sep
    · subst hc
      rw [List.cons_append, split_cons_self, split_cons_self, ih, List.cons_append]
    · obtain ⟨part, parts, ha⟩ := exists_split_eq_cons sep a
      rw [ha, List.cons_append] at ih
      rw [List.cons_append, split_cons_of_ne hc ih, split_cons_of_ne hc ha, List.cons_append]

theorem not_mem_of_mem_split {t part : Text} (h : part ∈ split sep t) : sep ∉ part := by
  induction t generalizing part with
  | nil =>
    rw [split, List.mem_singleton] at h
    rw [h]
    exact List.not_mem_nil
  | cons b rest ih =>
    by_cases hb : b = sep
    · subst hb
      rw [split_cons_self] at h
      rcases List.mem_cons.mp h with rfl | h
      · exact List.not_mem_nil
      · exact ih h
    · obtain ⟨first, parts, hrest⟩ := exists_split_eq_cons sep rest
      rw [hrest] at ih
      rw [split_cons_of_ne hb hrest] at h
      rcases List.mem_cons.mp h with rfl | h
      · have hfirst := ih List.mem_cons_self
        simp [Ne.symm hb, hfirst]
      · exact ih (List.mem_cons_of_mem _ h)

theorem join_concat (parts : List Text) (last : Text) :
    join [sep] (parts ++ [last]) = parts.flatMap (· ++ [sep]) ++ last := by
  induction parts with
  | nil => rfl
  | cons part parts ih =>
    have hne : parts ++ [last] ≠ [] := List.append_ne_nil_of_right_ne_nil _ (List.cons_ne_nil _ _)
    rw [List.cons_append, List.flatMap_cons, List.append_assoc, ← ih]
    cases hrest : parts ++ [last] with
    | nil => exact absurd hrest hne
    | cons next rest => rfl

end Text

namespace Path

/-! ## Steps of a text -/

/-- Steps with a slash behind each. -/
def lead (steps : List Text) : Text := steps.flatMap (· ++ [ascii '/'])

/-- What is between two slashes. -/
def IsStep (s : Text) : Prop := ascii '/' ∉ s

instance (s : Text) : Decidable (IsStep s) := inferInstanceAs (Decidable (ascii '/' ∉ s))

variable {steps : List Text} {last : Text}

theorem lead_cons (s : Text) (steps : List Text) :
    lead (s :: steps) = s ++ ascii '/' :: lead steps := by
  rw [lead, List.flatMap_cons, List.append_assoc]
  rfl

theorem split_lead_append (hsteps : ∀ s ∈ steps, IsStep s) (t : Text) :
    Text.split (ascii '/') (lead steps ++ t) = steps ++ Text.split (ascii '/') t := by
  induction steps with
  | nil => rfl
  | cons s steps ih =>
    obtain ⟨hs, hrest⟩ := List.forall_mem_cons.mp hsteps
    rw [lead_cons, List.append_assoc, List.cons_append, Text.split_append_cons,
      Text.split_of_not_mem hs, ih hrest]
    rfl

theorem split_lead (hsteps : ∀ s ∈ steps, IsStep s) (hlast : IsStep last) :
    Text.split (ascii '/') (lead steps ++ last) = steps ++ [last] := by
  rw [split_lead_append hsteps, Text.split_of_not_mem hlast]

/-- A text begins with a slash if its first step is empty. -/
theorem startsWith_lead (hsteps : ∀ s ∈ steps, IsStep s) (hlast : IsStep last) :
    (lead steps ++ last).startsWith [ascii '/'] = (steps.head? == some []) := by
  have hbegin : ∀ (b : UInt8) (rest : Text),
      Text.startsWith (b :: rest) [ascii '/'] = (ascii '/' == b) := by
    intro b rest
    simp [Text.startsWith, List.isPrefixOf]
  have hstep : ∀ {b : UInt8} {s : Text}, IsStep (b :: s) → (ascii '/' == b) = false := by
    intro b s h
    exact beq_false_of_ne fun hb => h (hb ▸ List.mem_cons_self)
  cases steps with
  | nil =>
    cases last with
    | nil => rfl
    | cons b last => exact (hbegin b last).trans (hstep hlast)
  | cons s steps =>
    rw [lead_cons]
    cases s with
    | nil => exact (hbegin _ _).trans (beq_self_eq_true _)
    | cons b s => exact (hbegin b _).trans (hstep (hsteps _ List.mem_cons_self))

/-- A text is read by walking its steps. -/
theorem ofText_lead (hsteps : ∀ s ∈ steps, IsStep s) (hlast : IsStep last) :
    ofText (lead steps ++ last) =
      ⟨steps.head? == some [],
        (walk (steps.head? == some []) (steps.foldl (walk (steps.head? == some [])) [])
          last).reverse⟩ := by
  unfold ofText
  dsimp only
  rw [startsWith_lead hsteps hlast, split_lead hsteps hlast, List.foldl_append]
  rfl

theorem exists_lead (t : Text) :
    ∃ steps last, (∀ s ∈ steps, IsStep s) ∧ IsStep last ∧ t = lead steps ++ last := by
  have hparts : ∀ s ∈ Text.split (ascii '/') t, IsStep s :=
    fun _ hs => Text.not_mem_of_mem_split hs
  rcases List.eq_nil_or_concat (Text.split (ascii '/') t) with hnil | ⟨steps, last, hsplit⟩
  · exact absurd hnil (Text.split_ne_nil _ t)
  · rw [List.concat_eq_append] at hsplit
    rw [hsplit, List.forall_mem_append, List.forall_mem_singleton] at hparts
    refine ⟨steps, last, hparts.1, hparts.2, ?_⟩
    rw [lead, ← Text.join_concat, ← hsplit, Text.join_split]

theorem directory_lead (hsteps : ∀ s ∈ steps, IsStep s) (hlast : IsStep last) :
    directory (lead steps ++ last) =
      ⟨steps.head? == some [], (steps.foldl (walk (steps.head? == some [])) []).reverse⟩ := by
  have hdrop : (lead steps ++ last).reverse.dropWhile (· != ascii '/') = (lead steps).reverse := by
    have hpass : ∀ b ∈ last.reverse, (b != ascii '/') = true := by
      intro b hb
      rw [bne_iff_ne]
      rintro rfl
      exact hlast (List.mem_reverse.mp hb)
    rw [List.reverse_append, List.dropWhile_append_of_pos hpass]
    -- The text of the steps is empty or ends with a slash.
    rcases List.eq_nil_or_concat steps with rfl | ⟨init, s, rfl⟩
    · rfl
    · simp [lead]
  have hwalk := @ofText_lead steps [] hsteps List.not_mem_nil
  rw [List.append_nil] at hwalk
  rw [directory, hdrop, List.reverse_reverse, hwalk]
  rfl

/-! ## Walks -/

variable {rooted : Bool} {place rest : List Text} {s : Text}

theorem walk_name (hs : s ≠ []) (hdot : s ≠ utf8 ".") (hup : s ≠ up) :
    walk rooted place s = s :: place := by
  simp [walk, hs, hdot, hup]

theorem walk_up_nil : walk rooted [] up = if rooted then [] else [up] := rfl

theorem walk_up_up : walk rooted (up :: rest) up = up :: up :: rest := rfl

theorem walk_up_name (hs : s ≠ up) : walk rooted (s :: rest) up = rest := by
  have hne : up ≠ [] := by decide
  have hdot : up ≠ utf8 "." := by decide
  simp [walk, hs, hne, hdot]

/-- Segments as walks leave them. -/
structure Normal (p : Path) : Prop where
  plain : ∀ s ∈ p.segments, IsStep s ∧ s ≠ [] ∧ s ≠ utf8 "."
  /-- All that stands in front of a step up is one too. -/
  ups : p.segments.Pairwise fun a b => b = up → a = up
  down : p.rooted = true → up ∉ p.segments

namespace Normal

variable {segments : List Text}

theorem nil : Normal ⟨rooted, []⟩ :=
  ⟨List.forall_mem_nil _, List.Pairwise.nil, fun _ => List.not_mem_nil⟩

theorem concat (h : Normal ⟨rooted, segments⟩) (hs : IsStep s ∧ s ≠ [] ∧ s ≠ utf8 ".")
    (hup : s = up → rooted = false ∧ ∀ a ∈ segments, a = up) :
    Normal ⟨rooted, segments ++ [s]⟩ := by
  refine ⟨?_, ?_, ?_⟩
  · exact List.forall_mem_append.mpr ⟨h.plain, List.forall_mem_singleton.mpr hs⟩
  · refine List.pairwise_append.mpr ⟨h.ups, List.pairwise_singleton _ _, fun a ha b hb hbup => ?_⟩
    rw [List.mem_singleton.mp hb] at hbup
    exact (hup hbup).2 a ha
  · intro hrooted hmem
    rcases List.mem_append.mp hmem with hmem | hmem
    · exact h.down hrooted hmem
    · have hfalse := (hup (List.mem_singleton.mp hmem).symm).1
      exact Bool.false_ne_true (hfalse.symm.trans hrooted)

theorem of_concat (h : Normal ⟨rooted, segments ++ [s]⟩) : Normal ⟨rooted, segments⟩ where
  plain a ha := h.plain a (List.mem_append_left _ ha)
  ups := (List.pairwise_append.mp h.ups).1
  down hrooted hmem := h.down hrooted (List.mem_append_left _ hmem)

theorem of_concat_up (h : Normal ⟨rooted, segments ++ [up]⟩) :
    rooted = false ∧ ∀ a ∈ segments, a = up := by
  refine ⟨Bool.eq_false_iff.mpr fun hrooted => ?_, fun a ha => ?_⟩
  · exact h.down hrooted (List.mem_append_right _ (List.mem_singleton_self up))
  · exact (List.pairwise_append.mp h.ups).2.2 a ha up (List.mem_singleton_self up) rfl

/-- A step keeps the normal form. -/
theorem walk (h : Normal ⟨rooted, place.reverse⟩) (hs : IsStep s) :
    Normal ⟨rooted, (Path.walk rooted place s).reverse⟩ := by
  by_cases hnil : s = []
  · subst hnil
    exact h
  by_cases hdot : s = utf8 "."
  · subst hdot
    exact h
  have hplain : IsStep s ∧ s ≠ [] ∧ s ≠ utf8 "." := ⟨hs, hnil, hdot⟩
  by_cases hup : s = up
  · subst hup
    cases place with
    | nil =>
      rw [walk_up_nil]
      cases rooted with
      | true => exact nil
      | false => exact nil.concat hplain fun _ => ⟨rfl, List.forall_mem_nil _⟩
    | cons last rest =>
      by_cases hlast : last = up
      · subst hlast
        rw [walk_up_up, List.reverse_cons]
        refine h.concat hplain fun _ => ?_
        rw [List.reverse_cons] at h
        obtain ⟨hrooted, hrest⟩ := h.of_concat_up
        rw [List.reverse_cons]
        exact ⟨hrooted, List.forall_mem_append.mpr ⟨hrest, List.forall_mem_singleton.mpr rfl⟩⟩
      · rw [walk_up_name hlast]
        rw [List.reverse_cons] at h
        exact h.of_concat
  · rw [walk_name hnil hdot hup, List.reverse_cons]
    exact h.concat hplain fun h => absurd h hup

theorem foldl_walk (hsteps : ∀ s ∈ steps, IsStep s) (h : Normal ⟨rooted, place.reverse⟩) :
    Normal ⟨rooted, (steps.foldl (Path.walk rooted) place).reverse⟩ := by
  induction steps generalizing place with
  | nil => exact h
  | cons s steps ih =>
    obtain ⟨hs, hrest⟩ := List.forall_mem_cons.mp hsteps
    exact ih hrest (h.walk hs)

/-- A segment is walked as it stands. -/
theorem walk_eq_cons (h : Normal ⟨rooted, segments ++ [s]⟩) :
    Path.walk rooted segments.reverse s = s :: segments.reverse := by
  obtain ⟨-, hnil, hdot⟩ := h.plain s (List.mem_append_right _ (List.mem_singleton_self s))
  by_cases hup : s = up
  · subst hup
    obtain ⟨hrooted, hsegments⟩ := h.of_concat_up
    cases hplace : segments.reverse with
    | nil => rw [walk_up_nil, hrooted, if_neg Bool.false_ne_true]
    | cons last rest =>
      have hmem : last ∈ segments.reverse := hplace ▸ List.mem_cons_self
      have hlast : last = up := hsegments last (List.mem_reverse.mp hmem)
      rw [hlast, walk_up_up]
  · exact walk_name hnil hdot hup

theorem foldl_walk_eq (h : Normal ⟨rooted, segments⟩) :
    segments.foldl (Path.walk rooted) [] = segments.reverse := by
  rw [← segments.reverse_reverse] at h ⊢
  generalize segments.reverse = place at h ⊢
  induction place with
  | nil => rfl
  | cons s place ih =>
    rw [List.reverse_cons] at h
    rw [List.reverse_cons, List.foldl_append, ih h.of_concat, List.reverse_append]
    exact h.walk_eq_cons

end Normal

/-- Every text spells a path in normal form. -/
theorem normal_ofText (t : Text) : (ofText t).Normal :=
  Normal.nil.foldl_walk fun _ hs => Text.not_mem_of_mem_split hs

/-! ## Texts in normal form -/

/-- The directory that holds what a path leads to. -/
def parent (p : Path) : Path := { p with segments := p.segments.dropLast }

/-- The steps of a rooted path begin with an empty one. -/
def withRoot (rooted : Bool) (steps : List Text) : List Text :=
  if rooted then [] :: steps else steps

theorem text_concat (rooted : Bool) (init : List Text) (s : Text) :
    text ⟨rooted, init ++ [s]⟩ = lead (withRoot rooted init) ++ s := by
  have hne : (init ++ [s]).isEmpty = false := by simp
  unfold text
  dsimp only
  rw [hne, Text.join_concat]
  cases rooted with
  | true => rfl
  | false => rfl

theorem foldl_withRoot (rooted : Bool) (steps place : List Text) :
    (withRoot rooted steps).foldl (walk rooted) place = steps.foldl (walk rooted) place := by
  cases rooted with
  | true => rfl
  | false => rfl

section

variable {init : List Text} (h : Normal ⟨rooted, init ++ [s]⟩)

include h

theorem Normal.forall_mem_withRoot : ∀ a ∈ withRoot rooted init, IsStep a := by
  have hinit : ∀ a ∈ init, IsStep a := fun a ha => (h.of_concat.plain a ha).1
  cases rooted with
  | true => exact List.forall_mem_cons.mpr ⟨List.not_mem_nil, hinit⟩
  | false => exact hinit

theorem Normal.head?_withRoot : ((withRoot rooted init).head? == some []) = rooted := by
  cases rooted with
  | true => rfl
  | false =>
    cases init with
    | nil => rfl
    | cons first rest =>
      have hfirst : first ≠ [] := (h.plain first List.mem_cons_self).2.1
      simp [withRoot, hfirst]

theorem Normal.isStep_last : IsStep s :=
  (h.plain s (List.mem_append_right _ (List.mem_singleton_self s))).1

theorem Normal.ofText_text_concat :
    ofText (text ⟨rooted, init ++ [s]⟩) = ⟨rooted, init ++ [s]⟩ := by
  rw [text_concat, ofText_lead h.forall_mem_withRoot h.isStep_last, h.head?_withRoot,
    foldl_withRoot, h.of_concat.foldl_walk_eq, h.walk_eq_cons, List.reverse_cons,
    List.reverse_reverse]

theorem Normal.directory_text_concat :
    directory (text ⟨rooted, init ++ [s]⟩) = ⟨rooted, init⟩ := by
  rw [text_concat, directory_lead h.forall_mem_withRoot h.isStep_last, h.head?_withRoot,
    foldl_withRoot, h.of_concat.foldl_walk_eq, List.reverse_reverse]

end

/-- The text of a path in normal form spells the path, and what is cut off
    before its last step spells the parent. -/
theorem Normal.text_spells {p : Path} (h : p.Normal) :
    ofText p.text = p ∧ directory p.text = p.parent := by
  obtain ⟨rooted, segments⟩ := p
  rcases List.eq_nil_or_concat segments with rfl | ⟨init, s, rfl⟩
  · cases rooted with
    | true => decide
    | false => decide
  · rw [List.concat_eq_append] at h ⊢
    refine ⟨h.ofText_text_concat, ?_⟩
    rw [h.directory_text_concat, parent, List.dropLast_concat]

theorem directory_clean (t : Text) : directory (clean t) = (ofText (clean t)).parent := by
  obtain ⟨hspells, hdirectory⟩ := (normal_ofText t).text_spells
  rw [clean, hspells, hdirectory]

/-- The directory of a text whose last step is a name. -/
theorem directory_eq_parent (hsteps : ∀ a ∈ steps, IsStep a) (hlast : IsStep last)
    (hnil : last ≠ []) (hdot : last ≠ utf8 ".") (hup : last ≠ up) :
    directory (lead steps ++ last) = (ofText (lead steps ++ last)).parent := by
  rw [ofText_lead hsteps hlast, walk_name hnil hdot hup, List.reverse_cons, parent,
    List.dropLast_concat, directory_lead hsteps hlast]

/-! ## The way to a path -/

theorem chain_dropLast (p : Path) : p.chain.dropLast = p.parent.chain := by
  have hrange : ∀ n, (List.range n).dropLast = List.range (n - 1) := by
    intro n
    cases n with
    | zero => rfl
    | succ n => rw [List.range_succ, List.dropLast_concat, Nat.add_sub_cancel]
  unfold chain parent
  dsimp only
  rw [← List.map_dropLast, hrange, List.length_dropLast]
  refine List.map_congr_left fun n hn => ?_
  have hlt : n + 1 ≤ p.segments.length - 1 := List.mem_range.mp hn
  rw [List.dropLast_eq_take, List.take_take, Nat.min_eq_left hlt]

/-- What a path passes on its way is a front of its segments. -/
theorem exists_of_mem_chain_parent {p q : Path} (h : q ∈ p.parent.chain) :
    ∃ rest, rest ≠ [] ∧ q.rooted = p.rooted ∧ p.segments = q.segments ++ rest := by
  obtain ⟨n, hn, rfl⟩ := List.mem_map.mp h
  have hlt : n < p.segments.length - 1 := by
    rw [← List.length_dropLast]
    exact List.mem_range.mp hn
  have hfront : p.segments.dropLast.take (n + 1) = p.segments.take (n + 1) := by
    rw [List.dropLast_eq_take, List.take_take, Nat.min_eq_left (by omega)]
  refine ⟨p.segments.drop (n + 1), ?_, rfl, ?_⟩
  · rw [ne_eq, List.drop_eq_nil_iff]
    omega
  · show p.segments = p.segments.dropLast.take (n + 1) ++ _
    rw [hfront, List.take_append_drop]

end Path

end MixinCss
