/-
  MixinCss.Proofs.Sheet.Selector

  Where a written selector has its bytes from. Trimming and cutting lose white
  space and commas only, so a `&` is left in a selector exactly if it had one
  and nothing could be put for it, or a `&` was put for it
  (`Selector.parentMark_mem_substitute`). A selector is written as the empty
  text only inside of one that is white space
  (`Selector.trim_of_substitute_eq_nil`).
-/

import Mathlib.Data.List.Flatten
import MixinCss.Proofs.Text.Runes
import MixinCss.Sheet.Selector

namespace MixinCss

namespace Text

/-! ## Joining -/

theorem mem_join_iff {sep : Text} {b : UInt8} (hb : b ∉ sep) (parts : List Text) :
    b ∈ join sep parts ↔ ∃ part ∈ parts, b ∈ part := by
  induction parts with
  | nil => simp
  | cons part rest ih =>
    cases rest with
    | nil => simp
    | cons next rest => simp [join, ih, hb]

/-- Nothing but nothing is joined to nothing. -/
theorem eq_singleton_of_join_eq_nil {sep : Text} (hsep : sep ≠ []) {parts : List Text}
    (hparts : parts ≠ []) (h : join sep parts = []) : parts = [[]] := by
  match parts with
  | [] => exact absurd rfl hparts
  | [part] => rw [← h, join_singleton]
  | part :: next :: rest =>
    rw [join, List.append_eq_nil_iff, List.append_eq_nil_iff] at h
    · exact absurd h.1.2 hsep
    · exact List.cons_ne_nil _ _

end Text

/-! ## Selectors -/

namespace Selector

open Text (mem_of_mem_trim mem_trim_of_ascii)

theorem cut_ne_nil (depth : Int) (t : Text) : cut depth t ≠ [] := by
  cases t with
  | nil => exact List.cons_ne_nil _ _
  | cons b rest =>
    rw [cut]
    split
    · exact List.cons_ne_nil _ _
    · split <;> exact List.cons_ne_nil _ _

/-- The parts of a list are the text between its commas. -/
theorem join_cut (depth : Int) (t : Text) : Text.join [ascii ','] (cut depth t) = t := by
  induction t generalizing depth with
  | nil => rfl
  | cons b rest ih =>
    rw [cut]
    split
    · rename_i hcomma
      obtain ⟨part, parts, hparts⟩ := List.exists_cons_of_ne_nil (cut_ne_nil depth rest)
      have hrest := ih depth
      rw [hparts] at hrest ⊢
      rw [Bool.and_eq_true, decide_eq_true_eq] at hcomma
      rw [Text.join, hrest, hcomma.1]
      · rfl
      · exact List.cons_ne_nil _ _
    · split
      · rename_i hnil
        exact absurd hnil (cut_ne_nil _ rest)
      · rename_i part parts hparts
        have hrest := ih (if b = ascii '(' || b = ascii '[' then depth + 1
          else if b = ascii ')' || b = ascii ']' then depth - 1 else depth)
        rw [hparts] at hrest
        rw [← hrest]
        cases parts with
        | nil => rfl
        | cons next rest => rfl

/-- Bytes that are neither commas nor white space are in the alternatives. -/
theorem exists_mem_alternatives_iff (selector : Text) :
    (∃ part ∈ alternatives selector, parentMark ∈ part) ↔ parentMark ∈ selector := by
  have hcut := Text.mem_join_iff (show parentMark ∉ [ascii ','] by decide) (cut 0 selector)
  rw [join_cut] at hcut
  rw [hcut, alternatives]
  simp only [List.mem_map, exists_exists_and_eq_and]
  refine exists_congr fun part => and_congr_right fun _ => ⟨mem_of_mem_trim, ?_⟩
  exact mem_trim_of_ascii (by decide) (by decide)

@[simp] theorem substitute_nil (selector : Text) : substitute selector [] = selector := rfl

theorem substitute_of_not_mem {selector : Text} (h : parentMark ∉ selector) (parent : Text) :
    substitute selector parent = selector := by
  have hcontains : selector.contains parentMark = false := by
    rw [List.contains_eq_mem]
    exact decide_eq_false h
  rw [substitute, hcontains, Bool.not_false, Bool.or_true, if_pos rfl]

/-- What is written for one part of a selector: itself, or if it has a `&` one
    combination with each part of the parent. -/
def combined (parent s : Text) : List Text :=
  if s.contains parentMark then (alternatives parent).map fun p => s.replaceByte parentMark p
  else [s]

theorem combined_of_mem {s : Text} (h : parentMark ∈ s) (parent : Text) :
    combined parent s = (alternatives parent).map fun p => s.replaceByte parentMark p :=
  if_pos (List.contains_iff_mem.mpr h)

theorem combined_of_not_mem {s : Text} (h : parentMark ∉ s) (parent : Text) :
    combined parent s = [s] :=
  if_neg (mt List.contains_iff_mem.mp h)

/-- What is written for a selector if there is something to put for `&`. -/
def combinations (selector parent : Text) : List Text :=
  (alternatives selector).flatMap (combined parent)

theorem substitute_of_mem {selector parent : Text} (h : parentMark ∈ selector)
    (hparent : parent ≠ []) :
    substitute selector parent = Text.join (utf8 ", ") (combinations selector parent) := by
  have hempty : parent.isEmpty = false := List.isEmpty_eq_false_iff.mpr hparent
  have hcontains : selector.contains parentMark = true := List.contains_iff_mem.mpr h
  rw [substitute, hempty, hcontains, Bool.not_true, Bool.or_false, if_neg Bool.false_ne_true]
  rfl

theorem mem_combinations {selector parent whole : Text} :
    whole ∈ combinations selector parent ↔
      (whole ∈ alternatives selector ∧ parentMark ∉ whole) ∨
        ∃ s ∈ alternatives selector, parentMark ∈ s ∧
          ∃ p ∈ alternatives parent, whole = s.replaceByte parentMark p := by
  rw [combinations, List.mem_flatMap]
  constructor
  · rintro ⟨s, hs, hwhole⟩
    by_cases hmark : parentMark ∈ s
    · rw [combined_of_mem hmark, List.mem_map] at hwhole
      obtain ⟨p, hp, rfl⟩ := hwhole
      exact .inr ⟨s, hs, hmark, p, hp, rfl⟩
    · rw [combined_of_not_mem hmark, List.mem_singleton] at hwhole
      subst hwhole
      exact .inl ⟨hs, hmark⟩
  · rintro (⟨hs, hmark⟩ | ⟨s, hs, hmark, p, hp, rfl⟩)
    · refine ⟨whole, hs, ?_⟩
      rw [combined_of_not_mem hmark]
      exact List.mem_singleton.mpr rfl
    · refine ⟨s, hs, ?_⟩
      rw [combined_of_mem hmark]
      exact List.mem_map_of_mem hp

theorem parentMark_mem_replaceByte {s : Text} (h : parentMark ∈ s) (p : Text) :
    parentMark ∈ s.replaceByte parentMark p ↔ parentMark ∈ p := by
  rw [Text.replaceByte, List.mem_flatMap]
  constructor
  · rintro ⟨c, -, hc⟩
    split at hc
    · exact hc
    · rename_i hne
      exact absurd (List.mem_singleton.mp hc).symm hne
  · intro hp
    exact ⟨parentMark, h, by rwa [if_pos rfl]⟩

/-- A `&` is left exactly if there is one for which nothing can be put, or for
    which something with a `&` is put. -/
theorem parentMark_mem_substitute {selector parent : Text} :
    parentMark ∈ substitute selector parent ↔
      parentMark ∈ selector ∧ (parent = [] ∨ parentMark ∈ parent) := by
  by_cases hmark : parentMark ∈ selector
  case neg =>
    rw [substitute_of_not_mem hmark]
    exact ⟨fun h => absurd h hmark, And.left⟩
  by_cases hparent : parent = []
  · subst hparent
    simp
  rw [substitute_of_mem hmark hparent, Text.mem_join_iff (by decide)]
  simp only [hmark, hparent, true_and, false_or]
  constructor
  · rintro ⟨whole, hwhole, hleft⟩
    rcases mem_combinations.mp hwhole with ⟨-, hnot⟩ | ⟨s, -, hs, p, hp, rfl⟩
    · exact absurd hleft hnot
    · rw [← exists_mem_alternatives_iff]
      exact ⟨p, hp, (parentMark_mem_replaceByte hs p).mp hleft⟩
  · intro hleft
    obtain ⟨s, hs, hmarked⟩ := (exists_mem_alternatives_iff selector).mpr hmark
    obtain ⟨p, hp, hkept⟩ := (exists_mem_alternatives_iff parent).mpr hleft
    refine ⟨s.replaceByte parentMark p, ?_, (parentMark_mem_replaceByte hmarked p).mpr hkept⟩
    exact mem_combinations.mpr (.inr ⟨s, hs, hmarked, p, hp, rfl⟩)

/-- A selector is written as nothing only inside of one that is white space. -/
theorem trim_of_substitute_eq_nil {selector parent : Text} (hselector : selector ≠ [])
    (h : substitute selector parent = []) : parent ≠ [] ∧ parent.trim = [] := by
  by_cases hmark : parentMark ∈ selector
  case neg => exact absurd ((substitute_of_not_mem hmark parent).symm.trans h) hselector
  by_cases hparent : parent = []
  · subst hparent
    exact absurd h hselector
  refine ⟨hparent, ?_⟩
  obtain ⟨s, hs, hmarked⟩ := (exists_mem_alternatives_iff selector).mpr hmark
  -- Each part of the parent is put into `s` once, and there is only one
  -- combination, which is empty. So there is only one part, and it is empty.
  rw [substitute_of_mem hmark hparent] at h
  have hput : ((alternatives parent).map fun p => s.replaceByte parentMark p).Sublist
      (combinations selector parent) := by
    rw [← combined_of_mem hmarked, ← List.flatMap_singleton (combined parent) s]
    exact (List.singleton_sublist.mpr hs).flatMap (combined parent)
  obtain ⟨part, parts, hcut⟩ := List.exists_cons_of_ne_nil (cut_ne_nil 0 parent)
  rw [alternatives, hcut, List.map_cons, List.map_cons] at hput
  have hnonempty : combinations selector parent ≠ [] := by
    intro hnil
    rw [hnil] at hput
    cases hput
  rw [Text.eq_singleton_of_join_eq_nil (by decide) hnonempty h] at hput
  obtain ⟨hfirst, hmore⟩ := List.cons.inj (hput.eq_of_length_le (by simp))
  have hwhole : part = parent := by
    rw [← join_cut 0 parent, hcut, List.map_eq_nil_iff.mp (List.map_eq_nil_iff.mp hmore)]
    rfl
  rw [← hwhole, ← List.subset_nil]
  intro b hb
  rw [← hfirst]
  exact List.mem_flatMap.mpr ⟨parentMark, hmarked, by rwa [if_pos rfl]⟩

end Selector

end MixinCss
