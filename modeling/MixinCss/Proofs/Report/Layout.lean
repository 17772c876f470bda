/-
  MixinCss.Proofs.Report.Layout

  What a style does to a text besides its color. Tabs become spaces, carriage
  returns in front of line feeds are lost, and short lines are filled up. None of
  these can undo another one: a text that has been laid out in some places is the
  same as before only if it is the same in each of them (`Text.Laid`). So a text
  stays as it is exactly if it has nothing to lay out (`Text.laidOut_eq_self_iff`).
-/

import MixinCss.Proofs.Text.Joined
import MixinCss.Proofs.Text.Wellformed
import MixinCss.Report.Style

namespace MixinCss

namespace Text

/-! ## Changes of a layout -/

/-- A text with some of the changes of a layout: it may have fewer carriage
    returns or fewer tabs, and if it has not, it can only have more spaces. -/
structure Laid (t laid : Text) : Prop where
  returns : laid.count (ascii '\r') ≤ t.count (ascii '\r')
  tabs : laid.count (ascii '\t') ≤ t.count (ascii '\t')
  spaces : laid.count (ascii '\r') = t.count (ascii '\r') →
    laid.count (ascii '\t') = t.count (ascii '\t') →
    t.count (ascii ' ') ≤ laid.count (ascii ' ') ∧
      (laid.count (ascii ' ') = t.count (ascii ' ') → laid = t)
  bytes : ∀ b ∈ laid, b ≠ ascii ' ' → b ∈ t

namespace Laid

theorem refl (t : Text) : Laid t t :=
  ⟨Nat.le_refl _, Nat.le_refl _, fun _ _ => ⟨Nat.le_refl _, fun _ => rfl⟩, fun _ hb _ => hb⟩

theorem trans {t u v : Text} (h : Laid t u) (h' : Laid u v) : Laid t v := by
  refine ⟨Nat.le_trans h'.returns h.returns, Nat.le_trans h'.tabs h.tabs, fun hr ht => ?_,
    fun b hb hne => h.bytes b (h'.bytes b hb hne) hne⟩
  have hreturns := h.returns
  have hreturns' := h'.returns
  have htabs := h.tabs
  have htabs' := h'.tabs
  obtain ⟨hspaces, hsame⟩ := h.spaces (by omega) (by omega)
  obtain ⟨hspaces', hsame'⟩ := h'.spaces (by omega) (by omega)
  refine ⟨Nat.le_trans hspaces hspaces', fun heq => ?_⟩
  rw [hsame' (by omega), hsame (by omega)]

theorem append {t u t' u' : Text} (ht : Laid t t') (hu : Laid u u') : Laid (t ++ u) (t' ++ u') := by
  have hreturns := ht.returns
  have hreturns' := hu.returns
  have htabs := ht.tabs
  have htabs' := hu.tabs
  refine ⟨by simp only [List.count_append]; omega, by simp only [List.count_append]; omega, ?_,
    fun b hb hne => ?_⟩
  · simp only [List.count_append]
    intro hr hs
    obtain ⟨hspaces, hsame⟩ := ht.spaces (by omega) (by omega)
    obtain ⟨hspaces', hsame'⟩ := hu.spaces (by omega) (by omega)
    refine ⟨by omega, fun heq => ?_⟩
    rw [hsame (by omega), hsame' (by omega)]
  · rw [List.mem_append] at hb ⊢
    exact hb.imp (ht.bytes b · hne) (hu.bytes b · hne)

/-- Changes in two parts do not undo each other. -/
theorem append_eq_iff {t u t' u' : Text} (ht : Laid t t') (hu : Laid u u') :
    t' ++ u' = t ++ u ↔ t' = t ∧ u' = u := by
  refine ⟨fun heq => ?_, fun ⟨ht, hu⟩ => by rw [ht, hu]⟩
  have hcount (b : UInt8) : t'.count b + u'.count b = t.count b + u.count b := by
    rw [← List.count_append, ← List.count_append, heq]
  have hr := hcount (ascii '\r')
  have hs := hcount (ascii '\t')
  have hreturns := ht.returns
  have hreturns' := hu.returns
  have htabs := ht.tabs
  have htabs' := hu.tabs
  obtain ⟨hspaces, hsame⟩ := ht.spaces (by omega) (by omega)
  obtain ⟨hspaces', hsame'⟩ := hu.spaces (by omega) (by omega)
  have hspace := hcount (ascii ' ')
  exact ⟨hsame (by omega), hsame' (by omega)⟩

/-- Nor do changes that are made one after the other. -/
theorem trans_eq_iff {t u v : Text} (h : Laid t u) (h' : Laid u v) : v = t ↔ u = t ∧ v = u := by
  refine ⟨?_, fun ⟨hu, hv⟩ => hv.trans hu⟩
  rintro rfl
  have hreturns := h.returns
  have hreturns' := h'.returns
  have htabs := h.tabs
  have htabs' := h'.tabs
  obtain ⟨hspaces, hsame⟩ := h.spaces (by omega) (by omega)
  obtain ⟨hspaces', -⟩ := h'.spaces (by omega) (by omega)
  have heq := hsame (by omega)
  exact ⟨heq, heq.symm⟩

end Laid

/-! ## Tabs -/

theorem replace_singleton (t : Text) (b : UInt8) (r : Text) :
    replace t [b] r = t.replaceByte b r := by
  rw [replace]
  induction t with
  | nil => rfl
  | cons c rest ih =>
    rw [replaceFrom, replaceByte_cons]
    by_cases hc : c = b
    · subst hc
      rw [if_pos (by simp), if_pos rfl]
      exact congrArg (r ++ ·) ih
    · rw [if_neg (by simp [Ne.symm hc]), if_neg hc, ih, List.singleton_append]

theorem count_replaceByte_of_ne {b c : UInt8} (hc : c ≠ b) {r : Text} (hr : c ∉ r) (t : Text) :
    (t.replaceByte b r).count c = t.count c := by
  induction t with
  | nil => rfl
  | cons d rest ih =>
    rw [replaceByte_cons, List.count_append, ih]
    by_cases hd : d = b
    · subst hd
      rw [if_pos rfl, List.count_eq_zero.mpr hr, List.count_cons_of_ne (Ne.symm hc), Nat.zero_add]
    · rw [if_neg hd, ← List.count_append, List.singleton_append]

theorem not_mem_replaceByte {b : UInt8} {r : Text} (hr : b ∉ r) (t : Text) :
    b ∉ t.replaceByte b r := by
  intro hmem
  obtain ⟨c, -, hc⟩ := List.mem_flatMap.mp hmem
  split at hc
  · exact hr hc
  · rename_i hne
    exact hne (List.mem_singleton.mp hc).symm

/-- A text with four spaces for each tab. -/
def untabbed (t : Text) : Text := t.replaceByte (ascii '\t') (utf8 "    ")

theorem untabbed_eq_self_iff {t : Text} : t.untabbed = t ↔ ascii '\t' ∉ t := by
  refine ⟨fun h hmem => ?_, fun h => replaceByte_of_not_mem h _⟩
  rw [← h] at hmem
  exact not_mem_replaceByte (by decide) t hmem

theorem laid_untabbed (t : Text) : Laid t t.untabbed := by
  have hreturns : t.untabbed.count (ascii '\r') = t.count (ascii '\r') :=
    count_replaceByte_of_ne (by decide) (by decide) t
  have htabs : t.untabbed.count (ascii '\t') = 0 :=
    List.count_eq_zero.mpr (not_mem_replaceByte (by decide) t)
  refine ⟨Nat.le_of_eq hreturns, by omega, fun _ hcount => ?_, fun b hb hne => ?_⟩
  · have hsame : t.untabbed = t :=
      untabbed_eq_self_iff.mpr (List.count_eq_zero.mp (hcount.symm.trans htabs))
    exact ⟨by rw [hsame], fun _ => hsame⟩
  · obtain ⟨c, hc, hbc⟩ := List.mem_flatMap.mp hb
    split at hbc
    · rw [show utf8 "    " = List.replicate 4 (ascii ' ') by decide] at hbc
      exact absurd (List.eq_of_mem_replicate hbc) hne
    · rwa [List.mem_singleton.mp hbc]

/-! ## Carriage returns -/

/-- A text with a line feed for each carriage return and line feed. -/
def unreturned (t : Text) : Text := replace t (utf8 "\r\n") (utf8 "\n")

theorem unreturned_of_break (rest : Text) :
    unreturned (ascii '\r' :: ascii '\n' :: rest) = ascii '\n' :: unreturned rest := rfl

theorem unreturned_cons {b : UInt8} {rest : Text}
    (h : (utf8 "\r\n").isPrefixOf (b :: rest) = false) :
    unreturned (b :: rest) = b :: unreturned rest := by
  rw [unreturned, replace, replaceFrom, h, Bool.and_false, if_neg Bool.false_ne_true]
  rfl

/-- Induction over a text, where a carriage return and a line feed behind it are
    one step. -/
theorem breakInduction {motive : Text → Prop} (nil : motive [])
    (pair : ∀ rest, motive rest → motive (ascii '\r' :: ascii '\n' :: rest))
    (byte : ∀ b rest, (utf8 "\r\n").isPrefixOf (b :: rest) = false → motive rest →
      motive (b :: rest)) (t : Text) : motive t := by
  induction hn : t.length using Nat.strongRecOn generalizing t with
  | ind n ih =>
    subst hn
    cases t with
    | nil => exact nil
    | cons b rest =>
      cases h : (utf8 "\r\n").isPrefixOf (b :: rest) with
      | false => exact byte b rest h (ih _ (Nat.lt_succ_self _) rest rfl)
      | true =>
        obtain ⟨more, hmore⟩ := List.isPrefixOf_iff_prefix.mp h
        rw [← hmore] at ih ⊢
        refine pair more (ih _ ?_ more rfl)
        rw [List.length_append]
        exact Nat.lt_add_of_pos_left (by decide)

theorem count_unreturned (t : Text) :
    t.unreturned.count (ascii '\t') = t.count (ascii '\t') ∧
      t.unreturned.count (ascii '\r') ≤ t.count (ascii '\r') ∧
      (t.unreturned.count (ascii '\r') = t.count (ascii '\r') → t.unreturned = t) := by
  induction t using breakInduction with
  | nil => exact ⟨rfl, Nat.le_refl _, fun _ => rfl⟩
  | pair rest ih =>
    obtain ⟨htabs, hreturns, -⟩ := ih
    have hcount : (ascii '\r' :: ascii '\n' :: rest).count (ascii '\r') =
        rest.count (ascii '\r') + 1 := by
      rw [List.count_cons_self, List.count_cons_of_ne (by decide)]
    have hlost : (ascii '\n' :: rest.unreturned).count (ascii '\r') =
        rest.unreturned.count (ascii '\r') := List.count_cons_of_ne (by decide)
    rw [unreturned_of_break, hcount, hlost, List.count_cons_of_ne (by decide), htabs,
      List.count_cons_of_ne (by decide), List.count_cons_of_ne (by decide)]
    exact ⟨rfl, by omega, fun heq => by omega⟩
  | byte b rest hb ih =>
    obtain ⟨htabs, hreturns, hsame⟩ := ih
    rw [unreturned_cons hb]
    simp only [List.count_cons, htabs]
    exact ⟨trivial, by omega, fun heq => by rw [hsame (by omega)]⟩

theorem mem_of_mem_unreturned {t : Text} {b : UInt8} (h : b ∈ t.unreturned) : b ∈ t := by
  induction t using breakInduction with
  | nil => exact h
  | pair rest ih =>
    rw [unreturned_of_break, List.mem_cons] at h
    exact List.mem_cons_of_mem _ (List.mem_cons.mpr (h.imp_right ih))
  | byte c rest hc ih =>
    rw [unreturned_cons hc, List.mem_cons] at h
    exact List.mem_cons.mpr (h.imp_right ih)

theorem laid_unreturned (t : Text) : Laid t t.unreturned := by
  obtain ⟨htabs, hreturns, hsame⟩ := count_unreturned t
  refine ⟨hreturns, Nat.le_of_eq htabs, fun heq _ => ?_, fun b hb _ => mem_of_mem_unreturned hb⟩
  rw [hsame heq]
  exact ⟨Nat.le_refl _, fun _ => rfl⟩

theorem unreturned_eq_self_iff {t : Text} :
    t.unreturned = t ↔ occursIn (utf8 "\r\n") t = false := by
  induction t using breakInduction with
  | nil => exact iff_of_true rfl rfl
  | pair rest ih =>
    have hoccurs : occursIn (utf8 "\r\n") (ascii '\r' :: ascii '\n' :: rest) = true := rfl
    rw [unreturned_of_break, hoccurs]
    exact iff_of_false (fun h => absurd (List.cons.inj h).1 (by decide)) (by decide)
  | byte b rest hb ih =>
    rw [unreturned_cons hb, occursIn, hb, Bool.false_or, ← ih, List.cons_inj_right]

/-! ## Widths -/

/-- A line with spaces behind it, up to a width. -/
def filled (width : Nat) (line : Text) : Text := line ++ spaces (width - line.displayWidth)

theorem laid_filled (width : Nat) (line : Text) : Laid line (filled width line) := by
  have hnone : ∀ b ≠ ascii ' ', (filled width line).count b = line.count b := fun b hb => by
    rw [filled, List.count_append, spaces, List.count_replicate, if_neg (by simpa using hb.symm),
      Nat.add_zero]
  have hspaces : (filled width line).count (ascii ' ') =
      line.count (ascii ' ') + (width - line.displayWidth) := by
    rw [filled, List.count_append, spaces, List.count_replicate_self]
  refine ⟨Nat.le_of_eq (hnone _ (by decide)), Nat.le_of_eq (hnone _ (by decide)), fun _ _ => ?_,
    fun b hb hne => ?_⟩
  · refine ⟨by omega, fun heq => ?_⟩
    rw [filled, show width - line.displayWidth = 0 by omega]
    exact List.append_nil _
  · exact (List.mem_append.mp hb).resolve_right fun hmem => hne (List.eq_of_mem_replicate hmem)

theorem filled_eq_self_iff {width : Nat} {line : Text} :
    filled width line = line ↔ width ≤ line.displayWidth := by
  rw [filled, List.append_right_eq_self, spaces, List.replicate_eq_nil_iff]
  omega

/-- Filling up lines, as a change of the text that they make up. -/
theorem laid_join_filled (width : Nat) (ls : List Text) :
    Laid (join [ascii '\n'] ls) (join [ascii '\n'] (ls.map (filled width))) ∧
      (join [ascii '\n'] (ls.map (filled width)) = join [ascii '\n'] ls ↔
        ∀ l ∈ ls, width ≤ l.displayWidth) := by
  induction ls with
  | nil => exact ⟨.refl _, iff_of_true rfl (List.forall_mem_nil _)⟩
  | cons l rest ih =>
    have hfirst := laid_filled width l
    cases rest with
    | nil => exact ⟨hfirst, by rw [List.forall_mem_singleton]; exact filled_eq_self_iff⟩
    | cons next rest =>
      obtain ⟨hrest, hsame⟩ := ih
      have hmore := (Laid.refl [ascii '\n']).append hrest
      rw [List.map_cons, List.map_cons, join_cons_cons, join_cons_cons, ← List.map_cons]
      refine ⟨hfirst.append hmore, (hfirst.append_eq_iff hmore).trans ?_⟩
      simp only [List.append_cancel_left_eq, hsame, filled_eq_self_iff, List.forall_mem_cons]

/-- The width of the widest line. -/
def widest (ls : List Text) : Nat := (ls.map displayWidth).foldl max 0

theorem widest_le_iff {ls : List Text} {n : Nat} :
    widest ls ≤ n ↔ ∀ l ∈ ls, l.displayWidth ≤ n := by
  have hfold : ∀ (ws : List Nat) (least : Nat), ws.foldl max least ≤ n ↔
      least ≤ n ∧ ∀ w ∈ ws, w ≤ n := by
    intro ws
    induction ws with
    | nil => simp
    | cons w rest ih =>
      intro least
      rw [List.foldl_cons, ih, Nat.max_le, List.forall_mem_cons, and_assoc]
  rw [widest, hfold, List.forall_mem_map]
  simp

/-- A text as a style lays it out. -/
def laidOut (t : Text) : Text :=
  let ls := split (ascii '\n') t.untabbed.unreturned
  join [ascii '\n'] (ls.map (filled (widest ls)))

theorem laid_laidOut (t : Text) : Laid t t.laidOut := by
  refine ((laid_untabbed t).trans (laid_unreturned _)).trans ?_
  have hfilled := (laid_join_filled (widest (split (ascii '\n') t.untabbed.unreturned))
    (split (ascii '\n') t.untabbed.unreturned)).1
  rwa [join_split] at hfilled

/-- A text with nothing to lay out. -/
structure IsLevel (t : Text) : Prop where
  tabs : ascii '\t' ∉ t
  returns : occursIn (utf8 "\r\n") t = false
  widths : ∀ l ∈ split (ascii '\n') t, ∀ m ∈ split (ascii '\n') t,
    l.displayWidth ≤ m.displayWidth

theorem laidOut_eq_self_iff {t : Text} : t.laidOut = t ↔ t.IsLevel := by
  have hlevel : t.IsLevel ↔ (t.untabbed = t ∧ t.unreturned = t) ∧
      ∀ m ∈ split (ascii '\n') t, widest (split (ascii '\n') t) ≤ m.displayWidth := by
    rw [untabbed_eq_self_iff, unreturned_eq_self_iff]
    simp only [widest_le_iff]
    exact ⟨fun h => ⟨⟨h.tabs, h.returns⟩, fun m hm l hl => h.widths l hl m hm⟩,
      fun h => ⟨h.1.1, h.1.2, fun l hl m hm => h.2 m hm l hl⟩⟩
  have hbefore := (laid_untabbed t).trans (laid_unreturned _)
  have hfilled := laid_join_filled (widest (split (ascii '\n') t.untabbed.unreturned))
    (split (ascii '\n') t.untabbed.unreturned)
  rw [join_split] at hfilled
  rw [hlevel, laidOut, hbefore.trans_eq_iff hfilled.1, hfilled.2,
    (laid_untabbed t).trans_eq_iff (laid_unreturned _)]
  constructor
  · rintro ⟨⟨htabs, hreturns⟩, hwidths⟩
    rw [htabs] at hreturns hwidths
    rw [hreturns] at hwidths
    exact ⟨⟨htabs, hreturns⟩, hwidths⟩
  · rintro ⟨⟨htabs, hreturns⟩, hwidths⟩
    rw [htabs, hreturns]
    exact ⟨⟨rfl, rfl⟩, hwidths⟩

end Text

end MixinCss
