/-
  MixinCss.Proofs.Sorted

  Lists in the order of a key. A sort is stable if elements with one key keep
  the order in which they came. A list has only one stable sort
  (`StablySorted.unique`), and merging gives it (`stablySorted_mergeSort`). If
  the keys tell the elements apart, the order in which they came does not matter
  (`eq_of_ordered_of_perm`). Of a sorted list the front is shown, as far as a
  limit lets it through.
-/

import Mathlib.Data.Prod.Basic
import Mathlib.Order.RelClasses
import MixinCss.Proofs.Text.Order

namespace MixinCss

/-! ## Limits -/

/-- How many of `size` elements a limit lets through; all unless it is positive. -/
def withinLimit (limit : Int) (size : Nat) : Nat :=
  if limit ≤ 0 then size else min size limit.toNat

theorem withinLimit_le (limit : Int) (size : Nat) : withinLimit limit size ≤ size := by
  unfold withinLimit
  split <;> omega

theorem withinLimit_mono {limit limit' : Int} (hpos : 0 < limit) (hle : limit ≤ limit')
    (size : Nat) : withinLimit limit size ≤ withinLimit limit' size := by
  rw [withinLimit, withinLimit, if_neg (by omega), if_neg (by omega)]
  omega

/-! ## Orders of keys -/

instance : IsStrictTotalOrder Text (List.Lex (· < ·)) where
  trichotomous a b hab hba := by
    rw [← Text.before_iff_lex] at hab hba
    exact ((Text.before_trichotomy a b).resolve_left hab).resolve_right hba
  irrefl a := by
    rw [← Text.before_iff_lex, Text.before_irrefl]
    exact Bool.false_ne_true
  trans a b c := by
    rw [← Text.before_iff_lex, ← Text.before_iff_lex, ← Text.before_iff_lex]
    exact Text.before_trans

/-- Pairs by one key and then by another. -/
theorem isStrictTotalOrder_lex {α β : Type} (r : α → α → Prop) (s : β → β → Prop)
    [IsStrictTotalOrder α r] [IsStrictTotalOrder β s] :
    IsStrictTotalOrder (α × β) (Prod.Lex r s) where

/-! ## Lists in order -/

section Ordered

variable {α κ : Type} {key : α → κ} {before : κ → κ → Prop}

/-- No element of a list in order has a key before that of the head. -/
theorem not_before_head {b : α} {t : List α}
    (h : (b :: t).Pairwise fun a b => ¬ before (key b) (key a)) {a : α} (ha : a ∈ b :: t) :
    key a = key b ∨ ¬ before (key a) (key b) := by
  rcases List.mem_cons.mp ha with rfl | ha
  · exact .inl rfl
  · exact .inr (List.rel_of_pairwise_cons h ha)

/-- Lists in order that have the same elements are equal, if the keys tell these
    apart. -/
theorem eq_of_ordered_of_perm [Std.Trichotomous before] {s t : List α}
    (hs : s.Pairwise fun a b => ¬ before (key b) (key a))
    (ht : t.Pairwise fun a b => ¬ before (key b) (key a)) (hperm : s.Perm t)
    (hkeys : ∀ a ∈ s, ∀ b ∈ s, key a = key b → a = b) : s = t := by
  refine List.Perm.eq_of_pairwise (fun a b ha hb hba hab => ?_) hs ht hperm
  refine hkeys a ha b (hperm.mem_iff.mpr hb) ?_
  exact Std.Trichotomous.trichotomous (r := before) _ _ hab hba

end Ordered

/-! ## Stable sorts -/

section Stable

variable {α κ : Type} [DecidableEq κ] {key : α → κ} {before : κ → κ → Prop}

/-- A list in the order of its keys, where the elements with one key keep the
    order in which they came. -/
structure StablySorted (key : α → κ) (before : κ → κ → Prop) (l sorted : List α) : Prop where
  perm : sorted.Perm l
  ordered : sorted.Pairwise fun a b => ¬ before (key b) (key a)
  stable : ∀ k, sorted.filter (fun a => key a = k) = l.filter (fun a => key a = k)

namespace StablySorted

theorem mem_of_filter_eq {s t : List α}
    (h : ∀ k, s.filter (fun a => key a = k) = t.filter (fun a => key a = k)) {a : α}
    (ha : a ∈ s) : a ∈ t := by
  have hmem : a ∈ s.filter (fun b => key b = key a) :=
    List.mem_filter.mpr ⟨ha, decide_eq_true rfl⟩
  rw [h] at hmem
  exact (List.mem_filter.mp hmem).1

/-- A list in order is determined by what it has for each key. -/
theorem eq_of_filter_eq [Std.Trichotomous before] {s t : List α}
    (hs : s.Pairwise fun a b => ¬ before (key b) (key a))
    (ht : t.Pairwise fun a b => ¬ before (key b) (key a))
    (h : ∀ k, s.filter (fun a => key a = k) = t.filter (fun a => key a = k)) : s = t := by
  induction s generalizing t with
  | nil =>
    cases t with
    | nil => rfl
    | cons b t =>
      exact absurd (mem_of_filter_eq (fun k => (h k).symm) List.mem_cons_self) List.not_mem_nil
  | cons a s ih =>
    cases t with
    | nil => exact absurd (mem_of_filter_eq h List.mem_cons_self) List.not_mem_nil
    | cons b t =>
      -- Each head stands in the other list, so neither key comes before the other.
      have hkey : key a = key b := by
        rcases not_before_head ht (mem_of_filter_eq h List.mem_cons_self) with heq | hab
        · exact heq
        rcases not_before_head hs (mem_of_filter_eq (fun k => (h k).symm) List.mem_cons_self)
          with heq | hba
        · exact heq.symm
        · exact Std.Trichotomous.trichotomous (r := before) _ _ hab hba
      have hheads := h (key b)
      rw [List.filter_cons, if_pos (by simpa using hkey), List.filter_cons,
        if_pos (by simp)] at hheads
      obtain ⟨rfl, hrest⟩ := List.cons.inj hheads
      refine congrArg (a :: ·) (ih hs.tail ht.tail fun k => ?_)
      by_cases hk : key a = k
      · rw [← hk]
        exact hrest
      · have hothers := h k
        rwa [List.filter_cons, if_neg (by simpa using hk), List.filter_cons,
          if_neg (by simpa using hk)] at hothers

theorem unique [Std.Trichotomous before] {l s t : List α} (hs : StablySorted key before l s)
    (ht : StablySorted key before l t) : s = t :=
  eq_of_filter_eq hs.ordered ht.ordered fun k => (hs.stable k).trans (ht.stable k).symm

end StablySorted

/-- Merging sorts stably, if the test holds where one key is not behind the other. -/
theorem stablySorted_mergeSort [IsStrictTotalOrder κ before] {le : α → α → Bool}
    (hle : ∀ a b, le a b = true ↔ ¬ before (key b) (key a)) (l : List α) :
    StablySorted key before l (l.mergeSort le) := by
  have htrans : ∀ a b c, le a b = true → le b c = true → le a c = true := by
    simp only [hle]
    intro a b c hba hcb hca
    exact hba (trans_trichotomous_left hcb hca)
  have htotal : ∀ a b, (le a b || le b a) = true := by
    intro a b
    rw [Bool.or_eq_true, hle, hle, ← not_and_or]
    exact fun h => asymm h.1 h.2
  refine ⟨List.mergeSort_perm l le,
    (List.pairwise_mergeSort htrans htotal l).imp fun h => (hle _ _).mp h, fun k => ?_⟩
  -- The elements with one key are sorted as they came, and a sort keeps sorted sublists.
  have hsame : (l.filter fun a => key a = k).Pairwise fun a b => le a b = true := by
    refine List.pairwise_of_forall_mem_list fun a ha b hb => ?_
    have hak : key a = k := by simpa using (List.mem_filter.mp ha).2
    have hbk : key b = k := by simpa using (List.mem_filter.mp hb).2
    rw [hle, hak, hbk]
    exact irrefl k
  have hkept := List.sublist_mergeSort htrans htotal hsame List.filter_sublist
  have hkept' := hkept.filter fun a => key a = k
  simp only [List.filter_filter, Bool.and_self] at hkept'
  exact (hkept'.eq_of_length ((List.mergeSort_perm l le).filter _).length_eq.symm).symm

end Stable

end MixinCss
