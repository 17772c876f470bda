/-
  MixinCss.Proofs.Text.Order

  Byte order. `Text.before` is a strict linear order, so sorted texts from which
  repetitions are taken out are strictly increasing, and nothing but repetitions
  is lost.
-/

import MixinCss.Text.Basic

namespace MixinCss.Text

/-! ## The order -/

theorem before_irrefl (a : Text) : before a a = false := by
  induction a with
  | nil => rfl
  | cons x a ih => simp [before, ih]

theorem before_trans {a b c : Text} (hab : before a b = true) (hbc : before b c = true) :
    before a c = true := by
  induction a generalizing b c with
  | nil =>
    cases c with
    | nil => cases b <;> cases hbc
    | cons z c => rfl
  | cons x a ih =>
    cases b with
    | nil => cases hab
    | cons y b =>
      cases c with
      | nil => cases hbc
      | cons z c =>
        simp only [before] at hab hbc ⊢
        split at hab
        · rename_i hxy
          subst hxy
          split at hbc
          · rename_i hyz
            rw [if_pos hyz]
            exact ih hab hbc
          · rename_i hyz
            rw [if_neg hyz]
            exact hbc
        · rename_i hxy
          have hlt : x < y := of_decide_eq_true hab
          split at hbc
          · rename_i hyz
            subst hyz
            rw [if_neg hxy]
            exact hab
          · have hlt' : y < z := of_decide_eq_true hbc
            have hxz : x < z := UInt8.lt_trans hlt hlt'
            rw [if_neg (UInt8.ne_of_lt hxz)]
            exact decide_eq_true hxz

theorem before_trichotomy (a b : Text) : before a b = true ∨ a = b ∨ before b a = true := by
  induction a generalizing b with
  | nil =>
    cases b with
    | nil => exact .inr (.inl rfl)
    | cons y b => exact .inl rfl
  | cons x a ih =>
    cases b with
    | nil => exact .inr (.inr rfl)
    | cons y b =>
      by_cases hxy : x = y
      · subst hxy
        simpa [before] using ih b
      · have hcases : x < y ∨ y < x := by
          rcases Nat.lt_or_gt_of_ne (fun h => hxy (UInt8.toNat_inj.mp h)) with h | h
          · exact .inl (UInt8.lt_iff_toNat_lt.mpr h)
          · exact .inr (UInt8.lt_iff_toNat_lt.mpr h)
        simp only [before, if_neg hxy, if_neg (Ne.symm hxy), decide_eq_true_eq]
        exact hcases.imp_right .inr

/-- Byte order is the lexicographic order of the bytes. -/
theorem before_iff_lex {a b : Text} : before a b = true ↔ List.Lex (· < ·) a b := by
  induction a generalizing b with
  | nil =>
    cases b with
    | nil => exact iff_of_false Bool.false_ne_true List.not_lex_nil
    | cons y b => exact iff_of_true rfl .nil
  | cons x a ih =>
    cases b with
    | nil => exact iff_of_false Bool.false_ne_true List.not_lex_nil
    | cons y b =>
      rw [before, List.cons_lex_cons_iff]
      split
      · rename_i hxy
        rw [ih, hxy]
        simp
      · rename_i hxy
        simp [hxy]

theorem notAfter_iff_not_before {a b : Text} : notAfter a b = true ↔ ¬ before b a = true := by
  rw [notAfter, Bool.not_eq_true', Bool.not_eq_true]

theorem notAfter_iff {a b : Text} : notAfter a b = true ↔ before a b = true ∨ a = b := by
  unfold notAfter
  rw [Bool.not_eq_true']
  constructor
  · intro hba
    rcases before_trichotomy a b with h | h | h
    · exact .inl h
    · exact .inr h
    · rw [h] at hba
      cases hba
  · rintro (hab | rfl)
    · cases hba : before b a with
      | false => rfl
      | true => exact absurd (before_trans hab hba) (by simp [before_irrefl])
    · exact before_irrefl a

theorem notAfter_trans (a b c : Text) (hab : notAfter a b = true) (hbc : notAfter b c = true) :
    notAfter a c = true := by
  rw [notAfter_iff] at hab hbc ⊢
  rcases hab with hab | rfl
  · rcases hbc with hbc | rfl
    · exact .inl (before_trans hab hbc)
    · exact .inl hab
  · exact hbc

theorem notAfter_total (a b : Text) : (notAfter a b || notAfter b a) = true := by
  rw [Bool.or_eq_true, notAfter_iff, notAfter_iff]
  rcases before_trichotomy a b with h | h | h
  · exact .inl (.inl h)
  · exact .inl (.inr h)
  · exact .inr (.inl h)

/-! ## Texts in order, each once -/

theorem mem_sort {x : Text} {texts : List Text} : x ∈ sort texts ↔ x ∈ texts :=
  List.mem_mergeSort

theorem pairwise_sort (texts : List Text) : (sort texts).Pairwise fun a b => notAfter a b = true :=
  List.pairwise_mergeSort notAfter_trans notAfter_total texts

theorem mem_eraseRepsBy_loop {a x : Text} {as acc : List Text} :
    x ∈ List.eraseRepsBy.loop (· == ·) a as acc ↔ x ∈ a :: as ∨ x ∈ acc := by
  induction as generalizing a acc with
  | nil =>
    rw [List.eraseRepsBy.loop, List.mem_reverse, List.mem_cons, List.mem_singleton]
  | cons b as ih =>
    rw [List.eraseRepsBy.loop]
    split
    · rename_i hsame
      have hab : a = b := eq_of_beq hsame
      rw [ih, hab, List.mem_cons, List.mem_cons, List.mem_cons, or_self_left]
    · rw [ih, List.mem_cons, List.mem_cons, List.mem_cons, List.mem_cons]
      grind

theorem mem_eraseReps {x : Text} {texts : List Text} : x ∈ texts.eraseReps ↔ x ∈ texts := by
  cases texts with
  | nil => rfl
  | cons a as =>
    rw [List.eraseReps, List.eraseRepsBy, mem_eraseRepsBy_loop]
    simp

theorem pairwise_reverse_cons {a : Text} {acc : List Text}
    (hacc : acc.reverse.Pairwise fun a b => before a b = true)
    (hbefore : ∀ x ∈ acc, before x a = true) :
    (a :: acc).reverse.Pairwise fun a b => before a b = true := by
  rw [List.reverse_cons, List.pairwise_append]
  refine ⟨hacc, List.pairwise_singleton _ _, ?_⟩
  intro x hx y hy
  rw [List.mem_singleton.mp hy]
  exact hbefore x (List.mem_reverse.mp hx)

/-- The loop keeps, in reverse, the texts that it has passed, all of them before
    the one at which it stands. -/
theorem pairwise_eraseRepsBy_loop {a : Text} {as acc : List Text}
    (hacc : acc.reverse.Pairwise fun a b => before a b = true)
    (hbefore : ∀ x ∈ acc, before x a = true)
    (hsorted : (a :: as).Pairwise fun a b => notAfter a b = true) :
    (List.eraseRepsBy.loop (· == ·) a as acc).Pairwise fun a b => before a b = true := by
  induction as generalizing a acc with
  | nil =>
    rw [List.eraseRepsBy.loop]
    exact pairwise_reverse_cons hacc hbefore
  | cons b as ih =>
    rw [List.eraseRepsBy.loop]
    split
    · have hrest : (a :: as).Pairwise fun a b => notAfter a b = true :=
        hsorted.sublist ((List.sublist_cons_self b as).cons_cons a)
      exact ih hacc hbefore hrest
    · rename_i hdiffer
      have hne : a ≠ b := by
        rintro rfl
        simp at hdiffer
      have hab : before a b = true :=
        (notAfter_iff.mp (List.rel_of_pairwise_cons hsorted List.mem_cons_self)).resolve_right hne
      refine ih (pairwise_reverse_cons hacc hbefore) ?_ hsorted.tail
      intro x hx
      rcases List.mem_cons.mp hx with rfl | hx
      · exact hab
      · exact before_trans (hbefore x hx) hab

/-- Sorted texts without repetitions are strictly increasing. -/
theorem pairwise_eraseReps_sort (texts : List Text) :
    (sort texts).eraseReps.Pairwise fun a b => before a b = true := by
  have hsorted := pairwise_sort texts
  cases h : sort texts with
  | nil => exact .nil
  | cons a as =>
    rw [h] at hsorted
    exact pairwise_eraseRepsBy_loop .nil (by simp) hsorted

end MixinCss.Text
