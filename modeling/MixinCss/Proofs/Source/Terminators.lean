/-
  MixinCss.Proofs.Source.Terminators

  Lines and columns by counting. A line ends with a line feed, with a carriage
  return, or with a carriage return and a line feed together (`Text.Terminator`).
  The table of lines has the start of the text and the ends of all terminators,
  in increasing order. So the line of a place counts the terminators in front of
  it, and its column the characters behind the last of them
  (`Source.pos_counts_terminators`).
-/

import Mathlib.Data.Set.Card
import Mathlib.Order.Bounds.Basic
import MixinCss.Proofs.Source.Lines

namespace MixinCss

namespace Text

/-! ## Terminators -/

/-- The end of a line stands in a text from one offset to another. -/
inductive Terminator (t : Text) : Nat → Nat → Prop where
  | pair {i : Nat} (hreturn : t[i]? = some (ascii '\r')) (hfeed : t[i + 1]? = some (ascii '\n')) :
      Terminator t i (i + 2)
  | loneReturn {i : Nat} (hreturn : t[i]? = some (ascii '\r'))
      (hfeed : t[i + 1]? ≠ some (ascii '\n')) : Terminator t i (i + 1)
  | loneFeed {i : Nat} (hfeed : t[i]? = some (ascii '\n'))
      (hreturn : ∀ k, k + 1 = i → t[k]? ≠ some (ascii '\r')) : Terminator t i (i + 1)

/-- The terminators that end at or before an offset. -/
def terminatorsUpTo (t : Text) (offset : Nat) : Set (Nat × Nat) :=
  {span | Terminator t span.1 span.2 ∧ span.2 ≤ offset}

/-- Terminators do not overlap: no two of them have one end. -/
theorem Terminator.start_eq {t : Text} {i i' j : Nat} (h : Terminator t i j)
    (h' : Terminator t i' j) : i = i' := by
  have hne : ascii '\r' ≠ ascii '\n' := by decide
  cases h with
  | pair hreturn hfeed =>
    cases h' with
    | pair => rfl
    | loneReturn hreturn' =>
      rw [hfeed] at hreturn'
      exact absurd (Option.some.inj hreturn').symm hne
    | loneFeed _ hnone => exact absurd hreturn (hnone i rfl)
  | loneReturn hreturn hnone =>
    cases h' with
    | pair hreturn' hfeed' =>
      rw [hreturn] at hfeed'
      exact absurd (Option.some.inj hfeed') hne
    | loneReturn => rfl
    | loneFeed => rfl
  | loneFeed hfeed hnone =>
    cases h' with
    | pair hreturn' hfeed' => exact absurd hreturn' (hnone _ rfl)
    | loneReturn => rfl
    | loneFeed => rfl

theorem breaks_drop_iff {t : Text} {k : Nat} :
    breaks (t.drop k) = true ↔
      t[k]? = some (ascii '\n') ∨ t[k]? = some (ascii '\r') ∧ t[k + 1]? ≠ some (ascii '\n') := by
  rw [← List.head?_drop, ← List.head?_drop, ← List.tail_drop]
  cases t.drop k with
  | nil => simp [breaks]
  | cons b rest => simp [breaks]

/-- A terminator ends behind each byte that breaks the line. -/
theorem exists_terminator_iff {t : Text} {j : Nat} :
    (∃ i, Terminator t i j) ↔ ∃ k, j = k + 1 ∧ breaks (t.drop k) = true := by
  simp only [breaks_drop_iff]
  constructor
  · rintro ⟨i, hterm⟩
    cases hterm with
    | pair _ hfeed => exact ⟨i + 1, rfl, .inl hfeed⟩
    | loneReturn hreturn hfeed => exact ⟨i, rfl, .inr ⟨hreturn, hfeed⟩⟩
    | loneFeed hfeed => exact ⟨i, rfl, .inl hfeed⟩
  · rintro ⟨k, rfl, hfeed | ⟨hreturn, hfeed⟩⟩
    · -- A line feed ends its terminator, which may begin one byte earlier.
      by_cases hpair : ∃ i, i + 1 = k ∧ t[i]? = some (ascii '\r')
      · obtain ⟨i, rfl, hreturn⟩ := hpair
        exact ⟨i, .pair hreturn hfeed⟩
      · exact ⟨k, .loneFeed hfeed fun i hi hreturn => hpair ⟨i, hi, hreturn⟩⟩
    · exact ⟨k, .loneReturn hreturn hfeed⟩

end Text

/-! ## The table of lines -/

theorem mem_lineStartsFrom {offset start : Nat} {t : Text} :
    start ∈ lineStartsFrom offset t ↔
      ∃ k, start = offset + (k + 1) ∧ Text.breaks (t.drop k) = true := by
  induction t generalizing offset with
  | nil => simp [lineStartsFrom, Text.breaks]
  | cons b rest ih =>
    have hrest : start ∈ lineStartsFrom (offset + 1) rest ↔
        ∃ k, start = offset + (k + 1 + 1) ∧ Text.breaks ((b :: rest).drop (k + 1)) = true :=
      ih.trans (exists_congr fun k => and_congr_left fun _ => by omega)
    rw [lineStartsFrom_cons, ← Nat.or_exists_add_one, ← hrest, List.drop_zero]
    cases Text.breaks (b :: rest) with
    | true => simp
    | false => simp

theorem pairwise_lineStartsFrom (offset : Nat) (t : Text) :
    (lineStartsFrom offset t).Pairwise (· < ·) := by
  induction t generalizing offset with
  | nil => exact .nil
  | cons b rest ih =>
    rw [lineStartsFrom_cons]
    split
    · exact List.pairwise_cons.mpr ⟨fun start h => lt_of_mem_lineStartsFrom h, ih _⟩
    · exact ih _

theorem pairwise_startsOfLines (t : Text) : (startsOfLines t).Pairwise (· < ·) :=
  List.pairwise_cons.mpr ⟨fun _ h => lt_of_mem_lineStartsFrom h, pairwise_lineStartsFrom 0 t⟩

/-- Lines start at the ends of the terminators. -/
theorem mem_lineStartsFrom_zero {t : Text} {start : Nat} :
    start ∈ lineStartsFrom 0 t ↔ ∃ i, Text.Terminator t i start := by
  simp only [mem_lineStartsFrom, Text.exists_terminator_iff, Nat.zero_add]

theorem le_length_of_mem_startsOfLines {t : Text} {start : Nat} (h : start ∈ startsOfLines t) :
    start ≤ t.length := by
  rcases List.mem_cons.mp h with rfl | h
  · exact Nat.zero_le _
  · obtain ⟨k, rfl, hbreaks⟩ := mem_lineStartsFrom.mp h
    by_contra hlong
    rw [List.drop_eq_nil_of_le (by omega)] at hbreaks
    cases hbreaks

/-! ## Places -/

/-- Among increasing numbers, those up to a bound stand in front. -/
theorem takeWhile_le_eq_filter {l : List Nat} (h : l.Pairwise (· < ·)) (bound : Nat) :
    l.takeWhile (· ≤ bound) = l.filter (· ≤ bound) := by
  induction l with
  | nil => rfl
  | cons n l ih =>
    obtain ⟨hn, hl⟩ := List.pairwise_cons.mp h
    by_cases hle : n ≤ bound
    · rw [List.takeWhile_cons_of_pos (by simpa using hle),
        List.filter_cons_of_pos (by simpa using hle), ih hl]
    · have hnone : ∀ m ∈ l, ¬ m ≤ bound := fun m hm => by
        have := hn m hm
        omega
      rw [List.takeWhile_cons_of_neg (by simpa using hle),
        List.filter_cons_of_neg (by simpa using hle)]
      simpa using hnone

/-- The last of increasing numbers is the greatest. -/
theorem isGreatest_getLast {l : List Nat} (h : l.Pairwise (· < ·)) {last : Nat}
    (hlast : last ∈ l.getLast?) : IsGreatest {n | n ∈ l} last := by
  obtain ⟨front, rfl⟩ := List.getLast?_eq_some_iff.mp hlast
  refine ⟨List.mem_append_right _ (List.mem_singleton.mpr rfl), fun n hn => ?_⟩
  rcases List.mem_append.mp hn with hn | hn
  · exact Nat.le_of_lt ((List.pairwise_append.mp h).2.2 n hn last (List.mem_singleton.mpr rfl))
  · exact Nat.le_of_eq (List.mem_singleton.mp hn)

/-- The lines that start up to an offset. -/
theorem takeWhile_startsOfLines (t : Text) (offset : Nat) :
    (startsOfLines t).takeWhile (· ≤ offset) = 0 :: (lineStartsFrom 0 t).filter (· ≤ offset) := by
  rw [takeWhile_le_eq_filter (pairwise_startsOfLines t), startsOfLines,
    List.filter_cons_of_pos (by simp)]

namespace Text

theorem ends_terminatorsUpTo (t : Text) (offset : Nat) :
    Set.image Prod.snd (terminatorsUpTo t offset) =
      {j | j ∈ (lineStartsFrom 0 t).filter (· ≤ offset)} := by
  ext j
  simp only [terminatorsUpTo, Set.mem_image, Set.mem_ofPred_eq, Prod.exists, exists_eq_right,
    List.mem_filter, mem_lineStartsFrom_zero, decide_eq_true_eq, exists_and_right]

theorem ncard_terminatorsUpTo (t : Text) (offset : Nat) :
    (terminatorsUpTo t offset).ncard = ((lineStartsFrom 0 t).filter (· ≤ offset)).length := by
  have hdistinct : Set.InjOn Prod.snd (terminatorsUpTo t offset) := by
    rintro ⟨i, j⟩ ⟨hi, -⟩ ⟨i', j'⟩ ⟨hi', -⟩ rfl
    exact Prod.ext (hi.start_eq hi') rfl
  have hnodup : ((lineStartsFrom 0 t).filter (· ≤ offset)).Nodup :=
    ((pairwise_lineStartsFrom 0 t).imp Nat.ne_of_lt).filter _
  rw [← hdistinct.ncard_image, ends_terminatorsUpTo, ← List.coe_toFinset, Set.ncard_coe_finset,
    List.toFinset_card_of_nodup hnodup]

/-- The line of an offset starts where the last terminator in front of it ends. -/
theorem isGreatest_lineStart (t : Text) (offset : Nat) :
    IsGreatest (insert 0 (Set.image Prod.snd (terminatorsUpTo t offset)))
      (((lineStartsFrom 0 t).filter (· ≤ offset)).getLast?.getD 0) := by
  have hincreasing : (0 :: (lineStartsFrom 0 t).filter (· ≤ offset)).Pairwise (· < ·) :=
    takeWhile_startsOfLines t offset ▸
      (pairwise_startsOfLines t).sublist (List.takeWhile_sublist _)
  have hstarts : insert 0 (Set.image Prod.snd (terminatorsUpTo t offset)) =
      {j | j ∈ 0 :: (lineStartsFrom 0 t).filter (· ≤ offset)} := by
    ext j
    rw [ends_terminatorsUpTo, Set.mem_insert_iff, Set.mem_ofPred_eq, Set.mem_ofPred_eq,
      List.mem_cons]
  rw [hstarts]
  exact isGreatest_getLast hincreasing List.getLast?_cons

end Text

namespace Source

/-- The line of a place is one more than the terminators that end at or before it.
    Its column is one more than the characters between the end of the last of
    these, or the start of the text, and the place. The table in which lines are
    looked up begins with zero, increases, and stays in the text. -/
theorem pos_counts_terminators (src : Text) (offset : Nat) :
    (∃ start, IsGreatest (insert 0 (Set.image Prod.snd (Text.terminatorsUpTo src offset))) start ∧
      (ofText src).pos offset =
        ⟨offset, 1 + (Text.terminatorsUpTo src offset).ncard,
          1 + Text.runeCount ((src.take offset).drop start)⟩) ∧
    (startsOfLines src).head? = some 0 ∧ (startsOfLines src).Pairwise (· < ·) ∧
      ∀ last ∈ (startsOfLines src).getLast?, last ≤ src.length := by
  refine ⟨⟨_, Text.isGreatest_lineStart src offset, ?_⟩, rfl, pairwise_startsOfLines src,
    fun last hlast => le_length_of_mem_startsOfLines (List.mem_of_getLast? hlast)⟩
  unfold pos ofText
  dsimp only
  rw [takeWhile_startsOfLines, List.getLast?_cons, Option.getD_some, List.length_cons,
    Text.ncard_terminatorsUpTo, List.drop_take, Nat.max_eq_right (Nat.le_add_left 1 _),
    Nat.add_comm 1, Nat.add_comm 1]

-- Between the two bytes of one terminator, and behind the next one.
example : (ofText (utf8 "a\r\n\rb")).pos 2 = ⟨2, 1, 3⟩ := by cbv
example : (ofText (utf8 "a\r\n\rb")).pos 4 = ⟨4, 3, 1⟩ := by cbv

end Source

end MixinCss
