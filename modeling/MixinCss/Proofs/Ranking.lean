/-
  MixinCss.Proofs.Ranking

  The mixins that are called most. Counts are a map, which can be listed in any
  order, but they have one ranking, by count and then by name: since no name
  stands in it twice, no two entries have one rank. So every sort gives it,
  stable or not, whatever order it begins with (`Usage.isRanking_of_ordered`).
  The most used mixins are the front of it (`Usage.top_front_of_ranking`).
-/

import Mathlib.Data.Finmap
import MixinCss.Check
import MixinCss.Proofs.Sorted

namespace MixinCss

namespace Usage

/-- How often each name is called. -/
abbrev Counts := Finmap fun _ : Text => Nat

/-- A list of all counts: it has each name once, with its count. -/
structure Lists (u : Usage) (counts : Counts) : Prop where
  nodup : (u.map Prod.fst).Nodup
  mem_iff : ∀ name n, (name, n) ∈ u ↔ counts.lookup name = some n

namespace Lists

variable {counts : Counts} {u v : Usage}

theorem perm (hu : Lists u counts) (hv : Lists v counts) : u.Perm v := by
  refine (List.perm_ext_iff_of_nodup hu.nodup.of_map hv.nodup.of_map).mpr fun entry => ?_
  exact (hu.mem_iff entry.1 entry.2).trans (hv.mem_iff entry.1 entry.2).symm

theorem of_perm (hu : Lists u counts) (hperm : v.Perm u) : Lists v counts :=
  ⟨(hperm.map Prod.fst).nodup_iff.mpr hu.nodup,
    fun name n => hperm.mem_iff.trans (hu.mem_iff name n)⟩

theorem length_eq (hu : Lists u counts) : u.length = counts.keys.card := by
  have hkeys : counts.keys = (u.map Prod.fst).toFinset := by
    ext name
    rw [Finmap.mem_keys, Finmap.mem_iff, List.mem_toFinset, List.mem_map]
    constructor
    · rintro ⟨n, hn⟩
      exact ⟨(name, n), (hu.mem_iff name n).mpr hn, rfl⟩
    · rintro ⟨entry, hentry, rfl⟩
      exact ⟨entry.2, (hu.mem_iff _ _).mp hentry⟩
  rw [hkeys, List.toFinset_card_of_nodup hu.nodup, List.length_map]

end Lists

theorem exists_lists (counts : Counts) : ∃ u : Usage, Lists u counts := by
  induction counts using Finmap.induction_on with
  | H entries =>
    refine ⟨entries.entries.map fun e => (e.1, e.2), ?_, fun name n => ?_⟩
    · rw [List.map_map]
      exact entries.nodupKeys
    · rw [Finmap.lookup_toFinmap, ← Option.mem_def, AList.mem_lookup_iff, List.mem_map]
      constructor
      · rintro ⟨e, he, heq⟩
        cases heq
        exact he
      · exact fun he => ⟨⟨name, n⟩, he, rfl⟩

/-- Every list without a repeated name lists some counts. -/
theorem exists_counts {u : Usage} (hnodup : (u.map Prod.fst).Nodup) :
    ∃ counts : Counts, Lists u counts := by
  let entries : List (Sigma fun _ : Text => Nat) := u.map fun e => ⟨e.1, e.2⟩
  have hkeys : entries.NodupKeys := by
    change (entries.map Sigma.fst).Nodup
    rw [List.map_map]
    exact hnodup
  refine ⟨entries.toFinmap, hnodup, fun name n => ?_⟩
  rw [Finmap.dlookup_list_toFinmap, ← Option.mem_def, List.mem_dlookup_iff hkeys, List.mem_map]
  constructor
  · exact fun he => ⟨(name, n), he, rfl⟩
  · rintro ⟨e, he, heq⟩
    cases heq
    exact he

/-! ## The ranking -/

/-- What an entry is ranked by: its count, and then its name. -/
def rank (entry : Text × Nat) : Nat × Text := (entry.2, entry.1)

/-- Higher counts first, and names with the same count in byte order. -/
def RankBefore : Nat × Text → Nat × Text → Prop := Prod.Lex (· > ·) (List.Lex (· < ·))

instance : IsStrictTotalOrder (Nat × Text) RankBefore := isStrictTotalOrder_lex _ _

theorem rankBefore_iff {a b : Text × Nat} :
    RankBefore (rank a) (rank b) ↔ b.2 < a.2 ∨ a.2 = b.2 ∧ Text.before a.1 b.1 = true := by
  rw [RankBefore, Prod.lex_def, Text.before_iff_lex]
  rfl

theorem eq_of_rank_eq {a b : Text × Nat} (h : rank a = rank b) : a = b :=
  Prod.ext (congrArg Prod.snd h) (congrArg Prod.fst h)

/-- All counts in strict order of their ranks. -/
structure IsRanking (counts : Counts) (ranking : Usage) : Prop
    extends Lists ranking counts where
  ordered : ranking.Pairwise fun a b => RankBefore (rank a) (rank b)

theorem IsRanking.unique {counts : Counts} {ranking other : Usage}
    (h : IsRanking counts ranking) (hother : IsRanking counts other) : other = ranking :=
  eq_of_ordered_of_perm (hother.ordered.imp asymm) (h.ordered.imp asymm)
    (hother.perm h.toLists) fun _ _ _ _ => eq_of_rank_eq

/-- A list of the counts in which no entry stands behind one that it ranks before is
    their ranking, however it was sorted. -/
theorem isRanking_of_ordered {counts : Counts} {sorted : Usage} (hlists : Lists sorted counts)
    (hsorted : sorted.Pairwise fun a b => ¬ RankBefore (rank b) (rank a)) :
    IsRanking counts sorted := by
  have hnames : sorted.Pairwise fun a b => a.1 ≠ b.1 := List.pairwise_map.mp hlists.nodup
  -- Equal ranks would be equal names, so the order is strict.
  refine ⟨hlists, (hsorted.and hnames).imp fun {a b} h => ?_⟩
  rcases trichotomous (r := RankBefore) (rank a) (rank b) with hab | heq | hba
  · exact hab
  · exact absurd (congrArg Prod.snd heq) h.2
  · exact absurd hba h.1

/-! ## The most used names -/

theorem rankedBefore_iff (a b : Text × Nat) :
    rankedBefore a b = true ↔ ¬ RankBefore (rank b) (rank a) := by
  rw [rankBefore_iff, rankedBefore]
  by_cases hcount : a.2 = b.2
  · simp [hcount, Text.notAfter_iff_not_before]
  · simp only [if_neg hcount, decide_eq_true_eq]
    omega

theorem isRanking_mergeSort {counts : Counts} {u : Usage} (hu : Lists u counts) :
    IsRanking counts (u.mergeSort rankedBefore) :=
  have hsorted := stablySorted_mergeSort rankedBefore_iff u
  isRanking_of_ordered (hu.of_perm hsorted.perm) hsorted.ordered

theorem top_eq (u : Usage) (most : Int) :
    top u most = (u.mergeSort rankedBefore).take (withinLimit most u.length) := by
  have hlength : (u.mergeSort rankedBefore).length = u.length := List.length_mergeSort u
  rw [top, withinLimit, ← hlength]
  by_cases h : most ≤ 0
  · rw [if_pos h, if_neg (Int.not_lt.mpr h), List.take_length]
  · rw [if_neg h, if_pos (Int.not_le.mp h), Nat.min_comm, ← List.take_eq_take_min]

/-- Counts have one ranking. Listed in any order, their most used names are the
    front of it that the limit lets through. So a few of them are the front of
    more, also if the counts are listed anew in between. -/
theorem top_front_of_ranking (counts : Counts) :
    ∃ ranking, IsRanking counts ranking ∧ (∀ other, IsRanking counts other → other = ranking) ∧
      (∀ u, Lists u counts → ∀ most,
        top u most = ranking.take (withinLimit most counts.keys.card)) ∧
      ∀ u v, Lists u counts → Lists v counts → ∀ few many, 0 < few → few ≤ many →
        top u few <+: top v many := by
  obtain ⟨w, hw⟩ := exists_lists counts
  have hranking := isRanking_mergeSort hw
  -- Every other list of the counts is sorted into the same ranking.
  have htop : ∀ u, Lists u counts → ∀ most, top u most =
      (w.mergeSort rankedBefore).take (withinLimit most counts.keys.card) := by
    intro u hu most
    rw [top_eq, hranking.unique (isRanking_mergeSort hu), hu.length_eq]
  refine ⟨_, hranking, fun other hother => hranking.unique hother, htop, ?_⟩
  intro u v hu hv few many hpos hle
  rw [htop u hu, htop v hv]
  exact List.take_prefix_take_left (withinLimit_mono hpos hle _)

example : top [(utf8 "c", 1), (utf8 "b", 1), (utf8 "d", 2), (utf8 "a", 1)] 3 =
    [(utf8 "d", 2), (utf8 "a", 1), (utf8 "b", 1)] := by cbv

theorem top_of_relisted :
    ∃ counts, Lists [(utf8 "b", 1), (utf8 "a", 1)] counts ∧
      Lists [(utf8 "a", 1), (utf8 "b", 1)] counts ∧
      top [(utf8 "b", 1), (utf8 "a", 1)] 1 <+: top [(utf8 "a", 1), (utf8 "b", 1)] 2 := by
  obtain ⟨counts, hu⟩ := exists_counts (u := [(utf8 "b", 1), (utf8 "a", 1)]) (by decide)
  have hv := hu.of_perm (.swap (utf8 "b", 1) (utf8 "a", 1) [])
  obtain ⟨-, -, -, -, hfront⟩ := top_front_of_ranking counts
  exact ⟨counts, hu, hv, hfront _ _ hu hv 1 2 (by decide) (by decide)⟩

end Usage

end MixinCss
