/-
  MixinCss.Proofs.Report.Order

  Which issues are printed. They are sorted by file, line and column, those at
  one place stay in the order in which they were found, and the front of that
  list is printed, up to the limit; the rest is counted
  (`Issue.renderAll_front_of_stable_sort`). So the order in which issues are
  found shows only among issues at one place.
-/

import Mathlib.Data.Int.Order.Basic
import MixinCss.Proofs.Sorted
import MixinCss.Report.Issues

namespace MixinCss

namespace Issue

/-! ## Places -/

/-- The file, the line and the column of an issue. -/
def place (i : Issue) : Text × Int × Int := (i.file, i.line, i.column)

/-- Places by file in byte order, then by line, then by column. -/
def PlaceBefore : Text × Int × Int → Text × Int × Int → Prop :=
  Prod.Lex (List.Lex (· < ·)) (Prod.Lex (· < ·) (· < ·))

instance : IsStrictTotalOrder (Text × Int × Int) PlaceBefore :=
  have := isStrictTotalOrder_lex (α := Int) (β := Int) (· < ·) (· < ·)
  isStrictTotalOrder_lex _ _

theorem placeBefore_iff {a b : Issue} :
    PlaceBefore a.place b.place ↔ Text.before a.file b.file = true ∨
      a.file = b.file ∧ (a.line < b.line ∨ a.line = b.line ∧ a.column < b.column) := by
  rw [PlaceBefore, Prod.lex_def, Prod.lex_def, Text.before_iff_lex]
  rfl

/-- The test of the sort holds where the second issue is not before the first. -/
theorem notAfter_iff (a b : Issue) :
    notAfter a b = true ↔ ¬ PlaceBefore b.place a.place := by
  rw [placeBefore_iff, notAfter]
  by_cases hfile : a.file = b.file
  · rw [if_pos hfile, hfile, Text.before_irrefl]
    by_cases hline : a.line = b.line
    · simp [hline]
    · simp only [if_neg hline, decide_eq_true_eq, Bool.false_eq_true, false_or, true_and]
      omega
  · have hbytes : Text.before a.file b.file = true ↔ ¬ Text.before b.file a.file = true := by
      rw [← Text.notAfter_iff_not_before, Text.notAfter_iff, or_iff_left hfile]
    rw [if_neg hfile, hbytes, not_or, and_iff_left fun h => hfile h.1.symm]

theorem stablySorted_sort (issues : List Issue) :
    StablySorted place PlaceBefore issues (sort issues) :=
  stablySorted_mergeSort notAfter_iff issues

/-- Where places tell issues apart, the sort does not show the order in which
    they came. -/
theorem sort_eq_of_perm {issues issues' : List Issue} (hperm : issues.Perm issues')
    (hplaces : ∀ a ∈ issues, ∀ b ∈ issues, a.place = b.place → a = b) :
    sort issues = sort issues' := by
  have hsorted := stablySorted_sort issues
  have hsorted' := stablySorted_sort issues'
  refine eq_of_ordered_of_perm hsorted.ordered hsorted'.ordered
    (hsorted.perm.trans (hperm.trans hsorted'.perm.symm)) fun a ha b hb => ?_
  exact hplaces a (hsorted.perm.mem_iff.mp ha) b (hsorted.perm.mem_iff.mp hb)

/-! ## What is printed -/

theorem shownCount_eq (c : ReportConfig) (n : Nat) :
    shownCount c n = withinLimit c.maxIssues n := by
  rw [shownCount, withinLimit]
  by_cases h : c.maxIssues ≤ 0
  · rw [if_pos h, if_neg (Int.not_lt.mpr h)]
  · rw [if_neg h, if_pos (Int.not_le.mp h)]

theorem renderAll_eq (c : ReportConfig) (palette : Palette) (issues : List Issue) :
    renderAll c palette issues =
      (((sort issues).take (withinLimit c.maxIssues issues.length)).flatMap (render c palette),
        issues.length - withinLimit c.maxIssues issues.length) := by
  have hlength : (sort issues).length = issues.length := List.length_mergeSort issues
  rw [renderAll, shownCount_eq, List.length_take, hlength, Nat.min_eq_left (withinLimit_le _ _)]

/-- There is one stable sort of the issues by their places. The issues printed are
    the front of it that the limit lets through, and all others are counted. Two
    lists of the same issues are printed alike if different issues have different
    places. -/
theorem renderAll_front_of_stable_sort (c : ReportConfig) (palette : Palette)
    (issues : List Issue) :
    (∃ sorted, StablySorted place PlaceBefore issues sorted ∧
      (∀ other, StablySorted place PlaceBefore issues other → other = sorted) ∧
      renderAll c palette issues =
        ((sorted.take (withinLimit c.maxIssues issues.length)).flatMap (render c palette),
          issues.length - withinLimit c.maxIssues issues.length)) ∧
    ∀ issues', issues.Perm issues' →
      (∀ a ∈ issues, ∀ b ∈ issues, a.place = b.place → a = b) →
      renderAll c palette issues = renderAll c palette issues' := by
  have hsort := stablySorted_sort issues
  refine ⟨⟨sort issues, hsort, fun other hother => hother.unique hsort,
    renderAll_eq c palette issues⟩, fun issues' hperm hplaces => ?_⟩
  rw [renderAll_eq, renderAll_eq, sort_eq_of_perm hperm hplaces, hperm.length_eq]

/-- A warning without a line of the source. -/
def bare (file : String) (line column : Int) (text : String) : Issue :=
  ⟨checkerName, utf8 text, .warning, [], utf8 file, line, column⟩

example : renderAll ⟨false, false, false, 2⟩ .off
    [bare "b" 1 1 "w", bare "a" 10 1 "x", bare "a" 9 2 "y", bare "a" 9 2 "z"] =
      (utf8 "a:9:2: y\na:9:2: z\n", 2) := by cbv

theorem renderAll_of_swapped :
    [bare "a" 10 1 "x", bare "a" 9 2 "y"].Perm [bare "a" 9 2 "y", bare "a" 10 1 "x"] ∧
      renderAll ⟨false, false, false, 1⟩ .off [bare "a" 10 1 "x", bare "a" 9 2 "y"] =
        renderAll ⟨false, false, false, 1⟩ .off [bare "a" 9 2 "y", bare "a" 10 1 "x"] :=
  have hperm := List.Perm.swap (bare "a" 9 2 "y") (bare "a" 10 1 "x") []
  ⟨hperm, (renderAll_front_of_stable_sort _ _ _).2 _ hperm (by decide)⟩

end Issue

end MixinCss
