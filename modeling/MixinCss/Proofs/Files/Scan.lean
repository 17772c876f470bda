/-
  MixinCss.Proofs.Files.Scan

  What a scan finds: files that are there, in byte order and each once.
-/

import MixinCss.Files.Scan
import MixinCss.Proofs.Files.Tree
import MixinCss.Proofs.Text.Order

namespace MixinCss

namespace FileTree

theorem isFile_of_mem_matching {t : FileTree} {directory : Text} {includes found : List Text}
    (h : t.matching directory includes = .ok found) {path : Text} (hpath : path ∈ found) :
    t.isFile path := by
  obtain ⟨paths, -, hfound⟩ := bind_eq_ok_iff.mp h
  cases hfound
  rw [Text.mem_eraseReps, Text.mem_sort, List.mem_filter] at hpath
  exact hpath.2

/-- Every file of a scan is there, if it can be read or not. -/
theorem exists_at?_of_mem_scan {t : FileTree} {sourceDir : Text} {includes : List Text}
    {useIgnoreList : Bool} {s : Scan} (h : t.scan sourceDir includes useIgnoreList = .ok s)
    {path : Text} (hpath : path ∈ s.files) :
    ∃ content access, t.at? (t.place path) = some (.file content access) := by
  obtain ⟨found, hfound, hs⟩ := bind_eq_ok_iff.mp h
  cases hs
  rw [List.mem_filter] at hpath
  exact holdsFile_eq_true_iff.mp (isFile_of_mem_matching hfound hpath.1)

/-- The files of a scan are in byte order, each once. -/
theorem pairwise_scan {t : FileTree} {sourceDir : Text} {includes : List Text}
    {useIgnoreList : Bool} {s : Scan} (h : t.scan sourceDir includes useIgnoreList = .ok s) :
    s.files.Pairwise fun a b => Text.before a b = true := by
  obtain ⟨found, hfound, hs⟩ := bind_eq_ok_iff.mp h
  cases hs
  obtain ⟨paths, -, hpaths⟩ := bind_eq_ok_iff.mp hfound
  cases hpaths
  exact (Text.pairwise_eraseReps_sort _).filter _

end FileTree

end MixinCss
