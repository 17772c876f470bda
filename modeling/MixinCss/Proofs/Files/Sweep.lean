/-
  MixinCss.Proofs.Files.Sweep

  A scan in one pass. The patterns are taken in their order and the paths of each
  as they are found; a path that was met before is passed over, and files are
  counted and kept on the way. What is kept and counted depends on the set of the
  paths alone (`Sweep.Tallied`), so the pass finds what a scan finds
  (`FileTree.scan_eq_sweep`), and neither the order nor the repetition of patterns
  matters (`FileTree.scan_congr_includes`).
-/

import MixinCss.Proofs.Files.Glob
import MixinCss.Proofs.Files.Scan

namespace MixinCss

namespace Text

theorem nodup_of_pairwise {texts : List Text}
    (h : texts.Pairwise fun a b => before a b = true) : texts.Nodup := by
  refine h.imp ?_
  rintro a b hbefore rfl
  rw [before_irrefl] at hbefore
  cases hbefore

theorem length_sort (texts : List Text) : (sort texts).length = texts.length :=
  List.length_mergeSort texts

/-- Texts in strictly increasing order are determined by which they are. -/
theorem eq_of_pairwise_before {as bs : List Text}
    (ha : as.Pairwise fun a b => before a b = true)
    (hb : bs.Pairwise fun a b => before a b = true) (h : ∀ x, x ∈ as ↔ x ∈ bs) : as = bs := by
  have hperm := (List.perm_ext_iff_of_nodup (nodup_of_pairwise ha) (nodup_of_pairwise hb)).mpr h
  refine List.Perm.eq_of_pairwise ?_ ha hb hperm
  intro a b _ _ hab hba
  have hself := before_trans hab hba
  rw [before_irrefl] at hself
  cases hself

end Text

/-- How far a pass over the found paths has come. -/
structure Sweep where
  /-- The paths that have been met, the last one first. -/
  seen : List Text
  /-- The files that are kept, in the order in which they were met. -/
  files : List Text
  /-- How many files were met. -/
  discovered : Nat
  /-- How many of them are left out. -/
  skipped : Nat

namespace Sweep

/-- Nothing has been met. -/
def start : Sweep := ⟨[], [], 0, 0⟩

/-- Takes one path. It is marked as met before it is known to be a file. -/
def visit (isFile isIgnored : Text → Bool) (w : Sweep) (path : Text) : Sweep :=
  if w.seen.contains path then w
  else
    let w := { w with seen := path :: w.seen }
    if !isFile path then w
    else
      let w := { w with discovered := w.discovered + 1 }
      if isIgnored path then { w with skipped := w.skipped + 1 }
      else { w with files := w.files ++ [path] }

/-- What a pass has found once it is over. -/
def toScan (w : Sweep) : Scan := ⟨Text.sort w.files, w.skipped⟩

/-- The files and the counts of a pass are those of the paths that it has met. -/
structure Tallied (isFile isIgnored : Text → Bool) (w : Sweep) : Prop where
  nodup : w.seen.Nodup
  files : w.files = (w.seen.filter fun path => isFile path && !isIgnored path).reverse
  discovered : w.discovered = w.seen.countP isFile
  skipped : w.skipped = w.seen.countP fun path => isFile path && isIgnored path

variable {isFile isIgnored : Text → Bool}

theorem tallied_start : Tallied isFile isIgnored start := ⟨.nil, rfl, rfl, rfl⟩

theorem mem_seen_visit {w : Sweep} {path x : Text} :
    x ∈ (w.visit isFile isIgnored path).seen ↔ x ∈ w.seen ∨ x = path := by
  unfold visit
  split
  · rename_i hmet
    constructor
    · exact .inl
    · rintro (hx | rfl)
      · exact hx
      · exact List.contains_iff_mem.mp hmet
  · have hseen : x ∈ path :: w.seen ↔ x ∈ w.seen ∨ x = path := by
      rw [List.mem_cons, or_comm]
    dsimp only
    split
    · exact hseen
    · split
      · exact hseen
      · exact hseen

/-- One path keeps the tally. -/
theorem Tallied.visit {w : Sweep} (h : Tallied isFile isIgnored w) (path : Text) :
    Tallied isFile isIgnored (w.visit isFile isIgnored path) := by
  unfold Sweep.visit
  split
  · exact h
  · rename_i hnew
    have hnodup : (path :: w.seen).Nodup :=
      List.nodup_cons.mpr ⟨fun hmem => hnew (List.contains_iff_mem.mpr hmem), h.nodup⟩
    cases hfile : isFile path with
    | false =>
      refine ⟨hnodup, ?_, ?_, ?_⟩
      · simp [hfile, h.files]
      · simp [hfile, h.discovered]
      · simp [hfile, h.skipped]
    | true =>
      cases hignored : isIgnored path with
      | true =>
        refine ⟨hnodup, ?_, ?_, ?_⟩
        · simp [hfile, hignored, h.files]
        · simp [hfile, h.discovered]
        · simp [hfile, hignored, h.skipped]
      | false =>
        refine ⟨hnodup, ?_, ?_, ?_⟩
        · simp [hfile, hignored, h.files]
        · simp [hfile, h.discovered]
        · simp [hfile, hignored, h.skipped]

/-- A run over paths keeps the tally and meets all of them. -/
theorem Tallied.foldl_visit {w : Sweep} (h : Tallied isFile isIgnored w) (paths : List Text) :
    Tallied isFile isIgnored (paths.foldl (Sweep.visit isFile isIgnored) w) ∧
      ∀ x, x ∈ (paths.foldl (Sweep.visit isFile isIgnored) w).seen ↔ x ∈ w.seen ∨ x ∈ paths := by
  induction paths generalizing w with
  | nil => exact ⟨h, fun x => by simp⟩
  | cons path paths ih =>
    obtain ⟨htallied, hseen⟩ := ih (h.visit path)
    refine ⟨htallied, fun x => ?_⟩
    rw [List.foldl_cons, hseen, mem_seen_visit, List.mem_cons, or_assoc]

theorem Tallied.mem_files {w : Sweep} (h : Tallied isFile isIgnored w) {x : Text} :
    x ∈ w.files ↔ x ∈ w.seen ∧ isFile x = true ∧ isIgnored x = false := by
  rw [h.files, List.mem_reverse, List.mem_filter, Bool.and_eq_true, Bool.not_eq_true']

theorem Tallied.nodup_files {w : Sweep} (h : Tallied isFile isIgnored w) : w.files.Nodup := by
  rw [h.files, (List.reverse_perm _).nodup_iff]
  exact h.nodup.filter _

/-- Every file that was met is kept or left out. -/
theorem Tallied.discovered_eq {w : Sweep} (h : Tallied isFile isIgnored w) :
    w.discovered = w.files.length + w.skipped := by
  have hsplit := List.length_eq_countP_add_countP isIgnored (l := w.seen.filter isFile)
  rw [← List.countP_eq_length_filter, List.countP_filter, List.countP_filter] at hsplit
  rw [h.discovered, h.files, h.skipped, List.length_reverse, ← List.countP_eq_length_filter, hsplit,
    Nat.add_comm]
  congr 1
  · exact List.countP_congr fun x _ => by simp [and_comm]
  · exact List.countP_congr fun x _ => by simp [and_comm]

/-- Passes that have met the same paths have the same counts. -/
theorem Tallied.counts_congr {w w' : Sweep} (h : Tallied isFile isIgnored w)
    (h' : Tallied isFile isIgnored w') (hseen : ∀ x, x ∈ w.seen ↔ x ∈ w'.seen) :
    w.discovered = w'.discovered ∧ w.skipped = w'.skipped := by
  have hperm := (List.perm_ext_iff_of_nodup h.nodup h'.nodup).mpr hseen
  rw [h.discovered, h'.discovered, h.skipped, h'.skipped]
  exact ⟨hperm.countP_eq _, hperm.countP_eq _⟩

theorem Tallied.pairwise_sort {w : Sweep} (h : Tallied isFile isIgnored w) :
    (Text.sort w.files).Pairwise fun a b => Text.before a b = true := by
  have hnodup : (Text.sort w.files).Nodup :=
    (List.mergeSort_perm w.files Text.notAfter).nodup_iff.mpr h.nodup_files
  refine ((Text.pairwise_sort w.files).and hnodup).imp ?_
  rintro a b ⟨hle, hne⟩
  exact (Text.notAfter_iff.mp hle).resolve_right hne

theorem Tallied.mem_toScan {w : Sweep} (h : Tallied isFile isIgnored w) {x : Text} :
    x ∈ w.toScan.files ↔ x ∈ w.seen ∧ isFile x = true ∧ isIgnored x = false := by
  rw [← h.mem_files]
  exact Text.mem_sort

theorem Tallied.discovered_toScan {w : Sweep} (h : Tallied isFile isIgnored w) :
    w.discovered = w.toScan.files.length + w.toScan.skipped := by
  rw [h.discovered_eq, toScan, Text.length_sort]

/-- Passes that have met the same paths find the same. -/
theorem Tallied.toScan_congr {w w' : Sweep} (h : Tallied isFile isIgnored w)
    (h' : Tallied isFile isIgnored w') (hseen : ∀ x, x ∈ w.seen ↔ x ∈ w'.seen) :
    w.toScan = w'.toScan := by
  rw [toScan, toScan, (h.counts_congr h' hseen).2]
  congr 1
  refine Text.eq_of_pairwise_before h.pairwise_sort h'.pairwise_sort fun x => ?_
  rw [Text.mem_sort, Text.mem_sort, h.mem_files, h'.mem_files, hseen]

end Sweep

namespace FileTree

/-- The paths that a pattern leads to from a directory. -/
def found (t : FileTree) (directory pattern : Text) : Except PatternFault (List Text) :=
  match Glob.paths? t (Path.join directory pattern) with
  | some paths => .ok paths
  | none => .error ⟨pattern⟩

/-- Whether a file is on the list of those to leave out, if this is used. -/
def leavesOut (t : FileTree) (sourceDir : Text) (useIgnoreList : Bool) (file : Text) : Bool :=
  match Path.relative? (Path.orHere sourceDir) file with
  | some path =>
    IgnoreList.ignores (if useIgnoreList then t.ignoreList (Path.orHere sourceDir) else []) path
  | none => false

/-- A scan in one pass. -/
def sweep (t : FileTree) (sourceDir : Text) (includes : List Text) (useIgnoreList : Bool) :
    Except PatternFault Sweep :=
  (if includes.isEmpty then standardIncludes else includes).foldlM (fun w pattern => do
    let paths ← t.found (Path.orHere sourceDir) pattern
    return paths.foldl (Sweep.visit t.isFile (t.leavesOut sourceDir useIgnoreList)) w) .start

theorem foldlM_found (t : FileTree) (directory : Text) (visit : Sweep → Text → Sweep)
    (includes : List Text) (w : Sweep) :
    includes.foldlM (fun w pattern => do
        let paths ← t.found directory pattern
        return paths.foldl visit w) w =
      (includes.mapM (t.found directory) >>= fun lists => .ok (lists.flatten.foldl visit w)) := by
  induction includes generalizing w with
  | nil => rfl
  | cons pattern includes ih =>
    rw [List.foldlM_cons, List.mapM_cons]
    cases t.found directory pattern with
    | error e => rfl
    | ok paths =>
      rw [ok_bind, ok_bind]
      show includes.foldlM _ (paths.foldl visit w) = _
      rw [ih]
      cases includes.mapM (t.found directory) with
      | error e => rfl
      | ok lists =>
        show Except.ok _ = Except.ok _
        rw [List.flatten_cons, List.foldl_append]

variable {t : FileTree} {sourceDir : Text} {includes : List Text} {useIgnoreList : Bool}

/-- What a scan makes of the paths that were found. -/
def scanOf (isFile isIgnored : Text → Bool) (paths : List Text) : Scan :=
  let matched := (Text.sort (paths.filter isFile)).eraseReps
  let files := matched.filter fun file => !isIgnored file
  ⟨files, matched.length - files.length⟩

theorem matching_eq (t : FileTree) (directory : Text) (includes : List Text) :
    t.matching directory includes =
      (includes.mapM (t.found directory) >>= fun lists =>
        .ok (Text.sort (lists.flatten.filter t.isFile)).eraseReps) := rfl

/-- A scan takes the paths of all patterns together. -/
theorem scan_eq (t : FileTree) (sourceDir : Text) (includes : List Text) (useIgnoreList : Bool) :
    t.scan sourceDir includes useIgnoreList =
      ((if includes.isEmpty then standardIncludes else includes).mapM
          (t.found (Path.orHere sourceDir)) >>= fun lists =>
        .ok (scanOf t.isFile (t.leavesOut sourceDir useIgnoreList) lists.flatten)) := by
  show (t.matching (Path.orHere sourceDir) _ >>= _) = _
  rw [matching_eq]
  cases (if includes.isEmpty then standardIncludes else includes).mapM
      (t.found (Path.orHere sourceDir)) with
  | error e => rfl
  | ok lists => rfl

/-- What a pass has met decides what it gives: the same as a scan. -/
theorem toScan_eq {isFile isIgnored : Text → Bool} {w : Sweep}
    (h : Sweep.Tallied isFile isIgnored w) {paths : List Text}
    (hseen : ∀ x, x ∈ w.seen ↔ x ∈ paths) : w.toScan = scanOf isFile isIgnored paths := by
  have hmatched : ∀ x, x ∈ (Text.sort (paths.filter isFile)).eraseReps ↔
      x ∈ paths ∧ isFile x = true := by
    intro x
    rw [Text.mem_eraseReps, Text.mem_sort, List.mem_filter]
  have hsorted := Text.pairwise_eraseReps_sort (paths.filter isFile)
  unfold scanOf
  dsimp only
  generalize (Text.sort (paths.filter isFile)).eraseReps = matched at hmatched hsorted ⊢
  have hfiles : Text.sort w.files = matched.filter fun file => !isIgnored file := by
    refine Text.eq_of_pairwise_before h.pairwise_sort (hsorted.filter _) fun x => ?_
    rw [Text.mem_sort, h.mem_files, hseen, List.mem_filter, hmatched, Bool.not_eq_true', and_assoc]
  -- The files that were met, in some order, are those that are matched.
  have hperm : (w.seen.filter isFile).Perm matched := by
    refine (List.perm_ext_iff_of_nodup (h.nodup.filter _) (Text.nodup_of_pairwise hsorted)).mpr ?_
    intro x
    rw [List.mem_filter, hseen, hmatched]
  have hcount : w.skipped =
      matched.length - (matched.filter fun file => !isIgnored file).length := by
    rw [← hfiles, ← hperm.length_eq, ← List.countP_eq_length_filter, ← h.discovered,
      h.discovered_eq, Text.length_sort, Nat.add_sub_cancel_left]
  rw [Sweep.toScan, hfiles, hcount]

/-- A scan finds what one pass over the patterns finds. -/
theorem scan_eq_sweep (t : FileTree) (sourceDir : Text) (includes : List Text)
    (useIgnoreList : Bool) :
    t.scan sourceDir includes useIgnoreList =
      (t.sweep sourceDir includes useIgnoreList).map Sweep.toScan := by
  rw [scan_eq, sweep, foldlM_found]
  cases (if includes.isEmpty then standardIncludes else includes).mapM
      (t.found (Path.orHere sourceDir)) with
  | error e => rfl
  | ok lists =>
    obtain ⟨htallied, hseen⟩ := (@Sweep.tallied_start t.isFile
      (t.leavesOut sourceDir useIgnoreList)).foldl_visit lists.flatten
    have hmet : ∀ x, x ∈ Sweep.start.seen ∨ x ∈ lists.flatten ↔ x ∈ lists.flatten :=
      fun x => or_iff_right List.not_mem_nil
    have hscan := toScan_eq htallied fun x => (hseen x).trans (hmet x)
    rw [ok_bind, ok_bind, ← hscan]
    rfl

/-- Files that a pass meets in byte order are found in this order. -/
theorem scan_of_sweep {files : List Text} {skipped : Nat}
    (h : (t.sweep sourceDir includes useIgnoreList).toOption.map
      (fun w => (w.files, w.skipped)) = some (files, skipped))
    (hsorted : files.Pairwise fun a b => Text.notAfter a b = true) :
    t.scan sourceDir includes useIgnoreList = .ok ⟨files, skipped⟩ := by
  obtain ⟨w, hw, hpair⟩ := Option.map_eq_some_iff.mp h
  cases hpair
  rw [scan_eq_sweep, toOption_eq_some_iff.mp hw]
  show Except.ok w.toScan = _
  rw [Sweep.toScan, Text.sort, List.mergeSort_of_pairwise hsorted]

/-! ## Paths that lead somewhere -/

theorem isSome_at?_of_mem_known {place : Place} {e : Entry} (h : (place, e) ∈ t.known) :
    (t.at? place).isSome = true := by
  unfold at?
  split
  · rfl
  · rename_i hhome
    rw [List.lookup_isSome_iff]
    refine ⟨(place, e), (List.mem_append.mp h).resolve_left fun hmem => hhome ?_,
      beq_self_eq_true place⟩
    obtain ⟨above, habove, hplace⟩ := List.mem_map.mp hmem
    cases hplace
    obtain ⟨n, -, rfl⟩ := List.mem_map.mp habove
    exact List.isPrefixOf_iff_prefix.mpr (List.take_prefix _ _)

theorem IsNormal.isSome_find?_of_mem_names (ht : t.IsNormal) {p : Path} {name : Text}
    (h : name ∈ t.names p) : (t.find? (Glob.child p name)).isSome = true := by
  have hname := ht.isName_of_mem_names h
  obtain ⟨⟨place, e⟩, hentry, hlast⟩ := List.mem_filterMap.mp h
  obtain ⟨hparent, hlast⟩ := Option.ite_none_right_eq_some.mp hlast
  have hplace : (Glob.child p name).place t.home = place := by
    show (p.extend [name]).place t.home = place
    rw [Path.place_extend p (List.forall_mem_singleton.mpr hname), ← hparent]
    refine congrArg Place.mk ?_
    show place.names.dropLast ++ [name] = place.names
    rcases List.eq_nil_or_concat place.names with hnil | ⟨init, last, hconcat⟩
    · rw [hnil] at hlast
      cases hlast
    · rw [hconcat, List.concat_eq_append] at hlast ⊢
      rw [List.getLast?_concat] at hlast
      rw [Option.some.inj hlast, List.dropLast_concat]
  rw [find?, hplace]
  exact isSome_at?_of_mem_known hentry

theorem IsNormal.isSome_find?_of_mem_below (ht : t.IsNormal) {p : Path} {way : List Text}
    {e : Entry} (h : (way, e) ∈ t.below p) : (t.find? (p.extend way)).isSome = true := by
  have hnames := ht.isName_of_mem_below h
  obtain ⟨⟨place, e'⟩, hentry, hfound⟩ := List.mem_filterMap.mp h
  obtain ⟨⟨hfront, -⟩, hfound⟩ := Option.ite_none_right_eq_some.mp hfound
  cases hfound
  obtain ⟨rest, hrest⟩ := List.isPrefixOf_iff_prefix.mp hfront
  have hplace : (p.extend (place.names.drop (p.place t.home).names.length)).place t.home =
      place := by
    rw [Path.place_extend p hnames, ← hrest, List.drop_left]
    exact congrArg Place.mk hrest
  rw [find?, hplace]
  exact isSome_at?_of_mem_known hentry

/-- A descent that goes on, or that starts at something, leads to something. -/
theorem IsNormal.isSome_find?_of_mem_descend (ht : t.IsNormal) {literal : Bool} {place q : Path}
    {segments : List Text} (h : q ∈ Glob.descend t literal place segments)
    (hstart : segments ≠ [] ∨ (t.find? place).isSome = true) : (t.find? q).isSome = true := by
  induction segments generalizing literal place with
  | nil =>
    cases List.mem_singleton.mp h
    exact hstart.resolve_left (not_not_intro rfl)
  | cons segment rest ih =>
    rw [Glob.descend] at h
    split at h
    · split at h
      · rename_i hplace
        obtain ⟨start, hstart, hq⟩ := List.mem_flatMap.mp h
        refine ih hq (.inr ?_)
        rcases List.mem_cons.mp hstart with rfl | hstart
        · rw [hplace]
          rfl
        · obtain ⟨⟨way, e⟩, hway, rfl⟩ := List.mem_map.mp hstart
          exact ht.isSome_find?_of_mem_below hway
      · cases h
    · obtain ⟨name, hname, hq⟩ := List.mem_flatMap.mp h
      exact ih hq (.inr (ht.isSome_find?_of_mem_names (List.mem_filter.mp hname).1))

/-- A pattern leads to paths of the tree only. -/
theorem IsNormal.isSome_find?_of_mem_paths? (ht : t.IsNormal) {pattern path : Text}
    {paths : List Text} (h : Glob.paths? t pattern = some paths) (hpath : path ∈ paths) :
    (t.find? (Path.ofText path)).isSome = true := by
  unfold Glob.paths? at h
  dsimp only at h
  split at h
  · split at h
    · cases h
    · split at h
      · rename_i hfound
        cases h
        rw [List.mem_singleton.mp hpath, (Path.normal_ofText _).text_spells.1]
        exact hfound
      · cases h
        cases hpath
  · split at h
    · cases h
    · cases h
      obtain ⟨alternative, -, hpath⟩ := List.mem_flatMap.mp hpath
      obtain ⟨q, hq, rfl⟩ := List.mem_map.mp hpath
      obtain ⟨names, hnames, rfl⟩ := Glob.isWithin_of_mem_descend ht hq
      rw [((Path.normal_ofText _).extend hnames).text_spells.1]
      exact ht.isSome_find?_of_mem_descend hq (.inl (Text.split_ne_nil _ _))

/-! ## Patterns as a set -/

/-- The pattern leads from the directory to the path. -/
def Matches (t : FileTree) (directory pattern path : Text) : Prop :=
  ∃ paths, Glob.paths? t (Path.join directory pattern) = some paths ∧ path ∈ paths

theorem exists_found {directory pattern : Text}
    (h : (Glob.paths? t (Path.join directory pattern)).isSome = true) :
    ∃ paths, t.found directory pattern = .ok paths ∧
      ∀ x, x ∈ paths ↔ t.Matches directory pattern x := by
  obtain ⟨paths, hpaths⟩ := Option.isSome_iff_exists.mp h
  refine ⟨paths, ?_, fun x => ⟨fun hx => ⟨paths, hpaths, hx⟩, ?_⟩⟩
  · rw [found, hpaths]
  · rintro ⟨others, hothers, hx⟩
    rw [hpaths] at hothers
    cases hothers
    exact hx

/-- Patterns that are all valid find the paths of each of them. -/
theorem exists_mapM_found {directory : Text} (h : ∀ pattern ∈ includes,
      (Glob.paths? t (Path.join directory pattern)).isSome = true) :
    ∃ lists, includes.mapM (t.found directory) = .ok lists ∧
      ∀ x, x ∈ lists.flatten ↔ ∃ pattern ∈ includes, t.Matches directory pattern x := by
  induction includes with
  | nil => exact ⟨[], rfl, fun x => by simp⟩
  | cons pattern includes ih =>
    obtain ⟨hpattern, hrest⟩ := List.forall_mem_cons.mp h
    obtain ⟨paths, hfound, hpaths⟩ := exists_found hpattern
    obtain ⟨lists, hlists, hmem⟩ := ih hrest
    refine ⟨paths :: lists, ?_, fun x => ?_⟩
    · rw [List.mapM_cons, hfound, ok_bind, hlists]
      rfl
    · simp only [List.flatten_cons, List.mem_append, hpaths, hmem, List.mem_cons, exists_eq_or_imp]

/-- One pass over valid patterns meets the paths that they lead to. -/
theorem exists_sweep (hne : includes ≠ []) (h : ∀ pattern ∈ includes,
      (Glob.paths? t (Path.join (Path.orHere sourceDir) pattern)).isSome = true)
    (useIgnoreList : Bool) :
    ∃ w, t.sweep sourceDir includes useIgnoreList = .ok w ∧
      Sweep.Tallied t.isFile (t.leavesOut sourceDir useIgnoreList) w ∧
      ∀ x, x ∈ w.seen ↔ ∃ pattern ∈ includes, t.Matches (Path.orHere sourceDir) pattern x := by
  obtain ⟨lists, hlists, hmem⟩ := exists_mapM_found h
  obtain ⟨htallied, hseen⟩ := (@Sweep.tallied_start t.isFile
    (t.leavesOut sourceDir useIgnoreList)).foldl_visit lists.flatten
  refine ⟨_, ?_, htallied, fun x => ?_⟩
  · rw [sweep, List.isEmpty_eq_false_iff.mpr hne, if_neg Bool.false_ne_true, foldlM_found, hlists,
      ok_bind]
  · rw [hseen, hmem]
    exact or_iff_right List.not_mem_nil

theorem isFile_iff_of_isSome {path : Text} (h : (t.find? (Path.ofText path)).isSome = true) :
    t.isFile path = true ↔ t.find? (Path.ofText path) ≠ some .directory := by
  unfold isFile holdsFile
  rw [find?_ofText] at h ⊢
  cases hfound : t.at? (t.place path) with
  | none =>
    rw [hfound] at h
    cases h
  | some e =>
    cases e with
    | directory => simp
    | file content access => simp

/-- A scan depends on the set of its patterns only. For lists of valid patterns
    with the same members, in any order and with any repetitions, it finds the
    same files and counts the same. The files are strictly increasing; they are the
    files that a pattern leads to and that are not left out, each once; and every
    file that the pass meets is kept or left out. -/
theorem scan_congr_includes (t : FileTree) (sourceDir : Text) (useIgnoreList : Bool)
    (includes includes' : List Text) (hne : includes ≠ [])
    (hsame : ∀ pattern, pattern ∈ includes ↔ pattern ∈ includes')
    (hvalid : ∀ pattern ∈ includes,
      (Glob.paths? t (Path.join (Path.orHere sourceDir) pattern)).isSome = true) :
    ∃ s w w', t.scan sourceDir includes useIgnoreList = .ok s ∧
      t.scan sourceDir includes' useIgnoreList = .ok s ∧
      t.sweep sourceDir includes useIgnoreList = .ok w ∧
      t.sweep sourceDir includes' useIgnoreList = .ok w' ∧
      w.toScan = s ∧ w'.toScan = s ∧ w.discovered = w'.discovered ∧
      w.discovered = s.files.length + s.skipped ∧
      s.files.Pairwise (fun a b => Text.before a b = true) ∧
      (∀ file ∈ s.files, t.find? (Path.ofText file) ≠ some .directory ∧
        t.leavesOut sourceDir useIgnoreList file = false ∧
        ∃ pattern ∈ includes, t.Matches (Path.orHere sourceDir) pattern file) ∧
      ∀ pattern ∈ includes, ∀ file, t.Matches (Path.orHere sourceDir) pattern file →
        (t.isFile file = true → t.leavesOut sourceDir useIgnoreList file = false →
          s.files.count file = 1) ∧
        (t.IsNormal → (t.isFile file = true ↔ t.find? (Path.ofText file) ≠ some .directory)) := by
  have hne' : includes' ≠ [] := by
    rintro rfl
    obtain ⟨pattern, hpattern⟩ := List.exists_mem_of_ne_nil includes hne
    exact absurd ((hsame pattern).mp hpattern) List.not_mem_nil
  obtain ⟨w, hw, htallied, hseen⟩ := exists_sweep hne hvalid useIgnoreList
  obtain ⟨w', hw', htallied', hseen'⟩ := exists_sweep hne'
    (fun pattern hpattern => hvalid pattern ((hsame pattern).mpr hpattern)) useIgnoreList
  have hmet : ∀ x, x ∈ w.seen ↔ x ∈ w'.seen := by
    intro x
    rw [hseen, hseen']
    exact exists_congr fun pattern => and_congr_left fun _ => hsame pattern
  have hscan : w.toScan = w'.toScan := htallied.toScan_congr htallied' hmet
  refine ⟨w.toScan, w, w', ?_, ?_, hw, hw', rfl, hscan.symm,
    (htallied.counts_congr htallied' hmet).1, htallied.discovered_toScan, htallied.pairwise_sort,
    fun file hfile => ?_,
    fun pattern hpattern file hmatches => ⟨fun hfile hkept => ?_, fun ht => ?_⟩⟩
  · rw [scan_eq_sweep, hw]
    rfl
  · rw [scan_eq_sweep, hw', hscan]
    rfl
  · obtain ⟨hfound, hfile, hkept⟩ := htallied.mem_toScan.mp hfile
    refine ⟨fun hdirectory => ?_, hkept, (hseen file).mp hfound⟩
    rw [isFile, holdsFile, ← find?_ofText, hdirectory] at hfile
    cases hfile
  · have hfound := htallied.mem_toScan.mpr
      ⟨(hseen file).mpr ⟨pattern, hpattern, hmatches⟩, hfile, hkept⟩
    have hnodup : w.toScan.files.Nodup := Text.nodup_of_pairwise htallied.pairwise_sort
    rw [hnodup.count, if_pos hfound]
  · obtain ⟨paths, hpaths, hmatched⟩ := hmatches
    exact isFile_iff_of_isSome (ht.isSome_find?_of_mem_paths? hpaths hmatched)

/-- A directory with a list of files to leave out, and one more directory in it. -/
def overlapTree : FileTree :=
  ofTexts ⟨[utf8 "x"]⟩ [(utf8 "s", .directory), (utf8 "s/.gitignore", .file (utf8 "b*") .full),
    (utf8 "s/a", .directory), (utf8 "s/b.m", .file [] .full), (utf8 "s/d.m", .file [] .full)]

theorem isNormal_overlapTree : overlapTree.IsNormal :=
  isNormal_ofTexts (by decide) _

/-- Two patterns that overlap, in another order and one of them twice: three files
    are met, one of them is left out, and the directory does not count. -/
theorem scan_congr_includes_overlap :
    ∃ s, overlapTree.scan (utf8 "s") [utf8 "*.m", utf8 "?*", utf8 "*.m"] true = .ok s ∧
      overlapTree.scan (utf8 "s") [utf8 "?*", utf8 "*.m"] true = .ok s ∧
      s.skipped = 1 ∧ s.files.length = 2 ∧ s.files.count (utf8 "s/d.m") = 1 ∧
      overlapTree.find? (Path.ofText (utf8 "s/d.m")) ≠ some .directory := by
  have hleft : ∀ pattern ∈ [utf8 "*.m", utf8 "?*", utf8 "*.m"],
      pattern ∈ [utf8 "?*", utf8 "*.m"] := by decide
  have hright : ∀ pattern ∈ [utf8 "?*", utf8 "*.m"],
      pattern ∈ [utf8 "*.m", utf8 "?*", utf8 "*.m"] := by decide
  obtain ⟨s, w, -, hscan, hscan', hw, -, rfl, -, -, hcounts, -, -, honce⟩ :=
    overlapTree.scan_congr_includes (utf8 "s") true [utf8 "*.m", utf8 "?*", utf8 "*.m"]
      [utf8 "?*", utf8 "*.m"] (List.cons_ne_nil _ _)
      (fun pattern => ⟨hleft pattern, hright pattern⟩) (by decide +kernel)
  have hmet : (overlapTree.sweep (utf8 "s") [utf8 "*.m", utf8 "?*", utf8 "*.m"] true).toOption.map
      (fun w => (w.discovered, w.skipped)) = some (3, 1) := by decide +kernel
  rw [hw] at hmet
  obtain ⟨hdiscovered, hskipped⟩ := Prod.mk.inj (Option.some.inj hmet)
  rw [hdiscovered] at hcounts
  have hmatches : overlapTree.Matches (utf8 "s") (utf8 "*.m") (utf8 "s/d.m") :=
    ⟨[utf8 "s/b.m", utf8 "s/d.m"], by decide +kernel, by decide⟩
  have hfile : overlapTree.isFile (utf8 "s/d.m") = true := by decide +kernel
  obtain ⟨hcount, hkind⟩ := honce _ List.mem_cons_self _ hmatches
  refine ⟨w.toScan, hscan, hscan', hskipped, ?_, hcount hfile (by decide +kernel),
    (hkind isNormal_overlapTree).mp hfile⟩
  rw [show w.toScan.skipped = 1 from hskipped] at hcounts
  omega

end FileTree

end MixinCss
