/-
  MixinCss.Proofs.Confinement

  A build stays in its directories. Patterns without `..` lead to files below
  the source directory, if its names are patterns for themselves alone
  (`FileTree.exists_names_of_mem_scan`); the outputs of such files are below the
  output directory (`isBelow_outputPath`), and nothing else changes but for the
  directories on the way there (`Project.build_confined`).
-/

import MixinCss.Proofs.Files.Glob
import MixinCss.Proofs.Independence

namespace MixinCss

open MixinCss.Path (IsName)

theorem exists_of_mem_mapM {ε α β : Type} {f : α → Except ε β} {items : List α} {found : List β}
    (h : items.mapM f = .ok found) {b : β} (hb : b ∈ found) : ∃ a ∈ items, f a = .ok b := by
  induction items generalizing found with
  | nil =>
    cases h
    cases hb
  | cons a items ih =>
    rw [List.mapM_cons] at h
    obtain ⟨first, hfirst, h⟩ := bind_eq_ok_iff.mp h
    obtain ⟨rest, hrest, h⟩ := bind_eq_ok_iff.mp h
    cases h
    rcases List.mem_cons.mp hb with rfl | hb
    · exact ⟨a, List.mem_cons_self, hfirst⟩
    · obtain ⟨a, ha, hfound⟩ := ih hrest hb
      exact ⟨a, List.mem_cons_of_mem _ ha, hfound⟩

namespace FileTree

variable {t t' : FileTree}

/-! ## Sources -/

theorem exists_paths_of_mem_matching {directory : Text} {includes found : List Text}
    (h : t.matching directory includes = .ok found) {file : Text} (hfile : file ∈ found) :
    ∃ pattern ∈ includes, ∃ paths,
      Glob.paths? t (Path.join directory pattern) = some paths ∧ file ∈ paths := by
  obtain ⟨lists, hlists, hfound⟩ := bind_eq_ok_iff.mp h
  cases hfound
  rw [Text.mem_eraseReps, Text.mem_sort, List.mem_filter, List.mem_flatten] at hfile
  obtain ⟨⟨paths, hpaths, hfile⟩, -⟩ := hfile
  obtain ⟨pattern, hpattern, hsome⟩ := exists_of_mem_mapM hlists hpaths
  split at hsome
  · rename_i found hfound
    cases hsome
    exact ⟨pattern, hpattern, paths, hfound, hfile⟩
  · cases hsome

/-- The files of a scan are below the source directory, spelled as paths are. -/
theorem exists_names_of_mem_scan {sourceDir : Text} {includes : List Text} {useIgnoreList : Bool}
    {s : Scan} (ht : t.IsNormal) (hsource : t.find? (Path.ofText sourceDir) = some .directory)
    (hplain : ∀ s ∈ (Path.ofText sourceDir).segments, Glob.IsPlain s)
    (hincludes : ∀ pattern ∈ includes, Path.up ∉ Text.split (ascii '/') pattern)
    (h : t.scan sourceDir includes useIgnoreList = .ok s) {file : Text} (hfile : file ∈ s.files) :
    ∃ names, names ≠ [] ∧ (∀ s ∈ names, IsName s) ∧
      file = ((Path.ofText sourceDir).extend names).text := by
  obtain ⟨content, access, hcontent⟩ := exists_at?_of_mem_scan h hfile
  obtain ⟨found, hfound, hs⟩ := bind_eq_ok_iff.mp h
  cases hs
  obtain ⟨pattern, hpattern, paths, hpaths, hmem⟩ :=
    exists_paths_of_mem_matching hfound (List.mem_filter.mp hfile).1
  have hup : Path.up ∉ Text.split (ascii '/') pattern := by
    split at hpattern
    · cases List.mem_singleton.mp hpattern
      decide
    · exact hincludes pattern hpattern
  obtain ⟨ways, hways, hjoin⟩ := Path.exists_ofText_join (Path.orHere_ne_nil sourceDir) hup
  rw [Path.ofText_orHere] at hjoin
  obtain ⟨q, hwithin, rfl⟩ := Glob.exists_isWithin_of_mem_paths? ht (Path.normal_ofText sourceDir)
    hplain hways hjoin hpaths hmem
  obtain ⟨names, hnames, rfl⟩ := hwithin
  refine ⟨names, ?_, hnames, rfl⟩
  -- The source directory itself is no file.
  rintro rfl
  rw [← find?_ofText, Path.extend_nil, (Path.normal_ofText sourceDir).text_spells.1,
    hsource] at hcontent
  cases hcontent

/-! ## Places in normal form -/

theorem IsNormal.put (h : t.IsNormal) {place : Place} (hplace : place.IsNormal) (e : Entry) :
    (t.put place e).IsNormal := by
  refine ⟨h.home, List.forall_mem_cons.mpr ⟨hplace, fun entry hentry => ?_⟩⟩
  exact h.entries entry (List.mem_filter.mp hentry).1

theorem IsNormal.makeDirectories (h : t.IsNormal) {p : Path} (hp : p.Normal)
    (hmade : t.makeDirectories p = .ok t') : t'.IsNormal := by
  -- Directories are made along the way to `p`, at fronts of its segments.
  have hchain : ∀ q ∈ p.chain, q.Normal := by
    intro q hq
    obtain ⟨n, -, rfl⟩ := List.mem_map.mp hq
    have hwhole : Path.Normal ⟨p.rooted, p.segments.take (n + 1) ++ p.segments.drop (n + 1)⟩ := by
      rw [List.take_append_drop]
      exact hp
    exact hwhole.of_append
  refine makeDirectories_keeps hmade h fun s hs d hd _ => ?_
  exact hs.put ((hchain d hd).place hs.home) _

theorem IsNormal.putOutput (h : t.IsNormal) {path css : Text}
    (hput : t.putOutput path css = .ok t') : t'.IsNormal := by
  obtain ⟨made, hmade, hwrite⟩ := putOutput_eq_ok hput
  obtain ⟨-, rfl⟩ := write_eq_ok hwrite
  have hmade := h.makeDirectories (Path.normal_ofText _) hmade
  exact hmade.put ((Path.normal_ofText _).place hmade.home) _

end FileTree

/-! ## Outputs -/

/-- With `.css` in the place of its extension, a file in a directory has another
    name at its end: the extension is a part of the last name. -/
theorem exists_css_text (directory : Path) {names : List Text} (hne : names ≠ [])
    (hnames : ∀ s ∈ names, IsName s) :
    ∃ changed, changed ≠ [] ∧ (∀ s ∈ changed, IsName s) ∧
      (directory.extend names).text.dropTail (Path.extension (directory.extend names).text) ++
        utf8 ".css" = (directory.extend changed).text := by
  rcases List.eq_nil_or_concat names with hnil | ⟨init, last, hlast⟩
  · exact absurd hnil hne
  rw [List.concat_eq_append] at hlast
  subst hlast
  obtain ⟨hinit, hlast⟩ := List.forall_mem_append.mp hnames
  rw [List.forall_mem_singleton] at hlast
  -- Texts of paths that differ in the last name differ behind the last slash.
  have htext : ∀ s, (directory.extend (init ++ [s])).text =
      Path.lead (Path.withRoot directory.rooted (directory.segments ++ init)) ++ s := by
    intro s
    rw [← Path.text_concat, Path.extend, List.append_assoc]
  obtain ⟨stem, hstem⟩ := Path.exists_stem
    (Path.withRoot directory.rooted (directory.segments ++ init)) hlast.step
  have hname : IsName (stem ++ utf8 ".css") := by
    refine Path.isName_css fun hmem => hlast.step ?_
    rw [hstem]
    exact List.mem_append_left _ hmem
  refine ⟨init ++ [stem ++ utf8 ".css"], ?_, ?_, ?_⟩
  · exact List.append_ne_nil_of_right_ne_nil _ (List.cons_ne_nil _ _)
  · exact List.forall_mem_append.mpr ⟨hinit, List.forall_mem_singleton.mpr hname⟩
  · rw [htext, htext]
    nth_rewrite 1 [hstem]
    rw [← List.append_assoc, Text.dropTail_append, List.append_assoc]

/-- The output of a file below the source directory is below the output
    directory. -/
theorem isBelow_outputPath {sourceDir outputDir : Text} (houtput : outputDir ≠ [])
    {names : List Text} (hne : names ≠ []) (hnames : ∀ s ∈ names, IsName s) :
    (Path.ofText (outputPath sourceDir outputDir
      ((Path.ofText sourceDir).extend names).text)).IsBelow (Path.ofText outputDir) := by
  obtain ⟨changed, hchangedNe, hchanged, htext⟩ :=
    exists_css_text (Path.ofText sourceDir) hne hnames
  have hspelled : Path.ofText ((Path.ofText sourceDir).extend changed).text =
      (Path.ofText sourceDir).extend changed :=
    ((Path.normal_ofText sourceDir).extend hchanged).text_spells.1
  have hempty : outputDir.isEmpty = false := List.isEmpty_eq_false_iff.mpr houtput
  rw [outputPath, hempty, htext, if_neg Bool.false_ne_true, Path.relativeTo_eq hchangedNe hspelled,
    Path.ofText_join_names houtput hchangedNe hchanged]
  exact ⟨changed, hchangedNe, hchanged, rfl⟩

namespace Build

/-- Building files lets the tree grow at the places of their outputs. -/
theorem after_grows (p : Project) (b : Build) (files : List Text) :
    FileTree.Grows (files.map (p.place b.tree)) b.tree (after p b files).tree := by
  induction files using List.reverseRecOn with
  | nil => exact .refl _ _
  | append_singleton files g ih =>
    have hlast := step_grows p p.options.catalog (after p b files) g
    rw [← after_concat, Project.place, place_after] at hlast
    rw [List.map_append]
    exact (ih.mono (List.subset_append_left _ _)).trans
      (hlast.mono (List.subset_append_right _ _))

theorem after_isNormal (p : Project) {b : Build} (h : b.tree.IsNormal) (files : List Text) :
    (after p b files).tree.IsNormal := by
  induction files using List.reverseRecOn with
  | nil => exact h
  | append_singleton files g ih =>
    cases steps_after p b files g with
    | failed _ htree => rwa [htree]
    | tried _ htree => rwa [htree]
    | wrote _ _ _ _ _ htree => exact ih.putOutput htree

end Build

/-- A build stays in its directories. The source directory is there, none of its
    names is a pattern for anything but itself, and no pattern has a step `..`.
    Then every file that is built is below the source directory, with a way of
    names only; every output is below the output directory; and the tree changes
    at no other place, but that the output directory and those above it are made
    if they are missing. -/
theorem Project.build_confined (p : Project) (t : FileTree) (r : BuildReport) (ht : t.IsNormal)
    (hsource : t.find? (Path.ofText p.sourceDir) = some .directory)
    (hplain : ∀ s ∈ (Path.ofText p.sourceDir).segments, Glob.IsPlain s)
    (houtput : p.outputDir ≠ [])
    (hincludes : ∀ pattern ∈ p.includes, Path.up ∉ Text.split (ascii '/') pattern)
    (h : p.build t = .ok r) :
    (∀ file ∈ r.scan.files, (Path.ofText file).IsBelow (Path.ofText p.sourceDir) ∧
      ∀ s ∈ Text.split (ascii '/') (Path.relativeTo p.sourceDir file), IsName s) ∧
    (∀ o ∈ r.build.outputs, (Path.ofText o).IsBelow (Path.ofText p.outputDir)) ∧
    (∀ q, r.build.tree.at? q ≠ t.at? q →
      q.IsBelow (t.place p.outputDir) ∨
        t.at? q = none ∧ r.build.tree.at? q = some .directory ∧
          (q = t.place p.outputDir ∨ q.Above (t.place p.outputDir))) ∧
    r.build.tree.IsNormal := by
  obtain ⟨hscan, hbuild⟩ := build_eq_ok h
  have hnames : ∀ file ∈ r.scan.files, ∃ names, names ≠ [] ∧ (∀ s ∈ names, IsName s) ∧
      file = ((Path.ofText p.sourceDir).extend names).text :=
    fun file hfile => FileTree.exists_names_of_mem_scan ht hsource hplain hincludes hscan hfile
  have hbelow : ∀ file ∈ r.scan.files, (Path.ofText (outputPath p.sourceDir p.outputDir
      file)).IsBelow (Path.ofText p.outputDir) := by
    intro file hfile
    obtain ⟨names, hne, hnames, rfl⟩ := hnames file hfile
    exact isBelow_outputPath houtput hne hnames
  refine ⟨fun file hfile => ?_, fun o ho => ?_, fun q hq => ?_, ?_⟩
  · obtain ⟨names, hne, hnames, rfl⟩ := hnames file hfile
    have hspelled := ((Path.normal_ofText p.sourceDir).extend hnames).text_spells.1
    refine ⟨⟨names, hne, hnames, hspelled⟩, ?_⟩
    rw [Path.relativeTo_eq hne hspelled, Text.split_join hne fun s hs => (hnames s hs).step]
    exact hnames
  · rw [hbuild] at ho
    obtain ⟨file, hfile, rfl⟩ := Build.exists_of_mem_outputs p rfl ho
    exact hbelow file hfile
  · -- Where the tree has changed there is an output, or a directory on the way
    -- to one.
    have hplaces : ∀ file ∈ r.scan.files, (p.place t file).IsBelow (t.place p.outputDir) :=
      fun file hfile => (hbelow file hfile).place t.home
    rw [hbuild] at hq ⊢
    have hgrows := Build.after_grows p (.start t r.scan) r.scan.files
    by_cases hplace : q ∈ r.scan.files.map (p.place t)
    · obtain ⟨file, hfile, rfl⟩ := List.mem_map.mp hplace
      exact .inl (hplaces file hfile)
    · rcases hgrows.elsewhere q hplace with hsame | ⟨hnone, hmade, place, hplace, habove⟩
      · exact absurd hsame hq
      · obtain ⟨file, hfile, rfl⟩ := List.mem_map.mp hplace
        rcases habove.isBelow_or (hplaces file hfile) with hinside | hon
        · exact .inl hinside
        · exact .inr ⟨hnone, hmade, hon⟩
  · rw [hbuild]
    exact Build.after_isNormal p ht r.scan.files

/-! ## Two source directories

The name of the first ends with a backslash and is a pattern for itself all the
same; that of the second stands for a directory beside it as well. -/

def escapeProject : Project :=
  ⟨utf8 "s\\", utf8 "out/css", [utf8 "**/\x7ba,b\x7d.mcss"], false, false, .standard⟩

def escapeTree : FileTree :=
  .ofTexts ⟨[utf8 "x"]⟩ [(utf8 "s\\", .directory), (utf8 "s\\/t", .directory),
    (utf8 "s\\/t/a.mcss", .file (utf8 ".a \x7b hide(); \x7d") .full)]

def escapeScan : Scan := ⟨[utf8 "s\\/t/a.mcss"], 0⟩

theorem Project.build_confined_escape :
    let r : BuildReport := ⟨escapeScan, Build.run escapeProject escapeTree escapeScan⟩
    escapeProject.build escapeTree = .ok r ∧
      (∀ s ∈ (Path.ofText escapeProject.sourceDir).segments, Glob.IsPlain s) ∧
      (Path.ofText (utf8 "s\\/t/a.mcss")).IsBelow (Path.ofText escapeProject.sourceDir) ∧
      utf8 "out/css/t/a.css" ∈ r.build.outputs ∧
      (Path.ofText (utf8 "out/css/t/a.css")).IsBelow (Path.ofText escapeProject.outputDir) := by
  intro r
  have hbuild : escapeProject.build escapeTree = .ok r :=
    build_of_scan (FileTree.scan_of_sweep (by decide +kernel) (by decide))
  have hnormal : escapeTree.IsNormal := FileTree.isNormal_ofTexts (by decide) _
  have hplain : ∀ s ∈ (Path.ofText escapeProject.sourceDir).segments, Glob.IsPlain s := by
    decide +kernel
  have hreported : utf8 "out/css/t/a.css" ∈ r.build.outputs := by decide +kernel
  obtain ⟨hfiles, houtputs, -⟩ := escapeProject.build_confined escapeTree r hnormal
    (by decide +kernel) hplain (by decide) (by decide) hbuild
  exact ⟨hbuild, hplain, (hfiles _ (List.mem_singleton_self _)).1, hreported,
    houtputs _ hreported⟩

def starProject : Project :=
  ⟨utf8 "s*", utf8 "out", [], false, false, .standard⟩

def starTree : FileTree :=
  .ofTexts ⟨[utf8 "x"]⟩ [(utf8 "s*", .directory), (utf8 "sx", .directory),
    (utf8 "sx/a.mcss", .file (utf8 ".a \x7b hide(); \x7d") .full)]

def starScan : Scan := ⟨[utf8 "sx/a.mcss"], 0⟩

/-- A file beside the source directory is built, and its output is written beside
    the output directory. -/
theorem Project.build_leaves_directories :
    ∃ r, starProject.build starTree = .ok r ∧
      starTree.find? (Path.ofText starProject.sourceDir) = some .directory ∧
      r.scan.files = [utf8 "sx/a.mcss"] ∧ r.build.outputs = [utf8 "sx/a.css"] ∧
      Path.relativeTo starProject.sourceDir (utf8 "sx/a.mcss") = utf8 "../sx/a.mcss" ∧
      ¬ (Path.ofText (utf8 "sx/a.mcss")).IsBelow (Path.ofText starProject.sourceDir) ∧
      ¬ (Path.ofText (utf8 "sx/a.css")).IsBelow (Path.ofText starProject.outputDir) := by
  have hbuild : starProject.build starTree =
      .ok ⟨starScan, Build.run starProject starTree starScan⟩ :=
    build_of_scan (FileTree.scan_of_sweep (by decide +kernel) (by decide))
  have hbeside : ∀ p q : Path, ¬ p.segments <+: q.segments → ¬ q.IsBelow p := by
    rintro p q hp ⟨names, -, -, rfl⟩
    exact hp (List.prefix_append _ _)
  refine ⟨_, hbuild, by decide +kernel, rfl, by decide +kernel, by decide +kernel,
    hbeside _ _ (by decide +kernel), hbeside _ _ (by decide +kernel)⟩

end MixinCss
