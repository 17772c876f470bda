/-
  MixinCss.Proofs.Build

  What a build does to the sources. A step compares the output of a file with
  the file itself and with no other source, so a source can be overwritten: by
  the output of another one. That this is the only way, and what the source
  then holds, is shown in three moves:

    * `Build.step_steps` says once what building one file does;
    * one step keeps every file that is not at its output;
    * a run keeps every file where no output is written, and else leaves there
      what was written last (`Build.after_at?`).

  All is told by places, so it makes no difference how a path is spelled. There
  are no links: one file has one place.
-/

import Mathlib.Data.List.Induction
import MixinCss.Build
import MixinCss.Proofs.Files.Sweep

namespace MixinCss

/-! ## Outputs -/

/-- The content of an output file. -/
def outputText (css : Text) : Text := if css.isEmpty then css else css ++ [ascii '\n']

namespace FileTree

variable {t t' : FileTree} {path css : Text}

theorem putOutput_eq_ok (h : t.putOutput path css = .ok t') :
    ∃ made, t.makeDirectories (Path.directory path) = .ok made ∧
      made.write path (outputText css) = .ok t' := by
  obtain ⟨made, hmade, hwrite⟩ := bind_eq_ok_iff.mp h
  exact ⟨made, mapError_eq_ok_iff.mp hmade, mapError_eq_ok_iff.mp hwrite⟩

theorem home_of_putOutput (h : t.putOutput path css = .ok t') : t'.home = t.home := by
  obtain ⟨made, hmade, hwrite⟩ := putOutput_eq_ok h
  exact (home_of_write hwrite).trans (home_of_makeDirectories hmade)

theorem at?_of_putOutput_self (h : t.putOutput path css = .ok t') :
    ∃ access, t'.at? (t.place path) = some (.file (outputText css) access) := by
  obtain ⟨made, hmade, hwrite⟩ := putOutput_eq_ok h
  rw [← place_congr (home_of_makeDirectories hmade)]
  exact ⟨_, at?_of_write_self hwrite⟩

/-- A file at the place of the output keeps its access. -/
theorem at?_of_putOutput_file {old : Text} {access : Access} (h : t.putOutput path css = .ok t')
    (hfile : t.at? (t.place path) = some (.file old access)) :
    t'.at? (t.place path) = some (.file (outputText css) access) := by
  obtain ⟨made, hmade, hwrite⟩ := putOutput_eq_ok h
  have hkept := at?_of_makeDirectories hmade hfile
  rw [← place_congr (home_of_makeDirectories hmade)] at hkept ⊢
  rw [at?_of_write_self hwrite, accessAt_of_file hkept]

theorem at?_of_putOutput_ne {q : Place} {e : Entry} (h : t.putOutput path css = .ok t')
    (hq : q ≠ t.place path) (hfound : t.at? q = some e) : t'.at? q = some e := by
  obtain ⟨made, hmade, hwrite⟩ := putOutput_eq_ok h
  rw [← place_congr (home_of_makeDirectories hmade)] at hq
  rw [at?_of_write_ne hwrite hq]
  exact at?_of_makeDirectories hmade hfound

end FileTree

/-- The place of the output of a source. -/
def Project.place (p : Project) (t : FileTree) (file : Text) : Place :=
  t.place (outputPath p.sourceDir p.outputDir file)

/-! ## One file -/

namespace Build

/-- What building one file makes of the course of a build. -/
inductive Steps (p : Project) (catalog : Catalog) (b : Build) (file : Text) (b' : Build) :
    Prop where
  /-- The file fails and nothing is written. -/
  | failed (fault : BuildFault) (htree : b'.tree = b.tree) (houtputs : b'.outputs = b.outputs)
      (hwritten : b'.written = b.written)
      (herrors : b'.errors = b.errors ++ [⟨Path.relativeTo p.sourceDir file, fault⟩])
  /-- The file is compiled for nothing. -/
  | tried (hdry : p.dryRun = true) (htree : b'.tree = b.tree) (houtputs : b'.outputs = b.outputs)
      (hwritten : b'.written = b.written) (herrors : b'.errors = b.errors)
  /-- The output is written, at a place that is not that of the file. -/
  | wrote (src : Text) (compiled : Compiled) (hother : p.place b.tree file ≠ b.tree.place file)
      (hsrc : b.tree.read file = .ok src)
      (hcompiled : compileWith catalog p.options.units src = .ok compiled)
      (htree : b.tree.putOutput (outputPath p.sourceDir p.outputDir file) compiled.css =
        .ok b'.tree)
      (houtputs : b'.outputs = b.outputs ++ [outputPath p.sourceDir p.outputDir file])
      (hwritten : b'.written = b.written + 1) (herrors : b'.errors = b.errors)

theorem step_steps (p : Project) (catalog : Catalog) (b : Build) (file : Text) :
    Steps p catalog b file (step p catalog b file) := by
  unfold step
  dsimp only
  split
  · exact .failed _ rfl rfl rfl rfl
  · rename_i hother
    split
    · exact .failed _ rfl rfl rfl rfl
    · rename_i src hsrc
      split
      · exact .failed _ rfl rfl rfl rfl
      · rename_i compiled hcompiled
        split
        · rename_i hdry
          exact .tried hdry rfl rfl rfl rfl
        · split
          · exact .failed _ rfl rfl rfl rfl
          · rename_i tree htree
            exact .wrote src compiled hother hsrc hcompiled htree rfl rfl rfl

section

variable {p : Project} {catalog : Catalog} {b b' : Build} {file : Text}

theorem Steps.home (h : Steps p catalog b file b') : b'.tree.home = b.tree.home := by
  cases h with
  | failed _ htree => rw [htree]
  | tried _ htree => rw [htree]
  | wrote _ _ _ _ _ htree => exact FileTree.home_of_putOutput htree

/-- One step keeps a file and writes elsewhere, or writes its output there. -/
theorem Steps.at? {place : Place} {content : Text} {access : Access}
    (h : Steps p catalog b file b') (hfile : b.tree.at? place = some (.file content access)) :
    (∃ more, b'.outputs = b.outputs ++ more ∧ (∀ o ∈ more, b.tree.place o ≠ place) ∧
      b'.tree.at? place = some (.file content access)) ∨
    ∃ src compiled, b.tree.place file ≠ place ∧ p.place b.tree file = place ∧
      b.tree.read file = .ok src ∧ compileWith catalog p.options.units src = .ok compiled ∧
      b'.outputs = b.outputs ++ [outputPath p.sourceDir p.outputDir file] ∧
      b'.tree.at? place = some (.file (outputText compiled.css) access) := by
  cases h with
  | failed _ htree houtputs =>
    rw [htree, houtputs]
    exact .inl ⟨[], (List.append_nil _).symm, List.forall_mem_nil _, hfile⟩
  | tried _ htree houtputs =>
    rw [htree, houtputs]
    exact .inl ⟨[], (List.append_nil _).symm, List.forall_mem_nil _, hfile⟩
  | wrote src compiled hother hsrc hcompiled htree houtputs =>
    -- New directories stand where nothing was, so they do not touch the file.
    by_cases hplace : p.place b.tree file = place
    · subst hplace
      exact .inr ⟨src, compiled, hother.symm, rfl, hsrc, hcompiled, houtputs,
        FileTree.at?_of_putOutput_file htree hfile⟩
    · exact .inl ⟨_, houtputs, List.forall_mem_singleton.mpr hplace,
        FileTree.at?_of_putOutput_ne htree (Ne.symm hplace) hfile⟩

end

/-! ## All files -/

/-- The course of a build before its first file. -/
def start (t : FileTree) (s : Scan) : Build :=
  ⟨t, [], 0, [], [], [.scanned s.discovered s.skipped]⟩

/-- The course of a build after more files. -/
def after (p : Project) (b : Build) (files : List Text) : Build :=
  files.foldl (step p p.options.catalog) b

theorem after_concat (p : Project) (b : Build) (files : List Text) (g : Text) :
    after p b (files ++ [g]) = step p p.options.catalog (after p b files) g := by
  unfold after
  rw [List.foldl_append, List.foldl_cons, List.foldl_nil]

/-- What the last file of a run makes of it. -/
theorem steps_after (p : Project) (b : Build) (files : List Text) (g : Text) :
    Steps p p.options.catalog (after p b files) g (after p b (files ++ [g])) := by
  rw [after_concat]
  exact step_steps p p.options.catalog (after p b files) g

/-- The working directory is the same all the time. -/
theorem home_after (p : Project) (b : Build) (files : List Text) :
    (after p b files).tree.home = b.tree.home := by
  induction files using List.reverseRecOn with
  | nil => rfl
  | append_singleton files g ih => exact (steps_after p b files g).home.trans ih

theorem place_after (p : Project) (b : Build) (files : List Text) (path : Text) :
    (after p b files).tree.place path = b.tree.place path :=
  FileTree.place_congr (home_after p b files) path

/-- Building `files`, the source `g` writes `text` at a place that is not its
    own, and no source behind it writes there. The text is what `g` is compiled
    to as it is when its turn comes. -/
inductive WritesLast (p : Project) (b : Build) (files : List Text) (place : Place)
    (g text : Text) : Prop where
  | intro {front back later : List Text} {src : Text} {compiled : Compiled}
      (hfiles : files = front ++ g :: back) (hother : b.tree.place g ≠ place)
      (hplace : p.place b.tree g = place) (hsrc : (after p b front).tree.read g = .ok src)
      (hcompiled : compile src p.options = .ok compiled) (htext : text = outputText compiled.css)
      (houtputs : (after p b files).outputs =
        (after p b front).outputs ++ outputPath p.sourceDir p.outputDir g :: later)
      (hlater : ∀ o ∈ later, b.tree.place o ≠ place)

section

variable {p : Project} {b : Build} {files : List Text} {place : Place} {g text : Text}

/-- What is written last stays so if the next file writes elsewhere. -/
theorem WritesLast.concat {more : List Text} {next : Text} (h : WritesLast p b files place g text)
    (houtputs : (after p b (files ++ [next])).outputs = (after p b files).outputs ++ more)
    (hmore : ∀ o ∈ more, b.tree.place o ≠ place) :
    WritesLast p b (files ++ [next]) place g text := by
  obtain @⟨front, back, later, src, compiled, rfl, hother, hplace, hsrc, hcompiled, htext, hbefore,
    hlater⟩ := h
  refine .intro (by rw [List.append_assoc, List.cons_append]) hother hplace hsrc hcompiled htext
    ?_ (List.forall_mem_append.mpr ⟨hlater, hmore⟩)
  rw [houtputs, hbefore, List.append_assoc, List.cons_append]

/-- The last file of a run writes last where it writes. -/
theorem WritesLast.last {src : Text} {compiled : Compiled} (hother : b.tree.place g ≠ place)
    (hplace : p.place b.tree g = place) (hsrc : (after p b files).tree.read g = .ok src)
    (hcompiled : compile src p.options = .ok compiled)
    (houtputs : (after p b (files ++ [g])).outputs =
      (after p b files).outputs ++ [outputPath p.sourceDir p.outputDir g]) :
    WritesLast p b (files ++ [g]) place g (outputText compiled.css) :=
  .intro rfl hother hplace hsrc hcompiled rfl houtputs (List.forall_mem_nil _)

theorem WritesLast.mem (h : WritesLast p b files place g text) : g ∈ files := by
  obtain ⟨rfl, -⟩ := h
  exact List.mem_append_right _ List.mem_cons_self

/-- The next file leaves what a place holds and what was written there last, or
    writes there itself. -/
theorem steps_after_at? (p : Project) (b : Build) (files : List Text) (g : Text) {content : Text}
    {access : Access} (hfile : (after p b files).tree.at? place = some (.file content access)) :
    (∃ more, (after p b (files ++ [g])).outputs = (after p b files).outputs ++ more ∧
      (∀ o ∈ more, b.tree.place o ≠ place) ∧
      (after p b (files ++ [g])).tree.at? place = some (.file content access)) ∨
    ∃ text, WritesLast p b (files ++ [g]) place g text ∧
      (after p b (files ++ [g])).tree.at? place = some (.file text access) := by
  have hplaces := place_after p b files
  rcases (steps_after p b files g).at? hfile with ⟨more, houtputs, helse, hkept⟩ |
    ⟨src, compiled, hother, hplace, hsrc, hcompiled, houtputs, hwritten⟩
  · exact .inl ⟨more, houtputs, fun o ho => hplaces o ▸ helse o ho, hkept⟩
  · rw [hplaces] at hother
    rw [Project.place, hplaces] at hplace
    exact .inr ⟨_, .last hother hplace hsrc hcompiled houtputs, hwritten⟩

end

/-- A file that was there before a run holds afterwards what was written there
    last, and is as it was if nothing was. The induction takes the last file
    off the run, because the last output decides. -/
theorem after_at? (p : Project) (b : Build) (files : List Text) {place : Place} {src : Text}
    {access : Access} (h : b.tree.at? place = some (.file src access)) :
    ∃ content, (after p b files).tree.at? place = some (.file content access) ∧
      ((content = src ∧ ∃ more, (after p b files).outputs = b.outputs ++ more ∧
          ∀ o ∈ more, b.tree.place o ≠ place) ∨
        ∃ g, WritesLast p b files place g content) := by
  induction files using List.reverseRecOn with
  | nil => exact ⟨src, h, .inl ⟨rfl, [], (List.append_nil _).symm, List.forall_mem_nil _⟩⟩
  | append_singleton files g ih =>
    obtain ⟨content, hcontent, hhow⟩ := ih
    rcases steps_after_at? p b files g hcontent with ⟨next, hnext, hnextElse, hkept⟩ |
      ⟨text, hlast, hwritten⟩
    · refine ⟨content, hkept, ?_⟩
      rcases hhow with ⟨rfl, more, hmore, helse⟩ | ⟨last, hlast⟩
      · refine .inl ⟨rfl, more ++ next, ?_, List.forall_mem_append.mpr ⟨helse, hnextElse⟩⟩
        rw [hnext, hmore, List.append_assoc]
      · exact .inr ⟨last, hlast.concat hnext hnextElse⟩
    · exact ⟨text, hwritten, .inr ⟨g, hlast⟩⟩

/-- As many files are counted as outputs are reported. -/
theorem written_after (p : Project) {b : Build} (h : b.written = b.outputs.length)
    (files : List Text) : (after p b files).written = (after p b files).outputs.length := by
  induction files using List.reverseRecOn with
  | nil => exact h
  | append_singleton files g ih =>
    cases steps_after p b files g with
    | failed _ _ houtputs hwritten => rw [hwritten, houtputs, ih]
    | tried _ _ houtputs hwritten => rw [hwritten, houtputs, ih]
    | wrote _ _ _ _ _ _ houtputs hwritten =>
      rw [hwritten, houtputs, ih, List.length_append, List.length_singleton]

end Build

/-! ## Sources -/

/-- The files of a report are those of the scan, built one after the other. -/
theorem build_eq_ok {p : Project} {t : FileTree} {r : BuildReport} (h : p.build t = .ok r) :
    t.scan p.sourceDir p.includes p.useIgnoreList = .ok r.scan ∧
      r.build = Build.after p (.start t r.scan) r.scan.files := by
  obtain ⟨s, hscan, hr⟩ := bind_eq_ok_iff.mp h
  cases hr
  exact ⟨hscan, rfl⟩

theorem build_of_scan {p : Project} {t : FileTree} {s : Scan}
    (h : t.scan p.sourceDir p.includes p.useIgnoreList = .ok s) :
    p.build t = .ok ⟨s, Build.run p t s⟩ := by
  unfold Project.build
  rw [h]
  rfl

/-- The bytes of the sources after a build, whichever of them compile, and
    whether they can be read or not. A source at whose place no output was
    written has the bytes that it had; one at whose place the output of another
    source was written has those of the last such output. So a source stays as
    it is if no other one has its output there. -/
theorem Project.build_source_bytes (p : Project) (t : FileTree) (r : BuildReport)
    (h : p.build t = .ok r) (file : Text) (hfile : file ∈ r.scan.files) :
    ∃ src access, t.at? (t.place file) = some (.file src access) ∧
      ((∀ o ∈ r.build.outputs, t.place o ≠ t.place file) ∧
          r.build.tree.at? (t.place file) = some (.file src access) ∨
        ∃ g text,
          Build.WritesLast p (.start t r.scan) r.scan.files (t.place file) g text ∧
            r.build.tree.at? (t.place file) = some (.file text access)) ∧
      ((∀ g ∈ r.scan.files, t.place g ≠ t.place file → p.place t g ≠ t.place file) →
        r.build.tree.at? (t.place file) = some (.file src access)) := by
  obtain ⟨hscan, hbuild⟩ := build_eq_ok h
  obtain ⟨src, access, hsrc⟩ := FileTree.exists_at?_of_mem_scan hscan hfile
  refine ⟨src, access, hsrc, ?_⟩
  rw [hbuild]
  obtain ⟨content, hcontent, hhow⟩ := Build.after_at? p (.start t r.scan) r.scan.files hsrc
  rcases hhow with ⟨rfl, more, houtputs, helse⟩ | ⟨g, hlast⟩
  · refine ⟨.inl ⟨?_, hcontent⟩, fun _ => hcontent⟩
    rw [houtputs]
    exact helse
  · -- The writer has another place, so the condition excludes it.
    refine ⟨.inr ⟨g, content, hlast, hcontent⟩, fun hnone => ?_⟩
    have hg := hlast.mem
    obtain ⟨_, hother, hplace, -⟩ := hlast
    exact absurd hplace (hnone g hg hother)

/-! ## Two sources with one output

The output of `s/a.mcss` has the place of `s/a.css`, which is a source too. -/

def twinProject : Project :=
  ⟨utf8 "s", [], [utf8 "**/*.css", utf8 "**/*.mcss"], false, false, .standard⟩

def twinTree : FileTree :=
  .ofTexts ⟨[utf8 "x", utf8 "w"]⟩ [(utf8 "s", .directory),
    (utf8 "s/a.css", .file (utf8 ".a \x7b block(10); \x7d") .full),
    (utf8 "s/a.mcss", .file (utf8 ".b \x7b hide(); \x7d") .full)]

def twinScan : Scan := ⟨[utf8 "s/a.css", utf8 "s/a.mcss"], 0⟩

theorem twinProject_build :
    twinProject.build twinTree = .ok ⟨twinScan, Build.run twinProject twinTree twinScan⟩ :=
  build_of_scan (FileTree.scan_of_sweep (by decide +kernel) (by decide))

/-- The first source holds what was written there last, and the second one, which
    is nobody's output, keeps its bytes. -/
theorem Project.build_source_bytes_twins :
    let r : BuildReport := ⟨twinScan, Build.run twinProject twinTree twinScan⟩
    twinProject.build twinTree = .ok r ∧ utf8 "s/a.css" ∈ r.scan.files ∧
      utf8 "s/a.mcss" ∈ r.scan.files ∧
      (∃ g text access,
        Build.WritesLast twinProject (.start twinTree r.scan) r.scan.files
            (twinTree.place (utf8 "s/a.css")) g text ∧
          r.build.tree.at? (twinTree.place (utf8 "s/a.css")) = some (.file text access)) ∧
      ∃ src access, twinTree.at? (twinTree.place (utf8 "s/a.mcss")) = some (.file src access) ∧
        r.build.tree.at? (twinTree.place (utf8 "s/a.mcss")) = some (.file src access) := by
  intro r
  have hfirst : utf8 "s/a.css" ∈ r.scan.files := by decide
  have hsecond : utf8 "s/a.mcss" ∈ r.scan.files := by decide
  refine ⟨twinProject_build, hfirst, hsecond, ?_, ?_⟩
  · obtain ⟨src, access, -, ⟨hnone, -⟩ | ⟨g, text, hlast, htext⟩, -⟩ :=
      twinProject.build_source_bytes twinTree r twinProject_build _ hfirst
    · have hwritten : utf8 "s/a.css" ∈ r.build.outputs := by decide +kernel
      exact absurd rfl (hnone _ hwritten)
    · exact ⟨g, text, access, hlast, htext⟩
  · obtain ⟨src, access, hsrc, -, hkept⟩ :=
      twinProject.build_source_bytes twinTree r twinProject_build _ hsecond
    exact ⟨src, access, hsrc, hkept (by decide +kernel)⟩

/-- A build can modify a source. -/
theorem Project.build_overwrites_source :
    ∃ r, twinProject.build twinTree = .ok r ∧ utf8 "s/a.css" ∈ r.scan.files ∧
      twinTree.at? (twinTree.place (utf8 "s/a.css")) =
        some (.file (utf8 ".a \x7b block(10); \x7d") .full) ∧
      r.build.tree.at? (twinTree.place (utf8 "s/a.css")) =
        some (.file (utf8 ".b \x7b\n\tdisplay: none;\n\x7d\n") .full) :=
  ⟨_, twinProject_build, by decide, by decide, by decide +kernel⟩

/-- The place of the source counts, so the output directory may be spelled from
    the root, or through the directory above the working directory. -/
example : ∀ outputDir ∈ [utf8 "s", utf8 "/x/w/s", utf8 "../w/s"],
    (Build.run { twinProject with outputDir := outputDir } twinTree
      ⟨[utf8 "s/a.css"], 0⟩).errors.map BuildError.message =
        [utf8 "a.css: output would overwrite the source file"] := by
  decide +kernel

/-- So it does where the output directory, spelled from the root, is a directory
    of the sources: the output of `s/a.mcss` is written over `s/sub/a.css`. -/
example :
    let tree : FileTree := .ofTexts ⟨[utf8 "x", utf8 "w"]⟩ [(utf8 "s", .directory),
      (utf8 "s/a.mcss", .file (utf8 ".b \x7b hide(); \x7d") .full), (utf8 "s/sub", .directory),
      (utf8 "s/sub/a.css", .file [] .full)]
    (Build.run { twinProject with outputDir := utf8 "/x/w/s/sub" } tree
      ⟨[utf8 "s/a.mcss", utf8 "s/sub/a.css"], 0⟩).tree.at? (tree.place (utf8 "s/sub/a.css")) =
        some (.file (utf8 ".b \x7b\n\tdisplay: none;\n\x7d\n") .full) := by
  decide +kernel

end MixinCss
