/-
  MixinCss.Proofs.Outputs

  What a build reports as written. Every source ends as an output or as an
  error (`Build.after_outcomes`), and every output holds at the end what was
  written there last (`Build.after_outputs`). An output path is not compared
  with those before it, so two sources can report the same one: then the text
  of the first is lost.
-/

import Mathlib.Data.List.Nodup
import Mathlib.Logic.Function.Basic
import MixinCss.Proofs.Build

namespace MixinCss

namespace Build

/-! ## Outputs and errors -/

/-- Each of the files ends as an output or as an error, in order. The outcome of
    a file is the fault that stopped it, if any. -/
theorem after_outcomes {p : Project} (hdry : p.dryRun = false) (b : Build) {files : List Text}
    (hfiles : files.Nodup) :
    ∃ outcome : Text → Option BuildFault,
      (after p b files).outputs = b.outputs ++
        (files.filter fun f => (outcome f).isNone).map (outputPath p.sourceDir p.outputDir) ∧
      (after p b files).errors = b.errors ++
        files.filterMap fun f =>
          (outcome f).map (BuildError.mk (Path.relativeTo p.sourceDir f)) := by
  induction files generalizing b with
  | nil => exact ⟨fun _ => none, (List.append_nil _).symm, (List.append_nil _).symm⟩
  | cons f files ih =>
    obtain ⟨hf, hnodup⟩ := List.nodup_cons.mp hfiles
    obtain ⟨outcome, houtputs, herrors⟩ := ih (step p p.options.catalog b f) hnodup
    -- The outcome of `f` is set apart from those of the files behind it.
    have hset : ∀ (first : Option BuildFault), ∀ g ∈ files,
        Function.update outcome f first g = outcome g :=
      fun first g hg => Function.update_of_ne (ne_of_mem_of_not_mem hg hf) _ _
    have hfilter : ∀ first : Option BuildFault,
        (files.filter fun g => (Function.update outcome f first g).isNone) =
          files.filter fun g => (outcome g).isNone :=
      fun first => List.filter_congr fun g hg => by rw [hset first g hg]
    have hfilterMap : ∀ first : Option BuildFault,
        (files.filterMap fun g => (Function.update outcome f first g).map
          (BuildError.mk (Path.relativeTo p.sourceDir g))) =
        files.filterMap fun g => (outcome g).map
          (BuildError.mk (Path.relativeTo p.sourceDir g)) :=
      fun first => List.filterMap_congr fun g hg => by rw [hset first g hg]
    have hafter : after p b (f :: files) = after p (step p p.options.catalog b f) files := rfl
    cases step_steps p p.options.catalog b f with
    | failed fault _ hsame _ hadded =>
      refine ⟨Function.update outcome f (some fault), ?_, ?_⟩
      · rw [hafter, houtputs, hsame, List.filter_cons, hfilter, Function.update_self]
        rfl
      · rw [hafter, herrors, hadded, List.filterMap_cons, hfilterMap, Function.update_self,
          List.append_assoc]
        rfl
    | tried htried => exact absurd (htried.symm.trans hdry) (by decide)
    | wrote _ _ _ _ _ _ hadded _ hsame =>
      refine ⟨Function.update outcome f none, ?_, ?_⟩
      · rw [hafter, houtputs, hadded, List.filter_cons, hfilter, Function.update_self,
          List.append_assoc]
        rfl
      · rw [hafter, herrors, hsame, List.filterMap_cons, hfilterMap, Function.update_self]
        rfl

/-- Only the output paths of the files are reported. -/
theorem exists_of_mem_outputs (p : Project) {b : Build} (hb : b.outputs = []) {files : List Text}
    {o : Text} (ho : o ∈ (after p b files).outputs) :
    ∃ file ∈ files, outputPath p.sourceDir p.outputDir file = o := by
  induction files using List.reverseRecOn with
  | nil =>
    have hnone : o ∈ b.outputs := ho
    rw [hb] at hnone
    exact absurd hnone List.not_mem_nil
  | append_singleton files g ih =>
    have hbefore : o ∈ (after p b files).outputs →
        ∃ file ∈ files ++ [g], outputPath p.sourceDir p.outputDir file = o := by
      intro ho
      obtain ⟨file, hfile, hpath⟩ := ih ho
      exact ⟨file, List.mem_append_left _ hfile, hpath⟩
    cases steps_after p b files g with
    | failed _ _ houtputs => exact hbefore (houtputs ▸ ho)
    | tried _ _ houtputs => exact hbefore (houtputs ▸ ho)
    | wrote _ _ _ _ _ _ houtputs =>
      rw [houtputs, List.mem_append, List.mem_singleton] at ho
      rcases ho with ho | rfl
      · exact hbefore ho
      · exact ⟨g, List.mem_append_right _ (List.mem_singleton_self g), rfl⟩

/-- Sources with places of their own for their outputs report no place twice. -/
theorem nodup_after {p : Project} (hdry : p.dryRun = false) {b : Build} (hb : b.outputs = [])
    {files : List Text} (hfiles : files.Nodup)
    (hplaces : ∀ f ∈ files, ∀ g ∈ files, f ≠ g → p.place b.tree f ≠ p.place b.tree g) :
    ((after p b files).outputs.map b.tree.place).Nodup := by
  obtain ⟨outcome, houtputs, -⟩ := after_outcomes hdry b hfiles
  have hwritten := hfiles.filter fun f => (outcome f).isNone
  rw [houtputs, hb, List.nil_append, List.map_map]
  show ((files.filter fun f => (outcome f).isNone).map (p.place b.tree)).Nodup
  refine hwritten.map_on fun f hf g hg hsame => ?_
  by_contra hne
  exact hplaces f (List.mem_of_mem_filter hf) g (List.mem_of_mem_filter hg) hne hsame

/-- An output that was reported holds what was written there last. -/
theorem after_outputs {p : Project} {b : Build} (hb : b.outputs = []) (files : List Text)
    {o : Text} (ho : o ∈ (after p b files).outputs) :
    ∃ g text access, WritesLast p b files (b.tree.place o) g text ∧
      (after p b files).tree.at? (b.tree.place o) = some (.file text access) := by
  induction files using List.reverseRecOn with
  | nil =>
    have hnone : o ∈ b.outputs := ho
    rw [hb] at hnone
    exact absurd hnone List.not_mem_nil
  | append_singleton files g ih =>
    by_cases hbefore : o ∈ (after p b files).outputs
    · obtain ⟨last, text, access, hlast, htext⟩ := ih hbefore
      rcases steps_after_at? p b files g htext with ⟨next, hnext, helse, hkept⟩ |
        ⟨text, hlast, hwritten⟩
      · exact ⟨last, text, access, hlast.concat hnext helse, hkept⟩
      · exact ⟨g, text, access, hlast, hwritten⟩
    · -- The output is new, so it is that of the last file.
      have hplaces := place_after p b files
      cases steps_after p b files g with
      | failed _ _ houtputs =>
        rw [houtputs] at ho
        exact absurd ho hbefore
      | tried _ _ houtputs =>
        rw [houtputs] at ho
        exact absurd ho hbefore
      | wrote src compiled hother hsrc hcompiled htree houtputs =>
        have hnew : o = outputPath p.sourceDir p.outputDir g := by
          rw [houtputs, List.mem_append, List.mem_singleton] at ho
          exact ho.resolve_left hbefore
        subst hnew
        obtain ⟨access, hwritten⟩ := FileTree.at?_of_putOutput_self htree
        rw [hplaces] at hwritten
        rw [Project.place, hplaces, hplaces] at hother
        exact ⟨g, _, access, .last hother.symm rfl hsrc hcompiled houtputs, hwritten⟩

/-- A source where no other source has its output stays as it was at first. -/
theorem at?_after {p : Project} {b : Build} {files : List Text} {f src : Text} {access : Access}
    (hsrc : b.tree.at? (b.tree.place f) = some (.file src access))
    (hapart : ∀ g ∈ files, g ≠ f → p.place b.tree g ≠ b.tree.place f) :
    (after p b files).tree.at? (b.tree.place f) = some (.file src access) := by
  obtain ⟨content, hcontent, ⟨rfl, -⟩ | ⟨g, hlast⟩⟩ := after_at? p b files hsrc
  · exact hcontent
  · have hg := hlast.mem
    obtain ⟨_, hother, hplace, -⟩ := hlast
    have hne : g ≠ f := fun h => hother (h ▸ rfl)
    exact absurd hplace (hapart g hg hne)

end Build

/-- The files of a build are in byte order, so no file comes twice. -/
theorem build_files {p : Project} {t : FileTree} {r : BuildReport} (h : p.build t = .ok r) :
    r.scan.files.Pairwise (fun a b => Text.before a b = true) ∧ r.scan.files.Nodup := by
  have hsorted := FileTree.pairwise_scan (build_eq_ok h).1
  refine ⟨hsorted, hsorted.imp fun hab => ?_⟩
  rintro rfl
  exact absurd hab (Bool.eq_false_iff.mp (Text.before_irrefl _))

/-- What the outputs of a build hold. Each holds the text of the last source
    that was written there. If no two sources have their outputs at one place,
    the places of the outputs differ and each holds what its own source is
    compiled to as it is when its turn comes; that is as it was at first, unless
    another source has its output there. -/
theorem Project.build_outputs_hold (p : Project) (t : FileTree) (r : BuildReport)
    (hdry : p.dryRun = false) (h : p.build t = .ok r) :
    (∀ o ∈ r.build.outputs, ∃ g text access,
      Build.WritesLast p (.start t r.scan) r.scan.files (t.place o) g text ∧
        r.build.tree.at? (t.place o) = some (.file text access)) ∧
    ((∀ f ∈ r.scan.files, ∀ g ∈ r.scan.files, f ≠ g → p.place t f ≠ p.place t g) →
      (r.build.outputs.map t.place).Nodup ∧
      ∀ f ∈ r.scan.files, outputPath p.sourceDir p.outputDir f ∈ r.build.outputs →
        ∃ front back src compiled access, r.scan.files = front ++ f :: back ∧
          (Build.after p (.start t r.scan) front).tree.read f = .ok src ∧
          compile src p.options = .ok compiled ∧
          r.build.tree.at? (p.place t f) = some (.file (outputText compiled.css) access) ∧
          ((∀ g ∈ r.scan.files, g ≠ f → p.place t g ≠ t.place f) → t.read f = .ok src)) := by
  obtain ⟨hscan, hbuild⟩ := build_eq_ok h
  obtain ⟨-, hnodup⟩ := build_files h
  have hholds : ∀ o ∈ r.build.outputs, ∃ g text access,
      Build.WritesLast p (.start t r.scan) r.scan.files (t.place o) g text ∧
        r.build.tree.at? (t.place o) = some (.file text access) := by
    intro o ho
    rw [hbuild] at ho ⊢
    exact Build.after_outputs rfl r.scan.files ho
  refine ⟨hholds, fun hplaces => ⟨?_, fun f hf hreported => ?_⟩⟩
  · rw [hbuild]
    exact @Build.nodup_after p hdry (.start t r.scan) rfl r.scan.files hnodup hplaces
  · obtain ⟨g, text, access, hlast, htext⟩ := hholds _ hreported
    -- Another source has its output elsewhere, so the last one is `f` itself.
    have hg : g = f := by
      by_contra hne
      have hmem := hlast.mem
      obtain ⟨_, _, hplace, -⟩ := hlast
      exact hplaces g hmem f hf hne hplace
    subst hg
    obtain @⟨front, back, _, src, compiled, hfiles, _, _, hsrc, hcompiled, rfl, _, _⟩ := hlast
    refine ⟨front, back, src, compiled, access, hfiles, hsrc, hcompiled, htext, fun hapart => ?_⟩
    obtain ⟨first, access, hfirst⟩ := FileTree.exists_at?_of_mem_scan hscan hf
    have hfront : ∀ g' ∈ front, g' ≠ g → p.place t g' ≠ t.place g := by
      intro g' hg'
      apply hapart
      rw [hfiles]
      exact List.mem_append_left _ hg'
    have hkept := @Build.at?_after p (.start t r.scan) front g first access hfirst hfront
    have hplace := Build.place_after p (.start t r.scan) front g
    rw [FileTree.read_of_file hfirst, ← FileTree.read_of_file (hplace ▸ hkept)]
    exact hsrc

/-! ## Sources with outputs of their own

The outputs are in a directory that is not there yet and that is spelled from
the root. The second of the four sources cannot be compiled, and the last one
cannot be read. -/

def mixedProject : Project :=
  ⟨utf8 "s", utf8 "/x/w/out/css", [], false, false, .standard⟩

def mixedTree : FileTree :=
  .ofTexts ⟨[utf8 "x", utf8 "w"]⟩ [(utf8 "s", .directory),
    (utf8 "s/a.mcss", .file (utf8 ".a \x7b hide(); \x7d") .full),
    (utf8 "s/b.mcss", .file (utf8 ".b \x7b hide(); ") .full),
    (utf8 "s/c.mcss", .file (utf8 ".c \x7b glow(1); top: 2; \x7d") .full),
    (utf8 "s/d.mcss", .file [] ⟨false, true⟩)]

def mixedScan : Scan :=
  ⟨[utf8 "s/a.mcss", utf8 "s/b.mcss", utf8 "s/c.mcss", utf8 "s/d.mcss"], 0⟩

theorem mixedProject_build :
    mixedProject.build mixedTree =
      .ok ⟨mixedScan, Build.run mixedProject mixedTree mixedScan⟩ :=
  build_of_scan (FileTree.scan_of_sweep (by decide +kernel) (by decide))

/-- The third source is compiled as it was at first. -/
theorem Project.build_outputs_hold_mixed :
    let r : BuildReport := ⟨mixedScan, Build.run mixedProject mixedTree mixedScan⟩
    mixedProject.dryRun = false ∧ mixedProject.build mixedTree = .ok r ∧
      (∀ f ∈ r.scan.files, ∀ g ∈ r.scan.files, f ≠ g →
        mixedProject.place mixedTree f ≠ mixedProject.place mixedTree g) ∧
      utf8 "/x/w/out/css/c.css" ∈ r.build.outputs ∧
      (r.build.outputs.map mixedTree.place).Nodup ∧
      ∃ src compiled access, mixedTree.read (utf8 "s/c.mcss") = .ok src ∧
        compile src .standard = .ok compiled ∧
        r.build.tree.at? (mixedTree.place (utf8 "out/css/c.css")) =
          some (.file (outputText compiled.css) access) := by
  intro r
  have hplaces : ∀ f ∈ r.scan.files, ∀ g ∈ r.scan.files, f ≠ g →
      mixedProject.place mixedTree f ≠ mixedProject.place mixedTree g := by decide +kernel
  have houtput : outputPath mixedProject.sourceDir mixedProject.outputDir (utf8 "s/c.mcss") =
      utf8 "/x/w/out/css/c.css" := by decide +kernel
  have hplace : mixedProject.place mixedTree (utf8 "s/c.mcss") =
      mixedTree.place (utf8 "out/css/c.css") := by decide +kernel
  have hreported : utf8 "/x/w/out/css/c.css" ∈ r.build.outputs := by decide +kernel
  obtain ⟨-, hholds⟩ :=
    mixedProject.build_outputs_hold mixedTree r rfl mixedProject_build
  obtain ⟨hnodup, hown⟩ := hholds hplaces
  obtain ⟨_, _, src, compiled, access, -, -, hcompiled, hwritten, hkept⟩ :=
    hown (utf8 "s/c.mcss") (by decide) (houtput ▸ hreported)
  rw [hplace] at hwritten
  exact ⟨rfl, mixedProject_build, hplaces, hreported, hnodup, src, compiled, access,
    hkept (by decide +kernel), hcompiled, hwritten⟩

/-! ## Two sources with one output

The outputs of `s/a.mcss` and `s/a.scss` have the same path. -/

def sharedProject : Project :=
  ⟨utf8 "s", [], [utf8 "**/*.mcss", utf8 "**/*.scss"], false, false, .standard⟩

def sharedTree : FileTree :=
  .ofTexts ⟨[utf8 "x", utf8 "w"]⟩ [(utf8 "s", .directory),
    (utf8 "s/a.mcss", .file (utf8 ".a \x7b hide(); \x7d") .full),
    (utf8 "s/a.scss", .file (utf8 ".b \x7b hide(); \x7d") .full)]

def sharedScan : Scan := ⟨[utf8 "s/a.mcss", utf8 "s/a.scss"], 0⟩

/-- Both sources are reported as written, and the output of the first one is
    lost. -/
theorem Project.build_reports_lost_output :
    ∃ r, sharedProject.build sharedTree = .ok r ∧ sharedProject.dryRun = false ∧
      r.build.outputs = [utf8 "s/a.css", utf8 "s/a.css"] ∧ ¬ r.build.outputs.Nodup ∧
      r.build.tree.at? (sharedTree.place (utf8 "s/a.css")) =
        some (.file (utf8 ".b \x7b\n\tdisplay: none;\n\x7d\n") .full) := by
  have hbuild : sharedProject.build sharedTree =
      .ok ⟨sharedScan, Build.run sharedProject sharedTree sharedScan⟩ :=
    build_of_scan (FileTree.scan_of_sweep (by decide +kernel) (by decide))
  exact ⟨_, hbuild, rfl, by decide +kernel, by decide +kernel, by decide +kernel⟩

end MixinCss
