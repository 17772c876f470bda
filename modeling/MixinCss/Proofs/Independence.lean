/-
  MixinCss.Proofs.Independence

  The files of a build do not interfere if their outputs are apart: then each
  of them gives the output, the error and the warnings that it gives in a build
  of its own. The argument has three parts:

    * whether an output can be written depends on what is at its place and on the
      files above it (`FileTree.refusal?`);
    * building a file lets the tree grow at the place of its output only
      (`Build.step_grows`), so it changes none of that for another file;
    * two builds that agree on the source of a file and on the refusal of its
      output are carried on in the same way (`Build.step_agrees`).
-/

import MixinCss.Proofs.Files.Growth
import MixinCss.Proofs.Outputs
import MixinCss.Report.Statistics

namespace MixinCss

/-! ## Places of outputs -/

/-- What is cut off before the name of an output spells the parent of its
    place. -/
theorem directory_outputPath (sourceDir outputDir file : Text) :
    Path.directory (outputPath sourceDir outputDir file) =
      (Path.ofText (outputPath sourceDir outputDir file)).parent := by
  unfold outputPath
  dsimp only
  split
  · -- The name ends with `.css`, so it is neither empty nor a step of dots.
    obtain ⟨steps, last, hsteps, hlast, hname⟩ :=
      Path.exists_lead (file.dropTail (Path.extension file))
    have hcss := Path.isName_css hlast
    rw [hname, List.append_assoc]
    exact Path.directory_eq_parent hsteps hcss.step hcss.nonempty hcss.notHere hcss.notUp
  · unfold Path.join
    split
    · split
      · rfl
      · exact Path.directory_clean _
    · split
      · exact Path.directory_clean _
      · exact Path.directory_clean _

namespace FileTree

variable {t t' : FileTree} {path css : Text}

/-- Why an output cannot be written: a file stands on the way to it, or a
    directory at its place, or a file that refuses to be written. -/
def refusal? (t : FileTree) (path : Text) : Option BuildFault :=
  match (Path.ofText path).parent.chain.find? t.leadsToFile with
  | some d => some (.noDirectory (.notDirectory d.text))
  | none =>
    match t.at? (t.place path) with
    | some .directory => some (.notWritten path (.openDirectory path))
    | some (.file _ access) =>
      if access.writable then none else some (.notWritten path (.openDenied path))
    | none => none

/-- A refusal depends on the place of the output and on what is above it. -/
theorem refusal?_congr (hhome : t'.home = t.home)
    (hplace : t'.at? (t.place path) = t.at? (t.place path))
    (habove : ∀ q, q.Above (t.place path) → t'.holdsFile q = t.holdsFile q) :
    t'.refusal? path = t.refusal? path := by
  have hchain : (Path.ofText path).parent.chain.find? t'.leadsToFile =
      (Path.ofText path).parent.chain.find? t.leadsToFile := by
    have hfiles : ∀ d ∈ (Path.ofText path).parent.chain, t'.leadsToFile d = t.leadsToFile d := by
      intro d hd
      unfold leadsToFile
      rw [hhome]
      rcases Path.above_or_isPrefix_of_mem_chain (Path.normal_ofText path) hd t.home with
        hd | hheld
      · exact habove _ hd
      · -- What holds the working directory is a directory in both trees.
        rw [holdsFile_of_directory (at?_of_isPrefix hheld),
          holdsFile_of_directory (at?_of_isPrefix (hhome.symm ▸ hheld))]
    generalize (Path.ofText path).parent.chain = chain at hfiles ⊢
    induction chain with
    | nil => rfl
    | cons d chain ih =>
      obtain ⟨hd, hrest⟩ := List.forall_mem_cons.mp hfiles
      rw [List.find?_cons, List.find?_cons, hd, ih hrest]
  rw [refusal?, refusal?, hchain, place_congr hhome, hplace]

/-- Making the directories on the way to a path leaves its place as it was. -/
theorem at?_of_directories {made : FileTree}
    (hfind : ∀ q, made.at? q = if q ∈ (Path.ofText path).parent.chain.map (Path.place t.home)
      then some .directory else t.at? q) :
    made.at? (t.place path) = t.at? (t.place path) := by
  rw [hfind]
  split
  · rename_i hmem
    obtain ⟨d, hd, hplace⟩ := List.mem_map.mp hmem
    rcases Path.above_or_isPrefix_of_mem_chain (Path.normal_ofText path) hd t.home with
      habove | hheld
    · exact absurd hplace habove.ne
    · rw [← hplace, at?_of_isPrefix hheld]
  · rfl

variable (hdir : Path.directory path = (Path.ofText path).parent)

include hdir

/-- Where no file is in the way, an output is written into the directories that
    have been made. -/
theorem exists_putOutput_eq (h : (Path.ofText path).parent.chain.find? t.leadsToFile = none)
    (css : Text) :
    ∃ made, t.putOutput path css =
        (made.write path (outputText css)).mapError (.notWritten path) ∧
      made.home = t.home ∧ made.at? (t.place path) = t.at? (t.place path) ∧
      made.isBelowFile (Path.ofText path) = false ∧
      made.find? (Path.directory path) = some .directory ∧ Grows [t.place path] t made := by
  obtain ⟨made, hmade, hhome, hfind⟩ := exists_foldlM_makeDirectory h
  have hmadeAll : ∀ d ∈ (Path.ofText path).parent.chain, made.find? d = some .directory := by
    intro d hd
    rw [find?, hhome, hfind, if_pos (List.mem_map_of_mem hd)]
  refine ⟨made, ?_, hhome, at?_of_directories hfind, ?_, ?_,
    grows_of_directories (Path.normal_ofText path) hhome h hfind⟩
  · unfold putOutput makeDirectories
    rw [hdir, hmade]
    rfl
  · rw [isBelowFile_eq, List.any_eq_false]
    intro d hd
    rw [leadsToFile, holdsFile_of_directory (hmadeAll d hd)]
    exact Bool.false_ne_true
  · rw [hdir]
    exact find?_of_chain hmadeAll

theorem putOutput_of_refusal {fault : BuildFault} (h : t.refusal? path = some fault) :
    t.putOutput path css = .error fault := by
  unfold refusal? at h
  split at h
  · rename_i d hd
    cases h
    unfold putOutput makeDirectories
    rw [hdir, foldlM_makeDirectory_of_find?_eq_some hd]
    rfl
  · rename_i hnone
    obtain ⟨made, hput, hhome, hsame, -⟩ := exists_putOutput_eq hdir hnone css
    rw [← place_congr hhome] at h hsame
    rw [← hsame] at h
    rw [hput]
    split at h
    · rename_i hdirectory
      cases h
      rw [write, find?_ofText, hdirectory]
      rfl
    · rename_i old access hfile
      split at h
      · cases h
      · rename_i hwritable
        cases h
        rw [write_of_file hfile, if_neg hwritable]
        rfl
    · cases h

/-- An output that is not refused is written, and the directories above it are
    made. -/
theorem exists_putOutput (h : t.refusal? path = none) :
    ∃ t', t.putOutput path css = .ok t' ∧
      t'.at? (t.place path) =
        some (.file (outputText css) (t.accessAt (t.place path))) ∧
      Grows [t.place path] t t' := by
  unfold refusal? at h
  split at h
  · cases h
  · rename_i hnone
    obtain ⟨made, hput, hhome, hsame, hbelow, hparent, hgrows⟩ :=
      exists_putOutput_eq hdir hnone css
    -- The file is there and lets itself be written, or it is new.
    have hwrites : ∃ t', made.write path (outputText css) = .ok t' := by
      rw [← hsame] at h
      rw [← place_congr hhome] at h
      split at h
      · cases h
      · rename_i old access hfile
        split at h
        · rename_i hwritable
          exact ⟨_, by rw [write_of_file hfile, if_pos hwritable]⟩
        · cases h
      · rename_i hfree
        exact ⟨_, write_of_none hfree hbelow hparent⟩
    obtain ⟨t', hwrite⟩ := hwrites
    have hwritten := at?_of_write_self hwrite
    have hmore := grows_of_write hwrite
    rw [place_congr hhome] at hwritten hmore
    refine ⟨t', ?_, ?_, hgrows.trans hmore⟩
    · rw [hput, hwrite]
      rfl
    · rw [hwritten, accessAt_congr hsame]

end FileTree

namespace Build

/-! ## One file -/

variable {p : Project} {catalog : Catalog} {b b' c : Build} {file : Text}

/-- Building a file lets the tree grow at the place of its output. -/
theorem step_grows (p : Project) (catalog : Catalog) (b : Build) (file : Text) :
    FileTree.Grows [p.place b.tree file] b.tree (step p catalog b file).tree := by
  cases step_steps p catalog b file with
  | failed _ htree =>
    rw [htree]
    exact .refl _ _
  | tried _ htree =>
    rw [htree]
    exact .refl _ _
  | wrote src compiled _ _ _ htree =>
    have hdir := directory_outputPath p.sourceDir p.outputDir file
    cases hrefusal : b.tree.refusal? (outputPath p.sourceDir p.outputDir file) with
    | some fault => cases (FileTree.putOutput_of_refusal hdir hrefusal).symm.trans htree
    | none =>
      obtain ⟨t', hput, -, hgrows⟩ := FileTree.exists_putOutput hdir hrefusal
      cases hput.symm.trans htree
      exact hgrows

/-- A build goes on with more outputs, warnings and errors. -/
structure Adds (b b' : Build) (outputs : List Text) (warnings : List SourceWarning)
    (errors : List BuildError) : Prop where
  outputs : b'.outputs = b.outputs ++ outputs
  warnings : b'.warnings = b.warnings ++ warnings
  errors : b'.errors = b.errors ++ errors

namespace Adds

variable {outputs : List Text} {warnings : List SourceWarning} {errors : List BuildError}

theorem refl (b : Build) : Adds b b [] [] [] :=
  ⟨(List.append_nil _).symm, (List.append_nil _).symm, (List.append_nil _).symm⟩

theorem note (h : Adds b b' outputs warnings errors) (entries : List LogEntry) :
    Adds b (b'.note entries) outputs warnings errors :=
  ⟨h.outputs, h.warnings, h.errors⟩

theorem fail (h : Adds b b' outputs warnings errors) (name : Text) (fault : BuildFault) :
    Adds b (b'.fail name fault) outputs warnings (errors ++ [⟨name, fault⟩]) := by
  refine ⟨h.outputs, h.warnings, ?_⟩
  rw [Build.fail, h.errors, List.append_assoc]

theorem warn (h : Adds b b' outputs warnings errors) (more : List SourceWarning) :
    Adds b { b' with warnings := b'.warnings ++ more } outputs (warnings ++ more) errors := by
  refine ⟨h.outputs, ?_, h.errors⟩
  rw [h.warnings, List.append_assoc]

theorem write (h : Adds b b' outputs warnings errors) (tree : FileTree) (output : Text)
    (written : Nat) :
    Adds b { b' with tree := tree, outputs := b'.outputs ++ [output], written := written }
      (outputs ++ [output]) warnings errors := by
  refine ⟨?_, h.warnings, h.errors⟩
  rw [h.outputs, List.append_assoc]

end Adds

/-- A file is built in the same way in two builds that agree on its source, on
    the place of its output and on the refusal of it. -/
theorem step_agrees (hhome : b.tree.home = c.tree.home)
    (hsource : b.tree.read file = c.tree.read file)
    (hplace : b.tree.at? (p.place c.tree file) = c.tree.at? (p.place c.tree file))
    (hrefusal : b.tree.refusal? (outputPath p.sourceDir p.outputDir file) =
      c.tree.refusal? (outputPath p.sourceDir p.outputDir file)) :
    ∃ outputs warnings errors,
      Adds b (step p catalog b file) outputs warnings errors ∧
      Adds c (step p catalog c file) outputs warnings errors ∧
      ((step p catalog b file).tree = b.tree ∧ (step p catalog c file).tree = c.tree ∨
        ∃ e, (step p catalog b file).tree.at? (p.place c.tree file) = some e ∧
          (step p catalog c file).tree.at? (p.place c.tree file) = some e) := by
  have hdir := directory_outputPath p.sourceDir p.outputDir file
  have hplaces : ∀ path, b.tree.place path = c.tree.place path := FileTree.place_congr hhome
  have hb := Adds.refl b
  have hc := Adds.refl c
  unfold step
  dsimp only
  rw [hsource, hplaces, hplaces]
  split
  · exact ⟨_, _, _, hb.fail _ _, hc.fail _ _, .inl ⟨rfl, rfl⟩⟩
  · split
    · exact ⟨_, _, _, hb.fail _ _, hc.fail _ _, .inl ⟨rfl, rfl⟩⟩
    · split
      · exact ⟨_, _, _, ((hb.note _).note _).fail _ _, ((hc.note _).note _).fail _ _,
          .inl ⟨rfl, rfl⟩⟩
      · rename_i src _ _ compiled _
        have hb := (hb.note (LogEntry.ofSource catalog src)).warn
          (compiled.warnings.map (SourceWarning.mk (Path.relativeTo p.sourceDir file)))
        have hc := (hc.note (LogEntry.ofSource catalog src)).warn
          (compiled.warnings.map (SourceWarning.mk (Path.relativeTo p.sourceDir file)))
        split
        · exact ⟨_, _, _, hb.note _, hc.note _, .inl ⟨rfl, rfl⟩⟩
        · cases hrefused : c.tree.refusal? (outputPath p.sourceDir p.outputDir file) with
          | some fault =>
            rw [hrefused] at hrefusal
            dsimp only [note]
            rw [FileTree.putOutput_of_refusal hdir hrefusal,
              FileTree.putOutput_of_refusal hdir hrefused]
            exact ⟨_, _, _, hb.fail _ _, hc.fail _ _, .inl ⟨rfl, rfl⟩⟩
          | none =>
            rw [hrefused] at hrefusal
            obtain ⟨t, hput, htext, -⟩ :=
              @FileTree.exists_putOutput _ _ compiled.css hdir hrefusal
            obtain ⟨t', hput', htext', -⟩ :=
              @FileTree.exists_putOutput _ _ compiled.css hdir hrefused
            have haccess := FileTree.accessAt_congr hplace
            rw [Project.place] at haccess
            rw [hplaces, haccess] at htext
            dsimp only [note]
            rw [hput, hput']
            exact ⟨_, _, _, (hb.write t _ _).note _, (hc.write t' _ _).note _,
              .inr ⟨_, htext, htext'⟩⟩

end Build

/-! ## All files -/

namespace Project

variable {p : Project} {t : FileTree} {files : List Text}

/-- The build of a project that finds one file only. -/
def alone (p : Project) (t : FileTree) (file : Text) : Build := Build.run p t ⟨[file], 0⟩

theorem alone_eq_step (p : Project) (t : FileTree) (file : Text) :
    p.alone t file = Build.step p p.options.catalog (.start t ⟨[file], 0⟩) file := rfl

/-- No output has the place of another one, of a directory above it, or of the
    source of another file. -/
structure Apart (p : Project) (t : FileTree) (files : List Text) : Prop where
  places : ∀ f ∈ files, ∀ g ∈ files, f ≠ g → p.place t f ≠ p.place t g
  above : ∀ f ∈ files, ∀ g ∈ files, ¬ (p.place t f).Above (p.place t g)
  sources : ∀ f ∈ files, ∀ g ∈ files, f ≠ g → p.place t f ≠ t.place g

theorem Apart.mono {more : List Text} (h : p.Apart t more) (hsub : files ⊆ more) :
    p.Apart t files where
  places f hf g hg := h.places f (hsub hf) g (hsub hg)
  above f hf g hg := h.above f (hsub hf) g (hsub hg)
  sources f hf g hg := h.sources f (hsub hf) g (hsub hg)

/-- A build of some files is put together from the builds of each. -/
structure Composed (p : Project) (t : FileTree) (files : List Text) (b : Build) : Prop where
  outputs : b.outputs = files.flatMap fun f => (p.alone t f).outputs
  warnings : b.warnings = files.flatMap fun f => (p.alone t f).warnings
  errors : b.errors = files.flatMap fun f => (p.alone t f).errors
  found : ∀ f ∈ files, b.tree.at? (p.place t f) = (p.alone t f).tree.at? (p.place t f)
  grows : FileTree.Grows (files.map (p.place t)) t b.tree

/-- The next file finds its source, its place and the way to it as they were at
    first, so it adds what it adds alone. -/
theorem Composed.concat {b : Build} {g src : Text} {access : Access} (h : p.Composed t files b)
    (hapart : p.Apart t (files ++ [g])) (hg : g ∉ files)
    (hsrc : t.at? (t.place g) = some (.file src access)) :
    p.Composed t (files ++ [g]) (Build.step p p.options.catalog b g) := by
  have hlast : g ∈ files ++ [g] := List.mem_append_right _ (List.mem_singleton_self g)
  have hother : ∀ f ∈ files, f ∈ files ++ [g] ∧ f ≠ g :=
    fun f hf => ⟨List.mem_append_left _ hf, ne_of_mem_of_not_mem hf hg⟩
  have hhome := h.grows.home
  have hgrows := Build.step_grows p p.options.catalog b g
  have hstepPlace : p.place b.tree g = p.place t g := FileTree.place_congr hhome _
  rw [hstepPlace] at hgrows
  have hsource : b.tree.read g = t.read g := by
    have hkept : b.tree.at? (b.tree.place g) = some (.file src access) := by
      rw [FileTree.place_congr hhome]
      refine h.grows.at?_eq_some (fun hmem => ?_) hsrc
      obtain ⟨f, hf, hplace⟩ := List.mem_map.mp hmem
      exact hapart.sources f (hother f hf).1 g hlast (hother f hf).2 hplace
    rw [FileTree.read_of_file hkept, FileTree.read_of_file hsrc]
  have hplace : b.tree.at? (p.place t g) = t.at? (p.place t g) := by
    refine h.grows.at?_eq (fun hmem => ?_) fun place hmem => ?_
    · obtain ⟨f, hf, hplace⟩ := List.mem_map.mp hmem
      exact hapart.places f (hother f hf).1 g hlast (hother f hf).2 hplace
    · obtain ⟨f, hf, rfl⟩ := List.mem_map.mp hmem
      exact hapart.above g hlast f (hother f hf).1
  have hrefusal : b.tree.refusal? (outputPath p.sourceDir p.outputDir g) =
      t.refusal? (outputPath p.sourceDir p.outputDir g) := by
    refine FileTree.refusal?_congr hhome hplace fun q hq => h.grows.holdsFile fun hmem => ?_
    obtain ⟨f, hf, rfl⟩ := List.mem_map.mp hmem
    exact hapart.above f (hother f hf).1 g hlast hq
  obtain ⟨outputs, warnings, errors, hadds, halone, htree⟩ :=
    @Build.step_agrees p p.options.catalog b (.start t ⟨[g], 0⟩) g hhome hsource hplace hrefusal
  rw [← alone_eq_step] at halone htree
  refine ⟨?_, ?_, ?_, ?_, ?_⟩
  · rw [hadds.outputs, h.outputs, List.flatMap_append, List.flatMap_singleton, halone.outputs]
    rfl
  · rw [hadds.warnings, h.warnings, List.flatMap_append, List.flatMap_singleton, halone.warnings]
    rfl
  · rw [hadds.errors, h.errors, List.flatMap_append, List.flatMap_singleton, halone.errors]
    rfl
  · intro f hf
    rcases List.mem_append.mp hf with hf | hf
    · rw [← h.found f hf]
      refine hgrows.at?_eq (fun hmem => ?_) fun place hmem => ?_
      · exact hapart.places f (hother f hf).1 g hlast (hother f hf).2 (List.mem_singleton.mp hmem)
      · rw [List.mem_singleton.mp hmem]
        exact hapart.above f (hother f hf).1 g hlast
    · rw [List.mem_singleton.mp hf]
      rcases htree with ⟨hsame, hsame'⟩ | ⟨e, hentry, hentry'⟩
      · rw [hsame, hsame']
        exact hplace
      · exact hentry.trans hentry'.symm
  · have hplaces : [p.place t g] ⊆ (files ++ [g]).map (p.place t) := by simp
    rw [List.map_append] at hplaces ⊢
    exact (h.grows.mono (List.subset_append_left _ _)).trans (hgrows.mono hplaces)

/-- A run over files whose outputs are apart, by induction from its end. -/
theorem composed_after (s : Scan) (hapart : p.Apart t files) (hnodup : files.Nodup)
    (hfound : ∀ f ∈ files, ∃ src access, t.at? (t.place f) = some (.file src access)) :
    p.Composed t files (Build.after p (.start t s) files) := by
  induction files using List.reverseRecOn with
  | nil => exact ⟨rfl, rfl, rfl, List.forall_mem_nil _, .refl _ _⟩
  | append_singleton files g ih =>
    have hsub : files ⊆ files ++ [g] := List.subset_append_left _ _
    obtain ⟨hfiles, -, hdisjoint⟩ := List.nodup_append.mp hnodup
    have hg : g ∉ files := fun hmem => hdisjoint g hmem g (List.mem_singleton_self g) rfl
    obtain ⟨src, access, hsrc⟩ := hfound g (List.mem_append_right _ (List.mem_singleton_self g))
    rw [Build.after_concat]
    exact (ih (hapart.mono hsub) hfiles fun f hf => hfound f (hsub hf)).concat hapart hg hsrc

/-- A source that fails changes no file. -/
theorem alone_tree_of_errors {f : Text} (h : (p.alone t f).errors ≠ []) :
    (p.alone t f).tree = t := by
  rw [alone_eq_step] at h ⊢
  cases Build.step_steps p p.options.catalog (.start t ⟨[f], 0⟩) f with
  | failed _ htree => exact htree
  | tried _ htree => exact htree
  | wrote _ _ _ _ _ _ _ _ herrors => exact absurd herrors h

/-- A source that cannot be read or cannot be compiled fails. -/
theorem alone_errors_ne_nil (hdry : p.dryRun = false) {f : Text}
    (h : ∀ src compiled, t.read f = .ok src → compile src p.options ≠ .ok compiled) :
    (p.alone t f).errors ≠ [] := by
  rw [alone_eq_step]
  cases Build.step_steps p p.options.catalog (.start t ⟨[f], 0⟩) f with
  | failed _ _ _ _ herrors =>
    rw [herrors]
    exact List.append_ne_nil_of_right_ne_nil _ (List.cons_ne_nil _ _)
  | tried htried => exact absurd (htried.symm.trans hdry) (by decide)
  | wrote src compiled _ hsrc hcompiled => exact absurd hcompiled (h src compiled hsrc)

/-- Which patterns have found a file makes no difference to its build. -/
theorem alone_of_build {includes : List Text} {useIgnoreList : Bool} {r : BuildReport} {f : Text}
    (h : Project.build { p with includes := includes, useIgnoreList := useIgnoreList } t = .ok r)
    (hfile : r.scan.files = [f]) :
    r.build.outputs = (p.alone t f).outputs ∧ r.build.warnings = (p.alone t f).warnings ∧
      r.build.errors = (p.alone t f).errors ∧
      r.build.tree.at? (p.place t f) = (p.alone t f).tree.at? (p.place t f) := by
  obtain ⟨hscan, hbuild⟩ := build_eq_ok h
  have hfound : ∀ g ∈ [f], ∃ src access, t.at? (t.place g) = some (.file src access) := by
    intro g hg
    rw [← hfile] at hg
    exact FileTree.exists_at?_of_mem_scan hscan hg
  have hapart : Apart { p with includes := includes, useIgnoreList := useIgnoreList } t [f] := by
    constructor
    · simp
    · intro g hg g' hg' habove
      rw [List.mem_singleton.mp hg, List.mem_singleton.mp hg'] at habove
      exact habove.ne rfl
    · simp
  have hcomposed := composed_after r.scan hapart (List.nodup_singleton f) hfound
  rw [hbuild, hfile]
  refine ⟨?_, ?_, ?_, hcomposed.found f (List.mem_singleton_self f)⟩
  · exact hcomposed.outputs.trans (List.flatMap_singleton _ _)
  · exact hcomposed.warnings.trans (List.flatMap_singleton _ _)
  · exact hcomposed.errors.trans (List.flatMap_singleton _ _)

end Project

/-- The numbers of outputs and of errors add up to the number of files. -/
theorem length_outcomes (outcome : Text → Option BuildFault) (name : Text → Text)
    (files : List Text) :
    (files.filter fun f => (outcome f).isNone).length +
      (files.filterMap fun f => (outcome f).map (BuildError.mk (name f))).length =
      files.length := by
  have hsplit := @List.length_eq_countP_add_countP _ (fun f => (outcome f).isNone) files
  rw [List.length_filterMap_eq_countP, ← List.countP_eq_length_filter, hsplit]
  congr 1
  refine List.countP_congr fun f _ => ?_
  cases outcome f with
  | none => simp
  | some fault => simp

/-- The files of a build are independent of each other. They are in byte order;
    each gives one output or one error, in this order, and the numbers add up.
    If the outputs are apart, the outputs, warnings and errors are those of the
    files built alone, by whatever patterns they are found, and each place of an
    output holds what it holds after the build of its file alone. A file that
    fails leaves there what was there at first, and a file that cannot be read
    or cannot be compiled fails. -/
theorem Project.build_files_independent (p : Project) (t : FileTree) (r : BuildReport)
    (hdry : p.dryRun = false) (h : p.build t = .ok r) :
    r.scan.files.Pairwise (fun a b => Text.before a b = true) ∧
    (∃ outcome : Text → Option BuildFault,
      r.build.outputs = (r.scan.files.filter fun f => (outcome f).isNone).map
        (outputPath p.sourceDir p.outputDir) ∧
      r.build.errors = r.scan.files.filterMap fun f =>
        (outcome f).map (BuildError.mk (Path.relativeTo p.sourceDir f))) ∧
    r.summary.scanned = r.summary.written + r.build.errors.length ∧
    r.build.outputs.length = r.summary.written ∧
    (p.Apart t r.scan.files →
      p.Composed t r.scan.files r.build ∧
      ∀ f ∈ r.scan.files,
        (∀ includes useIgnoreList r₁,
          Project.build { p with includes := includes, useIgnoreList := useIgnoreList } t =
            .ok r₁ → r₁.scan.files = [f] →
          r₁.build.outputs = (p.alone t f).outputs ∧
            r₁.build.warnings = (p.alone t f).warnings ∧
            r₁.build.errors = (p.alone t f).errors ∧
            r₁.build.tree.at? (p.place t f) = (p.alone t f).tree.at? (p.place t f)) ∧
        ((p.alone t f).errors ≠ [] → r.build.tree.at? (p.place t f) = t.at? (p.place t f)) ∧
        ((∀ src compiled, t.read f = .ok src → compile src p.options ≠ .ok compiled) →
          (p.alone t f).errors ≠ [])) := by
  obtain ⟨hscan, hbuild⟩ := build_eq_ok h
  obtain ⟨hsorted, hnodup⟩ := build_files h
  obtain ⟨outcome, houtputs, herrors⟩ := Build.after_outcomes hdry (.start t r.scan) hnodup
  have hwritten : r.build.written = r.build.outputs.length := by
    rw [hbuild]
    exact @Build.written_after p (.start t r.scan) rfl r.scan.files
  rw [← hbuild] at houtputs herrors
  refine ⟨hsorted, ⟨outcome, houtputs, herrors⟩, ?_, hwritten.symm, fun hapart => ?_⟩
  · show r.scan.files.length = r.build.written + r.build.errors.length
    have hsum := length_outcomes outcome (Path.relativeTo p.sourceDir) r.scan.files
    rw [hwritten, houtputs, herrors, ← hsum]
    simp [Build.start]
  · have hcomposed := composed_after r.scan hapart hnodup
      fun f hf => FileTree.exists_at?_of_mem_scan hscan hf
    rw [← hbuild] at hcomposed
    refine ⟨hcomposed, fun f hf => ⟨fun _ _ _ => alone_of_build, fun hfails => ?_,
      alone_errors_ne_nil hdry⟩⟩
    rw [hcomposed.found f hf, alone_tree_of_errors hfails]

/-- The second source cannot be compiled and leaves its place empty, and so does
    the last one, which cannot be read; the third has its output and its warning
    as if it were alone. -/
theorem Project.build_files_independent_mixed :
    let r : BuildReport := ⟨mixedScan, Build.run mixedProject mixedTree mixedScan⟩
    mixedProject.dryRun = false ∧ mixedProject.build mixedTree = .ok r ∧
      mixedProject.Apart mixedTree r.scan.files ∧
      r.summary.scanned = r.summary.written + r.build.errors.length ∧
      r.build.errors.length = 2 ∧ r.build.warnings.length = 1 ∧
      mixedProject.Composed mixedTree r.scan.files r.build ∧
      (∀ f ∈ [utf8 "s/b.mcss", utf8 "s/d.mcss"],
        r.build.tree.at? (mixedProject.place mixedTree f) =
          mixedTree.at? (mixedProject.place mixedTree f)) ∧
      r.build.tree.at? (mixedProject.place mixedTree (utf8 "s/c.mcss")) =
        (mixedProject.alone mixedTree (utf8 "s/c.mcss")).tree.at?
          (mixedProject.place mixedTree (utf8 "s/c.mcss")) := by
  intro r
  have hapart : mixedProject.Apart mixedTree r.scan.files :=
    ⟨by decide +kernel, by decide +kernel, by decide +kernel⟩
  obtain ⟨-, -, hsum, -, hfiles⟩ :=
    mixedProject.build_files_independent mixedTree r rfl mixedProject_build
  obtain ⟨hcomposed, hown⟩ := hfiles hapart
  have hfails : ∀ f ∈ [utf8 "s/b.mcss", utf8 "s/d.mcss"], f ∈ r.scan.files ∧
      (((mixedTree.read f).toOption.bind fun src => (compile src .standard).toOption).isNone =
        true) := by decide +kernel
  refine ⟨rfl, mixedProject_build, hapart, hsum, by decide +kernel, by decide +kernel, hcomposed,
    fun f hf => ?_, hcomposed.found _ (by decide)⟩
  obtain ⟨hmem, hnone⟩ := hfails f hf
  obtain ⟨-, hkept, hfailing⟩ := hown f hmem
  refine hkept (hfailing fun src compiled hsrc hcompiled => ?_)
  -- What is read and compiled would be found.
  rw [hsrc] at hnone
  change (compile src .standard).toOption.isNone = true at hnone
  change compile src .standard = .ok compiled at hcompiled
  rw [hcompiled] at hnone
  cases hnone

end MixinCss
