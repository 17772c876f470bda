/-
  MixinCss.Proofs.Files.Mirror

  Outputs mirror the sources. The output of a source file is found at the same
  way below the output directory, with `.css` in the place of the extension
  (`outputPath_extend`), so no two source files with one extension share an
  output (`outputPath_mirrors`).
-/

import MixinCss.Build
import MixinCss.Proofs.Files.Below

namespace MixinCss

namespace Path

/-! ## Ways down -/

/-- A clean text that leads from a directory to something below it: it is not
    rooted, it is not the directory itself, and no step of it goes up. -/
structure IsWayDown (x : Text) : Prop where
  clean : Path.clean x = x
  relative : x.startsWith [ascii '/'] = false
  notHere : x ≠ utf8 "."
  noUp : up ∉ Text.split (ascii '/') x

instance (x : Text) : Decidable (IsWayDown x) :=
  decidable_of_iff
    (Path.clean x = x ∧ x.startsWith [ascii '/'] = false ∧ x ≠ utf8 "." ∧
      up ∉ Text.split (ascii '/') x)
    ⟨fun h => ⟨h.1, h.2.1, h.2.2.1, h.2.2.2⟩,
      fun h => ⟨h.clean, h.relative, h.notHere, h.noUp⟩⟩

variable {names : List Text}

theorem text_names (hne : names ≠ []) : text ⟨false, names⟩ = Text.join [ascii '/'] names := by
  rw [text, List.isEmpty_eq_false_iff.mpr hne]
  rfl

/-- A way down is made of names. -/
theorem IsWayDown.exists_names {x : Text} (h : IsWayDown x) :
    ∃ names, names ≠ [] ∧ (∀ s ∈ names, IsName s) ∧ x = Text.join [ascii '/'] names := by
  obtain ⟨names, hnames, hwalk⟩ :=
    exists_foldl_walk false (fun s hs => Text.not_mem_of_mem_split hs) h.noUp
  have hpath : ofText x = ⟨false, names⟩ := by
    unfold ofText
    dsimp only
    rw [h.relative, hwalk, List.append_nil, List.reverse_reverse]
  have htext : text ⟨false, names⟩ = x := by
    rw [← hpath]
    exact h.clean
  have hne : names ≠ [] := by
    rintro rfl
    exact h.notHere htext.symm
  exact ⟨names, hne, hnames, by rw [← htext, text_names hne]⟩

/-- Names that are joined to a directory are the text of the path below it. -/
theorem join_names (directory : Text) (hne : names ≠ []) (h : ∀ s ∈ names, IsName s) :
    join directory (Text.join [ascii '/'] names) = ((ofText directory).extend names).text := by
  have hway : ofText (Text.join [ascii '/'] names) = ⟨false, names⟩ := by
    rw [← text_names hne]
    exact ((@Normal.nil false).extend h).text_spells.1
  have hsome : (Text.join [ascii '/'] names).isEmpty = false := by
    rw [List.isEmpty_eq_false_iff]
    intro hnil
    rw [hnil] at hway
    exact hne (congrArg segments hway).symm
  cases directory with
  | nil =>
    -- An empty directory is no step.
    rw [join, List.isEmpty_nil, if_pos rfl, hsome, if_neg Bool.false_ne_true, Path.clean, hway]
    rfl
  | cons b rest =>
    have hjoined := ofText_join_names (List.cons_ne_nil b rest) hne h
    rw [join, List.isEmpty_cons, if_neg Bool.false_ne_true, hsome,
      if_neg Bool.false_ne_true] at hjoined ⊢
    rw [ofText_clean] at hjoined
    rw [Path.clean, hjoined]

theorem text_extend_concat (p : Path) (init : List Text) (last : Text) :
    (p.extend (init ++ [last])).text = lead (withRoot p.rooted (p.segments ++ init)) ++ last := by
  rw [← text_concat, extend, List.append_assoc]

/-! ## The last step of a text -/

/-- A text cut in front of its last step, and this step in front of its
    extension. -/
structure IsCut (x front stem ext : Text) : Prop where
  whole : x = front ++ (stem ++ ext)
  front : front = [] ∨ front.getLast? = some (ascii '/')
  step : IsStep (stem ++ ext)
  ext : extension (stem ++ ext) = ext

theorem getLast?_lead (steps : List Text) :
    lead steps = [] ∨ (lead steps).getLast? = some (ascii '/') := by
  rcases List.eq_nil_or_concat steps with rfl | ⟨init, s, rfl⟩
  · exact .inl rfl
  · exact .inr (by simp [lead])

/-- Going back from the end of a text, the last step is what comes before the
    first slash. -/
theorem takeWhile_reverse {front last : Text}
    (hfront : front = [] ∨ front.getLast? = some (ascii '/')) (hlast : IsStep last) :
    (front ++ last).reverse.takeWhile (· != ascii '/') = last.reverse := by
  have hpass : ∀ b ∈ last.reverse, (b != ascii '/') = true := by
    intro b hb
    rw [bne_iff_ne]
    rintro rfl
    exact hlast (List.mem_reverse.mp hb)
  rw [List.reverse_append, List.takeWhile_append_of_pos hpass]
  rcases hfront with rfl | hslash
  · exact List.append_nil _
  · rw [← List.head?_reverse] at hslash
    cases hback : front.reverse with
    | nil => exact List.append_nil _
    | cons b rest =>
      rw [hback] at hslash
      cases hslash
      exact List.append_nil _

/-- The extension of a text is that of its last step. -/
theorem extension_append {front last : Text}
    (hfront : front = [] ∨ front.getLast? = some (ascii '/')) (hlast : IsStep last) :
    extension (front ++ last) = extension last := by
  have hself := takeWhile_reverse (.inl rfl) hlast
  rw [List.nil_append] at hself
  rw [extension, extension, takeWhile_reverse hfront hlast, hself]

/-- The last step of a text can be cut off in one way only. -/
theorem append_step_inj {front front' last last' : Text}
    (hfront : front = [] ∨ front.getLast? = some (ascii '/')) (hlast : IsStep last)
    (hfront' : front' = [] ∨ front'.getLast? = some (ascii '/')) (hlast' : IsStep last')
    (h : front ++ last = front' ++ last') : front = front' ∧ last = last' := by
  have hback := takeWhile_reverse hfront hlast
  rw [h, takeWhile_reverse hfront' hlast'] at hback
  obtain rfl := List.reverse_inj.mp hback
  exact ⟨List.append_cancel_right h, rfl⟩

/-- The last name of a path below a directory has an extension, which may be
    empty. -/
theorem exists_eq_concat_stem (hne : names ≠ []) (h : ∀ s ∈ names, IsName s) :
    ∃ init stem ext, names = init ++ [stem ++ ext] ∧ extension (stem ++ ext) = ext := by
  rcases List.eq_nil_or_concat names with hnil | ⟨init, last, hlast⟩
  · exact absurd hnil hne
  · rw [List.concat_eq_append] at hlast
    subst hlast
    have hstep := (h last (List.mem_append_right _ (List.mem_singleton_self last))).step
    obtain ⟨stem, hstem⟩ : ∃ stem, last = stem ++ extension last := exists_stem [] hstep
    have hext : extension (stem ++ extension last) = extension last := congrArg extension hstem.symm
    exact ⟨init, stem, extension last, by rw [← hstem], hext⟩

/-- A way down that is cut at its last step is made of the names in front and
    this step. -/
theorem IsCut.exists_init {x front stem ext : Text} (hcut : IsCut x front stem ext)
    (hx : IsWayDown x) :
    ∃ init, (∀ s ∈ init ++ [stem ++ ext], IsName s) ∧ front = lead init ∧
      x = Text.join [ascii '/'] (init ++ [stem ++ ext]) := by
  obtain ⟨names, hne, hnames, hjoin⟩ := hx.exists_names
  rcases List.eq_nil_or_concat names with hnil | ⟨init, last, hlast⟩
  · exact absurd hnil hne
  rw [List.concat_eq_append] at hlast
  subst hlast
  have hlast := (hnames last (List.mem_append_right _ (List.mem_singleton_self last))).step
  have hwhole := hcut.whole
  rw [hjoin, join_append (List.cons_ne_nil _ _), Text.join_singleton] at hwhole
  obtain ⟨hfront, rfl⟩ :=
    append_step_inj (getLast?_lead init) hlast hcut.front hcut.step hwhole
  exact ⟨init, hnames, hfront.symm, hjoin⟩

end Path

open MixinCss.Path (IsName IsCut IsWayDown)

/-! ## Outputs -/

section

variable {init : List Text} {stem ext : Text}

theorem forall_isName_css (h : ∀ s ∈ init ++ [stem ++ ext], IsName s) :
    ∀ s ∈ init ++ [stem ++ utf8 ".css"], IsName s := by
  obtain ⟨hinit, hlast⟩ := List.forall_mem_append.mp h
  rw [List.forall_mem_singleton] at hlast
  have hstem : Path.IsStep stem := fun hmem => hlast.step (List.mem_append_left _ hmem)
  exact List.forall_mem_append.mpr ⟨hinit, List.forall_mem_singleton.mpr (Path.isName_css hstem)⟩

/-- The output of a file below the source directory: the same names below the
    output directory, the last one with its extension changed. Without an output
    directory it is the source directory. -/
theorem outputPath_extend (sourceDir outputDir : Text)
    (h : ∀ s ∈ init ++ [stem ++ ext], IsName s) (hext : Path.extension (stem ++ ext) = ext) :
    outputPath sourceDir outputDir
        ((Path.ofText sourceDir).extend (init ++ [stem ++ ext])).text =
      ((Path.ofText (if outputDir.isEmpty then sourceDir else outputDir)).extend
        (init ++ [stem ++ utf8 ".css"])).text := by
  have hlast := (h _ (List.mem_append_right _ (List.mem_singleton_self _))).step
  have hne : init ++ [stem ++ utf8 ".css"] ≠ [] :=
    List.append_ne_nil_of_right_ne_nil _ (List.cons_ne_nil _ _)
  have hcss := forall_isName_css h
  -- The extension is taken off the text and `.css` is put behind the rest.
  have hname : (((Path.ofText sourceDir).extend (init ++ [stem ++ ext])).text.dropTail
      (Path.extension ((Path.ofText sourceDir).extend (init ++ [stem ++ ext])).text)) ++
        utf8 ".css" = ((Path.ofText sourceDir).extend (init ++ [stem ++ utf8 ".css"])).text := by
    rw [Path.text_extend_concat, Path.text_extend_concat,
      Path.extension_append (Path.getLast?_lead _) hlast, hext, ← List.append_assoc,
      Text.dropTail_append, List.append_assoc]
  rw [outputPath, hname]
  split
  · rfl
  · have hspelled := ((Path.normal_ofText sourceDir).extend hcss).text_spells.1
    rw [Path.relativeTo_eq hne hspelled, Path.join_names outputDir hne hcss]

/-- The extension of a file is that of its last name. -/
theorem extension_extend (p : Path) (h : ∀ s ∈ init ++ [stem ++ ext], IsName s)
    (hext : Path.extension (stem ++ ext) = ext) :
    Path.extension (p.extend (init ++ [stem ++ ext])).text = ext := by
  have hlast := (h _ (List.mem_append_right _ (List.mem_singleton_self _))).step
  rw [Path.text_extend_concat, Path.extension_append (Path.getLast?_lead _) hlast, hext]

end

/-- A clean file below a directory, with its last name cut at the extension. -/
theorem exists_stem_of_isBelow {directory : Path} {file : Text} (hclean : Path.clean file = file)
    (hbelow : (Path.ofText file).IsBelow directory) :
    ∃ init stem ext, (∀ s ∈ init ++ [stem ++ ext], IsName s) ∧
      Path.extension (stem ++ ext) = ext ∧
      file = (directory.extend (init ++ [stem ++ ext])).text := by
  obtain ⟨names, hne, hnames, hfile⟩ := hbelow
  obtain ⟨init, stem, ext, rfl, hext⟩ := Path.exists_eq_concat_stem hne hnames
  refine ⟨init, stem, ext, hnames, hext, ?_⟩
  rw [← hfile]
  exact hclean.symm

/-- Different names lead to different texts. -/
theorem extend_text_inj {p : Path} (hp : p.Normal) {names names' : List Text}
    (h : ∀ s ∈ names, IsName s) (h' : ∀ s ∈ names', IsName s)
    (hsame : (p.extend names).text = (p.extend names').text) : names = names' := by
  have hpath := (hp.extend h).text_spells.1
  rw [hsame, (hp.extend h').text_spells.1] at hpath
  exact (List.append_cancel_left (congrArg Path.segments hpath)).symm

/-- Outputs mirror the sources one to one. For a way `x` below the source
    directory with the last step `stem ++ ext`, the output is at the same way below
    the output directory, or beside the source without one, with `.css` in the
    place of `ext`. Clean files below the source directory that have the same
    extension have different outputs. -/
theorem outputPath_mirrors (sourceDir outputDir : Text) :
    (∀ x front stem ext, IsWayDown x → IsCut x front stem ext →
      (outputDir ≠ [] → outputPath sourceDir outputDir (Path.join sourceDir x) =
        Path.join outputDir (front ++ (stem ++ utf8 ".css"))) ∧
      (outputDir = [] → ∃ kept, Path.join sourceDir x = kept ++ ext ∧
        outputPath sourceDir outputDir (Path.join sourceDir x) = kept ++ utf8 ".css")) ∧
    ∀ file file', Path.clean file = file → (Path.ofText file).IsBelow (Path.ofText sourceDir) →
      Path.clean file' = file' → (Path.ofText file').IsBelow (Path.ofText sourceDir) →
      Path.extension file = Path.extension file' →
      outputPath sourceDir outputDir file = outputPath sourceDir outputDir file' →
        file = file' := by
  refine ⟨fun x front stem ext hx hcut => ?_, ?_⟩
  · obtain ⟨init, hnames, rfl, rfl⟩ := hcut.exists_init hx
    have hne : ∀ last : Text, init ++ [last] ≠ [] :=
      fun last => List.append_ne_nil_of_right_ne_nil _ (List.cons_ne_nil last [])
    have hcss := forall_isName_css hnames
    rw [Path.join_names sourceDir (hne _) hnames,
      outputPath_extend sourceDir outputDir hnames hcut.ext]
    refine ⟨fun hout => ?_, ?_⟩
    · rw [if_neg fun hnil => hout (List.isEmpty_iff.mp hnil), ← Path.join_names _ (hne _) hcss,
        Path.join_append (List.cons_ne_nil _ _), Text.join_singleton]
    · rintro rfl
      refine ⟨Path.lead (Path.withRoot (Path.ofText sourceDir).rooted
        ((Path.ofText sourceDir).segments ++ init)) ++ stem, ?_, ?_⟩
      · rw [Path.text_extend_concat, List.append_assoc]
      · rw [List.isEmpty_nil, if_pos rfl, Path.text_extend_concat, List.append_assoc]
  · intro file file' hclean hbelow hclean' hbelow' hext hsame
    obtain ⟨init, stem, ext, hnames, hstem, rfl⟩ := exists_stem_of_isBelow hclean hbelow
    obtain ⟨init', stem', ext', hnames', hstem', rfl⟩ := exists_stem_of_isBelow hclean' hbelow'
    rw [extension_extend _ hnames hstem, extension_extend _ hnames' hstem'] at hext
    rw [outputPath_extend sourceDir outputDir hnames hstem,
      outputPath_extend sourceDir outputDir hnames' hstem'] at hsame
    have hways := extend_text_inj (Path.normal_ofText _) (forall_isName_css hnames)
      (forall_isName_css hnames') hsame
    obtain ⟨rfl, hlast⟩ := List.append_inj' hways rfl
    rw [List.append_cancel_right (List.cons.inj hlast).1, hext]

/-- A file whose name is nothing but an extension, in a directory with a dot in its
    name, below a source directory that is left upward. -/
theorem outputPath_mirrors_dot_file :
    let x := utf8 "a.b/.mcss"
    IsWayDown x ∧ IsCut x (utf8 "a.b/") [] (utf8 ".mcss") ∧
      Path.join (utf8 "../s/.") x = utf8 "../s/a.b/.mcss" ∧
      outputPath (utf8 "../s/.") (utf8 "/out/") (utf8 "../s/a.b/.mcss") = utf8 "/out/a.b/.css" ∧
      outputPath (utf8 "../s/.") (utf8 "/out/") (utf8 "../s/a.b/.mcss") ≠
        outputPath (utf8 "../s/.") (utf8 "/out/") (utf8 "../s/a.b/c.mcss") := by
  intro x
  have hx : IsWayDown x := by decide
  have hcut : IsCut x (utf8 "a.b/") [] (utf8 ".mcss") :=
    ⟨by decide, by decide +kernel, by decide +kernel, by decide +kernel⟩
  have hjoin : Path.join (utf8 "../s/.") x = utf8 "../s/a.b/.mcss" := by decide
  have hbelow (name : Text) (hname : IsName name)
      (hfile : Path.ofText (utf8 "../s/a.b/" ++ name) =
        (Path.ofText (utf8 "../s/.")).extend [utf8 "a.b", name]) :
      (Path.ofText (utf8 "../s/a.b/" ++ name)).IsBelow (Path.ofText (utf8 "../s/.")) :=
    ⟨[utf8 "a.b", name], List.cons_ne_nil _ _, List.forall_mem_cons.mpr
      ⟨by decide, List.forall_mem_singleton.mpr hname⟩, hfile⟩
  obtain ⟨hmirror, hinjective⟩ := outputPath_mirrors (utf8 "../s/.") (utf8 "/out/")
  refine ⟨hx, hcut, hjoin, ?_, fun hsame => ?_⟩
  · rw [← hjoin, (hmirror x _ _ _ hx hcut).1 (by decide)]
    decide
  · have hfile := hinjective _ _ (by decide)
      (hbelow (utf8 ".mcss") (by decide) (by decide)) (by decide +kernel)
      (hbelow (utf8 "c.mcss") (by decide) (by decide)) (by decide +kernel) hsame
    exact absurd hfile (by decide)

end MixinCss
