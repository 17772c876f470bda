/-
  MixinCss.Proofs.Files.Growth

  What making directories does to a tree, place by place, and how trees grow:
  files are written at some places, directories are made on the way to them,
  and every other place is as it was.
-/

import MixinCss.Proofs.Files.Place
import MixinCss.Proofs.Files.Tree

namespace MixinCss.FileTree

variable {t t' t'' : FileTree} {p : Path} {q place : Place}

theorem holdsFile_of_file {content : Text} {access : Access}
    (h : t.at? place = some (.file content access)) : t.holdsFile place = true :=
  holdsFile_eq_true_iff.mpr ⟨content, access, h⟩

theorem holdsFile_of_directory (h : t.at? place = some .directory) : t.holdsFile place = false := by
  rw [holdsFile, h]

theorem holdsFile_of_none (h : t.at? place = none) : t.holdsFile place = false := by
  rw [holdsFile, h]

theorem holdsFile_congr (h : t'.at? place = t.at? place) :
    t'.holdsFile place = t.holdsFile place := by
  rw [holdsFile, holdsFile, h]

/-- Whether a path leads to a file. -/
def leadsToFile (t : FileTree) (p : Path) : Bool := t.holdsFile (p.place t.home)

theorem isBelowFile_eq (t : FileTree) (p : Path) :
    t.isBelowFile p = p.parent.chain.any t.leadsToFile := by
  rw [← Path.chain_dropLast]
  rfl

/-! ## Directories -/

theorem makeDirectory_of_leadsToFile (h : t.leadsToFile p = true) :
    t.makeDirectory p = .error (.notDirectory p.text) := by
  obtain ⟨content, access, hfile⟩ := holdsFile_eq_true_iff.mp h
  rw [makeDirectory, find?, hfile]

theorem exists_makeDirectory (h : t.leadsToFile p = false) :
    ∃ t', t.makeDirectory p = .ok t' ∧ t'.home = t.home ∧
      ∀ q, t'.at? q = if q = p.place t.home then some .directory else t.at? q := by
  cases hfind : t.at? (p.place t.home) with
  | none =>
    refine ⟨t.put (p.place t.home) .directory, by rw [makeDirectory, find?, hfind], rfl,
      fun q => ?_⟩
    by_cases hq : q = p.place t.home
    · rw [if_pos hq, hq, at?_put_self (by rw [hfind]; simp)]
    · rw [if_neg hq, at?_put_ne hq]
  | some e =>
    cases e with
    | directory =>
      refine ⟨t, by rw [makeDirectory, find?, hfind], rfl, fun q => ?_⟩
      by_cases hq : q = p.place t.home
      · rw [if_pos hq, hq, hfind]
      · rw [if_neg hq]
    | file content access => exact absurd (holdsFile_of_file hfind) (Bool.eq_false_iff.mp h)

/-- Making a directory neither makes nor removes a file. -/
theorem holdsFile_of_makeDirectory (h : t.holdsFile place = false)
    (hfind : ∀ q, t'.at? q = if q = place then some .directory else t.at? q) (q : Place) :
    t'.holdsFile q = t.holdsFile q := by
  by_cases hq : q = place
  · subst hq
    have hq' := hfind q
    rw [if_pos rfl] at hq'
    rw [holdsFile_of_directory hq', h]
  · have hq' := hfind q
    rw [if_neg hq] at hq'
    exact holdsFile_congr hq'

theorem leadsToFile_of_makeDirectory (h : t.leadsToFile p = false) (hhome : t'.home = t.home)
    (hfind : ∀ q, t'.at? q = if q = p.place t.home then some .directory else t.at? q) :
    t'.leadsToFile = t.leadsToFile := by
  funext d
  unfold leadsToFile
  rw [hhome]
  exact holdsFile_of_makeDirectory h hfind _

/-- The first file on the way stops the making of directories. -/
theorem foldlM_makeDirectory_of_find?_eq_some {ds : List Path} {d : Path}
    (h : ds.find? t.leadsToFile = some d) :
    ds.foldlM makeDirectory t = .error (.notDirectory d.text) := by
  induction ds generalizing t with
  | nil => cases h
  | cons first ds ih =>
    rw [List.find?_cons] at h
    cases hfirst : t.leadsToFile first with
    | true =>
      rw [hfirst] at h
      cases h
      rw [List.foldlM_cons, makeDirectory_of_leadsToFile hfirst]
      rfl
    | false =>
      rw [hfirst] at h
      obtain ⟨t', hmade, hhome, hfind⟩ := exists_makeDirectory hfirst
      have hfiles := leadsToFile_of_makeDirectory hfirst hhome hfind
      rw [List.foldlM_cons, hmade]
      exact ih (hfiles ▸ h)

/-- Without a file on the way all directories are made, and nothing else is
    changed. -/
theorem exists_foldlM_makeDirectory {ds : List Path} (h : ds.find? t.leadsToFile = none) :
    ∃ t', ds.foldlM makeDirectory t = .ok t' ∧ t'.home = t.home ∧
      ∀ q, t'.at? q = if q ∈ ds.map (Path.place t.home) then some .directory else t.at? q := by
  induction ds generalizing t with
  | nil => exact ⟨t, rfl, rfl, fun q => (if_neg List.not_mem_nil).symm⟩
  | cons first ds ih =>
    rw [List.find?_eq_none] at h
    obtain ⟨hfirst, hds⟩ := List.forall_mem_cons.mp h
    rw [Bool.not_eq_true] at hfirst
    obtain ⟨t₁, hmade, hhome₁, hfind₁⟩ := exists_makeDirectory hfirst
    have hds₁ : ds.find? t₁.leadsToFile = none := by
      rw [leadsToFile_of_makeDirectory hfirst hhome₁ hfind₁, List.find?_eq_none]
      exact hds
    obtain ⟨t', hrest, hhome, hfind⟩ := ih hds₁
    refine ⟨t', ?_, hhome.trans hhome₁, fun q => ?_⟩
    · rw [List.foldlM_cons, hmade]
      exact hrest
    · rw [hfind q, hfind₁ q, hhome₁, List.map_cons]
      by_cases hq : q ∈ ds.map (Path.place t.home)
      · rw [if_pos hq, if_pos (List.mem_cons_of_mem _ hq)]
      · rw [if_neg hq]
        by_cases hfirst : q = first.place t.home
        · rw [if_pos hfirst, if_pos (List.mem_cons.mpr (.inl hfirst))]
        · rw [if_neg hfirst, if_neg (List.not_mem_cons_of_ne_of_not_mem hfirst hq)]

/-- A path is the last of its chain, unless it is the root or the working
    directory. -/
theorem find?_of_chain (h : ∀ q ∈ p.chain, t.find? q = some .directory) :
    t.find? p = some .directory := by
  obtain ⟨rooted, segments⟩ := p
  cases segments with
  | nil =>
    refine at?_of_isPrefix ?_
    cases rooted with
    | true => exact List.nil_prefix
    | false => exact List.prefix_refl _
  | cons first rest =>
    refine h _ (List.mem_map.mpr ⟨rest.length, List.mem_range.mpr (Nat.lt_succ_self _), ?_⟩)
    exact congrArg (Path.mk rooted) (List.take_of_length_le (Nat.le_refl _))

/-! ## Files -/

section

variable {path content : Text}

/-- A file that is there is written if it lets itself be. -/
theorem write_of_file {old : Text} {access : Access}
    (h : t.at? (t.place path) = some (.file old access)) :
    t.write path content =
      if access.writable then .ok (t.put (t.place path) (.file content access))
      else .error (.openDenied path) := by
  unfold write
  dsimp only
  rw [find?_ofText, h]

/-- A new file is written into a directory. -/
theorem write_of_none (hplace : t.at? (t.place path) = none)
    (hbelow : t.isBelowFile (Path.ofText path) = false)
    (hdirectory : t.find? (Path.directory path) = some .directory) :
    t.write path content = .ok (t.put (t.place path) (.file content .full)) := by
  unfold write
  dsimp only
  rw [find?_ofText, hplace]
  dsimp only
  rw [hbelow, if_neg Bool.false_ne_true, hdirectory]

end

/-! ## Growth -/

/-- From `t` to `t'` files are written only at `places`, and directories are
    made only above them and where nothing was. -/
structure Grows (places : List Place) (t t' : FileTree) : Prop where
  home : t'.home = t.home
  elsewhere : ∀ q, q ∉ places → t'.at? q = t.at? q ∨
    t.at? q = none ∧ t'.at? q = some .directory ∧ ∃ place ∈ places, q.Above place

namespace Grows

variable {places more : List Place}

theorem refl (places : List Place) (t : FileTree) : Grows places t t := ⟨rfl, fun _ _ => .inl rfl⟩

theorem mono (h : Grows places t t') (hsub : places ⊆ more) : Grows more t t' := by
  refine ⟨h.home, fun q hq => ?_⟩
  have hplaces : q ∉ places := fun hmem => hq (hsub hmem)
  rcases h.elsewhere q hplaces with hsame | ⟨hnone, hmade, place, hplace, habove⟩
  · exact .inl hsame
  · exact .inr ⟨hnone, hmade, place, hsub hplace, habove⟩

theorem trans (h : Grows places t t') (h' : Grows places t' t'') : Grows places t t'' := by
  refine ⟨h'.home.trans h.home, fun q hq => ?_⟩
  rcases h.elsewhere q hq with hsame | ⟨hnone, hmade, hplace⟩
  · rw [← hsame]
    exact h'.elsewhere q hq
  · -- A directory that was made is there to stay.
    rcases h'.elsewhere q hq with hsame' | ⟨hnone', -⟩
    · exact .inr ⟨hnone, hsame'.trans hmade, hplace⟩
    · cases hmade.symm.trans hnone'

theorem holdsFile (h : Grows places t t') (hq : q ∉ places) :
    t'.holdsFile q = t.holdsFile q := by
  rcases h.elsewhere q hq with hsame | ⟨hnone, hmade, -⟩
  · exact holdsFile_congr hsame
  · rw [holdsFile_of_directory hmade, holdsFile_of_none hnone]

/-- A place that is not above any of those keeps its entry. -/
theorem at?_eq (h : Grows places t t') (hq : q ∉ places)
    (habove : ∀ place ∈ places, ¬ q.Above place) : t'.at? q = t.at? q := by
  rcases h.elsewhere q hq with hsame | ⟨-, -, place, hplace, hq⟩
  · exact hsame
  · exact absurd hq (habove place hplace)

/-- So does a place with something at it. -/
theorem at?_eq_some {e : Entry} (h : Grows places t t') (hq : q ∉ places)
    (hfound : t.at? q = some e) : t'.at? q = some e := by
  rcases h.elsewhere q hq with hsame | ⟨hnone, -⟩
  · rw [hsame, hfound]
  · cases hfound.symm.trans hnone

end Grows

/-- A tree grows by the directories on the way to a path if no file is in their
    way. Those that hold the working directory are there already. -/
theorem grows_of_directories (hp : p.Normal) (hhome : t'.home = t.home)
    (hnone : p.parent.chain.find? t.leadsToFile = none)
    (hfind : ∀ q, t'.at? q =
      if q ∈ p.parent.chain.map (Path.place t.home) then some .directory else t.at? q) :
    Grows [p.place t.home] t t' := by
  refine ⟨hhome, fun q _ => ?_⟩
  rw [hfind]
  by_cases hchain : q ∈ p.parent.chain.map (Path.place t.home)
  · rw [if_pos hchain]
    obtain ⟨d, hd, rfl⟩ := List.mem_map.mp hchain
    have hfile : t.leadsToFile d = false := by
      simpa using List.find?_eq_none.mp hnone d hd
    cases hbefore : t.at? (d.place t.home) with
    | none =>
      rcases Path.above_or_isPrefix_of_mem_chain hp hd t.home with habove | hheld
      · exact .inr ⟨rfl, rfl, _, List.mem_singleton_self _, habove⟩
      · cases (at?_of_isPrefix hheld).symm.trans hbefore
    | some e =>
      cases e with
      | directory => exact .inl rfl
      | file content access => exact absurd (holdsFile_of_file hbefore) (Bool.eq_false_iff.mp hfile)
  · exact .inl (if_neg hchain)

theorem grows_of_write {path content : Text} (h : t.write path content = .ok t') :
    Grows [t.place path] t t' := by
  refine ⟨home_of_write h, fun q hq => .inl (at?_of_write_ne h ?_)⟩
  rintro rfl
  exact hq (List.mem_singleton_self _)

end MixinCss.FileTree
