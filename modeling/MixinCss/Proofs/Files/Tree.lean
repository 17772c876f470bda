/-
  MixinCss.Proofs.Files.Tree

  What the operations on a file tree change. An entry that is put at a place is
  found there and changes nothing elsewhere; directories are made only where
  nothing is, so all that was found before is found after. The working directory
  stays the same, so every text keeps its place.
-/

import MixinCss.Files.Tree
import MixinCss.Proofs.Outcome

namespace MixinCss.FileTree

variable {t t' : FileTree} {p : Path} {path content : Text}

/-! ## Entries -/

/-- A tree of what texts lead to from a working directory. -/
def ofTexts (home : Place) (entries : List (Text × Entry)) : FileTree :=
  ⟨home, entries.map fun entry => ((Path.ofText entry.1).place home, entry.2)⟩

theorem place_congr (h : t'.home = t.home) (path : Text) : t'.place path = t.place path := by
  unfold place
  rw [h]

theorem find?_ofText (t : FileTree) (path : Text) :
    t.find? (Path.ofText path) = t.at? (t.place path) := rfl

theorem lookup_filter_ne {place q : Place} (h : q ≠ place) (entries : List (Place × Entry)) :
    (entries.filter fun entry => entry.1 != place).lookup q = entries.lookup q := by
  induction entries with
  | nil => rfl
  | cons entry rest ih =>
    rw [List.filter_cons]
    split
    · rw [List.lookup_cons, List.lookup_cons, ih]
    · rename_i hsame
      have hentry : entry.1 = place := by simpa using hsame
      have hbeq : (q == entry.1) = false := by
        rw [hentry]
        exact beq_false_of_ne h
      rw [ih, List.lookup_cons, hbeq]

theorem at?_of_isPrefix {place : Place} (h : place.names <+: t.home.names) :
    t.at? place = some .directory := if_pos (List.isPrefixOf_iff_prefix.mpr h)

/-- Only a place that does not hold the working directory can be without a
    directory. -/
theorem isPrefixOf_eq_false {place : Place} (h : t.at? place ≠ some .directory) :
    place.names.isPrefixOf t.home.names = false :=
  Bool.eq_false_iff.mpr fun hhome => h (if_pos hhome)

theorem at?_put_self {place : Place} (h : t.at? place ≠ some .directory) (e : Entry) :
    (t.put place e).at? place = some e := by
  unfold at? put
  rw [isPrefixOf_eq_false h, List.lookup_cons, beq_self_eq_true]
  rfl

theorem at?_put_ne {place q : Place} (h : q ≠ place) (e : Entry) :
    (t.put place e).at? q = t.at? q := by
  unfold at? put
  rw [List.lookup_cons, beq_false_of_ne h, lookup_filter_ne h]

theorem holdsFile_eq_true_iff {place : Place} :
    t.holdsFile place = true ↔ ∃ content access, t.at? place = some (.file content access) := by
  unfold holdsFile
  split
  · rename_i content access hfound
    exact iff_of_true rfl ⟨content, access, hfound⟩
  · rename_i hother
    refine iff_of_false Bool.false_ne_true ?_
    rintro ⟨content, access, hfound⟩
    exact hother content access hfound

/-! ## Directories -/

theorem makeDirectory_eq_ok (h : t.makeDirectory p = .ok t') :
    t' = t ∨ t.at? (p.place t.home) = none ∧ t' = t.put (p.place t.home) .directory := by
  unfold makeDirectory at h
  split at h
  · cases h
    exact .inl rfl
  · cases h
  · rename_i hnone
    cases h
    exact .inr ⟨hnone, rfl⟩

/-- What no directory on the way changes, when it is put where nothing was, is
    the same once all of them are made. -/
theorem makeDirectories_keeps {P : FileTree → Prop} (h : t.makeDirectories p = .ok t') (ht : P t)
    (hput : ∀ s, P s → ∀ d ∈ p.chain, s.at? (d.place s.home) = none →
      P (s.put (d.place s.home) .directory)) : P t' := by
  unfold makeDirectories at h
  generalize p.chain = chain at h hput
  induction chain generalizing t with
  | nil =>
    cases h
    exact ht
  | cons d rest ih =>
    obtain ⟨t₁, hmade, hrest⟩ := bind_eq_ok_iff.mp h
    refine ih ?_ hrest fun s hs d' hd' => hput s hs d' (List.mem_cons_of_mem _ hd')
    rcases makeDirectory_eq_ok hmade with rfl | ⟨hnone, rfl⟩
    · exact ht
    · exact hput t ht d List.mem_cons_self hnone

theorem at?_of_makeDirectories {q : Place} {e : Entry} (h : t.makeDirectories p = .ok t')
    (hq : t.at? q = some e) : t'.at? q = some e := by
  refine makeDirectories_keeps (P := fun s => s.at? q = some e) h hq fun s hs d _ hnone => ?_
  have hne : q ≠ d.place s.home := by
    rintro rfl
    cases hs.symm.trans hnone
  rw [at?_put_ne hne, hs]

theorem home_of_makeDirectories (h : t.makeDirectories p = .ok t') : t'.home = t.home :=
  makeDirectories_keeps (P := fun s => s.home = t.home) h rfl fun _ hs _ _ _ => hs

/-! ## Files -/

/-- Whether a file can be read depends on the file alone. -/
theorem read_of_file {access : Access} (h : t.at? (t.place path) = some (.file content access)) :
    t.read path = if access.readable then .ok content else .error (.openDenied path) := by
  unfold read
  dsimp only
  rw [find?_ofText, h]

/-- What may be done with a file that is written at a place: as before, or
    everything if it is new. -/
def accessAt (t : FileTree) (place : Place) : Access :=
  match t.at? place with
  | some (.file _ access) => access
  | _ => .full

theorem accessAt_of_file {place : Place} {access : Access}
    (h : t.at? place = some (.file content access)) : t.accessAt place = access := by
  rw [accessAt, h]

theorem accessAt_congr {place : Place} (h : t'.at? place = t.at? place) :
    t'.accessAt place = t.accessAt place := by
  rw [accessAt, accessAt, h]

theorem write_eq_ok (h : t.write path content = .ok t') :
    t.at? (t.place path) ≠ some .directory ∧
      t' = t.put (t.place path) (.file content (t.accessAt (t.place path))) := by
  unfold write at h
  dsimp only at h
  rw [find?_ofText] at h
  unfold accessAt
  cases hfound : t.at? (t.place path) with
  | none =>
    rw [hfound] at h
    dsimp only at h
    split at h
    · cases h
    · split at h
      · cases h
        exact ⟨by simp, rfl⟩
      · cases h
  | some e =>
    rw [hfound] at h
    cases e with
    | directory => cases h
    | file old access =>
      dsimp only at h
      split at h
      · cases h
        exact ⟨by simp, rfl⟩
      · cases h

/-- A file that was written has its new content. -/
theorem at?_of_write_self (h : t.write path content = .ok t') :
    t'.at? (t.place path) = some (.file content (t.accessAt (t.place path))) := by
  obtain ⟨hfound, rfl⟩ := write_eq_ok h
  exact at?_put_self hfound _

/-- Everything else is as before. -/
theorem at?_of_write_ne {q : Place} (h : t.write path content = .ok t') (hq : q ≠ t.place path) :
    t'.at? q = t.at? q := by
  obtain ⟨-, rfl⟩ := write_eq_ok h
  exact at?_put_ne hq _

theorem home_of_write (h : t.write path content = .ok t') : t'.home = t.home := by
  obtain ⟨-, rfl⟩ := write_eq_ok h
  rfl

end MixinCss.FileTree
