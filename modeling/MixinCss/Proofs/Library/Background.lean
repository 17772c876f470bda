/-
  MixinCss.Proofs.Library.Background

  Backgrounds never fail. A word is recognized as a color after its letters are
  made small and it is trimmed; when it is written as `rgba(…)` it is only
  trimmed. The reader makes letters small and trims by itself, so both times it
  reads the same (`Color.read_trim_eq_ok_iff`), and a recognized color can always
  be written (`Library.background_succeeds`).
-/

import MixinCss.Library.Appearance
import MixinCss.Proofs.Outcome
import MixinCss.Proofs.Text.Lowered

namespace MixinCss

namespace Color

/-! ## What the reader looks at -/

/-- The text that is given to a function of colors is there for the message
    only. -/
theorem toOption_ofFunction? (name x y z input input' : Text) :
    (ofFunction? name x y z input).map Except.toOption =
      (ofFunction? name x y z input').map Except.toOption := by
  -- Both sides ask for the same name, so they can be compared name by name.
  have hname {c : Prop} [Decidable c] {a a' b b' : Option (Except Fault Rgb)}
      (helse : b.map Except.toOption = b'.map Except.toOption)
      (hthen : a.map Except.toOption = a'.map Except.toOption) :
      (if c then a else b).map Except.toOption = (if c then a' else b').map Except.toOption := by
    split
    · exact hthen
    · exact helse
  unfold ofFunction?
  dsimp only
  iterate 8 apply hname
  · rfl
  all_goals split <;> rfl

theorem toOption_ofBareHex (t input input' : Text) :
    (ofBareHex t input).toOption = (ofBareHex t input').toOption := by
  unfold ofBareHex
  split <;> rfl

theorem toOption_ofCall (name inner input input' : Text) :
    (ofCall name inner input).toOption = (ofCall name inner input').toOption := by
  have hfunction (x y z : Text) :
      ((ofFunction? name x y z input).getD (ofBareHex inner input)).toOption =
        ((ofFunction? name x y z input').getD (ofBareHex inner input')).toOption := by
    rw [← Option.getD_map Except.toOption, toOption_ofFunction? name x y z input input',
      toOption_ofBareHex inner input input', Option.getD_map]
  unfold ofCall
  split
  · exact hfunction _ _ _
  · split
    · rfl
    · exact hfunction _ _ _
  · rfl

/-- Which color is read depends on the small letters of the trimmed text alone. -/
theorem toOption_read_congr {a b : Text} (h : a.lowered.trim = b.lowered.trim) :
    (read a).toOption = (read b).toOption := by
  unfold read
  dsimp only
  rw [h]
  split
  · rfl
  split
  · rfl
  split
  · split <;> rfl
  split
  · split
    · exact toOption_ofCall _ _ _ _
    · exact toOption_ofBareHex _ _ _
  · exact toOption_ofBareHex _ _ _

/-- Trimmed or with small letters as well, a text is read as the same color. -/
theorem read_trim_eq_ok_iff (t : Text) (c : Rgb) :
    read t.trim = .ok c ↔ read t.lowered.trim = .ok c := by
  have hlowered : t.lowered.trim.lowered.trim = t.lowered.trim := by
    rw [Text.trim_lowered_trim, Text.lowered_lowered]
  have hsame : (read t.trim).toOption = (read t.lowered.trim).toOption :=
    toOption_read_congr ((Text.trim_lowered_trim t).trans hlowered.symm)
  rw [← toOption_eq_some_iff, hsame, toOption_eq_some_iff]

/-- What is recognized as a color can be written, with the channels that were
    recognized. -/
theorem exists_rgba {v : Value} (h : v.isColor = true) (opacity : Float) :
    ∃ c, read v.raw.lowered.trim = .ok c ∧
      rgba v.raw opacity = .ok (utf8 "rgba(" ++ c.steps ++ utf8 ", " ++
        (Value.ofNumber opacity).opacity.text ++ utf8 ")") := by
  cases v with
  | word raw =>
    have hread : (read raw.lowered.trim).isOk = true := (Bool.and_eq_true_iff.mp h).2
    cases hc : read raw.lowered.trim with
    | error fault =>
      rw [hc] at hread
      cases hread
    | ok c =>
      have htrim : read raw.trim = .ok c := (read_trim_eq_ok_iff raw c).mpr hc
      refine ⟨c, hc, ?_⟩
      show (demand raw).map _ = _
      rw [demand, htrim]
      rfl
  | _ => cases h

end Color

namespace Library

open Mixin

theorem exists_backgroundParts (v : Value) (rest : List Value) :
    ∃ parts, backgroundParts v rest = .ok parts := by
  unfold backgroundParts
  split
  · exact ⟨_, rfl⟩
  rename_i opacity hopacity
  -- A number that gives the opacity stands behind the color, so two items are there.
  have hcolor : v.isColor = true := by
    by_contra hplain
    rw [if_neg hplain] at hopacity
    cases hopacity
  rw [if_pos hcolor] at hopacity
  cases rest with
  | nil => cases hopacity
  | cons next rest =>
    obtain ⟨c, -, hwritten⟩ := Color.exists_rgba hcolor opacity
    have hbehind : itemsFrom (v :: next :: rest) 2 = .ok rest := if_pos (by simp)
    rw [hwritten]
    dsimp only
    rw [hbehind, ok_bind]
    exact ⟨_, rfl⟩

/-- Every list of arguments gives a background: whatever is recognized as a color
    is also written as one, with the channels that were recognized. -/
theorem background_succeeds (scope : Scope) (args : Args) :
    (∃ nodes, background scope args = .ok nodes) ∧
      ∀ v : Value, v.isColor = true → ∀ opacity : Float,
        ∃ c, Color.read v.raw.lowered.trim = .ok c ∧
          Color.rgba v.raw opacity = .ok (utf8 "rgba(" ++ c.steps ++ utf8 ", " ++
            (Value.ofNumber opacity).opacity.text ++ utf8 ")") := by
  refine ⟨?_, fun v hcolor opacity => Color.exists_rgba hcolor opacity⟩
  cases args with
  | keywords pairs => exact ⟨_, rfl⟩
  | positional values =>
    cases values with
    | nil => exact ⟨_, rfl⟩
    | cons v rest =>
      obtain ⟨parts, hparts⟩ := exists_backgroundParts v rest
      unfold background
      dsimp only
      split
      · exact ⟨_, rfl⟩
      · rw [hparts]
        exact ⟨_, rfl⟩

/-- A no-break space stands before the word, some letters are large, and its last
    letter is the sign of the unit kelvin, whose small letter is a `k`. -/
theorem background_succeeds_kelvin :
    (∃ nodes, background ⟨.standard, fun _ _ => .ok []⟩
        (.positional [.word (utf8 "\u00a0BlAc\u212a"), .ofNumber 0.5]) = .ok nodes) ∧
      (Value.word (utf8 "\u00a0BlAc\u212a")).isColor = true ∧
      ∃ c, Color.read (utf8 "black") = .ok c ∧
        Color.rgba (utf8 "\u00a0BlAc\u212a") 0.5 = .ok (utf8 "rgba(" ++ c.steps ++ utf8 ", " ++
          (Value.ofNumber 0.5).opacity.text ++ utf8 ")") := by
  have hcolor : (Value.word (utf8 "\u00a0BlAc\u212a")).isColor = true := by decide +kernel
  have hsmall : (utf8 "\u00a0BlAc\u212a").lowered.trim = utf8 "black" := by decide +kernel
  obtain ⟨hnodes, hwritten⟩ := background_succeeds ⟨.standard, fun _ _ => .ok []⟩
    (.positional [.word (utf8 "\u00a0BlAc\u212a"), .ofNumber 0.5])
  have hblack := hwritten _ hcolor 0.5
  rw [Value.raw, hsmall] at hblack
  exact ⟨hnodes, hcolor, hblack⟩

end Library

end MixinCss
