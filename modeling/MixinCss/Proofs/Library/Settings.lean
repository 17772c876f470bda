/-
  MixinCss.Proofs.Library.Settings

  Settings as values. A setting becomes a number where the reader takes it, a word
  of an argument only where it also has the form of a style sheet's numbers. The two
  agree but for infinity, not-a-number, base sixteen and underscores: such a setting
  is a number, and `spaced` puts the unit behind it, although the same word as an
  argument is none (`settingValue_eq_ofNumber_iff`).
-/

import MixinCss.Proofs.Decimal.Forms
import MixinCss.Proofs.Library.Callees

namespace MixinCss

open Decimal (OtherForm)

namespace Variables

theorem settingValue_eq_iff_read {s : Text} {f : Float} :
    settingValue s = .ofNumber f ↔ Decimal.read s = .ok f := by
  unfold settingValue
  constructor
  · intro h
    split at h
    · rename_i g hread
      injection h with _ hg
      rw [hread, hg]
    · cases h
  · intro h
    rw [h]

theorem settingValue_eq_word {s : Text} (h : ∀ f, Decimal.read s ≠ .ok f) :
    settingValue s = .word s := by
  unfold settingValue
  split
  · rename_i f hread
    exact absurd hread (h f)
  · rfl

end Variables

theorem Value.number?_word_eq_some_iff {s : Text} {f : Float} :
    (Value.word s).number? = some f ↔ s.isNumber = true ∧ Decimal.read s = .ok f := by
  show (if s.isNumber then (Decimal.read s).toOption else none) = some f ↔ _
  rw [Option.ite_none_right_eq_some, toOption_eq_some_iff]

/-- A setting reads as a number where the word is one or has another form. -/
theorem read_eq_ok_iff_number? {s : Text} {f : Float} :
    Decimal.read s = .ok f ↔ (Value.word s).number? = some f ∨ OtherForm s f := by
  rw [Value.number?_word_eq_some_iff]
  exact Decimal.read_eq_ok_iff

namespace Library

/-- No value is given in the first place. -/
def LacksFirst (args : Args) : Prop :=
  ∀ v rest, args = .positional (v :: rest) → v.isAbsent = true

theorem spaced_of_lacksFirst (scope : Scope) {args : Args} (hargs : LacksFirst args) :
    spaced scope args =
      scope.call (utf8 "margin") (.keywords [⟨utf8 "bottom",
        (Variables.settingValue scope.vars.blockMarginBottom).withUnit scope.vars.unit⟩]) := by
  unfold spaced
  dsimp only
  rw [if_pos]
  split
  · rename_i v rest
    exact hargs v rest rfl
  · rfl

/-- Without a value, the setting with the unit becomes the margin. -/
theorem call_spaced_setting (vars : Variables) {args : Args} (hargs : LacksFirst args) :
    (Catalog.ofOverrides [] vars).call (utf8 "spaced") (some args) =
      .ok [.declare (utf8 "margin-bottom")
        ((Variables.settingValue vars.blockMarginBottom).withUnit vars.unit)] := by
  have hmargin : (Catalog.ofOverrides [] vars).find? (utf8 "margin") = some margin :=
    Catalog.find?_of_library rfl
  have hkey : Text.underHead (utf8 "margin") [] (utf8 "bottom") = utf8 "margin-bottom" := by
    decide +kernel
  rw [@Catalog.call_builtin vars _ spaced rfl, spaced_of_lacksFirst _ hargs]
  refine (Catalog.callWithin_succ hmargin (Catalog.nestingLimit - 2) _).trans ?_
  rw [← hkey]
  rfl

end Library

/-- A setting is a number exactly where the word is one or has one of the forms
    that a style sheet does not know, where the word is none; any other setting
    stays a word. So `spaced` puts the unit behind the numbers of a style sheet, but
    also behind infinity, not-a-number, numbers in base sixteen and those with
    underscores. -/
theorem settingValue_eq_ofNumber_iff (s : Text) :
    (∀ f, Variables.settingValue s = .ofNumber f ↔
      (Value.word s).number? = some f ∨ OtherForm s f) ∧
    (∀ f, OtherForm s f → (Value.word s).number? = none) ∧
    ((∀ f, Variables.settingValue s ≠ .ofNumber f) → Variables.settingValue s = .word s) ∧
    ∀ (vars : Variables) (args : Args), vars.blockMarginBottom = s → Library.LacksFirst args →
      (∀ f, (Value.word s).number? = some f ∨ OtherForm s f →
        (Catalog.ofOverrides [] vars).call (utf8 "spaced") (some args) =
          .ok [.declare (utf8 "margin-bottom") (.ofDimension f vars.unit)]) ∧
      ((∀ f, ¬ ((Value.word s).number? = some f ∨ OtherForm s f)) →
        (Catalog.ofOverrides [] vars).call (utf8 "spaced") (some args) =
          .ok [.declare (utf8 "margin-bottom") (.word s)]) := by
  have hnumber (f : Float) : Variables.settingValue s = .ofNumber f ↔
      (Value.word s).number? = some f ∨ OtherForm s f :=
    Variables.settingValue_eq_iff_read.trans read_eq_ok_iff_number?
  have hword (h : ∀ f, Variables.settingValue s ≠ .ofNumber f) :
      Variables.settingValue s = .word s :=
    Variables.settingValue_eq_word fun f hread => h f (Variables.settingValue_eq_iff_read.mpr hread)
  refine ⟨hnumber, fun f h => if_neg (Bool.eq_false_iff.mp h.isNumber_eq_false), hword, ?_⟩
  rintro vars args rfl hargs
  rw [Library.call_spaced_setting vars hargs]
  refine ⟨fun f h => ?_, fun h => ?_⟩
  · rw [(hnumber f).mpr h]
    rfl
  · rw [hword fun f hf => h f ((hnumber f).mp hf)]
    rfl

/-- Zero in base sixteen, with a sign, large letters and an underscore behind the
    mark of the base. -/
theorem settingValue_eq_ofNumber_iff_hexadecimal :
    OtherForm (utf8 "-0X_0.0P-1") (-0.0) ∧
    Variables.settingValue (utf8 "-0X_0.0P-1") = .ofNumber (-0.0) ∧
    (Value.word (utf8 "-0X_0.0P-1")).number? = none ∧
    (Catalog.ofOverrides []
        { Variables.standard with blockMarginBottom := utf8 "-0X_0.0P-1" }).call
        (utf8 "spaced") (some (.positional [.absent])) =
      .ok [.declare (utf8 "margin-bottom") (.ofDimension (-0.0) (utf8 "rem"))] := by
  have hplain : (utf8 "-0X_0.0P-1").isNumber ≠ true := by decide
  have hread : Decimal.read (utf8 "-0X_0.0P-1") = .ok (-0.0) := rfl
  have hform : OtherForm (utf8 "-0X_0.0P-1") (-0.0) :=
    (Decimal.read_eq_ok_iff.mp hread).resolve_left fun h => hplain h.1
  have hlacks : Library.LacksFirst (.positional [.absent]) := by
    rintro v rest ⟨⟩
    rfl
  obtain ⟨hnumber, hnone, -, hspaced⟩ := settingValue_eq_ofNumber_iff (utf8 "-0X_0.0P-1")
  refine ⟨hform, (hnumber _).mpr (.inr hform), hnone _ hform, ?_⟩
  exact (hspaced { Variables.standard with blockMarginBottom := utf8 "-0X_0.0P-1" } _ rfl
    hlacks).1 _ (.inr hform)

/-- Infinity is no number as an argument, but one as a setting, and gets a unit. -/
theorem setting_infinity_gets_unit :
    (Value.word (utf8 "inf")).number? = none ∧
    Variables.settingValue (utf8 "inf") = .ofNumber (1.0 / 0.0) ∧
    (Catalog.ofOverrides [] { Variables.standard with blockMarginBottom := utf8 "inf" }).call
        (utf8 "spaced") (some (.positional [])) =
      .ok [.declare (utf8 "margin-bottom") (.ofDimension (1.0 / 0.0) (utf8 "rem"))] := by
  refine ⟨rfl, rfl, ?_⟩
  rw [Library.call_spaced_setting _ fun v rest h => by cases h]
  rfl

end MixinCss
