/-
  MixinCss.Proofs.Library.Percentages

  Percentages as arguments. The lexer knows percentages with a sign, a fraction
  and an exponent, but only digits in front of the percent sign are taken for a
  percentage by the mixins: with them `column` has the width as it is written and
  `opacity` divides the number by a hundred. Any other percentage is refused by
  `column` as a span and left as it is by `opacity` (`percentage_used_iff_whole`).
-/

import MixinCss.Proofs.Grammar.Dimensions
import MixinCss.Proofs.Library.Callees

namespace MixinCss

open Decimal (IsDigits)

/-! ## Texts of percentages -/

namespace Text

open Lexer

/-- Only digits in front of the percent sign make a whole percentage. -/
theorem isWholePercentage_iff (p : Text) :
    isWholePercentage (p ++ [ascii '%']) = true ↔ IsDigits p := by
  rw [isWholePercentage]
  simp only [Bool.and_eq_true, Bool.not_eq_true', beq_iff_eq]
  constructor
  · rintro ⟨hsome, htail⟩
    have hcut := List.takeWhile_append_dropWhile (p := Byte.isDigit) (l := p ++ [ascii '%'])
    rw [htail, List.append_cancel_right_eq] at hcut
    rw [hcut] at hsome
    refine ⟨fun hnil => ?_, fun b hb => ?_⟩
    · rw [hnil] at hsome
      cases hsome
    · rw [← hcut] at hb
      exact List.mem_takeWhile_imp hb
  · intro h
    have htake : (p ++ [ascii '%']).takeWhile Byte.isDigit = p :=
      takeWhile_append_eq_iff.mpr ⟨h.digit, by rintro _ ⟨⟩; decide⟩
    have hcut := List.takeWhile_append_dropWhile (p := Byte.isDigit) (l := p ++ [ascii '%'])
    rw [htake, List.append_cancel_left_eq] at hcut
    rw [htake, hcut]
    exact ⟨List.isEmpty_eq_false_iff.mpr h.nonempty, rfl⟩

end Text

/-! ## The value of a percentage -/

namespace Grammar

open Lexer

/-- A percentage that is the only token of an argument is the argument. -/
theorem arguments_percentage {t : Token} (hkind : t.kind = .percentage) (name : Text)
    (offset : Nat) :
    arguments name offset [t] = .ok (.positional [(dimension? t).getD (.word t.text)]) := by
  obtain ⟨kind, text, place⟩ := t
  cases hkind
  rfl

/-- A percentage is no number, also where it is out of range. -/
theorem number?_percentage {t : Token} (h : ascii '%' ∈ t.text) :
    ((dimension? t).getD (.word t.text)).number? = none := by
  have hword : t.text.isNumber = false := by
    refine Bool.eq_false_iff.mpr fun hnumber => ?_
    exact absurd (Text.mem_numberBytes_of_isNumber hnumber _ h) (by decide)
  rw [dimension?]
  split
  · rfl
  · show (if t.text.isNumber = true then _ else _) = _
    rw [hword, if_neg Bool.false_ne_true]

end Grammar

/-! ## Calls with a percentage -/

namespace Decimal

open Lexer

theorem IsDigits.isNumber {p : Text} (h : IsDigits p) : IsNumber p := by
  have hmantissa : IsMantissa ([] ++ (p ++ [])) :=
    .intro (by decide) h.digit (.inl rfl) (by rw [List.append_nil]; exact h.nonempty)
  rw [List.nil_append, List.append_nil] at hmantissa
  exact ⟨p, [], hmantissa, .inl rfl, (List.append_nil p).symm⟩

/-- Digits are read as the number that they spell, infinity if it is too large. -/
theorem readSaturating_isDigits {p : Text} (h : IsDigits p) :
    read p = .ok (readSaturating p) ∨
      read p = .error .outOfRange ∧ readSaturating p = 1.0 / 0.0 := by
  have hsign : p.head? ≠ some (ascii '-') := fun hhead =>
    absurd (h.digit _ (List.mem_of_head? hhead)) (by decide)
  rw [readSaturating]
  cases hread : read p with
  | ok x => exact .inl rfl
  | error fault =>
    cases fault with
    | outOfRange => exact .inr ⟨rfl, if_neg hsign⟩
    | malformed => exact absurd hread (read_ne_malformed h.isNumber)

end Decimal

namespace Value

variable {v : Value}

theorem opacity_whole {p : Text} (h : v.isPercentage = true) (htext : v.text = p ++ [ascii '%']) :
    v.opacity = .ofNumber (Decimal.readSaturating p / 100.0) := by
  rw [opacity, if_pos h, htext, Text.dropTail_append]

theorem opacity_unchanged (hpercent : v.isPercentage = false) (hnumber : v.number? = none) :
    v.opacity = v := by
  rw [opacity, hpercent, if_neg Bool.false_ne_true, hnumber]

end Value

namespace Library

variable {v : Value}

theorem column_whole (scope : Scope) (h : v.isPercentage = true) :
    column scope (.positional [v]) = .ok (floated v) := by
  have hargs : Column.ofArgs (.positional [v]) = .ok (.inl v) := by
    rw [Column.ofArgs]
    dsimp only
    rw [if_pos h]
  rw [column, hargs]
  rfl

/-- What is neither a whole percentage nor a number cannot be a span. -/
theorem column_refused (scope : Scope) (hpercent : v.isPercentage = false)
    (hword : v.text ≠ utf8 "spaced") (hnumber : v.number? = none) :
    column scope (.positional [v]) = .error (.spanNotNumber v.text) := by
  have hargs : Column.ofArgs (.positional [v]) = .ok (.inr ⟨v, .absent, none⟩) := by
    rw [Column.ofArgs]
    dsimp only
    rw [hpercent, if_neg Bool.false_ne_true, if_neg hword]
    rfl
  have hwidth (total : Float) :
      Column.width ⟨v, .absent, none⟩ total = .error (.spanNotNumber v.text) := by
    rw [Column.width]
    dsimp only
    rw [hnumber]
    rfl
  rw [column, hargs]
  show (Column.width ⟨v, .absent, none⟩ scope.vars.gridColumns >>= _) = _
  rw [hwidth]
  rfl

theorem opacity_given (scope : Scope) (h : v.text ≠ []) :
    opacity scope (.positional [v]) = .ok [.declare (utf8 "opacity") v.opacity] := by
  have hgiven : v.isAbsent = false := by
    cases v with
    | word raw => exact List.isEmpty_eq_false_iff.mpr h
    | _ => rfl
  show (if v.isAbsent = true then _ else _) = _
  rw [hgiven, if_neg Bool.false_ne_true]
  rfl

end Library

open Lexer Grammar Mixin

/-- A percentage of a source is a number and a percent sign, and in a call it is
    passed on with its text. If the number is only digits, `column` has this width
    as it is written, and `opacity` has the number that the digits spell, divided
    by a hundred. Otherwise, with a sign, a fraction or an exponent, `column`
    refuses it as a span, and `opacity` has the percentage as it is written. -/
theorem percentage_used_iff_whole (vars : Variables) {src : Text} {t : Token}
    (ht : t ∈ lex 0 src) (hkind : t.kind = .percentage) :
    ∃ p v, IsNumber p ∧ t.text = p ++ [ascii '%'] ∧
      (∀ name offset, arguments name offset [t] = .ok (.positional [v])) ∧ v.text = t.text ∧
      (IsDigits p →
        (Catalog.ofOverrides [] vars).call (utf8 "column") (some (.positional [v])) =
          .ok [.declare (utf8 "float") (word "left"), .declare (utf8 "width") v] ∧
        ∃ x, (Decimal.read p = .ok x ∨ Decimal.read p = .error .outOfRange ∧ x = 1.0 / 0.0) ∧
          (Catalog.ofOverrides [] vars).call (utf8 "opacity") (some (.positional [v])) =
            .ok [.declare (utf8 "opacity") (.ofNumber (x / 100.0))]) ∧
      (¬ IsDigits p →
        (Catalog.ofOverrides [] vars).call (utf8 "column") (some (.positional [v])) =
          .error (.spanNotNumber t.text) ∧
        (Catalog.ofOverrides [] vars).call (utf8 "opacity") (some (.positional [v])) =
          .ok [.declare (utf8 "opacity") v]) := by
  obtain ⟨pre, rest, -, -, -, hlexeme⟩ := exists_seam_of_mem_lex ht
  obtain ⟨m, e, unit, hquantity, -⟩ := hlexeme.exists_quantity (by rw [hkind]; decide)
  have hcut : t.text = m ++ e ++ [ascii '%'] := by
    rw [hquantity.text, hquantity.percent hkind, List.append_assoc]
  have hpercent : ascii '%' ∈ t.text := by
    rw [hcut]
    exact List.mem_append_right _ List.mem_cons_self
  have hwhole := Text.isWholePercentage_iff (m ++ e)
  rw [← hcut] at hwhole
  have hnumber := number?_percentage hpercent
  have htext := text_dimension? t
  refine ⟨m ++ e, (dimension? t).getD (.word t.text),
    ⟨m, e, hquantity.isMantissa, hquantity.isExponent, rfl⟩, hcut, arguments_percentage hkind,
    htext, ?_⟩
  -- From here on the value matters by its text and by being no number only.
  generalize (dimension? t).getD (.word t.text) = v at hnumber htext
  rw [@Catalog.call_builtin vars _ Library.column rfl,
    @Catalog.call_builtin vars _ Library.opacity rfl,
    Library.opacity_given _ (by rw [htext]; exact List.ne_nil_of_mem hpercent)]
  rw [← htext] at hwhole hcut ⊢
  constructor
  · intro hdigits
    have hv : v.isPercentage = true := hwhole.mpr hdigits
    refine ⟨Library.column_whole _ hv, _, Decimal.readSaturating_isDigits hdigits, ?_⟩
    rw [Value.opacity_whole hv hcut]
  · intro hdigits
    have hv : v.isPercentage = false := Bool.eq_false_iff.mpr (mt hwhole.mp hdigits)
    have hword : v.text ≠ utf8 "spaced" := by
      intro hspaced
      rw [← htext, hspaced] at hpercent
      revert hpercent
      decide
    rw [Value.opacity_unchanged hv hnumber]
    exact ⟨Library.column_refused _ hv hword hnumber, rfl⟩

/-- A quarter of the width, and an opacity of a quarter. -/
theorem percentage_used_iff_whole_quarter :
    let t : Token := ⟨.percentage, utf8 "25%", 7⟩
    let c := Catalog.ofOverrides [] .standard
    t ∈ lex 0 (utf8 "column(25%)") ∧ t.kind = .percentage ∧
      ∃ v, (∀ name offset, arguments name offset [t] = .ok (.positional [v])) ∧
        c.call (utf8 "column") (some (.positional [v])) =
          .ok [.declare (utf8 "float") (word "left"), .declare (utf8 "width") v] ∧
        ∃ x, Decimal.read (utf8 "25") = .ok x ∧
          c.call (utf8 "opacity") (some (.positional [v])) =
            .ok [.declare (utf8 "opacity") (.ofNumber (x / 100.0))] := by
  intro t c
  have ht : t ∈ lex 0 (utf8 "column(25%)") := by decide +kernel
  obtain ⟨p, v, -, hcut, hargs, -, hwhole, -⟩ := percentage_used_iff_whole .standard ht rfl
  obtain rfl : utf8 "25" = p := List.append_cancel_right hcut
  obtain ⟨hcolumn, x, hx, hopacity⟩ := hwhole (by decide)
  refine ⟨ht, rfl, v, hargs, hcolumn, x, ?_, hopacity⟩
  rcases hx with hx | hx
  · exact hx
  · cases hx.1

/-- A percentage with a fraction is no span of `column`, and `opacity` does not
    divide it. -/
theorem fraction_not_used_as_percentage :
    let t : Token := ⟨.percentage, utf8 "12.5%", 0⟩
    let v : Value := .dimension (utf8 "12.5%") 12.5 (utf8 "%")
    let c := Catalog.ofOverrides [] .standard
    t ∈ lex 0 (utf8 "12.5%") ∧ arguments (utf8 "column") 0 [t] = .ok (.positional [v]) ∧
      c.call (utf8 "column") (some (.positional [v])) = .error (.spanNotNumber (utf8 "12.5%")) ∧
      c.call (utf8 "opacity") (some (.positional [v])) = .ok [.declare (utf8 "opacity") v] := by
  exact ⟨by decide +kernel, by rfl, by rfl, by rfl⟩

end MixinCss
