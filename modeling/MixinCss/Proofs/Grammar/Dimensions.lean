/-
  MixinCss.Proofs.Grammar.Dimensions

  Where the value of a percentage or a dimension is cut into a number and a unit.
  The lexer ends the number behind its exponent. The value is cut in front of the
  exponent, so that a mark such as `e3` counts as part of the unit and the number
  is that of the mantissa alone. Both cuts agree exactly if there is no exponent
  (`dimension_cut_before_exponent`).
-/

import MixinCss.Grammar.Argument
import MixinCss.Proofs.Decimal.Reader

namespace MixinCss

namespace Grammar

open Lexer

theorem isNumeral_of_isFraction {part : Text} (h : IsFraction part) :
    ∀ b ∈ part, numeralHead.isNumeral b = true := by
  rcases h with rfl | ⟨ds, hds, rfl⟩
  · exact List.forall_mem_nil _
  · refine List.forall_mem_cons.mpr ⟨by decide, fun b hb => ?_⟩
    rw [numeralHead.isNumeral, hds.digit b hb]
    rfl

/-- Behind a sign, digits and points are taken as they stand. -/
theorem numeralHead_signs {sign body : Text} (hsign : sign ∈ signs)
    (hbody : ∀ c ∈ body.head?, isSign c = false) :
    numeralHead (sign ++ body) = sign ++ body.takeWhile numeralHead.isNumeral := by
  rcases mem_signs_iff.mp hsign with rfl | rfl | rfl
  · cases body with
    | nil => rfl
    | cons c body =>
      rw [List.nil_append, numeralHead, hbody c rfl]
      rfl
  · rfl
  · rfl

/-- A mantissa is what is taken of itself, and no exponent and no unit with it. -/
theorem numeralHead_mantissa {m x : Text} (hm : IsMantissa m) (hx : ∀ c ∈ x.head?, IsApart c) :
    numeralHead (m ++ x) = m := by
  obtain @⟨sign, whole, part, hsign, hwhole, hpart, hsome⟩ := hm
  have hbody : ∀ b ∈ whole ++ part, numeralHead.isNumeral b = true := by
    refine List.forall_mem_append.mpr ⟨fun b hb => ?_, isNumeral_of_isFraction hpart⟩
    rw [numeralHead.isNumeral, hwhole b hb]
    rfl
  have hend : ∀ b, x.head? = some b → numeralHead.isNumeral b = false := by
    intro b hb
    rw [numeralHead.isNumeral, (hx b hb).1, Bool.false_or]
    exact beq_false_of_ne (hx b hb).2
  have hhead := isSign_of_head hwhole hpart hsome x
  rw [List.append_assoc, numeralHead_signs hsign (by rwa [List.append_assoc]),
    takeWhile_append_eq_iff.mpr ⟨hbody, hend⟩]

theorem numeralHead_of_quantity {t : Token} {m e unit : Text} (h : Quantity t m e unit) :
    numeralHead t.text = m := by
  have hapart : ∀ c ∈ (e ++ unit).head?, IsApart c := by
    rcases h.isExponent with rfl | he
    · exact h.isApart
    · exact he.isApart unit
  rw [h.text]
  exact numeralHead_mantissa h.isMantissa hapart

/-- The number is read from the mantissa, and everything behind it is the unit. -/
theorem dimension?_of_quantity {t : Token} {m e unit : Text} (h : Quantity t m e unit) :
    dimension? t = (Decimal.read m).toOption.map fun f => .dimension t.text f (e ++ unit) := by
  have hdrop : t.text.drop m.length = e ++ unit := by rw [h.text, List.drop_left]
  rw [dimension?, numeralHead_of_quantity h, hdrop]
  cases Decimal.read m with
  | ok f => rfl
  | error fault => rfl

/-- In range or not, the value keeps the text. -/
theorem text_dimension? (t : Token) : ((dimension? t).getD (.word t.text)).text = t.text := by
  rw [dimension?]
  split <;> rfl

end Grammar

open Grammar Lexer

/-- A percentage or a dimension of a source is cut by the lexer into the longest
    number that it begins with, a mantissa with or without an exponent, and a
    unit. Its value keeps the text, has the number that the mantissa reads as, and
    counts the exponent as part of the unit; there is none only if the mantissa is
    out of range. So for a number in range the value is that number with its unit
    exactly if there is no exponent. -/
theorem dimension_cut_before_exponent {src : Text} {t : Token} (ht : t ∈ lex 0 src)
    (hkind : t.kind ∈ [TokenKind.percentage, .dimension]) :
    ∃ m e unit, Quantity t m e unit ∧ number (src.drop t.offset) = (m ++ e).length ∧
      Decimal.read m ≠ .error .malformed ∧
      dimension? t = ((Decimal.read m).toOption.map fun f => .dimension t.text f (e ++ unit)) ∧
      ∀ f, Decimal.read (m ++ e) = .ok f →
        (dimension? t = some (.dimension t.text f unit) ↔ e = []) := by
  obtain ⟨pre, rest, hsrc, hoffset, -, hlexeme⟩ := exists_seam_of_mem_lex ht
  obtain ⟨m, e, unit, hquantity, hnumber⟩ := hlexeme.exists_quantity hkind
  have hplace : src.drop t.offset = t.text ++ rest := by
    rw [hsrc, hoffset, Nat.zero_add, List.drop_left]
  have hread : Decimal.read m ≠ .error .malformed :=
    Decimal.read_ne_malformed ⟨m, [], hquantity.isMantissa, .inl rfl, (List.append_nil m).symm⟩
  have hvalue := dimension?_of_quantity hquantity
  refine ⟨m, e, unit, hquantity, by rw [hplace, hnumber], hread, hvalue, fun f hf => ?_⟩
  rw [hvalue]
  constructor
  · intro hsome
    obtain ⟨g, -, hg⟩ := Option.map_eq_some_iff.mp hsome
    have hunit : e ++ unit = unit := by
      injection hg
    exact List.append_left_eq_self.mp hunit
  · rintro rfl
    rw [List.append_nil] at hf
    rw [hf]
    rfl

/-- A sign, a leading point, and a unit that begins like an exponent. -/
theorem dimension_cut_before_exponent_ex :
    let t : Token := ⟨.dimension, utf8 "-.5ex", 2⟩
    t ∈ lex 0 (utf8 "f(-.5ex)") ∧ t.kind ∈ [TokenKind.percentage, .dimension] ∧
      Quantity t (utf8 "-.5") [] (utf8 "ex") ∧
      number (utf8 "-.5ex)") = (utf8 "-.5").length ∧ Decimal.read (utf8 "-.5") = .ok (-0.5) ∧
      dimension? t = some (.dimension t.text (-0.5) (utf8 "ex")) := by
  intro t
  have ht : t ∈ lex 0 (utf8 "f(-.5ex)") := by decide +kernel
  have hkind : t.kind ∈ [TokenKind.percentage, .dimension] := by decide
  have hread : Decimal.read (utf8 "-.5") = .ok (-0.5) := by rfl
  have hlength : number (utf8 "-.5ex)") = 3 := by decide
  obtain ⟨m, e, unit, hquantity, hnumber, -, -, hvalue⟩ := dimension_cut_before_exponent ht hkind
  obtain rfl : utf8 "-.5" = m := numeralHead_of_quantity hquantity
  obtain rfl : e = [] := by
    have hsum : 3 = (utf8 "-.5").length + e.length :=
      (hlength.symm.trans hnumber).trans List.length_append
    exact List.eq_nil_of_length_eq_zero (Nat.add_left_cancel hsum).symm
  have htext : t.text = utf8 "-.5" ++ utf8 "ex" := by decide
  obtain rfl : utf8 "ex" = unit := List.append_cancel_left (htext.symm.trans hquantity.text)
  exact ⟨ht, hkind, hquantity, hlength, hread, (hvalue _ hread).mpr rfl⟩

/-- The exponent of `1e3px` is taken for a part of the unit: the longest number is
    `1e3`, which reads as a thousand, but the value has the number one and the unit
    `e3px`. -/
theorem dimension_takes_exponent_for_unit :
    let t : Token := ⟨.dimension, utf8 "1e3px", 0⟩
    t ∈ lex 0 (utf8 "1e3px") ∧ IsNumber (utf8 "1e3") ∧ t.text = utf8 "1e3" ++ utf8 "px" ∧
      (∀ p, IsNumber p → p <+: t.text → p.length ≤ (utf8 "1e3").length) ∧
      Decimal.read (utf8 "1e3") = .ok 1000.0 ∧
      dimension? t = some (.dimension (utf8 "1e3px") 1.0 (utf8 "e3px")) := by
  intro t
  refine ⟨by decide +kernel, ?_, by decide, fun p hp hfront => ?_, by rfl, by rfl⟩
  · exact isNumber_take (t := utf8 "1e3") (by decide)
  · have hlength := hp.length_le_number hfront
    have hnumber : number t.text = (utf8 "1e3").length := by decide
    rwa [hnumber] at hlength

end MixinCss
