/-
  MixinCss.Proofs.Decimal.Numeral

  Numbers as they are written. A finite number is written as a numeral: digits,
  perhaps with a dash in front of them and a point and more digits behind them
  (`format_cases`). The lexer finds a numeral in one piece, as a number or, with
  a unit behind it, as a dimension (`isLexeme_numeral`).
-/

import MixinCss.Decimal.Layout
import MixinCss.Proofs.Token.Lexemes

namespace MixinCss

namespace Decimal

/-! ## Numerals -/

/-- At least one digit and nothing else. -/
structure IsDigits (w : Text) : Prop where
  nonempty : w ≠ []
  digit : ∀ b ∈ w, Byte.isDigit b = true

/-- Digits, perhaps with a dash in front and a point and digits behind. -/
inductive IsNumeral : Text → Prop where
  | intro {sign whole part : Text} (hsign : sign = [] ∨ sign = [ascii '-'])
      (hwhole : IsDigits whole) (hpart : part = [] ∨ ∃ ds, IsDigits ds ∧ part = ascii '.' :: ds) :
      IsNumeral (sign ++ (whole ++ part))

theorem isDigit_toUInt8 {c : Char} (h : c.isDigit = true) : Byte.isDigit c.toUInt8 = true := by
  simp only [Char.isDigit, ge_iff_le, Bool.and_eq_true, decide_eq_true_eq,
    UInt32.le_iff_toNat_le] at h
  have hlow : 48 ≤ c.val.toNat := h.1
  have hhigh : c.val.toNat ≤ 57 := h.2
  have hbyte : c.toUInt8.toNat = c.val.toNat := by
    show c.val.toNat % 256 = c.val.toNat
    omega
  simp only [Byte.isDigit, Bool.and_eq_true, decide_eq_true_eq, UInt8.le_iff_toNat_le, hbyte]
  exact ⟨hlow, hhigh⟩

theorem isDigits_ofNat (n : Nat) : IsDigits (Text.ofNat n) := by
  refine ⟨fun h => Nat.toDigits_ne_nil (List.map_eq_nil_iff.1 h), fun b hb => ?_⟩
  obtain ⟨c, hc, rfl⟩ := List.mem_map.1 hb
  exact isDigit_toUInt8 (Nat.isDigit_of_mem_toDigits (by decide) (by decide) hc)

theorem IsDigits.append_zeros {w : Text} (h : IsDigits w) (n : Nat) :
    IsDigits (w ++ List.replicate n (ascii '0')) := by
  refine ⟨fun hnil => h.nonempty (List.append_eq_nil_iff.1 hnil).1, fun b hb => ?_⟩
  rcases List.mem_append.1 hb with hb | hb
  · exact h.digit b hb
  · rw [List.eq_of_mem_replicate hb]
    decide

theorem IsDigits.zeros_append {w : Text} (h : IsDigits w) (n : Nat) :
    IsDigits (List.replicate n (ascii '0') ++ w) := by
  refine ⟨fun hnil => h.nonempty (List.append_eq_nil_iff.1 hnil).2, fun b hb => ?_⟩
  rcases List.mem_append.1 hb with hb | hb
  · rw [List.eq_of_mem_replicate hb]
    decide
  · exact h.digit b hb

theorem IsNumeral.backslash_not_mem {w : Text} (h : IsNumeral w) : ascii '\\' ∉ w := by
  obtain @⟨sign, whole, part, hsign, hwhole, hpart⟩ := h
  have hdigits {ds : Text} (hds : IsDigits ds) : ascii '\\' ∉ ds :=
    fun hmem => absurd (hds.digit _ hmem) (by decide)
  rw [List.mem_append, List.mem_append, not_or, not_or]
  refine ⟨?_, hdigits hwhole, ?_⟩
  · rcases hsign with rfl | rfl <;> decide
  · rcases hpart with rfl | ⟨ds, hds, rfl⟩
    · exact List.not_mem_nil
    · exact List.not_mem_cons_of_ne_of_not_mem (by decide) (hdigits hds)

theorem isNumeral_positional (s : Scaled) (sign : Text) (hsign : sign = [] ∨ sign = [ascii '-']) :
    IsNumeral (sign ++ s.positional) := by
  have hdigits := isDigits_ofNat s.digits
  unfold Scaled.positional
  dsimp only
  split
  · rename_i n _
    have h := IsNumeral.intro hsign (hdigits.append_zeros n) (.inl rfl)
    rwa [List.append_nil] at h
  · rename_i n _
    split
    · -- A zero in front of the point.
      generalize n + 1 - (Text.ofNat s.digits).length = zeros
      have hzero : IsDigits [ascii '0'] := ⟨List.cons_ne_nil _ _, by simp; decide⟩
      have hpoint : utf8 "0." = [ascii '0', ascii '.'] := by decide
      have h := IsNumeral.intro hsign hzero (.inr ⟨_, hdigits.zeros_append zeros, rfl⟩)
      rw [hpoint, List.append_assoc]
      exact h
    · -- The point stands among the digits, with digits on both sides.
      rename_i hlong
      rw [List.append_assoc]
      refine .intro hsign ⟨?_, fun b hb => hdigits.digit b (List.mem_of_mem_take hb)⟩
        (.inr ⟨_, ⟨?_, fun b hb => hdigits.digit b (List.mem_of_mem_drop hb)⟩, rfl⟩)
      · rw [ne_eq, List.take_eq_nil_iff, not_or]
        exact ⟨by omega, hdigits.nonempty⟩
      · rw [ne_eq, List.drop_eq_nil_iff]
        omega

/-- Infinite numbers and what is not a number. -/
def words : List Text := [utf8 "NaN", utf8 "+Inf", utf8 "-Inf"]

/-- A number is written as a numeral, or as a word if it is not finite. -/
theorem format_cases (f : Float) : IsNumeral (format f) ∨ format f ∈ words := by
  unfold format write
  cases Binary.ofFloat f with
  | notANumber => exact .inr (by decide)
  | infinite negative => cases negative <;> exact .inr (by decide)
  | finite negative m q =>
    refine .inl ?_
    have hmagnitude (sign : Text) (hsign : sign = [] ∨ sign = [ascii '-']) :
        IsNumeral (sign ++ if m = 0 then utf8 "0" else (shortest m q).positional) := by
      split
      · have hzero : IsDigits (utf8 "0") := ⟨by decide, by decide +kernel⟩
        exact IsNumeral.intro hsign hzero (.inl rfl)
      · exact isNumeral_positional _ sign hsign
    cases negative with
    | false => exact hmagnitude [] (.inl rfl)
    | true => exact hmagnitude [ascii '-'] (.inr rfl)

end Decimal

namespace Lexer

open Decimal

/-! ## Numerals as tokens -/

def digitBytes : List UInt8 := [0x30, 0x31, 0x32, 0x33, 0x34, 0x35, 0x36, 0x37, 0x38, 0x39]

theorem mem_digitBytes {b : UInt8} (h : Byte.isDigit b = true) : b ∈ digitBytes := by
  simp only [Byte.isDigit, Bool.and_eq_true, decide_eq_true_eq, UInt8.le_iff_toNat_le] at h
  have hlow : 48 ≤ b.toNat := h.1
  have hhigh : b.toNat ≤ 57 := h.2
  have hb : b = UInt8.ofNat b.toNat := UInt8.ofNat_toNat.symm
  obtain hn | hn | hn | hn | hn | hn | hn | hn | hn | hn :
      b.toNat = 48 ∨ b.toNat = 49 ∨ b.toNat = 50 ∨ b.toNat = 51 ∨ b.toNat = 52 ∨ b.toNat = 53 ∨
        b.toNat = 54 ∨ b.toNat = 55 ∨ b.toNat = 56 ∨ b.toNat = 57 := by omega
  all_goals
    rw [hb, hn]
    decide

theorem run_eq_length {p : UInt8 → Bool} {w x : Text} (hw : ∀ b ∈ w, p b = true)
    (hx : ∀ b, x.head? = some b → p b = false) : run p (w ++ x) = w.length := by
  rw [run_append hx, run_of_forall_mem hw]

theorem isSign_of_isDigit {b : UInt8} (h : Byte.isDigit b = true) : isSign b = false :=
  (by decide +kernel : ∀ b ∈ digitBytes, isSign b = false) b (mem_digitBytes h)

theorem one_isSign_append {sign whole : Text} (hsign : sign = [] ∨ sign = [ascii '-'])
    (hwhole : IsDigits whole) (rest : Text) :
    one isSign (sign ++ (whole ++ rest)) = sign.length := by
  obtain ⟨b, ds, rfl⟩ := List.exists_cons_of_ne_nil hwhole.nonempty
  rcases hsign with rfl | rfl
  · have hplain := isSign_of_isDigit (hwhole.digit b List.mem_cons_self)
    simp [one, hplain]
  · rfl

theorem fraction_point {ds x : Text} (hds : IsDigits ds)
    (hx : ∀ b, x.head? = some b → Byte.isDigit b = false) :
    fraction (ascii '.' :: (ds ++ x)) = (ascii '.' :: ds).length := by
  have hpos : ds.length ≠ 0 := mt List.length_eq_zero_iff.1 hds.nonempty
  simp only [fraction, run_eq_length hds.digit hx, if_true, if_neg hpos, List.length_cons,
    Nat.add_comm]

/-- All of a numeral is taken, and no more than the numeral. -/
theorem number_numeral {w x : Text} (h : IsNumeral w)
    (hhead : ∀ b, x.head? = some b → Byte.isDigit b = false ∧ b ≠ ascii '.')
    (hexponent : exponent x = 0) : number (w ++ x) = w.length := by
  obtain @⟨sign, whole, part, hsign, hwhole, hpart⟩ := h
  have hnext : ∀ b, (part ++ x).head? = some b → Byte.isDigit b = false := by
    rcases hpart with rfl | ⟨ds, -, rfl⟩
    · exact fun b hb => (hhead b hb).1
    · rintro b ⟨⟩
      decide
  have hfraction : fraction (part ++ x) = part.length := by
    rcases hpart with rfl | ⟨ds, hds, rfl⟩
    · cases x with
      | nil => rfl
      | cons c x => exact if_neg (hhead c rfl).2
    · exact fraction_point hds fun b hb => (hhead b hb).1
  have hrun := run_eq_length hwhole.digit hnext
  have hpos := List.length_pos_of_ne_nil hwhole.nonempty
  unfold number
  dsimp only
  rw [List.append_assoc, List.append_assoc, one_isSign_append hsign hwhole, List.drop_left, hrun]
  have hdrop : (sign ++ (whole ++ (part ++ x))).drop (sign.length + whole.length) = part ++ x := by
    rw [← List.append_assoc, ← List.length_append, List.drop_left]
  have hrest : (sign ++ (whole ++ (part ++ x))).drop (sign.length + whole.length + part.length) =
      x := by
    rw [← List.drop_drop, hdrop, List.drop_left]
  rw [hdrop, hfraction, hrest, hexponent, if_neg (by omega)]
  simp only [List.length_append]
  omega

/-- The units that are put behind numbers as a rule. -/
def usualUnits : List Text := [[], utf8 "em", utf8 "rem"]

/-- A numeral with a unit behind it. -/
def quantity (w unit : Text) : Token :=
  ⟨if unit = [] then .number else .dimension, w ++ unit, 0⟩

theorem numeric?_numeral {w unit : Text} (h : IsNumeral w) (hunit : unit ∈ usualUnits) :
    numeric? (w ++ (unit ++ [ascii ';'])) =
      some ((quantity w unit).kind, w.length + unit.length) := by
  have hnumber : number (w ++ (unit ++ [ascii ';'])) = w.length := by
    refine number_numeral h ?_ ?_
    · revert unit
      decide +kernel
    · revert unit
      decide
  have hpos : w.length ≠ 0 := by
    cases h with
    | intro _ hwhole _ =>
      have := List.length_pos_of_ne_nil hwhole.nonempty
      simp only [List.length_append]
      omega
  have hname : name (unit ++ [ascii ';']) = unit.length :=
    (by decide +kernel : ∀ u ∈ usualUnits, name (u ++ [ascii ';']) = u.length) unit hunit
  have hpercent : (unit ++ [ascii ';']).head? ≠ some (ascii '%') :=
    (by decide : ∀ u ∈ usualUnits, (u ++ [ascii ';']).head? ≠ some (ascii '%')) unit hunit
  rw [numeric?_eq, hnumber, if_neg hpos, List.drop_left, if_neg hpercent, hname]
  unfold quantity
  dsimp only
  by_cases hnil : unit = []
  · subst hnil
    rfl
  · rw [if_neg hnil, if_neg (mt List.length_eq_zero_iff.1 hnil)]

theorem scan_digit {b : UInt8} (h : Byte.isDigit b = true) (rest : Text) :
    scan b rest = firstOf [numeric? (b :: rest), nameLike? (b :: rest)] := by
  have hmem := mem_digitBytes h
  simp only [digitBytes, List.mem_cons, List.not_mem_nil, or_false] at hmem
  rcases hmem with rfl | rfl | rfl | rfl | rfl | rfl | rfl | rfl | rfl | rfl <;> rfl

theorem scan_dash {b : UInt8} (h : Byte.isDigit b = true) (rest : Text) :
    scan (ascii '-') (b :: rest) = firstOf [numeric? (ascii '-' :: b :: rest)] := by
  have hmem := mem_digitBytes h
  simp only [digitBytes, List.mem_cons, List.not_mem_nil, or_false] at hmem
  rcases hmem with rfl | rfl | rfl | rfl | rfl | rfl | rfl | rfl | rfl | rfl <;> rfl

/-- A numeral begins with a digit, or with a dash and a digit. -/
theorem exists_scan_numeral {w : Text} (h : IsNumeral w) :
    ∃ b u, w = b :: u ∧ ∀ x r, numeric? (b :: (u ++ x)) = some r → Lexer.scan b (u ++ x) = r := by
  obtain @⟨sign, whole, part, hsign, hwhole, hpart⟩ := h
  obtain ⟨d, ds, rfl⟩ := List.exists_cons_of_ne_nil hwhole.nonempty
  have hd := hwhole.digit d List.mem_cons_self
  rcases hsign with rfl | rfl
  · refine ⟨d, ds ++ part, rfl, fun x r hr => ?_⟩
    rw [scan_digit hd, hr]
    rfl
  · refine ⟨ascii '-', d :: (ds ++ part), rfl, fun x r hr => ?_⟩
    rw [List.cons_append] at hr ⊢
    rw [scan_dash hd, hr]
    rfl

/-- A numeral is one token, together with the unit behind it. -/
theorem isLexeme_numeral {w unit : Text} (h : IsNumeral w) (hunit : unit ∈ usualUnits) :
    IsLexeme (quantity w unit) [ascii ';'] := by
  have hnumeric := numeric?_numeral h hunit
  obtain ⟨b, u, rfl, hscan⟩ := exists_scan_numeral h
  have hfound := hscan _ _ hnumeric
  rw [← List.append_assoc] at hfound
  refine ⟨b, u ++ unit, rfl, by rw [hfound], ?_⟩
  rw [hfound, List.length_cons, Nat.add_right_comm, Nat.add_sub_cancel, ← List.length_append,
    List.take_left]

end Lexer

end MixinCss
