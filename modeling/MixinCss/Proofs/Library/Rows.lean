/-
  MixinCss.Proofs.Library.Rows

  The margin of a row. It is the integer that the sign and the digits at the
  beginning of a text spell (`BeginsWithInteger`), if that fits into 64 bits. The
  offsets of the row, the negated margin and a hundred more than it, are computed
  with 64 bits as well, so at both ends of the range they wrap around and are not
  those of the integer (`row_offsets_wrap`).
-/

import MixinCss.Proofs.Library.Callees
import MixinCss.Proofs.Token.Numbers

namespace MixinCss

open Decimal (IsDigits fitsInt64)
open Lexer (signs)

/-! ## Integers at the beginning of a text -/

/-- The integer that digits spell behind a sign. -/
def signedValue (sign digits : Text) : Int :=
  if sign = [ascii '-'] then -(Text.toNat digits : Int) else Text.toNat digits

/-- The text begins with a sign, or none, and digits that spell the integer, and
    the digits end there. -/
inductive BeginsWithInteger : Text → Int → Prop where
  | intro {sign digits rest : Text} (hsign : sign ∈ signs) (hdigits : IsDigits digits)
      (hrest : ∀ c ∈ rest.head?, Byte.isDigit c = false) :
      BeginsWithInteger (sign ++ (digits ++ rest)) (signedValue sign digits)

namespace Library

/-- A sign is taken where there is one, and then all digits. -/
theorem leadingInteger_signs {sign digits rest : Text} (hsign : sign ∈ signs)
    (hdigits : IsDigits digits) (hrest : ∀ c ∈ rest.head?, Byte.isDigit c = false) :
    leadingInteger (sign ++ (digits ++ rest)) = sign ++ digits := by
  have htake : (digits ++ rest).takeWhile Byte.isDigit = digits :=
    Lexer.takeWhile_append_eq_iff.mpr ⟨hdigits.digit, hrest⟩
  rcases Lexer.mem_signs_iff.mp hsign with rfl | rfl | rfl
  · obtain ⟨d, ds, rfl⟩ := List.exists_cons_of_ne_nil hdigits.nonempty
    have hplain := Lexer.isSign_eq_false_iff.mp
      (Lexer.isSign_of_isDigit (hdigits.digit d List.mem_cons_self))
    rw [List.nil_append, List.nil_append, List.cons_append, leadingInteger,
      if_neg (by simp [hplain.1, hplain.2])]
    exact htake
  · exact congrArg (ascii '+' :: ·) htake
  · exact congrArg (ascii '-' :: ·) htake

/-- Every text is a sign or none, digits or none, and a rest. -/
theorem exists_leadingInteger (t : Text) :
    ∃ sign ∈ signs, ∃ ds rest, t = sign ++ (ds ++ rest) ∧ (∀ b ∈ ds, Byte.isDigit b = true) ∧
      (∀ c ∈ rest.head?, Byte.isDigit c = false) ∧ leadingInteger t = sign ++ ds := by
  have hcut (u : Text) : u = u.takeWhile Byte.isDigit ++ u.dropWhile Byte.isDigit :=
    List.takeWhile_append_dropWhile.symm
  have hdigits (u : Text) : ∀ b ∈ u.takeWhile Byte.isDigit, Byte.isDigit b = true :=
    fun _ hb => List.mem_takeWhile_imp hb
  have hend (u : Text) : ∀ c ∈ (u.dropWhile Byte.isDigit).head?, Byte.isDigit c = false := by
    intro c hc
    have hnot := List.head?_dropWhile_not Byte.isDigit u
    rw [Option.mem_def.mp hc] at hnot
    exact hnot
  cases t with
  | nil => exact ⟨[], by decide, [], [], rfl, List.forall_mem_nil _, hend [], rfl⟩
  | cons b rest =>
    rw [leadingInteger]
    split
    · rename_i hb
      refine ⟨[b], ?_, _, _, congrArg (b :: ·) (hcut rest), hdigits rest, hend rest, rfl⟩
      simp only [Bool.or_eq_true, decide_eq_true_eq] at hb
      rcases hb with rfl | rfl <;> decide
    · exact ⟨[], by decide, _, _, hcut (b :: rest), hdigits _, hend _, rfl⟩

theorem integer64?_signs {sign digits : Text} (hsign : sign ∈ signs) (hdigits : IsDigits digits) :
    integer64? (sign ++ digits) =
      if fitsInt64 (signedValue sign digits) then some (Int64.ofInt (signedValue sign digits))
      else none := by
  have hall : digits.all Byte.isDigit = true := List.all_eq_true.mpr hdigits.digit
  have hsome : digits.isEmpty = false := List.isEmpty_eq_false_iff.mpr hdigits.nonempty
  rcases Lexer.mem_signs_iff.mp hsign with rfl | rfl | rfl
  · obtain ⟨d, ds, rfl⟩ := List.exists_cons_of_ne_nil hdigits.nonempty
    have hplain := Lexer.isSign_eq_false_iff.mp
      (Lexer.isSign_of_isDigit (hdigits.digit d List.mem_cons_self))
    simp [integer64?, signedValue, hplain.1, hplain.2, hall]
  · simp [integer64?, signedValue, hall, hsome]
  · simp [integer64?, signedValue, hall, hsome]

/-- Without a digit there is no integer. -/
theorem integer64?_sign {sign : Text} (hsign : sign ∈ signs) : integer64? sign = none := by
  revert sign
  decide

theorem toInt_ofInt_of_fits {n : Int} (h : fitsInt64 n = true) : (Int64.ofInt n).toInt = n := by
  simp only [fitsInt64, Bool.and_eq_true, decide_eq_true_eq] at h
  rw [Int64.toInt_minValue, Int64.toInt_maxValue] at h
  exact Int64.toInt_ofInt_of_le h.1 (by omega)

theorem fitsInt64_toInt (k : Int64) : fitsInt64 k.toInt = true := by
  rw [fitsInt64, decide_eq_true k.minValue_le_toInt, decide_eq_true k.toInt_le]
  rfl

/-- The integer that is read off the beginning of a text is the one that it
    begins with. -/
theorem integer64?_leadingInteger {t : Text} {k : Int64} :
    integer64? (leadingInteger t) = some k ↔ BeginsWithInteger t k.toInt := by
  constructor
  · intro h
    obtain ⟨sign, hsign, ds, rest, rfl, hds, hrest, hleading⟩ := exists_leadingInteger t
    rw [hleading] at h
    -- A sign alone is taken too, but it spells nothing.
    by_cases hnil : ds = []
    · rw [hnil, List.append_nil, integer64?_sign hsign] at h
      cases h
    · have hdigits : IsDigits ds := ⟨hnil, hds⟩
      rw [integer64?_signs hsign hdigits] at h
      split at h
      · rename_i hfits
        obtain rfl := Option.some.inj h
        rw [toInt_ofInt_of_fits hfits]
        exact .intro hsign hdigits hrest
      · cases h
  · intro h
    -- The integer is an index, so it has to be a variable for the case split.
    generalize hk : k.toInt = m at h
    obtain @⟨sign, digits, rest, hsign, hdigits, hrest⟩ := h
    rw [leadingInteger_signs hsign hdigits hrest, integer64?_signs hsign hdigits, ← hk,
      fitsInt64_toInt, if_pos rfl, Int64.ofInt_toInt]

/-- A percent sign at the end belongs to no integer. -/
theorem leadingInteger_dropTail (t : Text) :
    leadingInteger (t.dropTail [ascii '%']) = leadingInteger t := by
  rw [Text.dropTail]
  split
  · rename_i hsuffix
    obtain ⟨u, rfl⟩ := List.isSuffixOf_iff_suffix.mp hsuffix
    -- The percent sign is no digit, so the digits end in front of it either way.
    have htake (w : Text) :
        (w ++ [ascii '%']).takeWhile Byte.isDigit = w.takeWhile Byte.isDigit := by
      induction w with
      | nil => rfl
      | cons b w ih => rw [List.cons_append, List.takeWhile_cons, List.takeWhile_cons, ih]
    rw [List.length_append, Nat.add_sub_cancel, List.take_left]
    cases u with
    | nil => rfl
    | cons b u =>
      rw [List.cons_append, leadingInteger, leadingInteger, htake, ← List.cons_append, htake]
  · rfl

/-! ## The margin of a row -/

/-- The text that the margin of a row is read from: that of the argument, or the
    configured one if the argument does not count as given. -/
def marginText (vars : Variables) (args : Args) : Text :=
  let given := args.pick 0 (utf8 "margin")
  if given.isTruthy then given.text else vars.gridMargin

theorem rowMargin_eq (vars : Variables) (args : Args) :
    rowMargin vars args =
      (integer64? (leadingInteger (marginText vars args))).elim
        (.error (.marginNotNumber (marginText vars args))) .ok := by
  have htext : (if (args.pick 0 (utf8 "margin")).isTruthy then args.pick 0 (utf8 "margin")
      else .word vars.gridMargin).text = marginText vars args := by
    rw [marginText]
    split <;> rfl
  unfold rowMargin
  dsimp only
  rw [htext, leadingInteger_dropTail]
  cases integer64? (leadingInteger (marginText vars args)) with
  | none => rfl
  | some k => rfl

theorem rowMargin_eq_ok_iff {vars : Variables} {args : Args} {k : Int64} :
    rowMargin vars args = .ok k ↔ BeginsWithInteger (marginText vars args) k.toInt := by
  rw [← integer64?_leadingInteger, rowMargin_eq]
  cases integer64? (leadingInteger (marginText vars args)) with
  | none => constructor <;> intro h <;> cases h
  | some m => constructor <;> intro h <;> cases h <;> rfl

theorem rowMargin_eq_error {vars : Variables} {args : Args}
    (h : ∀ k : Int64, ¬ BeginsWithInteger (marginText vars args) k.toInt) :
    rowMargin vars args = .error (.marginNotNumber (marginText vars args)) := by
  rw [rowMargin_eq]
  cases hread : integer64? (leadingInteger (marginText vars args)) with
  | none => rfl
  | some k => exact absurd (integer64?_leadingInteger.mp hread) (h k)

end Library

/-! ## Wrapping around -/

/-- An integer brought back from above the range of 64 bits. -/
def wrapped (n : Int) : Int := if n ≤ Int64.maxValue.toInt then n else n - Int64.size

theorem bmod_eq_wrapped {n : Int} (hlow : -Int64.maxValue.toInt ≤ n)
    (hhigh : n ≤ Int64.maxValue.toInt + 100) : n.bmod Int64.size = wrapped n := by
  -- One step down by the size is enough, since `n` is at most 100 above the range.
  rw [Int.bmod_eq_iff (by decide), wrapped]
  rw [Int64.toInt_maxValue] at hlow hhigh ⊢
  rw [Int64.size]
  split <;> refine ⟨?_, ?_, ?_⟩ <;> omega

theorem toInt_neg_eq_wrapped (k : Int64) : (-k).toInt = wrapped (-k.toInt) := by
  have hlow := k.minValue_le_toInt
  have hhigh := k.toInt_le
  rw [Int64.toInt_neg]
  refine bmod_eq_wrapped (by omega) ?_
  rw [Int64.toInt_minValue] at hlow
  rw [Int64.toInt_maxValue]
  omega

theorem toInt_add_eq_wrapped (k : Int64) : (100 + k).toInt = wrapped (100 + k.toInt) := by
  have hlow := k.minValue_le_toInt
  have hhigh := k.toInt_le
  have hhundred : (100 : Int64).toInt = 100 := by decide
  rw [Int64.toInt_add, hhundred]
  refine bmod_eq_wrapped ?_ (by omega)
  rw [Int64.toInt_minValue] at hlow
  rw [Int64.toInt_maxValue]
  omega

theorem wrapped_eq_self_iff (n : Int) : wrapped n = n ↔ n ≤ Int64.maxValue.toInt := by
  have hsize : (Int64.size : Int) ≠ 0 := by decide
  rw [wrapped]
  split <;> omega

/-! ## Offsets -/

namespace Library

open Mixin

/-- The declarations of a row that is pulled out to the left and made wider. -/
def rowOffsets (left width : Int) : List Node :=
  [.declare (utf8 "margin-left") (.word (Text.ofInt left ++ [ascii '%'])),
    .declare (utf8 "max-width") (.word (Text.ofInt width ++ [ascii '%']))]

/-- The rule behind a row that ends its floats. -/
def floatsEnd : Node :=
  .rule (utf8 "&:after")
    [.declare (utf8 "clear") (word "both"), .declare (utf8 "content") (.string (utf8 "''")),
      .declare (utf8 "display") (word "block")] .unknown

theorem callWithin_leftMargin (vars : Variables) (v : Value) :
    (Catalog.ofOverrides [] vars).callWithin (Catalog.nestingLimit - 1) (utf8 "margin")
      (.keywords [⟨utf8 "left", v⟩]) = .ok [.declare (utf8 "margin-left") v] := by
  have hkey : Text.underHead (utf8 "margin") [] (utf8 "left") = utf8 "margin-left" := by
    decide +kernel
  rw [← hkey]
  rfl

section

variable {vars : Variables} {args : Args} {scope : Scope}
  (hscope : scope = ⟨vars, (Catalog.ofOverrides [] vars).callWithin (Catalog.nestingLimit - 1)⟩)
include hscope

theorem rowModify_of_ok {k : Int64} (h : rowMargin vars args = .ok k) :
    rowModify scope args = .ok (rowOffsets (wrapped (-k.toInt)) (wrapped (100 + k.toInt))) := by
  have hleft : scope.call (utf8 "margin") (.keywords [⟨utf8 "left", percent (-k)⟩]) =
      .ok [.declare (utf8 "margin-left") (percent (-k))] := by
    rw [hscope]
    exact callWithin_leftMargin vars _
  calc rowModify scope args
      = (scope.call (utf8 "margin") (.keywords [⟨utf8 "left", percent (-k)⟩]) >>= fun left =>
          pure (left ++ [.declare (utf8 "max-width") (percent (100 + k))])) := by
        rw [rowModify, hscope, h]
        rfl
    _ = .ok (rowOffsets (-k).toInt (100 + k).toInt) := by
        rw [hleft]
        rfl
    _ = .ok (rowOffsets (wrapped (-k.toInt)) (wrapped (100 + k.toInt))) := by
        rw [toInt_neg_eq_wrapped, toInt_add_eq_wrapped]

theorem row_of_ok {k : Int64} (h : rowMargin vars args = .ok k) :
    row scope args =
      .ok (rowOffsets (wrapped (-k.toInt)) (wrapped (100 + k.toInt)) ++ [floatsEnd]) := by
  rw [row, rowModify_of_ok hscope h, hscope]
  rfl

theorem rowModify_of_error {e : MixinFailure} (h : rowMargin vars args = .error e) :
    rowModify scope args = .error e := by
  rw [rowModify, hscope, h]
  rfl

theorem row_of_error {e : MixinFailure} (h : rowMargin vars args = .error e) :
    row scope args = .error e := by
  rw [row, rowModify_of_error hscope h]
  rfl

end

end Library

open Library

/-- The margin of a row is the integer that its text begins with, if that fits into
    64 bits; otherwise `row` and `rowModify` are refused. The offsets are the negated
    margin and a hundred more than it, but brought back into 64 bits: the first is
    wrong for the least integer, and the second for the hundred greatest ones. -/
theorem row_offsets_wrap (vars : Variables) (args : Args) :
    let c := Catalog.ofOverrides [] vars
    let t := marginText vars args
    (∀ k : Int64, BeginsWithInteger t k.toInt →
      let offsets := rowOffsets (wrapped (-k.toInt)) (wrapped (100 + k.toInt))
      rowMargin vars args = .ok k ∧
      c.call (utf8 "rowModify") (some args) = .ok offsets ∧
      c.call (utf8 "row") (some args) = .ok (offsets ++ [floatsEnd]) ∧
      (wrapped (-k.toInt) = -k.toInt ↔ k ≠ Int64.minValue) ∧
      (wrapped (100 + k.toInt) = 100 + k.toInt ↔ k.toInt ≤ Int64.maxValue.toInt - 100)) ∧
    ((∀ k : Int64, ¬ BeginsWithInteger t k.toInt) →
      c.call (utf8 "rowModify") (some args) = .error (.marginNotNumber t) ∧
      c.call (utf8 "row") (some args) = .error (.marginNotNumber t)) := by
  intro c t
  dsimp only [c, t]
  rw [@Catalog.call_builtin vars _ rowModify rfl, @Catalog.call_builtin vars _ row rfl]
  constructor
  · intro k hk
    have hmargin := rowMargin_eq_ok_iff.mpr hk
    refine ⟨hmargin, rowModify_of_ok rfl hmargin, row_of_ok rfl hmargin, ?_, ?_⟩
    · have hleast : k = Int64.minValue ↔ k.toInt = Int64.minValue.toInt := Int64.toInt_inj.symm
      have hlow := k.minValue_le_toInt
      rw [wrapped_eq_self_iff, ne_eq, hleast]
      rw [Int64.toInt_minValue] at hlow ⊢
      rw [Int64.toInt_maxValue]
      omega
    · rw [wrapped_eq_self_iff]
      omega
  · intro hnone
    have hmargin := rowMargin_eq_error hnone
    exact ⟨rowModify_of_error rfl hmargin, row_of_error rfl hmargin⟩

/-- Only the whole part of a margin counts, and its sign is that of the text. -/
theorem row_offsets_wrap_fraction :
    let args : Args := .keywords [⟨utf8 "margin", .word (utf8 "-20.5%")⟩]
    BeginsWithInteger (marginText .standard args) (-20 : Int64).toInt ∧
      rowMargin .standard args = .ok (-20) ∧
      (Catalog.ofOverrides [] .standard).call (utf8 "rowModify") (some args) =
        .ok (rowOffsets 20 80) ∧
      (Catalog.ofOverrides [] .standard).call (utf8 "row") (some args) =
        .ok (rowOffsets 20 80 ++ [floatsEnd]) := by
  intro args
  have hdigits : IsDigits (utf8 "20") := by decide
  have hbegins : BeginsWithInteger (marginText .standard args) (-20 : Int64).toInt :=
    @BeginsWithInteger.intro [ascii '-'] (utf8 "20") (utf8 ".5%") (by decide) hdigits
      (by rintro _ ⟨⟩; decide)
  obtain ⟨hmargin, hmodify, hrow, -⟩ := (row_offsets_wrap .standard args).1 (-20) hbegins
  exact ⟨hbegins, hmargin, hmodify, hrow⟩

/-- The greatest margin makes the width wrap around: it is not a hundred more than
    the margin but negative. -/
theorem row_width_wraps_around :
    let v : Value :=
      .dimension (utf8 "9223372036854775807%") 9223372036854775807.0 (utf8 "%")
    BeginsWithInteger v.text 9223372036854775807 ∧
      (Catalog.ofOverrides [] .standard).call (utf8 "rowModify") (some (.positional [v])) =
        .ok (rowOffsets (-9223372036854775807) (-9223372036854775709)) := by
  intro v
  have hdigits : IsDigits (utf8 "9223372036854775807") := by decide
  have hbegins : BeginsWithInteger v.text Int64.maxValue.toInt :=
    @BeginsWithInteger.intro [] (utf8 "9223372036854775807") (utf8 "%") (by decide) hdigits
      (by rintro _ ⟨⟩; decide)
  have hmargin : rowMargin .standard (.positional [v]) = .ok Int64.maxValue :=
    rowMargin_eq_ok_iff.mpr hbegins
  refine ⟨hbegins, ?_⟩
  rw [@Catalog.call_builtin .standard _ rowModify rfl]
  exact rowModify_of_ok rfl hmargin

end MixinCss
