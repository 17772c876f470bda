/-
  MixinCss.Proofs.Decimal.Bases

  Numbers in base ten and sixteen as a grammar: digits with at most one point and
  an exponent behind them. Between two digits an underscore may stand. For each
  base the reader takes exactly what is so written, and the underscores make no
  difference for the number (`Base.read_eq_ok_iff`).
-/

import MixinCss.Proofs.Decimal.Reader

namespace MixinCss

theorem Byte.eq_of_lower_eq {b c : UInt8} (h : lower b = c) : b = c ∨ b = c - 0x20 := by
  rw [lower] at h
  split at h
  · right
    rw [← h, UInt8.add_sub_cancel]
  · exact .inl h

namespace Decimal

open Lexer (isSign isSign_of_isDigit isSign_eq_false_iff signs mem_signs_iff)

theorem isSign_iff {b : UInt8} : isSign b = true ↔ b = ascii '+' ∨ b = ascii '-' := by
  simp [isSign]

/-! ## Bases -/

/-- A way to write numbers. -/
structure Base where
  isDigit : UInt8 → Bool
  /-- The small letter in front of the exponent. -/
  mark : UInt8
  /-- A mark of the base stands in front. It counts as a digit where underscores
      are concerned, and the exponent cannot be left out then. -/
  isMarked : Bool
  /-- The number nearest to what the sign, the digits before and behind the point
      and the exponent say. -/
  nearest : Bool → Text → Text → Int → Except ReadFault Float
  gap_apart : isDigit (ascii '_') = false
  point_apart : isDigit (ascii '.') = false
  sign_apart : ∀ b, isSign b = true → isDigit b = false
  mark_apart : ∀ b, Byte.lower b = mark → isDigit b = false ∧ b ≠ ascii '_' ∧ b ≠ ascii '.'

namespace Base

/-- Base ten, with an exponent of ten. -/
def decimal : Base where
  isDigit := Byte.isDigit
  mark := ascii 'e'
  isMarked := false
  nearest negative whole fraction e :=
    nearestDecimal negative (valueIn 10 (whole ++ fraction)) (e - fraction.length)
  gap_apart := by decide
  point_apart := by decide
  sign_apart b hb := by
    rcases isSign_iff.mp hb with rfl | rfl <;> decide
  mark_apart b hb := by
    rcases Byte.eq_of_lower_eq hb with rfl | rfl <;> decide

/-- Base sixteen, with an exponent of two. -/
def hexadecimal : Base where
  isDigit := Byte.isHexDigit
  mark := ascii 'p'
  isMarked := true
  nearest negative whole fraction e :=
    nearestBinary negative (valueIn 16 (whole ++ fraction)) (e - 4 * fraction.length)
  gap_apart := by decide
  point_apart := by decide
  sign_apart b hb := by
    rcases isSign_iff.mp hb with rfl | rfl <;> decide
  mark_apart b hb := by
    rcases Byte.eq_of_lower_eq hb with rfl | rfl <;> decide

theorem ne_gap {base : Base} {b : UInt8} (hb : base.isDigit b = true) : b ≠ ascii '_' := by
  rintro rfl
  exact absurd (base.gap_apart.symm.trans hb) Bool.false_ne_true

end Base

/-! ## Gaps -/

/-- The text without its underscores. -/
def ungapped (t : Text) : Text := t.filter (· != ascii '_')

@[simp] theorem ungapped_nil : ungapped [] = [] := rfl

@[simp] theorem ungapped_gap (t : Text) : ungapped (ascii '_' :: t) = ungapped t := rfl

theorem ungapped_cons {b : UInt8} (h : b ≠ ascii '_') (t : Text) :
    ungapped (b :: t) = b :: ungapped t :=
  List.filter_cons_of_pos (bne_iff_ne.mpr h)

@[simp] theorem ungapped_append (u v : Text) : ungapped (u ++ v) = ungapped u ++ ungapped v :=
  List.filter_append u v

theorem ungapped_eq_self {t : Text} (h : ascii '_' ∉ t) : ungapped t = t :=
  List.filter_eq_self.mpr fun _ hb => bne_iff_ne.mpr fun heq => h (heq ▸ hb)

/-- Every underscore stands between two digits. Where `atDigit` holds, what
    stands in front of the text counts as a digit. -/
def GapsFit (base : Base) (atDigit : Bool) (t : Text) : Prop :=
  ∀ u v, t = u ++ ascii '_' :: v →
    (u = [] ∧ atDigit = true ∨ ∃ b, u.getLast? = some b ∧ base.isDigit b = true) ∧
      ∃ c, v.head? = some c ∧ base.isDigit c = true

section Gaps

variable {base : Base} {atDigit : Bool}

theorem gapsFit_nil : GapsFit base atDigit [] :=
  fun _ _ h => absurd h.symm (List.append_ne_nil_of_right_ne_nil _ (List.cons_ne_nil _ _))

/-- What the first byte adds to the rest. -/
theorem gapsFit_cons_iff {b : UInt8} {t : Text} :
    GapsFit base atDigit (b :: t) ↔
      (b = ascii '_' → atDigit = true ∧ ∃ c, t.head? = some c ∧ base.isDigit c = true) ∧
        GapsFit base (base.isDigit b) t := by
  constructor
  · intro h
    refine ⟨?_, ?_⟩
    · rintro rfl
      obtain ⟨hfront | ⟨b, hb, -⟩, hnext⟩ := h [] t rfl
      · exact ⟨hfront.2, hnext⟩
      · cases hb
    · rintro u v rfl
      obtain ⟨hfront | ⟨c, hc, hdigit⟩, hnext⟩ := h (b :: u) v rfl
      · exact absurd hfront.1 (List.cons_ne_nil b u)
      refine ⟨?_, hnext⟩
      -- The byte itself stands in front of an underscore at the start of the rest.
      cases hlast : u.getLast? with
      | none =>
        obtain rfl := List.getLast?_eq_none_iff.mp hlast
        cases hc
        exact .inl ⟨rfl, hdigit⟩
      | some last =>
        rw [List.getLast?_cons, hlast] at hc
        exact .inr ⟨c, hc, hdigit⟩
  · rintro ⟨hgap, hrest⟩ u v heq
    cases u with
    | nil =>
      obtain ⟨rfl, rfl⟩ := List.cons.inj heq
      exact ⟨.inl ⟨rfl, (hgap rfl).1⟩, (hgap rfl).2⟩
    | cons a u =>
      obtain ⟨rfl, htail⟩ := List.cons.inj heq
      obtain ⟨hfront, hnext⟩ := hrest u v htail
      refine ⟨.inr ?_, hnext⟩
      rw [List.getLast?_cons]
      rcases hfront with ⟨rfl, hdigit⟩ | ⟨c, hc, hdigit⟩
      · exact ⟨b, rfl, hdigit⟩
      · exact ⟨c, by rw [hc]; rfl, hdigit⟩

theorem GapsFit.of_append {u t : Text} {b : UInt8} (h : GapsFit base atDigit (u ++ b :: t)) :
    GapsFit base (base.isDigit b) t := by
  induction u generalizing atDigit with
  | nil => exact (gapsFit_cons_iff.mp h).2
  | cons a u ih => exact ih (gapsFit_cons_iff.mp h).2

/-- Where no digit stands in front, the first byte is no underscore. -/
theorem GapsFit.exists_cons {t y : Text} {b : UInt8} (h : GapsFit base false t)
    (hy : ungapped t = b :: y) :
    ∃ rest, t = b :: rest ∧ ungapped rest = y ∧ GapsFit base (base.isDigit b) rest := by
  cases t with
  | nil => cases hy
  | cons a rest =>
    obtain ⟨hgap, hrest⟩ := gapsFit_cons_iff.mp h
    have ha : a ≠ ascii '_' := fun heq => absurd (hgap heq).1 Bool.false_ne_true
    rw [ungapped_cons ha] at hy
    obtain ⟨rfl, rfl⟩ := List.cons.inj hy
    exact ⟨rest, rfl, rfl, hrest⟩

/-- The reader looks for underscores that do not stand between digits. -/
theorem underscoresFit_iff {t : Text} :
    underscoresFit base.isDigit atDigit t = true ↔ GapsFit base atDigit t := by
  induction t generalizing atDigit with
  | nil => exact ⟨fun _ => gapsFit_nil, fun _ => rfl⟩
  | cons b rest ih =>
    rw [gapsFit_cons_iff]
    unfold underscoresFit
    split
    · rename_i hb
      have hne : b ≠ ascii '_' := Base.ne_gap hb
      rw [ih, hb]
      exact ⟨fun h => ⟨fun heq => absurd heq hne, h⟩, And.right⟩
    · rename_i hb
      rw [Bool.not_eq_true] at hb
      rw [hb]
      split
      · rename_i heq
        cases rest with
        | nil => simp [heq]
        | cons c rest =>
          simp only [Bool.and_eq_true, ih, List.head?_cons, Option.some.injEq, exists_eq_left']
          exact ⟨fun h => ⟨fun _ => h.1, h.2⟩, fun h => ⟨h.1 heq, h.2⟩⟩
      · rename_i hne
        rw [ih]
        exact ⟨fun h => ⟨fun heq => absurd heq hne, h⟩, And.right⟩

end Gaps

/-! ## Digits with a point -/

/-- Digits with a point before, among or behind them, or without one: the text,
    its digits before the point and those behind it. -/
inductive IsBody (base : Base) : Text → Text → Text → Prop where
  | whole {whole : Text} (hwhole : ∀ b ∈ whole, base.isDigit b = true) : IsBody base whole whole []
  | point {whole fraction : Text} (hwhole : ∀ b ∈ whole, base.isDigit b = true)
      (hfraction : ∀ b ∈ fraction, base.isDigit b = true) :
      IsBody base (whole ++ ascii '.' :: fraction) whole fraction

section Mantissa

variable {base : Base} {seenPoint : Bool}

theorem IsBody.cons {m whole fraction : Text} {b : UInt8} (hb : base.isDigit b = true)
    (h : IsBody base m whole fraction) : IsBody base (b :: m) (b :: whole) fraction := by
  cases h with
  | whole hwhole => exact .whole (List.forall_mem_cons.mpr ⟨hb, hwhole⟩)
  | point hwhole hfraction => exact .point (List.forall_mem_cons.mpr ⟨hb, hwhole⟩) hfraction

/-- The scan of a mantissa ends in front of `t`. -/
def EndsMantissa (base : Base) (seenPoint : Bool) (t : Text) : Prop :=
  ∀ b ∈ t.head?, base.isDigit b = false ∧ b ≠ ascii '_' ∧ (b = ascii '.' → seenPoint = true)

theorem mantissa_digit {b : UInt8} (hb : base.isDigit b = true) (t : Text) :
    mantissa base.isDigit seenPoint (b :: t) =
      if seenPoint then
        ((mantissa base.isDigit seenPoint t).1, b :: (mantissa base.isDigit seenPoint t).2.1,
          (mantissa base.isDigit seenPoint t).2.2)
      else (b :: (mantissa base.isDigit seenPoint t).1, (mantissa base.isDigit seenPoint t).2) := by
  rw [mantissa, if_pos hb]

theorem mantissa_gap (t : Text) :
    mantissa base.isDigit seenPoint (ascii '_' :: t) = mantissa base.isDigit seenPoint t := by
  rw [mantissa, if_neg (by rw [base.gap_apart]; exact Bool.false_ne_true), if_pos rfl]

theorem mantissa_point (t : Text) :
    mantissa base.isDigit false (ascii '.' :: t) = mantissa base.isDigit true t := by
  rw [mantissa, if_neg (by rw [base.point_apart]; exact Bool.false_ne_true), if_neg (by decide),
    if_pos ⟨rfl, rfl⟩]

theorem mantissa_of_ends {t : Text} (h : EndsMantissa base seenPoint t) :
    mantissa base.isDigit seenPoint t = ([], [], t) := by
  cases t with
  | nil => rfl
  | cons b rest =>
    obtain ⟨hdigit, hgap, hpoint⟩ := h b rfl
    rw [mantissa, if_neg (by rw [hdigit]; exact Bool.false_ne_true), if_neg hgap, if_neg]
    rintro ⟨heq, hseen⟩
    rw [hpoint heq] at hseen
    cases hseen

/-- The next byte is a digit, an underscore or the first point, or it ends the
    mantissa. -/
theorem mantissa_step (base : Base) (seenPoint : Bool) (b : UInt8) (t : Text) :
    base.isDigit b = true ∨ b = ascii '_' ∨ (b = ascii '.' ∧ seenPoint = false) ∨
      EndsMantissa base seenPoint (b :: t) := by
  by_cases hdigit : base.isDigit b = true
  · exact .inl hdigit
  by_cases hgap : b = ascii '_'
  · exact .inr (.inl hgap)
  by_cases hpoint : b = ascii '.' ∧ seenPoint = false
  · exact .inr (.inr (.inl hpoint))
  refine .inr (.inr (.inr ?_))
  rintro c ⟨⟩
  refine ⟨Bool.eq_false_iff.mpr hdigit, hgap, fun heq => ?_⟩
  exact eq_true_of_ne_false fun hseen => hpoint ⟨heq, hseen⟩

theorem mantissa_body {m whole fraction tail : Text} (h : IsBody base m whole fraction)
    (htail : EndsMantissa base false tail) :
    mantissa base.isDigit false (m ++ tail) = (whole, fraction, tail) := by
  cases h with
  | whole hwhole => rw [mantissa_whole hwhole, mantissa_of_ends htail, List.append_nil]
  | point hwhole hfraction =>
    have hends : EndsMantissa base true tail :=
      fun b hb => ⟨(htail b hb).1, (htail b hb).2.1, fun _ => rfl⟩
    rw [List.append_assoc, mantissa_whole hwhole, List.cons_append, mantissa_point,
      mantissa_fraction hfraction, mantissa_of_ends hends, List.append_nil, List.append_nil]

/-- Underscores make no difference for a mantissa. -/
theorem mantissa_ungapped (t : Text) :
    mantissa base.isDigit seenPoint (ungapped t) =
      ((mantissa base.isDigit seenPoint t).1, (mantissa base.isDigit seenPoint t).2.1,
        ungapped (mantissa base.isDigit seenPoint t).2.2) := by
  induction t generalizing seenPoint with
  | nil => rfl
  | cons b t ih =>
    rcases mantissa_step base seenPoint b t with hb | rfl | ⟨rfl, rfl⟩ | hends
    · rw [ungapped_cons (Base.ne_gap hb), mantissa_digit hb, mantissa_digit hb, ih]
      cases seenPoint <;> rfl
    · rw [ungapped_gap, mantissa_gap, ih]
    · rw [ungapped_cons (by decide), mantissa_point, mantissa_point, ih]
    · have hb := hends b rfl
      rw [mantissa_of_ends hends, ungapped_cons hb.2.1]
      refine mantissa_of_ends ?_
      rintro _ ⟨⟩
      exact hb

/-- Behind the point the scan takes digits and underscores. -/
theorem exists_fraction (t : Text) :
    (mantissa base.isDigit true t).1 = [] ∧
      ∃ p, t = p ++ (mantissa base.isDigit true t).2.2 ∧
        ungapped p = (mantissa base.isDigit true t).2.1 ∧
        (∀ b ∈ (mantissa base.isDigit true t).2.1, base.isDigit b = true) ∧
        ∀ c ∈ (mantissa base.isDigit true t).2.2.head?, c ≠ ascii '_' := by
  induction t with
  | nil => exact ⟨rfl, [], rfl, rfl, List.forall_mem_nil _, fun c hc => by cases hc⟩
  | cons b t ih =>
    obtain ⟨hnil, p, hp, hfraction, hdigits, hends⟩ := ih
    rcases mantissa_step base true b t with hb | rfl | ⟨-, hseen⟩ | hends
    · rw [mantissa_digit hb, if_pos rfl]
      refine ⟨hnil, b :: p, ?_, ?_, List.forall_mem_cons.mpr ⟨hb, hdigits⟩, hends⟩
      · rw [List.cons_append, ← hp]
      · rw [ungapped_cons (Base.ne_gap hb), hfraction]
    · rw [mantissa_gap]
      exact ⟨hnil, ascii '_' :: p, by rw [List.cons_append, ← hp], hfraction, hdigits, hends⟩
    · cases hseen
    · rw [mantissa_of_ends hends]
      exact ⟨rfl, [], rfl, rfl, List.forall_mem_nil _, fun c hc => (hends c hc).2.1⟩

/-- The mantissa is taken off the front of the text. -/
theorem exists_body (t : Text) :
    ∃ p, t = p ++ (mantissa base.isDigit false t).2.2 ∧
      IsBody base (ungapped p) (mantissa base.isDigit false t).1
        (mantissa base.isDigit false t).2.1 ∧
      ∀ c ∈ (mantissa base.isDigit false t).2.2.head?, c ≠ ascii '_' := by
  induction t with
  | nil => exact ⟨[], rfl, .whole (List.forall_mem_nil _), fun c hc => by cases hc⟩
  | cons b t ih =>
    obtain ⟨p, hp, hbody, hends⟩ := ih
    rcases mantissa_step base false b t with hb | rfl | ⟨rfl, -⟩ | hends
    · rw [mantissa_digit hb, if_neg Bool.false_ne_true]
      refine ⟨b :: p, ?_, ?_, hends⟩
      · rw [List.cons_append, ← hp]
      · rw [ungapped_cons (Base.ne_gap hb)]
        exact hbody.cons hb
    · rw [mantissa_gap]
      exact ⟨ascii '_' :: p, by rw [List.cons_append, ← hp], hbody, hends⟩
    · obtain ⟨hnil, p, hp, hfraction, hdigits, hends⟩ := exists_fraction t
      rw [mantissa_point]
      refine ⟨ascii '.' :: p, by rw [List.cons_append, ← hp], ?_, hends⟩
      rw [ungapped_cons (by decide), hfraction, hnil]
      exact .point (List.forall_mem_nil _) hdigits
    · rw [mantissa_of_ends hends]
      exact ⟨[], rfl, .whole (List.forall_mem_nil _), fun c hc => (hends c hc).2.1⟩

end Mantissa

/-! ## Signs and exponents -/

/-- A sign is taken off where one stands. -/
theorem exists_sign (t : Text) :
    ∃ sign ∈ signs, ∃ body, t = sign ++ body ∧
      (sign = [] → ∀ c ∈ body.head?, isSign c = false) := by
  cases t with
  | nil => exact ⟨[], by decide, [], rfl, fun _ c hc => by cases hc⟩
  | cons b rest =>
    by_cases hb : isSign b = true
    · have hmem : [b] ∈ signs := by rcases isSign_iff.mp hb with rfl | rfl <;> decide
      exact ⟨[b], hmem, rest, rfl, fun h => absurd h (List.cons_ne_nil b [])⟩
    · refine ⟨[], by decide, b :: rest, rfl, fun _ c hc => ?_⟩
      cases hc
      exact Bool.eq_false_iff.mpr hb

/-- The exponent that a sign and digits say. Of the digits behind leading zeros
    the first five count. -/
def scale (sign ds : Text) : Int :=
  let size := Text.toNat ((ds.dropWhile (· = ascii '0')).take 5)
  if sign = [ascii '-'] then -(size : Int) else size

theorem digitValue_of_isDigit {d : UInt8} (h : Byte.isDigit d = true) :
    Byte.digitValue d + 0x30 = d.toNat ∧ Byte.digitValue d < 10 := by
  rw [Byte.digitValue, if_pos h]
  simp only [Byte.isDigit, Bool.and_eq_true, decide_eq_true_eq] at h
  have hlow : 0x30 ≤ d.toNat := h.1
  have hhigh : d.toNat ≤ 0x39 := h.2
  omega

/-- The digits behind a number count until there are five of them. -/
theorem foldl_exponentSize {ds : Text} (hds : ∀ d ∈ ds, Byte.isDigit d = true) {n : Nat}
    (hn : 0 < n) :
    ds.foldl (fun n b => if n < 10000 then 10 * n + Byte.digitValue b else n) n =
      (ds.take (5 - (Nat.toDigits 10 n).length)).foldl
        (fun n b => 10 * n + Byte.digitValue b) n := by
  induction ds generalizing n with
  | nil =>
    rw [List.take_nil]
    rfl
  | cons d ds ih =>
    obtain ⟨hd, hrest⟩ := List.forall_mem_cons.mp hds
    have hfour : (Nat.toDigits 10 n).length ≤ 4 ↔ n < 10000 :=
      Nat.length_toDigits_le_iff (by decide) (by decide)
    rw [List.foldl_cons]
    by_cases hsmall : n < 10000
    · have hlt := (digitValue_of_isDigit hd).2
      have hlonger : (Nat.toDigits 10 (10 * n + Byte.digitValue d)).length =
          (Nat.toDigits 10 n).length + 1 := by
        rw [← Nat.toDigits_append_toDigits (by decide) hn hlt, Nat.toDigits_of_lt_base hlt,
          List.length_append]
        rfl
      have hleft : 5 - (Nat.toDigits 10 n).length =
          5 - (Nat.toDigits 10 (10 * n + Byte.digitValue d)).length + 1 := by omega
      rw [if_pos hsmall, ih hrest (by omega), hleft, List.take_succ_cons, List.foldl_cons]
    · -- There are five digits already, and the number stays as it is.
      have hnone : 5 - (Nat.toDigits 10 n).length = 0 := by omega
      rw [if_neg hsmall, ih hrest hn, hnone, List.take_zero, List.take_zero]

/-- The exponent is what the digits behind leading zeros say, the first five of
    them. -/
theorem exponentSize_eq {ds : Text} (hds : ∀ d ∈ ds, Byte.isDigit d = true) :
    exponentSize ds = Text.toNat ((ds.dropWhile (· = ascii '0')).take 5) := by
  induction ds with
  | nil => rfl
  | cons d ds ih =>
    obtain ⟨hd, hrest⟩ := List.forall_mem_cons.mp hds
    by_cases hzero : d = ascii '0'
    · subst hzero
      exact ih hrest
    · obtain ⟨hvalue, hlt⟩ := digitValue_of_isDigit hd
      have hne : d.toNat ≠ 0x30 := fun heq => hzero (UInt8.toNat_inj.mp heq)
      have hpos : 0 < Byte.digitValue d := by omega
      have hmore := foldl_exponentSize hrest hpos
      rw [Nat.toDigits_of_lt_base hlt] at hmore
      rw [List.dropWhile_cons_of_neg (by simpa using hzero), List.take_succ_cons, exponentSize,
        Text.toNat, List.foldl_cons, List.foldl_cons, if_pos (by decide), Nat.mul_zero,
        Nat.zero_add, hmore]
      rfl

theorem scale_filter (sign ds : Text) :
    scale sign (ds.filter Byte.isDigit) =
      let size := exponentSize (ds.filter Byte.isDigit)
      if sign = [ascii '-'] then -(size : Int) else size := by
  rw [scale, exponentSize_eq fun d hd => (List.mem_filter.mp hd).2]

/-- A mark, a sign and digits, which say an exponent. -/
inductive IsScale (mark : UInt8) : Text → Int → Prop where
  | intro {b : UInt8} {sign ds : Text} (hb : Byte.lower b = mark) (hsign : sign ∈ signs)
      (hds : IsDigits ds) : IsScale mark (b :: (sign ++ ds)) (scale sign ds)

/-- Digits of an exponent, with underscores behind the first one. -/
def IsGappedDigits (ds : Text) : Prop :=
  (∃ d, ds.head? = some d ∧ Byte.isDigit d = true) ∧
    ∀ c ∈ ds, Byte.isDigit c = true ∨ c = ascii '_'

theorem isGappedDigits_cons_iff {d : UInt8} {ds : Text} :
    (Byte.isDigit d && (d :: ds).all fun b => Byte.isDigit b || b = ascii '_') = true ↔
      IsGappedDigits (d :: ds) := by
  simp [IsGappedDigits]

theorem exponent?_signed {mark b : UInt8} {sign ds : Text} {e : Int} (hb : Byte.lower b = mark)
    (hsign : sign ∈ signs) (hds : sign = [] → ∀ c ∈ ds.head?, isSign c = false) :
    exponent? mark (b :: (sign ++ ds)) = some e ↔
      IsGappedDigits ds ∧ scale sign (ds.filter Byte.isDigit) = e := by
  unfold exponent?
  dsimp only
  rw [if_neg (not_not_intro hb), scale_filter]
  have hwhich (c : Prop) [Decidable c] (n : Int) :
      (if c then some n else none) = some e ↔ c ∧ n = e := by
    rw [Option.ite_none_right_eq_some, Option.some_inj]
  cases ds with
  | nil =>
    have hnone : ¬ IsGappedDigits [] := by
      rintro ⟨⟨d, hd, -⟩, -⟩
      cases hd
    rcases mem_signs_iff.mp hsign with rfl | rfl | rfl <;>
      exact iff_of_false (Option.some_ne_none e).symm fun h => hnone h.1
  | cons d ds =>
    rw [← isGappedDigits_cons_iff]
    rcases mem_signs_iff.mp hsign with rfl | rfl | rfl
    · have hplain := isSign_eq_false_iff.mp (hds rfl d rfl)
      simp only [List.nil_append, if_neg hplain.2, if_neg hplain.1]
      exact hwhich _ _
    · exact hwhich _ _
    · exact hwhich _ _

section Exponent

variable {base : Base} {e : Int}

theorem filter_isDigit_eq {ds : Text} (h : IsGappedDigits ds) :
    ds.filter Byte.isDigit = ungapped ds := by
  refine List.filter_congr fun c hc => ?_
  rcases h.2 c hc with hdigit | rfl
  · exact hdigit.trans (bne_iff_ne.mpr (@Base.ne_gap .decimal c hdigit)).symm
  · rfl

theorem IsGappedDigits.isDigits_ungapped {ds : Text} (h : IsGappedDigits ds) :
    IsDigits (ungapped ds) := by
  rw [← filter_isDigit_eq h]
  obtain ⟨⟨d, hd, hdigit⟩, -⟩ := h
  have hmem : d ∈ ds := List.mem_of_mem_head? hd
  exact ⟨List.ne_nil_of_mem (List.mem_filter.mpr ⟨hmem, hdigit⟩),
    fun c hc => (List.mem_filter.mp hc).2⟩

theorem isGappedDigits_of_ungapped {ds : Text} (h : IsDigits (ungapped ds))
    (hgaps : GapsFit base false ds) : IsGappedDigits ds := by
  obtain ⟨d, rest, hrest⟩ := List.exists_cons_of_ne_nil h.nonempty
  obtain ⟨rest, rfl, -, -⟩ := hgaps.exists_cons hrest
  have hdigit (c : UInt8) (hc : c ∈ d :: rest) : Byte.isDigit c = true ∨ c = ascii '_' := by
    by_cases heq : c = ascii '_'
    · exact .inr heq
    · exact .inl (h.digit c (List.mem_filter.mpr ⟨hc, bne_iff_ne.mpr heq⟩))
  refine ⟨⟨d, rfl, ?_⟩, hdigit⟩
  exact h.digit d (hrest ▸ List.mem_cons_self)

theorem ungapped_sign {sign : Text} (h : sign ∈ signs) : ungapped sign = sign := by
  rcases mem_signs_iff.mp h with rfl | rfl | rfl <;> rfl

/-- No underscore stands next to a sign. -/
theorem GapsFit.exists_sign {t sign y : Text} (h : GapsFit base false t) (hsign : sign ∈ signs)
    (hy : ungapped t = sign ++ y) :
    ∃ rest, t = sign ++ rest ∧ ungapped rest = y ∧ GapsFit base false rest := by
  have hone {s : UInt8} (hs : isSign s = true) (hy : ungapped t = s :: y) :
      ∃ rest, t = s :: rest ∧ ungapped rest = y ∧ GapsFit base false rest :=
    base.sign_apart s hs ▸ h.exists_cons hy
  rcases mem_signs_iff.mp hsign with rfl | rfl | rfl
  · exact ⟨t, rfl, hy, h⟩
  · exact hone (by decide) hy
  · exact hone (by decide) hy

/-- What is read as an exponent is one, once the underscores are left out. -/
theorem isScale_of_exponent? {t : Text} (h : exponent? base.mark t = some e) :
    t = [] ∧ e = 0 ∨ IsScale base.mark (ungapped t) e := by
  cases t with
  | nil => exact .inl ⟨rfl, (Option.some.inj h).symm⟩
  | cons b rest =>
    right
    have hb : Byte.lower b = base.mark := by
      by_contra hne
      have hnone : exponent? base.mark (b :: rest) = none := if_pos hne
      exact Option.some_ne_none e (h.symm.trans hnone)
    obtain ⟨sign, hsign, ds, rfl, hds⟩ := exists_sign rest
    obtain ⟨hdigits, rfl⟩ := (exponent?_signed hb hsign hds).mp h
    rw [ungapped_cons (base.mark_apart b hb).2.1, ungapped_append, ungapped_sign hsign,
      filter_isDigit_eq hdigits]
    exact .intro hb hsign hdigits.isDigits_ungapped

/-- An exponent is read with underscores between its digits too. -/
theorem exponent?_of_isScale {b : UInt8} {rest : Text} (hb : b ≠ ascii '_')
    (hgaps : GapsFit base (base.isDigit b) rest)
    (h : IsScale base.mark (ungapped (b :: rest)) e) :
    exponent? base.mark (b :: rest) = some e := by
  rw [ungapped_cons hb] at h
  generalize hu : b :: ungapped rest = u at h
  obtain @⟨b, sign, ds, hmark, hsign, hds⟩ := h
  obtain ⟨rfl, hrest⟩ := List.cons.inj hu
  rw [(base.mark_apart _ hmark).1] at hgaps
  obtain ⟨rest, rfl, rfl, hgaps⟩ := hgaps.exists_sign hsign hrest
  have hgapped := isGappedDigits_of_ungapped hds hgaps
  have hhead (c : UInt8) (hc : c ∈ rest.head?) : isSign c = false := by
    obtain ⟨⟨d, hd, hdigit⟩, -⟩ := hgapped
    obtain rfl := Option.some.inj (hd.symm.trans hc)
    exact isSign_of_isDigit hdigit
  refine (exponent?_signed hmark hsign fun _ => hhead).mpr ⟨hgapped, ?_⟩
  rw [filter_isDigit_eq hgapped]

end Exponent

/-! ## Numbers -/

namespace Base

/-- A number without a sign and without underscores: digits, at least one of
    them, with a point, and an exponent, or none if no base mark stands in front. -/
inductive Spells (base : Base) : Text → Text → Text → Int → Prop where
  | bare {m whole fraction : Text} (hmark : base.isMarked = false)
      (hm : IsBody base m whole fraction) (hsome : whole ++ fraction ≠ []) :
      Spells base m whole fraction 0
  | scaled {m whole fraction tail : Text} {e : Int} (hm : IsBody base m whole fraction)
      (hsome : whole ++ fraction ≠ []) (htail : IsScale base.mark tail e) :
      Spells base (m ++ tail) whole fraction e

/-- The reader for a base. -/
def read (base : Base) (negative : Bool) (t : Text) : Except ReadFault Float :=
  let whole := (mantissa base.isDigit false t).1
  let fraction := (mantissa base.isDigit false t).2.1
  let tail := (mantissa base.isDigit false t).2.2
  if whole.isEmpty && fraction.isEmpty || base.isMarked && tail.isEmpty ||
      !underscoresFit base.isDigit base.isMarked t then
    .error .malformed
  else
    (exponent? base.mark tail).elim (.error .malformed) (base.nearest negative whole fraction)

variable {base : Base} {negative : Bool} {t : Text} {f : Float}

theorem read_eq_ok_iff_parts {whole fraction tail : Text}
    (hparts : mantissa base.isDigit false t = (whole, fraction, tail)) :
    base.read negative t = .ok f ↔
      (whole ++ fraction ≠ [] ∧ (base.isMarked = true → tail ≠ []) ∧
        GapsFit base base.isMarked t) ∧
      ∃ e, exponent? base.mark tail = some e ∧ base.nearest negative whole fraction e = .ok f := by
  rw [← underscoresFit_iff]
  unfold read
  rw [hparts]
  dsimp only
  have hrefused : (whole.isEmpty && fraction.isEmpty || base.isMarked && tail.isEmpty ||
      !underscoresFit base.isDigit base.isMarked t) = false ↔
        whole ++ fraction ≠ [] ∧ (base.isMarked = true → tail ≠ []) ∧
          underscoresFit base.isDigit base.isMarked t = true := by
    simp [and_assoc]
  rw [← hrefused]
  cases whole.isEmpty && fraction.isEmpty || base.isMarked && tail.isEmpty ||
      !underscoresFit base.isDigit base.isMarked t with
  | true => exact iff_of_false (fun h => by cases h) fun h => by cases h.1
  | false =>
    rw [if_neg Bool.false_ne_true]
    cases exponent? base.mark tail with
    | none => simp
    | some e => simp

theorem Spells.exists_mantissa {u whole fraction : Text} {e : Int}
    (h : base.Spells u whole fraction e) :
    whole ++ fraction ≠ [] ∧ ∃ tail, mantissa base.isDigit false u = (whole, fraction, tail) ∧
      (tail = [] ∧ e = 0 ∧ base.isMarked = false ∨ IsScale base.mark tail e) := by
  cases h with
  | bare hmark hm hsome =>
    refine ⟨hsome, [], ?_, .inl ⟨rfl, rfl, hmark⟩⟩
    have hbody := @mantissa_body base _ _ _ [] hm fun b hb => by cases hb
    rwa [List.append_nil] at hbody
  | scaled hm hsome htail =>
    refine ⟨hsome, _, mantissa_body hm ?_, .inr htail⟩
    obtain ⟨hb, -, -⟩ := htail
    rintro _ ⟨⟩
    obtain ⟨hdigit, hgap, hpoint⟩ := base.mark_apart _ hb
    exact ⟨hdigit, hgap, fun heq => absurd heq hpoint⟩

/-- The reader takes what is a number without its underscores, if they stand
    between digits. -/
theorem read_eq_ok_iff :
    base.read negative t = .ok f ↔
      GapsFit base base.isMarked t ∧
        ∃ whole fraction e, base.Spells (ungapped t) whole fraction e ∧
          base.nearest negative whole fraction e = .ok f := by
  obtain ⟨p, hp, hbody, hends⟩ := @exists_body base t
  have hungapped := @mantissa_ungapped base false t
  rcases hparts : mantissa base.isDigit false t with ⟨whole, fraction, tail⟩
  rw [hparts] at hp hbody hends hungapped
  dsimp only at hp hbody hends hungapped
  rw [read_eq_ok_iff_parts hparts]
  constructor
  · rintro ⟨⟨hsome, hmarked, hgaps⟩, e, he, hf⟩
    refine ⟨hgaps, whole, fraction, e, ?_, hf⟩
    rw [hp, ungapped_append]
    rcases isScale_of_exponent? he with ⟨rfl, rfl⟩ | hscale
    · have hplain : base.isMarked = false := Bool.eq_false_iff.mpr fun h => hmarked h rfl
      rw [ungapped_nil, List.append_nil]
      exact .bare hplain hbody hsome
    · exact .scaled hbody hsome hscale
  · rintro ⟨hgaps, whole', fraction', e, hspells, hf⟩
    obtain ⟨hsome, tail', hmantissa, htail⟩ := hspells.exists_mantissa
    -- The grammar cuts the text where the scan does, but for underscores in the exponent.
    rw [hungapped] at hmantissa
    simp only [Prod.mk.injEq] at hmantissa
    obtain ⟨rfl, rfl, rfl⟩ := hmantissa
    cases tail with
    | nil =>
      rcases htail with ⟨-, rfl, hplain⟩ | hscale
      · exact ⟨⟨hsome, fun h => absurd (hplain.symm.trans h) Bool.false_ne_true, hgaps⟩, 0, rfl, hf⟩
      · cases hscale
    | cons b rest =>
      have hb := hends b rfl
      rcases htail with ⟨hnil, -⟩ | hscale
      · rw [ungapped_cons hb] at hnil
        cases hnil
      · refine ⟨⟨hsome, fun _ => List.cons_ne_nil b rest, hgaps⟩, e, ?_, hf⟩
        rw [hp] at hgaps
        exact exponent?_of_isScale hb hgaps.of_append hscale

end Base

end Decimal

end MixinCss
