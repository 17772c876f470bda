/-
  MixinCss.Proofs.Decimal.Reader

  How the numbers of a style sheet are read. The reader knows more forms than the
  grammar of numbers has: words, hexadecimal digits, underscores. A number of the
  grammar has none of these, so it is read as the decimal number that it spells,
  and only its size can be a reason to refuse it (`read_ne_malformed`).
-/

import MixinCss.Decimal.Reader
import MixinCss.Proofs.Token.Numbers

namespace MixinCss.Decimal

open Lexer

/-! ## The parts of a number -/

theorem underscoresFit_of_not_mem {isDigit : UInt8 → Bool} {t : Text} (h : ascii '_' ∉ t)
    (afterDigit : Bool) : underscoresFit isDigit afterDigit t = true := by
  induction t generalizing afterDigit with
  | nil => rfl
  | cons b rest ih =>
    rw [List.mem_cons, not_or] at h
    unfold underscoresFit
    split
    · exact ih h.2 true
    · rw [if_neg (Ne.symm h.1)]
      exact ih h.2 false

/-- An exponent or the end of the text ends a mantissa. -/
theorem mantissa_end {e : Text} (h : e = [] ∨ IsExponent e) (seenPoint : Bool) :
    mantissa Byte.isDigit seenPoint e = ([], [], e) := by
  rcases h with rfl | h
  · rfl
  · have hapart := h.isApart []
    obtain @⟨mark, sign, ds, hmark, -, -⟩ := h
    obtain ⟨hdigit, hpoint⟩ := hapart mark rfl
    have hgap : mark ≠ ascii '_' := by
      rintro rfl
      revert hmark
      decide
    rw [mantissa, hdigit, if_neg Bool.false_ne_true, if_neg hgap, if_neg fun h => hpoint h.1]

theorem mantissa_whole {isDigit : UInt8 → Bool} {ds : Text} (hds : ∀ b ∈ ds, isDigit b = true)
    (x : Text) :
    mantissa isDigit false (ds ++ x) =
      (ds ++ (mantissa isDigit false x).1, (mantissa isDigit false x).2) := by
  induction ds with
  | nil => rfl
  | cons b ds ih =>
    obtain ⟨hb, hrest⟩ := List.forall_mem_cons.mp hds
    rw [List.cons_append, mantissa, if_pos hb, ih hrest]
    rfl

theorem mantissa_fraction {isDigit : UInt8 → Bool} {ds : Text}
    (hds : ∀ b ∈ ds, isDigit b = true) (x : Text) :
    mantissa isDigit true (ds ++ x) =
      ((mantissa isDigit true x).1, ds ++ (mantissa isDigit true x).2.1,
        (mantissa isDigit true x).2.2) := by
  induction ds with
  | nil => rfl
  | cons b ds ih =>
    obtain ⟨hb, hrest⟩ := List.forall_mem_cons.mp hds
    rw [List.cons_append, mantissa, if_pos hb, ih hrest]
    rfl

theorem exists_exponent? {e : Text} (h : e = [] ∨ IsExponent e) :
    ∃ n, exponent? (ascii 'e') e = some n := by
  rcases h with rfl | h
  · exact ⟨0, rfl⟩
  obtain @⟨mark, sign, ds, hmark, hsign, hds⟩ := h
  have hall : ds.all (fun b => Byte.isDigit b || b = ascii '_') = true := by
    refine List.all_eq_true.mpr fun b hb => ?_
    rw [hds.digit b hb]
    rfl
  obtain ⟨d, rest, rfl⟩ := List.exists_cons_of_ne_nil hds.nonempty
  have hd := hds.digit d List.mem_cons_self
  have hplain := isSign_eq_false_iff.mp (isSign_of_isDigit hd)
  have hplus : ascii '+' ≠ ascii '-' := by decide
  unfold exponent?
  dsimp only
  rw [if_neg (not_not_intro hmark)]
  rcases mem_signs_iff.mp hsign with rfl | rfl | rfl
  · simp [hplain.1, hplain.2, hd, hall]
  · simp [hplus, hd, hall]
  · simp [hd, hall]

theorem inRange_ne_malformed (f : Float) : inRange f ≠ .error .malformed := by
  unfold inRange
  split <;> exact fun h => by cases h

theorem map_ne_malformed {x : Except ReadFault Float} (f : Float → Float)
    (h : x ≠ .error .malformed) : x.map f ≠ .error .malformed := by
  cases x with
  | ok a => exact fun hmap => by cases hmap
  | error fault =>
    intro hmap
    cases hmap
    exact h rfl

theorem nearestDecimal_ne_malformed (negative : Bool) (m : Nat) (e : Int) :
    nearestDecimal negative m e ≠ .error .malformed := by
  unfold nearestDecimal
  refine map_ne_malformed _ ?_
  split
  · exact fun h => by cases h
  · split
    · exact fun h => by cases h
    · exact inRange_ne_malformed _

/-! ## Numbers -/

theorem exists_mantissa {whole part e : Text} (hwhole : ∀ b ∈ whole, Byte.isDigit b = true)
    (hpart : IsFraction part) (hsome : whole ++ part ≠ []) (he : e = [] ∨ IsExponent e) :
    ∃ ds, mantissa Byte.isDigit false (whole ++ (part ++ e)) = (whole, ds, e) ∧
      whole ++ ds ≠ [] := by
  rw [mantissa_whole hwhole]
  rcases hpart with rfl | ⟨ds, hds, rfl⟩
  · refine ⟨[], ?_, hsome⟩
    rw [List.nil_append, mantissa_end he, List.append_nil]
  · refine ⟨ds, ?_, fun hnil => hds.nonempty (List.append_eq_nil_iff.mp hnil).2⟩
    have hpoint (x : Text) :
        mantissa Byte.isDigit false (ascii '.' :: x) = mantissa Byte.isDigit true x := rfl
    rw [List.cons_append, hpoint, mantissa_fraction hds.digit, mantissa_end he, List.append_nil,
      List.append_nil]

/-- Without words and base marks a number is read as a decimal one. -/
theorem readUnsigned_ne_malformed {whole part e : Text}
    (hwhole : ∀ b ∈ whole, Byte.isDigit b = true) (hpart : IsFraction part)
    (hsome : whole ++ part ≠ []) (he : e = [] ∨ IsExponent e)
    (hbytes : ∀ b ∈ whole ++ (part ++ e), b ∈ numberBytes) (negative : Bool) :
    readUnsigned negative (whole ++ (part ++ e)) ≠ .error .malformed := by
  obtain ⟨n, hn⟩ := exists_exponent? he
  obtain ⟨ds, hds, hdigits⟩ := exists_mantissa hwhole hpart hsome he
  have hgap : ascii '_' ∉ whole ++ (part ++ e) := fun hmem => absurd (hbytes _ hmem) (by decide)
  have hsome : (whole.isEmpty && ds.isEmpty || !true) = false := by
    simpa [List.isEmpty_iff, not_and] using hdigits
  have hbase : numberBytes.all (fun b => Byte.lower b != ascii 'x') = true := by decide
  unfold readUnsigned
  dsimp only
  rw [hds, underscoresFit_of_not_mem hgap]
  dsimp only
  rw [hn, hsome, if_neg Bool.false_ne_true]
  split
  · rename_i z x y rest heq
    rw [heq] at hbytes
    rw [if_neg]
    · exact nearestDecimal_ne_malformed negative _ _
    · intro hhex
      simp only [Bool.and_eq_true, decide_eq_true_eq] at hhex
      have hx := hbytes x (List.mem_cons_of_mem _ List.mem_cons_self)
      exact bne_iff_ne.mp (List.all_eq_true.mp hbase x hx) hhex.2
  · rw [if_neg Bool.false_ne_true]
    exact nearestDecimal_ne_malformed negative _ _

/-- A number of the grammar is read as the decimal number that it spells. -/
theorem read_ne_malformed {p : Text} (h : IsNumber p) : read p ≠ .error .malformed := by
  have hbytes := h.bytes
  obtain ⟨m, e, hm, he, rfl⟩ := h
  obtain @⟨sign, whole, part, hsign, hwhole, hpart, hsome⟩ := hm
  rw [List.append_assoc, List.append_assoc] at hbytes ⊢
  have hbody := (List.forall_mem_append.mp hbytes).2
  -- The words have an `n` in them.
  have hword {w : Text} (hw : ascii 'n' ∈ w) : (whole ++ (part ++ e)).map Byte.lower ≠ w := by
    rintro rfl
    obtain ⟨b, hb, hlower⟩ := List.mem_map.mp hw
    have hplain : numberBytes.all (fun b => Byte.lower b != ascii 'n') = true := by decide
    exact bne_iff_ne.mp (List.all_eq_true.mp hplain b (hbody b hb)) hlower
  have hunsigned := readUnsigned_ne_malformed hwhole hpart hsome he hbody
  have hhead := isSign_of_head hwhole hpart hsome e
  generalize whole ++ (part ++ e) = body at hword hunsigned hhead
  have hinf : ¬ (body.map Byte.lower = utf8 "inf" ∨ body.map Byte.lower = utf8 "infinity") :=
    not_or.mpr ⟨hword (by decide), hword (by decide)⟩
  have hnan : body.map Byte.lower ≠ utf8 "nan" := hword (by decide)
  rcases mem_signs_iff.mp hsign with rfl | rfl | rfl
  · cases body with
    | nil => exact hunsigned false
    | cons b rest =>
      have hplain := isSign_eq_false_iff.mp (hhead b rfl)
      rw [List.nil_append, read, if_neg hplain.2, if_neg hplain.1]
      dsimp only
      rw [if_neg hinf, if_neg fun h => hnan h.1]
      exact hunsigned false
  · rw [List.cons_append, read, if_neg (by decide), if_pos rfl]
    dsimp only
    rw [List.nil_append, if_neg hinf, if_neg fun h => hnan h.1]
    exact hunsigned false
  · rw [List.cons_append, read, if_pos rfl]
    dsimp only
    rw [List.nil_append, if_neg hinf, if_neg fun h => hnan h.1]
    exact hunsigned true

end MixinCss.Decimal
