/-
  MixinCss.Proofs.Token.Numbers

  Numbers of a style sheet as a grammar: a sign, digits and a fraction, and
  perhaps an exponent behind them. The lexer takes the longest number that a text
  begins with (`isNumber_take`, `IsNumber.length_le_number`), so a percentage or
  a dimension is cut in one way only: into its longest number and what follows
  (`exists_quantity`).
-/

import MixinCss.Proofs.Decimal.Numeral
import MixinCss.Proofs.Token.Seams
import MixinCss.Value.Numeric

namespace MixinCss.Lexer

open Decimal (IsDigits)

theorem isDigits_iff {w : Text} : IsDigits w ↔ w ≠ [] ∧ w.all Byte.isDigit = true :=
  ⟨fun h => ⟨h.nonempty, List.all_eq_true.mpr h.digit⟩,
    fun h => ⟨h.1, List.all_eq_true.mp h.2⟩⟩

instance (w : Text) : Decidable (IsDigits w) := decidable_of_iff _ isDigits_iff.symm

/-! ## The grammar -/

/-- A sign, or none. -/
def signs : List Text := [[], [ascii '+'], [ascii '-']]

theorem mem_signs_iff {sign : Text} :
    sign ∈ signs ↔ sign = [] ∨ sign = [ascii '+'] ∨ sign = [ascii '-'] := by
  simp [signs]

theorem isSign_eq_false_iff {b : UInt8} :
    isSign b = false ↔ b ≠ ascii '+' ∧ b ≠ ascii '-' := by
  simp [isSign]

/-- A point and digits, or nothing. -/
def IsFraction (part : Text) : Prop := part = [] ∨ ∃ ds, IsDigits ds ∧ part = ascii '.' :: ds

/-- A sign, digits and a fraction, with at least one digit. -/
inductive IsMantissa : Text → Prop where
  | intro {sign whole part : Text} (hsign : sign ∈ signs)
      (hwhole : ∀ b ∈ whole, Byte.isDigit b = true) (hpart : IsFraction part)
      (hsome : whole ++ part ≠ []) : IsMantissa (sign ++ (whole ++ part))

/-- A mark, a sign and digits. -/
inductive IsExponent : Text → Prop where
  | intro {mark : UInt8} {sign ds : Text} (hmark : Byte.lower mark = ascii 'e')
      (hsign : sign ∈ signs) (hds : IsDigits ds) : IsExponent (mark :: (sign ++ ds))

/-- A mantissa by itself or with an exponent. -/
def IsNumber (p : Text) : Prop := ∃ m e, IsMantissa m ∧ (e = [] ∨ IsExponent e) ∧ p = m ++ e

/-- A byte that is neither a digit nor a point. -/
def IsApart (c : UInt8) : Prop := Byte.isDigit c = false ∧ c ≠ ascii '.'

/-! ## The bytes of numbers -/

/-- All bytes that occur in numbers. -/
def numberBytes : List UInt8 :=
  digitBytes ++ [ascii '.', ascii '+', ascii '-', ascii 'e', ascii 'E']

theorem mem_numberBytes_of_isDigit {b : UInt8} (h : Byte.isDigit b = true) : b ∈ numberBytes :=
  List.mem_append_left _ (mem_digitBytes h)

theorem mem_numberBytes_of_mark {b : UInt8} (h : Byte.lower b = ascii 'e') : b ∈ numberBytes := by
  have hmark : b = ascii 'e' ∨ b = ascii 'E' := by
    rw [Byte.lower] at h
    split at h
    · exact .inr ((UInt8.add_left_inj 0x20).mp h)
    · exact .inl h
  rcases hmark with rfl | rfl <;> decide

theorem IsNumber.bytes {p : Text} (h : IsNumber p) : ∀ b ∈ p, b ∈ numberBytes := by
  have hsigns : ∀ sign ∈ signs, ∀ b ∈ sign, b ∈ numberBytes := by decide +kernel
  have hdigits {ds : Text} (hds : ∀ b ∈ ds, Byte.isDigit b = true) : ∀ b ∈ ds, b ∈ numberBytes :=
    fun b hb => mem_numberBytes_of_isDigit (hds b hb)
  obtain ⟨m, e, hm, he, rfl⟩ := h
  refine List.forall_mem_append.mpr ⟨?_, ?_⟩
  · obtain @⟨sign, whole, part, hsign, hwhole, hpart, -⟩ := hm
    refine List.forall_mem_append.mpr ⟨hsigns sign hsign, ?_⟩
    refine List.forall_mem_append.mpr ⟨hdigits hwhole, ?_⟩
    rcases hpart with rfl | ⟨ds, hds, rfl⟩
    · exact List.forall_mem_nil _
    · exact List.forall_mem_cons.mpr ⟨by decide, hdigits hds.digit⟩
  · rcases he with rfl | ⟨hmark, hsign, hds⟩
    · exact List.forall_mem_nil _
    · refine List.forall_mem_cons.mpr ⟨mem_numberBytes_of_mark hmark, ?_⟩
      exact List.forall_mem_append.mpr ⟨hsigns _ hsign, hdigits hds.digit⟩

/-! ## What the lexer takes is a number -/

section Taken

theorem take_one_isSign (t : Text) : t.take (one isSign t) ∈ signs := by
  cases t with
  | nil => decide
  | cons b rest =>
    rw [one]
    split
    · rename_i hb
      simp only [isSign, Bool.or_eq_true, beq_iff_eq] at hb
      rcases hb with rfl | rfl <;> simp [signs]
    · simp [signs]

theorem isDigits_takeWhile {t : Text} (h : run Byte.isDigit t ≠ 0) :
    IsDigits (t.takeWhile Byte.isDigit) :=
  ⟨fun hnil => h (by rw [run, hnil, List.length_nil]), fun _ hb => List.mem_takeWhile_imp hb⟩

theorem isFraction_take (t : Text) : IsFraction (t.take (fraction t)) := by
  cases t with
  | nil => exact .inl rfl
  | cons b rest =>
    unfold fraction
    dsimp only
    split
    · rename_i hpoint
      split
      · exact .inl rfl
      · rename_i hdigits
        refine .inr ⟨_, isDigits_takeWhile hdigits, ?_⟩
        rw [Nat.add_comm, List.take_succ_cons, take_run, hpoint]
    · exact .inl rfl

theorem isExponent_take (t : Text) :
    t.take (exponent t) = [] ∨ IsExponent (t.take (exponent t)) := by
  cases t with
  | nil => exact .inl rfl
  | cons b rest =>
    unfold exponent
    dsimp only
    split
    · rename_i hmark
      split
      · exact .inl rfl
      · rename_i hdigits
        rw [Nat.add_assoc, Nat.add_comm 1, List.take_succ_cons, List.take_add, take_run]
        exact .inr (.intro hmark (take_one_isSign rest) (isDigits_takeWhile hdigits))
    · exact .inl rfl

/-- The sign, the digits and the fraction that a text begins with. -/
def mantissa (t : Text) : Nat := whole t + fraction (t.drop (whole t))

theorem number_eq (t : Text) :
    number t =
      if run Byte.isDigit (t.drop (one isSign t)) + fraction (t.drop (whole t)) = 0 then 0
      else mantissa t + exponent (t.drop (mantissa t)) := rfl

theorem isNumber_take {t : Text} (h : number t ≠ 0) : IsNumber (t.take (number t)) := by
  rw [number_eq] at h ⊢
  split at h
  · exact absurd rfl h
  · rename_i hsome
    rw [if_neg hsome, List.take_add]
    refine ⟨_, _, ?_, isExponent_take _, rfl⟩
    rw [mantissa, List.take_add, whole, List.take_add, take_run, List.append_assoc]
    refine .intro (take_one_isSign t) (fun _ hb => List.mem_takeWhile_imp hb) (isFraction_take _) ?_
    intro hnil
    have hlength := congrArg List.length hnil
    rw [List.length_append, List.length_take_of_le (fraction_le_length _)] at hlength
    exact hsome hlength

end Taken

/-! ## No longer number can be taken -/

section Longest

variable {x : Text}

theorem run_append_of_forall {p : UInt8 → Bool} {w : Text} (h : ∀ b ∈ w, p b = true) (x : Text) :
    run p (w ++ x) = w.length + run p x := by
  rw [run, List.takeWhile_append_of_pos h, List.length_append]
  rfl

/-- A sign is taken where it stands, and none where a digit or a point does. -/
theorem one_isSign_signs {sign body : Text} (hsign : sign ∈ signs)
    (hbody : ∀ c ∈ body.head?, isSign c = false) : one isSign (sign ++ body) = sign.length := by
  rcases mem_signs_iff.mp hsign with rfl | rfl | rfl
  · cases body with
    | nil => rfl
    | cons c body => simp [one, hbody c rfl]
  · rfl
  · rfl

theorem isSign_of_head {whole part : Text} (hwhole : ∀ b ∈ whole, Byte.isDigit b = true)
    (hpart : IsFraction part) (hsome : whole ++ part ≠ []) (x : Text) :
    ∀ c ∈ (whole ++ (part ++ x)).head?, isSign c = false := by
  intro c hc
  cases whole with
  | cons b rest =>
    obtain rfl : b = c := Option.some.inj hc
    exact isSign_of_isDigit (hwhole b List.mem_cons_self)
  | nil =>
    rcases hpart with rfl | ⟨ds, -, rfl⟩
    · exact absurd rfl hsome
    · cases hc
      decide

/-- In front of any text the lexer takes a mantissa as a whole, and it takes no
    more if neither a digit nor a point follows. -/
theorem IsMantissa.exists_mantissa {m : Text} (h : IsMantissa m) (x : Text) :
    run Byte.isDigit ((m ++ x).drop (one isSign (m ++ x))) +
        fraction ((m ++ x).drop (whole (m ++ x))) ≠ 0 ∧
      ∃ k, mantissa (m ++ x) = m.length + k ∧ ((∀ c ∈ x.head?, IsApart c) → k = 0) := by
  obtain @⟨sign, ws, part, hsign, hwhole, hpart, hsome⟩ := h
  have hone : one isSign (sign ++ (ws ++ part) ++ x) = sign.length := by
    rw [List.append_assoc, List.append_assoc]
    exact one_isSign_signs hsign (isSign_of_head hwhole hpart hsome x)
  have hdrop : (sign ++ (ws ++ part) ++ x).drop sign.length = ws ++ (part ++ x) := by
    rw [List.append_assoc, List.drop_left, List.append_assoc]
  have hstart : whole (sign ++ (ws ++ part) ++ x) =
      sign.length + (ws.length + run Byte.isDigit (part ++ x)) := by
    rw [whole, hone, hdrop, run_append_of_forall hwhole]
  have hbehind : (sign ++ (ws ++ part) ++ x).drop (whole (sign ++ (ws ++ part) ++ x)) =
      (part ++ x).drop (run Byte.isDigit (part ++ x)) := by
    rw [hstart, ← List.drop_drop, hdrop, ← List.drop_drop, List.drop_left]
  rw [mantissa, hbehind, hstart, hone, hdrop, run_append_of_forall hwhole]
  simp only [List.length_append]
  rcases hpart with rfl | ⟨ds, hds, rfl⟩
  · -- The digits may go on, and a fraction may follow.
    have hpos : ws.length ≠ 0 := by
      rw [List.append_nil] at hsome
      exact mt List.length_eq_zero_iff.mp hsome
    rw [List.nil_append, List.length_nil]
    refine ⟨by omega, run Byte.isDigit x + fraction (x.drop (run Byte.isDigit x)), by omega, ?_⟩
    intro hx
    have hrun : run Byte.isDigit x = 0 := run_append (w := []) fun c hc => (hx c hc).1
    have hpoint : fraction x = 0 := fraction_eq_zero fun hhead => (hx _ hhead).2 rfl
    rw [hrun, List.drop_zero, hpoint]
  · -- The fraction is there; only its digits may go on.
    have hpos := List.length_pos_of_ne_nil hds.nonempty
    have hrun : run Byte.isDigit (ascii '.' :: ds ++ x) = 0 := run_cons_of_neg (by decide)
    have hfraction : fraction (ascii '.' :: ds ++ x) = 1 + (ds.length + run Byte.isDigit x) := by
      rw [List.cons_append, fraction, if_pos rfl, run_append_of_forall hds.digit]
      exact if_neg (by omega)
    rw [hrun, List.drop_zero, hfraction, List.length_cons]
    refine ⟨by omega, run Byte.isDigit x, by omega, fun hx => ?_⟩
    exact run_append (w := []) fun c hc => (hx c hc).1

theorem IsExponent.length_le {e : Text} (h : IsExponent e) (x : Text) :
    e.length ≤ exponent (e ++ x) := by
  obtain @⟨mark, sign, ds, hmark, hsign, hds⟩ := h
  have hpos := List.length_pos_of_ne_nil hds.nonempty
  have hone : one isSign (sign ++ (ds ++ x)) = sign.length := by
    have hhead := isSign_of_head hds.digit (.inl rfl) (by rw [List.append_nil]; exact hds.nonempty) x
    exact one_isSign_signs hsign hhead
  rw [List.cons_append, exponent, if_pos hmark, List.append_assoc, hone]
  dsimp only
  rw [List.drop_left, run_append_of_forall hds.digit, if_neg (by omega)]
  simp only [List.length_cons, List.length_append]
  omega

/-- An exponent does not go on with what stands in front of it. -/
theorem IsExponent.isApart {e : Text} (h : IsExponent e) (x : Text) :
    ∀ c ∈ (e ++ x).head?, IsApart c := by
  obtain @⟨mark, sign, ds, hmark, -, -⟩ := h
  rintro _ ⟨⟩
  refine ⟨Bool.eq_false_iff.mpr fun hdigit => ?_, ?_⟩
  · have hlower : digitBytes.all (fun b => Byte.lower b != ascii 'e') = true := by decide
    exact bne_iff_ne.mp (List.all_eq_true.mp hlower mark (mem_digitBytes hdigit)) hmark
  · rintro rfl
    revert hmark
    decide

/-- No number at the beginning of a text is longer than the one that is taken. -/
theorem IsNumber.length_le_number {p t : Text} (hp : IsNumber p) (ht : p <+: t) :
    p.length ≤ number t := by
  obtain ⟨m, e, hm, he, rfl⟩ := hp
  obtain ⟨x, rfl⟩ := ht
  obtain ⟨hsome, k, hk, hend⟩ := hm.exists_mantissa (e ++ x)
  rw [List.append_assoc, number_eq, if_neg hsome, hk, List.length_append]
  rcases he with rfl | he
  · rw [List.length_nil]
    omega
  · rw [hend (he.isApart x), Nat.add_zero, List.drop_left]
    exact Nat.add_le_add_left (he.length_le x) _

end Longest

/-! ## Percentages and dimensions -/

/-- The token is cut into its longest number, a mantissa with or without an
    exponent, and a unit. -/
structure Quantity (t : Token) (m e unit : Text) : Prop where
  text : t.text = m ++ (e ++ unit)
  isMantissa : IsMantissa m
  isExponent : e = [] ∨ IsExponent e
  longest : ∀ p, IsNumber p → p <+: t.text → p.length ≤ (m ++ e).length
  ne_nil : unit ≠ []
  isApart : ∀ c ∈ unit.head?, IsApart c
  percent : t.kind = .percentage → unit = [ascii '%']

/-- A name begins neither with a digit nor with a point. -/
theorem isApart_of_name {t : Text} (h : name t ≠ 0) : ∀ c ∈ t.head?, IsApart c := by
  have hdash : IsApart (ascii '-') := by
    constructor <;> decide
  have hhead {b : UInt8} {rest : Text} (hname : nameHead (b :: rest) ≠ 0) : IsApart b := by
    rw [nameHead] at hname
    split at hname
    · rename_i hstart
      refine ⟨Bool.eq_false_iff.mpr fun hdigit => ?_, ?_⟩
      · have hplain : digitBytes.any isNameStart = false := by decide
        exact List.any_eq_false.mp hplain b (mem_digitBytes hdigit) hstart
      · rintro rfl
        revert hstart
        decide
    · split at hname
      · rename_i hslash
        rw [hslash]
        constructor <;> decide
      · exact absurd rfl hname
  intro c hc
  cases t with
  | nil => cases hc
  | cons b rest =>
    obtain rfl : b = c := Option.some.inj hc
    by_cases hb : b = ascii '-'
    · rw [hb]
      exact hdash
    · have hplain : dash (b :: rest) = 0 := by simp [dash, one, hb]
      rw [name_eq, if_neg fun htwo => hb (by simpa using congrArg List.head? htwo)] at h
      split at h
      · exact absurd rfl h
      · rename_i hname
        rw [hplain] at hname
        exact hhead hname

/-- What begins with a name is a word, a call or an address. -/
theorem nameLike?_kinds {t : Text} {kind : TokenKind} {n : Nat}
    (h : nameLike? t = some (kind, n)) : kind ∈ [TokenKind.ident, .function, .url, .badUrl] := by
  rw [nameLike?_eq] at h
  split at h
  · cases h
  split at h
  · split at h
    · cases h
      rcases urlTail_kind (t.drop (name t + 1)) with hkind | hkind <;> rw [hkind] <;> decide
    · cases h
      decide
  · cases h
    decide

/-- The classes of tokens whose text is that of a value other than a word. -/
def valueKinds : List TokenKind := [.atKeyword, .string, .percentage, .dimension]

/-- Such a token is found by its mark, by its quote or by its number. -/
theorem Scanned.value_cases {b : UInt8} {rest : Text} {kind : TokenKind} {n : Nat}
    (h : Scanned b rest (kind, n)) (hkind : kind ∈ valueKinds) :
    kind = .atKeyword ∧ b = ascii '@' ∨ kind = .string ∧ isQuote b = true ∨
      numeric? (b :: rest) = some (kind, n) := by
  -- The pair is an index of `Scanned`, so it has to be a variable for the case split.
  generalize hr : (kind, n) = r at h
  cases h with
  | atKeyword hb =>
    cases hr
    exact .inl ⟨rfl, hb⟩
  | string hb =>
    cases hr
    exact .inr (.inl ⟨rfl, hb⟩)
  | numeric hnumeric => exact .inr (.inr hnumeric)
  | nameLike hname =>
    subst hr
    have hnames : ∀ k ∈ [TokenKind.ident, .function, .url, .badUrl], k ∉ valueKinds := by decide
    exact absurd hkind (hnames kind (nameLike?_kinds hname))
  | unicodeRange hrange =>
    subst hr
    cases unicodeRange?_kind hrange
    exact absurd hkind (by decide)
  | mark hmem =>
    cases hr
    have hmarks : ∀ entry ∈ marks, entry.2 ∉ valueKinds := by decide
    exact absurd hkind (hmarks _ hmem)
  | pair hmem =>
    cases hr
    have hpairs : ∀ entry ∈ pairs, entry.2.2 ∉ valueKinds := by decide
    exact absurd hkind (hpairs _ hmem)
  | space | comment | commentOpen | commentClose | hash | custom | badString | delim =>
    cases hr
    exact absurd hkind (by decide)

/-- Percentages and dimensions come from one place of the scanner. -/
theorem Scanned.numeric?_eq_some {b : UInt8} {rest : Text} {kind : TokenKind} {n : Nat}
    (h : Scanned b rest (kind, n)) (hkind : kind ∈ [TokenKind.percentage, .dimension]) :
    numeric? (b :: rest) = some (kind, n) := by
  have hvalue : kind ∈ valueKinds := List.mem_cons_of_mem _ (List.mem_cons_of_mem _ hkind)
  rcases h.value_cases hvalue with ⟨rfl, -⟩ | ⟨rfl, -⟩ | hnumeric
  · exact absurd hkind (by decide)
  · exact absurd hkind (by decide)
  · exact hnumeric

/-- Behind its number a percentage has the percent sign and a dimension a name. -/
theorem exists_unit_of_numeric? {t : Text} {kind : TokenKind} {n : Nat}
    (h : numeric? t = some (kind, n)) (hkind : kind ∈ [TokenKind.percentage, .dimension]) :
    number t ≠ 0 ∧ ∃ size, n = number t + size ∧ (t.drop (number t)).take size ≠ [] ∧
      (∀ c ∈ (t.drop (number t)).head?, IsApart c) ∧
      (kind = .percentage → (t.drop (number t)).take size = [ascii '%']) := by
  rw [numeric?_eq] at h
  split at h
  · cases h
  rename_i hnumber
  refine ⟨hnumber, ?_⟩
  split at h
  · rename_i hpercent
    cases h
    have htake : (t.drop (number t)).take 1 = [ascii '%'] := by
      rw [List.take_one, hpercent]
      rfl
    refine ⟨1, rfl, by rw [htake]; exact List.cons_ne_nil _ _, ?_, fun _ => htake⟩
    rw [hpercent]
    rintro _ ⟨⟩
    constructor <;> decide
  · split at h
    · cases h
      exact absurd hkind (by decide)
    · rename_i hname
      cases h
      refine ⟨_, rfl, ?_, isApart_of_name hname, fun hpercent => by cases hpercent⟩
      rw [ne_eq, List.take_eq_nil_iff, not_or]
      refine ⟨hname, fun hnil => hname ?_⟩
      rw [hnil]
      rfl

/-- A percentage or a dimension is cut at the end of the number that the lexer
    finds at its place, and this is the longest one that the token begins with. -/
theorem IsLexeme.exists_quantity {t : Token} {rest : Text} (h : IsLexeme t rest)
    (hkind : t.kind ∈ [TokenKind.percentage, .dimension]) :
    ∃ m e unit, Quantity t m e unit ∧ number (t.text ++ rest) = (m ++ e).length := by
  obtain ⟨b, u, htext, hscan, htake⟩ := h
  have hfound := scanned_scan b (u ++ rest)
  cases hr : scan b (u ++ rest) with
  | mk kind n =>
    rw [hr] at hfound hscan htake
    obtain rfl : kind = t.kind := hscan
    have hall : b :: (u ++ rest) = t.text ++ rest := by rw [htext, List.cons_append]
    have hnumeric := hfound.numeric?_eq_some hkind
    rw [hall] at hnumeric
    obtain ⟨hnumber, size, rfl, hunit, hapart, hpercent⟩ := exists_unit_of_numeric? hnumeric hkind
    obtain ⟨m, e, hm, he, hcut⟩ := isNumber_take hnumber
    -- The token is what the scanner takes: the number and the unit.
    have hwhole : t.text = (t.text ++ rest).take (number (t.text ++ rest) + size) := by
      obtain ⟨k, hk⟩ : ∃ k, number (t.text ++ rest) + size = k + 1 :=
        ⟨number (t.text ++ rest) + size - 1, by omega⟩
      rw [hk, Nat.add_sub_cancel] at htake
      rw [hk, ← hall, List.take_succ_cons, htake, htext]
    rw [List.take_add, hcut] at hwhole
    have hlength : number (t.text ++ rest) = (m ++ e).length := by
      rw [← hcut, List.length_take_of_le (number_le_length _)]
    refine ⟨m, e, _, ⟨by rw [← List.append_assoc]; exact hwhole, hm, he, ?_, hunit, ?_, hpercent⟩,
      hlength⟩
    · intro p hp hfront
      rw [← hlength]
      exact hp.length_le_number (hfront.trans (List.prefix_append _ _))
    · intro c hc
      rw [List.head?_take] at hc
      split at hc
      · cases hc
      · exact hapart c hc

end MixinCss.Lexer

/-! ## Texts that are numbers -/

namespace MixinCss.Text

open Lexer

theorem mem_numberBytes_of_afterSign {t : Text} (h : ∀ b ∈ afterSign t, b ∈ numberBytes) :
    ∀ b ∈ t, b ∈ numberBytes := by
  cases t with
  | nil => exact h
  | cons b rest =>
    rw [afterSign] at h
    split at h
    · rename_i hsign
      refine List.forall_mem_cons.mpr ⟨?_, h⟩
      simp only [Bool.or_eq_true, decide_eq_true_eq] at hsign
      rcases hsign with rfl | rfl <;> decide
    · exact h

theorem mem_numberBytes_of_isExponent {t : Text} (h : isExponent t = true) :
    ∀ b ∈ t, b ∈ numberBytes := by
  cases t with
  | nil => exact List.forall_mem_nil _
  | cons b rest =>
    simp only [isExponent, Bool.and_eq_true, beq_iff_eq, List.all_eq_true] at h
    refine List.forall_mem_cons.mpr ⟨mem_numberBytes_of_mark h.1.1, ?_⟩
    exact mem_numberBytes_of_afterSign fun c hc => mem_numberBytes_of_isDigit (h.2 c hc)

theorem mem_numberBytes_of_isNumber {t : Text} (h : isNumber t = true) :
    ∀ b ∈ t, b ∈ numberBytes := by
  have hdigits (u : Text) (hrest : ∀ b ∈ u.dropWhile Byte.isDigit, b ∈ numberBytes) :
      ∀ b ∈ u, b ∈ numberBytes := by
    rw [← List.takeWhile_append_dropWhile (p := Byte.isDigit) (l := u)]
    refine List.forall_mem_append.mpr ⟨fun b hb => ?_, hrest⟩
    exact mem_numberBytes_of_isDigit (List.mem_takeWhile_imp hb)
  refine mem_numberBytes_of_afterSign (hdigits _ ?_)
  unfold isNumber at h
  dsimp only at h
  split at h
  · rename_i b rest hrest
    rw [hrest]
    split at h
    · rename_i hpoint
      refine List.forall_mem_cons.mpr ⟨by rw [hpoint]; decide, hdigits _ ?_⟩
      exact mem_numberBytes_of_isExponent (Bool.and_eq_true_iff.mp h).2
    · exact mem_numberBytes_of_isExponent (Bool.and_eq_true_iff.mp h).2
  · rename_i hnil
    rw [hnil]
    exact List.forall_mem_nil _

end MixinCss.Text
