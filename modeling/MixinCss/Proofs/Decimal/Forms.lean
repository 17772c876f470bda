/-
  MixinCss.Proofs.Decimal.Forms

  The forms of numbers that a text may have. A style sheet knows one form, which
  `Text.isNumber` recognizes (`Text.isNumber_iff`). The reader knows four more:
  infinity, not-a-number, base sixteen, and digits with underscores between them
  (`OtherForm`). What it reads has the form of a style sheet or one of these
  (`read_eq_ok_iff`), and never both (`OtherForm.isNumber_eq_false`).
-/

import MixinCss.Proofs.Decimal.Bases

namespace MixinCss

namespace Decimal

open Lexer (digitBytes mem_digitBytes isSign isSign_of_isDigit isSign_eq_false_iff signs
  mem_signs_iff)

/-! ## Without a sign -/

section Unsigned

variable {base : Base} {negative : Bool} {t : Text} {f : Float}

/-- A mark of base sixteen. -/
theorem readUnsigned_marked {x : UInt8} (hx : Byte.lower x = ascii 'x') {rest : Text}
    (hrest : rest ≠ []) :
    readUnsigned negative (ascii '0' :: x :: rest) = Base.hexadecimal.read negative rest := by
  obtain ⟨b, rest, rfl⟩ := List.exists_cons_of_ne_nil hrest
  unfold readUnsigned Base.read
  dsimp only
  rw [if_pos (by rw [hx]; rfl)]
  simp only [Base.hexadecimal, Bool.true_and, List.drop_succ_cons, List.drop_zero]
  cases exponent? (ascii 'p') (mantissa Byte.isHexDigit false (b :: rest)).2.2 with
  | none => rfl
  | some e => rfl

theorem readUnsigned_plain
    (h : ∀ x rest, Byte.lower x = ascii 'x' → rest ≠ [] → t ≠ ascii '0' :: x :: rest) :
    readUnsigned negative t = Base.decimal.read negative t := by
  unfold readUnsigned Base.read
  dsimp only
  rw [if_neg]
  · simp only [Base.decimal, Bool.false_and, Bool.or_false]
    cases exponent? (ascii 'e') (mantissa Byte.isDigit false t).2.2 with
    | none => rfl
    | some e => rfl
  · split
    · rename_i z x b rest
      intro hhex
      simp only [Bool.and_eq_true, decide_eq_true_eq] at hhex
      exact h x (b :: rest) hhex.2 (List.cons_ne_nil b rest) (by rw [hhex.1])
    · exact Bool.false_ne_true

/-- In base ten nothing goes on behind the `0` of a mark. -/
theorem decimal_read_marked_ne_ok {x : UInt8} (hx : Byte.lower x = ascii 'x') (rest : Text) :
    Base.decimal.read negative (ascii '0' :: x :: rest) ≠ .ok f := by
  have hends : EndsMantissa .decimal false (x :: rest) := by
    rintro _ ⟨⟩
    rcases Byte.eq_of_lower_eq hx with rfl | rfl <;> decide
  have hparts : mantissa Base.decimal.isDigit false (ascii '0' :: x :: rest) =
      ([ascii '0'], [], x :: rest) := by
    rw [mantissa_digit rfl, mantissa_of_ends hends, if_neg Bool.false_ne_true]
  have hnone : exponent? Base.decimal.mark (x :: rest) = none := by
    refine if_pos ?_
    rw [hx]
    decide
  rw [ne_eq, Base.read_eq_ok_iff_parts hparts, hnone]
  rintro ⟨-, e, he, -⟩
  cases he

/-- A number without a sign is written in base ten, or in base sixteen behind the
    mark of this base. -/
theorem readUnsigned_eq_ok_iff :
    readUnsigned negative t = .ok f ↔
      Base.decimal.read negative t = .ok f ∨
        ∃ x rest, Byte.lower x = ascii 'x' ∧ t = ascii '0' :: x :: rest ∧
          Base.hexadecimal.read negative rest = .ok f := by
  have hread (rest : Text) (h : Base.hexadecimal.read negative rest = .ok f) : rest ≠ [] := by
    rintro rfl
    cases h
  by_cases hmarked : ∃ x rest, Byte.lower x = ascii 'x' ∧ rest ≠ [] ∧ t = ascii '0' :: x :: rest
  · obtain ⟨x, rest, hx, hrest, rfl⟩ := hmarked
    rw [or_iff_right (decimal_read_marked_ne_ok hx rest), readUnsigned_marked hx hrest]
    constructor
    · exact fun h => ⟨x, rest, hx, rfl, h⟩
    · rintro ⟨_, _, -, ⟨⟩, h⟩
      exact h
  · rw [readUnsigned_plain fun x rest hx hrest heq => hmarked ⟨x, rest, hx, hrest, heq⟩,
      or_iff_left]
    rintro ⟨x, rest, hx, heq, h⟩
    exact hmarked ⟨x, rest, hx, hread rest h, heq⟩

/-- A number begins with a digit or the point. -/
theorem Base.Spells.exists_cons {u whole fraction : Text} {e : Int}
    (h : base.Spells u whole fraction e) :
    ∃ b rest, u = b :: rest ∧ (base.isDigit b = true ∨ b = ascii '.') := by
  have hbody {m : Text} (hm : IsBody base m whole fraction) (hsome : whole ++ fraction ≠ []) :
      ∃ b rest, m = b :: rest ∧ (base.isDigit b = true ∨ b = ascii '.') := by
    cases hm with
    | whole hwhole =>
      rw [List.append_nil] at hsome
      obtain ⟨b, rest, rfl⟩ := List.exists_cons_of_ne_nil hsome
      exact ⟨b, rest, rfl, .inl (hwhole b List.mem_cons_self)⟩
    | point hwhole hfraction =>
      cases whole with
      | nil => exact ⟨ascii '.', fraction, rfl, .inr rfl⟩
      | cons b rest =>
        exact ⟨b, rest ++ ascii '.' :: fraction, rfl, .inl (hwhole b List.mem_cons_self)⟩
  cases h with
  | bare hmark hm hsome => exact hbody hm hsome
  | scaled hm hsome htail =>
    obtain ⟨b, rest, rfl, hb⟩ := hbody hm hsome
    exact ⟨b, _, List.cons_append, hb⟩

theorem exists_cons_of_readUnsigned (h : readUnsigned negative t = .ok f) :
    ∃ b rest, t = b :: rest ∧ (Byte.isDigit b = true ∨ b = ascii '.') := by
  rcases readUnsigned_eq_ok_iff.mp h with hdecimal | ⟨x, rest, -, rfl, -⟩
  · obtain ⟨hgaps, whole, fraction, e, hspells, -⟩ := Base.read_eq_ok_iff.mp hdecimal
    obtain ⟨b, y, hy, hb⟩ := hspells.exists_cons
    obtain ⟨rest, rfl, -, -⟩ := GapsFit.exists_cons hgaps hy
    exact ⟨b, rest, rfl, hb⟩
  · exact ⟨ascii '0', x :: rest, rfl, .inl rfl⟩

end Unsigned

/-! ## Words and signs -/

/-- The words for infinity, in small letters. -/
def infinityWords : List Text := [utf8 "inf", utf8 "infinity"]

theorem head_infinityWords : ∀ w ∈ infinityWords, w.head? = some (ascii 'i') := by decide

/-- Infinity with a sign. -/
def infinity (sign : Text) : Float :=
  if sign = [ascii '-'] then -(1.0 / 0.0) else 1.0 / 0.0

section Signed

variable {sign body t : Text} {f : Float}

/-- Behind a sign the reader looks for a word first. -/
theorem read_signed (hsign : sign ∈ signs)
    (hbody : sign = [] → ∀ c ∈ body.head?, isSign c = false) :
    read (sign ++ body) =
      if body.map Byte.lower ∈ infinityWords then .ok (infinity sign)
      else if body.map Byte.lower = utf8 "nan" ∧ sign = [] then .ok (0.0 / 0.0)
      else readUnsigned (sign = [ascii '-']) body := by
  have hplus : ascii '+' ≠ ascii '-' := by decide
  simp only [infinityWords, List.mem_cons, List.not_mem_nil, or_false, infinity]
  rcases mem_signs_iff.mp hsign with rfl | rfl | rfl
  · cases body with
    | nil => rfl
    | cons c rest =>
      have hplain := isSign_eq_false_iff.mp (hbody rfl c rfl)
      rw [List.nil_append, read, if_neg hplain.2, if_neg hplain.1]
      simp
  · rw [List.cons_append, read, if_neg hplus, if_pos rfl]
    simp [hplus]
  · rw [List.cons_append, read, if_pos rfl]
    simp

theorem isSign_head_of_lower (body : Text)
    (h : ∀ c ∈ (body.map Byte.lower).head?, isSign c = false) :
    ∀ c ∈ body.head?, isSign c = false := by
  intro c hc
  refine Bool.eq_false_iff.mpr fun hsign => ?_
  have hlower : Byte.lower c = c := by rcases isSign_iff.mp hsign with rfl | rfl <;> decide
  have hplain := h c (by rw [List.head?_map, hc, Option.map_some, hlower]; rfl)
  exact absurd (hsign.symm.trans hplain) Bool.false_ne_true.symm

/-- A number begins neither with a letter of a word nor with a sign. -/
theorem start_apart {b : UInt8} (h : Byte.isDigit b = true ∨ b = ascii '.') :
    Byte.lower b ≠ ascii 'i' ∧ Byte.lower b ≠ ascii 'n' ∧ isSign b = false := by
  have hall : (ascii '.' :: digitBytes).all (fun b =>
      Byte.lower b != ascii 'i' && Byte.lower b != ascii 'n' && !isSign b) = true := by decide
  have hmem : b ∈ ascii '.' :: digitBytes := by
    rcases h with hdigit | rfl
    · exact List.mem_cons_of_mem _ (mem_digitBytes hdigit)
    · exact List.mem_cons_self
  have hb := List.all_eq_true.mp hall b hmem
  simp only [Bool.and_eq_true, bne_iff_ne, Bool.not_eq_true'] at hb
  exact ⟨hb.1.1, hb.1.2, hb.2⟩

/-- The reader takes a word for infinity with any sign, the word for
    not-a-number without one, and numbers. -/
theorem read_eq_ok_iff_signed :
    read t = .ok f ↔ ∃ sign ∈ signs, ∃ body, t = sign ++ body ∧
      (body.map Byte.lower ∈ infinityWords ∧ infinity sign = f ∨
        (body.map Byte.lower = utf8 "nan" ∧ sign = []) ∧ 0.0 / 0.0 = f ∨
        readUnsigned (sign = [ascii '-']) body = .ok f) := by
  constructor
  · intro h
    obtain ⟨sign, hsign, body, rfl, hbody⟩ := exists_sign t
    rw [read_signed hsign hbody] at h
    refine ⟨sign, hsign, body, rfl, ?_⟩
    split at h
    · rename_i hword
      exact .inl ⟨hword, Except.ok.inj h⟩
    · split at h
      · rename_i hword
        exact .inr (.inl ⟨hword, Except.ok.inj h⟩)
      · exact .inr (.inr h)
  · rintro ⟨sign, hsign, body, rfl, ⟨hword, rfl⟩ | ⟨⟨hword, rfl⟩, rfl⟩ | hread⟩
    · have hhead := isSign_head_of_lower body fun c hc => by
        rw [head_infinityWords _ hword] at hc
        cases hc
        decide
      rw [read_signed hsign fun _ => hhead, if_pos hword]
    · have hhead := isSign_head_of_lower body fun c hc => by
        rw [hword] at hc
        cases hc
        decide
      rw [read_signed hsign fun _ => hhead, if_neg, if_pos ⟨hword, rfl⟩]
      rw [hword]
      decide
    · -- A number does not begin like a word, so the reader gets past the words.
      obtain ⟨b, rest, rfl, hb⟩ := exists_cons_of_readUnsigned hread
      obtain ⟨hi, hn, hplain⟩ := start_apart hb
      have hinfinity : (b :: rest).map Byte.lower ∉ infinityWords :=
        fun hmem => hi (Option.some.inj (head_infinityWords _ hmem))
      have hnan : (b :: rest).map Byte.lower ≠ utf8 "nan" :=
        fun heq => hn (Option.some.inj (congrArg List.head? heq))
      rw [read_signed hsign fun _ c hc => by cases hc; exact hplain, if_neg hinfinity,
        if_neg fun h => hnan h.1, hread]

end Signed

end Decimal

/-! ## Numbers of a style sheet -/

namespace Text

open Decimal
open Lexer (isDigits_iff isSign isSign_eq_false_iff isSign_of_isDigit signs mem_signs_iff
  takeWhile_append_eq_iff)

theorem afterSign_signed {sign body : Text} (hsign : sign ∈ signs)
    (hbody : sign = [] → ∀ c ∈ body.head?, isSign c = false) : afterSign (sign ++ body) = body := by
  rcases mem_signs_iff.mp hsign with rfl | rfl | rfl
  · cases body with
    | nil => rfl
    | cons c rest =>
      have hplain := isSign_eq_false_iff.mp (hbody rfl c rfl)
      rw [List.nil_append, afterSign, if_neg]
      simp [hplain]
  · rfl
  · rfl

theorem isExponent_signed {b : UInt8} {sign ds : Text} (hsign : sign ∈ signs)
    (hds : sign = [] → ∀ c ∈ ds.head?, isSign c = false) :
    isExponent (b :: (sign ++ ds)) = true ↔ Byte.lower b = ascii 'e' ∧ IsDigits ds := by
  rw [isExponent, afterSign_signed hsign hds, isDigits_iff]
  simp [and_assoc]

theorem isExponent_iff {t : Text} :
    isExponent t = true ↔ t = [] ∨ ∃ e, IsScale Base.decimal.mark t e := by
  constructor
  · intro h
    cases t with
    | nil => exact .inl rfl
    | cons b rest =>
      obtain ⟨sign, hsign, ds, rfl, hds⟩ := exists_sign rest
      obtain ⟨hb, hdigits⟩ := (isExponent_signed hsign hds).mp h
      exact .inr ⟨_, .intro hb hsign hdigits⟩
  · rintro (rfl | ⟨e, @⟨b, sign, ds, hb, hsign, hdigits⟩⟩)
    · rfl
    · refine (isExponent_signed hsign fun _ c hc => ?_).mpr ⟨hb, hdigits⟩
      exact isSign_of_isDigit (hdigits.digit c (List.mem_of_mem_head? hc))

/-- An exponent, or nothing, behind digits. -/
theorem exists_spells {m whole fraction tail : Text} (hm : IsBody .decimal m whole fraction)
    (hsome : whole ++ fraction ≠ []) (htail : isExponent tail = true) :
    ∃ e, Base.decimal.Spells (m ++ tail) whole fraction e := by
  rcases isExponent_iff.mp htail with rfl | ⟨e, hscale⟩
  · rw [List.append_nil]
    exact ⟨0, .bare rfl hm hsome⟩
  · exact ⟨e, .scaled hm hsome hscale⟩

theorem exists_body_of_spells {u whole fraction : Text} {e : Int}
    (h : Base.decimal.Spells u whole fraction e) :
    ∃ m tail, u = m ++ tail ∧ IsBody .decimal m whole fraction ∧ whole ++ fraction ≠ [] ∧
      isExponent tail = true ∧ ∀ c ∈ tail.head?, Byte.isDigit c = false ∧ c ≠ ascii '.' := by
  cases h with
  | bare hmark hm hsome =>
    exact ⟨u, [], (List.append_nil u).symm, hm, hsome, rfl, fun c hc => by cases hc⟩
  | scaled hm hsome htail =>
    refine ⟨_, _, rfl, hm, hsome, isExponent_iff.mpr (.inr ⟨e, htail⟩), ?_⟩
    obtain ⟨hb, -, -⟩ := htail
    rintro _ ⟨⟩
    obtain ⟨hdigit, -, hpoint⟩ := Base.decimal.mark_apart _ hb
    exact ⟨hdigit, hpoint⟩

/-- Digits are cut off where they end. -/
theorem cut_digits {ds x : Text} (hds : ∀ b ∈ ds, Byte.isDigit b = true)
    (hx : ∀ c ∈ x.head?, Byte.isDigit c = false) :
    (ds ++ x).takeWhile Byte.isDigit = ds ∧ (ds ++ x).dropWhile Byte.isDigit = x := by
  have htake : (ds ++ x).takeWhile Byte.isDigit = ds := takeWhile_append_eq_iff.mpr ⟨hds, hx⟩
  have hcut := @List.takeWhile_append_dropWhile _ Byte.isDigit (ds ++ x)
  rw [htake] at hcut
  exact ⟨htake, List.append_cancel_left hcut⟩

/-- Behind its sign, a number of a style sheet is one in base ten. -/
theorem isNumber_iff_afterSign {t : Text} :
    isNumber t = true ↔ ∃ whole fraction e, Base.decimal.Spells (afterSign t) whole fraction e := by
  unfold isNumber
  generalize afterSign t = body
  dsimp only
  have hdigits (u : Text) : ∀ b ∈ u.takeWhile Byte.isDigit, Byte.isDigit b = true :=
    fun _ hb => List.mem_takeWhile_imp hb
  constructor
  · intro h
    rw [← @List.takeWhile_append_dropWhile _ Byte.isDigit body]
    have hwhole := hdigits body
    generalize body.takeWhile Byte.isDigit = whole at h hwhole ⊢
    generalize body.dropWhile Byte.isDigit = rest at h ⊢
    split at h
    · rename_i b rest
      split at h
      · rename_i hpoint
        obtain ⟨hsome, htail⟩ := Bool.and_eq_true_iff.mp h
        have hspells := exists_spells (.point hwhole (hdigits rest))
          (by simpa [or_iff_not_imp_left] using hsome) htail
        rw [List.append_assoc, List.cons_append, List.takeWhile_append_dropWhile, ← hpoint]
          at hspells
        exact ⟨_, _, hspells⟩
      · obtain ⟨hsome, htail⟩ := Bool.and_eq_true_iff.mp h
        exact ⟨_, _, exists_spells (.whole hwhole) (by simpa using hsome) htail⟩
    · exact ⟨_, _, exists_spells (.whole hwhole) (by simpa using h) rfl⟩
  · rintro ⟨whole, fraction, e, h⟩
    obtain ⟨m, tail, rfl, hm, hsome, htail, hends⟩ := exists_body_of_spells h
    cases hm with
    | whole hwhole =>
      obtain ⟨htake, hdrop⟩ := cut_digits hwhole fun c hc => (hends c hc).1
      rw [htake, hdrop]
      have hwritten : (!whole.isEmpty) = true := by simpa using hsome
      rw [hwritten]
      cases tail with
      | nil => rfl
      | cons b rest =>
        dsimp only
        rw [if_neg (hends b rfl).2]
        exact htail
    | point hwhole hfraction =>
      have hpoint (c : UInt8) (hc : c ∈ (ascii '.' :: (fraction ++ tail)).head?) :
          Byte.isDigit c = false := by
        cases hc
        decide
      obtain ⟨htake, hdrop⟩ := cut_digits hwhole hpoint
      obtain ⟨htake', hdrop'⟩ := cut_digits hfraction fun c hc => (hends c hc).1
      rw [List.append_assoc, List.cons_append, htake, hdrop]
      dsimp only
      rw [if_pos rfl, htake', hdrop', htail]
      simpa [or_iff_not_imp_left] using hsome

/-- A sign, and a number in base ten without underscores. -/
theorem isNumber_iff {t : Text} :
    isNumber t = true ↔ ∃ sign ∈ signs, ∃ body, t = sign ++ body ∧
      ∃ whole fraction e, Base.decimal.Spells body whole fraction e := by
  rw [isNumber_iff_afterSign]
  constructor
  · intro h
    obtain ⟨sign, hsign, body, rfl, hbody⟩ := exists_sign t
    rw [afterSign_signed hsign hbody] at h
    exact ⟨sign, hsign, body, rfl, h⟩
  · rintro ⟨sign, hsign, body, rfl, whole, fraction, e, h⟩
    obtain ⟨b, rest, rfl, hb⟩ := h.exists_cons
    rw [afterSign_signed hsign fun _ c hc => by cases hc; exact (start_apart hb).2.2]
    exact ⟨whole, fraction, e, h⟩

end Text

/-! ## The other forms -/

namespace Decimal

open Lexer (numberBytes signs)

/-- The forms of numbers that a style sheet does not know, each with what it is
    read as. -/
inductive OtherForm : Text → Float → Prop where
  | infinity {sign word : Text} (hsign : sign ∈ signs)
      (hword : word.map Byte.lower ∈ infinityWords) : OtherForm (sign ++ word) (infinity sign)
  | notANumber {word : Text} (hword : word.map Byte.lower = utf8 "nan") :
      OtherForm word (0.0 / 0.0)
  | hexadecimal {sign body whole fraction : Text} {x : UInt8} {e : Int} {f : Float}
      (hsign : sign ∈ signs) (hx : Byte.lower x = ascii 'x')
      (hgaps : GapsFit .hexadecimal true body)
      (hspells : Base.hexadecimal.Spells (ungapped body) whole fraction e)
      (hf : Base.hexadecimal.nearest (sign = [ascii '-']) whole fraction e = .ok f) :
      OtherForm (sign ++ ascii '0' :: x :: body) f
  | gapped {sign body whole fraction : Text} {e : Int} {f : Float} (hsign : sign ∈ signs)
      (hgap : ascii '_' ∈ body) (hgaps : GapsFit .decimal false body)
      (hspells : Base.decimal.Spells (ungapped body) whole fraction e)
      (hf : Base.decimal.nearest (sign = [ascii '-']) whole fraction e = .ok f) :
      OtherForm (sign ++ body) f

/-- A byte of the text is none of a style sheet's numbers. -/
theorem OtherForm.isNumber_eq_false {t : Text} {f : Float} (h : OtherForm t f) :
    t.isNumber = false := by
  have hforeign {b : UInt8} (hb : b ∈ t) (hnone : b ∉ numberBytes) : t.isNumber = false :=
    Bool.eq_false_iff.mpr fun hnumber => hnone (Text.mem_numberBytes_of_isNumber hnumber b hb)
  have hletter {w u : Text} {c : UInt8} (hw : w.map Byte.lower = u) (hc : c ∈ u)
      (hnone : c ∉ numberBytes.map Byte.lower) : ∃ b ∈ w, b ∉ numberBytes := by
    obtain ⟨b, hb, rfl⟩ := List.mem_map.mp (hw ▸ hc)
    exact ⟨b, hb, fun hmem => hnone (List.mem_map_of_mem hmem)⟩
  cases h with
  | infinity hsign hword =>
    have hn : ∀ u ∈ infinityWords, ascii 'n' ∈ u := by decide
    obtain ⟨b, hb, hnone⟩ := hletter rfl (hn _ hword) (by decide)
    exact hforeign (List.mem_append_right _ hb) hnone
  | notANumber hword =>
    obtain ⟨b, hb, hnone⟩ := hletter hword (List.mem_cons_self (a := ascii 'n')) (by decide)
    exact hforeign hb hnone
  | @hexadecimal _ body _ _ x _ _ hsign hx =>
    have hword : [x].map Byte.lower = [ascii 'x'] := by rw [List.map_singleton, hx]
    obtain ⟨b, hb, hnone⟩ := hletter hword List.mem_cons_self (by decide)
    cases List.mem_singleton.mp hb
    exact hforeign (List.mem_append_right _ (List.mem_cons_of_mem _ List.mem_cons_self)) hnone
  | gapped hsign hgap => exact hforeign (List.mem_append_right _ hgap) (by decide)

/-- What is read has the form of a style sheet's numbers or one of the others. -/
theorem read_eq_ok_iff {t : Text} {f : Float} :
    read t = .ok f ↔ (t.isNumber = true ∧ read t = .ok f) ∨ OtherForm t f := by
  constructor
  · intro h
    obtain ⟨sign, hsign, body, rfl, ⟨hword, rfl⟩ | ⟨⟨hword, rfl⟩, rfl⟩ | hread⟩ :=
      read_eq_ok_iff_signed.mp h
    · exact .inr (.infinity hsign hword)
    · exact .inr (.notANumber hword)
    · rcases readUnsigned_eq_ok_iff.mp hread with hdecimal | ⟨x, rest, hx, rfl, hhex⟩
      · obtain ⟨hgaps, whole, fraction, e, hspells, hf⟩ := Base.read_eq_ok_iff.mp hdecimal
        -- In base ten only underscores tell the reader's form from a style sheet's.
        by_cases hgap : ascii '_' ∈ body
        · exact .inr (.gapped hsign hgap hgaps hspells hf)
        · rw [ungapped_eq_self hgap] at hspells
          exact .inl ⟨Text.isNumber_iff.mpr ⟨sign, hsign, body, rfl, _, _, _, hspells⟩, h⟩
      · obtain ⟨hgaps, whole, fraction, e, hspells, hf⟩ := Base.read_eq_ok_iff.mp hhex
        exact .inr (.hexadecimal hsign hx hgaps hspells hf)
  · rintro (⟨-, h⟩ | h)
    · exact h
    refine read_eq_ok_iff_signed.mpr ?_
    cases h with
    | infinity hsign hword => exact ⟨_, hsign, _, rfl, .inl ⟨hword, rfl⟩⟩
    | notANumber hword => exact ⟨[], by decide, _, rfl, .inr (.inl ⟨⟨hword, rfl⟩, rfl⟩)⟩
    | hexadecimal hsign hx hgaps hspells hf =>
      have hread := Base.read_eq_ok_iff.mpr ⟨hgaps, _, _, _, hspells, hf⟩
      refine ⟨_, hsign, _, rfl, .inr (.inr ?_)⟩
      exact readUnsigned_eq_ok_iff.mpr (.inr ⟨_, _, hx, rfl, hread⟩)
    | gapped hsign hgap hgaps hspells hf =>
      have hread := Base.read_eq_ok_iff.mpr ⟨hgaps, _, _, _, hspells, hf⟩
      exact ⟨_, hsign, _, rfl, .inr (.inr (readUnsigned_eq_ok_iff.mpr (.inl hread)))⟩

end Decimal

end MixinCss
