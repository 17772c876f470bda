/-
  MixinCss.Proofs.Text.Lowered

  Small letters and trimming. Letters are made small character by character, also
  in text that is not well-formed: no byte starts or ends a character that it did
  not start or end before (`Text.runes_lowered`). White space is left as it is, so
  it does not matter whether a text is trimmed before its letters are made small
  (`Text.trim_lowered_trim`).
-/

import MixinCss.Color.Reader
import MixinCss.Proofs.Text.Wellformed

namespace MixinCss

/-! ## Characters that are kept -/

namespace Text

theorem runes_nil : runes [] = [] := by rw [runes]

theorem runes_of_stray {b : UInt8} {rest : Text} (h : Utf8.decode b rest = none) :
    runes (b :: rest) = ⟨replacementCode, [b]⟩ :: runes rest := by
  rw [runes, h]

theorem mem_runes_of_decode {b : UInt8} {rest : Text} {code n : Nat}
    (h : Utf8.decode b rest = some (code, n)) :
    (⟨code, b :: rest.take n⟩ : Rune) ∈ runes (b :: rest) := by
  rw [runes_of_decode h]
  exact List.mem_cons_self

/-- A character is one byte of ASCII, or it has no ASCII in it. -/
theorem ascii_or_wide {t : Text} {r : Rune} (hr : r ∈ t.runes) :
    (∃ b, b < 0x80 ∧ r = ⟨b.toNat, [b]⟩) ∨ ∀ b ∈ r.bytes, 0x80 ≤ b := by
  by_cases hascii : ∃ b ∈ r.bytes, b < 0x80
  · obtain ⟨b, hmem, hb⟩ := hascii
    exact .inl ⟨b, hb, bytes_of_ascii_mem hr hb hmem⟩
  · exact .inr fun b hmem => UInt8.not_lt.mp fun hb => hascii ⟨b, hmem, hb⟩

theorem ofRunes_append (front back : List Rune) :
    ofRunes (front ++ back) = ofRunes front ++ ofRunes back := List.flatMap_append

/-- Characters are found again when the text ends behind them. -/
theorem runes_front {t : Text} {front back : List Rune} (h : t.runes = front ++ back) :
    (ofRunes front).runes = front := by
  fun_induction runes t generalizing front with
  | case1 =>
    rw [(List.append_eq_nil_iff.mp h.symm).1]
    exact runes_nil
  | case2 b rest code n hdecode ih =>
    cases front with
    | nil => exact runes_nil
    | cons r front =>
      obtain ⟨rfl, hrest⟩ := List.cons.inj h
      have hn : (rest.take n).length = n :=
        List.length_take_of_le (Utf8.le_length_of_decode hdecode)
      have hfirst : Utf8.decode b (rest.take n ++ ofRunes front) = some (code, n) :=
        Utf8.decode_congr hdecode (List.take_left' hn)
      rw [ofRunes_cons, List.cons_append, runes_of_decode hfirst, List.take_left' hn,
        List.drop_left' hn, ih hrest]
  | case3 b rest hdecode ih =>
    cases front with
    | nil => exact runes_nil
    | cons r front =>
      obtain ⟨rfl, hrest⟩ := List.cons.inj h
      have hwhole : rest = ofRunes front ++ ofRunes back := by
        rw [← ofRunes_append, ← runes_flatMap_bytes rest]
        exact congrArg ofRunes hrest
      -- With less behind it the byte starts no character either.
      have hnone : Utf8.decode b (ofRunes front) = none := by
        rw [Option.eq_none_iff_forall_ne_some]
        rintro ⟨code, n⟩ hsome
        have hlong : Utf8.decode b rest = some (code, n) := by
          refine Utf8.decode_congr hsome ?_
          rw [hwhole, List.take_append_of_le_length (Utf8.le_length_of_decode hsome)]
        rw [hdecode] at hlong
        cases hlong
      rw [ofRunes_cons, List.singleton_append, runes_of_stray hnone, ih hrest]

/-- Characters are found again when the text begins with them. -/
theorem runes_back {t : Text} {front back : List Rune} (h : t.runes = front ++ back) :
    (ofRunes back).runes = back := by
  have hsuffix : ∃ u : Text, u.runes = back := by
    fun_induction runes t generalizing front with
    | case1 => exact ⟨[], by rw [runes_nil, (List.append_eq_nil_iff.mp h.symm).2]⟩
    | case2 b rest code n hdecode ih =>
      cases front with
      | nil => exact ⟨b :: rest, by rw [runes_of_decode hdecode]; exact h⟩
      | cons r front => exact ih (List.cons.inj h).2
    | case3 b rest hdecode ih =>
      cases front with
      | nil => exact ⟨b :: rest, by rw [runes_of_stray hdecode]; exact h⟩
      | cons r front => exact ih (List.cons.inj h).2
  obtain ⟨u, rfl⟩ := hsuffix
  rw [runes_flatMap_bytes]

/-- Trimming takes whole characters away, and what is left has the others. -/
theorem runes_trim_eq_kept (t : Text) : t.trim.runes = kept t.runes := by
  obtain ⟨lead, trail, -, heq⟩ := exists_eq_kept t.runes
  have hback := runes_back heq
  exact runes_front hback

theorem kept_eq_self {rs : List Rune} (hhead : ∀ r ∈ rs.head?, r.isSpace = false)
    (hlast : ∀ r ∈ rs.getLast?, r.isSpace = false) : kept rs = rs := by
  have hdrop {l : List Rune} (h : ∀ r ∈ l.head?, r.isSpace = false) :
      l.dropWhile Rune.isSpace = l := by
    cases l with
    | nil => rfl
    | cons r rest => exact List.dropWhile_cons_of_neg (by rw [h r rfl]; exact Bool.false_ne_true)
  rw [← List.head?_reverse] at hlast
  rw [kept, hdrop hhead, hdrop hlast, List.reverse_reverse]

theorem kept_kept (rs : List Rune) : kept (kept rs) = kept rs :=
  kept_eq_self (fun _ hr => kept_head hr) fun _ hr => kept_last hr

theorem dropWhile_map_isSpace {f : Rune → Rune} {rs : List Rune}
    (hf : ∀ r ∈ rs, (f r).isSpace = r.isSpace) :
    (rs.map f).dropWhile Rune.isSpace = (rs.dropWhile Rune.isSpace).map f := by
  induction rs with
  | nil => rfl
  | cons r rest ih =>
    obtain ⟨hr, hrest⟩ := List.forall_mem_cons.mp hf
    rw [List.map_cons, List.dropWhile_cons, List.dropWhile_cons, hr, ih hrest]
    split <;> rfl

theorem kept_map {f : Rune → Rune} {rs : List Rune}
    (hf : ∀ r ∈ rs, (f r).isSpace = r.isSpace) : kept (rs.map f) = (kept rs).map f := by
  have hfront : ∀ r ∈ (rs.dropWhile Rune.isSpace).reverse, (f r).isSpace = r.isSpace :=
    fun r hr => hf r ((List.dropWhile_suffix _).subset (List.mem_reverse.mp hr))
  rw [kept, dropWhile_map_isSpace hf, ← List.map_reverse, dropWhile_map_isSpace hfront,
    ← List.map_reverse]
  rfl

end Text

/-! ## Small letters -/

namespace Byte

theorem isUpper_iff {b : UInt8} : isUpper b = true ↔ 0x41 ≤ b.toNat ∧ b.toNat ≤ 0x5a := by
  simp [isUpper, UInt8.le_iff_toNat_le]

theorem lower_of_le {b : UInt8} (hb : 0x80 ≤ b) : lower b = b := by
  rw [UInt8.le_iff_toNat_le] at hb
  refine if_neg fun hupper => ?_
  have hhigh := (isUpper_iff.mp hupper).2
  exact absurd (Nat.le_trans hb hhigh) (by decide)

theorem toNat_lower {b : UInt8} (h : isUpper b = true) : (lower b).toNat = b.toNat + 0x20 := by
  have hhigh := (isUpper_iff.mp h).2
  rw [lower, if_pos h, UInt8.toNat_add]
  exact Nat.mod_eq_of_lt (by simp; omega)

theorem lower_lt {b : UInt8} (hb : b < 0x80) : lower b < 0x80 := by
  by_cases h : isUpper b = true
  · have hhigh := (isUpper_iff.mp h).2
    rw [UInt8.lt_iff_toNat_lt, toNat_lower h]
    simp
    omega
  · rwa [lower, if_neg h]

theorem lower_lower (b : UInt8) : lower (lower b) = lower b := by
  by_cases h : isUpper b = true
  · have hnot : isUpper (lower b) ≠ true := by
      rw [ne_eq, isUpper_iff, toNat_lower h]
      have hlow := (isUpper_iff.mp h).1
      omega
    rw [lower, if_neg hnot]
  · have hself : lower b = b := if_neg h
    rw [hself, hself]

/-- Small letters are no white space, and neither are capitals. -/
theorem isSpaceCode_lower {b : UInt8} : isSpaceCode (lower b).toNat = isSpaceCode b.toNat := by
  by_cases h : isUpper b = true
  · have hletter : ∀ c : Nat, 0x41 ≤ c → c ≤ 0x7a → isSpaceCode c = false := by
      intro c hlow hhigh
      simp [isSpaceCode]
      omega
    obtain ⟨hlow, hhigh⟩ := isUpper_iff.mp h
    rw [toNat_lower h, hletter _ (by omega) (by omega), hletter _ hlow (by omega)]
  · rw [lower, if_neg h]

end Byte

namespace Rune

/-- A character in its small form. -/
def lowered (r : Rune) : Rune :=
  if r.code = 0x130 then ⟨0x69, [ascii 'i']⟩
  else if r.code = 0x212A then ⟨0x6B, [ascii 'k']⟩
  else
    match r.bytes with
    | [b] => if b < 0x80 then ⟨(Byte.lower b).toNat, [Byte.lower b]⟩ else r
    | _ => r

theorem lowered_of_ascii {b : UInt8} (hb : b < 0x80) :
    lowered ⟨b.toNat, [b]⟩ = ⟨(Byte.lower b).toNat, [Byte.lower b]⟩ := by
  have hcode : b.toNat < 0x80 := UInt8.lt_iff_toNat_lt.mp hb
  unfold lowered
  rw [if_neg (by dsimp only; omega), if_neg (by dsimp only; omega)]
  exact if_pos hb

theorem lowered_of_wide {r : Rune} (hi : r.code ≠ 0x130) (hk : r.code ≠ 0x212A)
    (h : ∀ b ∈ r.bytes, 0x80 ≤ b) : r.lowered = r := by
  unfold lowered
  rw [if_neg hi, if_neg hk]
  split
  · rename_i b hbytes
    refine if_neg (UInt8.not_lt.mpr (h b ?_))
    rw [hbytes]
    exact List.mem_singleton_self b
  · rfl

/-- The small form of a character of a text is a small byte of ASCII, or the
    character itself if it has no ASCII in it. White space stays white space. -/
theorem lowered_cases {t : Text} {r : Rune} (hr : r ∈ t.runes) :
    (∃ c, c < 0x80 ∧ Byte.lower c = c ∧ isSpaceCode c.toNat = r.isSpace ∧
      r.lowered = ⟨c.toNat, [c]⟩) ∨
    r.lowered = r ∧ ∀ b ∈ r.bytes, 0x80 ≤ b := by
  by_cases hi : r.code = 0x130
  · refine .inl ⟨ascii 'i', by decide, by decide, ?_, if_pos hi⟩
    rw [isSpace, hi]
    decide
  by_cases hk : r.code = 0x212A
  · refine .inl ⟨ascii 'k', by decide, by decide, ?_, (if_neg hi).trans (if_pos hk)⟩
    rw [isSpace, hk]
    decide
  rcases Text.ascii_or_wide hr with ⟨b, hb, rfl⟩ | hwide
  · rw [lowered_of_ascii hb]
    exact .inl ⟨Byte.lower b, Byte.lower_lt hb, Byte.lower_lower b, Byte.isSpaceCode_lower, rfl⟩
  · exact .inr ⟨lowered_of_wide hi hk hwide, hwide⟩

theorem lowered_lowered {t : Text} {r : Rune} (hr : r ∈ t.runes) :
    r.lowered.lowered = r.lowered := by
  rcases lowered_cases hr with ⟨c, hc, hself, -, hlowered⟩ | ⟨hlowered, -⟩
  · rw [hlowered, lowered_of_ascii hc, hself]
  · rw [hlowered, hlowered]

theorem isSpace_lowered {t : Text} {r : Rune} (hr : r ∈ t.runes) :
    r.lowered.isSpace = r.isSpace := by
  rcases lowered_cases hr with ⟨c, -, -, hspace, hlowered⟩ | ⟨hlowered, -⟩
  · rw [hlowered]
    exact hspace
  · rw [hlowered]

end Rune

namespace Text

/-- Letters are made small character by character. -/
theorem lowered_eq (t : Text) : t.lowered = ofRunes (t.runes.map Rune.lowered) := by
  rw [lowered, ofRunes, List.flatMap_map]
  refine List.flatMap_congr fun r hr => ?_
  by_cases hi : r.code = 0x130
  · rw [if_pos hi, Rune.lowered, if_pos hi]
  by_cases hk : r.code = 0x212A
  · rw [if_neg hi, if_pos hk, Rune.lowered, if_neg hi, if_pos hk]
  rw [if_neg hi, if_neg hk]
  rcases ascii_or_wide hr with ⟨b, hb, rfl⟩ | hwide
  · rw [Rune.lowered_of_ascii hb]
    rfl
  · rw [Rune.lowered_of_wide hi hk hwide]
    exact (List.map_congr_left fun b hb => Byte.lower_of_le (hwide b hb)).trans (List.map_id' _)

/-- The first byte of a character is no continuation byte. -/
theorem isContinuation_of_decode {b : UInt8} {rest : Text} {code n : Nat}
    (h : Utf8.decode b rest = some (code, n)) : Utf8.isContinuation b = false := by
  refine Bool.eq_false_iff.mpr fun hb => ?_
  obtain ⟨hlow, hhigh⟩ := Utf8.between_iff.mp hb
  have habove {low high : UInt8} (hfirst : Utf8.between low high b = true) (hlow : 0xBF < low) :
      False := UInt8.not_le.mpr hlow (UInt8.le_trans (Utf8.between_iff.mp hfirst).1 hhigh)
  obtain ⟨tail, more, -, -, hspelling⟩ := Utf8.exists_spelling h
  cases hspelling with
  | one hb => exact UInt8.not_le.mpr hb hlow
  | two hb => exact habove hb (by decide)
  | three hb => exact habove hb (by decide)
  | four hb => exact habove hb (by decide)

theorem isContinuation_of_mem_take {b : UInt8} {rest : Text} {code n : Nat}
    (h : Utf8.decode b rest = some (code, n)) :
    ∀ c ∈ rest.take n, Utf8.isContinuation c = true := by
  obtain ⟨tail, more, rfl, rfl, hspelling⟩ := Utf8.exists_spelling h
  rw [List.take_left]
  cases hspelling with
  | one hb => exact List.forall_mem_nil _
  | two hb hc => exact List.forall_mem_singleton.mpr hc
  | three hb hc hd => exact List.forall_mem_cons.mpr ⟨hc, List.forall_mem_singleton.mpr hd⟩
  | four hb hc hd he =>
    exact List.forall_mem_cons.mpr
      ⟨hc, List.forall_mem_cons.mpr ⟨hd, List.forall_mem_singleton.mpr he⟩⟩

theorem le_of_stray {b : UInt8} {rest : Text} (h : Utf8.decode b rest = none) : 0x80 ≤ b := by
  rw [← UInt8.not_lt]
  intro hb
  rw [Utf8.decode_of_ascii hb] at h
  cases h

/-- A byte that is no part of a character has no small form. -/
theorem lowered_of_stray {b : UInt8} {rest : Text} (h : Utf8.decode b rest = none) :
    Rune.lowered ⟨replacementCode, [b]⟩ = ⟨replacementCode, [b]⟩ := by
  have hi : replacementCode ≠ 0x130 := by decide
  have hk : replacementCode ≠ 0x212A := by decide
  exact Rune.lowered_of_wide hi hk (List.forall_mem_singleton.mpr (le_of_stray h))

/-- Continuation bytes at the front of small letters stood there before: characters
    begin with other bytes, in their small form too. -/
theorem take_lowered {n : Nat} {t : Text}
    (h : ∀ c ∈ (ofRunes (t.runes.map Rune.lowered)).take n, Utf8.isContinuation c = true) :
    t.take n = (ofRunes (t.runes.map Rune.lowered)).take n := by
  induction n generalizing t with
  | zero => rfl
  | succ n ih =>
    cases t with
    | nil =>
      rw [runes_nil]
      rfl
    | cons b rest =>
      cases hdecode : Utf8.decode b rest with
      | some found =>
        obtain ⟨code, k⟩ := found
        rw [runes_of_decode hdecode, List.map_cons, ofRunes_cons] at h
        rcases Rune.lowered_cases (mem_runes_of_decode hdecode) with
          ⟨c, hc, -, -, hlowered⟩ | ⟨hlowered, -⟩
        · rw [hlowered] at h
          have hlow := (Utf8.between_iff.mp (h c List.mem_cons_self)).1
          exact absurd hlow (UInt8.not_le.mpr hc)
        · rw [hlowered] at h
          have hb := h b List.mem_cons_self
          rw [isContinuation_of_decode hdecode] at hb
          cases hb
      | none =>
        rw [runes_of_stray hdecode, List.map_cons, ofRunes_cons, lowered_of_stray hdecode,
          List.singleton_append, List.take_succ_cons] at h ⊢
        rw [List.take_succ_cons, ih fun c hc => h c (List.mem_cons_of_mem _ hc)]

theorem runes_lowered (t : Text) : t.lowered.runes = t.runes.map Rune.lowered := by
  rw [lowered_eq]
  have hascii {c : UInt8} (hc : c < 0x80) (x : Text) :
      runes ((⟨c.toNat, [c]⟩ : Rune).bytes ++ x) = ⟨c.toNat, [c]⟩ :: runes x := runes_of_ascii hc x
  fun_induction runes t with
  | case1 => exact runes_nil
  | case2 b rest code n hdecode ih =>
    rw [List.map_cons, ofRunes_cons]
    rcases Rune.lowered_cases (mem_runes_of_decode hdecode) with
      ⟨c, hc, -, -, hlowered⟩ | ⟨hlowered, -⟩
    · rw [hlowered, hascii hc, ih]
    · have hn : (rest.take n).length = n :=
        List.length_take_of_le (Utf8.le_length_of_decode hdecode)
      have hagain : Utf8.decode b (rest.take n ++
          ofRunes ((runes (rest.drop n)).map Rune.lowered)) = some (code, n) :=
        Utf8.decode_congr hdecode (List.take_left' hn)
      rw [hlowered, List.cons_append, runes_of_decode hagain, List.take_left' hn,
        List.drop_left' hn, ih]
  | case3 b rest hdecode ih =>
    -- The byte would have to take continuation bytes from behind it, and there are none new.
    have hnone : Utf8.decode b (ofRunes ((runes rest).map Rune.lowered)) = none := by
      rw [Option.eq_none_iff_forall_ne_some]
      rintro ⟨code, n⟩ hsome
      have hsame := take_lowered (isContinuation_of_mem_take hsome)
      rw [Utf8.decode_congr hsome hsame] at hdecode
      cases hdecode
    rw [List.map_cons, ofRunes_cons, lowered_of_stray hdecode, List.singleton_append,
      runes_of_stray hnone, ih]

theorem lowered_lowered (t : Text) : t.lowered.lowered = t.lowered := by
  have htwice : ∀ r ∈ t.runes, (Rune.lowered ∘ Rune.lowered) r = r.lowered :=
    fun r hr => Rune.lowered_lowered hr
  rw [lowered_eq t.lowered, runes_lowered, List.map_map, List.map_congr_left htwice, ← lowered_eq]

/-- It does not matter whether a text is trimmed before its letters are made
    small. -/
theorem trim_lowered_trim (t : Text) : t.trim.lowered.trim = t.lowered.trim := by
  have hspace : ∀ r ∈ t.runes, r.lowered.isSpace = r.isSpace :=
    fun r hr => Rune.isSpace_lowered hr
  have hspace' : ∀ r ∈ kept t.runes, r.lowered.isSpace = r.isSpace := by
    rw [← runes_trim_eq_kept]
    exact fun r hr => Rune.isSpace_lowered hr
  show ofRunes (kept t.trim.lowered.runes) = ofRunes (kept t.lowered.runes)
  rw [runes_lowered, runes_lowered, runes_trim_eq_kept, kept_map hspace', kept_map hspace,
    kept_kept]

end Text

end MixinCss
