/-
  MixinCss.Proofs.Text.Wellformed

  Well-formed text. Its characters begin anew behind every one of them, so it can
  be cut and put together again between any two characters, and not only beside
  ASCII (`Text.runes_append_of_isUtf8`). Trimming leaves whole characters, and a
  byte of ASCII can be replaced by a text, character for character
  (`Text.runes_replaceByte`).
-/

import Mathlib.Data.List.Basic
import Mathlib.Data.List.Induction
import MixinCss.Proofs.Text.Runes

namespace MixinCss

namespace Text

/-! ## Characters -/

theorem isUtf8_iff {t : Text} : t.isUtf8 = true ↔ ∀ r ∈ t.runes, r.isStray = false := by
  simp [isUtf8]

theorem isStray_of_decode_eq_none {b : UInt8} {rest : Text} (h : Utf8.decode b rest = none) :
    Rune.isStray ⟨replacementCode, [b]⟩ = true := by
  refine decide_eq_true (UInt8.not_lt.mp fun hb => ?_)
  rw [Utf8.decode_of_ascii hb] at h
  cases h

/-- Behind well-formed text, characters begin anew. -/
theorem runes_append_of_isUtf8 {pre : Text} (h : pre.isUtf8 = true) (suf : Text) :
    (pre ++ suf).runes = pre.runes ++ suf.runes := by
  rw [isUtf8_iff] at h
  fun_induction runes pre with
  | case1 => rfl
  | case2 b rest code n hdecode ih =>
    have hn := Utf8.le_length_of_decode hdecode
    have hmore : Utf8.decode b (rest ++ suf) = some (code, n) :=
      Utf8.decode_congr hdecode (List.take_append_of_le_length hn)
    rw [List.cons_append, runes, hmore]
    simp only [List.take_append_of_le_length hn, List.drop_append_of_le_length hn,
      ih fun r hr => h r (List.mem_cons_of_mem _ hr), List.cons_append]
  | case3 b rest hdecode ih =>
    have hstray := h _ List.mem_cons_self
    rw [isStray_of_decode_eq_none hdecode] at hstray
    cases hstray

/-- A character is read as itself where it stands alone. -/
theorem runes_bytes {t : Text} {r : Rune} (hr : r ∈ t.runes) (hstray : r.isStray = false) :
    r.bytes.runes = [r] := by
  fun_induction runes t with
  | case1 => cases hr
  | case2 b rest code n hdecode ih =>
    rcases List.mem_cons.mp hr with rfl | hr
    · have hown : Utf8.decode b (rest.take n) = some (code, n) :=
        Utf8.decode_congr hdecode (by rw [List.take_take, Nat.min_self])
      rw [runes_of_decode hown, List.take_take, Nat.min_self, List.drop_take_self, runes]
    · exact ih hr
  | case3 b rest hdecode ih =>
    rcases List.mem_cons.mp hr with rfl | hr
    · rw [isStray_of_decode_eq_none hdecode] at hstray
      cases hstray
    · exact ih hr

/-- Inside of a longer character there is no ASCII. -/
theorem bytes_of_ascii_mem {t : Text} {r : Rune} (hr : r ∈ t.runes) {b : UInt8} (hb : b < 0x80)
    (hmem : b ∈ r.bytes) : r = ⟨b.toNat, [b]⟩ := by
  fun_induction runes t with
  | case1 => cases hr
  | case2 c rest code n hdecode ih =>
    rcases List.mem_cons.mp hr with rfl | hr
    · rcases List.mem_cons.mp hmem with rfl | hmem
      · rw [Utf8.decode_of_ascii hb] at hdecode
        cases hdecode
        rfl
      · exact absurd (Utf8.le_of_mem_tail hdecode hmem) (UInt8.not_le.mpr hb)
    · exact ih hr
  | case3 c rest hdecode ih =>
    rcases List.mem_cons.mp hr with rfl | hr
    · obtain rfl := List.mem_singleton.mp hmem
      rw [Utf8.decode_of_ascii hb] at hdecode
      cases hdecode
    · exact ih hr

/-- Characters of well-formed text. -/
def Whole (rs : List Rune) : Prop := ∀ r ∈ rs, r.isStray = false ∧ r.bytes.runes = [r]

theorem whole_runes {t : Text} (h : t.isUtf8 = true) : Whole t.runes := by
  intro r hr
  have hstray := isUtf8_iff.mp h r hr
  exact ⟨hstray, runes_bytes hr hstray⟩

theorem ofRunes_cons (r : Rune) (rest : List Rune) :
    ofRunes (r :: rest) = r.bytes ++ ofRunes rest :=
  List.flatMap_cons

theorem runes_ofRunes {rs : List Rune} (h : Whole rs) : (ofRunes rs).runes = rs := by
  induction rs with
  | nil => rw [ofRunes, List.flatMap_nil, runes]
  | cons r rest ih =>
    obtain ⟨⟨hstray, hbytes⟩, hrest⟩ := List.forall_mem_cons.mp h
    have hutf8 : r.bytes.isUtf8 = true := by
      rw [isUtf8_iff, hbytes]
      exact List.forall_mem_singleton.mpr hstray
    rw [ofRunes_cons, runes_append_of_isUtf8 hutf8, hbytes, ih hrest, List.singleton_append]

theorem isUtf8_ofRunes {rs : List Rune} (h : Whole rs) : (ofRunes rs).isUtf8 = true := by
  rw [isUtf8_iff, runes_ofRunes h]
  exact fun r hr => (h r hr).1

theorem runes_ne_nil {t : Text} (h : t ≠ []) : t.runes ≠ [] := by
  intro hrunes
  rw [← runes_flatMap_bytes t, hrunes] at h
  exact h rfl

/-! ## Trimming -/

/-- The characters that trimming leaves. -/
def kept (rs : List Rune) : List Rune :=
  ((rs.dropWhile Rune.isSpace).reverse.dropWhile Rune.isSpace).reverse

/-- Trimming takes white space away at both ends. -/
theorem exists_eq_kept (rs : List Rune) :
    ∃ lead trail, (∀ r ∈ lead ++ trail, r.isSpace = true) ∧ rs = lead ++ (kept rs ++ trail) := by
  refine ⟨rs.takeWhile Rune.isSpace,
    ((rs.dropWhile Rune.isSpace).reverse.takeWhile Rune.isSpace).reverse, ?_, ?_⟩
  · rw [List.forall_mem_append]
    refine ⟨fun r hr => List.mem_takeWhile_imp hr, fun r hr => ?_⟩
    exact List.mem_takeWhile_imp (List.mem_reverse.mp hr)
  · rw [kept, ← List.reverse_append, List.takeWhile_append_dropWhile, List.reverse_reverse,
      List.takeWhile_append_dropWhile]

theorem kept_head {rs : List Rune} {r : Rune} (h : r ∈ (kept rs).head?) : r.isSpace = false := by
  -- What is kept begins where the white space in front ends.
  have hfront : kept rs <+: rs.dropWhile Rune.isSpace := by
    rw [← List.reverse_suffix, kept, List.reverse_reverse]
    exact List.dropWhile_suffix _
  have hhead : r ∈ (rs.dropWhile Rune.isSpace).head? := by
    obtain ⟨more, hmore⟩ := hfront
    rw [← hmore, List.head?_append, Option.mem_def.mp h]
    rfl
  have hnot := List.head?_dropWhile_not Rune.isSpace rs
  rw [Option.mem_def.mp hhead] at hnot
  simpa using hnot

theorem kept_last {rs : List Rune} {r : Rune} (h : r ∈ (kept rs).getLast?) :
    r.isSpace = false := by
  rw [kept, List.getLast?_reverse] at h
  have hnot := List.head?_dropWhile_not Rune.isSpace (rs.dropWhile Rune.isSpace).reverse
  rw [Option.mem_def.mp h] at hnot
  simpa using hnot

theorem Whole.kept {rs : List Rune} (h : Whole rs) : Whole (kept rs) := by
  obtain ⟨lead, trail, -, heq⟩ := exists_eq_kept rs
  intro r hr
  refine h r ?_
  rw [heq]
  exact List.mem_append_right _ (List.mem_append_left _ hr)

theorem runes_trim {t : Text} (h : t.isUtf8 = true) : t.trim.runes = kept t.runes :=
  runes_ofRunes (whole_runes h).kept

theorem isUtf8_trim {t : Text} (h : t.isUtf8 = true) : t.trim.isUtf8 = true :=
  isUtf8_ofRunes (whole_runes h).kept

theorem trimmed_trim {t : Text} (h : t.isUtf8 = true) : t.trim.Trimmed := by
  rw [Trimmed, runes_trim h]
  exact ⟨fun r hr => kept_head hr, fun r hr => kept_last hr⟩

/-- A text is white space, the trimmed text and white space. -/
theorem exists_eq_trim (t : Text) :
    ∃ lead trail, (∀ b ∈ lead ++ trail, 0x80 ≤ b ∨ isSpaceCode b.toNat = true) ∧
      t = lead ++ (t.trim ++ trail) := by
  obtain ⟨lead, trail, hspace, heq⟩ := exists_eq_kept t.runes
  refine ⟨ofRunes lead, ofRunes trail, fun b hb => ?_, ?_⟩
  · obtain ⟨r, hr, hmem⟩ : ∃ r ∈ lead ++ trail, b ∈ r.bytes := by
      rw [← List.mem_flatMap, List.flatMap_append]
      exact hb
    have hrune : r ∈ t.runes := by
      rw [heq]
      rcases List.mem_append.mp hr with hr | hr
      · exact List.mem_append_left _ hr
      · exact List.mem_append_right _ (List.mem_append_right _ hr)
    rw [or_iff_not_imp_left, UInt8.not_le]
    intro hascii
    have hcode := hspace r hr
    rw [bytes_of_ascii_mem hrune hascii hmem] at hcode
    exact hcode
  · calc t = ofRunes (lead ++ (kept t.runes ++ trail)) := by rw [← heq, runes_flatMap_bytes]
      _ = ofRunes lead ++ (t.trim ++ ofRunes trail) := by
        rw [ofRunes, List.flatMap_append, List.flatMap_append]
        rfl

/-! ## Replacing a byte of ASCII -/

section Replace

variable {t p : Text} {b : UInt8}

theorem replaceByte_cons (c : UInt8) (rest : Text) (b : UInt8) (p : Text) :
    replaceByte (c :: rest) b p = (if c = b then p else [c]) ++ replaceByte rest b p :=
  List.flatMap_cons

theorem replaceByte_append (x y : Text) (b : UInt8) (p : Text) :
    (x ++ y).replaceByte b p = x.replaceByte b p ++ y.replaceByte b p :=
  List.flatMap_append

theorem replaceByte_of_not_mem (h : b ∉ t) (p : Text) : t.replaceByte b p = t := by
  induction t with
  | nil => rfl
  | cons c rest ih =>
    rw [List.mem_cons, not_or] at h
    rw [replaceByte_cons, if_neg (Ne.symm h.1), ih h.2, List.singleton_append]

/-- A character of the text gives its own character, or those of what is put for
    it. -/
theorem runes_replaceByte (hb : b < 0x80) (ht : t.isUtf8 = true) (hp : p.isUtf8 = true) :
    (t.replaceByte b p).runes = t.runes.flatMap fun r => if r.bytes = [b] then p.runes else [r] := by
  have hwhole := whole_runes ht
  have hascii : ∀ r ∈ t.runes, b ∈ r.bytes → r.bytes = [b] :=
    fun r hr hmem => by rw [bytes_of_ascii_mem hr hb hmem]
  have hbytes := runes_flatMap_bytes t
  generalize t.runes = rs at hwhole hascii hbytes ⊢
  subst hbytes
  clear ht
  induction rs with
  | nil => rw [ofRunes, List.flatMap_nil, List.flatMap_nil, replaceByte, List.flatMap_nil, runes]
  | cons r rest ih =>
    obtain ⟨⟨hstray, hbytes⟩, hrest⟩ := List.forall_mem_cons.mp hwhole
    rw [List.forall_mem_cons] at hascii
    rw [ofRunes_cons, replaceByte_append, List.flatMap_cons]
    split
    · rename_i hmark
      have hput : r.bytes.replaceByte b p = p := by
        rw [hmark, replaceByte, List.flatMap_singleton, if_pos rfl]
      rw [hput, runes_append_of_isUtf8 hp, ih hrest hascii.2]
    · rename_i hmark
      have hutf8 : r.bytes.isUtf8 = true := by
        rw [isUtf8_iff, hbytes]
        exact List.forall_mem_singleton.mpr hstray
      rw [replaceByte_of_not_mem (fun hmem => hmark (hascii.1 hmem)), runes_append_of_isUtf8 hutf8,
        hbytes, ih hrest hascii.2]

theorem isUtf8_replaceByte (hb : b < 0x80) (ht : t.isUtf8 = true) (hp : p.isUtf8 = true) :
    (t.replaceByte b p).isUtf8 = true := by
  rw [isUtf8_iff] at *
  rw [runes_replaceByte hb (isUtf8_iff.mpr ht) (isUtf8_iff.mpr hp)]
  intro r hr
  obtain ⟨s, hs, hmem⟩ := List.mem_flatMap.mp hr
  split at hmem
  · exact hp r hmem
  · rw [List.mem_singleton.mp hmem]
    exact ht s hs

/-- White space does not come to the ends of a trimmed text if what is put into
    it is trimmed and not empty. -/
theorem trimmed_replaceByte (hb : b < 0x80) (ht : t.isUtf8 = true) (hp : p.isUtf8 = true)
    (htrim : t.Trimmed) (hptrim : p.Trimmed) (hne : p ≠ []) : (t.replaceByte b p).Trimmed := by
  rw [Trimmed, runes_replaceByte hb ht hp]
  have hpne := runes_ne_nil hne
  obtain ⟨hfirst, hlast⟩ := htrim
  generalize t.runes = rs at hfirst hlast
  constructor
  · -- The first character is that of the text, or the first of what is put for it.
    cases rs with
    | nil => exact hfirst
    | cons r rest =>
      rw [List.flatMap_cons]
      split
      · rw [List.head?_append_of_ne_nil _ hpne]
        exact hptrim.1
      · exact hfirst
  · induction rs using List.reverseRecOn with
    | nil => exact hlast
    | append_singleton rest r _ =>
      rw [List.flatMap_append, List.flatMap_singleton]
      split
      · rw [List.getLast?_append_of_ne_nil _ hpne]
        exact hptrim.2
      · rw [List.getLast?_concat] at hlast ⊢
        exact hlast

end Replace

end Text

end MixinCss
