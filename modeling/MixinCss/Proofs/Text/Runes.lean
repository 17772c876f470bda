/-
  MixinCss.Proofs.Text.Runes

  Where characters begin and end in byte text. A character depends on its own
  bytes only, and a byte of ASCII is never part of a longer one. So a text can
  be cut at every place that has ASCII on one of its sides, and the characters
  of the whole are those of the two parts (`Text.runes_append`).
-/

import Mathlib.Data.List.TakeWhile
import Mathlib.Tactic.SplitIfs
import MixinCss.Text.Space

namespace MixinCss

/-! ## Single characters -/

namespace Utf8

theorem decode_of_ascii {b : UInt8} (hb : b < 0x80) (rest : Text) :
    decode b rest = some (b.toNat, 0) := by
  unfold decode
  rw [if_pos hb]

/-- The bytes behind the first byte `b` of a character, and its code point. -/
inductive Spelling (b : UInt8) : Text → Nat → Prop where
  | one (hb : b < 0x80) : Spelling b [] b.toNat
  | two {c : UInt8} (hb : between 0xC2 0xDF b) (hc : isContinuation c) :
      Spelling b [c] (extend (b.toNat - 0xC0) c)
  | three {c d : UInt8} (hb : between 0xE0 0xEF b) (hc : isContinuation c)
      (hd : isContinuation d) : Spelling b [c, d] (extend (extend (b.toNat - 0xE0) c) d)
  | four {c d e : UInt8} (hb : between 0xF0 0xF4 b) (hc : isContinuation c)
      (hd : isContinuation d) (he : isContinuation e) :
      Spelling b [c, d, e] (extend (extend (extend (b.toNat - 0xF0) c) d) e)

theorem between_iff {low high b : UInt8} : between low high b = true ↔ low ≤ b ∧ b ≤ high := by
  rw [between, Bool.and_eq_true, decide_eq_true_eq, decide_eq_true_eq]

/-- What the first byte of a character says about the bytes behind it. -/
theorem shape_cases {b low high : UInt8} {n : Nat} (h : shape b = some (low, high, n)) :
    0x80 ≤ low ∧ high ≤ 0xBF ∧
      (n = 1 ∧ between 0xC2 0xDF b ∨ n = 2 ∧ between 0xE0 0xEF b ∨
        n = 3 ∧ between 0xF0 0xF4 b) := by
  have hwide : ∀ {low high low' high' : UInt8}, between low high b = true → low' ≤ low →
      high ≤ high' → between low' high' b = true := by
    intro low high low' high' hb hlow hhigh
    rw [between_iff] at hb ⊢
    exact ⟨UInt8.le_trans hlow hb.1, UInt8.le_trans hb.2 hhigh⟩
  unfold shape at h
  split_ifs at h with h1 h2 h3 h4 h5 h6 h7 <;> cases h
  · exact ⟨by decide, by decide, .inl ⟨rfl, h1⟩⟩
  · exact ⟨by decide, by decide, .inr (.inl ⟨rfl, by rw [h2]; decide⟩)⟩
  · exact ⟨by decide, by decide, .inr (.inl ⟨rfl, by rw [h3]; decide⟩)⟩
  · exact ⟨by decide, by decide, .inr (.inl ⟨rfl, hwide h4 (by decide) (by decide)⟩)⟩
  · exact ⟨by decide, by decide, .inr (.inr ⟨rfl, by rw [h5]; decide⟩)⟩
  · exact ⟨by decide, by decide, .inr (.inr ⟨rfl, by rw [h6]; decide⟩)⟩
  · exact ⟨by decide, by decide, .inr (.inr ⟨rfl, hwide h7 (by decide) (by decide)⟩)⟩

/-- A character is found at the front of what follows its first byte. -/
theorem exists_spelling {b : UInt8} {rest : Text} {code n : Nat}
    (h : decode b rest = some (code, n)) :
    ∃ tail more, rest = tail ++ more ∧ tail.length = n ∧ Spelling b tail code := by
  have hsecond : ∀ {low high c : UInt8}, 0x80 ≤ low → high ≤ 0xBF → between low high c = true →
      isContinuation c = true := by
    intro low high c hlow hhigh hc
    rw [between_iff] at hc
    exact between_iff.mpr ⟨UInt8.le_trans hlow hc.1, UInt8.le_trans hc.2 hhigh⟩
  unfold decode at h
  split at h
  · rename_i hb
    obtain ⟨rfl, rfl⟩ := Prod.mk.inj (Option.some.inj h)
    exact ⟨[], rest, rfl, rfl, .one hb⟩
  split at h
  · rename_i low high c more hshape
    obtain ⟨hlow, hhigh, hcases⟩ := shape_cases hshape
    obtain ⟨hc, h⟩ := Option.ite_none_right_eq_some.mp h
    obtain ⟨rfl, rfl⟩ := Prod.mk.inj (Option.some.inj h)
    have hb : between 0xC2 0xDF b = true := by simpa using hcases
    exact ⟨[c], more, rfl, rfl, .two hb (hsecond hlow hhigh hc)⟩
  · rename_i low high c d more hshape
    obtain ⟨hlow, hhigh, hcases⟩ := shape_cases hshape
    obtain ⟨hmore, h⟩ := Option.ite_none_right_eq_some.mp h
    obtain ⟨rfl, rfl⟩ := Prod.mk.inj (Option.some.inj h)
    obtain ⟨hc, hd⟩ := Bool.and_eq_true_iff.mp hmore
    have hb : between 0xE0 0xEF b = true := by simpa using hcases
    exact ⟨[c, d], more, rfl, rfl, .three hb (hsecond hlow hhigh hc) hd⟩
  · rename_i low high c d e more hshape
    obtain ⟨hlow, hhigh, hcases⟩ := shape_cases hshape
    obtain ⟨hmore, h⟩ := Option.ite_none_right_eq_some.mp h
    obtain ⟨rfl, rfl⟩ := Prod.mk.inj (Option.some.inj h)
    obtain ⟨hmore, he⟩ := Bool.and_eq_true_iff.mp hmore
    obtain ⟨hc, hd⟩ := Bool.and_eq_true_iff.mp hmore
    have hb : between 0xF0 0xF4 b = true := by simpa using hcases
    exact ⟨[c, d, e], more, rfl, rfl, .four hb (hsecond hlow hhigh hc) hd he⟩
  · cases h

/-- The bytes behind the first one of a character are not ASCII. -/
theorem Spelling.le_of_mem {b c : UInt8} {tail : Text} {code : Nat} (h : Spelling b tail code)
    (hc : c ∈ tail) : 0x80 ≤ c := by
  have hlow : ∀ {c : UInt8}, isContinuation c = true → 0x80 ≤ c := fun h => (between_iff.mp h).1
  cases h with
  | one => cases hc
  | two _ hd =>
    obtain rfl := List.mem_singleton.mp hc
    exact hlow hd
  | three _ hd he =>
    simp only [List.mem_cons, List.not_mem_nil, or_false] at hc
    rcases hc with rfl | rfl
    · exact hlow hd
    · exact hlow he
  | four _ hd he hf =>
    simp only [List.mem_cons, List.not_mem_nil, or_false] at hc
    rcases hc with rfl | rfl | rfl
    · exact hlow hd
    · exact hlow he
    · exact hlow hf

theorem le_of_mem_tail {b c : UInt8} {rest : Text} {code n : Nat}
    (h : decode b rest = some (code, n)) (hc : c ∈ rest.take n) : 0x80 ≤ c := by
  obtain ⟨tail, more, rfl, rfl, hspelling⟩ := exists_spelling h
  rw [List.take_left] at hc
  exact hspelling.le_of_mem hc

theorem le_length_of_decode {b : UInt8} {rest : Text} {code n : Nat}
    (h : decode b rest = some (code, n)) : n ≤ rest.length := by
  obtain ⟨tail, more, rfl, rfl, -⟩ := exists_spelling h
  rw [List.length_append]
  exact Nat.le_add_right _ _

/-- A character depends on its own bytes only. -/
theorem decode_congr {b : UInt8} {rest rest' : Text} {code n : Nat}
    (h : decode b rest = some (code, n)) (htake : rest'.take n = rest.take n) :
    decode b rest' = some (code, n) := by
  unfold decode at h ⊢
  split at h
  · rename_i hb
    rw [if_pos hb, h]
  rename_i hb
  rw [if_neg hb]
  split at h
  · rename_i low high c more hshape
    obtain ⟨hc, h⟩ := Option.ite_none_right_eq_some.mp h
    obtain ⟨hcode, rfl⟩ := Prod.mk.inj (Option.some.inj h)
    match rest', htake with
    | c' :: more', htake =>
      obtain rfl : c' = c := by simpa using htake
      simp only [hshape, if_pos hc, hcode]
  · rename_i low high c d more hshape
    obtain ⟨hc, h⟩ := Option.ite_none_right_eq_some.mp h
    obtain ⟨hcode, rfl⟩ := Prod.mk.inj (Option.some.inj h)
    match rest', htake with
    | [c'], htake => simp at htake
    | c' :: d' :: more', htake =>
      obtain ⟨rfl, rfl⟩ : c' = c ∧ d' = d := by simpa using htake
      simp only [hshape, if_pos hc, hcode]
  · rename_i low high c d e more hshape
    obtain ⟨hc, h⟩ := Option.ite_none_right_eq_some.mp h
    obtain ⟨hcode, rfl⟩ := Prod.mk.inj (Option.some.inj h)
    match rest', htake with
    | [c'], htake => simp at htake
    | [c', d'], htake => simp at htake
    | c' :: d' :: e' :: more', htake =>
      obtain ⟨rfl, rfl, rfl⟩ : c' = c ∧ d' = d ∧ e' = e := by simpa using htake
      simp only [hshape, if_pos hc, hcode]
  · cases h

end Utf8

/-! ## Texts put together -/

namespace Text

/-- The place between two texts lies inside of no character: on one side of it
    stands a byte of ASCII, or nothing. -/
def Seam (pre suf : Text) : Prop :=
  ∀ a ∈ pre.getLast?, ∀ b ∈ suf.head?, a < 0x80 ∨ b < 0x80

theorem Seam.of_suffix {pre pre' suf : Text} (h : Seam pre suf) (hpre : pre' <:+ pre) :
    Seam pre' suf := by
  obtain ⟨front, rfl⟩ := hpre
  intro a ha
  refine h a ?_
  rw [List.getLast?_append, Option.mem_def.mp ha]
  rfl

theorem Seam.of_front {pre suf suf' : Text} (h : Seam pre suf) (hsuf : suf' <+: suf) :
    Seam pre suf' := by
  obtain ⟨rest, rfl⟩ := hsuf
  intro a ha b hb
  refine h a ha b ?_
  rw [List.head?_append, Option.mem_def.mp hb]
  rfl

theorem seam_of_ascii {b : UInt8} (hb : b < 0x80) (pre suf : Text) : Seam pre (b :: suf) := by
  intro a _ c hc
  obtain rfl : b = c := by simpa using hc
  exact .inr hb

/-- A byte that starts no character in front of a seam starts none across it. -/
theorem decode_append_eq_none {b : UInt8} {rest suf : Text} (h : Seam (b :: rest) suf)
    (hdecode : Utf8.decode b rest = none) : Utf8.decode b (rest ++ suf) = none := by
  rw [Option.eq_none_iff_forall_ne_some]
  rintro ⟨code, n⟩ hsome
  by_cases hn : n ≤ rest.length
  · -- All bytes of the character stand in front of the seam.
    have hown := Utf8.decode_congr hsome (List.take_append_of_le_length hn).symm
    rw [hdecode] at hown
    cases hown
  -- The character goes across the seam, so no byte beside it is ASCII.
  have hwide : ∀ c ∈ rest ++ suf.take (n - rest.length), 0x80 ≤ c := by
    intro c hc
    refine Utf8.le_of_mem_tail hsome ?_
    rw [List.take_append, List.take_of_length_le (by omega)]
    exact hc
  have hb : 0x80 ≤ b := by
    rw [← UInt8.not_lt]
    intro hb
    rw [Utf8.decode_of_ascii hb] at hdecode
    cases hdecode
  cases suf with
  | nil => exact hn (by simpa using Utf8.le_length_of_decode hsome)
  | cons c more =>
    have hc : 0x80 ≤ c := by
      refine hwide c (List.mem_append_right _ ?_)
      obtain ⟨k, hk⟩ : ∃ k, n - rest.length = k + 1 := ⟨n - rest.length - 1, by omega⟩
      rw [hk]
      exact List.mem_cons_self
    have hlast := List.getLast?_eq_some_getLast (List.cons_ne_nil b rest)
    have ha : 0x80 ≤ (b :: rest).getLast (List.cons_ne_nil b rest) := by
      rcases List.mem_cons.mp (List.getLast_mem (List.cons_ne_nil b rest)) with ha | ha
      · rw [ha]
        exact hb
      · exact hwide _ (List.mem_append_left _ ha)
    rcases h _ hlast c rfl with hlow | hlow
    · exact UInt8.not_le.mpr hlow ha
    · exact UInt8.not_le.mpr hlow hc

/-- Text on both sides of a seam is cut into characters by itself. -/
theorem runes_append {pre suf : Text} (h : Seam pre suf) :
    (pre ++ suf).runes = pre.runes ++ suf.runes := by
  fun_induction runes pre with
  | case1 => rfl
  | case2 b rest code n hdecode ih =>
    have hn := Utf8.le_length_of_decode hdecode
    have hmore : Utf8.decode b (rest ++ suf) = some (code, n) :=
      Utf8.decode_congr hdecode (List.take_append_of_le_length hn)
    have hback := (List.drop_suffix n rest).trans (List.suffix_cons b rest)
    rw [List.cons_append, runes, hmore]
    simp only [List.take_append_of_le_length hn, List.drop_append_of_le_length hn,
      ih (h.of_suffix hback), List.cons_append]
  | case3 b rest hdecode ih =>
    rw [List.cons_append, runes, decode_append_eq_none h hdecode]
    simp only [ih (h.of_suffix (List.suffix_cons b rest)), List.cons_append]

theorem runeCount_append {pre suf : Text} (h : Seam pre suf) :
    (pre ++ suf).runeCount = pre.runeCount + suf.runeCount := by
  unfold runeCount
  rw [runes_append h, List.length_append]

theorem runes_of_decode {b : UInt8} {rest : Text} {code n : Nat}
    (h : Utf8.decode b rest = some (code, n)) :
    runes (b :: rest) = ⟨code, b :: rest.take n⟩ :: runes (rest.drop n) := by
  rw [runes, h]

theorem runes_of_ascii {b : UInt8} (hb : b < 0x80) (rest : Text) :
    runes (b :: rest) = ⟨b.toNat, [b]⟩ :: runes rest :=
  runes_of_decode (Utf8.decode_of_ascii hb rest)

theorem runeCount_singleton {b : UInt8} (hb : b < 0x80) : runeCount [b] = 1 := by
  rw [runeCount, runes_of_ascii hb, runes]
  rfl

/-- A byte of ASCII is a character of its own, wherever it stands. -/
theorem mem_runes_of_ascii {t : Text} {b : UInt8} (hb : b < 0x80) (h : b ∈ t) :
    ⟨b.toNat, [b]⟩ ∈ t.runes := by
  fun_induction runes t with
  | case1 => cases h
  | case2 c rest code n hdecode ih =>
    rcases List.mem_cons.mp h with rfl | h
    · rw [Utf8.decode_of_ascii hb] at hdecode
      cases hdecode
      exact List.mem_cons_self
    · -- It stands behind this character: inside of it there is no ASCII.
      rw [← List.take_append_drop n rest, List.mem_append] at h
      rcases h with h | h
      · exact absurd (Utf8.le_of_mem_tail hdecode h) (UInt8.not_le.mpr hb)
      · exact List.mem_cons_of_mem _ (ih h)
  | case3 c rest hdecode ih =>
    rcases List.mem_cons.mp h with rfl | h
    · rw [Utf8.decode_of_ascii hb] at hdecode
      cases hdecode
    · exact List.mem_cons_of_mem _ (ih h)

/-! ## Trimming -/

/-- Neither the first nor the last character is white space. -/
def Trimmed (t : Text) : Prop :=
  (∀ r ∈ t.runes.head?, r.isSpace = false) ∧ ∀ r ∈ t.runes.getLast?, r.isSpace = false

instance (t : Text) : Decidable (Trimmed t) := inferInstanceAs (Decidable (_ ∧ _))

theorem isSpace_of_mem_runes_of_spaces {t : Text} (h : ∀ b ∈ t, b = ascii ' ') :
    ∀ r ∈ t.runes, r.isSpace = true := by
  induction t with
  | nil =>
    rw [runes]
    exact fun _ hr => absurd hr List.not_mem_nil
  | cons b rest ih =>
    rw [List.forall_mem_cons] at h
    rw [h.1, runes_of_ascii (by decide), List.forall_mem_cons]
    exact ⟨by decide, ih h.2⟩

theorem seam_of_spaces {t : Text} (h : ∀ b ∈ t, b = ascii ' ') (suf : Text) : Seam t suf := by
  intro a ha _ _
  rw [h a (List.mem_of_getLast? ha)]
  exact .inl (by decide)

theorem seam_spaces {t : Text} (h : ∀ b ∈ t, b = ascii ' ') (pre : Text) : Seam pre t := by
  intro _ _ b hb
  rw [h b (List.mem_of_head? hb)]
  exact .inr (by decide)

/-- Trimming takes the spaces around a text away, and no more if it has no other
    white space at its ends. -/
theorem trim_spaces {t lead trail : Text} (ht : Trimmed t) (hlead : ∀ b ∈ lead, b = ascii ' ')
    (htrail : ∀ b ∈ trail, b = ascii ' ') : trim (lead ++ (t ++ trail)) = t := by
  have hfront := isSpace_of_mem_runes_of_spaces hlead
  have hback := isSpace_of_mem_runes_of_spaces htrail
  unfold trim
  rw [runes_append (seam_of_spaces hlead _), runes_append (seam_spaces htrail t),
    List.dropWhile_append_of_pos hfront]
  cases hrunes : t.runes with
  | nil =>
    have hnil : t = [] := by rw [← runes_flatMap_bytes t, hrunes]; rfl
    rw [List.nil_append, List.dropWhile_eq_nil_iff.mpr hback, hnil]
    rfl
  | cons r rs =>
    have hr : r.isSpace = false := ht.1 r (by rw [hrunes]; rfl)
    have hlast : (r :: rs).reverse.dropWhile Rune.isSpace = (r :: rs).reverse := by
      have hlast := ht.2
      rw [hrunes, ← List.head?_reverse] at hlast
      cases hreverse : (r :: rs).reverse with
      | nil => rfl
      | cons x xs =>
        rw [hreverse] at hlast
        exact List.dropWhile_cons_of_neg (by rw [hlast x rfl]; decide)
    rw [List.cons_append, List.dropWhile_cons_of_neg (by rw [hr]; decide), ← List.cons_append,
      List.reverse_append,
      List.dropWhile_append_of_pos fun x hx => hback x (List.mem_reverse.mp hx), hlast,
      List.reverse_reverse, ← hrunes, runes_flatMap_bytes]

theorem mem_of_mem_trim {t : Text} {b : UInt8} (h : b ∈ t.trim) : b ∈ t := by
  obtain ⟨r, hr, hb⟩ := List.mem_flatMap.mp h
  have hfront := (List.dropWhile_suffix Rune.isSpace).subset (List.mem_reverse.mp hr)
  have hrune := (List.dropWhile_suffix Rune.isSpace).subset (List.mem_reverse.mp hfront)
  rw [← runes_flatMap_bytes t]
  exact List.mem_flatMap.mpr ⟨r, hrune, hb⟩

theorem mem_trim_of_ascii {t : Text} {b : UInt8} (hb : b < 0x80)
    (hspace : isSpaceCode b.toNat = false) (h : b ∈ t) : b ∈ t.trim := by
  have hkept : ∀ {rs : List Rune}, ⟨b.toNat, [b]⟩ ∈ rs →
      ⟨b.toNat, [b]⟩ ∈ rs.dropWhile Rune.isSpace := by
    intro rs hmem
    rw [← List.takeWhile_append_dropWhile (p := Rune.isSpace) (l := rs), List.mem_append] at hmem
    refine hmem.resolve_left fun htaken => ?_
    have hrune : Rune.isSpace ⟨b.toNat, [b]⟩ = true := List.mem_takeWhile_imp htaken
    exact Bool.false_ne_true (hspace.symm.trans hrune)
  -- Once from the front and once from the back.
  have hrune := hkept (List.mem_reverse.mpr (hkept (mem_runes_of_ascii hb h)))
  exact List.mem_flatMap.mpr ⟨_, List.mem_reverse.mpr hrune, List.mem_singleton.mpr rfl⟩

end Text

end MixinCss
