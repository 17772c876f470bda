/-
  MixinCss.Proofs.Token.Seams

  No token begins or ends inside of a character. All bytes outside ASCII may
  stand in a name, so a name never stops in front of one, and whatever is not a
  name ends with a byte of ASCII: a string with its quote or its line break, an
  address with a parenthesis, a comment with a slash. This needs no assumption
  about the text; it may even not be UTF-8 at all.
-/

import MixinCss.Proofs.Text.Runes
import MixinCss.Proofs.Token.Lexemes

namespace MixinCss

/-! ## Places in a text -/

namespace Text

/-- The place behind the first `n` bytes lies inside of no character. -/
def SeamAt (t : Text) (n : Nat) : Prop := Seam (t.take n) (t.drop n)

theorem seamAt_zero (t : Text) : SeamAt t 0 := fun _ ha => by cases ha

theorem seamAt_of_drop_eq_nil {t : Text} {n : Nat} (h : t.drop n = []) : SeamAt t n := by
  intro a _ b hb
  rw [h] at hb
  cases hb

theorem seamAt_of_next {t : Text} {n : Nat} (h : ∀ b ∈ (t.drop n).head?, b < 0x80) :
    SeamAt t n :=
  fun _ _ b hb => .inr (h b hb)

theorem seamAt_of_last {t : Text} {n : Nat} {a : UInt8} (ha : a < 0x80)
    (h : (t.drop n).head? = some a) : SeamAt t (n + 1) := by
  rw [List.head?_drop] at h
  intro c hc b _
  rw [List.take_add_one, h] at hc
  obtain rfl : a = c := by simpa using hc
  exact .inl ha

/-- Seams behind other text: only what stands beside a place matters. -/
theorem Seam.append_left {pre suf : Text} (h : Seam pre suf) (hpre : pre ≠ []) (front : Text) :
    Seam (front ++ pre) suf := by
  intro a ha
  refine h a ?_
  rw [List.getLast?_append, List.getLast?_eq_some_getLast hpre] at ha
  rwa [List.getLast?_eq_some_getLast hpre]

end Text

namespace Lexer

open Text (SeamAt)

/-! ## Names and numbers -/

theorem lt_of_isNameStart_eq_false {b : UInt8} (h : isNameStart b = false) : b < 0x80 := by
  simp only [isNameStart, Bool.or_eq_false_iff, decide_eq_false_iff_not, UInt8.not_le] at h
  exact h.2

theorem lt_of_isNameByte_eq_false {b : UInt8} (h : isNameByte b = false) : b < 0x80 := by
  simp only [isNameByte, Bool.or_eq_false_iff] at h
  exact lt_of_isNameStart_eq_false h.1.1

/-- A name goes on as long as there are bytes of names. -/
theorem nameTail_next (t : Text) : ∀ b ∈ (t.drop (nameTail t)).head?, b < 0x80 := by
  fun_induction nameTail t with
  | case1 => exact fun _ hb => by cases hb
  | case2 b rest hb ih => exact ih
  | case3 rest n hescape hb ih =>
    rw [Nat.add_right_comm, List.drop_succ_cons, ← List.drop_drop]
    exact ih
  | case4 rest hescape =>
    rintro b ⟨⟩
    decide
  | case5 b rest hb hslash =>
    rintro c ⟨⟩
    exact lt_of_isNameByte_eq_false (Bool.eq_false_iff.mpr hb)

theorem name_next (t : Text) : ∀ b ∈ (t.drop (name t)).head?, b < 0x80 := by
  by_cases hzero : name t = 0
  · -- Where there is no name, there is no byte that would start one.
    cases t with
    | nil => exact fun _ hb => by cases hb
    | cons b rest =>
      rw [hzero]
      rintro _ ⟨⟩
      exact lt_of_isNameStart_eq_false (isNameStart_of_name hzero)
  · rw [name_eq] at hzero ⊢
    split at hzero
    · rename_i htwo
      rw [if_pos htwo, ← List.drop_drop]
      exact nameTail_next _
    · rename_i htwo
      split at hzero
      · exact absurd rfl hzero
      · rename_i hhead
        rw [if_neg htwo, if_neg hhead, ← List.drop_drop]
        exact nameTail_next _

theorem seamAt_name (t : Text) : SeamAt t (name t) := Text.seamAt_of_next (name_next t)

theorem seamAt_numeric? {t : Text} {kind : TokenKind} {n : Nat}
    (h : numeric? t = some (kind, n)) : 0 < n ∧ SeamAt t n := by
  rw [numeric?_eq] at h
  split at h
  · cases h
  rename_i hnumber
  have hunit := name_next (t.drop (number t))
  split at h
  · rename_i hpercent
    cases h
    exact ⟨by omega, Text.seamAt_of_last (by decide) hpercent⟩
  split at h
  · rename_i hname
    cases h
    rw [hname, List.drop_zero] at hunit
    exact ⟨by omega, Text.seamAt_of_next hunit⟩
  · cases h
    rw [List.drop_drop] at hunit
    exact ⟨by omega, Text.seamAt_of_next hunit⟩

/-! ## Strings, addresses and comments -/

/-- A scanner that took `n` bytes came to the end of the text or took a byte of
    ASCII last. -/
def Closes (t : Text) (n : Nat) : Prop :=
  t.drop n = [] ∨ ∃ k a, n = k + 1 ∧ (t.drop k).head? = some a ∧ a < 0x80

theorem Closes.seamAt {t : Text} {n : Nat} (h : Closes t n) : SeamAt t n := by
  rcases h with hnil | ⟨k, a, rfl, hlast, ha⟩
  · exact Text.seamAt_of_drop_eq_nil hnil
  · exact Text.seamAt_of_last ha hlast

theorem Closes.shift {t : Text} {m n : Nat} (h : Closes (t.drop m) n) : Closes t (m + n) := by
  rcases h with hnil | ⟨k, a, rfl, hlast, ha⟩
  · left
    rw [← List.drop_drop, hnil]
  · right
    rw [List.drop_drop] at hlast
    exact ⟨m + k, a, rfl, hlast, ha⟩

theorem closes_one {b : UInt8} (hb : b < 0x80) (rest : Text) : Closes (b :: rest) 1 :=
  .inr ⟨0, b, rfl, rfl, hb⟩

theorem lt_of_isNewline {b : UInt8} (h : isNewline b = true) : b < 0x80 := by
  simp only [isNewline, Bool.or_eq_true, beq_iff_eq] at h
  rcases h with (rfl | rfl) | rfl <;> decide

theorem lt_of_isQuote {b : UInt8} (h : isQuote b = true) : b < 0x80 := by
  simp only [isQuote, Bool.or_eq_true, beq_iff_eq] at h
  rcases h with rfl | rfl <;> decide

theorem stringTail_closes {quote : UInt8} (hquote : quote < 0x80) :
    ∀ t : Text, Closes t (stringTail quote t).2
  | [] => .inl (List.drop_nil)
  | b :: rest => by
    rw [stringTail_cons]
    split
    · rename_i hb
      exact closes_one (lt_of_isNewline hb) rest
    split
    · rename_i hb
      exact closes_one (hb ▸ hquote) rest
    split
    · have hrest := stringTail_closes hquote (rest.drop (hidden rest))
      rw [Nat.add_comm 1]
      exact Closes.shift (t := b :: rest) hrest
    · rw [Nat.add_comm]
      exact Closes.shift (t := b :: rest) (stringTail_closes hquote rest)
termination_by t => t.length
decreasing_by
  · simp
  · simp only [List.length_drop, List.length_cons]; omega

theorem badUrlTail_closes (t : Text) : Closes t (badUrlTail t) := by
  fun_induction badUrlTail t with
  | case1 => exact .inl rfl
  | case2 rest => exact closes_one (by decide) rest
  | case3 rest n hne hescape ih => exact Closes.shift (t := _ :: rest) ih
  | case4 rest hne hescape ih => exact Closes.shift (t := _ :: rest) ih
  | case5 b rest hne hslash ih => exact Closes.shift (t := _ :: rest) ih

theorem urlTail_closes (t : Text) : Closes t (urlTail t).2 := by
  rw [urlTail_eq]
  dsimp only
  split
  · split
    · rename_i hend
      exact .inl hend
    · rename_i b more hbehind
      split
      · rename_i hb
        exact .inr ⟨_, b, rfl, by rw [hbehind]; rfl, hb ▸ by decide⟩
      · exact Closes.shift (badUrlTail_closes _)
  · exact Closes.shift (badUrlTail_closes _)

theorem commentTail_closes (t : Text) : Closes t (commentTail t) := by
  fun_induction commentTail t with
  | case1 => exact .inl rfl
  | case2 b => exact .inl rfl
  | case3 a b rest hclosed =>
    simp only [Bool.and_eq_true, decide_eq_true_eq] at hclosed
    exact .inr ⟨1, b, rfl, rfl, hclosed.2 ▸ by decide⟩
  | case4 a b rest hopen ih => exact Closes.shift (t := a :: b :: rest) ih

/-! ## Tokens -/

theorem seamAt_nameLike? {t : Text} {kind : TokenKind} {n : Nat}
    (h : nameLike? t = some (kind, n)) : 0 < n ∧ SeamAt t n := by
  rw [nameLike?_eq] at h
  split at h
  · cases h
  split at h
  · rename_i hparen
    split at h
    · cases h
      exact ⟨by omega, (Closes.shift (urlTail_closes (t.drop (name t + 1)))).seamAt⟩
    · cases h
      exact ⟨by omega, Text.seamAt_of_last (by decide) hparen⟩
  · cases h
    exact ⟨by omega, seamAt_name t⟩

/-- The last byte of a run belongs to it. -/
theorem closes_run {p : UInt8 → Bool} (hp : ∀ b, p b = true → b < 0x80) :
    ∀ {t : Text}, 0 < run p t → Closes t (run p t)
  | [], h => absurd h (by simp [run])
  | b :: rest, h => by
    cases hb : p b with
    | false => simp [run_cons_of_neg hb] at h
    | true =>
      rw [run_cons_of_pos hb]
      by_cases hmore : 0 < run p rest
      · rw [Nat.add_comm]
        exact Closes.shift (t := b :: rest) (closes_run hp hmore)
      · obtain hzero : run p rest = 0 := by omega
        rw [hzero]
        exact closes_one (hp b hb) rest

theorem lt_of_isSpace (b : UInt8) (h : isSpace b = true) : b < 0x80 := by
  simp only [isSpace, Bool.or_eq_true, beq_iff_eq] at h
  rcases h with (((rfl | rfl) | rfl) | rfl) | rfl <;> decide

theorem lt_of_isHexDigit (b : UInt8) (h : Byte.isHexDigit b = true) : b < 0x80 := by
  simp only [Byte.isHexDigit, Byte.isDigit, Bool.or_eq_true, Bool.and_eq_true,
    decide_eq_true_eq] at h
  rcases h with (⟨-, h⟩ | ⟨-, h⟩) | ⟨-, h⟩ <;> exact UInt8.lt_of_le_of_lt h (by decide)

theorem closes_unicodeRange? {t : Text} {kind : TokenKind} {n : Nat}
    (h : unicodeRange? t = some (kind, n)) : 0 < n ∧ Closes t n := by
  match t with
  | [] => cases h
  | [_] => cases h
  | u :: plus :: rest =>
    rw [unicodeRange?] at h
    obtain ⟨-, h⟩ := Option.ite_none_right_eq_some.mp h
    have hfirst : 0 < run Byte.isHexDigit rest →
        Closes (u :: plus :: rest) (2 + run Byte.isHexDigit rest) := fun hpos =>
      Closes.shift (t := u :: plus :: rest) (closes_run lt_of_isHexDigit hpos)
    dsimp only at h
    split at h
    · rename_i b more hdrop
      split at h
      · -- Two groups of digits.
        obtain ⟨hcount, h⟩ := Option.ite_none_right_eq_some.mp h
        cases h
        simp only [Bool.and_eq_true, decide_eq_true_eq] at hcount
        have hsecond := closes_run lt_of_isHexDigit (t := more) (by omega)
        have hmore : more = (u :: plus :: rest).drop (3 + run Byte.isHexDigit rest) := by
          rw [Nat.add_comm, List.drop_succ_cons, List.drop_succ_cons, ← List.tail_drop, hdrop,
            List.tail_cons]
        refine ⟨by omega, ?_⟩
        rw [hmore] at hsecond
        rw [hmore]
        exact hsecond.shift
      · -- Digits, and question marks behind them.
        obtain ⟨hcount, h⟩ := Option.ite_none_right_eq_some.mp h
        cases h
        simp only [Bool.and_eq_true, decide_eq_true_eq] at hcount
        refine ⟨by omega, ?_⟩
        by_cases hmarks : 0 < run (· == ascii '?') (b :: more)
        · have hmark : ∀ b : UInt8, (b == ascii '?') = true → b < 0x80 := by
            intro b hb
            rw [beq_iff_eq.mp hb]
            decide
          have hlast := closes_run hmark hmarks
          rw [← hdrop] at hlast ⊢
          exact Closes.shift (t := u :: plus :: rest) (m := 2 + run Byte.isHexDigit rest)
            (by rwa [Nat.add_comm, List.drop_succ_cons, List.drop_succ_cons])
        · obtain hzero : run (· == ascii '?') (b :: more) = 0 := by omega
          rw [hzero, Nat.add_zero]
          exact hfirst (by omega)
    · obtain ⟨hcount, h⟩ := Option.ite_none_right_eq_some.mp h
      cases h
      simp only [Bool.and_eq_true, decide_eq_true_eq] at hcount
      exact ⟨by omega, hfirst (by omega)⟩

/-- A token is not empty, and no character goes on behind it. -/
theorem Scanned.seamAt {b : UInt8} {rest : Text} {r : TokenKind × Nat} (h : Scanned b rest r) :
    0 < r.2 ∧ SeamAt (b :: rest) r.2 := by
  cases h with
  | space hb =>
    have hpos : 0 < run isSpace (b :: rest) := by
      rw [run_cons_of_pos hb]
      exact Nat.succ_pos _
    exact ⟨hpos, (closes_run lt_of_isSpace hpos).seamAt⟩
  | mark hmem =>
    have hascii : ∀ m ∈ marks, m.1 < 0x80 := by decide +kernel
    exact ⟨Nat.one_pos, (closes_one (hascii _ hmem) rest).seamAt⟩
  | pair hmem hsecond =>
    have hascii : ∀ m ∈ pairs, m.2.1 < 0x80 := by decide +kernel
    exact ⟨Nat.two_pos, Text.seamAt_of_last (n := 1) (hascii _ hmem) hsecond⟩
  | @comment more hb hrest =>
    subst hrest
    refine ⟨by omega, ?_⟩
    exact (Closes.shift (t := b :: ascii '*' :: more) (m := 2) (commentTail_closes more)).seamAt
  | commentOpen hb hrest =>
    obtain ⟨more, rfl⟩ := hrest
    exact ⟨by decide, Text.seamAt_of_last (n := 3) (a := ascii '-') (by decide) rfl⟩
  | commentClose hb hrest =>
    obtain ⟨more, rfl⟩ := hrest
    exact ⟨by decide, Text.seamAt_of_last (n := 2) (a := ascii '>') (by decide) rfl⟩
  | hash hb hname => exact ⟨Nat.succ_pos _, Text.seamAt_of_next (nameTail_next rest)⟩
  | atKeyword hb hname => exact ⟨Nat.succ_pos _, Text.seamAt_of_next (name_next rest)⟩
  | custom htwo =>
    refine ⟨?_, seamAt_name _⟩
    rw [name_eq, if_pos htwo]
    omega
  | string hb | badString hb =>
    have hclosed := stringTail_closes (lt_of_isQuote hb) rest
    refine ⟨Nat.succ_pos _, ?_⟩
    rw [Nat.add_comm]
    exact (Closes.shift (t := b :: rest) (m := 1) hclosed).seamAt
  | numeric hr => exact seamAt_numeric? hr
  | nameLike hr => exact seamAt_nameLike? hr
  | unicodeRange hr =>
    obtain ⟨hpos, hclosed⟩ := closes_unicodeRange? hr
    exact ⟨hpos, hclosed.seamAt⟩
  | delim hmark hstart =>
    exact ⟨Nat.one_pos, (closes_one (lt_of_isNameStart_eq_false hstart) rest).seamAt⟩

theorem seamAt_scan (b : UInt8) (rest : Text) :
    0 < (scan b rest).2 ∧ SeamAt (b :: rest) (scan b rest).2 :=
  (scanned_scan b rest).seamAt

/-- No character goes on behind a lexeme. -/
theorem IsLexeme.seam {t : Token} {rest : Text} (h : IsLexeme t rest) : Text.Seam t.text rest := by
  obtain ⟨b, u, htext, -, htake⟩ := h
  obtain ⟨hpos, hseam⟩ := seamAt_scan b (u ++ rest)
  obtain ⟨k, hk⟩ : ∃ k, (scan b (u ++ rest)).2 = k + 1 := ⟨(scan b (u ++ rest)).2 - 1, by omega⟩
  rw [hk, Nat.add_sub_cancel] at htake
  rw [Text.SeamAt, hk, List.take_succ_cons, List.drop_succ_cons, htake,
    drop_of_take_eq htake] at hseam
  rw [htext]
  exact hseam

/-- Where a lexeme begins, a text can be cut without cutting a character. -/
theorem exists_seam_of_mem_lex {t : Token} {offset : Nat} {s : Text} (h : t ∈ lex offset s) :
    ∃ pre rest, s = pre ++ (t.text ++ rest) ∧ t.offset = offset + pre.length ∧
      Text.Seam pre (t.text ++ rest) ∧ IsLexeme t rest := by
  induction hlex : lex offset s generalizing offset s with
  | nil =>
    rw [hlex] at h
    cases h
  | cons first ts ih =>
    obtain ⟨behind, rfl, hfirst, hts⟩ := isLexeme_of_lex hlex
    have hoffset : first.offset = offset := by
      rw [lex_of_isLexeme hfirst] at hlex
      exact congrArg Token.offset (List.cons.inj hlex).1.symm
    rw [hlex] at h
    rcases List.mem_cons.mp h with rfl | h
    · exact ⟨[], behind, rfl, hoffset, Text.seamAt_zero (_ ++ behind), hfirst⟩
    · obtain ⟨pre, rest, hbehind, hplace, hseam, hlexeme⟩ := ih (hts ▸ h) hts.symm
      refine ⟨first.text ++ pre, rest, ?_, ?_, ?_, hlexeme⟩
      · rw [hbehind, List.append_assoc]
      · rw [hplace, List.length_append, Nat.add_assoc]
      · by_cases hpre : pre = []
        · -- The lexeme right behind the first one.
          subst hpre
          rw [List.append_nil, ← List.nil_append (t.text ++ rest), ← hbehind]
          exact hfirst.seam
        · exact hseam.append_left hpre first.text

end Lexer

end MixinCss
