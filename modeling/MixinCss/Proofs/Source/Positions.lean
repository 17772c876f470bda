/-
  MixinCss.Proofs.Source.Positions

  Nodes are placed by the table of line starts and errors by a walk over the
  source. The two agree on line feeds and carriage returns, but only the walk
  ends a line at the separators U+2028 and U+2029 as well. So for well-formed
  text the place of a node and of an error at the same token are the same
  exactly if no separator stands in front of the token.

  There is one more difference, at tokens of white space alone: a token may begin
  between a carriage return and its line feed, where the escape in front of it
  took the carriage return. The walk does not stop there.
-/

import MixinCss.Grammar.Fault
import MixinCss.Proofs.Source.Lines
import MixinCss.Proofs.Token.Seams

namespace MixinCss

/-! ## Well-formed text -/

namespace Text

/-- The separators U+2028 and U+2029 among the characters of a text. -/
def separatorCount (t : Text) : Nat :=
  t.runes.countP fun r => r.code == 0x2028 || r.code == 0x2029

/-- A well-formed text begins with a character and goes on well-formed. -/
theorem exists_decode_of_isUtf8 {b : UInt8} {rest : Text} (h : isUtf8 (b :: rest) = true) :
    ∃ code n, Utf8.decode b rest = some (code, n) ∧ isUtf8 (rest.drop n) = true := by
  cases hdecode : Utf8.decode b rest with
  | some found =>
    obtain ⟨code, n⟩ := found
    rw [isUtf8, runes_of_decode hdecode, List.all_cons, Bool.and_eq_true] at h
    exact ⟨code, n, rfl, h.2⟩
  | none =>
    have hwide : 0x80 ≤ b := by
      rw [← UInt8.not_lt]
      intro hb
      rw [Utf8.decode_of_ascii hb] at hdecode
      cases hdecode
    rw [isUtf8, runes, hdecode] at h
    simp [Rune.isStray, hwide] at h

theorem isUtf8_of_ascii {b : UInt8} (hb : b < 0x80) {rest : Text}
    (h : isUtf8 (b :: rest) = true) : isUtf8 rest = true := by
  obtain ⟨code, n, hdecode, hrest⟩ := exists_decode_of_isUtf8 h
  rw [Utf8.decode_of_ascii hb] at hdecode
  cases hdecode
  exact hrest

/-- Both parts of a well-formed text are well formed, if no character is cut. -/
theorem isUtf8_append {pre suf : Text} (h : Seam pre suf) :
    isUtf8 (pre ++ suf) = (isUtf8 pre && isUtf8 suf) := by
  unfold isUtf8
  rw [runes_append h, List.all_append]

end Text

namespace Excerpt

open Utf8 (Spelling)

/-! ## Steps -/

theorem step_feed (rest : Text) : step (ascii '\n') rest = (1, true) := rfl

theorem step_pair (rest : Text) : step (ascii '\r') (ascii '\n' :: rest) = (2, true) := rfl

theorem step_carriage {rest : Text} (h : rest.head? ≠ some (ascii '\n')) :
    step (ascii '\r') rest = (1, true) := by
  unfold step
  rw [if_neg (by decide), if_pos rfl, if_neg h]

theorem sequence_of_length {b : UInt8} {rest : Text} {n : Nat} (hn : n ≤ rest.length)
    (hannounced : (if b < 0xE0 then 2 else if b < 0xF0 then 3 else 4) = n + 1) :
    Lexer.sequence b rest = n + 1 := by
  unfold Lexer.sequence
  dsimp only
  rw [hannounced]
  omega

theorem toNat_of_between {low high b : UInt8} (h : Utf8.between low high b = true) :
    low.toNat ≤ b.toNat ∧ b.toNat ≤ high.toNat := Utf8.between_iff.mp h

theorem toNat_of_isContinuation {c : UInt8} (h : Utf8.isContinuation c = true) :
    0x80 ≤ c.toNat ∧ c.toNat ≤ 0xBF := toNat_of_between h

/-- The bits of a character spell its code point. -/
theorem looseCode_of_spelling {b : UInt8} {tail : Text} {code : Nat}
    (h : Spelling b tail code) (hb : 0x80 ≤ b) (more : Text) :
    Lexer.sequence b (tail ++ more) = tail.length + 1 ∧ looseCode b (tail ++ more) = code := by
  cases h with
  | one hlow => exact absurd hb (UInt8.not_le.mpr hlow)
  | @two c hfirst hc =>
    obtain ⟨hlow, hhigh⟩ : 0xC2 ≤ b.toNat ∧ b.toNat ≤ 0xDF := toNat_of_between hfirst
    obtain ⟨hclow, hchigh⟩ := toNat_of_isContinuation hc
    have hseq : Lexer.sequence b ([c] ++ more) = 2 :=
      sequence_of_length (by simp) (if_pos (UInt8.lt_iff_toNat_lt.mpr (by simp; omega)))
    refine ⟨hseq, ?_⟩
    unfold looseCode
    rw [hseq]
    show b.toNat % 0x20 * 0x40 + c.toNat % 0x40 = 0x40 * (b.toNat - 0xC0) + (c.toNat - 0x80)
    omega
  | @three c d hfirst hc hd =>
    obtain ⟨hlow, hhigh⟩ : 0xE0 ≤ b.toNat ∧ b.toNat ≤ 0xEF := toNat_of_between hfirst
    obtain ⟨hclow, hchigh⟩ := toNat_of_isContinuation hc
    obtain ⟨hdlow, hdhigh⟩ := toNat_of_isContinuation hd
    have hannounced : (if b < 0xE0 then 2 else if b < 0xF0 then 3 else 4) = 3 := by
      rw [if_neg (UInt8.not_lt.mpr hlow), if_pos (UInt8.lt_iff_toNat_lt.mpr (by simp; omega))]
    have hseq : Lexer.sequence b ([c, d] ++ more) = 3 := sequence_of_length (by simp) hannounced
    refine ⟨hseq, ?_⟩
    unfold looseCode
    rw [hseq]
    show b.toNat % 0x10 * 0x1000 + c.toNat % 0x40 * 0x40 + d.toNat % 0x40 =
      0x40 * (0x40 * (b.toNat - 0xE0) + (c.toNat - 0x80)) + (d.toNat - 0x80)
    omega
  | @four c d e hfirst hc hd he =>
    obtain ⟨hlow, hhigh⟩ : 0xF0 ≤ b.toNat ∧ b.toNat ≤ 0xF4 := toNat_of_between hfirst
    obtain ⟨hclow, hchigh⟩ := toNat_of_isContinuation hc
    obtain ⟨hdlow, hdhigh⟩ := toNat_of_isContinuation hd
    obtain ⟨helow, hehigh⟩ := toNat_of_isContinuation he
    have hannounced : (if b < 0xE0 then 2 else if b < 0xF0 then 3 else 4) = 4 := by
      have hwide : 0xE0 ≤ b := UInt8.le_trans (b := 0xF0) (by decide) hlow
      rw [if_neg (UInt8.not_lt.mpr hwide), if_neg (UInt8.not_lt.mpr hlow)]
    have hseq : Lexer.sequence b ([c, d, e] ++ more) = 4 :=
      sequence_of_length (by simp) hannounced
    refine ⟨hseq, ?_⟩
    unfold looseCode
    rw [hseq]
    show b.toNat % 0x08 * 0x40000 + c.toNat % 0x40 * 0x1000 + d.toNat % 0x40 * 0x40 +
        e.toNat % 0x40 =
      0x40 * (0x40 * (0x40 * (b.toNat - 0xF0) + (c.toNat - 0x80)) + (d.toNat - 0x80)) +
        (e.toNat - 0x80)
    omega

theorem le_of_spelling {b : UInt8} {tail : Text} {code : Nat} (h : Spelling b tail code)
    (hb : 0x80 ≤ b) : 0xC0 ≤ b := by
  cases h with
  | one hlow => exact absurd hb (UInt8.not_le.mpr hlow)
  | two hfirst => exact UInt8.le_trans (by decide) (Utf8.between_iff.mp hfirst).1
  | three hfirst => exact UInt8.le_trans (by decide) (Utf8.between_iff.mp hfirst).1
  | four hfirst => exact UInt8.le_trans (by decide) (Utf8.between_iff.mp hfirst).1

/-- A character that breaks no line is one step, and ends the line if it is a
    separator. -/
theorem step_char {b : UInt8} {rest : Text} {code n : Nat} (hfeed : b ≠ ascii '\n')
    (hreturn : b ≠ ascii '\r') (h : Utf8.decode b rest = some (code, n)) (suf : Text) :
    step b (rest ++ suf) = (n + 1, code == 0x2028 || code == 0x2029) := by
  unfold step
  rw [if_neg hfeed, if_neg hreturn]
  by_cases hb : b < 0x80
  · rw [Utf8.decode_of_ascii hb] at h
    cases h
    have hlow : b.toNat < 0x80 := hb
    have hcode : (b.toNat == 0x2028 || b.toNat == 0x2029) = false := by
      simp only [Bool.or_eq_false_iff, beq_eq_false_iff_ne]
      omega
    rw [hcode, if_neg (UInt8.not_le.mpr (UInt8.lt_trans hb (by decide)))]
  · obtain ⟨tail, more, rfl, rfl, hspelling⟩ := Utf8.exists_spelling h
    rw [UInt8.not_lt] at hb
    obtain ⟨hseq, hcode⟩ := looseCode_of_spelling hspelling hb (more ++ suf)
    rw [if_pos (le_of_spelling hspelling hb), List.append_assoc]
    dsimp only
    rw [hseq, hcode]

/-- One step of the walk. -/
theorem walk_step {b : UInt8} {rest : Text} {n : Nat} {ends : Bool}
    (h : step b rest = (n + 1, ends)) (w : Walk) (left : Nat) :
    walk w (n + 1 + left) (b :: rest) =
      walk (if ends then ⟨w.line + 1, rest.drop n, 0⟩ else ⟨w.line, w.start, w.passed + (n + 1)⟩)
        left (rest.drop n) := by
  rw [walk, if_neg (by omega), h]
  dsimp only
  rw [if_neg (by omega), Nat.add_sub_cancel_left, Nat.add_sub_cancel]

/-- The text in front of `suf`, cut into the steps of the walk. -/
inductive Steps (suf : Text) : Text → Prop where
  | done : Steps suf []
  | feed {rest : Text} (h : Steps suf rest) : Steps suf (ascii '\n' :: rest)
  | pair {rest : Text} (h : Steps suf rest) : Steps suf (ascii '\r' :: ascii '\n' :: rest)
  /-- The place lies between a carriage return and its line feed. -/
  | halfway (hsuf : suf.head? = some (ascii '\n')) : Steps suf [ascii '\r']
  | carriage {rest : Text} (hnext : (rest ++ suf).head? ≠ some (ascii '\n'))
      (h : Steps suf rest) : Steps suf (ascii '\r' :: rest)
  | char {b : UInt8} {rest : Text} {code n : Nat} (hfeed : b ≠ ascii '\n')
      (hreturn : b ≠ ascii '\r') (hdecode : Utf8.decode b rest = some (code, n))
      (h : Steps suf (rest.drop n)) : Steps suf (b :: rest)

theorem steps_of_isUtf8 (suf : Text) : ∀ {pre : Text}, pre.isUtf8 = true → Steps suf pre
  | [], _ => .done
  | b :: rest, h => by
    by_cases hfeed : b = ascii '\n'
    · subst hfeed
      exact .feed (steps_of_isUtf8 suf (Text.isUtf8_of_ascii (by decide) h))
    by_cases hreturn : b = ascii '\r'
    · subst hreturn
      have hrest := Text.isUtf8_of_ascii (by decide) h
      by_cases hnext : (rest ++ suf).head? = some (ascii '\n')
      · by_cases hnil : rest = []
        · subst hnil
          exact .halfway hnext
        · rw [List.head?_append, List.head?_eq_some_head hnil, Option.some_or,
            ← List.head?_eq_some_head hnil] at hnext
          have hcons : rest = ascii '\n' :: rest.tail := by
            obtain ⟨more, rfl⟩ := List.head?_eq_some_iff.mp hnext
            rfl
          rw [hcons] at hrest ⊢
          exact .pair (steps_of_isUtf8 suf (Text.isUtf8_of_ascii (by decide) hrest))
      · exact .carriage hnext (steps_of_isUtf8 suf hrest)
    · obtain ⟨code, n, hdecode, hrest⟩ := Text.exists_decode_of_isUtf8 h
      exact .char hfeed hreturn hdecode (steps_of_isUtf8 suf hrest)
termination_by pre => pre.length
decreasing_by all_goals simp only [List.length_cons, List.length_tail, List.length_drop]; omega

/-! ## The walk -/

theorem plain_of_decode {b : UInt8} {rest : Text} {code n : Nat} (hfeed : b ≠ ascii '\n')
    (hreturn : b ≠ ascii '\r') (h : Utf8.decode b rest = some (code, n)) :
    ∀ c ∈ b :: rest.take n, c ≠ ascii '\n' ∧ c ≠ ascii '\r' := by
  rw [List.forall_mem_cons]
  refine ⟨⟨hfeed, hreturn⟩, fun c hc => ?_⟩
  have hwide := Utf8.le_of_mem_tail h hc
  constructor <;> rintro rfl <;> exact absurd hwide (by decide)

theorem separatorCount_of_ascii {b : UInt8} (hb : b < 0x80) (rest : Text) :
    Text.separatorCount (b :: rest) = rest.separatorCount := by
  have hlow : b.toNat < 0x80 := hb
  unfold Text.separatorCount
  rw [Text.runes_of_ascii hb, List.countP_cons_of_neg]
  simp only [Bool.or_eq_true, beq_iff_eq]
  omega

theorem separatorCount_of_decode {b : UInt8} {rest : Text} {code n : Nat}
    (h : Utf8.decode b rest = some (code, n)) :
    Text.separatorCount (b :: rest) =
      Text.separatorCount (rest.drop n) + if code == 0x2028 || code == 0x2029 then 1 else 0 := by
  unfold Text.separatorCount
  rw [Text.runes_of_decode h, List.countP_cons]

/-- The place between `pre` and `suf` lies inside of one line break. -/
def Halfway (pre suf : Text) : Prop :=
  pre.getLast? = some (ascii '\r') ∧ suf.head? = some (ascii '\n')

instance (pre suf : Text) : Decidable (Halfway pre suf) := inferInstanceAs (Decidable (_ ∧ _))

theorem halfway_append_iff {u : Text} (hu : u.getLast? ≠ some (ascii '\r')) (pre suf : Text) :
    Halfway (u ++ pre) suf ↔ Halfway pre suf := by
  unfold Halfway
  rw [List.getLast?_append]
  cases pre.getLast? with
  | none => simp [hu]
  | some a => simp

theorem halfway_carriage_iff {pre suf : Text} (h : (pre ++ suf).head? ≠ some (ascii '\n')) :
    Halfway (ascii '\r' :: pre) suf ↔ Halfway pre suf := by
  unfold Halfway
  rw [List.getLast?_cons]
  cases pre with
  | nil =>
    rw [List.nil_append] at h
    simp [h]
  | cons b rest => rw [List.getLast?_cons, Option.getD_some]

/-- One step of the walk in front of `suf`. -/
theorem walk_append {b : UInt8} {rest suf : Text} {n : Nat} {ends : Bool} (hn : n ≤ rest.length)
    (h : step b (rest ++ suf) = (n + 1, ends)) (w : Walk) :
    walk w (b :: rest).length (b :: rest ++ suf) =
      walk (if ends then ⟨w.line + 1, rest.drop n ++ suf, 0⟩
          else ⟨w.line, w.start, w.passed + (n + 1)⟩)
        (rest.drop n).length (rest.drop n ++ suf) := by
  have hlength : (b :: rest).length = n + 1 + (rest.drop n).length := by
    rw [List.length_cons, List.length_drop]
    omega
  rw [hlength, List.cons_append, walk_step h, List.drop_append_of_le_length hn]

/-- A carriage return is not passed without its line feed. -/
theorem walk_halfway {suf : Text} (h : suf.head? = some (ascii '\n')) (w : Walk) :
    walk w 1 (ascii '\r' :: suf) = w := by
  obtain ⟨more, rfl⟩ := List.head?_eq_some_iff.mp h
  rw [walk, if_neg (by decide), step_pair]
  exact if_pos ⟨by decide, by decide⟩

/-- The walk counts the line breaks and the separators that it passes. -/
theorem Steps.walk_line {suf pre : Text} (h : Steps suf pre) (w : Walk) :
    (walk w pre.length (pre ++ suf)).line =
      w.line + Text.breakCount suf pre + pre.separatorCount := by
  induction h generalizing w with
  | done =>
    cases suf <;> simp [walk, Text.breakCount, Text.separatorCount, Text.runes]
  | @feed rest _ ih =>
    rw [walk_append (Nat.zero_le _) (step_feed _), if_pos rfl, List.drop_zero, ih,
      Text.breakCount_of_breaks (Text.breaks_feed _), separatorCount_of_ascii (by decide)]
    dsimp only
    omega
  | @pair rest _ ih =>
    have hreturn : Text.breaks (ascii '\r' :: (ascii '\n' :: rest ++ suf)) = false := rfl
    rw [walk_append (n := 1) (Nat.le_add_left 1 _) (step_pair _), if_pos rfl, List.drop_succ_cons,
      List.drop_zero, ih, Text.breakCount_of_not_breaks hreturn,
      Text.breakCount_of_breaks (Text.breaks_feed _), separatorCount_of_ascii (by decide),
      separatorCount_of_ascii (by decide)]
    dsimp only
    omega
  | halfway hsuf =>
    have hreturn : Text.breaks (ascii '\r' :: ([] ++ suf)) = false := by
      rw [Text.breaks_return, List.nil_append, hsuf, bne_self_eq_false]
    rw [List.singleton_append, List.length_singleton, walk_halfway hsuf,
      Text.breakCount_of_not_breaks hreturn, separatorCount_of_ascii (by decide)]
    simp [Text.breakCount, Text.separatorCount, Text.runes]
  | @carriage rest hnext _ ih =>
    have hreturn : Text.breaks (ascii '\r' :: (rest ++ suf)) = true := by
      rw [Text.breaks_return, bne_iff_ne]
      exact hnext
    rw [walk_append (Nat.zero_le _) (step_carriage hnext), if_pos rfl, List.drop_zero, ih,
      Text.breakCount_of_breaks hreturn, separatorCount_of_ascii (by decide)]
    dsimp only
    omega
  | @char b rest code n hfeed hreturn hdecode _ ih =>
    have hcount := Text.breakCount_append_plain (plain_of_decode hfeed hreturn hdecode) suf
      (rest.drop n)
    rw [List.cons_append, List.take_append_drop] at hcount
    rw [walk_append (Utf8.le_length_of_decode hdecode) (step_char hfeed hreturn hdecode suf), ih,
      hcount, separatorCount_of_decode hdecode]
    split <;> dsimp only <;> omega

/-- The part of the line that the walk has passed is the one that the table of
    lines gives, as long as no separator has cut it short. -/
theorem Steps.walk_seen {suf pre : Text} (h : Steps suf pre) (hnone : pre.separatorCount = 0)
    (line : Nat) (seen : Text) :
    let w := walk ⟨line, seen ++ (pre ++ suf), seen.length⟩ pre.length (pre ++ suf)
    w.start.take w.passed ++ (if Halfway pre suf then [ascii '\r'] else []) =
      Text.lastLine suf seen pre := by
  induction h generalizing line seen with
  | done =>
    have hhalf : ¬ Halfway [] suf := fun hhalf => by cases hhalf.1
    have hwalk (w : Walk) : walk w 0 suf = w := by cases suf <;> simp [walk]
    simp only [List.nil_append, List.length_nil, hwalk, if_neg hhalf, List.append_nil,
      List.take_left, Text.lastLine]
  | @feed rest _ ih =>
    rw [separatorCount_of_ascii (by decide)] at hnone
    have hhalf := halfway_append_iff (u := [ascii '\n']) (by decide) rest suf
    rw [List.singleton_append] at hhalf
    rw [walk_append (Nat.zero_le _) (step_feed _), if_pos rfl, List.drop_zero,
      Text.lastLine_of_breaks (Text.breaks_feed _), ← ih hnone (line + 1) []]
    simp only [hhalf, List.nil_append, List.length_nil]
  | @pair rest _ ih =>
    rw [separatorCount_of_ascii (by decide), separatorCount_of_ascii (by decide)] at hnone
    have hhalf := halfway_append_iff (u := [ascii '\r', ascii '\n']) (by decide) rest suf
    have hreturn : Text.breaks (ascii '\r' :: (ascii '\n' :: rest ++ suf)) = false := rfl
    rw [List.cons_append, List.singleton_append] at hhalf
    rw [walk_append (n := 1) (Nat.le_add_left 1 _) (step_pair _), if_pos rfl, List.drop_succ_cons,
      List.drop_zero, Text.lastLine_of_not_breaks hreturn,
      Text.lastLine_of_breaks (Text.breaks_feed _), ← ih hnone (line + 1) []]
    simp only [hhalf, List.nil_append, List.length_nil]
  | halfway hsuf =>
    have hreturn : Text.breaks (ascii '\r' :: ([] ++ suf)) = false := by
      rw [Text.breaks_return, List.nil_append, hsuf, bne_self_eq_false]
    rw [List.singleton_append, List.length_singleton, walk_halfway hsuf,
      Text.lastLine_of_not_breaks hreturn, Text.lastLine, if_pos ⟨rfl, hsuf⟩]
    dsimp only
    rw [List.take_left]
  | @carriage rest hnext _ ih =>
    rw [separatorCount_of_ascii (by decide)] at hnone
    have hhalf := halfway_carriage_iff hnext
    have hreturn : Text.breaks (ascii '\r' :: (rest ++ suf)) = true := by
      rw [Text.breaks_return, bne_iff_ne]
      exact hnext
    rw [walk_append (Nat.zero_le _) (step_carriage hnext), if_pos rfl, List.drop_zero,
      Text.lastLine_of_breaks hreturn, ← ih hnone (line + 1) []]
    simp only [hhalf, List.nil_append, List.length_nil]
  | @char b rest code n hfeed hreturn hdecode _ ih =>
    have hplain := plain_of_decode hfeed hreturn hdecode
    have hn := Utf8.le_length_of_decode hdecode
    have hlast := Text.lastLine_append_plain hplain suf seen (rest.drop n)
    have hhalf := halfway_append_iff (u := b :: rest.take n)
      (fun hlast => (hplain _ (List.mem_of_getLast? hlast)).2 rfl) (rest.drop n) suf
    rw [List.cons_append, List.take_append_drop] at hlast hhalf
    rw [separatorCount_of_decode hdecode] at hnone
    -- The character is added to what has been seen.
    have hstart : seen ++ (b :: rest ++ suf) =
        seen ++ (b :: rest.take n) ++ (rest.drop n ++ suf) := by
      simp only [List.append_assoc, List.cons_append]
      rw [← List.append_assoc (rest.take n), List.take_append_drop]
    have hpassed : seen.length + (n + 1) = (seen ++ (b :: rest.take n)).length := by
      rw [List.length_append, List.length_cons, List.length_take, Nat.min_eq_left hn]
    have hcode : (code == 0x2028 || code == 0x2029) = false := by
      rw [← Bool.not_eq_true]
      intro hcode
      rw [if_pos hcode] at hnone
      omega
    rw [walk_append hn (step_char hfeed hreturn hdecode suf), hlast, hcode, if_neg (by decide),
      ← ih (by omega) line]
    dsimp only
    simp only [hstart, hpassed, hhalf]

/-! ## Places of nodes and errors -/

/-- An error behind `pre` stands on the line that a node would stand on, plus
    one for every separator. -/
theorem line_locate_append {pre : Text} (h : pre.isUtf8 = true) (suf : Text) :
    (locate (pre ++ suf) pre.length).line =
      ((Source.ofText (pre ++ suf)).pos pre.length).line + pre.separatorCount := by
  rw [Source.pos_append, locate, (steps_of_isUtf8 suf h).walk_line]
  dsimp only
  omega

theorem column_locate_append {pre : Text} (h : pre.isUtf8 = true) (suf : Text)
    (hnone : pre.separatorCount = 0) :
    (locate (pre ++ suf) pre.length).column + (if Halfway pre suf then 1 else 0) =
      ((Source.ofText (pre ++ suf)).pos pre.length).column := by
  have hseen := (steps_of_isUtf8 suf h).walk_seen hnone 1 []
  rw [List.nil_append, List.length_nil] at hseen
  rw [Source.pos_append, ← hseen]
  unfold Walk.column locate
  split
  · rw [Text.runeCount_append (Text.seam_of_ascii (by decide) _ []),
      Text.runeCount_singleton (by decide)]
  · rw [List.append_nil]

end Excerpt

/-- Only white space begins with a line feed. -/
theorem not_halfway_of_isLexeme {t : Token} {pre rest : Text} (h : Lexer.IsLexeme t rest)
    (hkind : t.kind ≠ .whitespace) : ¬ Excerpt.Halfway pre (t.text ++ rest) := by
  rintro ⟨-, hfeed⟩
  obtain ⟨b, u, htext, hb⟩ := h.exists_cons hkind
  rw [htext] at hfeed
  obtain rfl : b = ascii '\n' := Option.some.inj hfeed
  exact absurd hb (by decide)

/-- A node and an error at the same token of a well-formed source. The error
    stands on a later line by the separators in front of the token, and if there
    are none at the same place, unless the token is white space that begins
    inside of a line break. -/
theorem node_pos_eq_error_pos_iff {src : Text} (hsrc : src.isUtf8 = true) {t : Token}
    (ht : t ∈ Lexer.lex 0 src) (fault : SyntaxFault) :
    let before : Text := src.take t.offset
    let behind : Text := src.drop t.offset
    let node := (Source.ofText src).pos t.offset
    let error := (SyntaxError.locate src t.offset fault).pos
    error.line = node.line + before.separatorCount ∧
      (node = error ↔ before.separatorCount = 0 ∧ ¬ Excerpt.Halfway before behind) ∧
      (t.kind ≠ .whitespace → ¬ Excerpt.Halfway before behind) := by
  obtain ⟨pre, rest, rfl, hoffset, hseam, hlexeme⟩ := Lexer.exists_seam_of_mem_lex ht
  rw [Nat.zero_add] at hoffset
  rw [Text.isUtf8_append hseam, Bool.and_eq_true] at hsrc
  rw [hoffset, List.take_left, List.drop_left]
  have hline := Excerpt.line_locate_append hsrc.1 (t.text ++ rest)
  have hcolumn := Excerpt.column_locate_append hsrc.1 (t.text ++ rest)
  refine ⟨hline, ⟨fun heq => ?_, fun ⟨hnone, hhalf⟩ => ?_⟩, not_halfway_of_isLexeme hlexeme⟩
  · have hnone : pre.separatorCount = 0 := by
      have hsame := congrArg Pos.line heq
      have hdiff : (SyntaxError.locate _ pre.length fault).pos.line = _ := hline
      omega
    refine ⟨hnone, fun hhalf => ?_⟩
    have hsame := congrArg Pos.column heq
    have hdiff := hcolumn hnone
    rw [if_pos hhalf, hsame] at hdiff
    exact absurd hdiff (Nat.succ_ne_self _)
  · have hsame := hcolumn hnone
    rw [if_neg hhalf] at hsame
    rw [hnone] at hline
    show _ = Pos.mk pre.length (Excerpt.locate _ pre.length).line (Excerpt.locate _ _).column
    rw [hline, ← Nat.add_zero (Excerpt.Walk.column _), hsame, Source.pos_append]

theorem node_pos_eq_error_pos_behind_comment :
    let src := utf8 "/* é */\r\n  .a \x7b\x7d"
    src.isUtf8 = true ∧ ⟨.delim, utf8 ".", 12⟩ ∈ Lexer.lex 0 src ∧
      (Source.ofText src).pos 12 = ⟨12, 2, 3⟩ ∧
      (Source.ofText src).pos 12 = (SyntaxError.locate src 12 .missingSelector).pos := by
  have hsrc : (utf8 "/* é */\r\n  .a \x7b\x7d").isUtf8 = true := by decide +kernel
  have ht : ⟨.delim, utf8 ".", 12⟩ ∈ Lexer.lex 0 (utf8 "/* é */\r\n  .a \x7b\x7d") := by
    decide +kernel
  obtain ⟨-, hsame, hwhole⟩ := node_pos_eq_error_pos_iff hsrc ht .missingSelector
  exact ⟨hsrc, ht, by decide +kernel, hsame.mpr ⟨by decide +kernel, hwhole (by decide)⟩⟩

/-- Behind the separator U+2028 in a comment, an error stands on the second line
    and a node on the first. -/
theorem error_pos_ne_node_pos_behind_separator :
    let src := utf8 "/*\u2028*/.a \x7b x(); \x7d"
    src.isUtf8 = true ∧ ⟨.delim, utf8 ".", 7⟩ ∈ Lexer.lex 0 src ∧
      (Source.ofText src).pos 7 = ⟨7, 1, 6⟩ ∧
      (SyntaxError.locate src 7 .missingSelector).pos = ⟨7, 2, 3⟩ := by
  decide +kernel

-- White space may begin inside of a line break, behind an escape.
example : ⟨.whitespace, utf8 "\n", 3⟩ ∈ Lexer.lex 0 (utf8 "\\4\r\n") := by decide +kernel

end MixinCss
