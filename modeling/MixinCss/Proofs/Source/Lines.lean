/-
  MixinCss.Proofs.Source.Lines

  The line and the column of a place, without the table of line starts. A byte
  breaks the line if it is a line feed, or a carriage return with no line feed
  behind it; so the two together break it once, at the line feed. The line of a
  place counts the breaks in front of it, and the column the characters since
  the last one (`Source.pos_append`).
-/

import MixinCss.Source.Lines

namespace MixinCss

namespace Text

/-- Whether the first byte of a text breaks the line. -/
def breaks : Text → Bool
  | [] => false
  | b :: rest => b == ascii '\n' || b == ascii '\r' && rest.head? != some (ascii '\n')

/-- The line breaks of a text in front of `suf`. -/
def breakCount (suf : Text) : Text → Nat
  | [] => 0
  | b :: rest =>
    if breaks (b :: (rest ++ suf)) then breakCount suf rest + 1 else breakCount suf rest

/-- The end of a text in front of `suf`, from its last line break on; a line
    that began earlier has been `seen` up to here. -/
def lastLine (suf : Text) (seen : Text) : Text → Text
  | [] => seen
  | b :: rest =>
    if breaks (b :: (rest ++ suf)) then lastLine suf [] rest
    else lastLine suf (seen ++ [b]) rest

section Equations

variable {b : UInt8} {rest suf : Text}

theorem breakCount_of_breaks (h : breaks (b :: (rest ++ suf)) = true) :
    breakCount suf (b :: rest) = breakCount suf rest + 1 := if_pos h

theorem breakCount_of_not_breaks (h : breaks (b :: (rest ++ suf)) = false) :
    breakCount suf (b :: rest) = breakCount suf rest := if_neg (by rw [h]; decide)

theorem lastLine_of_breaks (h : breaks (b :: (rest ++ suf)) = true) (seen : Text) :
    lastLine suf seen (b :: rest) = lastLine suf [] rest := if_pos h

theorem lastLine_of_not_breaks (h : breaks (b :: (rest ++ suf)) = false) (seen : Text) :
    lastLine suf seen (b :: rest) = lastLine suf (seen ++ [b]) rest := if_neg (by rw [h]; decide)

end Equations

theorem breaks_feed (rest : Text) : breaks (ascii '\n' :: rest) = true := rfl

/-- A carriage return leaves the break to a line feed behind it. -/
theorem breaks_return (rest : Text) :
    breaks (ascii '\r' :: rest) = (rest.head? != some (ascii '\n')) := rfl

theorem breaks_cons_eq_false {b : UInt8} (hfeed : b ≠ ascii '\n') (hreturn : b ≠ ascii '\r')
    (rest : Text) : breaks (b :: rest) = false := by
  simp [breaks, hfeed, hreturn]

section Plain

variable {u : Text} (hu : ∀ b ∈ u, b ≠ ascii '\n' ∧ b ≠ ascii '\r') (suf : Text)
include hu

theorem breakCount_append_plain (rest : Text) :
    breakCount suf (u ++ rest) = breakCount suf rest := by
  induction u with
  | nil => rfl
  | cons b u ih =>
    rw [List.forall_mem_cons] at hu
    rw [List.cons_append, breakCount_of_not_breaks (breaks_cons_eq_false hu.1.1 hu.1.2 _),
      ih hu.2]

theorem lastLine_append_plain (seen rest : Text) :
    lastLine suf seen (u ++ rest) = lastLine suf (seen ++ u) rest := by
  induction u generalizing seen with
  | nil => rw [List.nil_append, List.append_nil]
  | cons b u ih =>
    rw [List.forall_mem_cons] at hu
    rw [List.cons_append, lastLine_of_not_breaks (breaks_cons_eq_false hu.1.1 hu.1.2 _),
      ih hu.2, ← List.append_cons]

end Plain

/-- The last line is the end of what has been read. -/
theorem lastLine_suffix (suf seen pre : Text) : lastLine suf seen pre <:+ seen ++ pre := by
  induction pre generalizing seen with
  | nil => exact ⟨[], by rw [List.append_nil, lastLine, List.nil_append]⟩
  | cons b rest ih =>
    cases hb : breaks (b :: (rest ++ suf)) with
    | true =>
      rw [lastLine_of_breaks hb]
      have hback : rest <:+ seen ++ b :: rest := ⟨seen ++ [b], by simp⟩
      exact (ih []).trans hback
    | false =>
      rw [lastLine_of_not_breaks hb]
      exact List.append_cons seen b rest ▸ ih (seen ++ [b])

end Text

/-! ## The table of lines -/

theorem lineStartsFrom_cons (offset : Nat) (b : UInt8) (rest : Text) :
    lineStartsFrom offset (b :: rest) =
      if Text.breaks (b :: rest) then (offset + 1) :: lineStartsFrom (offset + 1) rest
      else lineStartsFrom (offset + 1) rest := by
  have hfeeds (k : Nat) (more : Text) :
      lineStartsFrom k (ascii '\n' :: more) = (k + 1) :: lineStartsFrom (k + 1) more := by
    rw [lineStartsFrom.eq_def]
    exact if_pos rfl
  by_cases hfeed : b = ascii '\n'
  · rw [hfeed, hfeeds]
    rfl
  rw [lineStartsFrom.eq_def]
  dsimp only
  rw [if_neg hfeed]
  by_cases hreturn : b = ascii '\r'
  · rw [if_pos hreturn, hreturn]
    match rest with
    | [] => rfl
    | c :: more =>
      dsimp only
      by_cases hc : c = ascii '\n'
      · -- The line feed breaks the line in place of both.
        rw [if_pos hc, hc, hfeeds]
        rfl
      · have hbreaks : Text.breaks (ascii '\r' :: c :: more) = true := by simp [Text.breaks, hc]
        rw [if_neg hc, hbreaks, if_pos rfl]
  · rw [if_neg hreturn, Text.breaks_cons_eq_false hfeed hreturn]
    rfl

theorem lt_of_mem_lineStartsFrom {offset start : Nat} {t : Text}
    (h : start ∈ lineStartsFrom offset t) : offset < start := by
  induction t generalizing offset with
  | nil => cases h
  | cons b rest ih =>
    rw [lineStartsFrom_cons] at h
    split at h
    · rcases List.mem_cons.mp h with rfl | h
      · exact Nat.lt_succ_self offset
      · exact Nat.lt_of_succ_lt (ih h)
    · exact Nat.lt_of_succ_lt (ih h)

/-- The starts of the lines up to a place, and where the last of them is. -/
theorem lineStartsFrom_append (pre suf : Text) (offset start : Nat) (seen : Text)
    (hstart : start + seen.length = offset) :
    let starts := (lineStartsFrom offset (pre ++ suf)).takeWhile (· ≤ offset + pre.length)
    starts.length = Text.breakCount suf pre ∧
      starts.getLast?.getD start + (Text.lastLine suf seen pre).length = offset + pre.length := by
  induction pre generalizing offset start seen with
  | nil =>
    -- All further lines start behind the place.
    have hnone : (lineStartsFrom offset suf).takeWhile (· ≤ offset) = [] := by
      cases hstarts : lineStartsFrom offset suf with
      | nil => rfl
      | cons next more =>
        have hlt : offset < next :=
          lt_of_mem_lineStartsFrom (by rw [hstarts]; exact List.mem_cons_self)
        exact List.takeWhile_cons_of_neg (by simpa using hlt)
    simp [hnone, Text.breakCount, Text.lastLine, hstart]
  | cons b rest ih =>
    have hlength : offset + (b :: rest).length = offset + 1 + rest.length := by
      rw [List.length_cons]
      omega
    rw [hlength, List.cons_append, lineStartsFrom_cons]
    cases hb : Text.breaks (b :: (rest ++ suf)) with
    | true =>
      obtain ⟨hcount, hlast⟩ := ih (offset + 1) (offset + 1) [] rfl
      rw [Text.breakCount_of_breaks hb, Text.lastLine_of_breaks hb, if_pos rfl,
        List.takeWhile_cons_of_pos (by simp)]
      refine ⟨congrArg (· + 1) hcount, ?_⟩
      rw [List.getLast?_cons]
      exact hlast
    | false =>
      rw [Text.breakCount_of_not_breaks hb, Text.lastLine_of_not_breaks hb, if_neg (by decide)]
      exact ih (offset + 1) start (seen ++ [b]) (by rw [List.length_append, ← hstart]; rfl)

namespace Source

/-- The place behind `pre`: its line counts the breaks in `pre`, and its column
    the characters since the last of them. -/
theorem pos_append (pre suf : Text) :
    (ofText (pre ++ suf)).pos pre.length =
      ⟨pre.length, Text.breakCount suf pre + 1, (Text.lastLine suf [] pre).runeCount + 1⟩ := by
  obtain ⟨hcount, hlast⟩ := lineStartsFrom_append pre suf 0 0 [] rfl
  rw [Nat.zero_add] at hcount hlast
  generalize hstarts : (lineStartsFrom 0 (pre ++ suf)).takeWhile (· ≤ pre.length) = starts
    at hcount hlast
  obtain ⟨front, hfront⟩ := Text.lastLine_suffix suf [] pre
  have hstart : starts.getLast?.getD 0 = front.length := by
    have hlength := congrArg List.length hfront
    rw [List.length_append, List.nil_append] at hlength
    omega
  have hseen : ((pre ++ suf).drop front.length).take (pre.length - front.length) =
      Text.lastLine suf [] pre := by
    generalize Text.lastLine suf [] pre = line at hfront
    obtain rfl : front ++ line = pre := hfront
    rw [List.append_assoc, List.drop_left, List.length_append, Nat.add_sub_cancel_left,
      List.take_left]
  unfold pos ofText startsOfLines
  dsimp only
  rw [List.takeWhile_cons_of_pos (by simp), hstarts, List.getLast?_cons, Option.getD_some, hstart,
    hseen, List.length_cons, hcount, Nat.max_eq_right (Nat.le_add_left 1 _)]

end Source

end MixinCss
