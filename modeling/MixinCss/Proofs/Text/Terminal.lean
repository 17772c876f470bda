/-
  MixinCss.Proofs.Text.Terminal

  The width of a colored line. The escape sequences of a style are not shown,
  whatever the line leaves open in front of the last one, so a line takes the
  same columns with them as without them (`Style.displayWidth_wrap`). Lines are
  therefore filled up alike, colored or not.
-/

import MixinCss.Proofs.Text.Runes
import MixinCss.Report.Style

namespace MixinCss

namespace Terminal

/-- What is shown of two texts with a seam between them is what is shown of the
    first, and of the second from where the first ends. -/
theorem exists_view_append {pre suf : Text} {skip : Nat} (hskip : skip ≤ pre.length)
    (hseam : Text.Seam pre suf) (s : Terminal) :
    ∃ s' : Terminal, s.view skip (pre ++ suf) = s.view skip pre ++ s'.view 0 suf := by
  induction pre generalizing s skip with
  | nil =>
    obtain rfl : skip = 0 := Nat.le_zero.mp hskip
    exact ⟨s, rfl⟩
  | cons b rest ih =>
    have hrest : Text.Seam rest suf := hseam.of_suffix (List.suffix_cons b rest)
    -- Each case of `view` adds the same to what is shown of the rest.
    have hmore (c : Option Nat) {n : Nat} (hn : n ≤ rest.length) (t : Terminal) :
        ∃ s' : Terminal, c :: t.view n (rest ++ suf) = c :: t.view n rest ++ s'.view 0 suf := by
      obtain ⟨s', hs'⟩ := ih hn hrest t
      exact ⟨s', by rw [hs', List.cons_append]⟩
    rw [List.cons_append]
    cases skip with
    | succ n =>
      rw [view, view]
      exact ih (Nat.le_of_succ_le_succ hskip) hrest s
    | zero =>
      rw [view, view]
      split
      · cases hdecode : Utf8.decode b rest with
        | none =>
          rw [Text.decode_append_eq_none hseam hdecode]
          exact hmore _ (Nat.zero_le _) _
        | some char =>
          have hn := Utf8.le_length_of_decode hdecode
          rw [Utf8.decode_congr hdecode (List.take_append_of_le_length hn)]
          exact hmore _ hn _
      · split
        · exact hmore _ (Nat.zero_le _) _
        · exact hmore _ (Nat.zero_le _) _

end Terminal

namespace Width

theorem total_nones (n : Nat) (cluster : Cluster) (width : Nat) (cs : List (Option Nat)) :
    total cluster width (List.replicate (n + 1) none ++ cs) = width + total .none 0 cs := by
  induction n generalizing cluster width with
  | zero => rfl
  | succ n ih =>
    rw [List.replicate_succ, List.cons_append, total, ih, Nat.zero_add]

theorem total_append_nones (n : Nat) (cluster : Cluster) (width : Nat) (cs : List (Option Nat)) :
    total cluster width (cs ++ List.replicate n none) = total cluster width cs := by
  fun_induction total cluster width cs with
  | case1 cluster width =>
    cases n with
    | zero => rfl
    | succ n =>
      have hnones := total_nones n cluster width []
      rwa [List.append_nil] at hnones
  | case2 cluster width rest ih => rw [List.cons_append, total, ih]
  | case3 cluster width c rest next columns hjoin ih =>
    rw [List.cons_append, total, hjoin]
    exact ih
  | case4 cluster width c rest hjoin ih =>
    rw [List.cons_append, total, hjoin]
    exact congrArg (width + ·) ih

end Width

namespace Style

theorem view_open (s : Style) (t : Text) :
    Terminal.ground.view 0 (utf8 "\x1b[" ++ utf8 s.code ++ utf8 "m" ++ t) =
      List.replicate (s.code.length + 3) none ++ Terminal.ground.view 0 t := by
  cases s <;> rfl

/-- An escape is read as the start of a sequence in every state but one, and
    there it is data. -/
theorem view_close (s : Terminal) : s.view 0 (utf8 "\x1b[0m") = List.replicate 4 none := by
  cases s <;> rfl

/-- A line takes the same columns inside of the escape sequences of a style. -/
theorem displayWidth_wrap (s : Style) (line : Text) :
    (s.wrap line).displayWidth = line.displayWidth := by
  have hseam : Text.Seam line (utf8 "\x1b[0m") := Text.seam_of_ascii (by decide) line _
  obtain ⟨last, hlast⟩ := Terminal.exists_view_append (Nat.zero_le _) hseam .ground
  rw [Text.displayWidth, wrap, List.append_assoc _ line, view_open, hlast, view_close,
    Width.total_nones, Nat.zero_add, Width.total_append_nones, Text.displayWidth]

/-- The sequences of another program take no columns either. -/
example : (utf8 "a\x1b[31mb\x1b]0;title\x07c").displayWidth = 3 := by decide +kernel

end Style

end MixinCss
