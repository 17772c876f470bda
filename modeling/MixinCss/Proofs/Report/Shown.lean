/-
  MixinCss.Proofs.Report.Shown

  The line of the source that is shown under an issue. Places count a lone
  carriage return as the end of a line, but the line to show is looked up among
  the lines between line feeds. So the line shown is the one that the issue is
  about if every carriage return in front of the node has its line feed, and
  those behind it stand at the end of the line; the caret is then under the
  first character of the node.
-/

import MixinCss.Proofs.Files.Path
import MixinCss.Proofs.Grammar.Parts
import MixinCss.Proofs.Source.Lines
import MixinCss.Proofs.Token.Seams
import MixinCss.Report.Issues

namespace MixinCss

namespace Text

/-! ## Lines between line feeds -/

theorem split_head? (sep : UInt8) (t : Text) :
    (split sep t).head? = some (t.takeWhile (· != sep)) := by
  induction t with
  | nil => rfl
  | cons b rest ih =>
    by_cases hb : b = sep
    · rw [hb, split_cons_self, List.takeWhile_cons_of_neg (by simp)]
      rfl
    · obtain ⟨part, parts, hparts⟩ := exists_split_eq_cons sep rest
      rw [hparts] at ih
      rw [split_cons_of_ne hb hparts, List.takeWhile_cons_of_pos (by simpa using hb)]
      rw [List.head?_cons] at ih ⊢
      rw [Option.some.inj ih]

/-- Every carriage return in front of `offset` has a line feed behind it. -/
def ReturnsPaired (t : Text) (offset : Nat) : Prop :=
  ∀ k < offset, t[k]? = some (ascii '\r') → t[k + 1]? = some (ascii '\n')

instance (t : Text) (offset : Nat) : Decidable (ReturnsPaired t offset) :=
  inferInstanceAs (Decidable (∀ k < offset, t[k]? = _ → t[k + 1]? = _))

theorem ReturnsPaired.tail {b : UInt8} {t : Text} {n : Nat} (h : ReturnsPaired (b :: t) (n + 1)) :
    ReturnsPaired t n :=
  fun k hk hreturn => h (k + 1) (Nat.succ_lt_succ hk) hreturn

/-- Where no carriage return breaks a line, lines are what stands between line
    feeds. -/
theorem split_getElem?_breakCount {pre suf : Text}
    (h : ReturnsPaired (pre ++ suf) pre.length) {seen : Text} (hseen : ascii '\n' ∉ seen) :
    (split (ascii '\n') (seen ++ (pre ++ suf)))[breakCount suf pre]? =
      some (lastLine suf seen pre ++ suf.takeWhile (· != ascii '\n')) := by
  induction pre generalizing seen with
  | nil =>
    rw [breakCount, lastLine, ← List.head?_eq_getElem?, split_head?, List.nil_append,
      List.takeWhile_append_of_pos]
    intro b hb
    rw [bne_iff_ne]
    rintro rfl
    exact hseen hb
  | cons b rest ih =>
    rw [List.length_cons] at h
    have hrest := h.tail
    by_cases hfeed : b = ascii '\n'
    · subst hfeed
      rw [breakCount_of_breaks (breaks_feed _), lastLine_of_breaks (breaks_feed _),
        List.cons_append, split_append_cons, split_of_not_mem hseen, List.singleton_append,
        List.getElem?_cons_succ]
      exact ih hrest (List.not_mem_nil)
    · have hbreaks : breaks (b :: (rest ++ suf)) = false := by
        by_cases hreturn : b = ascii '\r'
        · have hnext := h 0 (Nat.succ_pos _) (by rw [hreturn]; rfl)
          rw [hreturn, breaks_return, bne_eq_false_iff_eq, List.head?_eq_getElem?]
          exact hnext
        · exact breaks_cons_eq_false hfeed hreturn _
      rw [breakCount_of_not_breaks hbreaks, lastLine_of_not_breaks hbreaks, List.cons_append,
        List.append_cons]
      refine ih hrest ?_
      rw [List.mem_append, List.mem_singleton, not_or]
      exact ⟨hseen, Ne.symm hfeed⟩

/-! ## The line around a place -/

/-- The line of a place, up to the place. -/
def lineHead (t : Text) (offset : Nat) : Text := lastLine (t.drop offset) [] (t.take offset)

/-- The line of a place, from the place to the end of the line. -/
def lineTail (t : Text) (offset : Nat) : Text :=
  (t.drop offset).takeWhile fun b => b != ascii '\n' && b != ascii '\r'

/-- Up to the next line feed, only carriage returns stand behind one. -/
def ReturnsLast (t : Text) : Prop :=
  ∀ b ∈ (t.takeWhile (· != ascii '\n')).dropWhile (· != ascii '\r'), b = ascii '\r'

instance (t : Text) : Decidable (ReturnsLast t) :=
  inferInstanceAs (Decidable (∀ b ∈ _, b = ascii '\r'))

/-- What is cut off at the end of a list is all that satisfies `p` there. -/
theorem reverse_dropWhile_eq_iff {α : Type} {p : α → Bool} {x w : List α}
    (hx : ∀ a ∈ x.getLast?, p a = false) :
    ((x ++ w).reverse.dropWhile p).reverse = x ↔ ∀ a ∈ w, p a = true := by
  rw [List.reverse_eq_iff, List.reverse_append]
  constructor
  · intro h a ha
    have hcut := List.takeWhile_append_dropWhile (p := p) (l := w.reverse ++ x.reverse)
    rw [h, List.append_left_inj] at hcut
    have hmem : a ∈ (w.reverse ++ x.reverse).takeWhile p := by
      rw [hcut]
      exact List.mem_reverse.mpr ha
    exact List.mem_takeWhile_imp hmem
  · intro h
    rw [List.dropWhile_append_of_pos fun a ha => h a (List.mem_reverse.mp ha)]
    cases hreverse : x.reverse with
    | nil => rfl
    | cons a rest =>
      refine List.dropWhile_cons_of_neg ?_
      rw [hx a (by rw [← List.head?_reverse, hreverse]; rfl)]
      decide

theorem lineHead_append (pre suf : Text) :
    lineHead (pre ++ suf) pre.length = lastLine suf [] pre := by
  rw [lineHead, List.take_left, List.drop_left]

theorem lineTail_ne_nil {b : UInt8} (hfeed : b ≠ ascii '\n') (hreturn : b ≠ ascii '\r')
    (pre rest : Text) : lineTail (pre ++ b :: rest) pre.length ≠ [] := by
  rw [lineTail, List.drop_left, List.takeWhile_cons_of_pos (by simp [hfeed, hreturn])]
  exact List.cons_ne_nil _ _

/-- The line between line feeds, without carriage returns at its end, is the line
    of the place exactly if they are the only ones behind the place. -/
theorem lineAt?_append_iff {pre rest : Text} {b : UInt8} (hfeed : b ≠ ascii '\n')
    (hreturn : b ≠ ascii '\r') (h : ReturnsPaired (pre ++ b :: rest) pre.length) :
    lineAt? (pre ++ b :: rest) (breakCount (b :: rest) pre + 1) =
        some (lineHead (pre ++ b :: rest) pre.length ++ lineTail (pre ++ b :: rest) pre.length) ↔
      ReturnsLast (b :: rest) := by
  have hsplit := split_getElem?_breakCount h (List.not_mem_nil)
  have hne := lineTail_ne_nil hfeed hreturn pre rest
  rw [List.nil_append] at hsplit
  rw [lineTail, List.drop_left] at hne
  rw [lineHead_append, lineTail, List.drop_left, lineAt?, if_neg (Nat.succ_ne_zero _),
    Nat.add_sub_cancel, hsplit, Option.map_some, Option.some_inj]
  generalize htail : (b :: rest).takeWhile (fun b => b != ascii '\n' && b != ascii '\r') = tail
    at hne
  -- What stands behind the line, up to the line feed, begins with a carriage return.
  have hline : (b :: rest).takeWhile (· != ascii '\n') =
      tail ++ ((b :: rest).takeWhile (· != ascii '\n')).dropWhile (· != ascii '\r') := by
    have hboth : ((b :: rest).takeWhile (· != ascii '\n')).takeWhile (· != ascii '\r') = tail := by
      rw [List.takeWhile_takeWhile, ← htail]
      simp only [Bool.decide_and, Bool.decide_eq_true, Bool.and_comm]
    rw [← hboth, List.takeWhile_append_dropWhile]
  rw [hline, ← List.append_assoc, reverse_dropWhile_eq_iff, ReturnsLast]
  · simp only [beq_iff_eq]
  · intro a ha
    rw [List.getLast?_append, List.getLast?_eq_some_getLast hne] at ha
    have hmem : a ∈ tail := by
      obtain rfl : tail.getLast hne = a := by simpa using ha
      exact List.getLast_mem hne
    rw [← htail] at hmem
    have hplain := List.mem_takeWhile_imp hmem
    simp only [Bool.and_eq_true, bne_iff_ne] at hplain
    exact beq_false_of_ne hplain.2

/-- The two parts of a line are cut between characters if the text is. -/
theorem seam_lineHead_lineTail {pre suf : Text} (h : Seam pre suf) :
    Seam (lineHead (pre ++ suf) pre.length) (lineTail (pre ++ suf) pre.length) := by
  have hhead := lastLine_suffix suf [] pre
  rw [List.nil_append] at hhead
  rw [lineHead_append, lineTail, List.drop_left]
  exact (h.of_suffix hhead).of_front (List.takeWhile_prefix _)

end Text

/-! ## Issues -/

/-- Every issue of a source shows the line of the source that has its number. -/
theorem lines_of_mem_ofSource {catalog : Catalog} {file src : Text} {i : Issue}
    (h : i ∈ Issue.ofSource catalog file src) : i.lines = (lineAt? src i.line.toNat).toList := by
  have hpos (pos : Pos) (severity : Severity) (text : Text) :
      let i := Issue.ofPos file src pos severity text
      i.lines = (lineAt? src i.line.toNat).toList := rfl
  unfold Issue.ofSource at h
  split at h
  · rw [List.mem_singleton.mp h]
    exact hpos _ _ _
  · rw [List.mem_append] at h
    rcases h with h | h
    · obtain ⟨w, -, rfl⟩ := List.mem_map.mp h
      exact hpos w.pos .warning w.message
    · split at h
      · cases h
      · rename_i e he
        rw [List.mem_singleton.mp h]
        cases e with
        | call name pos fault => exact hpos pos .error _
        | unexpectedNode kind => exact hpos .unknown .error _

/-- A tab below a tab, and a space below any other character. -/
def Rune.blankBelow (r : Rune) : UInt8 := if r.code = 0x09 then ascii '\t' else ascii ' '

/-- The caret below the first character of `tail`. -/
theorem caret_append {head tail : Text} (h : Text.Seam head tail) :
    Issue.caret (head ++ tail) (head.runeCount + 1 : Nat) =
      head.runes.map Rune.blankBelow ++ [ascii '^'] := by
  have hcount : (((head.runeCount + 1 : Nat) : Int) - 1).toNat = head.runes.length := by
    unfold Text.runeCount
    omega
  unfold Issue.caret
  rw [if_neg (by omega), hcount, Text.runes_append h, List.take_left]
  rfl

/-- With colors off, an issue of one line is shown in three: what it says, the
    line and the caret. -/
theorem render_off {i : Issue} {line : Text} (h : i.lines = [line]) {c : ReportConfig}
    (hc : c.printLines = true) :
    ∃ title, i.render c .off = Text.lines
      [title, ascii '\t' :: line, ascii '\t' :: Issue.caret line i.column] := by
  unfold Issue.render
  rw [h]
  dsimp only
  rw [if_pos hc]
  exact ⟨_, rfl⟩

/-- The line that is shown under an issue at a node of the source. If no lone
    carriage return stands in front of the node, it is the line of the node
    exactly if carriage returns behind the node come last on the line; and then
    the caret stands under the first character of the node, behind a tab for
    each tab and a space for each other character. -/
theorem issue_shows_its_line {src : Text} {sheet : Sheet} (hparse : parse src = .ok sheet)
    {n : Node} {p : Pos} (hn : n ∈ Sheet.members sheet) (hp : n.pos? = some p)
    {catalog : Catalog} {file : Text} {i : Issue} (hi : i ∈ Issue.ofSource catalog file src)
    (hline : i.line = p.line) (hcolumn : i.column = p.column)
    (hpaired : Text.ReturnsPaired src p.offset) :
    let head := Text.lineHead src p.offset
    let tail := Text.lineTail src p.offset
    0 < i.line ∧ i.column - 1 = head.runeCount ∧ tail ≠ [] ∧
      (i.lines = [head ++ tail] ↔ Text.ReturnsLast (src.drop p.offset)) ∧
      (Text.ReturnsLast (src.drop p.offset) → ∀ c : ReportConfig, c.printLines = true →
        ∃ title, i.render c .off = Text.lines
          [title, ascii '\t' :: (head ++ tail),
            ascii '\t' :: (head.runes.map Rune.blankBelow ++ [ascii '^'])]) := by
  obtain ⟨t, ht, hkind, hplace⟩ := parse_exists_first hparse hn hp
  obtain ⟨pre, rest, rfl, hoffset, hseam, hlexeme⟩ := Lexer.exists_seam_of_mem_lex ht
  obtain ⟨b, u, htext, hb⟩ := hlexeme.exists_cons hkind
  have hfeed : b ≠ ascii '\n' := by
    rintro rfl
    exact absurd hb (by decide)
  have hreturn : b ≠ ascii '\r' := by
    rintro rfl
    exact absurd hb (by decide)
  have hlines := lines_of_mem_ofSource hi
  rw [htext, List.cons_append] at hplace hseam hpaired hlines ⊢
  rw [hoffset, Nat.zero_add, Source.pos_append] at hplace
  subst hplace
  rw [hline, Int.toNat_natCast] at hlines
  dsimp only at hpaired hlines hcolumn hline ⊢
  have hiff := Text.lineAt?_append_iff hfeed hreturn hpaired
  rw [← Option.toList_eq_singleton_iff, ← hlines] at hiff
  rw [← Text.lineHead_append pre] at hcolumn
  rw [List.drop_left]
  refine ⟨by omega, by omega, Text.lineTail_ne_nil hfeed hreturn pre _, hiff, ?_⟩
  intro hlast c hc
  obtain ⟨title, hrender⟩ := render_off (hiff.mpr hlast) hc
  rw [hcolumn, caret_append (Text.seam_lineHead_lineTail hseam)] at hrender
  exact ⟨title, hrender⟩

/-- A call behind a declaration with a character of two bytes, on a line that
    ends with two carriage returns and a line feed. -/
theorem issue_shows_its_line_behind_declaration :
    let src := utf8 ".a \x7b\r\n\tcolor: \"é\";\tfoo();\r\r\n\x7d"
    ∃ i ∈ Issue.ofSource Options.standard.catalog (utf8 "a.mcss") src,
      i.line = 2 ∧ i.column = 14 ∧ i.lines = [utf8 "\tcolor: \"é\";\tfoo();"] ∧
      ∀ c : ReportConfig, c.printLines = true → ∃ title, i.render c .off = Text.lines
        [title, utf8 "\t\tcolor: \"é\";\tfoo();", utf8 "\t\t           \t^"] := by
  intro src
  have hnodes : (parse src).toOption.map (fun sheet => (Sheet.members sheet).filterMap Node.pos?) =
      some [⟨0, 1, 1⟩, ⟨7, 2, 2⟩, ⟨20, 2, 14⟩] := by decide +kernel
  obtain ⟨sheet, hparse, hplaces⟩ := Option.map_eq_some_iff.mp hnodes
  rw [toOption_eq_some_iff] at hparse
  have hplace : ⟨20, 2, 14⟩ ∈ (Sheet.members sheet).filterMap Node.pos? := by
    rw [hplaces]
    decide
  obtain ⟨n, hn, hp⟩ := List.mem_filterMap.mp hplace
  let i : Issue := ⟨checkerName, utf8 "unknown mixin: foo", .warning,
    [utf8 "\tcolor: \"é\";\tfoo();"], utf8 "a.mcss", 2, 14⟩
  have hi : i ∈ Issue.ofSource Options.standard.catalog (utf8 "a.mcss") src := by decide +kernel
  obtain ⟨-, -, -, -, hshown⟩ :=
    issue_shows_its_line hparse hn hp hi rfl rfl (by decide +kernel)
  have hline : ascii '\t' :: (src.lineHead 20 ++ src.lineTail 20) =
      utf8 "\t\tcolor: \"é\";\tfoo();" := by decide +kernel
  have hcaret : ascii '\t' :: ((src.lineHead 20).runes.map Rune.blankBelow ++ [ascii '^']) =
      utf8 "\t\t           \t^" := by decide +kernel
  dsimp only at hshown
  rw [hline, hcaret] at hshown
  exact ⟨i, hi, rfl, rfl, rfl, hshown (by decide +kernel)⟩

/-- Behind a lone carriage return the line is counted but not found. -/
theorem issue_shows_no_line_behind_return :
    let src := utf8 ".a \x7b\r\tfoo();\r\x7d\r"
    (parse src).toOption.map (fun sheet => (Sheet.members sheet).filterMap Node.pos?) =
        some [⟨0, 1, 1⟩, ⟨6, 2, 2⟩] ∧
      Issue.ofSource Options.standard.catalog (utf8 "a.mcss") src =
        [⟨checkerName, utf8 "unknown mixin: foo", .warning, [], utf8 "a.mcss", 2, 2⟩] ∧
      Text.lineHead src 6 ++ Text.lineTail src 6 = utf8 "\tfoo();" := by
  decide +kernel

end MixinCss
