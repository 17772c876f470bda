/-
  MixinCss.Proofs.Report.Coloring

  What colors change in a report. The escape sequences of a style stand around
  parts of the text and can be taken away again (`Text.Colored`). They take no
  columns, so what is left is the text as the styles lay it out without colors,
  and that is the text without styles only if each styled part of it has nothing
  to lay out. Each piece of a report is followed through all palettes at once
  (`Painted`); the pieces whose words are fixed have nothing to lay out, which
  leaves the parts of the issues that are shown. Among these is the caret, whose
  tabs are lost.
-/

import MixinCss.Proofs.Files.Path
import MixinCss.Proofs.Report.Layout
import MixinCss.Proofs.Text.Terminal
import MixinCss.Report.Format

namespace MixinCss

/-- The byte that begins an escape sequence. -/
def escape : UInt8 := 0x1b

namespace Text

/-! ## Escape sequences -/

/-- The bytes that a layout changes the numbers of. -/
def layoutBytes : List UInt8 := [ascii '\r', ascii '\t', ascii ' ']

/-- A text with parts of it inside of the escape sequences of styles. -/
inductive Colored : Text → Text → Prop where
  | nil : Colored [] []
  | byte (b : UInt8) {t u : Text} : Colored t u → Colored (b :: t) (b :: u)
  | wrap (s : Style) (part : Text) {t u : Text} :
    Colored t u → Colored (part ++ t) (s.wrap part ++ u)

namespace Colored

theorem refl : ∀ t : Text, Colored t t
  | [] => nil
  | b :: rest => byte b (refl rest)

theorem append {t u t' u' : Text} (h : Colored t t') (h' : Colored u u') :
    Colored (t ++ u) (t' ++ u') := by
  induction h with
  | nil => exact h'
  | byte b _ ih => exact byte b ih
  | wrap s part _ ih =>
    rw [List.append_assoc, List.append_assoc]
    exact wrap s part ih

/-- Escape sequences hold none of the bytes of a layout. -/
theorem count_eq {b : UInt8} (hb : b ∈ layoutBytes) {t u : Text} (h : Colored t u) :
    u.count b = t.count b := by
  induction h with
  | nil => rfl
  | byte c _ ih => rw [List.count_cons, List.count_cons, ih]
  | wrap s part _ ih =>
    have hstart : layoutBytes.all
        (fun b => (utf8 "\x1b[" ++ utf8 s.code ++ utf8 "m").count b == 0) = true := by
      cases s <;> decide
    have hstop : layoutBytes.all (fun b => (utf8 "\x1b[0m").count b == 0) = true := by decide
    rw [List.count_append, List.count_append, ih, Style.wrap, List.count_append,
      List.count_append, beq_iff_eq.mp (List.all_eq_true.mp hstart b hb),
      beq_iff_eq.mp (List.all_eq_true.mp hstop b hb), Nat.zero_add, Nat.add_zero]

end Colored

/-- A text without escape sequences, each of which ends with an `m`. `inside` says
    whether the text begins within one. -/
def uncolored (inside : Bool) : Text → Text
  | [] => []
  | b :: rest =>
    if inside then uncolored (b != ascii 'm') rest
    else if b = escape then uncolored true rest
    else b :: uncolored false rest

theorem uncolored_append {part : Text} (h : escape ∉ part) (t : Text) :
    uncolored false (part ++ t) = part ++ uncolored false t := by
  induction part with
  | nil => rfl
  | cons b rest ih =>
    rw [List.mem_cons, not_or] at h
    rw [List.cons_append, uncolored, if_neg Bool.false_ne_true, if_neg (Ne.symm h.1), ih h.2,
      List.cons_append]

theorem uncolored_wrap (s : Style) {part : Text} (h : escape ∉ part) (t : Text) :
    uncolored false (s.wrap part ++ t) = part ++ uncolored false t := by
  have hstart : uncolored false (s.wrap part ++ t) =
      uncolored false (part ++ (utf8 "\x1b[0m" ++ t)) := by
    rw [Style.wrap, List.append_assoc, List.append_assoc]
    cases s <;> rfl
  rw [hstart, uncolored_append h]
  rfl

theorem Colored.uncolored_eq {t u : Text} (h : Colored t u) (ht : escape ∉ t) :
    uncolored false u = t := by
  induction h with
  | nil => rfl
  | byte b _ ih =>
    rw [List.mem_cons, not_or] at ht
    rw [uncolored, if_neg Bool.false_ne_true, if_neg (Ne.symm ht.1), ih ht.2]
  | wrap s part _ ih =>
    rw [List.mem_append, not_or] at ht
    rw [uncolored_wrap s ht.1, ih ht.2]

/-! ## Level texts -/

theorem isLevel_of_line {t : Text} (htabs : ascii '\t' ∉ t) (hline : ascii '\n' ∉ t) :
    t.IsLevel := by
  refine ⟨htabs, ?_, ?_⟩
  · clear htabs
    induction t with
    | nil => rfl
    | cons b rest ih =>
      rw [occursIn, ih fun hmem => hline (List.mem_cons_of_mem _ hmem), Bool.or_false,
        Bool.eq_false_iff]
      intro hbreak
      exact hline ((List.isPrefixOf_iff_prefix.mp hbreak).subset (by decide))
  · rw [split_of_not_mem hline]
    intro l hl m hm
    rw [List.mem_singleton.mp hl, List.mem_singleton.mp hm]

end Text

namespace Style

theorem render_plain (s : Style) (t : Text) : s.render .plain t = t.laidOut := by
  unfold render Text.laidOut Text.untabbed
  rw [← Text.replace_singleton]
  exact congrArg (fun ls => Text.join [ascii '\n'] (ls.map (Text.filled (Text.widest ls))))
    (List.map_id _)

theorem widest_map_wrap (s : Style) (ls : List Text) :
    Text.widest (ls.map s.wrap) = Text.widest ls := by
  have hwidths : Text.displayWidth ∘ s.wrap = Text.displayWidth := funext s.displayWidth_wrap
  rw [Text.widest, List.map_map, hwidths, Text.widest]

theorem colored_render (s : Style) {palette : Palette} (h : palette ≠ .off) (t : Text) :
    Text.Colored (s.render .plain t) (s.render palette t) := by
  cases palette with
  | off => exact absurd rfl h
  | plain => exact .refl _
  | ansi =>
    have hjoin : ∀ (width : Nat) (ls : List Text),
        Text.Colored (Text.join [ascii '\n'] (ls.map (Text.filled width)))
          (Text.join [ascii '\n'] ((ls.map s.wrap).map (Text.filled width))) := by
      intro width ls
      have hline (l : Text) : Text.Colored (Text.filled width l) (Text.filled width (s.wrap l)) := by
        rw [Text.filled, Text.filled, s.displayWidth_wrap]
        exact .wrap s l (.refl _)
      induction ls with
      | nil => exact .nil
      | cons l rest ih =>
        cases rest with
        | nil => exact hline l
        | cons next rest =>
          simp only [List.map_cons, Text.join_cons_cons] at ih ⊢
          exact (hline l).append (.byte _ ih)
    rw [render_plain, Text.laidOut, Text.untabbed, ← Text.replace_singleton, ← widest_map_wrap s]
    exact hjoin _ _

end Style

/-! ## Pieces of a report -/

/-- A piece of a report in all palettes: colors are put around parts of the plain
    text, and that is the text without styles exactly if `level` holds. -/
structure Painted (piece : Palette → Text) (level : Prop) : Prop where
  laid : Text.Laid (piece .off) (piece .plain)
  same : piece .plain = piece .off ↔ level
  colored : ∀ palette ≠ .off, Text.Colored (piece .plain) (piece palette)

namespace Painted

variable {piece other : Palette → Text} {level level' : Prop}

theorem unstyled (t : Text) (h : level) : Painted (fun _ => t) level :=
  ⟨.refl t, iff_of_true rfl h, fun _ _ => .refl t⟩

theorem const (t : Text) : Painted (fun _ => t) True := unstyled t trivial

theorem style (s : Style) (t : Text) : Painted (s.render · t) t.IsLevel := by
  refine ⟨?_, ?_, fun palette h => s.colored_render h t⟩
  · rw [Style.render_plain]
    exact Text.laid_laidOut t
  · rw [Style.render_plain]
    exact Text.laidOut_eq_self_iff

theorem congr (h : Painted piece level) (hiff : level ↔ level') : Painted piece level' :=
  ⟨h.laid, h.same.trans hiff, h.colored⟩

/-- A styled text with nothing to lay out is the same in all palettes, colors apart. -/
theorem fixed (s : Style) {t : Text} (h : t.IsLevel) : Painted (s.render · t) True :=
  (style s t).congr (iff_true_intro h)

theorem append (h : Painted piece level) (h' : Painted other level') :
    Painted (fun palette => piece palette ++ other palette) (level ∧ level') where
  laid := h.laid.append h'.laid
  same := by rw [h.laid.append_eq_iff h'.laid, h.same, h'.same]
  colored palette hp := (h.colored palette hp).append (h'.colored palette hp)

theorem flatMap {α : Type} {f : α → Palette → Text} {P : α → Prop} (h : ∀ a, Painted (f a) (P a))
    (l : List α) : Painted (fun palette => l.flatMap (f · palette)) (∀ a ∈ l, P a) := by
  induction l with
  | nil => exact unstyled [] (List.forall_mem_nil _)
  | cons a rest ih => exact ((h a).append ih).congr List.forall_mem_cons.symm

/-- A piece that is one of two, whatever the palette is. -/
theorem ite {c : Prop} [Decidable c] (h : c → Painted piece level)
    (h' : ¬ c → Painted other level) :
    Painted (fun palette => if c then piece palette else other palette) level := by
  by_cases hc : c
  · simpa only [if_pos hc] using h hc
  · simpa only [if_neg hc] using h' hc

theorem lines_cons {rest : Palette → List Text} (h : Painted piece level)
    (h' : Painted (fun palette => Text.lines (rest palette)) level') :
    Painted (fun palette => Text.lines (piece palette :: rest palette)) (level ∧ level') := by
  simp only [Text.lines_cons]
  refine (h.append ((const [ascii '\n']).append h')).congr ?_
  rw [true_and]

theorem lines_append {front back : Palette → List Text}
    (h : Painted (fun palette => Text.lines (front palette)) level)
    (h' : Painted (fun palette => Text.lines (back palette)) level') :
    Painted (fun palette => Text.lines (front palette ++ back palette)) (level ∧ level') := by
  simp only [Text.lines_append]
  exact h.append h'

/-- Counting the bytes of a layout tells the text without styles from the plain
    one, also in color. -/
theorem colored_off_iff (h : Painted piece level) {palette : Palette} (hp : palette ≠ .off) :
    Text.Colored (piece .off) (piece palette) ↔ level := by
  rw [← h.same]
  refine ⟨fun hoff => ?_, fun heq => heq ▸ h.colored palette hp⟩
  have hcount {b : UInt8} (hb : b ∈ Text.layoutBytes) :
      (piece .plain).count b = (piece .off).count b :=
    ((h.colored palette hp).count_eq hb).symm.trans (hoff.count_eq hb)
  exact (h.laid.spaces (hcount (by decide)) (hcount (by decide))).2 (hcount (by decide))

theorem uncolored_eq_iff (h : Painted piece level) {palette : Palette} (hp : palette ≠ .off)
    (hescape : escape ∉ piece .off) :
    Text.uncolored false (piece palette) = piece .off ↔ level := by
  rw [(h.colored palette hp).uncolored_eq fun hmem =>
    hescape (h.laid.bytes _ hmem (by decide)), h.same]

end Painted

namespace Issue

/-! ## Issues -/

theorem isLevel_caret_iff {line : Text} {column : Int} :
    (caret line column).IsLevel ↔ ∀ r ∈ line.runes.take (column - 1).toNat, r.code ≠ 0x09 := by
  have hcaret : caret line column = (line.runes.take (column - 1).toNat).map
      (fun r => if r.code = 0x09 then ascii '\t' else ascii ' ') ++ [ascii '^'] := by
    rw [caret]
    split
    · rw [show (column - 1).toNat = 0 by omega, List.take_zero, List.map_nil, List.nil_append]
    · rfl
  constructor
  · intro h r hr hcode
    refine h.tabs ?_
    rw [hcaret, List.mem_append, List.mem_map]
    exact .inl ⟨r, hr, if_pos hcode⟩
  · intro h
    have hspaces : ∀ b ∈ caret line column, b = ascii ' ' ∨ b = ascii '^' := by
      intro b hb
      rw [hcaret, List.mem_append, List.mem_map, List.mem_singleton] at hb
      refine hb.imp_left ?_
      rintro ⟨r, hr, rfl⟩
      exact if_neg (h r hr)
    refine Text.isLevel_of_line (fun hmem => ?_) fun hmem => ?_
    · exact absurd (hspaces _ hmem) (by decide)
    · exact absurd (hspaces _ hmem) (by decide)

/-- An issue that has nothing to lay out where it is styled. -/
structure IsLevel (c : ReportConfig) (i : Issue) : Prop where
  location : i.location.IsLevel
  text : i.severity = .error → i.text.IsLevel
  linter : c.printLinterName → (utf8 " (" ++ i.linter ++ utf8 ")").IsLevel
  caret : c.printLines → ∀ line ∈ i.lines.head?,
    ∀ r ∈ line.runes.take (i.column - 1).toNat, r.code ≠ 0x09

/-- The first line of an issue. -/
def headLine (c : ReportConfig) (i : Issue) (palette : Palette) : Text :=
  Style.cyan.render palette i.location ++ [ascii ' '] ++
    (if i.severity = .error then Style.red.render palette i.text else i.text) ++
    Style.gray.render palette (if c.printLinterName then utf8 " (" ++ i.linter ++ utf8 ")" else [])

/-- The lines below it: the source and the caret. -/
def shownLines (c : ReportConfig) (i : Issue) (palette : Palette) : List Text :=
  i.lines.head?.elim [] fun line =>
    if c.printLines then
      i.lines.map ([ascii '\t'] ++ ·) ++
        [[ascii '\t'] ++ Style.yellow.render palette (Issue.caret line i.column)]
    else []

theorem render_eq (c : ReportConfig) (i : Issue) (palette : Palette) :
    i.render c palette = Text.lines (i.headLine c palette :: i.shownLines c palette) := by
  rw [render, headLine, shownLines]
  cases i.lines <;> rfl

theorem painted_headLine (c : ReportConfig) (i : Issue) :
    Painted (i.headLine c) (i.location.IsLevel ∧ (i.severity = .error → i.text.IsLevel) ∧
      (c.printLinterName → (utf8 " (" ++ i.linter ++ utf8 ")").IsLevel)) := by
  have hlocation := (Painted.style .cyan i.location).append (.const [ascii ' '])
  have htext : Painted
      (fun palette => if i.severity = .error then Style.red.render palette i.text else i.text)
      (i.severity = .error → i.text.IsLevel) := by
    refine .ite (fun herror => ?_) fun herror => ?_
    · exact (Painted.style .red i.text).congr (imp_iff_right herror).symm
    · exact Painted.unstyled i.text fun h => absurd h herror
  have hlinter : Painted (fun palette => Style.gray.render palette
      (if c.printLinterName then utf8 " (" ++ i.linter ++ utf8 ")" else []))
      (c.printLinterName → (utf8 " (" ++ i.linter ++ utf8 ")").IsLevel) := by
    refine (Painted.style .gray _).congr ?_
    split
    · rename_i hname
      exact (imp_iff_right hname).symm
    · rename_i hname
      exact iff_of_true (Text.isLevel_of_line (by decide) (by decide)) fun h => absurd h hname
  refine ((hlocation.append htext).append hlinter).congr ?_
  rw [and_true, and_assoc]

theorem painted_shownLines (c : ReportConfig) (i : Issue) :
    Painted (fun palette => Text.lines (i.shownLines c palette))
      (c.printLines → ∀ line ∈ i.lines.head?,
        ∀ r ∈ line.runes.take (i.column - 1).toNat, r.code ≠ 0x09) := by
  simp only [shownLines]
  cases i.lines.head? with
  | none => exact .unstyled [] fun _ _ h => absurd h (Option.not_mem_none _)
  | some line =>
    simp only [Option.elim_some, Option.mem_some_iff, forall_eq']
    split
    · rename_i hprint
      have hcaret := ((Painted.const [ascii '\t']).append
        (Painted.style .yellow (Issue.caret line i.column))).lines_cons (.const (Text.lines []))
      refine ((Painted.const (Text.lines _)).lines_append hcaret).congr ?_
      rw [imp_iff_right hprint, isLevel_caret_iff, true_and, true_and, and_true]
    · rename_i hprint
      exact .unstyled [] fun h => absurd h hprint

theorem painted_render (c : ReportConfig) (i : Issue) :
    Painted (i.render c) (i.IsLevel c) := by
  have h := (painted_headLine c i).lines_cons (painted_shownLines c i)
  simp only [← render_eq] at h
  refine h.congr ⟨?_, fun h => ⟨⟨h.location, h.text, h.linter⟩, h.caret⟩⟩
  rintro ⟨⟨hlocation, htext, hlinter⟩, hcaret⟩
  exact ⟨hlocation, htext, hlinter, hcaret⟩

end Issue

namespace Findings

/-! ## Summary and statistics -/

theorem painted_summary (r : Findings) (truncated : Nat) :
    Painted (fun palette => r.summary palette truncated) True := by
  unfold summary
  -- The numbers have no style; the last line is one of two fixed texts.
  refine ((Painted.const (Text.lines _)).lines_append ?_).congr and_self_iff
  by_cases htotal : r.issues.length = 0
  · simp only [if_pos htotal]
    have hnone := Painted.fixed .green (t := utf8 "No issues found")
      (Text.isLevel_of_line (by decide) (by decide))
    exact (hnone.lines_cons (.const (Text.lines []))).congr and_self_iff
  · simp only [if_neg htotal]
    have hhint := Painted.fixed .gray
      (t := utf8 "Hint: Run with --output-format full to see mixin usage statistics")
      (Text.isLevel_of_line (by decide) (by decide))
    have hlast := (Painted.const []).lines_cons (hhint.lines_cons (.const (Text.lines [])))
    refine ((Painted.const (Text.lines _)).lines_append hlast).congr ?_
    simp only [and_self]

theorem painted_heading (s : Style) {title : String} (h : (utf8 title).IsLevel)
    (rows : List Text) :
    Painted (fun palette => Text.lines (heading s palette title ++ rows)) True := by
  refine ((Painted.const []).lines_cons ((Painted.fixed s h).lines_cons
    (.const (Text.lines (_ :: rows))))).congr ?_
  simp only [and_self]

/-- Rows under a heading, if there are any. -/
theorem painted_section (s : Style) {title : String} (h : (utf8 title).IsLevel) (hidden : Bool)
    (rows : List Text) :
    Painted (fun palette => Text.lines
      (if hidden then [] else heading s palette title ++ rows)) True := by
  cases hidden with
  | true => exact .const []
  | false => exact painted_heading s h rows

theorem painted_statistics (r : Findings) : Painted r.statistics True := by
  have hcounts : Painted (fun palette => Text.lines (r.counts palette)) True :=
    painted_heading _ (Text.isLevel_of_line (by decide) (by decide)) _
  have hused : Painted (fun palette => Text.lines (r.mostUsed palette)) True :=
    painted_section _ (Text.isLevel_of_line (by decide) (by decide)) _ _
  have hunknown : Painted (fun palette => Text.lines (r.unknownNames palette)) True :=
    painted_section _ (Text.isLevel_of_line (by decide) (by decide)) _ _
  have hreplaced : Painted (fun palette => Text.lines (r.replacedNames palette)) True :=
    painted_section _ (Text.isLevel_of_line (by decide) (by decide)) _ _
  refine (((hcounts.lines_append hused).lines_append hunknown).lines_append hreplaced).congr ?_
  simp only [and_self]

/-! ## Reports -/

/-- The issues that a report shows. -/
def shownIssues (r : Findings) (format : ReportFormat) (c : ReportConfig) : List Issue :=
  if format = .issues ∨ format = .full then
    (Issue.sort r.issues).take (Issue.shownCount c r.issues.length)
  else []

theorem painted_report (r : Findings) (format : ReportFormat) (c : ReportConfig)
    (timestamp : Text) :
    Painted (fun palette => r.report format c palette timestamp)
      (∀ i ∈ r.shownIssues format c, i.IsLevel c) := by
  have hissues : Painted (fun palette => (Issue.renderAll c palette r.issues).1 ++
      r.summary palette (Issue.renderAll c .off r.issues).2)
      (∀ i ∈ (Issue.sort r.issues).take (Issue.shownCount c r.issues.length), i.IsLevel c) :=
    ((Painted.flatMap (Issue.painted_render c) _).append (r.painted_summary _)).congr
      (and_iff_left trivial)
  cases format with
  | issues => exact hissues
  | summary => exact r.painted_statistics.congr (iff_of_true trivial (List.forall_mem_nil _))
  | full => exact (hissues.append r.painted_statistics).congr (and_iff_left trivial)
  | json => exact .unstyled _ (List.forall_mem_nil _)

/-- Colors put escape sequences around parts of the laid out text. That they put
    them around parts of the text without styles is true exactly if no issue that
    is shown has anything to lay out, a tab in front of the caret included. If the
    text has no escape sequences of its own, this is also when taking all of them
    away gives it back. -/
theorem report_colored_iff (r : Findings) (format : ReportFormat) (c : ReportConfig)
    (timestamp : Text) {palette : Palette} (hp : palette ≠ .off) :
    Text.Colored (r.report format c .plain timestamp) (r.report format c palette timestamp) ∧
      (Text.Colored (r.report format c .off timestamp) (r.report format c palette timestamp) ↔
        ∀ i ∈ r.shownIssues format c, i.IsLevel c) ∧
      (escape ∉ r.report format c .off timestamp →
        (Text.uncolored false (r.report format c palette timestamp) =
            r.report format c .off timestamp ↔
          ∀ i ∈ r.shownIssues format c, i.IsLevel c)) := by
  have hreport := r.painted_report format c timestamp
  exact ⟨hreport.colored palette hp, hreport.colored_off_iff hp,
    fun hescape => hreport.uncolored_eq_iff hp hescape⟩

/-- One warning about a line of a source. -/
def oneWarning (line : Text) (column : Int) : Findings where
  issues := [{
    linter := checkerName
    text := utf8 "unknown mixin: foo"
    severity := .warning
    lines := [line]
    file := utf8 "a.mcss"
    line := 2
    column }]
  scanned := 1
  skipped := 0
  errors := 0
  warnings := 1
  mixinCalls := []
  unknownCalls := []
  overridden := []

theorem report_colored_of_spaces :
    Palette.ansi ≠ .off ∧
      escape ∉ (oneWarning (utf8 "  foo();") 3).report .issues ⟨true, true, true, 0⟩ .off [] ∧
      Text.uncolored false
          ((oneWarning (utf8 "  foo();") 3).report .issues ⟨true, true, true, 0⟩ .ansi []) =
        (oneWarning (utf8 "  foo();") 3).report .issues ⟨true, true, true, 0⟩ .off [] := by
  have hlevel : ∀ i ∈ (oneWarning (utf8 "  foo();") 3).shownIssues .issues ⟨true, true, true, 0⟩,
      i.IsLevel ⟨true, true, true, 0⟩ := by
    have hshown : (oneWarning (utf8 "  foo();") 3).shownIssues .issues ⟨true, true, true, 0⟩ =
        (oneWarning (utf8 "  foo();") 3).issues := by decide +kernel
    rw [hshown, oneWarning, List.forall_mem_singleton]
    exact ⟨Text.isLevel_of_line (by decide) (by decide), fun h => absurd h (by decide),
      fun _ => Text.isLevel_of_line (by decide) (by decide), fun _ => by decide +kernel⟩
  have hescape :
      escape ∉ (oneWarning (utf8 "  foo();") 3).report .issues ⟨true, true, true, 0⟩ .off [] := by
    decide +kernel
  have hcolored := report_colored_iff (oneWarning (utf8 "  foo();") 3) .issues
    ⟨true, true, true, 0⟩ [] (show Palette.ansi ≠ .off by decide)
  exact ⟨by decide, hescape, (hcolored.2.2 hescape).mpr hlevel⟩

/-- A tab in front of the caret is four spaces in color. -/
theorem report_caret_tab_lost :
    ((oneWarning (utf8 "\tfoo();") 2).report .issues ⟨true, true, true, 0⟩ .off []).startsWith
        (utf8 "a.mcss:2:2: unknown mixin: foo (cssmix)\n\t\tfoo();\n\t\t^\n") ∧
      (Text.uncolored false
        ((oneWarning (utf8 "\tfoo();") 2).report .issues ⟨true, true, true, 0⟩ .ansi [])).startsWith
        (utf8 "a.mcss:2:2: unknown mixin: foo (cssmix)\n\t\tfoo();\n\t    ^\n") := by
  decide +kernel

end Findings

end MixinCss
