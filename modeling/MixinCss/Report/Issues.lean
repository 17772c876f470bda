/-
  MixinCss.Report.Issues

  Issues as text: each with its place, and with the line of the source over a
  caret; then how many there are.
-/

import MixinCss.Check
import MixinCss.Report.Style

namespace MixinCss

/-- How issues are printed. -/
structure ReportConfig where
  /-- Use colors wherever the output goes. -/
  forceColors : Bool
  /-- Show the line of the source and a caret. -/
  printLines : Bool
  /-- Show the name of the tool. -/
  printLinterName : Bool
  /-- How many issues are shown at most; all unless it is positive. -/
  maxIssues : Int
deriving DecidableEq, Repr

/-- Environment variables by name. -/
abbrev Environment := List (Text × Text)

namespace Environment

/-- The value of a variable; empty if it is not set. -/
def get (env : Environment) (name : String) : Text := (env.lookup (utf8 name)).getD []

end Environment

namespace ReportConfig

/-- Whether styles are on: asked for, or known to be shown. -/
def showsColors (c : ReportConfig) (env : Environment) : Bool :=
  c.forceColors || !(env.get "FORCE_COLOR").isEmpty || env.get "GITHUB_ACTIONS" == utf8 "true"

/-- The palette of a report, given whether escape sequences can be shown. -/
def palette (c : ReportConfig) (env : Environment) (ansi : Bool) : Palette :=
  if c.showsColors env then if ansi then .ansi else .plain else .off

end ReportConfig

namespace Issue

/-- By file, then line, then column. -/
def notAfter (a b : Issue) : Bool :=
  if a.file = b.file then
    if a.line = b.line then a.column ≤ b.column else a.line < b.line
  else Text.before a.file b.file

/-- Issues in the order of their places; those at one place keep theirs. -/
def sort (issues : List Issue) : List Issue := issues.mergeSort notAfter

/-- A caret below a column of a line. Tabs in front of it are kept, so that it
    stands below the column however wide they are shown. -/
def caret (line : Text) (column : Int) : Text :=
  if column ≤ 0 then [ascii '^']
  else
    (line.runes.take (column - 1).toNat).map
      (fun r => if r.code = 0x09 then ascii '\t' else ascii ' ') ++ [ascii '^']

/-- `file:line:column:` -/
def location (i : Issue) : Text :=
  i.file ++ [ascii ':'] ++ Text.ofInt i.line ++ [ascii ':'] ++ Text.ofInt i.column ++ [ascii ':']

/-- An issue with its line of the source. -/
def render (c : ReportConfig) (palette : Palette) (i : Issue) : Text :=
  let text := if i.severity = .error then Style.red.render palette i.text else i.text
  let suffix := if c.printLinterName then utf8 " (" ++ i.linter ++ utf8 ")" else []
  let head := Style.cyan.render palette i.location ++ [ascii ' '] ++ text ++
    Style.gray.render palette suffix
  let shown :=
    match i.lines with
    | line :: _ =>
      if c.printLines then
        i.lines.map ([ascii '\t'] ++ ·) ++
          [[ascii '\t'] ++ Style.yellow.render palette (caret line i.column)]
      else []
    | [] => []
  Text.lines (head :: shown)

/-- How many of `n` issues are shown. -/
def shownCount (c : ReportConfig) (n : Nat) : Nat :=
  if 0 < c.maxIssues then min n c.maxIssues.toNat else n

/-- The issues that are shown and how many are not. -/
def renderAll (c : ReportConfig) (palette : Palette) (issues : List Issue) : Text × Nat :=
  let shown := (sort issues).take (shownCount c issues.length)
  (shown.flatMap (render c palette), issues.length - shown.length)

end Issue

/-- A number with the noun for one or for many. -/
def counted (n : Nat) (one many : String) : Text :=
  Text.ofNat n ++ [ascii ' '] ++ utf8 (if n = 1 then one else many)

/-- How many issues there are, by severity. -/
def Findings.summary (r : Findings) (palette : Palette) (truncated : Nat) : Text :=
  let total := r.issues.length
  let kinds :=
    if 0 < r.errors ∧ 0 < r.warnings then
      [counted r.errors "error" "errors", counted r.warnings "warning" "warnings"]
    else []
  let cut := if 0 < truncated then [counted truncated "issue" "issues" ++ utf8 " truncated"] else []
  let parts := kinds ++ cut
  let inner :=
    if parts.isEmpty then [] else utf8 " (" ++ Text.join (utf8 ", ") parts ++ utf8 ")"
  let head := counted total "issue" "issues" ++ inner ++ utf8 " in " ++
    counted r.scanned "file" "files" ++ utf8 ":"
  let bullet (name : String) (n : Nat) : List Text :=
    if 0 < n then [utf8 "* " ++ utf8 name ++ utf8 ": " ++ Text.ofNat n] else []
  let hint := utf8 "Hint: Run with --output-format full to see mixin usage statistics"
  Text.lines <| [[], head] ++
    if total = 0 then [Style.green.render palette (utf8 "No issues found")]
    else
      bullet "error" r.errors ++ bullet "warning" r.warnings ++
        [[], Style.gray.render palette hint]

end MixinCss
