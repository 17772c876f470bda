/-
  MixinCss.Report.Statistics

  How often mixins are called, and the outcome of a build, as text.
-/

import MixinCss.Report.Issues

namespace MixinCss

namespace Findings

/-- A heading over a line of dashes, after an empty line. -/
def heading (style : Style) (palette : Palette) (title : String) : List Text :=
  [[], style.render palette (utf8 title), List.replicate title.length (ascii '-')]

/-- The numbers of files, calls and errors. -/
def counts (r : Findings) (palette : Palette) : List Text :=
  let row (label : String) (n : Nat) : Text :=
    utf8 label ++ Text.spaces (18 - label.length) ++ Text.ofNat n
  heading .cyan palette "Mixin Statistics" ++ [
    row "Files Scanned:" r.scanned,
    row "Mixin Calls:" r.totalCalls,
    row "Distinct Mixins:" r.mixinCalls.length,
    row "Unknown Mixins:" r.unknownCalls.length,
    row "Errors:" r.errors]

/-- The ten mixins that are called most. -/
def mostUsed (r : Findings) (palette : Palette) : List Text :=
  let top := Usage.top r.mixinCalls 10
  if top.isEmpty then []
  else
    heading .green palette "Most Used" ++ top.zipIdx.map fun ((name, n), i) =>
      Text.ofNat (i + 1) ++ utf8 ". " ++ name ++ utf8 " - " ++ counted n "call" "calls"

/-- The names that are called and not known. -/
def unknownNames (r : Findings) (palette : Palette) : List Text :=
  if r.unknownCalls.isEmpty then []
  else
    heading .yellow palette "Unknown Mixins" ++
      (r.unknownCalls.mergeSort fun a b => Text.notAfter a.1 b.1).map fun (name, n) =>
        utf8 "• " ++ name ++ utf8 " (" ++ counted n "call" "calls" ++ utf8 ")"

/-- The mixins of the library that the user has replaced. -/
def replacedNames (r : Findings) (palette : Palette) : List Text :=
  if r.overridden.isEmpty then []
  else
    heading .gray palette "Overridden Built-ins" ++ r.overridden.map fun name =>
      utf8 "• " ++ name

/-- All statistics of a check. -/
def statistics (r : Findings) (palette : Palette) : Text :=
  Text.lines (r.counts palette ++ r.mostUsed palette ++ r.unknownNames palette ++
    r.replacedNames palette)

end Findings

/-- The outcome of a build as it is printed. -/
structure BuildSummary where
  scanned : Nat
  skipped : Nat
  written : Nat
  warnings : List SourceWarning
deriving DecidableEq, Repr

def BuildReport.summary (r : BuildReport) : BuildSummary where
  scanned := r.scan.files.length
  skipped := r.scan.skipped
  written := r.build.written
  warnings := r.build.warnings

/-- The numbers of files and the warnings of a build. -/
def BuildSummary.render (s : BuildSummary) (palette : Palette) (outputDir : Text) : Text :=
  let destination := if outputDir.isEmpty then utf8 "source directories" else outputDir
  let compiled :=
    utf8 "Compiled " ++ counted s.written "file" "files" ++ utf8 " into " ++ destination
  Text.lines <|
    (if 0 < s.written then [Style.green.render palette compiled] else []) ++
    [utf8 "  Files scanned: " ++ Text.ofNat s.scanned] ++
    (if 0 < s.skipped then [utf8 "  Files skipped: " ++ Text.ofNat s.skipped] else []) ++
    s.warnings.map fun w =>
      utf8 "  " ++ Style.yellow.render palette (utf8 "Warning:") ++ [ascii ' '] ++ w.text

end MixinCss
