/-
  MixinCss.Check

  Checks: every source file is parsed and expanded, and what is found is listed
  as issues. Nothing is written. Beside the issues a check counts how often
  each mixin is called in the sources.
-/

import MixinCss.Build

namespace MixinCss

/-! ## Issues -/

inductive Severity where
  | error
  | warning
  | other (name : Text)
deriving DecidableEq, Repr

def Severity.text : Severity → Text
  | .error => utf8 "error"
  | .warning => utf8 "warning"
  | .other name => name

/-- Something found in a file. -/
structure Issue where
  /-- The tool that found it. -/
  linter : Text
  text : Text
  severity : Severity
  /-- The lines of the source that it is about. -/
  lines : List Text
  file : Text
  line : Int
  column : Int
deriving DecidableEq, Repr

/-- The tool whose name stands under the issues of a check. -/
def checkerName : Text := utf8 "cssmix"

/-- A line of a source by its number, without carriage returns at its end. -/
def lineAt? (src : Text) (n : Nat) : Option Text :=
  if n = 0 then none
  else
    ((Text.split (ascii '\n') src)[n - 1]?).map fun line =>
      (line.reverse.dropWhile (· == ascii '\r')).reverse

/-- An issue at a place of a source. -/
def Issue.ofPos (file src : Text) (pos : Pos) (severity : Severity) (text : Text) : Issue where
  linter := checkerName
  text := text
  severity := severity
  lines := (lineAt? src pos.line).toList
  file := file
  line := pos.line
  column := pos.column

/-- A call of an unknown mixin is a warning. -/
def Issue.ofWarning (file src : Text) (w : Warning) : Issue :=
  .ofPos file src w.pos .warning w.message

/-- The error that stops the expansion of a source. -/
def Issue.ofExpandError (file src : Text) : ExpandError → Issue
  | .call name pos fault =>
    .ofPos file src pos .error (utf8 "mixin " ++ name ++ utf8 ": " ++ fault.message)
  | .unexpectedNode kind =>
    .ofPos file src .unknown .error (ExpandError.unexpectedNode kind).message

/-- The issues of one source: the warnings and, if there is one, the error that
    stops it. -/
def Issue.ofSource (catalog : Catalog) (file src : Text) : List Issue :=
  match parse src with
  | .error e => [.ofPos file src e.pos .error e.fault.message]
  | .ok sheet =>
    let visit := catalog.expand sheet
    (warningsOf visit.notes).map (Issue.ofWarning file src) ++
      match visit.result with
      | .ok _ => []
      | .error e => [.ofExpandError file src e]

/-! ## Usage -/

namespace Node

mutual

/-- The names of the calls in a node, in order. -/
def callNames : Node → List Text
  | .call name _ _ => [name]
  | .rule _ children _ => callNamesAll children
  | .declaration .. => []
  | .nothing => []
  | .foreign _ => []

def callNamesAll : List Node → List Text
  | [] => []
  | n :: rest => callNames n ++ callNamesAll rest

end

end Node

/-- The names of the calls in a sheet, in order. -/
def Sheet.callNames (sheet : Sheet) : List Text :=
  sheet.flatMap fun r => Node.callNamesAll r.children

/-- The names of the calls in a source; none if it cannot be parsed. -/
def sourceCalls (src : Text) : List Text :=
  match parse src with
  | .ok sheet => Sheet.callNames sheet
  | .error _ => []

/-- How often each name is called. -/
abbrev Usage := List (Text × Nat)

namespace Usage

/-- Counts names; the counts are in the byte order of the names. -/
def ofNames (names : List Text) : Usage :=
  (Text.sort names).eraseReps.map fun name => (name, names.count name)

def total (u : Usage) : Nat := u.foldr (fun entry n => entry.2 + n) 0

/-- Most used first, and names with the same count in byte order. -/
def rankedBefore (a b : Text × Nat) : Bool :=
  if a.2 = b.2 then Text.notAfter a.1 b.1 else b.2 < a.2

/-- The most used names; all of them unless `most` is positive. -/
def top (u : Usage) (most : Int) : Usage :=
  let ranked := u.mergeSort rankedBefore
  if 0 < most then ranked.take most.toNat else ranked

end Usage

/-! ## Results -/

/-- What a check found. -/
structure Findings where
  issues : List Issue
  scanned : Nat
  skipped : Nat
  errors : Nat
  warnings : Nat
  /-- Calls of mixins that are known. -/
  mixinCalls : Usage
  /-- Calls of names that are not. -/
  unknownCalls : Usage
  /-- The mixins of the library that the user has replaced. -/
  overridden : List Text
deriving DecidableEq, Repr

namespace Findings

def totalCalls (r : Findings) : Nat := Usage.total r.mixinCalls + Usage.total r.unknownCalls

end Findings

/-- The mixins of the user that stand in front of one of the library. -/
def Options.overridden (o : Options) : List Text :=
  Text.sort <| (o.mixins.map Prod.fst).filter fun name =>
    (Options.standard.catalog.find? name).isSome && o.catalog.isUserMixin name

/-- Why a check has no result. -/
inductive CheckError where
  | pattern (fault : PatternFault)
  | unreadable (file : Text) (fault : FileFault)
deriving DecidableEq, Repr

def CheckError.message : CheckError → Text
  | .pattern fault => fault.message
  | .unreadable file fault => utf8 "reading " ++ file ++ utf8 ": " ++ fault.message

/-- A source file with its path below the source directory. -/
structure SourceFile where
  name : Text
  src : Text
deriving DecidableEq, Repr

/-- Reads the source files of a project. -/
def Project.sources (p : Project) (t : FileTree) (s : Scan) : Except CheckError (List SourceFile) :=
  s.files.mapM fun file =>
    let name := Path.relativeTo p.sourceDir file
    match t.read file with
    | .ok src => .ok ⟨name, src⟩
    | .error fault => .error (.unreadable name fault)

/-- The log entries of checking one file. -/
def SourceFile.log (catalog : Catalog) (f : SourceFile) : List LogEntry :=
  LogEntry.ofSource catalog f.src ++ [.checked f.name (Issue.ofSource catalog f.name f.src).length]

/-- The result of checking source files. -/
def Findings.ofSources (o : Options) (s : Scan) (files : List SourceFile) : Findings :=
  let catalog := o.catalog
  let issues := files.flatMap fun f => Issue.ofSource catalog f.name f.src
  let calls := files.flatMap fun f => sourceCalls f.src
  let isKnown (name : Text) := (catalog.find? name).isSome
  { issues := issues
    scanned := s.files.length
    skipped := s.skipped
    errors := issues.countP fun i => i.severity = .error
    warnings := issues.countP fun i => i.severity = .warning
    mixinCalls := .ofNames (calls.filter isKnown)
    unknownCalls := .ofNames (calls.filter fun name => !isKnown name)
    overridden := o.overridden }

/-- Checks a project. The log entries come with the result. -/
def Project.check (p : Project) (t : FileTree) : Except CheckError (Findings × List LogEntry) := do
  let s ← (t.scan p.sourceDir p.includes p.useIgnoreList).mapError .pattern
  let files ← p.sources t s
  return (.ofSources p.options s files, files.flatMap (SourceFile.log p.options.catalog))

end MixinCss
