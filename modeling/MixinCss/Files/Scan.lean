/-
  MixinCss.Files.Scan

  The source files of a project: those below a directory that fit one of the
  patterns and are not left out.
-/

import MixinCss.Files.Glob
import MixinCss.Files.Ignore
import MixinCss.Text.Quoted

namespace MixinCss

/-- What was found. The files are in byte order, each once. -/
structure Scan where
  files : List Text
  /-- How many more fit a pattern but are left out. -/
  skipped : Nat
deriving DecidableEq, Repr

namespace Scan

/-- How many files fit a pattern. -/
def discovered (s : Scan) : Nat := s.files.length + s.skipped

end Scan

/-- A pattern that is not well formed. -/
structure PatternFault where
  pattern : Text
deriving DecidableEq, Repr

def PatternFault.message (f : PatternFault) : Text :=
  utf8 "scan failed: glob pattern " ++ f.pattern.quoted ++ utf8 ": syntax error in pattern"

/-- The patterns that are used if none are given. -/
def standardIncludes : List Text := [utf8 "**/*.mcss"]

namespace FileTree

/-- Whether a path leads to a file. -/
def isFile (t : FileTree) (path : Text) : Bool := t.holdsFile (t.place path)

/-- The list of files to leave out that stands in a directory, if there is
    one. -/
def ignoreList (t : FileTree) (directory : Text) : IgnoreList :=
  match t.read (Path.join directory (utf8 ".gitignore")) with
  | .ok content => .ofText content
  | .error _ => []

/-- The files that fit one of the patterns, in byte order and each once. -/
def matching (t : FileTree) (directory : Text) (includes : List Text) :
    Except PatternFault (List Text) := do
  let found ← includes.mapM fun pattern =>
    match Glob.paths? t (Path.join directory pattern) with
    | some paths => .ok paths
    | none => .error ⟨pattern⟩
  return (Text.sort (found.flatten.filter t.isFile)).eraseReps

/-- Finds the source files. An empty directory is the working directory. -/
def scan (t : FileTree) (sourceDir : Text) (includes : List Text) (useIgnoreList : Bool) :
    Except PatternFault Scan := do
  let directory := if sourceDir.isEmpty then utf8 "." else sourceDir
  let rules := if useIgnoreList then t.ignoreList directory else []
  let found ← t.matching directory (if includes.isEmpty then standardIncludes else includes)
  let isIgnored (file : Text) :=
    match Path.relative? directory file with
    | some path => rules.ignores path
    | none => false
  let files := found.filter fun file => !isIgnored file
  return ⟨files, found.length - files.length⟩

end FileTree

end MixinCss
