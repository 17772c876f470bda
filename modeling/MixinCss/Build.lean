/-
  MixinCss.Build

  Builds: every source file of a project is compiled to a file of its own. A
  file that fails is noted and does not stop the others.
-/

import MixinCss.Files.Scan
import MixinCss.Log

namespace MixinCss

/-- What a project is built with. -/
structure Project where
  sourceDir : Text
  /-- Where the outputs go; next to the sources if it is empty. -/
  outputDir : Text
  /-- Patterns of source files, relative to the source directory. -/
  includes : List Text
  useIgnoreList : Bool
  /-- Compile without writing. -/
  dryRun : Bool
  options : Options

/-- The output of a source file: its path below the source directory, below the
    output directory, with the extension `.css`. -/
def outputPath (sourceDir outputDir file : Text) : Text :=
  let name := file.dropTail (Path.extension file) ++ utf8 ".css"
  if outputDir.isEmpty then name else Path.join outputDir (Path.relativeTo sourceDir name)

/-- Why a file has no output. -/
inductive BuildFault where
  /-- The output would be the source itself. -/
  | overwritesSource
  | unreadable (fault : FileFault)
  | notCompiled (error : CompileError)
  /-- The directory of the output cannot be made. -/
  | noDirectory (fault : FileFault)
  | notWritten (path : Text) (fault : FileFault)
deriving Repr

def BuildFault.message : BuildFault → Text
  | .overwritesSource => utf8 "output would overwrite the source file"
  | .unreadable fault => fault.message
  | .notCompiled error => error.message
  | .noDirectory fault => utf8 "creating output directory: " ++ fault.message
  | .notWritten path fault => utf8 "writing " ++ path ++ utf8 ": " ++ fault.message

/-- A file that failed, by its path below the source directory. -/
structure BuildError where
  file : Text
  fault : BuildFault
deriving Repr

def BuildError.message (e : BuildError) : Text := e.file ++ utf8 ": " ++ e.fault.message

/-- A warning of a file, by its path below the source directory. -/
structure SourceWarning where
  file : Text
  warning : Warning
deriving DecidableEq, Repr

def SourceWarning.text (w : SourceWarning) : Text := w.file ++ [ascii ':'] ++ w.warning.text

/-- The course of a build: the files as they now are, and what has been done. -/
structure Build where
  tree : FileTree
  outputs : List Text
  /-- How many files have been written. -/
  written : Nat
  warnings : List SourceWarning
  errors : List BuildError
  log : List LogEntry
deriving Repr

namespace Build

def fail (b : Build) (file : Text) (fault : BuildFault) : Build :=
  { b with errors := b.errors ++ [⟨file, fault⟩] }

def note (b : Build) (entries : List LogEntry) : Build := { b with log := b.log ++ entries }

end Build

/-- Writes an output, after a line feed if it is not empty, into a directory
    that is made if need be. -/
def FileTree.putOutput (t : FileTree) (path css : Text) : Except BuildFault FileTree := do
  let t ← (t.makeDirectories (Path.directory path)).mapError .noDirectory
  let content := if css.isEmpty then css else css ++ [ascii '\n']
  (t.write path content).mapError (.notWritten path)

namespace Build

/-- Compiles one source file and writes its output. -/
def step (p : Project) (catalog : Catalog) (b : Build) (file : Text) : Build :=
  let name := Path.relativeTo p.sourceDir file
  let output := outputPath p.sourceDir p.outputDir file
  if b.tree.place output = b.tree.place file then b.fail name .overwritesSource
  else
    match b.tree.read file with
    | .error fault => b.fail name (.unreadable fault)
    | .ok src =>
      let b := b.note (LogEntry.ofSource catalog src)
      match compileWith catalog p.options.units src with
      | .error e => (b.note [.compileFailed name e.message]).fail name (.notCompiled e)
      | .ok compiled =>
        let b := { b with warnings := b.warnings ++ compiled.warnings.map (SourceWarning.mk name) }
        if p.dryRun then b.note [.dryRun name output]
        else
          match b.tree.putOutput output compiled.css with
          | .error fault => b.fail name fault
          | .ok tree =>
            { b with
              tree := tree
              outputs := b.outputs ++ [output]
              written := b.written + 1 }.note [.wrote name output]

/-- Builds files in order. -/
def run (p : Project) (t : FileTree) (s : Scan) : Build :=
  s.files.foldl (step p p.options.catalog)
    ⟨t, [], 0, [], [], [.scanned s.discovered s.skipped]⟩

end Build

/-- A project that was built. -/
structure BuildReport where
  scan : Scan
  build : Build
deriving Repr

/-- Builds a project. -/
def Project.build (p : Project) (t : FileTree) : Except PatternFault BuildReport := do
  let s ← t.scan p.sourceDir p.includes p.useIgnoreList
  return ⟨s, Build.run p t s⟩

/-- The messages of all errors in one line; nothing without errors. -/
def BuildReport.failure? (r : BuildReport) : Option Text :=
  if r.build.errors.isEmpty then none
  else some (Text.join (utf8 "; ") (r.build.errors.map BuildError.message))

end MixinCss
