/-
  MixinCss.Command

  The command line program. A run is a function: from the files, the
  environment and the words of the command line to what is printed, the exit
  code and the files as they are afterwards.
-/

import MixinCss.Check
import MixinCss.Config.Flags
import MixinCss.Config.Load
import MixinCss.Report.Format

namespace MixinCss

/-! ## Commands and their flags -/

inductive Command where
  /-- Without the name of a command a project is built. -/
  | standard
  | build
  | check
  | mixins
  | init
  | completion
  | version
  | help
deriving DecidableEq, Repr

namespace Command

/-- The commands that have a name of their own, in the order of suggestions. -/
def namedCommands : List Command := [.build, .check, .mixins, .init, .completion, .version]

def name : Command → String
  | .standard => "cssmix"
  | .build => "build"
  | .check => "check"
  | .mixins => "mixins"
  | .init => "init"
  | .completion => "completion"
  | .version => "version"
  | .help => "help"

/-- The command with a name. -/
def ofName? (word : Text) : Option Command :=
  (namedCommands ++ [Command.help]).find? fun c => utf8 c.name == word

/-- Flags of all commands. -/
def commonFlags : FlagSet := [
  { name := "verbose", letter := some 'v', kind := .switch },
  { name := "quiet", kind := .switch },
  { name := "color", kind := .switch },
  { name := "config", kind := .text }]

/-- Flags that choose the source files. -/
def sourceFlags : FlagSet := [
  { name := "source", kind := .text },
  { name := "include", kind := .texts },
  { name := "gitignore", kind := .switch }]

def buildFlags : FlagSet := [
  { name := "output-dir", kind := .text },
  { name := "dry-run", kind := .switch },
  { name := "unit", kind := .text },
  { name := "line-height-unit", kind := .text }]

def checkFlags : FlagSet := [
  { name := "strict", kind := .switch },
  { name := "output-format", kind := .text },
  { name := "max-issues", kind := .whole },
  { name := "print-lines", kind := .switch },
  { name := "print-linter-name", kind := .switch }]

def helpFlag : Flag := { name := "help", letter := some 'h', kind := .switch }

/-- The flags that a command knows, apart from the one that asks for help. -/
def flags : Command → FlagSet
  | .standard => commonFlags ++ sourceFlags ++ buildFlags
  | .build => commonFlags ++ sourceFlags ++ buildFlags
  | .check => commonFlags ++ sourceFlags ++ checkFlags
  | .init => commonFlags ++ [{ name := "force", kind := .switch }]
  | .mixins => commonFlags
  | .completion => commonFlags
  | .version => commonFlags
  | .help => commonFlags

/-! ## Choice of the command -/

/-- The words of a command line that are no flags. A flag that is not a switch
    hides the word behind it, and everything if fewer than two words are left. -/
def words (flags : FlagSet) : List Text → List Text
  | [] => []
  | word :: rest =>
    if word = utf8 "--" then []
    else if flags.takesNext word then
      match rest with
      | _ :: next :: more => words flags (next :: more)
      | _ => []
    else if word.isEmpty || word.startsWith [ascii '-'] then words flags rest
    else word :: words flags rest

/-- The command line without the first word that names the command. -/
def without (flags : FlagSet) (command : Text) : List Text → List Text
  | [] => []
  | word :: rest =>
    if word = utf8 "--" then word :: rest
    else if flags.takesNext word then
      match rest with
      | value :: more => word :: value :: without flags command more
      | [] => [word]
    else if !word.startsWith [ascii '-'] && word = command then rest
    else word :: without flags command rest

/-- The edit distances from a text to every beginning of another one, given the
    distances from the text without its last byte. -/
def nextRow (b : UInt8) (left : Nat) : List Nat → Text → List Nat
  | above :: rest, c :: more =>
    match rest with
    | next :: _ =>
      let d := if b = c then above else min (min next left) above + 1
      d :: nextRow b d rest more
    | [] => []
  | _, _ => []

/-- The number of bytes to insert, remove or replace between two texts. -/
def editDistance (s t : Text) : Nat :=
  let first := List.range (t.length + 1)
  let last := s.foldl (fun row b =>
    let start := (row.head?.getD 0) + 1
    start :: nextRow b start row t) first
  last.getLast?.getD 0

/-- The commands whose names are close to a word. -/
def suggestions (word : Text) : List Command :=
  let typed := Text.lowered word
  namedCommands.filter fun c =>
    editDistance typed (utf8 c.name) ≤ 2 || (utf8 c.name).startsWith typed

/-- Why a command line is refused. -/
inductive UsageError where
  | unknownCommand (word : Text)
  | flag (fault : FlagFault)
  | wordCount (most given : Nat)
  | badWord (word : Text)
deriving DecidableEq, Repr

def UsageError.message : UsageError → Text
  | .unknownCommand word =>
    let close := suggestions word
    utf8 "unknown command " ++ word.quoted ++ utf8 " for \"cssmix\"" ++
      if close.isEmpty then []
      else
        utf8 "\n\nDid you mean this?\n" ++
          Text.lines (close.map fun c => [ascii '\t'] ++ utf8 c.name)
  | .flag fault => fault.message
  | .wordCount most given =>
    utf8 "accepts " ++ Text.ofNat most ++ utf8 " arg(s), received " ++ Text.ofNat given
  | .badWord word => utf8 "invalid argument " ++ word.quoted ++ utf8 " for \"cssmix completion\""

/-- The command of a command line and the words that are left for it. -/
def choose (line : List Text) : Except UsageError (Command × List Text) :=
  let flags := Command.standard.flags
  match words flags line with
  | [] => .ok (.standard, line)
  | word :: _ =>
    match ofName? word with
    | some c => .ok (c, without flags word line)
    | none => .error (.unknownCommand word)

/-- The shells for which a completion script may be asked. -/
def shells : List String := ["bash", "zsh", "fish", "powershell"]

/-- Whether the words besides the flags fit the command. -/
def checkWords (c : Command) (ws : List Text) : Except UsageError Unit :=
  match c with
  | .completion =>
    match ws with
    | [word] => if shells.any fun s => utf8 s == word then .ok () else .error (.badWord word)
    | _ => .error (.wordCount 1 ws.length)
  | _ => .ok ()

end Command

/-- A command with the flags that were set for it. -/
structure Request where
  command : Command
  flags : Settings
deriving Repr

/-- Reads a command line. Flags are read before the other words are checked, and
    the flag that asks for help comes before everything else. -/
def Request.ofLine (line : List Text) : Except Command.UsageError Request := do
  let (c, rest) ← Command.choose line
  let p ← (FlagSet.parse (c.flags ++ [Command.helpFlag]) rest).mapError .flag
  if p.settings.getSwitch "help" then return ⟨.help, []⟩
  c.checkWords p.words
  return ⟨c, p.settings⟩

/-! ## Runs -/

/-- What a run leaves behind. -/
structure Outcome where
  exitCode : Nat
  stdout : Text
  stderr : Text
  tree : FileTree
deriving Repr

/-- What a run starts from. -/
structure World where
  tree : FileTree
  env : Environment
  /-- The time that a report names. -/
  timestamp : Text
deriving Repr

namespace World

/-- Whether escape sequences for colors can be shown. The output is never taken
    for a terminal, so they must be asked for. -/
def showsAnsi (w : World) : Bool :=
  let forced := w.env.get "CLICOLOR_FORCE"
  !forced.isEmpty && forced != utf8 "0" && (w.env.get "NO_COLOR").isEmpty

def done (w : World) (stdout : Text) : Outcome := ⟨0, stdout, [], w.tree⟩

/-- A run that ends with one message. -/
def failed (w : World) (message : Text) : Outcome :=
  ⟨1, [], utf8 "Error: " ++ message ++ [ascii '\n'], w.tree⟩

/-- The lines of a log, if it is wanted. -/
def logText (s : Settings) (entries : List LogEntry) : Text :=
  if s.switchAt "verbose" "verbose" false then
    entries.flatMap (LogEntry.render (s.switchAt "color" "color" false))
  else []

def serveBuild (w : World) (s : Settings) (p : Project) : Outcome :=
  match p.build w.tree with
  | .error fault => w.failed (utf8 "build failed: " ++ fault.message)
  | .ok r =>
    let palette := s.report.palette w.env w.showsAnsi
    let quiet := s.switchAt "quiet" "quiet" false
    let errors := r.build.errors.map fun e =>
      Style.red.render palette (utf8 "Error:") ++ [ascii ' '] ++ e.message
    { exitCode := if r.build.errors.isEmpty then 0 else 1
      stdout := if quiet then [] else r.summary.render palette p.outputDir
      stderr := logText s r.build.log ++ if quiet then [] else Text.lines errors
      tree := r.build.tree }

def serveCheck (w : World) (s : Settings) (p : Project) : Outcome :=
  match p.check w.tree with
  | .error e => w.failed (utf8 "check failed: " ++ e.message)
  | .ok (r, log) =>
    let palette := s.report.palette w.env w.showsAnsi
    let quiet := s.switchAt "quiet" "quiet" false
    let format := ReportFormat.choose (s.textAt "output-format" "check.output-format" []) quiet
    let strict := s.switchAt "strict" "check.strict" false
    { exitCode := if 0 < r.errors || (strict && !r.issues.isEmpty) then 1 else 0
      stdout := if quiet then [] else r.report format s.report palette w.timestamp
      stderr := logText s log
      tree := w.tree }

/-- The settings file that `init` writes. -/
def initialConfig : Text := Text.lines ([
  "# cssmix configuration",
  "# Docs: https://github.com/yacobolo/cssmix",
  "",
  "verbose: false",
  "",
  "# Compilation settings",
  "build:",
  "  source: styles",
  "  output-dir: \"\"           # empty writes next to the sources",
  "  include:",
  "    - \"**/*.mcss\"",
  "  gitignore: true",
  "",
  "# Units added to unitless numbers",
  "units:",
  "  default: rem",
  "  line-height: em",
  "",
  "# Design tokens used by the built-in mixins",
  "variables:",
  "  font-weight-bold: bold",
  "  border-color: \"#d2d2d2\"",
  "  grid-columns: 12",
  "  grid-margin: 5%",
  "  block-margin-bottom: 1",
  "  # unit: rem              # unit used by mixins, defaults to units.default",
  "",
  "# Checking settings",
  "check:",
  "  strict: false",
  "  output-format: issues    # issues | summary | full | json",
  "  max-issues: 0            # 0 = unlimited",
  "  print-lines: true",
  "  print-linter-name: true"].map utf8)

def runInit (w : World) (force : Bool) : Outcome :=
  let path := standardConfigPath
  if (w.tree.find? (Path.ofText path)).isSome && !force then
    w.failed (path ++ utf8 " already exists (use --force to overwrite)")
  else
    match w.tree.write path initialConfig with
    | .error fault => w.failed (utf8 "writing config file: " ++ fault.message)
    | .ok tree => ⟨0, utf8 "Created " ++ path ++ [ascii '\n'], [], tree⟩

/-- A short text about the commands. It is not the whole help text, which also
    lists the flags of each command. -/
def usage : Text := Text.lines ([
  "Compile style sheets written in a CSS superset with mixin calls.",
  "",
  "Usage:",
  "  cssmix [command] [flags]",
  "",
  "Commands:",
  "  build       Compile mixin sources to CSS",
  "  check       Report syntax errors and unknown mixins without writing output",
  "  mixins      List the available mixins",
  "  init        Generate a default .cssmix.yaml config file",
  "  version     Print the version of cssmix"].map utf8)

/-- The settings of a request, and the project that they describe. -/
def settings (w : World) (r : Request) : Except ConfigError (Settings × Project) := do
  let s ← Settings.load w.tree w.env r.flags
  return (s, ← s.project)

/-- Runs a request. Settings are only loaded by the commands that use them. The
    text of a completion script stands nowhere in the library: where the command
    prints one, nothing is printed here. -/
def serve (w : World) (r : Request) : Outcome :=
  let withSettings (run : Settings → Project → Outcome) : Outcome :=
    match w.settings r with
    | .error e => w.failed e.message
    | .ok (s, p) => run s p
  match r.command with
  | .standard => withSettings w.serveBuild
  | .build => withSettings w.serveBuild
  | .check => withSettings w.serveCheck
  | .mixins => withSettings fun _ p => w.done (Text.lines p.options.catalog.names)
  | .init => w.runInit (r.flags.getSwitch "force")
  | .completion => w.done []
  | .version => w.done (utf8 "cssmix dev\n")
  | .help => w.done usage

/-- Runs a command line. -/
def run (w : World) (line : List Text) : Outcome :=
  match Request.ofLine line with
  | .error e => w.failed e.message
  | .ok r => w.serve r

/-- The directories that a request reads from and writes to, as far as the
    settings file and the environment tell. -/
def places (w : World) (r : Request) : List Text :=
  match w.settings r with
  | .ok (_, p) => if p.outputDir.isEmpty then [p.sourceDir] else [p.sourceDir, p.outputDir]
  | .error _ => []

end World

end MixinCss
