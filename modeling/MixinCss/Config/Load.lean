/-
  MixinCss.Config.Load

  Where settings come from: a file, then the environment, then the flags of the
  command line, each laid over the ones before.
-/

import MixinCss.Build
import MixinCss.Config.Yaml
import MixinCss.Report.Issues

namespace MixinCss

/-- The settings file that is used unless another one is named. -/
def standardConfigPath : Text := utf8 ".cssmix.yaml"

/-- What environment variables for settings begin with. -/
def environmentHead : Text := utf8 "CSSMIX_"

/-! ## Design settings -/

/-- Why the design settings cannot be read. -/
inductive VariablesFault where
  /-- They are not a map. -/
  | notMap (kind : String)
  | fields (messages : List Text)
deriving DecidableEq, Repr

def VariablesFault.message : VariablesFault → Text
  | .notMap kind => utf8 "'' expected a map, got '" ++ utf8 kind ++ utf8 "'"
  | .fields messages =>
    utf8 "decoding failed due to the following error(s):\n\n" ++ Text.join [ascii '\n'] messages

namespace Variables

/-- A setting of the wrong kind for a field. -/
def unconvertible (name wanted found : String) (v : Setting) : Text :=
  utf8 "'" ++ utf8 name ++ utf8 "' expected type '" ++ utf8 wanted ++
    utf8 "', got unconvertible type '" ++ utf8 found ++ utf8 "', value: '" ++ v.print ++ utf8 "'"

/-- The text of a field. Numbers are written out and a switch is one or zero. -/
def textField (name : String) : Setting → Except Text Text
  | .null => .ok []
  | .text t => .ok t
  | .switch b => .ok (utf8 (if b then "1" else "0"))
  | .whole n => .ok (Text.ofInt n)
  | .fraction f => .ok (Decimal.format f)
  | .list items => .error (unconvertible name "string" "[]interface \x7b\x7d" (.list items))
  | .map members =>
    .error (unconvertible name "string" "map[string]interface \x7b\x7d" (.map members))

/-- The number of a field. A text is read; an empty one is zero. -/
def numberField (name : String) : Setting → Except Text Float
  | .null => .ok 0.0
  | .text t =>
    match Decimal.read (if t.isEmpty then utf8 "0" else t) with
    | .ok f => .ok f
    | .error fault =>
      .error (utf8 "cannot parse '" ++ utf8 name ++
        utf8 "' as float: strconv.ParseFloat: parsing " ++ t.quoted ++ utf8 (match fault with
          | .malformed => ": invalid syntax"
          | .outOfRange => ": value out of range"))
  | .switch b => .ok (if b then 1.0 else 0.0)
  | .whole n => .ok (Float.ofInt n)
  | .fraction f => .ok f
  | .list items => .error (unconvertible name "float64" "[]interface \x7b\x7d" (.list items))
  | .map members =>
    .error (unconvertible name "float64" "map[string]interface \x7b\x7d" (.map members))

/-- The setting of a field. The case of letters in its key does not matter if no
    key is spelled alike. -/
def fieldOf (members : Settings) (name : String) : Setting :=
  match members.lookup (utf8 name) with
  | some v => v
  | none =>
    let entry := List.find? (fun entry => entry.1.map Byte.lower == utf8 name) members
    (entry.map Prod.snd).getD .null

/-- The value of a field, and its fault if it has one. -/
def checked {α : Type} (r : Except Text α) (fallback : α) : α × List Text :=
  match r with
  | .ok a => (a, [])
  | .error message => (fallback, [message])

/-- The design settings of a map of settings. -/
def ofMembers (members : Settings) : Except VariablesFault Variables :=
  let text (name : String) := checked (textField name (fieldOf members name)) []
  let bold := text "font-weight-bold"
  let border := text "border-color"
  let columns := checked (numberField "grid-columns" (fieldOf members "grid-columns")) 0.0
  let margin := text "grid-margin"
  let bottom := text "block-margin-bottom"
  let unit := text "unit"
  let messages := bold.2 ++ border.2 ++ columns.2 ++ margin.2 ++ bottom.2 ++ unit.2
  if messages.isEmpty then .ok ⟨bold.1, border.1, columns.1, margin.1, bottom.1, unit.1⟩
  else .error (.fields messages)

/-- The design settings of a setting. -/
def ofSetting : Setting → Except VariablesFault Variables
  | .null => .ok .empty
  | .map members => ofMembers members
  | .text _ => .error (.notMap "string")
  | .switch _ => .error (.notMap "bool")
  | .whole _ => .error (.notMap "int")
  | .fraction _ => .error (.notMap "float64")
  | .list _ => .error (.notMap "slice")

end Variables

/-! ## Sources of settings -/

/-- Why there are no settings. -/
inductive ConfigError where
  | unreadable (path : Text) (fault : FileFault)
  | notYaml (path : Text) (fault : Yaml.Fault)
  | badVariables (fault : VariablesFault)
deriving DecidableEq, Repr

def ConfigError.message : ConfigError → Text
  | .unreadable path fault =>
    utf8 "loading config file " ++ path ++ utf8 ": " ++ fault.message
  | .notYaml path fault => utf8 "loading config file " ++ path ++ utf8 ": " ++ fault.message
  | .badVariables fault => utf8 "reading variables: " ++ fault.message

namespace Settings

/-- The settings of a file; none if it does not exist. -/
def ofFile (t : FileTree) (path : Text) : Except ConfigError Settings :=
  if (t.find? (Path.ofText path)).isNone then .ok []
  else
    match t.read path with
    | .error fault => .error (.unreadable path fault)
    | .ok content =>
      match Yaml.parse content with
      | .error fault => .error (.notYaml path fault)
      | .ok s => .ok s

/-- The path of keys that an environment variable sets: its name in small
    letters behind the common beginning, cut at points. Underscores count as
    points. -/
def environmentPath? (name : Text) : Option (List Text) :=
  match name.after? environmentHead with
  | none => none
  | some [] => none
  | some rest =>
    some (Text.split (ascii '.') (rest.lowered.replaceByte (ascii '_') [ascii '.']))

/-- The settings of the environment. -/
def ofEnvironment (env : Environment) : Settings :=
  env.foldl (fun s (name, value) =>
    match environmentPath? name with
    | some path => s.put path (.text value)
    | none => s) []

/-- The settings file that flags name. -/
def configPath (flags : Settings) : Text :=
  let path := flags.getText "config"
  if path.isEmpty then standardConfigPath else path

/-- All settings: the file under the environment under the flags. -/
def load (t : FileTree) (env : Environment) (flags : Settings) : Except ConfigError Settings := do
  let file ← ofFile t flags.configPath
  return merge (merge (merge [] file) (ofEnvironment env)) flags

/-- The project that settings describe. -/
def project (s : Settings) : Except ConfigError Project := do
  let includes :=
    match s.getTexts "include" with
    | [] =>
      match s.getTexts "build.include" with
      | [] => standardIncludes
      | patterns => patterns
    | patterns => patterns
  let design ←
    match find? s (utf8 "variables") with
    | none => pure none
    | some v =>
      match Variables.ofSetting v with
      | .ok vars => pure (some vars)
      | .error fault => throw (.badVariables fault)
  return {
    sourceDir := s.textAt "source" "build.source" (utf8 "styles")
    outputDir := s.textAt "output-dir" "build.output-dir" []
    includes := includes
    useIgnoreList := s.switchAt "gitignore" "build.gitignore" true
    dryRun := s.switchAt "dry-run" "build.dry-run" false
    options := {
      mixins := []
      units := {
        standard := s.textAt "unit" "units.default" []
        lineHeight := s.textAt "line-height-unit" "units.line-height" [] }
      design := design } }

/-- How the settings want issues to be printed. -/
def report (s : Settings) : ReportConfig where
  forceColors := s.switchAt "color" "color" false
  printLines := s.switchAt "print-lines" "check.print-lines" true
  printLinterName := s.switchAt "print-linter-name" "check.print-linter-name" true
  maxIssues := s.wholeAt "max-issues" "check.max-issues" 0

end Settings

end MixinCss
