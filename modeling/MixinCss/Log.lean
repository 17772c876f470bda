/-
  MixinCss.Log

  What a run says about itself when it is asked to: one line for each step.
-/

import MixinCss.Compile

namespace MixinCss

/-- A step of a run. -/
inductive LogEntry where
  | scanned (discovered skipped : Nat)
  | parsed (bytes rules : Nat)
  | expansion (note : Note)
  | compileFailed (file error : Text)
  /-- A file was compiled and would be written. -/
  | dryRun (file output : Text)
  | wrote (file output : Text)
  | checked (file : Text) (issues : Nat)
deriving DecidableEq, Repr

namespace LogEntry

inductive Level where
  | debug
  | warn
deriving DecidableEq, Repr

def level : LogEntry → Level
  | .expansion (.unknown ..) => .warn
  | _ => .debug

/-- The part of the program that speaks. -/
def speaker : LogEntry → String
  | .scanned .. => "build"
  | .parsed .. => "parser"
  | .expansion _ => "resolve"
  | .compileFailed .. => "build"
  | .dryRun .. => "build"
  | .wrote .. => "build"
  | .checked .. => "check"

def message : LogEntry → String
  | .scanned .. => "scanned sources"
  | .parsed .. => "Parsed stylesheet"
  | .expansion (.unknown ..) => "unknown mixin"
  | .expansion (.expanded ..) => "expanded mixin"
  | .compileFailed .. => "compile failed"
  | .dryRun .. => "dry run"
  | .wrote .. => "wrote output"
  | .checked .. => "checked file"

/-- A detail of an entry. -/
inductive Detail where
  | text (t : Text)
  | number (n : Nat)

def details : LogEntry → List (String × Detail)
  | .scanned discovered skipped =>
    [("discovered", .number discovered), ("skipped", .number skipped)]
  | .parsed bytes rules => [("bytes", .number bytes), ("rules", .number rules)]
  | .expansion (.unknown name pos) => [("name", .text name), ("pos", .text pos.text)]
  | .expansion (.expanded name pos count depth) =>
    [("name", .text name), ("pos", .text pos.text), ("nodes", .number count),
      ("depth", .number depth)]
  | .compileFailed file error => [("file", .text file), ("error", .text error)]
  | .dryRun file output => [("file", .text file), ("output", .text output)]
  | .wrote file output => [("file", .text file), ("output", .text output)]
  | .checked file issues => [("file", .text file), ("issues", .number issues)]

/-- A character inside of quotes. -/
def escaped (r : Rune) : Text :=
  if r.isStray then utf8 "\\ufffd"
  else if r.code = 0x22 then utf8 "\\\""
  else if r.code = 0x5C then utf8 "\\\\"
  else if r.code = 0x0A then utf8 "\\n"
  else if r.code = 0x0D then utf8 "\\r"
  else if r.code = 0x09 then utf8 "\\t"
  else if r.code < 0x20 then utf8 "\\u" ++ Text.hex 4 r.code
  else r.bytes

def Detail.render : Detail → Text
  | .text t => [ascii '"'] ++ t.runes.flatMap escaped ++ [ascii '"']
  | .number n => Text.ofNat n

/-- The name of a level, in its color if there are colors. -/
def Level.render (colored : Bool) : Level → Text
  | .debug => utf8 (if colored then "\x1b[35mDEBUG\x1b[0m" else "DEBUG")
  | .warn => utf8 (if colored then "\x1b[33mWARN\x1b[0m" else "WARN")

/-- An entry as a line: level, speaker, message and details, separated by
    tabs. -/
def render (colored : Bool) (e : LogEntry) : Text :=
  let fields := e.details.map fun (name, detail) =>
    utf8 "\"" ++ utf8 name ++ utf8 "\": " ++ detail.render
  Text.join [ascii '\t'] [e.level.render colored, utf8 e.speaker, utf8 e.message,
    utf8 "\x7b" ++ Text.join (utf8 ", ") fields ++ utf8 "\x7d"] ++ [ascii '\n']

/-- The entries of parsing and expanding one source. -/
def ofSource (catalog : Catalog) (src : Text) : List LogEntry :=
  match parse src with
  | .error _ => []
  | .ok sheet =>
    .parsed src.length sheet.length :: (catalog.expand sheet).notes.map .expansion

end LogEntry

end MixinCss
