/-
  MixinCss.Report.Json

  The result of a check for machines: a JSON document with two spaces of
  indentation.
-/

import MixinCss.Check

namespace MixinCss

/-- A JSON document. Members of an object keep their order. -/
inductive Json where
  | text (t : Text)
  | number (n : Int)
  | array (items : List Json)
  | object (members : List (String × Json))
deriving Repr, Inhabited

namespace Json

/-- A character of a string. Characters that have a meaning in markup are
    written by number, as are the line separators. -/
def escaped (r : Rune) : Text :=
  if r.isStray then utf8 "\\ufffd"
  else if r.code = 0x22 then utf8 "\\\""
  else if r.code = 0x5C then utf8 "\\\\"
  else if r.code = 0x08 then utf8 "\\b"
  else if r.code = 0x0C then utf8 "\\f"
  else if r.code = 0x0A then utf8 "\\n"
  else if r.code = 0x0D then utf8 "\\r"
  else if r.code = 0x09 then utf8 "\\t"
  else if r.code < 0x20 || r.code = 0x3C || r.code = 0x3E || r.code = 0x26 ||
      r.code = 0x2028 || r.code = 0x2029 then
    utf8 "\\u" ++ Text.hex 4 r.code
  else r.bytes

def quoted (t : Text) : Text := [ascii '"'] ++ t.runes.flatMap escaped ++ [ascii '"']

def indent (depth : Nat) : Text := [ascii '\n'] ++ Text.spaces (2 * depth)

/-- Members between brackets, each on a line of its own. -/
def bracketed (left right : UInt8) (depth : Nat) (members : List Text) : Text :=
  if members.isEmpty then [left, right]
  else
    [left] ++ Text.join [ascii ','] (members.map (indent (depth + 1) ++ ·)) ++ indent depth ++
      [right]

mutual

/-- A document whose first line is inside of `depth` others. -/
def render (depth : Nat) : Json → Text
  | .text t => quoted t
  | .number n => Text.ofInt n
  | .array items => bracketed (ascii '[') (ascii ']') depth (renderItems depth items)
  | .object members =>
    bracketed (ascii '\x7b') (ascii '\x7d') depth (renderMembers depth members)

def renderItems (depth : Nat) : List Json → List Text
  | [] => []
  | j :: rest => render (depth + 1) j :: renderItems depth rest

def renderMembers (depth : Nat) : List (String × Json) → List Text
  | [] => []
  | (name, j) :: rest =>
    (quoted (utf8 name) ++ utf8 ": " ++ render (depth + 1) j) :: renderMembers depth rest

end

end Json

/-- An issue as a JSON object. An empty line of the source is left out. -/
def Issue.toJson (i : Issue) : Json :=
  let source := i.lines.head?.getD []
  .object <| [
    ("file", .text i.file),
    ("line", .number i.line),
    ("column", .number i.column),
    ("severity", .text i.severity.text),
    ("message", .text i.text),
    ("linter", .text i.linter)] ++
    if source.isEmpty then [] else [("source", .text source)]

/-- The result of a check as a JSON object, with the time at which it was
    made. -/
def Findings.toJson (r : Findings) (timestamp : Text) : Json :=
  .object [
    ("version", .text (utf8 "1.0")),
    ("timestamp", .text timestamp),
    ("summary", .object [
      ("total_issues", .number r.issues.length),
      ("errors", .number r.errors),
      ("warnings", .number r.warnings),
      ("files_scanned", .number r.scanned),
      ("mixin_calls", .number r.totalCalls)]),
    ("usage", .array <| (Usage.top r.mixinCalls 0).map fun (name, n) =>
      .object [("mixin", .text name), ("calls", .number n)]),
    ("issues", .array (r.issues.map Issue.toJson))]

end MixinCss
