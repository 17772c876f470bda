/-
  MixinCss.Config.Yaml

  Settings files. They are written in the part of YAML that settings need:
  maps and lists by indentation, lists and maps between brackets on one or more
  lines, and plain or quoted scalars, with comments.
-/

import MixinCss.Config.Setting
import MixinCss.Decimal.Integer
import MixinCss.Text.Utf8
import MixinCss.Value.Numeric

namespace MixinCss.Yaml

/-! ## Faults -/

inductive Problem where
  /-- A second key on a line that has one already. -/
  | mappingValue
  /-- Nothing stands where a value has to. -/
  | missingNode
  /-- The items of a list or map between brackets are not separated. -/
  | missingSeparator (close : Char)
  /-- A line is indented where a key has to stand. -/
  | missingKey
  /-- A line is no key. -/
  | missingColon
  | unclosedQuote
  /-- The file is not a map of keys. -/
  | notMap (found : Text)
deriving DecidableEq, Repr

/-- What is wrong with a file, and the line it is reported for, if any. -/
structure Fault where
  problem : Problem
  line : Option Nat
deriving DecidableEq, Repr

def Problem.message : Problem → Text
  | .mappingValue => utf8 "mapping values are not allowed in this context"
  | .missingNode => utf8 "did not find expected node content"
  | .missingSeparator close => utf8 "did not find expected ',' or '" ++ [ascii close] ++ utf8 "'"
  | .missingKey => utf8 "did not find expected key"
  | .missingColon => utf8 "could not find expected ':'"
  | .unclosedQuote => utf8 "found unexpected end of stream"
  | .notMap found =>
    utf8 "unmarshal errors:\n  line 1: cannot unmarshal " ++ found ++
      utf8 " into map[string]interface \x7b\x7d"

def Fault.message (f : Fault) : Text :=
  let place :=
    match f.line with
    | some n => utf8 "line " ++ Text.ofNat n ++ utf8 ": "
    | none => []
  utf8 "yaml: " ++ place ++ f.problem.message

/-- A fault inside of the structure, at a line counted from zero. The first
    line is not named. -/
def structural (problem : Problem) (line : Nat) : Fault :=
  ⟨problem, if line = 0 then none else some line⟩

/-- A fault inside of a word, at a line counted from zero. The first line is
    not named. -/
def lexical (problem : Problem) (line : Nat) : Fault :=
  ⟨problem, if line = 0 then none else some (line + 1)⟩

/-! ## Lines -/

/-- A line that is neither blank nor only a comment. Lines count from zero. -/
structure Line where
  number : Nat
  indent : Nat
  body : Text
deriving DecidableEq, Repr

/-- What a comment is looked for in. -/
inductive Quoting where
  | outside
  | single
  | double
  | escaped

/-- Whether a quote behind the byte `last` opens a quoted text. -/
def opensQuote (last : Option UInt8) : Bool :=
  match last with
  | none => true
  | some b => b = ascii ' ' || b = ascii '[' || b = ascii '\x7b' || b = ascii ','

/-- A line without its comment. `last` is the byte in front. -/
def uncommented (q : Quoting) (last : Option UInt8) : Text → Text
  | [] => []
  | b :: rest =>
    match q with
    | .outside =>
      if b = ascii '#' && [none, some (ascii ' '), some (ascii '\t')].contains last then []
      else
        let next :=
          if b = ascii '"' && opensQuote last then Quoting.double
          else if b = ascii '\'' && opensQuote last then Quoting.single
          else Quoting.outside
        b :: uncommented next (some b) rest
    | .single => b :: uncommented (if b = ascii '\'' then .outside else .single) (some b) rest
    | .double =>
      let next :=
        if b = ascii '"' then Quoting.outside
        else if b = ascii '\\' then Quoting.escaped
        else Quoting.double
      b :: uncommented next (some b) rest
    | .escaped => b :: uncommented .double (some b) rest

def isBlankByte (b : UInt8) : Bool := b = ascii ' ' || b = ascii '\t' || b = ascii '\r'

def trimmed (t : Text) : Text := Text.trimBytes isBlankByte t

/-- The lines of a file that say something. -/
def linesOf (t : Text) : List Line :=
  (Text.split (ascii '\n') t).zipIdx.filterMap fun (line, number) =>
    let body := trimmed (uncommented .outside none line)
    if body.isEmpty || line.startsWith (utf8 "---") then none
    else some ⟨number, (line.takeWhile (· = ascii ' ')).length, body⟩

/-! ## Scalars -/

/-- The value of a word that is not quoted. -/
def plainScalar (t : Text) : Setting :=
  let is (words : List String) := words.any fun w => utf8 w == t
  if t.isEmpty || is ["~", "null", "Null", "NULL"] then .null
  else if is ["true", "True", "TRUE"] then .switch true
  else if is ["false", "False", "FALSE"] then .switch false
  else if is [".inf", ".Inf", ".INF", "+.inf", "+.Inf", "+.INF"] then .fraction (1.0 / 0.0)
  else if is ["-.inf", "-.Inf", "-.INF"] then .fraction (-(1.0 / 0.0))
  else if is [".nan", ".NaN", ".NAN"] then .fraction (0.0 / 0.0)
  else
    let digits := t.filter (· != ascii '_')
    match Decimal.readInteger digits with
    | .ok n => .whole n
    | .error _ =>
      if Text.isNumber digits then .fraction (Decimal.readSaturating digits) else .text t

/-- The code point of hexadecimal digits. -/
def hexCode? (t : Text) (width : Nat) : Option Nat :=
  let digits := t.take width
  if digits.length = width && digits.all Byte.isHexDigit then
    some (digits.foldl (fun n b => 16 * n + Byte.digitValue b) 0)
  else none

/-- What a letter behind a backslash stands for. -/
def escapeCode? (b : UInt8) : Option Nat :=
  let codes : List (Char × Nat) := [
    ('0', 0), ('a', 7), ('b', 8), ('t', 9), ('\t', 9), ('n', 10), ('v', 11), ('f', 12), ('r', 13),
    ('e', 27), (' ', 32), ('"', 34), ('/', 47), ('\\', 92), ('N', 0x85), ('_', 0xA0),
    ('L', 0x2028), ('P', 0x2029)]
  (codes.find? fun entry => ascii entry.1 == b).map Prod.snd

/-- A text between double quotes, behind the opening one, and what follows it. -/
def doubleQuoted? : Nat → Text → Option (Text × Text)
  | 0, _ => none
  | _, [] => none
  | fuel + 1, b :: rest =>
    let go (front tail : Text) :=
      (doubleQuoted? fuel tail).map fun (t, behind) => (front ++ t, behind)
    if b = ascii '"' then some ([], rest)
    else if b = ascii '\\' then
      match rest with
      | [] => none
      | c :: more =>
        match escapeCode? c with
        | some code => go (Rune.encode code) more
        | none =>
          let width :=
            if c = ascii 'x' then 2 else if c = ascii 'u' then 4 else if c = ascii 'U' then 8 else 0
          if width = 0 then none
          else
            match hexCode? more width with
            | some code => go (Rune.encode code) (more.drop width)
            | none => none
    else go [b] rest

/-- A text between single quotes, behind the opening one, and what follows it. A
    quote is written twice. -/
def singleQuoted? : Text → Option (Text × Text)
  | [] => none
  | b :: rest =>
    if b = ascii '\'' then
      match rest with
      | c :: more =>
        if c = ascii '\'' then
          (singleQuoted? more).map fun (t, behind) => (ascii '\'' :: t, behind)
        else some ([], rest)
      | [] => some ([], [])
    else (singleQuoted? rest).map fun (t, behind) => (b :: t, behind)

/-- A quoted text at the start of `t` and what follows it. The outer answer is
    whether there is a quote at all. -/
def quoted? (t : Text) : Option (Option (Text × Text)) :=
  match t with
  | b :: rest =>
    if b = ascii '"' then some (doubleQuoted? (rest.length + 1) rest)
    else if b = ascii '\'' then some (singleQuoted? rest)
    else none
  | [] => none

/-! ## Values between brackets -/

/-- Where a file ends: the number of its last line, and of the line that its end
    counts as. That is a new one unless nothing stands on the last line. -/
structure Ending where
  line : Nat
  mark : Nat
deriving DecidableEq, Repr

def Ending.ofText (t : Text) : Ending :=
  let line := t.count (ascii '\n')
  ⟨line, if t.isEmpty || t.endsWith [ascii '\n'] then line else line + 1⟩

/-- Whether a colon at the start of `t` ends a key. -/
def isKeyEnd : Text → Bool
  | [] => false
  | b :: rest =>
    b = ascii ':' &&
      match rest with
      | [] => true
      | c :: _ => isBlankByte c || c = ascii ',' || c = ascii ']' || c = ascii '\x7d'

/-- Whether `t` holds a colon that ends a key. -/
def hasKeyEnd : Text → Bool
  | [] => false
  | b :: rest => isKeyEnd (b :: rest) || hasKeyEnd rest

def isFlowMark (b : UInt8) : Bool :=
  b = ascii ',' || b = ascii '[' || b = ascii ']' || b = ascii '\x7b' || b = ascii '\x7d'

/-- A plain word between brackets and what follows it. -/
def flowWord : Text → Text × Text
  | [] => ([], [])
  | b :: rest =>
    if isFlowMark b || isKeyEnd (b :: rest) then ([], b :: rest)
    else
      let (word, behind) := flowWord rest
      (b :: word, behind)

def skipBlank (t : Text) : Text := t.dropWhile isBlankByte

mutual

/-- A value between brackets and what follows it. `last` is where the file ends. -/
def flowNode (last : Ending) : Nat → Text → Except Fault (Setting × Text)
  | 0, _ => .error (structural .missingNode last.mark)
  | fuel + 1, t =>
    let t := skipBlank t
    match t with
    | [] => .error (structural .missingNode last.mark)
    | b :: rest =>
      if b = ascii '[' then
        (flowItems last fuel rest).map fun (items, behind) => (.list items, behind)
      else if b = ascii '\x7b' then
        (flowMembers last fuel rest).map fun (members, behind) => (.map members, behind)
      else if isFlowMark b then .error (structural .missingNode last.mark)
      else
        match quoted? t with
        | some (some (word, behind)) => .ok (.text word, behind)
        | some none => .error (lexical .unclosedQuote last.line)
        | none =>
          let (word, behind) := flowWord t
          .ok (plainScalar (trimmed word), behind)

/-- The items of a list behind its opening bracket. -/
def flowItems (last : Ending) : Nat → Text → Except Fault (List Setting × Text)
  | 0, _ => .error (structural .missingNode last.mark)
  | fuel + 1, t =>
    let t := skipBlank t
    if Text.startsWith t [ascii ']'] then .ok ([], t.drop 1)
    else do
      let (item, behind) ← flowNode last fuel t
      match skipBlank behind with
      | b :: more =>
        if b = ascii ',' then
          let (items, tail) ← flowItems last fuel more
          return (item :: items, tail)
        else if b = ascii ']' then return ([item], more)
        else throw (structural (.missingSeparator ']') last.mark)
      | [] => throw (structural (.missingSeparator ']') last.mark)

/-- The members of a map behind its opening brace. -/
def flowMembers (last : Ending) : Nat → Text → Except Fault (List (Text × Setting) × Text)
  | 0, _ => .error (structural .missingNode last.mark)
  | fuel + 1, t =>
    let t := skipBlank t
    if Text.startsWith t [ascii '\x7d'] then .ok ([], t.drop 1)
    else do
      let (key, behind) ← flowNode last fuel t
      let (value, tail) ←
        match skipBlank behind with
        | b :: more =>
          if b = ascii ':' then flowNode last fuel more else pure (Setting.null, behind)
        | [] => pure (Setting.null, [])
      match skipBlank tail with
      | b :: more =>
        if b = ascii ',' then
          let (members, after) ← flowMembers last fuel more
          return ((key.print, value) :: members, after)
        else if b = ascii '\x7d' then return ([(key.print, value)], more)
        else throw (structural (.missingSeparator '\x7d') last.mark)
      | [] => throw (structural (.missingSeparator '\x7d') last.mark)

end

/-! ## Blocks -/

/-- The value of a text on one line. `line` is its number and `last` is where the
    file ends. -/
def inlineValue (line : Nat) (last : Ending) (t : Text) : Except Fault Setting :=
  match t with
  | [] => .ok .null
  | b :: _ =>
    if b = ascii '[' || b = ascii '\x7b' then do
      let (value, behind) ← flowNode last (2 * t.length + 2) t
      if (skipBlank behind).isEmpty then return value
      else throw (structural .missingKey line)
    else
      match quoted? t with
      | some (some (word, behind)) =>
        if (skipBlank behind).isEmpty then .ok (.text word)
        else if isKeyEnd (skipBlank behind) then .error (lexical .mappingValue line)
        else .error (structural .missingKey line)
      | some none => .error (lexical .unclosedQuote (if line = 0 then last.line else line))
      | none =>
        if hasKeyEnd t then .error (lexical .mappingValue line) else .ok (plainScalar t)

/-- Whether a line is an item of a list. -/
def isItem (body : Text) : Bool := body == [ascii '-'] || body.startsWith (utf8 "- ")

/-- The text in front of the first colon that ends a key, and behind it. -/
def splitKey? : Text → Option (Text × Text)
  | [] => none
  | b :: rest =>
    if isKeyEnd (b :: rest) then some ([], rest)
    else (splitKey? rest).map fun (front, behind) => (b :: front, behind)

/-- The key of a line and what follows its colon. -/
def key? (body : Text) : Option (Text × Text) :=
  match body with
  | [] => none
  | b :: _ =>
    if b = ascii '[' || b = ascii '\x7b' then none
    else
      match quoted? body with
      | some (some (word, behind)) =>
        let behind := skipBlank behind
        if isKeyEnd behind then some (word, trimmed (behind.drop 1)) else none
      | some none => none
      | none => (splitKey? body).map fun (front, behind) => (trimmed front, trimmed behind)

/-- The number of brackets that are open at the end of a text. -/
def openBrackets (t : Text) : Int :=
  t.foldl (fun n b =>
    if b = ascii '[' || b = ascii '\x7b' then n + 1
    else if b = ascii ']' || b = ascii '\x7d' then n - 1
    else n) 0

/-- A value between brackets goes on over the following lines until they are
    closed. -/
def gather (t : Text) (rest : List Line) : Text × List Line :=
  let opens := t.startsWith [ascii '['] || t.startsWith [ascii '\x7b']
  match rest with
  | [] => (t, [])
  | l :: more =>
    if opens && 0 < openBrackets t then gather (t ++ [ascii ' '] ++ l.body) more else (t, rest)

mutual

/-- The value that the lines indented by at least `least` spell. -/
def block (last : Ending) : Nat → Nat → List Line → Except Fault (Setting × List Line)
  | 0, _, lines => .ok (.null, lines)
  | fuel + 1, least, lines =>
    match lines with
    | [] => .ok (.null, [])
    | l :: rest =>
      if l.indent < least then .ok (.null, lines)
      else if isItem l.body then
        (items last fuel l.indent lines).map fun (xs, behind) => (.list xs, behind)
      else
        match key? l.body with
        | some _ =>
          (members last fuel l.indent [] lines).map fun (ms, behind) => (.map ms, behind)
        | none =>
          let (t, behind) := gather l.body rest
          (inlineValue l.number last t).map fun v => (v, behind)

/-- The keys of a map whose lines have the given indentation. -/
def members (last : Ending) :
    Nat → Nat → Settings → List Line → Except Fault (Settings × List Line)
  | 0, _, done, lines => .ok (done, lines)
  | fuel + 1, indent, done, lines =>
    match lines with
    | [] => .ok (done, [])
    | l :: rest =>
      if l.indent < indent then .ok (done, lines)
      else if indent < l.indent || isItem l.body then .error (structural .missingKey l.number)
      else
        match key? l.body with
        | none => .error (lexical .missingColon l.number)
        | some (key, t) =>
          if t.isEmpty then
            let least :=
              match rest with
              | next :: _ => if isItem next.body then indent else indent + 1
              | [] => indent + 1
            match block last fuel least rest with
            | .ok (v, behind) => members last fuel indent (done.set key v) behind
            | .error e => .error e
          else
            let (t, behind) := gather t rest
            match inlineValue l.number last t with
            | .ok v => members last fuel indent (done.set key v) behind
            | .error e => .error e

/-- The items of a list whose lines have the given indentation. -/
def items (last : Ending) : Nat → Nat → List Line → Except Fault (List Setting × List Line)
  | 0, _, lines => .ok ([], lines)
  | fuel + 1, indent, lines =>
    match lines with
    | [] => .ok ([], [])
    | l :: rest =>
      if l.indent ≠ indent || !isItem l.body then .ok ([], lines)
      else
        let t := trimmed (l.body.drop 1)
        let first : Except Fault (Setting × List Line) :=
          if t.isEmpty then block last fuel (indent + 1) rest
          else if isItem t || (key? t).isSome then
            let offset := l.body.length - t.length
            block last fuel (indent + 1) (⟨l.number, indent + offset, t⟩ :: rest)
          else
            let (t, behind) := gather t rest
            (inlineValue l.number last t).map fun v => (v, behind)
        match first with
        | .ok (v, behind) =>
          (items last fuel indent behind).map fun (vs, tail) => (v :: vs, tail)
        | .error e => .error e

end

/-- A value that is no map, as a fault names it. -/
def described (body : Text) : Setting → Text
  | .switch _ => utf8 "!!bool `" ++ shortened body ++ utf8 "`"
  | .whole _ => utf8 "!!int `" ++ shortened body ++ utf8 "`"
  | .fraction _ => utf8 "!!float `" ++ shortened body ++ utf8 "`"
  | .text _ => utf8 "!!str `" ++ shortened body ++ utf8 "`"
  | .list _ => utf8 "!!seq"
  | .null => utf8 "!!null"
  | .map _ => utf8 "!!map"
where
  shortened (t : Text) : Text := if 10 < t.length then t.take 7 ++ utf8 "..." else t

/-- Reads a settings file. -/
def parse (t : Text) : Except Fault Settings := do
  let last := Ending.ofText t
  let lines := linesOf t
  let (value, behind) ← block last (3 * lines.length + 3) 0 lines
  match behind with
  | l :: _ => throw (structural .missingKey l.number)
  | [] =>
    match value with
    | .map members => return members
    | .null => return []
    | other => throw ⟨.notMap (described ((lines.head?.map Line.body).getD []) other), none⟩

end MixinCss.Yaml
