/-
  MixinCss.Config.Flags

  Flags of a command line: `--name value`, `--name=value`, switches that may
  stand without a value, and one-letter forms. Flags and other words may be
  mixed; what follows `--` is no flag.
-/

import MixinCss.Config.Setting
import MixinCss.Decimal.Integer
import MixinCss.Text.Quoted

namespace MixinCss

/-- What a flag takes. -/
inductive FlagKind where
  | switch
  | text
  | whole
  /-- Texts with commas between them; the flag may be repeated. -/
  | texts
deriving DecidableEq, Repr

/-- A flag that a command knows. -/
structure Flag where
  name : String
  letter : Option Char := none
  kind : FlagKind
deriving DecidableEq, Repr

/-- How the name of a flag is shown beside a bad value. -/
def Flag.shown (f : Flag) : Text :=
  match f.letter with
  | some c => utf8 "-" ++ [ascii c] ++ utf8 ", --" ++ utf8 f.name
  | none => utf8 "--" ++ utf8 f.name

/-! ## Faults -/

/-- What is wrong with a value. -/
inductive ValueProblem where
  | notSwitch (value : Text)
  | notWhole (value : Text) (fault : Decimal.ReadFault)
  /-- A quote inside of a text that does not start with one, at a column. -/
  | bareQuote (column : Nat)
  /-- A quoted text does not end where it should, at a column. -/
  | badQuote (column : Nat)
  /-- No text at all. -/
  | noTexts
deriving DecidableEq, Repr

def ValueProblem.message : ValueProblem → Text
  | .notSwitch value =>
    utf8 "strconv.ParseBool: parsing " ++ value.quoted ++ utf8 ": invalid syntax"
  | .notWhole value fault =>
    utf8 "strconv.ParseInt: parsing " ++ value.quoted ++
      utf8 (match fault with
        | .malformed => ": invalid syntax"
        | .outOfRange => ": value out of range")
  | .bareQuote column =>
    utf8 "parse error on line 1, column " ++ Text.ofNat column ++
      utf8 ": bare \" in non-quoted-field"
  | .badQuote column =>
    utf8 "parse error on line 1, column " ++ Text.ofNat column ++
      utf8 ": extraneous or missing \" in quoted-field"
  | .noTexts => utf8 "EOF"

inductive FlagFault where
  /-- A word such as `---` or `--=x`. -/
  | badForm (word : Text)
  | unknown (name : Text)
  | unknownLetter (letter : UInt8) (letters : Text)
  | missingValue (name : Text)
  | badValue (value : Text) (flag : Flag) (problem : ValueProblem)
deriving DecidableEq, Repr

def FlagFault.message : FlagFault → Text
  | .badForm word => utf8 "bad flag syntax: " ++ word
  | .unknown name => utf8 "unknown flag: --" ++ name
  | .unknownLetter letter letters =>
    utf8 "unknown shorthand flag: " ++ Text.quotedCharacter letter.toNat ++ utf8 " in -" ++ letters
  | .missingValue name => utf8 "flag needs an argument: --" ++ name
  | .badValue value flag problem =>
    utf8 "invalid argument " ++ value.quoted ++ utf8 " for " ++ flag.shown.quoted ++
      utf8 " flag: " ++ problem.message

/-! ## Texts with commas -/

namespace Flag

/-- A text that starts without a quote, up to the next comma, and what follows
    the comma. -/
def plainField (t : Text) : Text × Option Text :=
  match t.dropWhile (· != ascii ',') with
  | _ :: rest => (t.takeWhile (· != ascii ','), some rest)
  | [] => (t, none)

/-- A text behind its opening quote, and what follows the comma after its
    closing quote. A quote inside is written twice. -/
def quotedField (column : Nat) : Text → Except ValueProblem (Text × Option Text)
  | [] => .error (.badQuote column)
  | b :: rest =>
    if b = ascii '"' then
      match rest with
      | [] => .ok ([], none)
      | c :: more =>
        if c = ascii '"' then
          (quotedField (column + 2) more).map fun (t, behind) => (b :: t, behind)
        else if c = ascii ',' then .ok ([], some more)
        else .error (.badQuote column)
    else (quotedField (column + 1) rest).map fun (t, behind) => (b :: t, behind)

/-- The texts between commas. Each step takes one of them, so that `fuel` need
    not be more than their number. -/
def fields : Nat → Nat → Text → Except ValueProblem (List Text)
  | 0, _, _ => .ok []
  | fuel + 1, column, t => do
    let (field, behind) ←
      match t with
      | b :: rest =>
        if b = ascii '"' then quotedField (column + 1) rest
        else
          let (field, behind) := plainField t
          match field.idxOf? (ascii '"') with
          | some i => throw (.bareQuote (column + i))
          | none => pure (field, behind)
      | [] => pure ([], none)
    match behind with
    | none => return [field]
    | some rest =>
      let next := column + (t.length - rest.length)
      return field :: (← fields fuel next rest)

/-- The texts of a value: those of its first line. -/
def readTexts (value : Text) : Except ValueProblem (List Text) :=
  if value.isEmpty then .ok []
  else
    match (value.dropWhile (· = ascii '\n')).takeWhile (· != ascii '\n') with
    | [] => .error .noTexts
    | line => fields (line.length + 1) 1 line

/-- The setting that a value of a flag stands for; `old` is what the flag was
    set to before. -/
def read (f : Flag) (old : Option Setting) (value : Text) : Except FlagFault Setting :=
  match f.kind with
  | .text => .ok (.text value)
  | .switch =>
    match Settings.readSwitch? value with
    | some b => .ok (.switch b)
    | none => .error (.badValue value f (.notSwitch value))
  | .whole =>
    match Decimal.readInteger value with
    | .ok n => .ok (.whole n)
    | .error fault => .error (.badValue value f (.notWhole value fault))
  | .texts =>
    match readTexts value with
    | .ok ts =>
      match old with
      | some (.list items) => .ok (.list (items ++ ts.map .text))
      | _ => .ok (.list (ts.map .text))
    | .error problem => .error (.badValue value f problem)

end Flag

/-! ## Command lines -/

/-- The flags of a command line that were set, and its other words. -/
structure ParsedFlags where
  settings : Settings
  words : List Text
deriving Repr, Inhabited

namespace ParsedFlags

def set (p : ParsedFlags) (f : Flag) (value : Text) : Except FlagFault ParsedFlags := do
  let v ← f.read (p.settings.lookup (utf8 f.name)) value
  return { p with settings := Settings.set p.settings (utf8 f.name) v }

end ParsedFlags

/-- The flags that a command knows. -/
abbrev FlagSet := List Flag

namespace FlagSet

def find? (flags : FlagSet) (name : Text) : Option Flag :=
  List.find? (fun f => utf8 f.name == name) flags

def findLetter? (flags : FlagSet) (letter : UInt8) : Option Flag :=
  List.find? (fun f => f.letter.map ascii == some letter) flags

/-- The value of a switch that stands alone. -/
def switchedOn : Text := utf8 "true"

/-- Reads a word of letters. A letter may be followed by its value, which may
    also be the next word; the answer is whether that one was taken. -/
def readLetters (flags : FlagSet) (next : Option Text) (p : ParsedFlags) :
    Text → Except FlagFault (ParsedFlags × Bool)
  | [] => .ok (p, false)
  | letter :: rest =>
    match flags.findLetter? letter with
    | none => .error (.unknownLetter letter (letter :: rest))
    | some f =>
      match rest with
      | b :: value =>
        if b = ascii '=' && !value.isEmpty then (p.set f value).map fun q => (q, false)
        else if f.kind = .switch then
          match p.set f switchedOn with
          | .ok q => readLetters flags next q (b :: value)
          | .error e => .error e
        else (p.set f (b :: value)).map fun q => (q, false)
      | [] =>
        if f.kind = .switch then (p.set f switchedOn).map fun q => (q, false)
        else
          match next with
          | some value => (p.set f value).map fun q => (q, true)
          | none => .error (.missingValue (utf8 f.name))

/-- Reads a word that starts with two dashes. The answer is whether the next
    word was taken as its value. -/
def readName (flags : FlagSet) (next : Option Text) (p : ParsedFlags) (word : Text) :
    Except FlagFault (ParsedFlags × Bool) :=
  let body := word.drop 2
  match body with
  | [] => .error (.badForm word)
  | b :: _ =>
    if b = ascii '-' || b = ascii '=' then .error (.badForm word)
    else
      let name := body.takeWhile (· != ascii '=')
      match flags.find? name with
      | none => .error (.unknown name)
      | some f =>
        match body.dropWhile (· != ascii '=') with
        | _ :: value => (p.set f value).map fun q => (q, false)
        | [] =>
          if f.kind = .switch then (p.set f switchedOn).map fun q => (q, false)
          else
            match next with
            | some value => (p.set f value).map fun q => (q, true)
            | none => .error (.missingValue name)

/-- Reads a command line. `taken` tells that the first word has been taken as a
    value. -/
def parseFrom (flags : FlagSet) (taken : Bool) (p : ParsedFlags) :
    List Text → Except FlagFault ParsedFlags
  | [] => .ok p
  | word :: rest =>
    if taken then parseFrom flags false p rest
    else if word = utf8 "--" then .ok { p with words := p.words ++ rest }
    else
      let step :=
        if word.startsWith (utf8 "--") then flags.readName rest.head? p word
        else if word.startsWith [ascii '-'] && 1 < word.length then
          flags.readLetters rest.head? p (word.drop 1)
        else .ok ({ p with words := p.words ++ [word] }, false)
      match step with
      | .ok (q, tookNext) => parseFrom flags tookNext q rest
      | .error e => .error e

def parse (flags : FlagSet) (words : List Text) : Except FlagFault ParsedFlags :=
  parseFrom flags false ⟨[], []⟩ words

/-- Whether a word is a flag whose value is the next word. Unknown flags are
    taken for such. -/
def takesNext (flags : FlagSet) (word : Text) : Bool :=
  let isSwitch (f : Option Flag) : Bool := (f.map fun f => f.kind == .switch).getD false
  if word.contains (ascii '=') then false
  else if word.startsWith (utf8 "--") then !isSwitch (flags.find? (word.drop 2))
  else
    match word with
    | [dash, letter] => dash = ascii '-' && !isSwitch (flags.findLetter? letter)
    | _ => false

end FlagSet

end MixinCss
