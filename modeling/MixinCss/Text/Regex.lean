/-
  MixinCss.Text.Regex

  Regular expressions over code points: their syntax, and a search that keeps
  the set of places a match may end at. An expression whose syntax is wrong has
  no reading at all.
-/

import MixinCss.Text.Utf8

namespace MixinCss

/-- A regular expression. -/
inductive Regex where
  /-- Matches nothing but the empty text. -/
  | empty
  /-- One code point inside or, negated, outside of the ranges. -/
  | member (negated : Bool) (ranges : List (Nat × Nat))
  /-- The start of the text. -/
  | start
  /-- The end of the text. -/
  | finish
  /-- A place where a word begins or ends or, negated, any other. -/
  | wordEdge (negated : Bool)
  | both (a b : Regex)
  | either (a b : Regex)
  /-- From `low` to `high` times in a row, without a bound if there is none. -/
  | times (low : Nat) (high : Option Nat) (a : Regex)
deriving Repr, Inhabited

namespace Regex

/-! ## Search -/

def inRanges (ranges : List (Nat × Nat)) (c : Nat) : Bool :=
  ranges.any fun r => r.1 ≤ c && c ≤ r.2

/-- ASCII letters, digits and the underscore. -/
def wordRanges : List (Nat × Nat) := [(0x30, 0x39), (0x41, 0x5A), (0x5F, 0x5F), (0x61, 0x7A)]

/-- Whether a word begins or ends at a place. -/
def isWordEdge (w : List Nat) (i : Nat) : Bool :=
  let isWord (j : Nat) := (w[j]?.map (inRanges wordRanges)).getD false
  (i != 0 && isWord (i - 1)) != isWord i

/-- Applies a step from places to places `n` times. -/
def iterate (step : Nat → List Nat) (n : Nat) (places : List Nat) : List Nat :=
  match n with
  | 0 => places
  | n + 1 => iterate step n (places.flatMap step).eraseDups

/-- The places reached from `places` by at most `n` steps. -/
def reach (step : Nat → List Nat) (n : Nat) (places : List Nat) : List Nat :=
  match n with
  | 0 => places
  | n + 1 => reach step n (places ++ places.flatMap step).eraseDups

/-- The places where a match that begins at a place of `w` may end. -/
def ends (w : List Nat) : Regex → Nat → List Nat
  | .empty, i => [i]
  | .member negated ranges, i =>
    match w[i]? with
    | some c => if inRanges ranges c != negated then [i + 1] else []
    | none => []
  | .start, i => if i = 0 then [i] else []
  | .finish, i => if i = w.length then [i] else []
  | .wordEdge negated, i => if isWordEdge w i != negated then [i] else []
  | .both a b, i => ((ends w a i).flatMap (ends w b)).eraseDups
  | .either a b, i => (ends w a i ++ ends w b i).eraseDups
  | .times low high a, i =>
    let first := iterate (ends w a) low [i]
    match high with
    | some n => reach (ends w a) (n - low) first
    | none => reach (ends w a) (w.length + 1) first

/-- Whether an expression matches somewhere in a text. -/
def occursIn (r : Regex) (t : Text) : Bool :=
  let w := t.runes.map Rune.code
  (List.range (w.length + 1)).any fun i => !(ends w r i).isEmpty

/-! ## Syntax -/

/-- All code points outside of the ranges, which are in order and apart. -/
def complement (next : Nat) : List (Nat × Nat) → List (Nat × Nat)
  | [] => [(next, 0x10FFFF)]
  | (low, high) :: rest =>
    if next < low then (next, low - 1) :: complement (high + 1) rest
    else complement (high + 1) rest

def digitRanges : List (Nat × Nat) := [(0x30, 0x39)]

def blankRanges : List (Nat × Nat) := [(0x09, 0x0A), (0x0C, 0x0D), (0x20, 0x20)]

/-- The class that a letter behind a backslash names. -/
def namedClass? (c : Nat) : Option (List (Nat × Nat)) :=
  if c = 'd'.toNat then some digitRanges
  else if c = 's'.toNat then some blankRanges
  else if c = 'w'.toNat then some wordRanges
  else if c = 'D'.toNat then some (complement 0 digitRanges)
  else if c = 'S'.toNat then some (complement 0 blankRanges)
  else if c = 'W'.toNat then some (complement 0 wordRanges)
  else none

/-- The value of a hexadecimal digit. -/
def hexDigit? (c : Nat) : Option Nat :=
  if c < 0x80 && Byte.isHexDigit c.toUInt8 then some (Byte.digitValue c.toUInt8) else none

def isOctal (c : Nat) : Bool := 0x30 ≤ c && c ≤ 0x37

/-- The code point behind a backslash and what follows it. Letters and digits
    have a meaning of their own or none; other ASCII characters stand for
    themselves. -/
def escape? : List Nat → Option (Nat × List Nat)
  | [] => none
  | c :: rest =>
    if c = 'a'.toNat then some (7, rest)
    else if c = 'f'.toNat then some (0x0C, rest)
    else if c = 'n'.toNat then some (0x0A, rest)
    else if c = 'r'.toNat then some (0x0D, rest)
    else if c = 't'.toNat then some (0x09, rest)
    else if c = 'v'.toNat then some (0x0B, rest)
    else if c = 'x'.toNat then
      match rest with
      | d :: more =>
        if d = '\x7b'.toNat then
          let digits := more.takeWhile fun x => (hexDigit? x).isSome
          let value := digits.foldl (fun n x => 16 * n + (hexDigit? x).getD 0) 0
          match more.dropWhile fun x => (hexDigit? x).isSome with
          | e :: behind =>
            if e = '\x7d'.toNat && !digits.isEmpty && value ≤ 0x10FFFF then some (value, behind)
            else none
          | [] => none
        else
          match more with
          | e :: behind =>
            match hexDigit? d, hexDigit? e with
            | some x, some y => some (16 * x + y, behind)
            | _, _ => none
          | [] => none
      | [] => none
    else if isOctal c then
      let second := rest.head?.map isOctal
      if c ≠ '0'.toNat && second != some true then none
      else
        let more := (rest.take 2).takeWhile isOctal
        some ((c :: more).foldl (fun n x => 8 * n + (x - 0x30)) 0, rest.drop more.length)
    else if c < 0x80 && !Byte.isDigit c.toUInt8 && !Byte.isLetter c.toUInt8 then some (c, rest)
    else none

/-- The classes that a name between `[:` and `:]` stands for. -/
def posixClasses : List (String × List (Nat × Nat)) := [
  ("alnum", [(0x30, 0x39), (0x41, 0x5A), (0x61, 0x7A)]),
  ("alpha", [(0x41, 0x5A), (0x61, 0x7A)]),
  ("ascii", [(0, 0x7F)]),
  ("blank", [(0x09, 0x09), (0x20, 0x20)]),
  ("cntrl", [(0, 0x1F), (0x7F, 0x7F)]),
  ("digit", [(0x30, 0x39)]),
  ("graph", [(0x21, 0x7E)]),
  ("lower", [(0x61, 0x7A)]),
  ("print", [(0x20, 0x7E)]),
  ("punct", [(0x21, 0x2F), (0x3A, 0x40), (0x5B, 0x60), (0x7B, 0x7E)]),
  ("space", [(0x09, 0x0D), (0x20, 0x20)]),
  ("upper", [(0x41, 0x5A)]),
  ("word", [(0x30, 0x39), (0x41, 0x5A), (0x5F, 0x5F), (0x61, 0x7A)]),
  ("xdigit", [(0x30, 0x39), (0x41, 0x46), (0x61, 0x66)])]

/-- A class by name at the start of `codes`, which follow `[:`; its ranges and
    what follows `:]`. The outer answer is whether there is such a form at all. -/
def posix? (codes : List Nat) : Option (Option (List (Nat × Nat) × List Nat)) :=
  let body := codes.takeWhile (· != ':'.toNat)
  match codes.dropWhile (· != ':'.toNat) with
  | _ :: close :: behind =>
    if close ≠ ']'.toNat then none
    else
      let (negated, name) :=
        match body with
        | c :: rest => if c = '^'.toNat then (true, rest) else (false, body)
        | [] => (false, [])
      match posixClasses.find? fun entry => entry.1.toList.map Char.toNat == name with
      | some (_, ranges) =>
        some (some (if negated then complement 0 ranges else ranges, behind))
      | none => some none
  | _ => none

/-- One character of a class, which may stand behind a backslash. -/
def classCharacter? : List Nat → Option (Nat × List Nat)
  | [] => none
  | c :: rest => if c = '\\'.toNat then escape? rest else some (c, rest)

/-- The ranges of a class up to its closing bracket and what follows it. A
    bracket that is the first member stands for itself. -/
def classBody? (first : Bool) : Nat → List Nat → Option (List (Nat × Nat) × List Nat)
  | 0, _ => none
  | fuel + 1, codes =>
    match codes with
    | [] => none
    | c :: rest =>
      if c = ']'.toNat && !first then some ([], rest)
      else
        let go (ranges : List (Nat × Nat)) (behind : List Nat) :=
          (classBody? false fuel behind).map fun (more, tail) => (ranges ++ more, tail)
        let single : Option (List (Nat × Nat) × List Nat) := do
          let (low, behind) ← classCharacter? codes
          match behind with
          | d :: e :: more =>
            if d = '-'.toNat && e ≠ ']'.toNat then
              let (high, tail) ← classCharacter? (e :: more)
              if high < low then none else go [(low, high)] tail
            else go [(low, low)] behind
          | _ => go [(low, low)] behind
        match rest with
        | d :: more =>
          if c = '['.toNat && d = ':'.toNat then
            match posix? more with
            | some (some (ranges, behind)) => go ranges behind
            | some none => none
            | none => single
          else if c = '\\'.toNat then
            match namedClass? d with
            | some ranges => go ranges more
            | none => single
          else single
        | [] => single

/-- A class behind its opening bracket. -/
def class? (codes : List Nat) : Option (Regex × List Nat) :=
  let (negated, body) :=
    match codes with
    | c :: rest => if c = '^'.toNat then (true, rest) else (false, codes)
    | [] => (false, [])
  (classBody? true (body.length + 1) body).map fun (ranges, behind) =>
    (.member negated ranges, behind)

/-- A number of repetitions. -/
def count? (codes : List Nat) : Option (Nat × List Nat) :=
  let isDigit (c : Nat) := 0x30 ≤ c && c ≤ 0x39
  let digits := codes.takeWhile isDigit
  if digits.isEmpty || (digits.length > 1 && digits.head? = some 0x30) then none
  else some (digits.foldl (fun n c => 10 * n + (c - 0x30)) 0, codes.dropWhile isDigit)

/-- The bounds of a repetition behind its opening brace, and what follows. -/
def bounds? (codes : List Nat) : Option (Nat × Option Nat × List Nat) := do
  let (low, rest) ← count? codes
  match rest with
  | c :: more =>
    if c = '\x7d'.toNat then some (low, some low, more)
    else if c = ','.toNat then
      match more with
      | d :: behind =>
        if d = '\x7d'.toNat then some (low, none, behind)
        else
          let (high, tail) ← count? more
          match tail with
          | e :: behind => if e = '\x7d'.toNat then some (low, some high, behind) else none
          | [] => none
      | [] => none
    else none
  | [] => none

/-- The greatest number of repetitions, also of nested ones together. -/
def repeatLimit : Nat := 1000

/-- Whether nested repetitions stay within a limit. -/
def repeatsWithin (limit : Nat) : Regex → Bool
  | .both a b => repeatsWithin limit a && repeatsWithin limit b
  | .either a b => repeatsWithin limit a && repeatsWithin limit b
  | .times low high a =>
    let m := high.getD low
    if high = none ∧ low ≤ 1 ∨ high = some 1 then repeatsWithin limit a
    else if high = some 0 then true
    else decide (m ≤ limit) && repeatsWithin (if m = 0 then limit else limit / m) a
  | _ => true

/-- What follows an item: how often it is repeated. The last answer is whether
    there was a repetition; two in a row are wrong. -/
def repetition? (a : Regex) (codes : List Nat) : Option (Regex × List Nat × Bool) :=
  match codes with
  | c :: rest =>
    if c = '*'.toNat then some (.times 0 none a, rest, true)
    else if c = '+'.toNat then some (.times 1 none a, rest, true)
    else if c = '?'.toNat then some (.times 0 (some 1) a, rest, true)
    else if c = '\x7b'.toNat then
      match bounds? rest with
      | none => some (a, codes, false)
      | some (low, high, behind) =>
        let wrong := repeatLimit < low || (high.map fun n => n < low || repeatLimit < n).getD false
        let repeated := Regex.times low high a
        if wrong || !repeatsWithin repeatLimit repeated then none
        else some (repeated, behind, true)
    else some (a, codes, false)
  | [] => some (a, [], false)

/-- Whether `codes` begin with a repetition. -/
def startsRepetition : List Nat → Bool
  | [] => false
  | c :: rest =>
    c = '*'.toNat || c = '+'.toNat || c = '?'.toNat ||
      (c = '\x7b'.toNat && (bounds? rest).isSome)

/-- An item and its repetition. A repetition may be followed by `?`, which asks
    for the shortest match and does not change whether there is one. -/
def repeated? (a : Regex) (codes : List Nat) : Option (Regex × List Nat) := do
  let (r, rest, found) ← repetition? a codes
  if !found then return (r, rest)
  let behind :=
    match rest with
    | c :: more => if c = '?'.toNat then more else rest
    | [] => rest
  if startsRepetition behind then none else return (r, behind)

/-- An item behind a backslash. -/
def escapedItem? (codes : List Nat) : Option (Regex × List Nat) :=
  match codes with
  | [] => none
  | c :: rest =>
    if c = 'A'.toNat then some (.start, rest)
    else if c = 'z'.toNat then some (.finish, rest)
    else if c = 'b'.toNat then some (.wordEdge false, rest)
    else if c = 'B'.toNat then some (.wordEdge true, rest)
    else
      match namedClass? c with
      | some ranges => some (.member false ranges, rest)
      | none => (escape? codes).map fun (code, behind) => (.member false [(code, code)], behind)

mutual

/-- Alternatives up to a closing parenthesis or the end. -/
def alternatives? : Nat → List Nat → Option (Regex × List Nat)
  | 0, _ => none
  | fuel + 1, codes => do
    let (a, rest) ← sequence? fuel codes
    match rest with
    | c :: more =>
      if c = '|'.toNat then
        let (b, behind) ← alternatives? fuel more
        return (.either a b, behind)
      else return (a, rest)
    | [] => return (a, rest)

/-- Items in a row. -/
def sequence? : Nat → List Nat → Option (Regex × List Nat)
  | 0, _ => none
  | fuel + 1, codes =>
    match codes with
    | [] => some (.empty, [])
    | c :: rest =>
      if c = '|'.toNat || c = ')'.toNat then some (.empty, codes)
      else if startsRepetition codes then none
      else do
        let (a, behind) ← item? fuel c rest
        let (r, tail) ← repeated? a behind
        let (next, last) ← sequence? fuel tail
        return (.both r next, last)

/-- One item, given by its first character and what follows it. -/
def item? : Nat → Nat → List Nat → Option (Regex × List Nat)
  | 0, _, _ => none
  | fuel + 1, c, rest =>
    if c = '('.toNat then do
      let (a, behind) ← alternatives? fuel rest
      match behind with
      | d :: more => if d = ')'.toNat then return (a, more) else none
      | [] => none
    else if c = '['.toNat then class? rest
    else if c = '.'.toNat then some (.member true [(0x0A, 0x0A)], rest)
    else if c = '^'.toNat then some (.start, rest)
    else if c = '$'.toNat then some (.finish, rest)
    else if c = '\\'.toNat then escapedItem? rest
    else some (.member false [(c, c)], rest)

end

/-- Reads a regular expression. -/
def parse? (t : Text) : Option Regex :=
  if !t.isUtf8 then none
  else
    let codes := t.runes.map Rune.code
    match alternatives? (3 * codes.length + 3) codes with
    | some (r, []) => some r
    | _ => none

end Regex

end MixinCss
