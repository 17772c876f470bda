/-
  MixinCss.Files.Glob

  Patterns for paths. `*` stands for any run of characters of a name, `?` for
  one character, `[…]` for one of a class, `{…,…}` for one of several texts, and
  a segment `**` for any number of segments; a backslash takes the meaning off
  the character behind it.
-/

import MixinCss.Files.Tree
import MixinCss.Text.Utf8

namespace MixinCss.Glob

/-! ## Well-formed patterns -/

/-- What a check of a pattern is inside of. -/
inductive Inside where
  /-- Outside of any class. -/
  | outside
  /-- Right behind the opening bracket of a class. -/
  | classStart
  /-- Behind the opening bracket and the sign of negation. -/
  | classFirst
  /-- Behind the first character of a class. -/
  | classRest
  /-- Behind a backslash. -/
  | escaped (inClass : Bool)

/-- Whether classes are closed and not empty, braces match and a backslash is
    not the last byte. `depth` counts the open braces. -/
def isValidFrom (inside : Inside) (depth : Nat) : Text → Bool
  | [] =>
    match inside with
    | .outside => depth == 0
    | _ => false
  | b :: rest =>
    match inside with
    | .outside =>
      if b = ascii '\\' then isValidFrom (.escaped false) depth rest
      else if b = ascii '[' then isValidFrom .classStart depth rest
      else if b = ascii '\x7b' then isValidFrom .outside (depth + 1) rest
      else if b = ascii '\x7d' then depth != 0 && isValidFrom .outside (depth - 1) rest
      else isValidFrom .outside depth rest
    | .classStart =>
      if b = ascii '^' || b = ascii '!' then isValidFrom .classFirst depth rest
      else if b = ascii ']' then false
      else if b = ascii '\\' then isValidFrom (.escaped true) depth rest
      else isValidFrom .classRest depth rest
    | .classFirst =>
      if b = ascii ']' then false
      else if b = ascii '\\' then isValidFrom (.escaped true) depth rest
      else isValidFrom .classRest depth rest
    | .classRest =>
      if b = ascii ']' then isValidFrom .outside depth rest
      else if b = ascii '\\' then isValidFrom (.escaped true) depth rest
      else isValidFrom .classRest depth rest
    | .escaped inClass => isValidFrom (if inClass then .classRest else .outside) depth rest

def isValid (pattern : Text) : Bool := isValidFrom .outside 0 pattern

/-- Bytes that make a text a pattern. -/
def isMeta (b : UInt8) : Bool :=
  b = ascii '*' || b = ascii '?' || b = ascii '[' || b = ascii '\x7b'

/-- Whether no byte makes `t` a pattern. -/
def isLiteral : Text → Bool
  | [] => true
  | b :: rest =>
    if isMeta b then false
    else if b = ascii '\\' then
      match rest with
      | [] => true
      | _ :: more => isLiteral more
    else isLiteral rest

/-- The text that a literal pattern stands for. -/
def unescape : Text → Text
  | [] => []
  | b :: rest =>
    match rest with
    | [] => [b]
    | c :: more =>
      if b = ascii '\\' && (isMeta c || c = ascii ']' || c = ascii '\x7d') then c :: unescape more
      else b :: unescape (c :: more)

/-- The number of bytes in front of the last slash that stands before the first
    byte which makes the text a pattern. -/
def lastLiteralSlash (i : Nat) (found : Option Nat) : Text → Option Nat
  | [] => found
  | b :: rest =>
    if isMeta b then found
    else if b = ascii '/' then lastLiteralSlash (i + 1) (some i) rest
    else if b = ascii '\\' then
      match rest with
      | [] => found
      | _ :: more => lastLiteralSlash (i + 2) found more
    else lastLiteralSlash (i + 1) found rest

/-- The directory that a pattern starts from and the pattern below it. -/
def splitBase (pattern : Text) : Text × Text :=
  match lastLiteralSlash 0 none pattern with
  | none => (utf8 ".", pattern)
  | some 0 => (utf8 "/", pattern.drop 1)
  | some n => (unescape (pattern.take n), pattern.drop (n + 1))

/-! ## Alternatives -/

/-- Cuts a reversed text at the opening brace that matches a closing one in
    front of it. `depth` counts the closing braces that are open. -/
def openingBrace? (depth : Nat) : Text → Option (Text × Text)
  | [] => none
  | b :: rest =>
    let plain := rest.head? != some (ascii '\\')
    if b = ascii '\x7d' && plain then
      (openingBrace? (depth + 1) rest).map fun (inner, before) => (b :: inner, before)
    else if b = ascii '\x7b' && plain then
      if depth = 0 then some ([], rest)
      else (openingBrace? (depth - 1) rest).map fun (inner, before) => (b :: inner, before)
    else (openingBrace? depth rest).map fun (inner, before) => (b :: inner, before)

/-- The last closing brace of a reversed text with what is behind it and what
    is in front of it. -/
def lastBrace? : Text → Option (Text × Text)
  | [] => none
  | b :: rest =>
    if b = ascii '\x7d' && rest.head? != some (ascii '\\') then some ([], rest)
    else (lastBrace? rest).map fun (behind, before) => (b :: behind, before)

/-- The parts of a text between the commas outside of inner braces. -/
def pieces (depth : Nat) : Text → List Text
  | [] => [[]]
  | b :: rest =>
    let extend (front : Text) (parts : List Text) : List Text :=
      match parts with
      | [] => [front]
      | part :: more => (front ++ part) :: more
    if b = ascii '\\' then
      match rest with
      | [] => [[b]]
      | c :: more => extend [b, c] (pieces depth more)
    else if b = ascii '\x7b' then extend [b] (pieces (depth + 1) rest)
    else if b = ascii '\x7d' then extend [b] (pieces (depth - 1) rest)
    else if b = ascii ',' && depth = 0 then [] :: pieces depth rest
    else extend [b] (pieces depth rest)

/-- The texts between a pair of braces. An empty one counts unless it is the
    last. -/
def alternatives (inner : Text) : List Text :=
  let parts := pieces 0 inner
  if parts.getLast? = some [] then parts.dropLast else parts

/-- The last pair of braces of a pattern: the text before it, between them and
    behind it. -/
def lastPair? (pattern : Text) : Option (Text × Text × Text) := do
  let (behind, before) ← lastBrace? pattern.reverse
  let (inner, front) ← openingBrace? 0 before
  return (front.reverse, inner.reverse, behind.reverse)

/-- The patterns without alternatives that a pattern stands for. At most `fuel`
    pairs of braces are resolved on the way to each of them. -/
def expandWithin : Nat → Text → List Text
  | 0, pattern => [pattern]
  | fuel + 1, pattern =>
    match lastPair? pattern with
    | none => [pattern]
    | some (front, inner, behind) =>
      (alternatives inner).flatMap fun part => expandWithin fuel (front ++ part ++ behind)

/-- The patterns without alternatives that a pattern stands for. -/
def expand (pattern : Text) : List Text :=
  expandWithin (pattern.count (ascii '\x7d')) pattern

/-! ## Names -/

/-- One element of the pattern of a name. -/
inductive Element where
  /-- Any run of characters. -/
  | run
  | one
  | exactly (code : Nat)
  /-- One character inside or, negated, outside of the ranges. -/
  | member (negated : Bool) (ranges : List (Nat × Nat))
deriving DecidableEq, Repr

/-- What comes next inside of a class. -/
inductive ClassPart where
  /-- A character; the one before it may start a range. -/
  | character (start : Option Nat)
  /-- The end of a range, or of the class if the dash stands for itself. -/
  | afterDash (low : Nat)
  /-- A character behind a backslash. -/
  | escaped
  /-- The end of a range behind a backslash. -/
  | escapedEnd (low : Nat)

/-- How far the pattern of a name has been read. -/
inductive Reading where
  | between
  /-- Behind a star; a second one adds nothing. -/
  | afterStar
  | escaped
  /-- Behind the opening bracket of a class. -/
  | classStart
  | inClass (negated : Bool) (ranges : List (Nat × Nat)) (part : ClassPart)

/-- Reads one character between elements. -/
def readBetween (c : Nat) : Option Element × Reading :=
  if c = '*'.toNat then (some .run, .afterStar)
  else if c = '?'.toNat then (some .one, .between)
  else if c = '\\'.toNat then (none, .escaped)
  else if c = '['.toNat then (none, .classStart)
  else (some (.exactly c), .between)

/-- Reads one character of a class. A character in front of a dash belongs to
    the class on its own and also starts a range. -/
def readInClass (negated : Bool) (ranges : List (Nat × Nat)) (part : ClassPart) (c : Nat) :
    Option Element × Reading :=
  let close (all : List (Nat × Nat)) : Option Element × Reading :=
    (some (.member negated all), .between)
  let go (all : List (Nat × Nat)) (next : ClassPart) : Option Element × Reading :=
    (none, .inClass negated all next)
  let dash := '-'.toNat
  match part with
  | .character start =>
    if c = ']'.toNat then close ranges
    else if c = '\\'.toNat then go ranges .escaped
    else
      match start with
      | some low =>
        if c = dash then go ranges (.afterDash low)
        else go (ranges ++ [(c, c)]) (.character (some c))
      | none => go (ranges ++ [(c, c)]) (.character (some c))
  | .afterDash low =>
    if c = ']'.toNat then close (ranges ++ [(dash, dash)])
    else if c = '\\'.toNat then go ranges (.escapedEnd low)
    else go (ranges ++ [(low, c)]) (.character none)
  | .escaped => go (ranges ++ [(c, c)]) (.character (some c))
  | .escapedEnd low => go (ranges ++ [(low, c)]) (.character none)

/-- Reads one character of a pattern. -/
def read (r : Reading) (c : Nat) : Option Element × Reading :=
  match r with
  | .between => readBetween c
  | .afterStar => if c = '*'.toNat then (none, .between) else readBetween c
  | .escaped => (some (.exactly c), .between)
  | .classStart =>
    if c = '!'.toNat || c = '^'.toNat then (none, .inClass true [] (.character none))
    else readInClass false [] (.character none) c
  | .inClass negated ranges part => readInClass negated ranges part c

/-- The elements of the rest of a pattern. -/
def elementsFrom (r : Reading) : List Nat → List Element
  | [] => []
  | c :: rest =>
    let (element, next) := read r c
    element.toList ++ elementsFrom next rest

/-- The elements of the pattern of a name. -/
def elements (segment : Text) : List Element :=
  elementsFrom .between (segment.runes.map Rune.code)

/-- Whether one character fits an element. -/
def Element.fits (e : Element) (c : Nat) : Bool :=
  match e with
  | .run => true
  | .one => true
  | .exactly code => c == code
  | .member negated ranges => ranges.any (fun r => r.1 ≤ c && c ≤ r.2) != negated

/-- Whether elements fit all of a name. At its end a single run may be left. -/
def fitsAll : List Element → List Nat → Bool
  | es, [] => es == [] || es == [.run]
  | [], _ :: _ => false
  | e :: es, c :: cs =>
    if e = .run then fitsAll es (c :: cs) || fitsAll (e :: es) cs
    else e.fits c && fitsAll es cs
termination_by es cs => es.length + cs.length

/-- Whether the pattern of a name fits a name. -/
def fitsName (segment name : Text) : Bool :=
  fitsAll (elements segment) (name.runes.map Rune.code)

/-! ## Paths -/

/-- A place one name further down. -/
def child (place : Path) (name : Text) : Path :=
  { place with segments := place.segments ++ [name] }

/-- The places below a directory that the segments of a pattern lead to.
    Segments in front of the first real pattern are plain names. -/
def descend (t : FileTree) (literal : Bool) (place : Path) : List Text → List Path
  | [] => [place]
  | segment :: rest =>
    let literal := literal && isLiteral segment
    if segment = utf8 "**" then
      if t.find? place = some .directory then
        (place :: (t.below place).map fun entry =>
          { place with segments := place.segments ++ entry.1 }).flatMap fun p =>
            descend t literal p rest
      else []
    else
      ((t.names place).filter fun name =>
        if literal then name = unescape segment else fitsName segment name).flatMap fun name =>
          descend t literal (child place name) rest

/-- The paths that a pattern leads to, directories among them; none if the
    pattern is not well formed. -/
def paths? (t : FileTree) (pattern : Text) : Option (List Text) :=
  let pattern := Path.clean pattern
  let (base, rest) := splitBase pattern
  if rest = [] ∨ rest = utf8 "." ∨ rest = utf8 ".." then
    if !isValid pattern then none
    else
      let p := Path.ofText (unescape pattern)
      some (if (t.find? p).isSome then [p.text] else [])
  else if !isValid rest then none
  else
    some <| (expand rest).flatMap fun alternative =>
      (descend t true (Path.ofText base) (Text.split (ascii '/') alternative)).map Path.text

end MixinCss.Glob
