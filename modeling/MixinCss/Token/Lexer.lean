/-
  MixinCss.Token.Lexer

  The lexer. A scanner looks at the beginning of a text and says how many bytes
  belong to what it recognizes, zero if it recognizes nothing; `scan` picks the
  scanner by the first byte. Scanners see the bytes that follow, so they always
  take as much as they can. The lexemes of a text, put together, are the text
  (`lex_flatMap_text`).
-/

import MixinCss.Token.Basic

namespace MixinCss.Lexer

/-! ## Classes of bytes -/

def isSpace (b : UInt8) : Bool :=
  b == ascii ' ' || b == ascii '\t' || b == ascii '\n' || b == ascii '\r' || b == 0x0C

def isNewline (b : UInt8) : Bool := b == ascii '\n' || b == ascii '\r' || b == 0x0C

/-- Bytes that may start a name; all bytes outside ASCII may. -/
def isNameStart (b : UInt8) : Bool := Byte.isLetter b || b == ascii '_' || 0x80 ≤ b

/-- Bytes that may stand inside a name. -/
def isNameByte (b : UInt8) : Bool := isNameStart b || Byte.isDigit b || b == ascii '-'

def isQuote (b : UInt8) : Bool := b == ascii '"' || b == ascii '\''

def isSign (b : UInt8) : Bool := b == ascii '+' || b == ascii '-'

/-! ## Parts of tokens -/

/-- How many bytes at the beginning of `t` satisfy `p`. -/
def run (p : UInt8 → Bool) (t : Text) : Nat := (t.takeWhile p).length

/-- One if the text begins with a byte satisfying `p`. -/
def one (p : UInt8 → Bool) : Text → Nat
  | b :: _ => if p b then 1 else 0
  | [] => 0

/-- The length of the UTF-8 sequence announced by its first byte, cut short by
    the end of the text. -/
def sequence (b : UInt8) (rest : Text) : Nat :=
  let announced := if b < 0xE0 then 2 else if b < 0xF0 then 3 else 4
  min announced (rest.length + 1)

/-- The number of bytes after a backslash that belong to the escape, if it is
    one: up to six hexadecimal digits and one white space, or any character
    except a line break. -/
def escape? : Text → Option Nat
  | [] => none
  | b :: rest =>
    if isNewline b then none
    else if Byte.isHexDigit b then
      let digits := min 6 (run Byte.isHexDigit (b :: rest))
      some (digits + one isSpace ((b :: rest).drop digits))
    else if 0xC0 ≤ b then some (sequence b rest)
    else some 1

/-- Bytes of names and escapes at the beginning of a text. -/
def nameTail : Text → Nat
  | [] => 0
  | b :: rest =>
    if isNameByte b then nameTail rest + 1
    else if b = ascii '\\' then
      match escape? rest with
      | some n => n + 1 + nameTail (rest.drop n)
      | none => 0
    else 0
termination_by t => t.length
decreasing_by
  · simp
  · simp only [List.length_drop, List.length_cons]; omega

/-- A byte or an escape that may start a name. -/
def nameHead : Text → Nat
  | [] => 0
  | b :: rest =>
    if isNameStart b then 1
    else if b = ascii '\\' then
      match escape? rest with
      | some n => n + 1
      | none => 0
    else 0

/-- A name: one dash may stand in front of its first letter, and after two
    dashes anything may follow or nothing. -/
def name (t : Text) : Nat :=
  match t with
  | a :: b :: rest =>
    if a = ascii '-' && b = ascii '-' then 2 + nameTail rest
    else
      let dash := if a = ascii '-' then 1 else 0
      let head := nameHead (t.drop dash)
      if head = 0 then 0 else dash + head + nameTail (t.drop (dash + head))
  | _ =>
    let head := nameHead t
    if head = 0 then 0 else head + nameTail (t.drop head)

/-- A mark, an optional sign and at least one digit. -/
def exponent (t : Text) : Nat :=
  match t with
  | b :: rest =>
    if Byte.lower b = ascii 'e' then
      let sign := one isSign rest
      let digits := run Byte.isDigit (rest.drop sign)
      if digits = 0 then 0 else 1 + sign + digits
    else 0
  | [] => 0

/-- A point and at least one digit. -/
def fraction (t : Text) : Nat :=
  match t with
  | b :: rest =>
    if b = ascii '.' then
      let digits := run Byte.isDigit rest
      if digits = 0 then 0 else 1 + digits
    else 0
  | [] => 0

/-- An optional sign, digits, a fraction and an exponent, with at least one
    digit before the exponent. -/
def number (t : Text) : Nat :=
  let sign := one isSign t
  let whole := run Byte.isDigit (t.drop sign)
  let part := fraction (t.drop (sign + whole))
  if whole + part = 0 then 0
  else
    let size := sign + whole + part
    size + exponent (t.drop size)

/-- The rest of a string after its opening `quote`, and whether it is well
    formed: a line break inside makes it a bad one. The end of the text closes
    every string. -/
def stringTail (quote : UInt8) : Text → Bool × Nat
  | [] => (true, 0)
  | b :: rest =>
    if isNewline b then (false, 1)
    else if b = quote then (true, 1)
    else if b = ascii '\\' then
      -- A backslash that starts no escape hides one line break.
      let skipped :=
        match escape? rest with
        | some n => n
        | none =>
          match rest with
          | c :: d :: _ =>
            if c = ascii '\r' && d = ascii '\n' then 2 else if isNewline c then 1 else 0
          | [c] => if isNewline c then 1 else 0
          | [] => 0
      let (fine, n) := stringTail quote (rest.drop skipped)
      (fine, 1 + skipped + n)
    else
      let (fine, n) := stringTail quote rest
      (fine, n + 1)
termination_by t => t.length
decreasing_by
  · simp only [List.length_drop, List.length_cons]; omega
  · simp

/-- Up to and including the next closing parenthesis; escapes are skipped. -/
def badUrlTail : Text → Nat
  | [] => 0
  | b :: rest =>
    if b = ascii ')' then 1
    else if b = ascii '\\' then
      match escape? rest with
      | some n => n + 1 + badUrlTail (rest.drop n)
      | none => 1 + badUrlTail rest
    else 1 + badUrlTail rest
termination_by t => t.length
decreasing_by
  · simp only [List.length_drop, List.length_cons]; omega
  · simp
  · simp

/-- An address without quotes, and whether it stopped at a closing parenthesis
    or at the end of the text. -/
def bareUrl : Text → Bool × Nat
  | [] => (true, 0)
  | b :: rest =>
    if b = ascii ')' then (true, 0)
    else if b = ascii '\\' then
      match escape? rest with
      | some n =>
        let (fine, m) := bareUrl (rest.drop n)
        (fine, n + 1 + m)
      | none => (false, 0)
    else if isQuote b || b = ascii '(' || b ≤ 0x20 || b = 0x7F then (false, 0)
    else
      let (fine, m) := bareUrl rest
      (fine, m + 1)
termination_by t => t.length
decreasing_by
  · simp only [List.length_drop, List.length_cons]; omega
  · simp

/-- The address in `url(…)`, after the white space that may precede it: a
    string, or bare text after which one white space is allowed. -/
def address (t : Text) : Bool × Nat :=
  match t with
  | b :: rest =>
    if isQuote b then
      let (fine, n) := stringTail b rest
      (fine, n + 1)
    else
      let (fine, n) := bareUrl t
      if fine then (true, n)
      else
        let gap := one isSpace (t.drop n)
        (gap != 0, n + gap)
  | [] => (true, 0)

/-- What follows the opening parenthesis of `url(`: an address between white
    space and a closing parenthesis, which the end of the text replaces. -/
def urlTail (t : Text) : TokenKind × Nat :=
  let lead := run isSpace t
  let (fine, n) := address (t.drop lead)
  let size := lead + n
  if fine then
    let size := size + run isSpace (t.drop size)
    match t.drop size with
    | [] => (.url, size)
    | b :: _ =>
      if b = ascii ')' then (.url, size + 1)
      else (.badUrl, size + badUrlTail (t.drop size))
  else (.badUrl, size + badUrlTail (t.drop size))

/-! ## Tokens -/

/-- A number by itself, with a percent sign or with a unit. -/
def numeric? (t : Text) : Option (TokenKind × Nat) :=
  let n := number t
  if n = 0 then none
  else
    match t.drop n with
    | b :: rest =>
      if b = ascii '%' then some (.percentage, n + 1)
      else
        let unit := name (b :: rest)
        if unit = 0 then some (.number, n) else some (.dimension, n + unit)
    | [] => some (.number, n)

/-- A name, or with a parenthesis behind it a function or an address. -/
def nameLike? (t : Text) : Option (TokenKind × Nat) :=
  let n := name t
  if n = 0 then none
  else
    match t.drop n with
    | b :: rest =>
      if b = ascii '(' then
        let word := ((t.take n).filter (· != ascii '\\')).map Byte.lower
        if word = utf8 "url" then
          let (kind, m) := urlTail rest
          some (kind, n + 1 + m)
        else some (.function, n + 1)
      else some (.ident, n)
    | [] => some (.ident, n)

/-- `U+` with one to six hexadecimal digits and question marks, or two groups of
    digits with a dash between them. -/
def unicodeRange? (t : Text) : Option (TokenKind × Nat) :=
  match t with
  | u :: plus :: rest =>
    if Byte.lower u = ascii 'u' && plus = ascii '+' then
      let first := run Byte.isHexDigit rest
      match rest.drop first with
      | b :: more =>
        if b = ascii '-' then
          let second := run Byte.isHexDigit more
          if 1 ≤ first && first ≤ 6 && 1 ≤ second && second ≤ 6 then
            some (.unicodeRange, 3 + first + second)
          else none
        else
          let marks := run (· == ascii '?') (b :: more)
          if 1 ≤ first + marks && first + marks ≤ 6 then
            some (.unicodeRange, 2 + first + marks)
          else none
      | [] => if 1 ≤ first && first ≤ 6 then some (.unicodeRange, 2 + first) else none
    else none
  | _ => none

/-- The rest of a comment after its opening mark. -/
def commentTail : Text → Nat
  | [] => 0
  | [_] => 1
  | a :: b :: rest =>
    if a = ascii '*' && b = ascii '/' then 2 else 1 + commentTail (b :: rest)

/-- A two-byte token if `second` follows, else a single byte. -/
def pair (second : UInt8) (kind : TokenKind) (rest : Text) : TokenKind × Nat :=
  match rest with
  | b :: _ => if b = second then (kind, 2) else (.delim, 1)
  | [] => (.delim, 1)

/-- The first of the alternatives that recognizes something, else one byte. -/
def firstOf (alternatives : List (Option (TokenKind × Nat))) : TokenKind × Nat :=
  (alternatives.findSome? id).getD (.delim, 1)

/-- The token at the beginning of a text that is not empty: its class and the
    number of its bytes. -/
def scan (b : UInt8) (rest : Text) : TokenKind × Nat :=
  let t := b :: rest
  if isSpace b then (.whitespace, run isSpace t)
  else if b = ascii ':' then (.colon, 1)
  else if b = ascii ';' then (.semicolon, 1)
  else if b = ascii ',' then (.comma, 1)
  else if b = ascii '(' then (.openParen, 1)
  else if b = ascii ')' then (.closeParen, 1)
  else if b = ascii '[' then (.openBracket, 1)
  else if b = ascii ']' then (.closeBracket, 1)
  else if b = 0x7B then (.openBrace, 1)
  else if b = 0x7D then (.closeBrace, 1)
  else if b = ascii '#' then
    let n := nameTail rest
    if n = 0 then (.delim, 1) else (.hash, n + 1)
  else if isQuote b then
    let (fine, n) := stringTail b rest
    (if fine then .string else .badString, n + 1)
  else if b = ascii '.' || b = ascii '+' then firstOf [numeric? t]
  else if b = ascii '-' then
    if (utf8 "->").isPrefixOf rest then (.commentClose, 3)
    else if rest.head? = some (ascii '-') then (.customProperty, name t)
    else firstOf [nameLike? t, numeric? t]
  else if b = ascii '@' then
    let n := name rest
    if n = 0 then (.delim, 1) else (.atKeyword, n + 1)
  else if b = ascii '$' then pair (ascii '=') .tailMatch rest
  else if b = ascii '*' then pair (ascii '=') .substringMatch rest
  else if b = ascii '^' then pair (ascii '=') .headMatch rest
  else if b = ascii '~' then pair (ascii '=') .includeMatch rest
  else if b = ascii '/' then
    match rest with
    | c :: more => if c = ascii '*' then (.comment, 2 + commentTail more) else (.delim, 1)
    | [] => (.delim, 1)
  else if b = ascii '<' then
    if (utf8 "!--").isPrefixOf rest then (.commentOpen, 4) else (.delim, 1)
  else if b = ascii '\\' then firstOf [nameLike? t]
  else if b = ascii 'u' || b = ascii 'U' then firstOf [unicodeRange? t, nameLike? t]
  else if b = ascii '|' then
    if rest.head? = some (ascii '|') then (.column, 2) else pair (ascii '=') .dashMatch rest
  else firstOf [numeric? t, nameLike? t]

/-- All lexemes of a text that starts at `offset` of the source, comments and
    bad tokens included. -/
def lex (offset : Nat) : Text → List Token
  | [] => []
  | b :: rest =>
    let (kind, n) := scan b rest
    let text := b :: rest.take (n - 1)
    ⟨kind, text, offset⟩ :: lex (offset + text.length) (rest.drop (n - 1))
termination_by t => t.length
decreasing_by simp only [List.length_drop, List.length_cons]; omega

/-- The lexemes of a text, put together, are the text. -/
theorem lex_flatMap_text (offset : Nat) (t : Text) : (lex offset t).flatMap Token.text = t := by
  fun_induction lex offset t with
  | case1 => rfl
  | case2 offset b rest kind n h text ih =>
    rw [List.flatMap_cons, ih]
    simp [text]

end MixinCss.Lexer
