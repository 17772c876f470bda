/-
  MixinCss.Token.Basic

  Tokens: the smallest pieces of a style sheet, each with its text and the byte
  offset at which it starts.
-/

import MixinCss.Text.Basic

namespace MixinCss

/-- The classes of tokens. -/
inductive TokenKind where
  | ident
  /-- A name with the parenthesis that opens its arguments. -/
  | function
  /-- A name that begins with two dashes. -/
  | customProperty
  | atKeyword
  | hash
  | string
  /-- A string cut off by the end of its line. -/
  | badString
  | url
  /-- A `url(` that is not closed as one. -/
  | badUrl
  | unicodeRange
  | number
  | percentage
  | dimension
  | whitespace
  | comment
  /-- `<!--` -/
  | commentOpen
  /-- `-->` -/
  | commentClose
  /-- `~=` -/
  | includeMatch
  /-- `|=` -/
  | dashMatch
  /-- `^=` -/
  | headMatch
  /-- `$=` -/
  | tailMatch
  /-- `*=` -/
  | substringMatch
  /-- `||` -/
  | column
  | colon
  | semicolon
  | comma
  | openParen
  | closeParen
  | openBracket
  | closeBracket
  | openBrace
  | closeBrace
  /-- Any other single byte. -/
  | delim
deriving DecidableEq, Repr, Inhabited

/-- A piece of a source. -/
structure Token where
  kind : TokenKind
  text : Text
  offset : Nat
deriving DecidableEq, Repr, Inhabited

namespace Token

def isSpace (t : Token) : Bool := t.kind == .whitespace

/-- Without the white space at both ends. -/
def trim (ts : List Token) : List Token :=
  ((ts.dropWhile isSpace).reverse.dropWhile isSpace).reverse

/-- Whether there is white space only. -/
def blank (ts : List Token) : Bool := ts.all isSpace

/-- The text of the tokens, where each run of white space is one space and
    there is none at the ends. -/
def raw (ts : List Token) : Text :=
  (trim ts).flatMap fun t => if t.isSpace then [ascii ' '] else t.text

/-- How the nesting of parentheses and brackets changes at a token. -/
def nesting (t : Token) : Int :=
  match t.kind with
  | .function | .openParen | .openBracket => 1
  | .closeParen | .closeBracket => -1
  | _ => 0

/-- How the nesting of parentheses alone changes at a token. -/
def parenNesting (t : Token) : Int :=
  match t.kind with
  | .function | .openParen => 1
  | .closeParen => -1
  | _ => 0

/-- The name in front of the opening parenthesis of a function. -/
def functionName (t : Token) : Text := t.text.dropTail [ascii '(']

end Token

end MixinCss
