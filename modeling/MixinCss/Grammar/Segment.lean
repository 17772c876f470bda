/-
  MixinCss.Grammar.Segment

  A token list cut at semicolons and braces. Each piece carries the tokens in
  front of the mark that ends it and how many parentheses and brackets are
  still open there; one that closes too many ends the list.
-/

import MixinCss.Token.Lexer

namespace MixinCss

/-- A piece of a token list. -/
inductive Segment where
  /-- Tokens up to a semicolon or a brace, and the nesting at that mark. -/
  | ended (body : List Token) (depth : Nat) (mark : Token)
  /-- Tokens up to the end of the source. -/
  | rest (body : List Token) (depth : Nat)
  /-- A closing parenthesis or bracket that nothing opens. -/
  | stray (closing : Token)
deriving Repr

namespace Segment

/-- Whether a token ends a statement or a selector. -/
def isMark (t : Token) : Bool :=
  t.kind == .semicolon || t.kind == .openBrace || t.kind == .closeBrace

/-- Cuts a token list whose first segment has begun with the tokens `begun`, the
    latest in front, of nesting `depth`. -/
def cutFrom (begun : List Token) (depth : Nat) : List Token → List Segment
  | [] => [.rest begun.reverse depth]
  | t :: ts =>
    if isMark t then .ended begun.reverse depth t :: cutFrom [] 0 ts
    else if t.nesting = 1 then cutFrom (t :: begun) (depth + 1) ts
    else if t.nesting = -1 then
      if depth = 0 then [.stray t] else cutFrom (t :: begun) (depth - 1) ts
    else cutFrom (t :: begun) depth ts

/-- The segments of a token list. -/
def cut (ts : List Token) : List Segment := cutFrom [] 0 ts

end Segment

end MixinCss
