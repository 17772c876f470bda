/-
  MixinCss.Grammar.Parse

  From text to a style sheet. The tokens are cut into segments, and the segments
  are taken one after the other: a segment before `{` opens a rule, one before
  `}` ends the innermost open rule, and one before `;` is a declaration or a
  mixin call in it.
-/

import MixinCss.Grammar.Argument
import MixinCss.Grammar.Segment

namespace MixinCss.Grammar

/-! ## Statements -/

/-- The tokens inside and after the parenthesis that is open `depth` deep. -/
def untilClose (depth : Nat) : List Token → Option (List Token × List Token)
  | [] => none
  | t :: ts =>
    if t.parenNesting = 1 then
      (untilClose (depth + 1) ts).map fun (inside, after) => (t :: inside, after)
    else if t.parenNesting = -1 then
      if depth ≤ 1 then some ([], ts)
      else (untilClose (depth - 1) ts).map fun (inside, after) => (t :: inside, after)
    else (untilClose depth ts).map fun (inside, after) => (t :: inside, after)

/-- `name(args)`, where `head` is the function token. -/
def call (src : Source) (head : Token) (ts : List Token) : Except Report Node := do
  let name := head.functionName
  let some (inside, after) := untilClose 1 ts | throw (head.offset, .unterminatedCall name)
  if let t :: _ := Token.trim after then throw (t.offset, .afterCall t.text name)
  let args ← arguments name head.offset inside
  return .call name (some args) (src.pos head.offset)

/-- `property: value`, where `head` is the property. -/
def declaration (src : Source) (head : Token) (ts : List Token) : Except Report Node :=
  match Token.trim ts with
  | colon :: rest =>
    if colon.kind = .colon then
      let value := Token.trim rest
      if value.isEmpty then .error (head.offset, .missingValue head.text)
      else .ok (.declaration head.text (valueOfDeclaration value) (src.pos head.offset))
    else .error (head.offset, .missingColon head.text)
  | [] => .error (head.offset, .missingColon head.text)

/-- A declaration or a call; nothing if there is white space only. A call has to
    be `terminated` by a semicolon. -/
def statement (src : Source) (terminated : Bool) (body : List Token) :
    Except Report (Option Node) :=
  match Token.trim body with
  | [] => .ok none
  | head :: ts =>
    match head.kind with
    | .function =>
      if terminated then (call src head ts).map some
      else .error (head.offset, .unfinishedCall head.functionName)
    | .ident | .customProperty => (declaration src head ts).map some
    | _ => .error (head.offset, .invalidToken head.text)

/-! ## Rules -/

/-- A rule that is not closed yet. -/
structure Frame where
  selector : Text
  /-- The offset of the selector. -/
  offset : Nat
  children : List Node

/-- The open rules, the innermost first, and the rules finished at the top. -/
structure Progress where
  stack : List Frame
  rules : List Rule

/-- The fault of a segment in which something is left open. -/
def leftOpen (body : List Token) : Report :=
  match Token.trim body with
  | t :: ts =>
    if t.kind = .function then (t.offset, .unterminatedCall t.functionName)
    else (t.offset, .unbalanced (Token.raw (t :: ts)))
  | [] => (0, .unbalanced [])

/-- Opens a rule at the brace `mark`. -/
def openRule (p : Progress) (body : List Token) (mark : Token) : Except Report Progress :=
  match Token.trim body with
  | [] => .error (mark.offset, .missingSelector)
  | t :: ts =>
    let selector := Token.raw (t :: ts)
    if p.stack.isEmpty ∧ selector.contains (ascii '&') then
      .error (t.offset, .noParent selector)
    else .ok { p with stack := ⟨selector, t.offset, []⟩ :: p.stack }

/-- Adds a statement to the innermost open rule. -/
def addStatement (src : Source) (terminated : Bool) (p : Progress) (body : List Token) :
    Except Report Progress :=
  match p.stack with
  | [] =>
    match Token.trim body with
    | [] => .ok p
    | t :: ts => .error (t.offset, .outsideBlock (Token.raw (t :: ts)))
  | frame :: stack => do
    let node ← statement src terminated body
    return { p with stack := { frame with children := frame.children ++ node.toList } :: stack }

/-- Closes the innermost open rule at the brace `mark`. -/
def closeRule (src : Source) (p : Progress) (mark : Token) : Except Report Progress :=
  match p.stack with
  | [] => .error (mark.offset, .unexpected mark.text)
  | [frame] =>
    .ok ⟨[], p.rules ++ [⟨frame.selector, frame.children, src.pos frame.offset⟩]⟩
  | frame :: outer :: stack =>
    let rule := Node.rule frame.selector frame.children (src.pos frame.offset)
    .ok { p with stack := { outer with children := outer.children ++ [rule] } :: stack }

/-- The source may end only outside of all rules. -/
def finish (src : Source) (p : Progress) (body : List Token) : Except Report Progress :=
  match p.stack, Token.trim body with
  | [], [] => .ok p
  | [], t :: ts => .error (t.offset, .unexpectedEnd (Token.raw (t :: ts)))
  | frame :: _, _ => do
    let _ ← addStatement src false p body
    throw (frame.offset, .unterminatedBlock frame.selector)

/-- Takes one segment. -/
def take (src : Source) (p : Progress) (segment : Segment) : Except Report Progress :=
  match segment with
  | .stray closing => .error (closing.offset, .unexpected closing.text)
  | .rest body depth => if depth ≠ 0 then .error (leftOpen body) else finish src p body
  | .ended body depth mark =>
    if depth ≠ 0 then .error (leftOpen body)
    else
      match mark.kind with
      | .openBrace => openRule p body mark
      | .semicolon => addStatement src true p body
      | _ => do
        if p.stack.isEmpty then throw (mark.offset, .unexpected mark.text)
        let p ← addStatement src false p body
        closeRule src p mark

/-- The rules that a token list spells. -/
def sheet (src : Source) (ts : List Token) : Except Report Sheet := do
  let p ← (Segment.cut ts).foldlM (take src) ⟨[], []⟩
  return p.rules

/-! ## Documents -/

/-- The tokens of a source without comments, if none of them is bad. -/
def tokens (source : Text) : Except Report (List Token) :=
  let lexemes := Lexer.lex 0 source
  let bad := lexemes.findSome? fun t =>
    match t.kind with
    | .badString => some (t.offset, SyntaxFault.unterminatedString t.text)
    | .badUrl => some (t.offset, SyntaxFault.invalidUrl t.text)
    | _ => none
  match bad with
  | some report => .error report
  | none => .ok (lexemes.filter fun t => t.kind != .comment)

/-- The sheet that a source spells, or the first fault in it. -/
def read (source : Text) : Except Report Sheet := do
  sheet (Source.ofText source) (← tokens source)

end MixinCss.Grammar

namespace MixinCss

/-- Parses a whole document. -/
def parse (source : Text) : Except SyntaxError Sheet :=
  match Grammar.read source with
  | .ok sheet => .ok sheet
  | .error (offset, fault) => .error (.locate source offset fault)

end MixinCss
