/-
  MixinCss.Grammar.Argument

  Values read off tokens: the value of a declaration and the arguments of a
  mixin call.
-/

import MixinCss.Decimal.Reader
import MixinCss.Grammar.Fault
import MixinCss.Value.Args

namespace MixinCss.Grammar

/-- Splits tokens at the kind `sep` outside of parentheses and brackets, where
    `depth` are open already. -/
def splitFrom (sep : TokenKind) (depth : Int) : List Token → List (List Token)
  | [] => [[]]
  | t :: ts =>
    if t.kind = sep ∧ depth = 0 then [] :: splitFrom sep depth ts
    else
      match splitFrom sep (depth + t.nesting) ts with
      | [] => [[t]]
      | group :: groups => (t :: group) :: groups

/-- Splits tokens at the kind `sep` outside of parentheses and brackets. -/
def splitTop (sep : TokenKind) (ts : List Token) : List (List Token) := splitFrom sep 0 ts

/-- `$name` and `@name` refer to variables. -/
def reference? : List Token → Option Value
  | [t] => if t.kind = .atKeyword then some (.variable t.text) else none
  | [dollar, t] =>
    if dollar.kind = .delim ∧ dollar.text = [ascii '$'] ∧ t.kind = .ident then
      some (.variable (ascii '$' :: t.text))
    else none
  | _ => none

/-- A number token; one that is out of range is none. -/
def number? (t : Token) : Option Value :=
  match Decimal.read t.text with
  | .ok f => some (.number t.text f)
  | .error _ => none

/-- The sign, digits and points at the beginning of a text. -/
def numeralHead : Text → Text
  | [] => []
  | b :: rest =>
    if Lexer.isSign b then b :: rest.takeWhile isNumeral
    else (b :: rest).takeWhile isNumeral
where
  isNumeral (b : UInt8) : Bool := Byte.isDigit b || b == ascii '.'

/-- A dimension or percentage token cut into its number and its unit. -/
def dimension? (t : Token) : Option Value :=
  let head := numeralHead t.text
  match Decimal.read head with
  | .ok f => some (.dimension t.text f (t.text.drop head.length))
  | .error _ => none

/-- A single token as a value. -/
def scalar (t : Token) : Value :=
  match t.kind with
  | .number => (number? t).getD (.word t.text)
  | .dimension | .percentage => (dimension? t).getD (.word t.text)
  | .string => .string t.text
  | _ => .word t.text

/-- Tokens without white space outside of parentheses and brackets. -/
def atom (ts : List Token) : Value :=
  match reference? ts with
  | some v => v
  | none =>
    match ts with
    | [t] => scalar t
    | _ => .word (Token.raw ts)

/-- The value of an argument: its parts separated by white space. -/
def valueOfArgument (ts : List Token) : Value :=
  .ofParts (((splitTop .whitespace ts).filter fun g => !g.isEmpty).map atom)

/-- The value of a declaration keeps its text; only a number and a variable by
    themselves are told apart. -/
def valueOfDeclaration (ts : List Token) : Value :=
  let plain := (reference? ts).getD (.word (Token.raw ts))
  match ts with
  | [t] => if t.kind = .number then (number? t).getD plain else plain
  | _ => plain

/-- The key and the value tokens of `key: value`. -/
def keyword? : List Token → Option (Text × List Token)
  | [] => none
  | t :: ts =>
    if t.kind = .ident then
      match Token.trim ts with
      | colon :: value =>
        if colon.kind = .colon then some (t.text, Token.trim value) else none
      | [] => none
    else none

/-- A fault and the offset at which it is reported. -/
abbrev Report := Nat × SyntaxFault

/-- Adds one argument of the call `name`, whose token stands at `offset`. -/
def addArgument (name : Text) (offset : Nat) (args : List Value × List Keyword)
    (group : List Token) : Except Report (List Value × List Keyword) :=
  match Token.trim group with
  | [] => .error (offset, .emptyArgument name)
  | t :: ts =>
    match keyword? (t :: ts) with
    | some (key, value) =>
      if value.isEmpty then .error (t.offset, .missingKeywordValue key)
      else if (Args.find? args.2 key).isSome then .error (t.offset, .duplicateKeyword key)
      else .ok (args.1, args.2 ++ [⟨key, valueOfArgument value⟩])
    | none => .ok (args.1 ++ [valueOfArgument (t :: ts)], args.2)

/-- The arguments between the parentheses of the call `name`. -/
def arguments (name : Text) (offset : Nat) (inside : List Token) : Except Report Args := do
  let groups := splitTop .comma inside
  if groups.length = 1 ∧ Token.blank inside then return .none
  let (values, pairs) ← groups.foldlM (addArgument name offset) ([], [])
  match values, pairs with
  | _ :: _, _ :: _ => throw (offset, .mixedArguments name)
  | values, [] => return .positional values
  | [], pairs => return .keywords pairs

end MixinCss.Grammar
