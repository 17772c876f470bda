/-
  MixinCss.Proofs.Grammar.Walk

  A reader of style sheets that walks over the tokens by index. A statement is
  read up to its mark, a rule reads the statements in its block, and tokens,
  lines and texts are looked at by index and cut by slice. What can go wrong on
  such a walk is an answer of its own, told from the faults of the source: an
  index out of range, a statement that passes no token, a closing brace that its
  rule does not take next, a loop that does not end. That none of this happens
  is shown in `MixinCss.Proofs.Grammar.InRange`.
-/

import MixinCss.Grammar.Parse

namespace MixinCss.Grammar.Walk

/-! ## Checked access -/

/-- Why a walk ends without a result. -/
inductive Stop where
  /-- The source is refused. -/
  | refused (report : Report)
  /-- An index or a slice that the list does not have. -/
  | outOfRange
  /-- A statement that passes no token. -/
  | stalled
  /-- A closing brace that is left by a statement and not taken next by the rule
      around it. -/
  | braceLeft
  /-- A statement outside of all rules that is not refused. -/
  | misplaced
  /-- A loop of more rounds than there are tokens. -/
  | endless

variable {α : Type}

/-- What the parser answers, as the answer of a walk. -/
def lift : Except Report α → Except Stop α
  | .ok a => .ok a
  | .error report => .error (.refused report)

def refuse (offset : Nat) (fault : SyntaxFault) : Except Stop α :=
  .error (.refused (offset, fault))

/-- The element at an index. -/
def item (xs : List α) (i : Nat) : Except Stop α :=
  match xs[i]? with
  | some x => .ok x
  | none => .error .outOfRange

/-- The element in front of an index. -/
def itemBefore (xs : List α) : Nat → Except Stop α
  | 0 => .error .outOfRange
  | i + 1 => item xs i

/-- The elements from `i` up to `j`. -/
def slice (xs : List α) (i j : Nat) : Except Stop (List α) :=
  if i ≤ j ∧ j ≤ xs.length then .ok ((xs.take j).drop i) else .error .outOfRange

/-- The place of an offset. Its line is the one in front of the first that begins
    behind it. -/
def place (src : Source) (offset : Nat) : Except Stop Pos := do
  let line := src.starts.findIdx (offset < ·) - 1
  let start ← item src.starts line
  let lead ← slice src.text start offset
  return ⟨offset, line + 1, Text.runeCount lead + 1⟩

/-! ## Arguments -/

/-- The key and the value of a keyword argument. -/
def keyword (group : List Token) : Except Stop (Option (Text × List Token)) := do
  let first ← item group 0
  if first.kind = .ident then
    let behind ← slice group 1 group.length
    let rest := Token.trim behind
    if rest.isEmpty then return none
    else
      let colon ← item rest 0
      if colon.kind = .colon then
        let value ← slice rest 1 rest.length
        return some (first.text, Token.trim value)
      else return none
  else return none

/-- Tokens without white space outside of parentheses and brackets. -/
def part (ts : List Token) : Except Stop Value :=
  match reference? ts with
  | some v => .ok v
  | none =>
    if 1 < ts.length then .ok (.word (Token.raw ts))
    else do
      let t ← item ts 0
      return scalar t

/-- The value of an argument. -/
def value (ts : List Token) : Except Stop Value := do
  let parts ← ((splitTop .whitespace ts).filter fun g => !g.isEmpty).mapM part
  return .ofParts parts

/-- Adds one argument of the call `name`, whose token stands at `offset`. -/
def argument (name : Text) (offset : Nat) (args : List Value × List Keyword)
    (group : List Token) : Except Stop (List Value × List Keyword) :=
  let group := Token.trim group
  if group.isEmpty then refuse offset (.emptyArgument name)
  else do
    match ← keyword group with
    | none =>
      let v ← value group
      return (args.1 ++ [v], args.2)
    | some (key, ts) =>
      if ts.isEmpty then
        let first ← item group 0
        refuse first.offset (.missingKeywordValue key)
      else if (Args.find? args.2 key).isSome then
        let first ← item group 0
        refuse first.offset (.duplicateKeyword key)
      else
        let v ← value ts
        return (args.1, args.2 ++ [⟨key, v⟩])

/-- The arguments between the parentheses of the call `name`. -/
def arguments (name : Text) (offset : Nat) (inside : List Token) : Except Stop Args :=
  let groups := splitTop .comma inside
  if groups.length = 1 ∧ Token.blank inside then .ok .none
  else do
    let (values, pairs) ← groups.foldlM (argument name offset) ([], [])
    match values, pairs with
    | _ :: _, _ :: _ => refuse offset (.mixedArguments name)
    | values, [] => return .positional values
    | [], pairs => return .keywords pairs

/-! ## Statements -/

/-- The index at which the count of parentheses, now `depth`, returns to zero, if
    the tokens begin at index `i`. -/
def closingFrom (depth : Int) (i : Nat) : List Token → Option Nat
  | [] => none
  | t :: ts =>
    if t.kind = .closeParen ∧ depth + t.parenNesting = 0 then some i
    else closingFrom (depth + t.parenNesting) (i + 1) ts

/-- `name(args)` -/
def call (src : Source) (body : List Token) : Except Stop Node := do
  let head ← item body 0
  let name := head.functionName
  match closingFrom 0 0 body with
  | none => refuse head.offset (.unterminatedCall name)
  | some closing =>
    let behind ← slice body (closing + 1) body.length
    let after := Token.trim behind
    if after.isEmpty then
      let inside ← slice body 1 closing
      let args ← arguments name head.offset inside
      let pos ← place src head.offset
      return .call name (some args) pos
    else
      let t ← item after 0
      refuse t.offset (.afterCall t.text name)

/-- `property: value` -/
def declaration (src : Source) (body : List Token) : Except Stop Node := do
  let head ← item body 0
  let behind ← slice body 1 body.length
  let rest := Token.trim behind
  if rest.isEmpty then refuse head.offset (.missingColon head.text)
  else
    let colon ← item rest 0
    if colon.kind = .colon then
      let behind ← slice rest 1 rest.length
      let value := Token.trim behind
      if value.isEmpty then refuse head.offset (.missingValue head.text)
      else
        let pos ← place src head.offset
        return .declaration head.text (valueOfDeclaration value) pos
    else refuse head.offset (.missingColon head.text)

/-- A declaration or a call; nothing if there is white space only. -/
def inline (src : Source) (top terminated : Bool) (body : List Token) :
    Except Stop (Option Node) :=
  let body := Token.trim body
  if body.isEmpty then .ok none
  else do
    let first ← item body 0
    if top then refuse first.offset (.outsideBlock (Token.raw body))
    else
      match first.kind with
      | .function =>
        if terminated then (call src body).map some
        else refuse first.offset (.unfinishedCall first.functionName)
      | .ident | .customProperty => (declaration src body).map some
      | _ => refuse first.offset (.invalidToken first.text)

/-- The fault of a statement in which something is left open. -/
def unterminated (body : List Token) : Except Stop α := do
  let body := Token.trim body
  let first ← item body 0
  if first.kind = .function then refuse first.offset (.unterminatedCall first.functionName)
  else refuse first.offset (.unbalanced (Token.raw body))

/-! ## The walk -/

/-- The first index from `i` on that has no white space. -/
def skipSpace (ts : List Token) (i : Nat) : Except Stop Nat :=
  if _h : i < ts.length then do
    let t ← item ts i
    if t.kind = .whitespace then skipSpace ts (i + 1) else return i
  else .ok i
termination_by ts.length - i

/-- The index of the first mark from `i` on, or the end, and what is open there. -/
def scan (ts : List Token) (i depth : Nat) : Except Stop (Nat × Nat) :=
  if _h : i < ts.length then do
    let t ← item ts i
    if t.nesting = 1 then scan ts (i + 1) (depth + 1)
    else if t.nesting = -1 then
      if depth = 0 then refuse t.offset (.unexpected t.text) else scan ts (i + 1) (depth - 1)
    else if Segment.isMark t then return (i, depth)
    else scan ts (i + 1) depth
  else .ok (i, depth)
termination_by ts.length - i

/-- What was read, the index behind it, and whether a closing brace stands there
    that ended it. -/
structure Step where
  node : Option Node
  next : Nat
  brace : Bool

/-- How the block of a rule is read from an index on, with its selector and the
    offset of it. -/
abbrev BlockReader := Text → Nat → Nat → Except Stop (List Node × Nat)

/-- `selector { … }`, where `i` is the index behind the opening brace. -/
def rule (src : Source) (ts : List Token) (block : BlockReader) (top : Bool)
    (body : List Token) (i : Nat) : Except Stop Step := do
  let body := Token.trim body
  if body.isEmpty then
    -- The brace has been passed already.
    let opening ← itemBefore ts i
    refuse opening.offset .missingSelector
  else
    let first ← item body 0
    let selector := Token.raw body
    if top ∧ selector.contains (ascii '&') then refuse first.offset (.noParent selector)
    else
      let pos ← place src first.offset
      let (children, next) ← block selector first.offset i
      return ⟨some (.rule selector children pos), next, false⟩

/-- The statement with the tokens `body`, which ends at the index `stop`: in front
    of a mark, or at the end of the source. At the `top` no rule is around it. -/
def statementUpTo (src : Source) (ts : List Token) (block : BlockReader) (top : Bool)
    (body : List Token) (stop : Nat) : Except Stop Step := do
  if stop < ts.length then
    let mark ← item ts stop
    match mark.kind with
    | .openBrace => rule src ts block top body (stop + 1)
    | .semicolon =>
      let node ← inline src top true body
      return ⟨node, stop + 1, false⟩
    | _ =>
      if top then refuse mark.offset (.unexpected mark.text)
      else
        -- The brace ends the statement but is left for the rule around it.
        let node ← inline src top false body
        return ⟨node, stop, true⟩
  else if top then
    -- Space has been skipped before, so there is a first token.
    let first ← item (Token.trim body) 0
    refuse first.offset (.unexpectedEnd (Token.raw body))
  else
    let node ← inline src top false body
    return ⟨node, stop, false⟩

/-- One statement from the index `i` on. -/
def statement (src : Source) (ts : List Token) (block : BlockReader) (top : Bool) (i : Nat) :
    Except Stop Step := do
  let (stop, depth) ← scan ts i 0
  let body ← slice ts i stop
  if depth ≠ 0 then unterminated body
  else statementUpTo src ts block top body stop

/-- The children of a rule from the index `i` on, and the index behind its closing
    brace. If a statement has left the `brace`, it must stand at `i`. -/
def children (src : Source) (ts : List Token) :
    Nat → Text → Nat → Bool → Nat → Except Stop (List Node × Nat)
  | 0, _, _, _, _ => .error .endless
  | fuel + 1, selector, offset, brace, i => do
    let j ← skipSpace ts i
    if j < ts.length then
      let t ← item ts j
      if t.kind = .closeBrace then
        if brace ∧ i ≠ j then .error .braceLeft else return ([], j + 1)
      else if brace then .error .braceLeft
      else
        let block : BlockReader := fun selector offset i =>
          children src ts fuel selector offset false i
        let step ← statement src ts block false j
        -- A round that passes no token would come again without end.
        if step.next ≤ j then .error .stalled
        else
          let (rest, next) ← children src ts fuel selector offset step.brace step.next
          return (step.node.toList ++ rest, next)
    else if brace then .error .braceLeft
    else refuse offset (.unterminatedBlock selector)

/-- The rules from the index `i` on. -/
def document (src : Source) (ts : List Token) : Nat → Nat → Except Stop Sheet
  | 0, _ => .error .endless
  | fuel + 1, i => do
    let j ← skipSpace ts i
    if j < ts.length then
      let block : BlockReader := fun selector offset i =>
        children src ts fuel selector offset false i
      let step ← statement src ts block true j
      if step.next ≤ j then .error .stalled
      else if step.brace then .error .braceLeft
      else
        -- Declarations and calls are refused at the top before they are read.
        match step.node with
        | none => document src ts fuel step.next
        | some (.rule selector children pos) =>
          let rest ← document src ts fuel step.next
          return ⟨selector, children, pos⟩ :: rest
        | some _ => .error .misplaced
    else return []

/-- The sheet that a source spells. The loops have one round for each token, and
    one to find the end. -/
def read (source : Text) : Except Stop Sheet := do
  let ts ← lift (tokens source)
  document (Source.ofText source) ts (ts.length + 1) 0

end MixinCss.Grammar.Walk
