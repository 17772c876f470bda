/-
  MixinCss.Proofs.Grammar.Derivation

  The grammar of style sheets. Each form is a relation between a token list and
  the part of the tree that the list spells:

    sheet       = (space | ";" | rule)*
    rule        = segment "{" (space | ";" | rule | declaration ";" | call ";")*
                  [declaration] "}"
    declaration = (name | custom property) space* ":" value
    call        = function arguments ")" space*
    arguments   = blank, or groups between commas

  A segment is a run of tokens without semicolons and braces whose parentheses
  and brackets are closed. The relations say nothing about the order in which a
  reader finds the parts out; that the parser accepts exactly what is derived
  here is shown in `MixinCss.Proofs.Grammar.Document`.
-/

import Mathlib.Data.List.Forall2
import MixinCss.Grammar.Parse

namespace MixinCss.Grammar

/-! ## Segments -/

/-- How many parentheses and brackets are open after tokens. -/
def level : List Token → Int
  | [] => 0
  | t :: ts => t.nesting + level ts

/-- How many parentheses are open after tokens. -/
def parenLevel : List Token → Int
  | [] => 0
  | t :: ts => t.parenNesting + parenLevel ts

/-- A run of tokens that can stand in front of a semicolon or a brace. -/
structure IsSegment (ts : List Token) : Prop where
  unmarked : ∀ t ∈ ts, Segment.isMark t = false
  neverBelow : ∀ front, front <+: ts → 0 ≤ level front
  closed : level ts = 0

/-- `first` is the first token of a list that is not white space. -/
def BeginsWith (ts : List Token) (first : Token) : Prop :=
  ∃ lead rest, Token.blank lead ∧ first.kind ≠ .whitespace ∧ ts = lead ++ first :: rest

/-! ## Arguments -/

/-- No comma stands where everything is closed. -/
def NoTopComma (group : List Token) : Prop :=
  ∀ front comma back, group = front ++ comma :: back → comma.kind = .comma → level front ≠ 0

/-- The groups between the commas that stand where everything is closed. -/
inductive Groups : List Token → List (List Token) → Prop where
  | last {group : List Token} (hgroup : NoTopComma group) : Groups group [group]
  | more {group rest : List Token} {comma : Token} {groups : List (List Token)}
      (hgroup : NoTopComma group) (hclosed : level group = 0) (hcomma : comma.kind = .comma)
      (hrest : Groups rest groups) : Groups (group ++ comma :: rest) (group :: groups)

/-- `key: …`, where white space may stand in front of the key and the colon. -/
inductive Keyed : List Token → Text → List Token → Prop where
  | intro {lead gap value : List Token} {head colon : Token} (hlead : Token.blank lead)
      (hhead : head.kind = .ident) (hgap : Token.blank gap) (hcolon : colon.kind = .colon) :
      Keyed (lead ++ head :: (gap ++ colon :: value)) head.text value

/-- `key: value` as a keyword argument. -/
def KeywordOf (group : List Token) (k : Keyword) : Prop :=
  ∃ value, Keyed group k.key value ∧ ¬ Token.blank value ∧
    k.value = valueOfArgument (Token.trim value)

/-- An argument by position: neither blank nor keyed. -/
def PlainGroup (group : List Token) : Prop :=
  ¬ Token.blank group ∧ ∀ key value, ¬ Keyed group key value

/-- The arguments between the parentheses of a call. -/
inductive Arguments (inside : List Token) : Args → Prop where
  | none (hblank : Token.blank inside) : Arguments inside .none
  | keywords {groups : List (List Token)} {pairs : List Keyword} (hgroups : Groups inside groups)
      (hpairs : List.Forall₂ KeywordOf groups pairs) (hkeys : (pairs.map Keyword.key).Nodup) :
      Arguments inside (.keywords pairs)
  | positional {groups : List (List Token)} (hgroups : Groups inside groups)
      (hplain : ∀ group ∈ groups, PlainGroup group) :
      Arguments inside
        (.positional (groups.map fun group => valueOfArgument (Token.trim group)))

/-! ## Statements -/

/-- `property: value` -/
inductive Declares (src : Source) : List Token → Node → Prop where
  | intro {head colon : Token} {gap value : List Token}
      (hhead : head.kind = .ident ∨ head.kind = .customProperty) (hgap : Token.blank gap)
      (hcolon : colon.kind = .colon) (hvalue : ¬ Token.blank value) :
      Declares src (head :: (gap ++ colon :: value))
        (.declaration head.text (valueOfDeclaration (Token.trim value)) (src.pos head.offset))

/-- `name(arguments)`. The call is closed where the count of parentheses first
    returns to zero, and only white space may follow. -/
inductive Calls (src : Source) : List Token → Node → Prop where
  | intro {head closing : Token} {inside after : List Token} {args : Args}
      (hhead : head.kind = .function) (hclosing : closing.kind = .closeParen)
      (hclosed : parenLevel (head :: (inside ++ [closing])) = 0)
      (hfirst : ∀ front, front <+: inside → parenLevel (head :: front) ≠ 0)
      (hafter : Token.blank after) (hargs : Arguments inside args) :
      Calls src (head :: (inside ++ closing :: after))
        (.call head.functionName (some args) (src.pos head.offset))

/-- What may stand in front of the brace that closes a rule: nothing, or a
    declaration that needs no semicolon. -/
inductive Final (src : Source) : List Token → List Node → Prop where
  | nothing : Final src [] []
  | declaration {segment : List Token} {n : Node} (hsegment : IsSegment segment)
      (hn : Declares src segment n) : Final src segment [n]

/-! ## Rules and sheets -/

mutual

/-- What stands between the braces of a rule. -/
inductive Items (src : Source) : List Token → List Node → Prop where
  | done : Items src [] []
  | space {t : Token} {ts : List Token} {nodes : List Node} (ht : t.kind = .whitespace)
      (hrest : Items src ts nodes) : Items src (t :: ts) nodes
  | semicolon {t : Token} {ts : List Token} {nodes : List Node} (ht : t.kind = .semicolon)
      (hrest : Items src ts nodes) : Items src (t :: ts) nodes
  | rule {front ts : List Token} {r : Rule} {nodes : List Node} (hrule : Block src front r)
      (hrest : Items src ts nodes) : Items src (front ++ ts) (r.node :: nodes)
  | statement {segment ts : List Token} {mark : Token} {n : Node} {nodes : List Node}
      (hsegment : IsSegment segment) (hn : Declares src segment n ∨ Calls src segment n)
      (hmark : mark.kind = .semicolon) (hrest : Items src ts nodes) :
      Items src (segment ++ mark :: ts) (n :: nodes)

/-- A rule. Its place is that of the first token of its selector. -/
inductive Block (src : Source) : List Token → Rule → Prop where
  | intro {selector body last : List Token} {first opening closing : Token}
      {nodes final : List Node} (hsegment : IsSegment selector)
      (hfirst : BeginsWith selector first) (hopening : opening.kind = .openBrace)
      (hbody : Items src body nodes) (hlast : Final src last final)
      (hclosing : closing.kind = .closeBrace) :
      Block src (selector ++ opening :: (body ++ (last ++ [closing])))
        ⟨Token.raw selector, nodes ++ final, src.pos first.offset⟩

end

/-- A whole sheet. The selector of a rule at the top has no parent to refer to. -/
inductive Document (src : Source) : List Token → Sheet → Prop where
  | done : Document src [] []
  | space {t : Token} {ts : List Token} {rules : Sheet} (ht : t.kind = .whitespace)
      (hrest : Document src ts rules) : Document src (t :: ts) rules
  | semicolon {t : Token} {ts : List Token} {rules : Sheet} (ht : t.kind = .semicolon)
      (hrest : Document src ts rules) : Document src (t :: ts) rules
  | rule {front ts : List Token} {r : Rule} {rules : Sheet} (hrule : Block src front r)
      (hparent : ascii '&' ∉ r.selector) (hrest : Document src ts rules) :
      Document src (front ++ ts) (r :: rules)

/-! ## Parts put together -/

@[simp] theorem level_nil : level [] = 0 := rfl

@[simp] theorem level_cons (t : Token) (ts : List Token) :
    level (t :: ts) = t.nesting + level ts := rfl

@[simp] theorem level_append (front back : List Token) :
    level (front ++ back) = level front + level back := by
  induction front with
  | nil => simp
  | cons t ts ih => rw [List.cons_append, level_cons, level_cons, ih, Int.add_assoc]

@[simp] theorem parenLevel_nil : parenLevel [] = 0 := rfl

@[simp] theorem parenLevel_cons (t : Token) (ts : List Token) :
    parenLevel (t :: ts) = t.parenNesting + parenLevel ts := rfl

@[simp] theorem parenLevel_append (front back : List Token) :
    parenLevel (front ++ back) = parenLevel front + parenLevel back := by
  induction front with
  | nil => simp
  | cons t ts ih => rw [List.cons_append, parenLevel_cons, parenLevel_cons, ih, Int.add_assoc]

/-- It is enough to look at the levels behind each token. -/
theorem isSegment_iff {ts : List Token} :
    IsSegment ts ↔ (∀ t ∈ ts, Segment.isMark t = false) ∧
      (∀ i < ts.length + 1, 0 ≤ level (ts.take i)) ∧ level ts = 0 := by
  constructor
  · intro h
    exact ⟨h.unmarked, fun i _ => h.neverBelow _ (List.take_prefix i ts), h.closed⟩
  · rintro ⟨hunmarked, hlevels, hclosed⟩
    refine ⟨hunmarked, fun front hfront => ?_, hclosed⟩
    rw [List.prefix_iff_eq_take.mp hfront]
    exact hlevels _ (Nat.lt_succ_of_le hfront.length_le)

instance (ts : List Token) : Decidable (IsSegment ts) := decidable_of_iff _ isSegment_iff.symm

theorem Items.append {src : Source} {front back : List Token} {xs ys : List Node} :
    Items src front xs → Items src back ys → Items src (front ++ back) (xs ++ ys)
  | .done, hback => hback
  | .space ht hrest, hback => .space ht (hrest.append hback)
  | .semicolon ht hrest, hback => .semicolon ht (hrest.append hback)
  | .rule hrule hrest, hback => by
    rw [List.append_assoc]
    exact .rule hrule (hrest.append hback)
  | .statement hsegment hn hmark hrest, hback => by
    rw [List.append_assoc]
    exact .statement hsegment hn hmark (hrest.append hback)

theorem Document.append {src : Source} {front back : List Token} {xs ys : Sheet}
    (hfront : Document src front xs) (hback : Document src back ys) :
    Document src (front ++ back) (xs ++ ys) := by
  induction hfront with
  | done => exact hback
  | space ht _ ih => exact .space ht ih
  | semicolon ht _ ih => exact .semicolon ht ih
  | rule hrule hparent _ ih =>
    rw [List.append_assoc]
    exact .rule hrule hparent ih

end MixinCss.Grammar
