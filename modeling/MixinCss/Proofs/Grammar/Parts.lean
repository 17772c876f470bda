/-
  MixinCss.Proofs.Grammar.Parts

  Which tokens spell a node. A statement is spelled by a segment and the mark
  behind it, a rule by its selector and the opening brace; what the rule holds
  is spelled further on. Every node of a sheet, at any depth, has such a part
  of the tokens (`Document.reads`), and its place is that of the first token
  there which is not white space.
-/

import MixinCss.Proofs.Grammar.Offsets

namespace MixinCss

namespace Grammar

/-- The tokens that a node is read from, with the mark that ends them. -/
inductive Reads (src : Source) : List Token → Node → Prop where
  | rule {selector : List Token} {first opening : Token} (children : List Node)
      (hsegment : IsSegment selector) (hfirst : BeginsWith selector first)
      (hopening : opening.kind = .openBrace) :
      Reads src (selector ++ [opening])
        (.rule (Token.raw selector) children (src.pos first.offset))
  | statement {segment : List Token} {mark : Token} {n : Node} (hsegment : IsSegment segment)
      (hn : Declares src segment n ∨ Calls src segment n) (hmark : Segment.isMark mark = true) :
      Reads src (segment ++ [mark]) n

variable {src : Source} {ts : List Token}

theorem Declares.members_eq {n : Node} (h : Declares src ts n) : n.members = [n] := by
  cases h with
  | intro => rfl

theorem Calls.members_eq {n : Node} (h : Calls src ts n) : n.members = [n] := by
  cases h with
  | intro => rfl

theorem Final.reads {nodes : List Node} (h : Final src ts nodes) {mark : Token}
    (hmark : Segment.isMark mark = true) :
    ∀ n ∈ Node.membersAll nodes, Reads src (ts ++ [mark]) n := by
  cases h with
  | nothing => exact fun _ hn => absurd hn List.not_mem_nil
  | declaration hsegment hn =>
    rw [Node.membersAll_singleton, hn.members_eq, List.forall_mem_singleton]
    exact .statement hsegment (.inl hn) hmark

mutual

theorem Items.reads {ts : List Token} {nodes : List Node} : Items src ts nodes →
    ∀ n ∈ Node.membersAll nodes, ∃ part, part <:+: ts ∧ Reads src part n
  | .done => fun _ hn => absurd hn List.not_mem_nil
  | .space _ hrest => fun n hn => by
    obtain ⟨part, hpart, hreads⟩ := hrest.reads n hn
    exact ⟨part, hpart.trans (List.suffix_cons _ _).isInfix, hreads⟩
  | .semicolon _ hrest => fun n hn => by
    obtain ⟨part, hpart, hreads⟩ := hrest.reads n hn
    exact ⟨part, hpart.trans (List.suffix_cons _ _).isInfix, hreads⟩
  | .rule hrule hrest => fun n hn => by
    rw [Node.membersAll_cons, List.mem_append] at hn
    rcases hn with hn | hn
    · obtain ⟨part, hpart, hreads⟩ := hrule.reads n hn
      exact ⟨part, hpart.trans (List.prefix_append _ _).isInfix, hreads⟩
    · obtain ⟨part, hpart, hreads⟩ := hrest.reads n hn
      exact ⟨part, hpart.trans (List.suffix_append _ _).isInfix, hreads⟩
  | .statement hsegment hstatement hmark hrest => fun n hn => by
    rw [Node.membersAll_cons, List.mem_append,
      hstatement.elim Declares.members_eq Calls.members_eq, List.mem_singleton] at hn
    rw [List.append_cons]
    rcases hn with rfl | hn
    · have hends := isMark_iff.mpr (.inl hmark)
      refine ⟨_, ?_, .statement hsegment hstatement hends⟩
      exact (List.prefix_append _ _).isInfix
    · obtain ⟨part, hpart, hreads⟩ := hrest.reads n hn
      exact ⟨part, hpart.trans (List.suffix_append _ _).isInfix, hreads⟩

theorem Block.reads {ts : List Token} {r : Rule} : Block src ts r →
    ∀ n ∈ r.node.members, ∃ part, part <:+: ts ∧ Reads src part n
  | .intro hsegment hfirst hopening hbody hlast hclosing => fun n hn => by
    rw [Rule.node, Node.members, List.mem_cons, Node.membersAll_append, List.mem_append] at hn
    rw [List.append_cons]
    rcases hn with rfl | hn | hn
    · exact ⟨_, (List.prefix_append _ _).isInfix, .rule _ hsegment hfirst hopening⟩
    · obtain ⟨part, hpart, hreads⟩ := hbody.reads n hn
      refine ⟨part, hpart.trans ?_, hreads⟩
      exact (List.prefix_append _ _).isInfix.trans (List.suffix_append _ _).isInfix
    · refine ⟨_, ?_, hlast.reads (isMark_iff.mpr (.inr (.inr hclosing))) n hn⟩
      exact (List.suffix_append _ _).isInfix.trans (List.suffix_append _ _).isInfix

end

/-- Every node of a sheet is read from a part of the tokens. -/
theorem Document.reads {sheet : Sheet} (h : Document src ts sheet) :
    ∀ n ∈ Sheet.members sheet, ∃ part, part <:+: ts ∧ Reads src part n := by
  induction h with
  | done => exact fun _ hn => absurd hn List.not_mem_nil
  | space _ _ ih =>
    intro n hn
    obtain ⟨part, hpart, hreads⟩ := ih n hn
    exact ⟨part, hpart.trans (List.suffix_cons _ _).isInfix, hreads⟩
  | semicolon _ _ ih =>
    intro n hn
    obtain ⟨part, hpart, hreads⟩ := ih n hn
    exact ⟨part, hpart.trans (List.suffix_cons _ _).isInfix, hreads⟩
  | rule hrule _ _ ih =>
    intro n hn
    rw [Sheet.members, List.map_cons, Node.membersAll_cons, List.mem_append] at hn
    rcases hn with hn | hn
    · obtain ⟨part, hpart, hreads⟩ := hrule.reads n hn
      exact ⟨part, hpart.trans (List.prefix_append _ _).isInfix, hreads⟩
    · obtain ⟨part, hpart, hreads⟩ := ih n hn
      exact ⟨part, hpart.trans (List.suffix_append _ _).isInfix, hreads⟩

/-- A node stands where its first token does, white space apart. -/
theorem Reads.exists_first {n : Node} {p : Pos} (h : Reads src ts n) (hp : n.pos? = some p) :
    ∃ t ∈ ts, t.kind ≠ .whitespace ∧ p = src.pos t.offset := by
  cases h with
  | @rule selector first opening children hsegment hfirst hopening =>
    obtain ⟨lead, rest, -, hkind, rfl⟩ := hfirst
    exact ⟨first, by simp, hkind, (Option.some.inj hp).symm⟩
  | statement hsegment hn hmark =>
    rcases hn with hn | hn
    · cases hn with
      | @intro head colon gap value hhead =>
        refine ⟨head, by simp, ?_, (Option.some.inj hp).symm⟩
        rcases hhead with hhead | hhead <;> rw [hhead] <;> decide
    · cases hn with
      | @intro head closing inside after args hhead =>
        exact ⟨head, by simp, by rw [hhead]; decide, (Option.some.inj hp).symm⟩

end Grammar

/-- The nodes of a sheet are read from parts of the lexemes of its source. -/
theorem parse_reads {src : Text} {sheet : Sheet} (h : parse src = .ok sheet) :
    ∀ n ∈ Sheet.members sheet, ∃ part,
      part <:+: (Lexer.lex 0 src).filter (fun t => t.kind != .comment) ∧
        Grammar.Reads (Source.ofText src) part n := by
  obtain ⟨ts, htokens, hderived⟩ := parse_eq_ok_iff.mp h
  obtain ⟨-, rfl⟩ := Grammar.tokens_eq_ok_iff.mp htokens
  exact hderived.reads

/-- A node of a sheet stands at a lexeme of its source. -/
theorem parse_exists_first {src : Text} {sheet : Sheet} (h : parse src = .ok sheet) {n : Node}
    (hn : n ∈ Sheet.members sheet) {p : Pos} (hp : n.pos? = some p) :
    ∃ t ∈ Lexer.lex 0 src, t.kind ≠ .whitespace ∧ p = (Source.ofText src).pos t.offset := by
  obtain ⟨part, hpart, hreads⟩ := parse_reads h n hn
  obtain ⟨t, ht, hkind, hplace⟩ := hreads.exists_first hp
  exact ⟨t, List.mem_of_mem_filter (hpart.subset ht), hkind, hplace⟩

end MixinCss
