/-
  MixinCss.Proofs.Grammar.Printed

  What is written of a sheet, read again. If every selector, property and value
  of a sheet is read as a segment wherever it stands in front of a stop, then
  the text of the sheet is read as a sheet that is written in the same way
  (`parse_render`).

  The text is put together from pieces that are read alike whatever follows
  (`Sealed`): a spelled text with a mark behind it, a mark, and white space with
  another piece behind it.
-/

import MixinCss.Proofs.Compile
import MixinCss.Proofs.Grammar.Spelling
import MixinCss.Proofs.Sheet.Selector

namespace MixinCss.Grammar

open Lexer (IsLexeme Lexemes Stopped lexemes_append)
open Token (textOf)

/-! ## Sealed tokens -/

/-- The tokens are found in their text whatever follows, and none is bad. -/
structure Sealed (ts : List Token) : Prop where
  lexemes : ∀ rest, Lexemes ts rest
  good : ∀ t ∈ ts, IsGood t

/-- The tokens begin with one that is not white space. -/
def BeginsSolid (ts : List Token) : Prop := ∃ t, ts.head? = some t ∧ t.isSpace = false

variable {ts us : List Token}

theorem sealed_nil : Sealed [] := ⟨fun _ => trivial, fun _ ht => nomatch ht⟩

theorem Sealed.append (hts : Sealed ts) (hus : Sealed us) : Sealed (ts ++ us) :=
  ⟨fun rest => lexemes_append.2 ⟨hts.lexemes _, hus.lexemes rest⟩,
    List.forall_mem_append.2 ⟨hts.good, hus.good⟩⟩

/-- A mark by itself. -/
def mark (b : UInt8) (kind : TokenKind) : Token := ⟨kind, [b], 0⟩

theorem sealed_mark {b : UInt8} {kind : TokenKind} (h : (b, kind) ∈ Lexer.marks) :
    Sealed [mark b kind] := by
  refine ⟨fun rest => ⟨(Lexer.isLexeme_mark_iff ?_).2 ⟨b, rfl, h⟩, trivial⟩, fun t ht => ?_⟩
  · exact List.mem_map_of_mem (f := Prod.snd) h
  · obtain rfl := List.mem_singleton.1 ht
    exact (by decide : ∀ m ∈ Lexer.marks, IsGood (mark m.1 m.2)) (b, kind) h

theorem Spells.text_singleton {t : Token} {w : Text} (h : Spells [t] w) : t.text = w := by
  have htext := h.text
  rwa [Token.textOf_cons, Token.textOf_nil, List.append_nil] at htext

theorem Spells.beginsSolid {w : Text} (h : Spells ts w) : BeginsSolid ts := by
  obtain ⟨t, more, rfl⟩ := List.exists_cons_of_ne_nil h.nonempty
  have hfirst : (Token.trim (t :: more)).head? = some t := by
    rw [h.trimmed]
    rfl
  exact ⟨t, rfl, Token.isSpace_of_head?_trim hfirst⟩

theorem BeginsSolid.append (h : BeginsSolid ts) (us : List Token) : BeginsSolid (ts ++ us) := by
  obtain ⟨t, ht, hspace⟩ := h
  exact ⟨t, by rw [List.head?_append, ht]; rfl, hspace⟩

/-- A spelled text with a stop behind it. -/
theorem Spells.sealed_append {w : Text} (h : Spells ts w) (hus : Sealed us)
    (hstop : Stopped (textOf us)) : Sealed (ts ++ us) :=
  ⟨fun rest => lexemes_append.2 ⟨h.lexemes _ (hstop.append rest), hus.lexemes rest⟩,
    List.forall_mem_append.2 ⟨h.good, hus.good⟩⟩

/-- White space. -/
def gap (w : Text) : Token := ⟨.whitespace, w, 0⟩

/-- White space with another token behind it. -/
theorem Sealed.gap_cons {w : Text} (h : Sealed ts) (hts : BeginsSolid ts) (hne : w ≠ [])
    (hw : ∀ b ∈ w, Lexer.isSpace b = true) : Sealed (gap w :: ts) := by
  obtain ⟨t, ht, hspace⟩ := hts
  obtain ⟨more, rfl⟩ := List.head?_eq_some_iff.1 ht
  refine ⟨fun rest => ⟨(Lexer.isLexeme_space_iff rfl).2 ⟨hne, hw, ?_⟩, h.lexemes rest⟩, ?_⟩
  · obtain ⟨b, u, htext, hkind, -⟩ := (h.lexemes rest).1
    intro c hc
    rw [Token.textOf_cons, htext] at hc
    cases hc
    refine Bool.eq_false_iff.2 fun hb => Token.isSpace_eq_false_iff.1 hspace ?_
    rw [← hkind, Lexer.scan_of_isSpace hb]
  · rw [List.forall_mem_cons]
    exact ⟨(by decide : IsGood (gap [])), h.good⟩

end MixinCss.Grammar

namespace MixinCss

open Grammar

/-! ## Legible nodes -/

/-- The selector, or the property and the value, are read as segments wherever
    they stand in front of a stop; the value is read as one that is written in
    the same way. Only declarations and rules are legible. -/
def Node.IsLegible (u : Units) : Node → Prop
  | .declaration property value _ =>
    (∃ head, (head.kind = .ident ∨ head.kind = .customProperty) ∧ Spells [head] property) ∧
      ∃ ts, Spells ts (value.render (u.ofProperty property)) ∧
        (valueOfDeclaration ts).render (u.ofProperty property) =
          value.render (u.ofProperty property)
  | .rule selector _ _ => ascii '&' ∉ selector ∧ ∃ ts, Spells ts selector
  | .call .. => False
  | .nothing => False
  | .foreign _ => False

theorem Node.writtenSelector_of_not_mem {selector : Text} (h : ascii '&' ∉ selector)
    (parent : Text) : writtenSelector selector parent = selector := by
  unfold writtenSelector
  rw [Selector.substitute_of_not_mem h, ite_self]

namespace Grammar

open Lexer (Stopped)
open Node (indent)
open Token (textOf)

variable {src : Source} {u : Units}

/-- The line break in front of a member at a depth. -/
def lineBreak (depth : Nat) : Token := gap (ascii '\n' :: indent depth)

theorem Sealed.lineBreak_cons {ts : List Token} (h : Sealed ts) (hts : BeginsSolid ts)
    (depth : Nat) : Sealed (lineBreak depth :: ts) := by
  refine h.gap_cons hts (List.cons_ne_nil _ _) ?_
  rw [List.forall_mem_cons]
  refine ⟨by decide, fun b hb => ?_⟩
  rw [List.eq_of_mem_replicate hb]
  decide

/-- `ts` are the tokens of the nodes as they are written at `depth`, with a line
    break in front of each and none behind the last. They spell `nodes'`, which
    are written in the same way. -/
structure Printed (src : Source) (u : Units) (depth : Nat) (nodes : List Node) (ts : List Token)
    (nodes' : List Node) : Prop where
  sealed : Sealed ts
  items : Items src ts nodes'
  text : ∀ parent, ascii '\n' :: Node.renderAll u parent depth nodes = textOf ts ++ [ascii '\n']
  same : ∀ parent depth, Node.renderAll u parent depth nodes' = Node.renderAll u parent depth nodes
  plain : ∀ m ∈ Node.membersAll nodes', m.isPlain

/-- The tokens of a rule as it is written at `depth`. -/
def ruleTokens (selector : List Token) (depth : Nat) (inside : List Token) : List Token :=
  selector ++ ([gap [ascii ' ']] ++ mark 0x7B .openBrace ::
    (inside ++ [lineBreak depth] ++ ([] ++ [mark 0x7D .closeBrace])))

theorem sealed_ruleTokens {selector inside : List Token} {w : Text} (h : Spells selector w)
    (hinside : Sealed inside) (depth : Nat) : Sealed (ruleTokens selector depth inside) := by
  have hclose : Sealed [lineBreak depth, mark 0x7D .closeBrace] :=
    (sealed_mark (by decide)).lineBreak_cons ⟨_, rfl, rfl⟩ depth
  have hopen : Sealed ([mark 0x7B .openBrace] ++
      (inside ++ [lineBreak depth, mark 0x7D .closeBrace])) :=
    (sealed_mark (by decide)).append (hinside.append hclose)
  have hbody := hopen.gap_cons (w := [ascii ' ']) ⟨_, rfl, rfl⟩ (List.cons_ne_nil _ _)
    (by decide +kernel)
  unfold ruleTokens
  rw [List.append_assoc]
  exact h.sealed_append hbody (.intro (by decide))

theorem block_ruleTokens {selector inside : List Token} {w : Text} {nodes : List Node}
    (h : Spells selector w) (hinside : Items src inside nodes) (depth : Nat) :
    ∃ pos, Block src (ruleTokens selector depth inside) ⟨w, nodes, pos⟩ := by
  obtain ⟨first, hfirst, hspace⟩ := h.beginsSolid
  obtain ⟨more, rfl⟩ := List.head?_eq_some_iff.1 hfirst
  have hgap : IsSegment [gap [ascii ' ']] := isSegment_of_flat (by decide)
  have hbegins : BeginsWith (first :: more ++ [gap [ascii ' ']]) first :=
    ⟨[], more ++ [gap [ascii ' ']], rfl, Token.isSpace_eq_false_iff.1 hspace, rfl⟩
  have hbody : Items src (inside ++ [lineBreak depth]) (nodes ++ []) :=
    hinside.append (.space rfl .done)
  have hopening : (mark 0x7B .openBrace).kind = .openBrace := rfl
  have hclosing : (mark 0x7D .closeBrace).kind = .closeBrace := rfl
  have hblock := Block.intro (h.segment.append hgap) hbegins hopening hbody .nothing hclosing
  have hraw : Token.raw (first :: more ++ [gap [ascii ' ']]) = w := by
    rw [← Token.raw_trim, Token.trim_append_blank (by decide), Token.raw_trim, h.raw]
  rw [hraw, List.append_nil, List.append_nil, List.append_assoc] at hblock
  exact ⟨_, hblock⟩

theorem textOf_ruleTokens {selector inside : List Token} {w : Text} (h : Spells selector w)
    (depth : Nat) :
    textOf (ruleTokens selector depth inside) =
      w ++ [ascii ' ', 0x7B] ++ (textOf inside ++ [ascii '\n']) ++ indent depth ++ [0x7D] := by
  simp [ruleTokens, lineBreak, gap, mark, h.text]

theorem Printed.nil (depth : Nat) : Printed src u depth [] [] [] :=
  ⟨sealed_nil, .done, fun _ => rfl, fun _ _ => rfl, fun _ hm => nomatch hm⟩

theorem renderAll_append (parent : Text) (depth : Nat) (front back : List Node) :
    Node.renderAll u parent depth (front ++ back) =
      Node.renderAll u parent depth front ++ Node.renderAll u parent depth back := by
  induction front with
  | nil => rfl
  | cons n rest ih => rw [List.cons_append, Node.renderAll, ih, Node.renderAll, List.append_assoc]

theorem Printed.append {depth : Nat} {xs ys xs' ys' : List Node} {ts us : List Token}
    (hx : Printed src u depth xs ts xs') (hy : Printed src u depth ys us ys') :
    Printed src u depth (xs ++ ys) (ts ++ us) (xs' ++ ys') := by
  refine ⟨hx.sealed.append hy.sealed, hx.items.append hy.items, fun parent => ?_,
    fun parent depth => ?_, ?_⟩
  · rw [renderAll_append, ← List.cons_append, hx.text, List.append_assoc, List.singleton_append,
      hy.text, Token.textOf_append, List.append_assoc]
  · rw [renderAll_append, hx.same, hy.same, renderAll_append]
  · rw [Node.membersAll_append]
    exact List.forall_mem_append.2 ⟨hx.plain, hy.plain⟩

theorem printed_rule {depth : Nat} {children children' : List Node} {inside selector : List Token}
    {w : Text} (h : Spells selector w) (hparent : ascii '&' ∉ w)
    (hinside : Printed src u (depth + 1) children inside children') (pos : Pos) :
    ∃ pos', Printed src u depth [.rule w children pos]
      (lineBreak depth :: ruleTokens selector depth inside) [.rule w children' pos'] := by
  obtain ⟨pos', hblock⟩ := block_ruleTokens h hinside.items depth
  have hsealed := sealed_ruleTokens h hinside.sealed depth
  have hbegins : BeginsSolid (ruleTokens selector depth inside) := h.beginsSolid.append _
  have hbrace : utf8 " \x7b\n" = [ascii ' ', 0x7B, ascii '\n'] := by decide
  have hclose : utf8 "\x7d\n" = [0x7D, ascii '\n'] := by decide
  refine ⟨pos', hsealed.lineBreak_cons hbegins depth, .space rfl ?_, fun parent => ?_,
    fun parent depth => ?_, fun m hm => ?_⟩
  · have hitems := Items.rule hblock .done
    rwa [List.append_nil] at hitems
  · have htext := hinside.text (Node.innerParent w parent)
    rw [Token.textOf_cons, textOf_ruleTokens h, ← htext, Node.renderAll, Node.render,
      Node.writtenSelector_of_not_mem hparent, hbrace, hclose]
    simp [lineBreak, gap, Node.renderAll]
  · simp only [Node.renderAll, Node.render, hinside.same]
  · rw [Node.membersAll_singleton, Node.members, List.mem_cons] at hm
    rcases hm with rfl | hm
    · rfl
    · exact hinside.plain m hm

/-- The tokens of a declaration as it is written. -/
def declarationTokens (head : Token) (value : List Token) : List Token :=
  [head] ++ mark (ascii ':') .colon :: gap [ascii ' '] :: (value ++ [mark (ascii ';') .semicolon])

theorem sealed_declarationTokens {head : Token} {value : List Token} {v w : Text}
    (hhead : Spells [head] v) (hvalue : Spells value w) :
    Sealed (declarationTokens head value) := by
  have hend : Sealed (value ++ [mark (ascii ';') .semicolon]) :=
    hvalue.sealed_append (sealed_mark (by decide)) (.intro (by decide))
  have hgap := hend.gap_cons (w := [ascii ' ']) (hvalue.beginsSolid.append _)
    (List.cons_ne_nil _ _) (by decide +kernel)
  have hcolon : Sealed [mark (ascii ':') .colon] := sealed_mark (by decide)
  exact hhead.sealed_append (hcolon.append hgap) (.intro (by decide))

theorem items_declarationTokens (src : Source) {head : Token} {value : List Token} {v w : Text}
    (hkind : head.kind = .ident ∨ head.kind = .customProperty) (hhead : Spells [head] v)
    (hvalue : Spells value w) :
    ∃ pos, Items src (declarationTokens head value)
      [.declaration v (valueOfDeclaration value) pos] := by
  have hblank : Token.blank [gap [ascii ' ']] := rfl
  have htrim : Token.trim (gap [ascii ' '] :: value) = value :=
    (Token.trim_blank_append hblank).trans hvalue.trimmed
  have hdeclares : Declares src ([head] ++ [mark (ascii ':') .colon, gap [ascii ' ']] ++ value)
      (.declaration head.text (valueOfDeclaration (Token.trim (gap [ascii ' '] :: value)))
        (src.pos head.offset)) :=
    have hnothing : Token.blank [] := rfl
    .intro hkind hnothing rfl hvalue.not_blank
  have hsegment : IsSegment ([head] ++ [mark (ascii ':') .colon, gap [ascii ' ']] ++ value) :=
    (hhead.segment.append (isSegment_of_flat (by decide))).append hvalue.segment
  have hsemicolon : (mark (ascii ';') .semicolon).kind = .semicolon := rfl
  have hitems := Items.statement hsegment (.inl hdeclares) hsemicolon .done
  rw [hhead.text_singleton, htrim, List.append_assoc, List.append_assoc] at hitems
  exact ⟨_, hitems⟩

theorem printed_declaration {depth : Nat} {property : Text} {value : Value} {pos : Pos}
    {head : Token} {ts : List Token} (hkind : head.kind = .ident ∨ head.kind = .customProperty)
    (hhead : Spells [head] property) (hvalue : Spells ts (value.render (u.ofProperty property)))
    (hsame : (valueOfDeclaration ts).render (u.ofProperty property) =
      value.render (u.ofProperty property)) :
    ∃ us nodes', Printed src u depth [.declaration property value pos] us nodes' := by
  obtain ⟨pos', hitems⟩ := items_declarationTokens src hkind hhead hvalue
  have hsealed := sealed_declarationTokens hhead hvalue
  have hcolon : utf8 ": " = [ascii ':', ascii ' '] := by decide
  have hsemicolon : utf8 ";\n" = [ascii ';', ascii '\n'] := by decide
  refine ⟨lineBreak depth :: declarationTokens head ts, _,
    hsealed.lineBreak_cons (hhead.beginsSolid.append _) depth, .space rfl hitems, fun parent => ?_,
    fun parent depth => ?_, fun m hm => ?_⟩
  · simp [declarationTokens, lineBreak, gap, mark, Node.renderAll, Node.render, hcolon, hsemicolon,
      hhead.text_singleton, hvalue.text]
  · simp only [Node.renderAll, Node.render, hsame]
  · rw [Node.membersAll_singleton, Node.members, List.mem_singleton] at hm
    subst hm
    rfl

mutual

theorem exists_printed_node (src : Source) (u : Units) :
    ∀ (n : Node) (depth : Nat), (∀ m ∈ n.members, m.IsLegible u) →
      ∃ ts nodes', Printed src u depth [n] ts nodes'
  | .declaration property value pos, depth, h => by
    obtain ⟨⟨head, hkind, hhead⟩, ts, hvalue, hsame⟩ := h _ List.mem_cons_self
    exact printed_declaration hkind hhead hvalue hsame
  | .rule selector children pos, depth, h => by
    obtain ⟨hparent, ts, hselector⟩ := h _ List.mem_cons_self
    obtain ⟨inside, children', hinside⟩ := exists_printed src u children (depth + 1)
      fun m hm => h m (List.mem_cons_of_mem _ hm)
    obtain ⟨pos', hrule⟩ := printed_rule hselector hparent hinside pos
    exact ⟨_, _, hrule⟩
  | .call .., _, h => (h _ List.mem_cons_self).elim
  | .nothing, _, h => (h _ List.mem_cons_self).elim
  | .foreign _, _, h => (h _ List.mem_cons_self).elim

theorem exists_printed (src : Source) (u : Units) :
    ∀ (nodes : List Node) (depth : Nat), (∀ m ∈ Node.membersAll nodes, m.IsLegible u) →
      ∃ ts nodes', Printed src u depth nodes ts nodes'
  | [], depth, _ => ⟨[], [], .nil depth⟩
  | n :: rest, depth, h => by
    rw [Node.membersAll_cons, List.forall_mem_append] at h
    obtain ⟨ts, front, hfront⟩ := exists_printed_node src u n depth h.1
    obtain ⟨us, back, hback⟩ := exists_printed src u rest depth h.2
    exact ⟨ts ++ us, front ++ back, hfront.append hback⟩

end

/-! ## Sheets -/

/-- `ts` are the tokens of the sheet as it is written. They spell `sheet'`, whose
    rules are written in the same way. -/
structure PrintedSheet (src : Source) (u : Units) (sheet : Sheet) (ts : List Token)
    (sheet' : Sheet) : Prop where
  sealed : Sealed ts
  begins : sheet ≠ [] → BeginsSolid ts
  document : Document src ts sheet'
  text : textOf ts = Sheet.render u sheet
  same : sheet'.map (Rule.render u) = sheet.map (Rule.render u)
  plain : ∀ m ∈ Sheet.members sheet', m.isPlain

theorem exists_printed_rule (src : Source) {u : Units} (r : Rule)
    (h : ∀ m ∈ r.node.members, m.IsLegible u) :
    ∃ ts r', Sealed ts ∧ BeginsSolid ts ∧ Block src ts r' ∧ ascii '&' ∉ r'.selector ∧
      textOf ts = r.render u ∧ r'.render u = r.render u ∧ ∀ m ∈ r'.node.members, m.isPlain := by
  obtain ⟨hparent, selector, hselector⟩ := h r.node List.mem_cons_self
  obtain ⟨inside, children', hinside⟩ := exists_printed src u r.children 1
    fun m hm => h m (List.mem_cons_of_mem _ hm)
  obtain ⟨pos', hblock⟩ := block_ruleTokens hselector hinside.items 0
  have hbrace : utf8 " \x7b\n" = [ascii ' ', 0x7B, ascii '\n'] := by decide
  have hclose : utf8 "\x7d" = [0x7D] := by decide
  refine ⟨_, _, sealed_ruleTokens hselector hinside.sealed 0, hselector.beginsSolid.append _,
    hblock, hparent, ?_, ?_, ?_⟩
  · rw [textOf_ruleTokens hselector, ← hinside.text (Node.innerParent r.selector []), Rule.render,
      Node.writtenSelector_of_not_mem hparent, hbrace, hclose]
    simp [indent]
  · simp only [Rule.render, hinside.same]
  · intro m hm
    rcases List.mem_cons.1 hm with rfl | hm
    · rfl
    · exact hinside.plain m hm

theorem exists_printedSheet (src : Source) {u : Units} (sheet : Sheet)
    (h : ∀ m ∈ Sheet.members sheet, m.IsLegible u) :
    ∃ ts sheet', PrintedSheet src u sheet ts sheet' := by
  induction sheet with
  | nil => exact ⟨[], [], sealed_nil, fun hne => absurd rfl hne, .done, rfl, rfl,
      fun _ hm => nomatch hm⟩
  | cons r rest ih =>
    rw [Sheet.members_cons, List.forall_mem_append] at h
    obtain ⟨ts, r', hsealed, hbegins, hblock, hparent, htext, hsame, hplain⟩ :=
      exists_printed_rule src r h.1
    obtain ⟨us, rest', hrest⟩ := ih h.2
    have hmembers : ∀ m ∈ Sheet.members (r' :: rest'), m.isPlain := by
      rw [Sheet.members_cons, List.forall_mem_append]
      exact ⟨hplain, hrest.plain⟩
    have hrules : (r' :: rest').map (Rule.render u) = (r :: rest).map (Rule.render u) := by
      rw [List.map_cons, hsame, hrest.same, List.map_cons]
    by_cases hlast : rest = []
    · subst hlast
      obtain rfl : rest' = [] := List.map_eq_nil_iff.1 hrest.same
      have hdocument := Document.rule hblock hparent .done
      rw [List.append_nil] at hdocument
      exact ⟨ts, [r'], hsealed, fun _ => hbegins, hdocument, htext, hrules, hmembers⟩
    · -- An empty line stands between the rule and the rest.
      have hgap : Sealed (gap (utf8 "\n\n") :: us) :=
        hrest.sealed.gap_cons (hrest.begins hlast) (by decide) (by decide +kernel)
      refine ⟨ts ++ gap (utf8 "\n\n") :: us, r' :: rest', hsealed.append hgap,
        fun _ => hbegins.append _, .rule hblock hparent (.space rfl hrest.document), ?_, hrules,
        hmembers⟩
      rw [Token.textOf_append, Token.textOf_cons, htext, hrest.text, Sheet.render, Sheet.render,
        List.map_cons, Text.join_cons _ _ (mt List.map_eq_nil_iff.1 hlast), List.append_assoc]
      rfl

end Grammar

/-- What is written of a legible sheet is read as a sheet of declarations and
    rules that is written in the same way. -/
theorem parse_render {u : Units} {sheet : Sheet} (h : ∀ m ∈ Sheet.members sheet, m.IsLegible u) :
    ∃ sheet', parse (Sheet.render u sheet) = .ok sheet' ∧
      Sheet.render u sheet' = Sheet.render u sheet ∧ ∀ m ∈ Sheet.members sheet', m.isPlain := by
  obtain ⟨ts, printed, hprinted⟩ :=
    exists_printedSheet (Source.ofText (Sheet.render u sheet)) sheet h
  -- The lexer finds the same tokens in other places, which the derivation does not depend on.
  obtain ⟨us, hmoved, hlex⟩ := Lexer.lex_of_lexemes (hprinted.sealed.lexemes []) 0
  rw [hprinted.text, List.append_nil, Lexer.lex, List.append_nil] at hlex
  have hgood : ∀ t ∈ Lexer.lex 0 (Sheet.render u sheet), IsGood t := by
    rw [hlex]
    refine Token.Moved.forall_mem (fun t t' hbare ht => ?_) hmoved hprinted.sealed.good
    unfold IsGood
    rw [Token.kind_eq_of_bare hbare]
    exact ht
  have htokens : tokens (Sheet.render u sheet) = .ok us := by
    refine tokens_eq_ok_iff.2 ⟨fun t ht => ⟨(hgood t ht).1, (hgood t ht).2.1⟩, ?_⟩
    rw [List.filter_eq_self.2 fun t ht => bne_iff_ne.2 (hgood t ht).2.2, hlex]
  obtain ⟨sheet', hdocument, hplaces⟩ := hprinted.document.relocate hmoved
    (Source.ofText (Sheet.render u sheet))
  refine ⟨sheet', parse_eq_ok_iff.2 ⟨us, htokens, hdocument⟩, ?_,
    Sheet.isPlain_congr hplaces hprinted.plain⟩
  rw [← Sheet.render_unplaced, hplaces, Sheet.render_unplaced, Sheet.render, hprinted.same,
    Sheet.render]

end MixinCss
