/-
  MixinCss.Proofs.Idempotent

  Compiling a second time changes nothing. What is kept of a source without
  escapes, comments and parent marks is legible (`Document.isLegible`), so the
  text that is written of it is read as a sheet that is written in the same way
  (`compile_idempotent`).
-/

import MixinCss.Proofs.Grammar.Printed

namespace MixinCss

open Grammar

/-- Not a call, and if it sets a property to a number, the digits of the number
    read back as a number with the same digits. -/
def Node.isSteady : Node → Bool
  | .declaration _ (.number _ f) _ =>
    (Decimal.read (Decimal.format f)).map Decimal.format = .ok (Decimal.format f)
  | .call .. => false
  | _ => true

theorem Units.ofProperty_usual_mem (property : Text) :
    Units.usual.ofProperty property ∈ Lexer.usualUnits := by
  unfold Units.ofProperty Units.usual
  split
  · decide
  split <;> decide

namespace Grammar

open Lexer (Stopped)
open Token (textOf)

/-! ## Segments of a source -/

/-- A mark in front of which a segment may stand is a stop. -/
theorem Clean.stopped {t : Token} {ts : List Token} {rest : Text} (h : Clean (t :: ts) rest)
    (hkind : t.kind ∈ [TokenKind.colon, .semicolon, .openBrace, .closeBrace]) :
    Stopped (textOf (t :: ts) ++ rest) := by
  have hmark : t.kind ∈ Lexer.marks.map Prod.snd :=
    (by decide : ∀ kind ∈ [TokenKind.colon, .semicolon, .openBrace, .closeBrace],
      kind ∈ Lexer.marks.map Prod.snd) t.kind hkind
  obtain ⟨b, htext, hmem⟩ := (Lexer.isLexeme_mark_iff hmark).1 h.lexemes.1
  have hstop : b ∈ Lexer.stops :=
    (by decide : ∀ m ∈ Lexer.marks,
      m.2 ∈ [TokenKind.colon, .semicolon, .openBrace, .closeBrace] → m.1 ∈ Lexer.stops)
      (b, t.kind) hmem hkind
  rw [Token.textOf_cons, htext]
  exact .intro hstop

/-- The name of a property is read as one token. -/
theorem Clean.spells_head {head : Token} {rest : Text} (h : Clean [head] rest)
    (hrest : Stopped rest) (hkind : head.kind = .ident ∨ head.kind = .customProperty) :
    Spells [head] head.text := by
  have hflat : IsFlat head := by
    rcases hkind with hkind | hkind
    · exact isFlat_of_kind .ident hkind (by decide)
    · exact isFlat_of_kind .customProperty hkind (by decide)
  have hspace : ∀ t ∈ [head], t.isSpace = false := by simpa using hflat.2.2.1
  have hspells := h.spells hrest (isSegment_of_flat (by simpa using ⟨hflat.1, hflat.2.1⟩))
    (by simpa using hflat.2.2.1)
  rw [raw_of_not_isSpace hspace, Token.trim_of_not_isSpace hspace, List.map_singleton,
    Token.squeezed_of_not_isSpace hflat.2.2.1] at hspells
  rwa [Token.textOf_cons, Token.textOf_nil, List.append_nil] at hspells

theorem Declares.isLegible {src : Source} {ts : List Token} {n : Node} {rest : Text}
    (h : Declares src ts n) (hclean : Clean ts rest) (hrest : Stopped rest)
    (hsegment : IsSegment ts) (hsteady : n.isSteady) : n.IsLegible .usual := by
  obtain @⟨head, colon, gap, value, hkind, hgap, hcolon, hvalue⟩ := h
  obtain ⟨hhead, hmore⟩ := clean_cons.1 hclean
  obtain ⟨hspace, hbehind⟩ := clean_append.1 hmore
  have hcolonStop := hbehind.stopped (by rw [hcolon]; decide)
  have hgapStop := stopped_of_blank hspace.lexemes hgap hcolonStop
  rw [← List.append_assoc, ← Token.textOf_append] at hgapStop
  -- Nothing is open in front of the value.
  have hlevel : level (head :: (gap ++ [colon])) = 0 := by
    have hheadLevel : head.nesting = 0 := by
      unfold Token.nesting
      rcases hkind with hkind | hkind <;> rw [hkind]
    have hcolonLevel : colon.nesting = 0 := by
      unfold Token.nesting
      rw [hcolon]
    rw [level_cons, level_append, level_of_blank hgap, level_cons, hheadLevel, hcolonLevel]
    rfl
  have hvalueSegment : IsSegment value := by
    have hsplit : head :: (gap ++ colon :: value) = head :: (gap ++ [colon]) ++ value := by
      simp
    rw [hsplit] at hsegment
    exact hsegment.of_append hlevel
  refine ⟨⟨head, hkind, hhead.spells_head hgapStop hkind⟩, ?_⟩
  refine (clean_cons.1 hbehind).2.spells_value hrest hvalueSegment hvalue
    (Units.ofProperty_usual_mem head.text) fun raw f hnumber => ?_
  rw [hnumber] at hsteady
  exact of_decide_eq_true hsteady

theorem Declares.members {src : Source} {ts : List Token} {n : Node} (h : Declares src ts n) :
    n.members = [n] := by
  cases h
  rfl

theorem Calls.not_isSteady {src : Source} {ts : List Token} {n : Node} (h : Calls src ts n) :
    ¬ n.isSteady := by
  cases h
  exact Bool.false_ne_true

theorem Final.isLegible {src : Source} {ts : List Token} {nodes : List Node} {rest : Text}
    (h : Final src ts nodes) (hclean : Clean ts rest) (hrest : Stopped rest)
    (hsteady : ∀ m ∈ Node.membersAll nodes, m.isSteady) :
    ∀ m ∈ Node.membersAll nodes, m.IsLegible .usual := by
  cases h with
  | nothing => exact fun _ hm => nomatch hm
  | declaration hsegment hn =>
    rw [Node.membersAll_singleton, hn.members, List.forall_mem_singleton] at hsteady ⊢
    exact hn.isLegible hclean hrest hsegment hsteady

theorem BeginsWith.not_blank {ts : List Token} {first : Token} (h : BeginsWith ts first) :
    ¬ Token.blank ts := by
  obtain ⟨lead, more, -, hfirst, rfl⟩ := h
  intro hblank
  have hspace := Token.blank_iff.1 hblank first (List.mem_append_right _ List.mem_cons_self)
  exact hfirst (Token.isSpace_iff.1 hspace)

/-! ## Rules and sheets of a source -/

mutual

theorem Items.isLegible {src : Source} :
    ∀ {ts : List Token} {nodes : List Node} {rest : Text}, Items src ts nodes → Clean ts rest →
      (∀ m ∈ Node.membersAll nodes, m.isSteady) → ∀ m ∈ Node.membersAll nodes, m.IsLegible .usual
  | _, _, _, .done, _, _ => fun _ hm => nomatch hm
  | _, _, _, .space _ hrest, hclean, hsteady =>
    hrest.isLegible (clean_cons.1 hclean).2 hsteady
  | _, _, _, .semicolon _ hrest, hclean, hsteady =>
    hrest.isLegible (clean_cons.1 hclean).2 hsteady
  | _, _, _, .rule hrule hrest, hclean, hsteady => by
    obtain ⟨hfront, hback⟩ := clean_append.1 hclean
    rw [Node.membersAll_cons, List.forall_mem_append] at hsteady ⊢
    exact ⟨hrule.isLegible hfront hsteady.1, hrest.isLegible hback hsteady.2⟩
  | _, _, _, .statement hsegment hn hmark hrest, hclean, hsteady => by
    obtain ⟨hfront, hback⟩ := clean_append.1 hclean
    rw [Node.membersAll_cons, List.forall_mem_append] at hsteady ⊢
    refine ⟨?_, hrest.isLegible (clean_cons.1 hback).2 hsteady.2⟩
    have hstop := hback.stopped (by rw [hmark]; decide)
    rcases hn with hn | hn
    · rw [hn.members, List.forall_mem_singleton] at hsteady ⊢
      exact hn.isLegible hfront hstop hsegment hsteady.1
    · exact absurd (hsteady.1 _ (Node.mem_members _)) hn.not_isSteady

theorem Block.isLegible {src : Source} :
    ∀ {ts : List Token} {r : Rule} {rest : Text}, Block src ts r → Clean ts rest →
      (∀ m ∈ r.node.members, m.isSteady) → ∀ m ∈ r.node.members, m.IsLegible .usual
  | _, _, _, .intro hsegment hfirst hopening hbody hlast hclosing, hclean, hsteady => by
    obtain ⟨hselector, hinside⟩ := clean_append.1 hclean
    have hstop := hinside.stopped (by rw [hopening]; decide)
    obtain ⟨hitems, hend⟩ := clean_append.1 (clean_cons.1 hinside).2
    obtain ⟨hfinal, hclose⟩ := clean_append.1 hend
    have hsteady' := fun m hm => hsteady m (List.mem_cons_of_mem _ hm)
    rw [Node.membersAll_append, List.forall_mem_append] at hsteady'
    refine List.forall_mem_cons.2 ⟨⟨hselector.parent_not_mem_raw, _,
      hselector.spells hstop hsegment hfirst.not_blank⟩, ?_⟩
    rw [Node.membersAll_append, List.forall_mem_append]
    exact ⟨hbody.isLegible hitems hsteady'.1, hlast.isLegible hfinal
      (hclose.stopped (by rw [hclosing]; decide)) hsteady'.2⟩

end

/-- What is kept of a clean source is legible, if there are no calls and the
    digits of numbers read back. -/
theorem Document.isLegible {src : Source} {ts : List Token} {sheet : Sheet} {rest : Text}
    (h : Document src ts sheet) (hclean : Clean ts rest)
    (hsteady : ∀ m ∈ Sheet.members sheet, m.isSteady) :
    ∀ m ∈ Sheet.members sheet, m.IsLegible .usual := by
  induction h with
  | done => exact fun _ hm => nomatch hm
  | space _ _ ih => exact ih (clean_cons.1 hclean).2 hsteady
  | semicolon _ _ ih => exact ih (clean_cons.1 hclean).2 hsteady
  | rule hrule _ _ ih =>
    obtain ⟨hfront, hback⟩ := clean_append.1 hclean
    rw [Sheet.members_cons, List.forall_mem_append] at hsteady ⊢
    exact ⟨hrule.isLegible hfront hsteady.1, ih hback hsteady.2⟩

end Grammar

/-! ## Compiling twice -/

theorem Node.IsLegible.isPlain {u : Units} {n : Node} (h : n.IsLegible u) : n.isPlain := by
  cases n with
  | declaration => rfl
  | rule => rfl
  | call => exact h.elim
  | nothing => exact h.elim
  | foreign => exact h.elim

theorem clean_lex {src : Text} {ts : List Token} (htokens : tokens src = .ok ts)
    (hslash : ascii '\\' ∉ src) (hcomment : ¬ utf8 "/*" <:+: src) (hparent : ascii '&' ∉ src) :
    Clean ts [] := by
  obtain ⟨hgood, rfl⟩ := tokens_eq_ok_iff.1 htokens
  have htext : Token.textOf (Lexer.lex 0 src) = src := Lexer.lex_flatMap_text 0 src
  have hplain : ∀ t ∈ Lexer.lex 0 src, t.kind ≠ .comment :=
    Lexer.ne_comment_of_lexemes (Lexer.lexemes_lex 0 src) (by rwa [htext, List.append_nil])
  rw [List.filter_eq_self.2 fun t ht => bne_iff_ne.2 (hplain t ht)]
  exact ⟨Lexer.lexemes_lex 0 src, by rwa [htext], by rwa [htext],
    fun t ht => ⟨(hgood t ht).1, (hgood t ht).2, hplain t ht⟩⟩

/-- Compiling is idempotent on plain style sheets. Let a source without `\`, `/*`
    and `&` be compiled, and let there be no call in it. Then the text that it
    is compiled to is compiled to itself, without a warning. Of numbers it is
    assumed that the digits that are written for them read back as a number for
    which the same digits are written. -/
theorem compile_idempotent {src : Text} {sheet : Sheet} {out : Compiled}
    (hslash : ascii '\\' ∉ src) (hcomment : ¬ utf8 "/*" <:+: src) (hparent : ascii '&' ∉ src)
    (hparse : parse src = .ok sheet)
    (hcalls : ∀ name args pos, Node.call name args pos ∉ Sheet.members sheet)
    (hnumbers : ∀ property raw f pos,
      Node.declaration property (.number raw f) pos ∈ Sheet.members sheet →
        (Decimal.read (Decimal.format f)).map Decimal.format = .ok (Decimal.format f))
    (hcompile : compile src .standard = .ok out) :
    compile out.css .standard = .ok ⟨out.css, []⟩ := by
  have hsteady : ∀ m ∈ Sheet.members sheet, m.isSteady := by
    intro m hm
    cases m with
    | declaration property value pos =>
      cases value with
      | number raw f => exact decide_eq_true (hnumbers property raw f pos hm)
      | _ => rfl
    | call name args pos => exact absurd hm (hcalls name args pos)
    | _ => rfl
  obtain ⟨ts, htokens, hderived⟩ := parse_eq_ok_iff.1 hparse
  have hlegible := hderived.isLegible (clean_lex htokens hslash hcomment hparent) hsteady
  -- There is nothing to expand, neither in the source nor in what is written of it.
  have hexpand (s : Sheet) (hs : ∀ m ∈ Sheet.members s, m.isPlain) :
      Options.standard.catalog.expand s = .pure s :=
    Options.standard.catalog.expandWithin_of_isPlain _ hs
  obtain ⟨_, expanded, hsame, hresult, rfl⟩ := compile_eq_ok_iff.1 hcompile
  cases hparse.symm.trans hsame
  rw [hexpand sheet fun m hm => (hlegible m hm).isPlain] at hresult
  cases hresult
  obtain ⟨sheet', hparse', hrender, hplain⟩ := parse_render hlegible
  refine compile_eq_ok_iff.2 ⟨sheet', sheet', hparse', ?_, ?_⟩
  · rw [hexpand sheet' hplain]
    rfl
  · rw [hexpand sheet' hplain]
    exact congrArg (Compiled.mk · []) hrender.symm

/-- A source with white space to squeeze, numbers to write out and a nested rule. -/
theorem compile_idempotent_nested :
    let src := utf8 "h1,\n h2\x7b margin:0  auto;opacity:.50; width :+3\x7d\n" ++
      utf8 "@media  print\x7b.a\x7bb:c;;\x7d\x7d"
    let css := utf8 "h1, h2 \x7b\n\tmargin: 0 auto;\n\topacity: 0.5;\n\twidth: 3rem;\n\x7d\n\n" ++
      utf8 "@media print \x7b\n\t.a \x7b\n\t\tb: c;\n\t\x7d\n\x7d"
    compile src .standard = .ok ⟨css, []⟩ ∧ compile css .standard = .ok ⟨css, []⟩ := by
  intro src css
  have hcompile : (compile src .standard).toOption = some ⟨css, []⟩ := by decide +kernel
  have hsteady : (parse src).toOption.map (fun sheet => (Sheet.members sheet).all Node.isSteady) =
      some true := by decide +kernel
  obtain ⟨sheet, hparse, hmembers⟩ := Option.map_eq_some_iff.1 hsteady
  rw [toOption_eq_some_iff] at hcompile hparse
  rw [List.all_eq_true] at hmembers
  refine ⟨hcompile, compile_idempotent (by decide) (by decide +kernel) (by decide) hparse ?_ ?_
    hcompile⟩
  · intro name args pos hm
    cases hmembers _ hm
  · intro property raw f pos hm
    exact of_decide_eq_true (hmembers _ hm)

end MixinCss
