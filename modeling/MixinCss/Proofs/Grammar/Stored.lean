/-
  MixinCss.Proofs.Grammar.Stored

  The texts that a sheet keeps of its source: the selectors of rules, and the
  values of declarations unless they are a lone number or a variable. Such a
  text stands for a run of tokens that can be told from the source and the place
  of the node alone. It holds the words of the run, with a space for each white
  space between them, and is read as these words again where they stay apart
  (`stored_text_reads_back`).
-/

import MixinCss.Proofs.Grammar.Parts
import MixinCss.Proofs.Grammar.Spelling
import MixinCss.Proofs.Token.Separated

namespace MixinCss

open Token (Word words withoutComments)

/-! ## Runs of a source -/

/-- The tokens from an offset on, up to the next semicolon or brace. -/
def Source.tokensAt (src : Text) (offset : Nat) : List Token :=
  ((Lexer.lex 0 src).dropWhile fun t => t.offset < offset).takeWhile fun t => !Segment.isMark t

/-- The tokens behind the first colon. -/
def Token.behindColon (ts : List Token) : List Token :=
  (ts.dropWhile fun t => t.kind != .colon).tail

/-- The text that is kept of a node, and the tokens that it stands for. -/
def Node.stored? (src : Text) : Node → Option (Text × List Token)
  | .rule selector _ pos => some (selector, Source.tokensAt src pos.offset)
  | .declaration _ (.word raw) pos =>
    some (raw, Token.behindColon (Source.tokensAt src pos.offset))
  | _ => none

/-- All texts that a sheet keeps. -/
def Sheet.stored (src : Text) (sheet : Sheet) : List (Text × List Token) :=
  (Sheet.members sheet).filterMap (Node.stored? src)

namespace Grammar

/-- Tokens of a source in front of a mark, when its comments have been left out:
    the same run in the source itself. -/
theorem exists_run {ts before rest after : List Token} {first mark : Token}
    (h : withoutComments ts = before ++ first :: (rest ++ mark :: after))
    (hrest : ∀ t ∈ rest, Segment.isMark t = false) :
    ∃ front run back, ts = front ++ first :: (run ++ mark :: back) ∧ withoutComments run = rest ∧
      ∀ t ∈ run, Segment.isMark t = false := by
  obtain ⟨front, behind, rfl, -, hbehind⟩ := List.filter_eq_append_iff.mp h
  obtain ⟨lead, tail, rfl, -, -, htail⟩ := List.filter_eq_cons_iff.mp hbehind
  obtain ⟨body, more, rfl, hbody, hmore⟩ := List.filter_eq_append_iff.mp htail
  obtain ⟨gap, back, rfl, hgap, -, -⟩ := List.filter_eq_cons_iff.mp hmore
  have hnone : withoutComments gap = [] := List.filter_eq_nil_iff.mpr hgap
  have hrun : withoutComments (body ++ gap) = rest := by
    rw [Token.withoutComments_append, hnone, List.append_nil]
    exact hbody
  refine ⟨front ++ lead, body ++ gap, back, by simp, hrun, fun t ht => ?_⟩
  by_cases hkind : t.kind = .comment
  · simp [Segment.isMark, hkind]
  · refine hrest t ?_
    rw [← hrun]
    exact List.mem_filter.mpr ⟨ht, bne_iff_ne.mpr hkind⟩

/-- A run is found by the offset of its first token. -/
theorem tokensAt_eq {src : Text} {front run back : List Token} {first mark : Token}
    (h : Lexer.lex 0 src = front ++ first :: (run ++ mark :: back))
    (hfirst : Segment.isMark first = false) (hrun : ∀ t ∈ run, Segment.isMark t = false)
    (hmark : Segment.isMark mark = true) :
    Source.tokensAt src first.offset = first :: run := by
  have hsorted := Lexer.lex_offsets_increase 0 src
  rw [h, List.map_append, List.map_cons, List.pairwise_append] at hsorted
  have hfront : ∀ t ∈ front, decide (t.offset < first.offset) = true := by
    intro t ht
    exact decide_eq_true (hsorted.2.2 _ (List.mem_map_of_mem ht) _ List.mem_cons_self)
  have hall : ∀ t ∈ first :: run, (!Segment.isMark t) = true := by
    refine List.forall_mem_cons.mpr ⟨by rw [hfirst]; rfl, fun t ht => by rw [hrun t ht]; rfl⟩
  rw [Source.tokensAt, h, List.dropWhile_append_of_pos hfront,
    List.dropWhile_cons_of_neg (by simp), ← List.cons_append,
    List.takeWhile_append_of_pos hall, List.takeWhile_cons_of_neg (by rw [hmark]; decide),
    List.append_nil]

/-- Tokens of a source in front of a mark are found with a stop behind them. -/
theorem exists_stopped {src : Text} {front run back : List Token} {mark : Token}
    (h : Lexer.lex 0 src = front ++ (run ++ mark :: back)) (hmark : Segment.isMark mark = true) :
    ∃ x, Lexer.Stopped x ∧ Lexer.Lexemes run x := by
  have hlex := Lexer.lexemes_lex 0 src
  rw [h] at hlex
  obtain ⟨hrun, hback⟩ := Lexer.lexemes_append.mp (Lexer.lexemes_append.mp hlex).2
  refine ⟨_, ?_, hrun⟩
  have hkind : mark.kind ∈ Lexer.marks.map Prod.snd := by
    rcases isMark_iff.mp hmark with hkind | hkind | hkind <;> rw [hkind] <;> decide
  obtain ⟨b, htext, hmem⟩ := (Lexer.isLexeme_mark_iff hkind).mp hback.1
  have hstops : ∀ m ∈ Lexer.marks,
      m.2 = .semicolon ∨ m.2 = .openBrace ∨ m.2 = .closeBrace → m.1 ∈ Lexer.stops := by decide
  rw [Token.textOf_cons, htext]
  exact .intro (hstops _ hmem (isMark_iff.mp hmark))

/-- The value of a declaration as a word is the text of its tokens. -/
theorem raw_of_valueOfDeclaration {ts : List Token} {raw : Text}
    (h : valueOfDeclaration ts = .word raw) : raw = Token.raw ts := by
  rcases render_valueOfDeclaration ts with ⟨t, f, -, hnumber⟩ | hrender
  · rw [h] at hnumber
    cases hnumber
  · have htext := hrender []
    rw [h] at htext
    exact htext

theorem behindColon_eq {front back : List Token} {colon : Token}
    (hfront : ∀ t ∈ front, t.kind ≠ .colon) (hcolon : colon.kind = .colon) :
    Token.behindColon (front ++ colon :: back) = back := by
  have hother : ∀ t ∈ front, (t.kind != .colon) = true := fun t ht =>
    bne_iff_ne.mpr (hfront t ht)
  rw [Token.behindColon, List.dropWhile_append_of_pos hother,
    List.dropWhile_cons_of_neg (by rw [hcolon]; decide), List.tail_cons]

/-- The value of a declaration, with the comments in it. -/
theorem exists_behindColon {head colon : Token} {body gap value : List Token}
    (hhead : head.kind = .ident ∨ head.kind = .customProperty) (hgap : Token.blank gap)
    (hcolon : colon.kind = .colon) (h : withoutComments body = gap ++ colon :: value) :
    ∃ front run, head :: body = front ++ run ∧ Token.behindColon (head :: body) = run ∧
      withoutComments run = value := by
  obtain ⟨lead, behind, rfl, hlead, hbehind⟩ := List.filter_eq_append_iff.mp h
  obtain ⟨more, run, rfl, hmore, -, hrun⟩ := List.filter_eq_cons_iff.mp hbehind
  have hsplit : head :: (lead ++ (more ++ colon :: run)) =
      (head :: (lead ++ more)) ++ colon :: run := by simp
  refine ⟨(head :: (lead ++ more)) ++ [colon], run, by rw [hsplit, List.append_cons], ?_, hrun⟩
  rw [hsplit]
  refine behindColon_eq ?_ hcolon
  rw [List.forall_mem_cons, List.forall_mem_append]
  refine ⟨?_, fun t ht => ?_, fun t ht => ?_⟩
  · rcases hhead with hhead | hhead <;> rw [hhead] <;> decide
  · by_cases hkind : t.kind = .comment
    · rw [hkind]
      decide
    · have hmem : t ∈ gap := by
        rw [← hlead]
        exact List.mem_filter.mpr ⟨ht, bne_iff_ne.mpr hkind⟩
      rw [Token.isSpace_iff.mp (Token.blank_iff.mp hgap t hmem)]
      decide
  · have hkind : t.kind = .comment := by
      simpa using hmore t ht
    rw [hkind]
    decide

/-- The run that the text of a node stands for, in its source. -/
structure Stands (src text : Text) (run : List Token) : Prop where
  text : text = Token.raw (withoutComments run)
  bounded : ∃ front mark back, Lexer.lex 0 src = front ++ (run ++ mark :: back) ∧
    Segment.isMark mark = true

section Stands

variable {src : Text} {before after : List Token}

/-- The selector of a rule stands for the tokens from its first one on. -/
theorem stands_selector {selector : List Token} {first opening : Token}
    (hsegment : IsSegment selector) (hfirst : BeginsWith selector first)
    (hopening : opening.kind = .openBrace)
    (h : before ++ (selector ++ [opening]) ++ after = withoutComments (Lexer.lex 0 src)) :
    Stands src (Token.raw selector) (Source.tokensAt src first.offset) := by
  obtain ⟨lead, rest, hlead, -, rfl⟩ := hfirst
  have hmark : Segment.isMark opening = true := isMark_iff.mpr (.inr (.inl hopening))
  have hunmarked := hsegment.unmarked
  rw [List.forall_mem_append, List.forall_mem_cons] at hunmarked
  obtain ⟨-, hfirst, hrest⟩ := hunmarked
  have hsplit : withoutComments (Lexer.lex 0 src) =
      (before ++ lead) ++ first :: (rest ++ opening :: after) := by
    rw [← h]
    simp
  have hkept : first.kind ≠ .comment := by
    have hmem : first ∈ withoutComments (Lexer.lex 0 src) := by
      rw [hsplit]
      exact List.mem_append_right _ List.mem_cons_self
    exact bne_iff_ne.mp (List.mem_filter.mp hmem).2
  obtain ⟨front, body, back, hlex, hbody, hrun⟩ := exists_run hsplit hrest
  rw [tokensAt_eq hlex hfirst hrun hmark]
  refine ⟨?_, front, opening, back, by rw [hlex, List.cons_append], hmark⟩
  rw [Token.withoutComments_cons_of_ne hkept, hbody, ← Token.raw_trim,
    Token.trim_blank_append hlead, Token.raw_trim]

/-- The value of a declaration stands for the tokens behind the first colon. -/
theorem stands_value {head colon mark : Token} {gap value : List Token} {raw : Text}
    (hsegment : IsSegment (head :: (gap ++ colon :: value)))
    (hhead : head.kind = .ident ∨ head.kind = .customProperty) (hgap : Token.blank gap)
    (hcolon : colon.kind = .colon) (hmark : Segment.isMark mark = true)
    (hraw : valueOfDeclaration (Token.trim value) = .word raw)
    (h : before ++ (head :: (gap ++ colon :: value) ++ [mark]) ++ after =
      withoutComments (Lexer.lex 0 src)) :
    Stands src raw (Token.behindColon (Source.tokensAt src head.offset)) := by
  have hunmarked := hsegment.unmarked
  rw [List.forall_mem_cons] at hunmarked
  have hsplit : withoutComments (Lexer.lex 0 src) =
      before ++ head :: ((gap ++ colon :: value) ++ mark :: after) := by
    rw [← h]
    simp
  obtain ⟨front, body, back, hlex, hbody, hrest⟩ := exists_run hsplit hunmarked.2
  obtain ⟨lead, run, hcut, hrun, hvalue⟩ := exists_behindColon hhead hgap hcolon hbody
  rw [tokensAt_eq hlex hunmarked.1 hrest hmark, hrun]
  refine ⟨?_, front ++ lead, mark, back, ?_, hmark⟩
  · rw [raw_of_valueOfDeclaration hraw, Token.raw_trim, hvalue]
  · rw [hlex, ← List.cons_append, hcut]
    simp

/-- The text and the run of a node, from the tokens that it is read from. -/
theorem Reads.stands {part : List Token} {n : Node} (h : Reads (Source.ofText src) part n)
    (hpart : part <:+: withoutComments (Lexer.lex 0 src)) {text : Text} {run : List Token}
    (hstored : n.stored? src = some (text, run)) : Stands src text run := by
  obtain ⟨before, after, hpart⟩ := hpart
  cases h with
  | rule children hsegment hfirst hopening =>
    obtain ⟨rfl, rfl⟩ := Prod.mk.inj (Option.some.inj hstored)
    exact stands_selector hsegment hfirst hopening hpart
  | statement hsegment hn hmark =>
    rcases hn with hn | hn
    · cases hn with
      | @intro head colon gap value hhead hgap hcolon hvalue =>
        cases hword : valueOfDeclaration (Token.trim value) with
        | word raw =>
          rw [hword] at hstored
          obtain ⟨rfl, rfl⟩ := Prod.mk.inj (Option.some.inj hstored)
          exact stands_value hsegment hhead hgap hcolon hmark hword hpart
        | _ =>
          rw [hword] at hstored
          cases hstored
    · cases hn with
      | intro => cases hstored

end Stands

end Grammar

/-- Every text that a sheet keeps holds the words of its run, with a space for
    each white space between them. If the words stay apart in it, it is read as
    the words of the run, with white space at the same places. -/
theorem stored_text_reads_back {src : Text} {sheet : Sheet} (h : parse src = .ok sheet) :
    ∀ text run, (text, run) ∈ Sheet.stored src sheet →
      text = (words run).flatMap Word.text ∧
      (Lexer.Separated run →
        (words (Lexer.lex 0 text)).map Word.shown = (words run).map Word.shown ∧
        ∀ t ∈ Lexer.lex 0 text, t.kind ≠ .comment) := by
  intro text run hmem
  obtain ⟨n, hn, hstored⟩ := List.mem_filterMap.mp hmem
  obtain ⟨part, hpart, hreads⟩ := parse_reads h n hn
  obtain ⟨htext, front, mark, back, hlex, hmark⟩ := hreads.stands hpart hstored
  rw [Token.raw_withoutComments] at htext
  refine ⟨htext, fun hsep => ?_⟩
  obtain ⟨x, hx, hlexemes⟩ := Grammar.exists_stopped hlex hmark
  obtain ⟨ts, htokens, -⟩ := parse_eq_ok_iff.mp h
  have hgood := (Grammar.tokens_eq_ok_iff.mp htokens).1
  rw [htext]
  refine hlexemes.words_lex hx (fun t ht => (hgood t ?_).2) hsep
  rw [hlex]
  exact List.mem_append_right _ (List.mem_append_left _ ht)

/-- Comments beside white space, beside marks and behind names, and line breaks. -/
theorem stored_text_reads_back_with_comments :
    let src := utf8 ("a\n> .b,/* 1 */.c1/* 2 */.d:not(/* 3 */e)/* 4 */ f \x7b " ++
      "margin:/* 5 */1px\t/* 6 */, rgb(/* 7 */1\r\n,2) red/* 8 */!x ; \x7d")
    ∃ sheet, parse src = .ok sheet ∧
      (Sheet.stored src sheet).map Prod.fst =
        [utf8 "a > .b,.c1.d:not(e) f", utf8 "1px , rgb(1 ,2) red!x"] ∧
      ∀ p ∈ Sheet.stored src sheet,
        (words (Lexer.lex 0 p.1)).map Word.shown = (words p.2).map Word.shown := by
  intro src
  have hstored : (parse src).toOption.map (fun sheet => ((Sheet.stored src sheet).map Prod.fst,
      decide (∀ p ∈ Sheet.stored src sheet, Lexer.Separated p.2))) =
      some ([utf8 "a > .b,.c1.d:not(e) f", utf8 "1px , rgb(1 ,2) red!x"], true) := by
    decide +kernel
  obtain ⟨sheet, hparse, heq⟩ := Option.map_eq_some_iff.mp hstored
  rw [toOption_eq_some_iff] at hparse
  obtain ⟨htexts, hsep⟩ := Prod.mk.inj heq
  refine ⟨sheet, hparse, htexts, fun p hp => ?_⟩
  exact ((stored_text_reads_back hparse p.1 p.2 hp).2 (of_decide_eq_true hsep p hp)).1

/-- The texts that a sheet keeps, with the words that each of them is read as and
    the words that it stands for. -/
def Sheet.reread (src : Text) (sheet : Sheet) : List (Text × List Text × List Text) :=
  (Sheet.stored src sheet).map fun p =>
    (p.1, (words (Lexer.lex 0 p.1)).map (·.token.text), (words p.2).map (·.token.text))

/-- White space on both sides of a comment is kept as two spaces, and words that
    only a comment stands between are read as one. So are words with white space
    between them that an escape in front of it takes. -/
theorem stored_text_reads_other_words :
    let spaced := utf8 ".a /* c */ .b \x7b\x7d"
    let touching := utf8 "a/**/b \x7b\x7d"
    let escaped := utf8 "\\41/**/ b \x7b\x7d"
    (parse spaced).toOption.elim [] (Sheet.reread spaced) =
        [(utf8 ".a  .b", [utf8 ".", utf8 "a", utf8 ".", utf8 "b"],
          [utf8 ".", utf8 "a", utf8 ".", utf8 "b"])] ∧
      (parse touching).toOption.elim [] (Sheet.reread touching) =
        [(utf8 "ab", [utf8 "ab"], [utf8 "a", utf8 "b"])] ∧
      (parse escaped).toOption.elim [] (Sheet.reread escaped) =
        [(utf8 "\\41 b", [utf8 "\\41 b"], [utf8 "\\41", utf8 "b"])] := by
  decide +kernel

end MixinCss
