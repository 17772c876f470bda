/-
  MixinCss.Proofs.Grammar.Spelling

  Texts that are read as the same tokens wherever they stand in front of a stop.
  `Spells ts w` says so of the text `w`. What is kept of a segment of a source
  without escapes and comments is such a text (`Clean.spells`), and so is the
  value of a declaration as it is written (`Clean.spells_value`).
-/

import MixinCss.Proofs.Decimal.Numeral
import MixinCss.Proofs.Grammar.Document
import MixinCss.Proofs.Grammar.Relocation
import MixinCss.Sheet.Render

namespace MixinCss.Grammar

open Lexer (Lexemes Stopped lexemes_append)
open Token (textOf squeezed)

/-! ## Segments -/

variable {ts us : List Token}

theorem IsSegment.append (hts : IsSegment ts) (hus : IsSegment us) : IsSegment (ts ++ us) := by
  refine ⟨List.forall_mem_append.2 ⟨hts.unmarked, hus.unmarked⟩, fun front hfront => ?_, ?_⟩
  · obtain ⟨back, hback⟩ := hfront
    rcases List.append_eq_append_iff.1 hback with ⟨rest, rfl, -⟩ | ⟨rest, rfl, rfl⟩
    · exact hts.neverBelow front (List.prefix_append front rest)
    · rw [level_append, hts.closed, Int.zero_add]
      exact hus.neverBelow rest (List.prefix_append rest back)
  · rw [level_append, hts.closed, hus.closed]
    rfl

/-- Behind a closed front the rest of a segment is one. -/
theorem IsSegment.of_append (h : IsSegment (ts ++ us)) (hts : level ts = 0) : IsSegment us := by
  refine ⟨fun t ht => h.unmarked t (List.mem_append_right ts ht), fun front hfront => ?_, ?_⟩
  · have hbelow := h.neverBelow (ts ++ front) ((List.prefix_append_right_inj ts).2 hfront)
    rwa [level_append, hts, Int.zero_add] at hbelow
  · have hclosed := h.closed
    rwa [level_append, hts, Int.zero_add] at hclosed

/-- In front of white space the rest of a segment is one. -/
theorem IsSegment.of_append_blank (h : IsSegment (ts ++ us)) (hus : Token.blank us) :
    IsSegment ts := by
  refine ⟨fun t ht => h.unmarked t (List.mem_append_left us ht), fun front hfront => ?_, ?_⟩
  · exact h.neverBelow front (hfront.trans (List.prefix_append ts us))
  · have hclosed := h.closed
    rwa [level_append, level_of_blank hus, Int.add_zero] at hclosed

theorem IsSegment.trim (h : IsSegment ts) : IsSegment (Token.trim ts) := by
  obtain ⟨lead, trail, hlead, htrail, heq⟩ := Token.exists_eq_trim ts
  rw [heq] at h
  exact (h.of_blank_append hlead).of_append_blank htrail

theorem IsSegment.squeezed (h : IsSegment ts) : IsSegment (ts.map squeezed) := by
  refine h.of_kinds ?_
  rw [List.map_map]
  exact List.map_congr_left fun t _ => Token.squeezed_kind t

/-- Tokens that neither open nor close nor end anything are a segment. -/
theorem isSegment_of_flat (h : ∀ t ∈ ts, t.nesting = 0 ∧ Segment.isMark t = false) :
    IsSegment ts := by
  have hlevel : ∀ vs : List Token, vs ⊆ ts → level vs = 0 := by
    intro vs hvs
    induction vs with
    | nil => rfl
    | cons v vs ih =>
      rw [List.cons_subset] at hvs
      rw [level_cons, (h v hvs.1).1, ih hvs.2]
      rfl
  exact ⟨fun t ht => (h t ht).2, fun front hfront => Int.le_of_eq (hlevel front hfront.subset).symm,
    hlevel ts (List.Subset.refl ts)⟩

/-! ## Spelling -/

/-- Neither a bad token nor a comment. -/
def IsGood (t : Token) : Prop := t.kind ≠ .badString ∧ t.kind ≠ .badUrl ∧ t.kind ≠ .comment

instance (t : Token) : Decidable (IsGood t) := inferInstanceAs (Decidable (_ ∧ _ ∧ _))

/-- Wherever it stands in front of a stop, the text `w` is read as the segment
    `ts`. The segment has no white space at its ends, and a single space
    wherever it has white space. -/
structure Spells (ts : List Token) (w : Text) : Prop where
  text : textOf ts = w
  lexemes : ∀ y, Stopped y → Lexemes ts y
  segment : IsSegment ts
  trimmed : Token.trim ts = ts
  squeezed : ts.map squeezed = ts
  nonempty : ts ≠ []
  good : ∀ t ∈ ts, IsGood t

theorem Spells.raw {w : Text} (h : Spells ts w) : Token.raw ts = w := by
  rw [Token.raw_eq_textOf, h.trimmed, h.squeezed, h.text]

theorem Spells.not_blank {w : Text} (h : Spells ts w) : ¬ Token.blank ts := by
  rw [← Token.trim_eq_nil_iff, h.trimmed]
  exact h.nonempty

/-- Tokens that the lexer finds in front of `rest`. None of them is bad or a
    comment, and they have neither a backslash nor a parent mark in them. -/
structure Clean (ts : List Token) (rest : Text) : Prop where
  lexemes : Lexemes ts rest
  backslash : ascii '\\' ∉ textOf ts
  parent : ascii '&' ∉ textOf ts
  good : ∀ t ∈ ts, IsGood t

theorem clean_append {rest : Text} :
    Clean (ts ++ us) rest ↔ Clean ts (textOf us ++ rest) ∧ Clean us rest := by
  constructor
  · intro h
    obtain ⟨hts, hus⟩ := lexemes_append.1 h.lexemes
    have hslash := h.backslash
    have hparent := h.parent
    have hgood := List.forall_mem_append.1 h.good
    rw [Token.textOf_append, List.mem_append, not_or] at hslash hparent
    exact ⟨⟨hts, hslash.1, hparent.1, hgood.1⟩, ⟨hus, hslash.2, hparent.2, hgood.2⟩⟩
  · rintro ⟨hts, hus⟩
    refine ⟨lexemes_append.2 ⟨hts.lexemes, hus.lexemes⟩, ?_, ?_,
      List.forall_mem_append.2 ⟨hts.good, hus.good⟩⟩
    · rw [Token.textOf_append, List.mem_append, not_or]
      exact ⟨hts.backslash, hus.backslash⟩
    · rw [Token.textOf_append, List.mem_append, not_or]
      exact ⟨hts.parent, hus.parent⟩

theorem clean_cons {t : Token} {rest : Text} :
    Clean (t :: ts) rest ↔ Clean [t] (textOf ts ++ rest) ∧ Clean ts rest := by
  rw [← List.singleton_append, clean_append]

theorem stopped_of_blank {trail : List Token} {rest : Text} (h : Lexemes trail rest)
    (htrail : Token.blank trail) (hrest : Stopped rest) : Stopped (textOf trail ++ rest) := by
  cases trail with
  | nil => exact hrest
  | cons t trail =>
    rw [Token.blank_cons, Bool.and_eq_true, Token.isSpace_iff] at htrail
    rw [Token.textOf_cons, List.append_assoc]
    exact Lexer.stopped_of_space h.1 htrail.1 _

theorem Clean.trim {rest : Text} (h : Clean ts rest) (hrest : Stopped rest) :
    ∃ more, Stopped more ∧ Clean (Token.trim ts) more := by
  obtain ⟨lead, trail, -, htrail, heq⟩ := Token.exists_eq_trim ts
  rw [heq, clean_append, clean_append] at h
  exact ⟨_, stopped_of_blank h.2.2.lexemes htrail hrest, h.2.1⟩

/-- What is kept of a segment is read as the segment without white space at its
    ends. -/
theorem Clean.spells {rest : Text} (h : Clean ts rest) (hrest : Stopped rest)
    (hsegment : IsSegment ts) (hblank : ¬ Token.blank ts) :
    Spells ((Token.trim ts).map squeezed) (Token.raw ts) := by
  obtain ⟨more, hmore, hclean⟩ := h.trim hrest
  refine ⟨(Token.raw_eq_textOf ts).symm, fun y hy => ?_, hsegment.trim.squeezed, ?_, ?_, ?_, ?_⟩
  · exact Lexer.lexemes_squeezed hclean.lexemes hmore hy hclean.backslash
      (fun t ht => (hclean.good t ht).2.1) fun t ht => Token.isSpace_of_getLast?_trim ht
  · rw [Token.trim_map Token.squeezed_isSpace, Token.trim_trim]
  · rw [List.map_map]
    exact List.map_congr_left fun t _ => Token.squeezed_squeezed t
  · rw [ne_eq, List.map_eq_nil_iff, Token.trim_eq_nil_iff]
    exact hblank
  · intro u hu
    obtain ⟨t, ht, rfl⟩ := List.mem_map.1 hu
    unfold IsGood
    rw [Token.squeezed_kind]
    exact hclean.good t ht

/-- No parent mark comes into what is kept of tokens. -/
theorem Clean.parent_not_mem_raw {rest : Text} (h : Clean ts rest) : ascii '&' ∉ Token.raw ts := by
  obtain ⟨lead, trail, -, -, heq⟩ := Token.exists_eq_trim ts
  rw [heq, clean_append, clean_append] at h
  intro hmem
  obtain ⟨t, ht, hbyte⟩ := List.mem_flatMap.1 hmem
  split at hbyte
  · exact absurd hbyte (by decide)
  · exact h.2.1.parent (List.mem_flatMap.2 ⟨t, ht, hbyte⟩)

/-! ## Values -/

theorem map_squeezed_of_not_isSpace (h : ∀ t ∈ ts, t.isSpace = false) : ts.map squeezed = ts :=
  (List.map_congr_left fun t ht => Token.squeezed_of_not_isSpace (h t ht)).trans (List.map_id ts)

theorem raw_of_not_isSpace (h : ∀ t ∈ ts, t.isSpace = false) : Token.raw ts = textOf ts := by
  rw [Token.raw_eq_textOf, Token.trim_of_not_isSpace h, map_squeezed_of_not_isSpace h]

theorem raw_squeezed (ts : List Token) : Token.raw (ts.map squeezed) = Token.raw ts := by
  rw [Token.raw_eq_textOf, Token.raw_eq_textOf, Token.trim_map Token.squeezed_isSpace, List.map_map]
  exact congrArg textOf (List.map_congr_left fun t _ => Token.squeezed_squeezed t)

theorem squeezed_of_kind {t : Token} {kind : TokenKind} (h : t.kind = kind)
    (hkind : kind ≠ .whitespace) : t.squeezed = t :=
  Token.squeezed_of_not_isSpace (Token.isSpace_of_kind h hkind)

theorem reference?_squeezed : ∀ ts : List Token, reference? (ts.map squeezed) = reference? ts
  | [] => rfl
  | [t] => by
    show (if t.squeezed.kind = _ then some (Value.variable t.squeezed.text) else none) = _
    rw [Token.squeezed_kind, reference?]
    split
    · rename_i h
      rw [squeezed_of_kind h (by decide)]
    · rfl
  | [dollar, t] => by
    show (if dollar.squeezed.kind = _ ∧ dollar.squeezed.text = _ ∧ t.squeezed.kind = _ then
      some (Value.variable (ascii '$' :: t.squeezed.text)) else none) = _
    rw [Token.squeezed_kind, Token.squeezed_kind, reference?]
    by_cases h : dollar.kind = .delim ∧ t.kind = .ident
    · rw [squeezed_of_kind h.1 (by decide), squeezed_of_kind h.2 (by decide)]
    · rw [if_neg fun hif => h ⟨hif.1, hif.2.2⟩, if_neg fun hif => h ⟨hif.1, hif.2.2⟩]
  | _ :: _ :: _ :: _ => rfl

theorem valueOfDeclaration_squeezed (ts : List Token) :
    valueOfDeclaration (ts.map squeezed) = valueOfDeclaration ts := by
  unfold valueOfDeclaration
  rw [reference?_squeezed, raw_squeezed]
  match ts with
  | [] => rfl
  | [t] =>
    show (if t.squeezed.kind = .number then (number? t.squeezed).getD _ else _) =
      if t.kind = .number then (number? t).getD _ else _
    rw [Token.squeezed_kind]
    by_cases h : t.kind = .number
    · rw [if_pos h, if_pos h, squeezed_of_kind h (by decide)]
    · rw [if_neg h, if_neg h]
  | _ :: _ :: _ => rfl

theorem render_reference {v : Value} (h : reference? ts = some v) (unit : Text) :
    v.render unit = Token.raw ts := by
  match ts, h with
  | [t], h =>
    rw [reference?] at h
    split at h
    · rename_i hkind
      cases h
      rw [raw_of_not_isSpace (by simpa using Token.isSpace_of_kind hkind (by decide))]
      exact (List.append_nil t.text).symm
    · cases h
  | [dollar, t], h =>
    rw [reference?] at h
    split at h
    · rename_i hif
      cases h
      have hdollar := Token.isSpace_of_kind hif.1 (by decide)
      have ht := Token.isSpace_of_kind hif.2.2 (by decide)
      rw [raw_of_not_isSpace (by simp [hdollar, ht]), Token.textOf_cons, hif.2.1]
      exact (congrArg (ascii '$' :: ·) (List.append_nil t.text)).symm
    · cases h

/-- A value is written as it is given, unless it is a number by itself. -/
theorem render_valueOfDeclaration (ts : List Token) :
    (∃ t f, ts = [t] ∧ valueOfDeclaration ts = .number t.text f) ∨
      ∀ unit, (valueOfDeclaration ts).render unit = Token.raw ts := by
  have hplain (unit : Text) :
      Value.render unit ((reference? ts).getD (.word (Token.raw ts))) = Token.raw ts := by
    cases href : reference? ts with
    | none => rfl
    | some v => exact render_reference href unit
  match ts, hplain with
  | [], hplain => exact .inr hplain
  | [t], hplain =>
    by_cases hkind : t.kind = .number
    · cases hread : Decimal.read t.text with
      | ok f =>
        refine .inl ⟨t, f, rfl, ?_⟩
        simp only [valueOfDeclaration, if_pos hkind, number?, hread, Option.getD_some]
      | error e =>
        refine .inr fun unit => ?_
        simp only [valueOfDeclaration, if_pos hkind, number?, hread, Option.getD_none]
        exact hplain unit
    · refine .inr fun unit => ?_
      simp only [valueOfDeclaration, if_neg hkind]
      exact hplain unit
  | _ :: _ :: _, hplain => exact .inr hplain

/-! ## Numbers -/

/-- A token that stands for itself: no white space, no parenthesis or bracket,
    no mark, and not bad. -/
def IsFlat (t : Token) : Prop :=
  t.nesting = 0 ∧ Segment.isMark t = false ∧ t.isSpace = false ∧ IsGood t

instance (t : Token) : Decidable (IsFlat t) := inferInstanceAs (Decidable (_ ∧ _ ∧ _ ∧ _))

theorem isFlat_of_kind {t : Token} (kind : TokenKind) (h : t.kind = kind)
    (hkind : IsFlat ⟨kind, [], 0⟩) : IsFlat t := by
  subst h
  exact hkind

/-- For flat tokens it is enough to look at one stop. -/
theorem spells_of_flat {w : Text} (htext : textOf ts = w) (hne : ts ≠ [])
    (hlexemes : Lexemes ts [ascii ';']) (hslash : ascii '\\' ∉ w) (hflat : ∀ t ∈ ts, IsFlat t) :
    Spells ts w := by
  have hspace : ∀ t ∈ ts, t.isSpace = false := fun t ht => (hflat t ht).2.2.1
  have hsqueezed := map_squeezed_of_not_isSpace hspace
  refine ⟨htext, fun y hy => ?_, isSegment_of_flat fun t ht => ⟨(hflat t ht).1, (hflat t ht).2.1⟩,
    Token.trim_of_not_isSpace hspace, hsqueezed, hne, fun t ht => (hflat t ht).2.2.2⟩
  rw [← hsqueezed]
  exact Lexer.lexemes_squeezed hlexemes (.intro (by decide)) hy (htext ▸ hslash)
    (fun t ht => (hflat t ht).2.2.2.2.1) fun t ht => hspace t (List.mem_of_getLast? ht)

open Decimal (IsNumeral)
open Lexer (quantity usualUnits)

theorem spells_quantity {w unit : Text} (h : IsNumeral w) (hunit : unit ∈ usualUnits) :
    Spells [quantity w unit] (w ++ unit) := by
  refine spells_of_flat (List.append_nil _) (List.cons_ne_nil _ _)
    ⟨Lexer.isLexeme_numeral h hunit, trivial⟩ ?_ fun t ht => ?_
  · rw [List.mem_append, not_or]
    exact ⟨h.backslash_not_mem, (by decide : ∀ u ∈ usualUnits, ascii '\\' ∉ u) unit hunit⟩
  · obtain rfl := List.mem_singleton.1 ht
    unfold quantity
    split
    · exact isFlat_of_kind .number rfl (by decide)
    · exact isFlat_of_kind .dimension rfl (by decide)

/-- What is not finite is written as a word. -/
theorem spells_word {w unit : Text} (hw : w ∈ Decimal.words) (hunit : unit ∈ usualUnits) :
    Spells (Lexer.lex 0 (w ++ unit)) (w ++ unit) ∧
      (valueOfDeclaration (Lexer.lex 0 (w ++ unit))).render unit = w ++ unit := by
  -- There are nine such texts.
  obtain ⟨hlex, hne, hslash, hflat, hvalue⟩ :=
    (by decide +kernel : ∀ w ∈ Decimal.words, ∀ unit ∈ usualUnits,
      Lexer.lex 0 (w ++ unit ++ [ascii ';']) =
          Lexer.lex 0 (w ++ unit) ++ [⟨.semicolon, [ascii ';'], (w ++ unit).length⟩] ∧
        Lexer.lex 0 (w ++ unit) ≠ [] ∧ ascii '\\' ∉ w ++ unit ∧
        (∀ t ∈ Lexer.lex 0 (w ++ unit), IsFlat t) ∧
        (valueOfDeclaration (Lexer.lex 0 (w ++ unit))).render unit = w ++ unit) w hw unit hunit
  have hlexemes := Lexer.lexemes_lex 0 (w ++ unit ++ [ascii ';'])
  rw [hlex, lexemes_append] at hlexemes
  exact ⟨spells_of_flat (Lexer.lex_flatMap_text 0 _) hne hlexemes.1 hslash hflat, hvalue⟩

/-- How a number is written, with the unit behind it, is read as a value that is
    written in the same way. The assumption is that the digits of the number
    read back as a number with the same digits. -/
theorem spells_number {f : Float} {unit : Text} (hunit : unit ∈ usualUnits)
    (hdigits : (Decimal.read (Decimal.format f)).map Decimal.format = .ok (Decimal.format f)) :
    ∃ ts, Spells ts (Decimal.format f ++ unit) ∧
      (valueOfDeclaration ts).render unit = Decimal.format f ++ unit := by
  obtain ⟨g, hread, hformat⟩ := map_eq_ok_iff.1 hdigits
  rcases Decimal.format_cases f with hnumeral | hword
  · refine ⟨[quantity (Decimal.format f) unit], spells_quantity hnumeral hunit, ?_⟩
    -- With a unit behind it the number is kept as a word when it is read again.
    by_cases hnil : unit = []
    · subst hnil
      have hvalue : valueOfDeclaration [quantity (Decimal.format f) []] =
          .number (Decimal.format f) g := by
        simp [valueOfDeclaration, quantity, number?, hread]
      rw [hvalue, Value.render, hformat]
    · have hvalue : valueOfDeclaration [quantity (Decimal.format f) unit] =
          .word (Token.raw [quantity (Decimal.format f) unit]) := by
        simp [valueOfDeclaration, quantity, reference?, hnil]
      rw [hvalue, Value.render, (spells_quantity hnumeral hunit).raw]
  · exact ⟨_, spells_word hword hunit⟩

/-- The value of a declaration, as it is written, is read as a value that is
    written in the same way. -/
theorem Clean.spells_value {rest unit : Text} (h : Clean ts rest) (hrest : Stopped rest)
    (hsegment : IsSegment ts) (hblank : ¬ Token.blank ts) (hunit : unit ∈ usualUnits)
    (hnumber : ∀ raw f, valueOfDeclaration (Token.trim ts) = .number raw f →
      (Decimal.read (Decimal.format f)).map Decimal.format = .ok (Decimal.format f)) :
    ∃ us, Spells us ((valueOfDeclaration (Token.trim ts)).render unit) ∧
      (valueOfDeclaration us).render unit = (valueOfDeclaration (Token.trim ts)).render unit := by
  rcases render_valueOfDeclaration (Token.trim ts) with ⟨t, f, -, hvalue⟩ | hraw
  · rw [hvalue, Value.render]
    exact spells_number hunit (hnumber t.text f hvalue)
  · refine ⟨(Token.trim ts).map squeezed, ?_, by rw [valueOfDeclaration_squeezed]⟩
    rw [hraw, Token.raw_trim]
    exact h.spells hrest hsegment hblank

end MixinCss.Grammar
