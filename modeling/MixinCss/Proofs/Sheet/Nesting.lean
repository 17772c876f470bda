/-
  MixinCss.Proofs.Sheet.Nesting

  Nested selectors as tokens and as text. The printer takes the text of a
  selector apart byte by byte, at commas outside of parentheses and brackets,
  and puts the enclosing selector for every `&` in it. The tokens of the selector
  say which of these bytes are meant: a string, an address or an escape may hold
  any of them without a meaning.

  Where no string, address or escape holds such a byte in a place where it
  counts, the text is taken apart just as the tokens are
  (`Selector.substitute_eq_expansion`).
-/

import MixinCss.Proofs.Grammar.Document
import MixinCss.Proofs.Sheet.Selector
import MixinCss.Proofs.Text.Wellformed
import MixinCss.Proofs.Token.Bytes

namespace MixinCss

namespace Selector

open Token (textOf squeezed)

/-! ## Brackets and commas in a text -/

/-- How the nesting of parentheses and brackets changes at a byte. -/
def byteNesting (b : UInt8) : Int :=
  if b = ascii '(' || b = ascii '[' then 1
  else if b = ascii ')' || b = ascii ']' then -1
  else 0

/-- How many more parentheses and brackets are open behind a text. -/
def byteLevel : Text → Int
  | [] => 0
  | b :: rest => byteNesting b + byteLevel rest

/-- No comma stands where everything is closed, if the text begins at `depth`. -/
def CommasInside (depth : Int) : Text → Prop
  | [] => True
  | b :: rest => (b = ascii ',' → depth ≠ 0) ∧ CommasInside (depth + byteNesting b) rest

instance CommasInside.decidable : (depth : Int) → (t : Text) → Decidable (CommasInside depth t)
  | _, [] => .isTrue trivial
  | depth, b :: rest =>
    have := CommasInside.decidable (depth + byteNesting b) rest
    inferInstanceAs (Decidable (_ ∧ _))

theorem byteLevel_append (x y : Text) : byteLevel (x ++ y) = byteLevel x + byteLevel y := by
  induction x with
  | nil => rw [List.nil_append, byteLevel, Int.zero_add]
  | cons b rest ih => rw [List.cons_append, byteLevel, ih, byteLevel, Int.add_assoc]

theorem commasInside_append {depth : Int} {x y : Text} (hx : CommasInside depth x)
    (hy : CommasInside (depth + byteLevel x) y) : CommasInside depth (x ++ y) := by
  induction x generalizing depth with
  | nil =>
    rw [byteLevel, Int.add_zero] at hy
    exact hy
  | cons b rest ih =>
    rw [byteLevel, ← Int.add_assoc] at hy
    exact ⟨hx.1, ih hx.2 hy⟩

/-- A text without any of the bytes that matter. -/
theorem commasInside_of_isPlain {t : Text} (h : Lexer.IsPlain t) (depth : Int) :
    CommasInside depth t ∧ byteLevel t = 0 := by
  induction t generalizing depth with
  | nil => exact ⟨trivial, rfl⟩
  | cons b rest ih =>
    obtain ⟨hb, hrest⟩ := List.forall_mem_cons.mp h
    simp only [Lexer.listMarks, List.mem_cons, List.not_mem_nil, or_false, not_or] at hb
    have hnesting : byteNesting b = 0 := by simp [byteNesting, hb]
    obtain ⟨hcommas, hlevel⟩ := ih hrest (depth + byteNesting b)
    refine ⟨⟨fun heq => absurd heq hb.2.1, hcommas⟩, ?_⟩
    rw [byteLevel, hnesting, hlevel, Int.add_zero]

theorem cut_cons (depth : Int) (b : UInt8) (rest : Text) :
    cut depth (b :: rest) =
      if b = ascii ',' ∧ depth = 0 then [] :: cut depth rest
      else (cut (depth + byteNesting b) rest).modifyHead (b :: ·) := by
  have hinside : (if b = ascii '(' || b = ascii '[' then depth + 1
      else if b = ascii ')' || b = ascii ']' then depth - 1 else depth) =
      depth + byteNesting b := by
    unfold byteNesting
    split
    · rfl
    · split <;> omega
  rw [cut, hinside]
  simp only [Bool.and_eq_true, decide_eq_true_eq]
  split
  · rfl
  · obtain ⟨part, parts, hparts⟩ :=
      List.exists_cons_of_ne_nil (cut_ne_nil (depth + byteNesting b) rest)
    rw [hparts]
    rfl

/-- A text without commas to cut at belongs to the first part. -/
theorem cut_append {depth : Int} {x : Text} (h : CommasInside depth x) (y : Text) :
    cut depth (x ++ y) = (cut (depth + byteLevel x) y).modifyHead (x ++ ·) := by
  induction x generalizing depth with
  | nil =>
    rw [List.nil_append, byteLevel, Int.add_zero]
    obtain ⟨part, parts, hparts⟩ := List.exists_cons_of_ne_nil (cut_ne_nil depth y)
    rw [hparts]
    rfl
  | cons b rest ih =>
    obtain ⟨hcomma, hrest⟩ := h
    rw [List.cons_append, cut_cons, if_neg fun hcut => hcomma hcut.1 hcut.2, ih hrest,
      List.modifyHead_modifyHead, byteLevel, ← Int.add_assoc]
    rfl

/-! ## Tokens and their text -/

/-- At `depth`, a text says about brackets and commas what its token says: it
    changes the nesting as the token does, and has no comma to cut at. -/
def Agrees (depth : Int) (t : Token) (text : Text) : Prop :=
  CommasInside depth text ∧ byteLevel text = t.nesting

instance (depth : Int) (t : Token) (text : Text) : Decidable (Agrees depth t text) :=
  inferInstanceAs (Decidable (_ ∧ _))

/-- The tokens of a list that are no separating commas say what their text says. -/
def AgreesFrom (depth : Int) : List Token → Prop
  | [] => True
  | t :: ts =>
    (if t.kind = .comma ∧ depth = 0 then t.text = [ascii ','] else Agrees depth t t.squeezed.text) ∧
      AgreesFrom (depth + t.nesting) ts

/-- Then the text is cut into the texts of the groups of tokens. -/
theorem cut_textOf {depth : Int} {ts : List Token} (h : AgreesFrom depth ts) :
    cut depth (textOf (ts.map squeezed)) =
      (Grammar.splitFrom .comma depth ts).map fun group => textOf (group.map squeezed) := by
  induction ts generalizing depth with
  | nil => rfl
  | cons t ts ih =>
    obtain ⟨ht, hts⟩ := h
    rw [List.map_cons, Token.textOf_cons, Grammar.splitFrom_cons]
    by_cases hcomma : t.kind = .comma ∧ depth = 0
    · have hnesting : t.nesting = 0 := by
        unfold Token.nesting
        rw [hcomma.1]
      have hspace : t.isSpace = false := Token.isSpace_eq_false_iff.mpr (by rw [hcomma.1]; decide)
      rw [if_pos hcomma] at ht
      rw [hnesting, Int.add_zero] at hts
      rw [if_pos hcomma, Token.squeezed_of_not_isSpace hspace, ht, List.singleton_append, cut_cons,
        if_pos ⟨rfl, hcomma.2⟩, ih hts]
      rfl
    · rw [if_neg hcomma] at ht
      obtain ⟨hcommas, hlevel⟩ := ht
      rw [if_neg hcomma, cut_append hcommas, hlevel, ih hts]
      obtain ⟨group, groups, hgroups⟩ :=
        List.exists_cons_of_ne_nil (Grammar.splitFrom_ne_nil .comma (depth + t.nesting) ts)
      rw [hgroups]
      rfl

/-! ## Tokens of a source -/

/-- Tokens that may hold a byte without its meaning: strings, addresses and all
    that have an escape. -/
def quotes (t : Token) : Bool :=
  t.kind == .string || t.kind == .url || t.text.contains (ascii '\\')

/-- Strings, addresses and escapes hold no bracket or comma that counts. -/
def QuotesAgreeFrom (depth : Int) : List Token → Prop
  | [] => True
  | t :: ts =>
    (quotes t = true → Agrees depth t t.text) ∧ QuotesAgreeFrom (depth + t.nesting) ts

instance QuotesAgreeFrom.decidable :
    (depth : Int) → (ts : List Token) → Decidable (QuotesAgreeFrom depth ts)
  | _, [] => .isTrue trivial
  | depth, t :: ts =>
    have := QuotesAgreeFrom.decidable (depth + t.nesting) ts
    inferInstanceAs (Decidable (_ ∧ _))

theorem agrees_of_hasBytes {t : Token} {text : Text} (h : Lexer.HasBytes t.kind text)
    {depth : Int} (hcomma : ¬ (t.kind = .comma ∧ depth = 0)) : Agrees depth t text := by
  unfold Agrees Token.nesting
  generalize t.kind = kind at h hcomma
  cases h with
  | plain hkind ht =>
    obtain ⟨hcommas, hlevel⟩ := commasInside_of_isPlain ht depth
    refine ⟨hcommas, hlevel.trans ?_⟩
    -- Only functions and marks change the nesting.
    split
    all_goals first | rfl | exact absurd (by decide) hkind
  | mark hmem =>
    simp only [Lexer.marks, List.mem_cons, Prod.mk.injEq, List.not_mem_nil, or_false] at hmem
    rcases hmem with ⟨rfl, rfl⟩ | ⟨rfl, rfl⟩ | ⟨rfl, rfl⟩ | ⟨rfl, rfl⟩ | ⟨rfl, rfl⟩ | ⟨rfl, rfl⟩ |
      ⟨rfl, rfl⟩ | ⟨rfl, rfl⟩ | ⟨rfl, rfl⟩
    case inr.inr.inl => exact ⟨⟨fun _ hdepth => hcomma ⟨rfl, hdepth⟩, trivial⟩, by decide⟩
    all_goals exact ⟨⟨fun heq => absurd heq (by decide), trivial⟩, by decide⟩
  | function ht =>
    obtain ⟨w, rfl, hw⟩ := ht
    obtain ⟨hcommas, hlevel⟩ := commasInside_of_isPlain hw depth
    refine ⟨commasInside_append hcommas ⟨fun heq => absurd heq (by decide), trivial⟩, ?_⟩
    rw [byteLevel_append, hlevel]
    decide
  | ampersand => exact ⟨⟨fun heq => absurd heq (by decide), trivial⟩, by decide⟩

/-- The tokens of a selector that the parser accepts. -/
structure Accepted (ts : List Token) : Prop where
  source : ∃ src, (∀ t ∈ Lexer.lex 0 src, t.kind ≠ .badString ∧ t.kind ≠ .badUrl) ∧
    ts <:+: (Lexer.lex 0 src).filter fun t => t.kind != .comment
  segment : Grammar.IsSegment ts
  trimmed : Token.trim ts = ts
  nonempty : ts ≠ []

theorem Accepted.exists_lexeme {ts : List Token} (h : Accepted ts) {t : Token} (ht : t ∈ ts) :
    (∃ rest, Lexer.IsLexeme t rest) ∧ t.kind ∉ [.badString, .badUrl, .comment] := by
  obtain ⟨src, hgood, hpart⟩ := h.source
  obtain ⟨hlex, hcomment⟩ := List.mem_filter.mp (hpart.subset ht)
  obtain ⟨pre, rest, -, -, -, hlexeme⟩ := Lexer.exists_seam_of_mem_lex hlex
  obtain ⟨hstring, hurl⟩ := hgood t hlex
  refine ⟨⟨rest, hlexeme⟩, ?_⟩
  simp only [List.mem_cons, List.not_mem_nil, or_false, not_or]
  exact ⟨hstring, hurl, bne_iff_ne.mp hcomment⟩

/-- A token that quotes nothing has the bytes of its class. -/
theorem hasBytes_of_not_quotes {t : Token} {rest : Text} (h : Lexer.IsLexeme t rest)
    (hkind : t.kind ∉ [.badString, .badUrl, .comment]) (hquotes : quotes t = false) :
    Lexer.HasBytes t.kind t.text := by
  simp only [quotes, Bool.or_eq_false_iff, beq_eq_false_iff_ne, List.contains_eq_mem,
    decide_eq_false_iff_not] at hquotes
  refine h.bytes ?_ hquotes.2
  simp only [Lexer.quotedKinds, List.mem_cons, List.not_mem_nil, or_false, not_or] at hkind ⊢
  exact ⟨hquotes.1.1, hkind.1, hquotes.1.2, hkind.2.1, hkind.2.2⟩

/-- A token says about brackets and commas what its text says, if that is so for
    strings, addresses and escapes. -/
theorem agreesFrom_of_quotes {depth : Int} {ts : List Token}
    (hlex : ∀ t ∈ ts, (∃ rest, Lexer.IsLexeme t rest) ∧ t.kind ∉ [.badString, .badUrl, .comment])
    (h : QuotesAgreeFrom depth ts) : AgreesFrom depth ts := by
  induction ts generalizing depth with
  | nil => trivial
  | cons t ts ih =>
    rw [List.forall_mem_cons] at hlex
    obtain ⟨⟨⟨rest, ht⟩, hkind⟩, hts⟩ := hlex
    refine ⟨?_, ih hts h.2⟩
    split
    · rename_i hcomma
      obtain ⟨b, htext, hmem⟩ := (Lexer.isLexeme_mark_iff (by rw [hcomma.1]; decide)).mp ht
      rw [hcomma.1] at hmem
      obtain rfl : b = ascii ',' := by simpa [Lexer.marks] using hmem
      exact htext
    · rename_i hcomma
      by_cases hspace : t.isSpace = true
      · have hplain : Lexer.HasBytes t.kind [ascii ' '] := by
          rw [Token.isSpace_iff.mp hspace]
          exact .plain (by decide) (.cons (by decide) Lexer.isPlain_nil)
        rw [Token.squeezed_of_isSpace hspace]
        exact agrees_of_hasBytes hplain hcomma
      · rw [Token.squeezed_of_not_isSpace (Bool.eq_false_iff.mpr hspace)]
        cases hquotes : quotes t with
        | true => exact h.1 hquotes
        | false => exact agrees_of_hasBytes (hasBytes_of_not_quotes ht hkind hquotes) hcomma

/-! ## The mark for the enclosing selector -/

/-- The token `&`. -/
def isParent (t : Token) : Bool := t.kind == .delim && t.text == [parentMark]

/-- The byte `&` is a token by itself, strings, addresses and escapes apart. -/
theorem isParent_of_mem {t : Token} (h : Lexer.HasBytes t.kind t.text)
    (hmark : parentMark ∈ t.text) : isParent t = true := by
  unfold isParent
  generalize t.kind = kind at h
  generalize t.text = text at h hmark
  cases h with
  | plain _ ht => exact absurd (by decide) (ht _ hmark)
  | @mark b kind hmem =>
    have hfirst : b ∈ Lexer.marks.map Prod.fst := List.mem_map_of_mem hmem
    rw [← List.mem_singleton.mp hmark] at hfirst
    exact absurd hfirst (by decide)
  | function ht =>
    obtain ⟨w, rfl, hw⟩ := ht
    rcases List.mem_append.mp hmark with hmem | hmem
    · exact absurd (by decide) (hw _ hmem)
    · exact absurd (List.mem_singleton.mp hmem) (by decide)
  | ampersand => rfl

theorem isSpace_of_isParent {t : Token} (h : isParent t = true) : t.isSpace = false := by
  rw [isParent, Bool.and_eq_true, beq_iff_eq] at h
  exact Token.isSpace_of_kind h.1 (by decide)

theorem mem_trim_iff {ts : List Token} {t : Token} (ht : t.isSpace = false) :
    t ∈ Token.trim ts ↔ t ∈ ts := by
  obtain ⟨lead, trail, hlead, htrail, heq⟩ := Token.exists_eq_trim ts
  have hblank : ∀ {us : List Token}, Token.blank us = true → t ∉ us := by
    intro us hus hmem
    rw [Token.blank_iff.mp hus t hmem] at ht
    cases ht
  conv_rhs => rw [heq]
  rw [List.mem_append, List.mem_append]
  exact ⟨fun h => .inr (.inl h), fun h =>
    (h.resolve_left (hblank hlead)).resolve_right (hblank htrail)⟩

/-- The tokens of a list in which `&` stands for the enclosing selector only. -/
def ParentsPlain (ts : List Token) : Prop := ∀ t ∈ ts, parentMark ∈ t.text → isParent t = true

theorem parentMark_mem_raw_iff {ts : List Token} (h : ParentsPlain ts) :
    parentMark ∈ Token.raw ts ↔ ts.any isParent = true := by
  rw [Token.raw, List.mem_flatMap, List.any_eq_true]
  constructor
  · rintro ⟨t, ht, hmark⟩
    split at hmark
    · exact absurd hmark (by decide)
    · rename_i hspace
      have hmem := (mem_trim_iff (Bool.eq_false_iff.mpr hspace)).mp ht
      exact ⟨t, hmem, h t hmem hmark⟩
  · rintro ⟨t, ht, hparent⟩
    have hspace := isSpace_of_isParent hparent
    refine ⟨t, (mem_trim_iff hspace).mpr ht, ?_⟩
    rw [isParent, Bool.and_eq_true, beq_iff_eq, beq_iff_eq] at hparent
    rw [hspace, hparent.2]
    decide

/-- The text of a selector in which `parent` stands for the token `&`. -/
def filled (parent : Text) (ts : List Token) : Text :=
  (Token.trim ts).flatMap fun t => if isParent t then parent else t.squeezed.text

theorem replaceByte_raw {ts : List Token} (h : ParentsPlain ts) (p : Text) :
    (Token.raw ts).replaceByte parentMark p = filled p ts := by
  rw [Token.raw_eq_textOf, filled]
  have hsub : ∀ t ∈ Token.trim ts, t.isSpace = false → t ∈ ts :=
    fun t ht hspace => (mem_trim_iff hspace).mp ht
  generalize Token.trim ts = us at hsub
  induction us with
  | nil => rfl
  | cons t us ih =>
    rw [List.forall_mem_cons] at hsub
    rw [List.map_cons, Token.textOf_cons, Text.replaceByte_append, List.flatMap_cons,
      ih hsub.2]
    congr 1
    by_cases hspace : t.isSpace = true
    · have hparent : isParent t = false := by
        rw [Bool.eq_false_iff]
        intro hparent
        rw [isSpace_of_isParent hparent] at hspace
        cases hspace
      rw [hparent, Token.squeezed_of_isSpace hspace, if_neg (by decide)]
      exact Text.replaceByte_of_not_mem (show parentMark ∉ [ascii ' '] by decide) p
    · have hspace := Bool.eq_false_iff.mpr hspace
      rw [Token.squeezed_of_not_isSpace hspace]
      split
      · rename_i hparent
        rw [isParent, Bool.and_eq_true, beq_iff_eq, beq_iff_eq] at hparent
        rw [hparent.2]
        exact List.append_nil p
      · rename_i hparent
        exact Text.replaceByte_of_not_mem (fun hmark => hparent (h t (hsub.1 hspace) hmark)) p

/-! ## Alternatives -/

theorem textOf_squeezed_of_blank {ts : List Token} (h : Token.blank ts = true) :
    ∀ b ∈ textOf (ts.map squeezed), b = ascii ' ' := by
  intro b hb
  obtain ⟨t, ht, hmem⟩ := List.mem_flatMap.mp hb
  obtain ⟨u, hu, rfl⟩ := List.mem_map.mp ht
  rw [Token.squeezed_of_isSpace (Token.blank_iff.mp h u hu)] at hmem
  exact List.mem_singleton.mp hmem

/-- White space around tokens is trimmed away in their text. -/
theorem trim_textOf {ts : List Token} (h : (Token.raw ts).Trimmed) :
    (textOf (ts.map squeezed)).trim = Token.raw ts := by
  obtain ⟨lead, trail, hlead, htrail, heq⟩ := Token.exists_eq_trim ts
  have htext : textOf (ts.map squeezed) =
      textOf (lead.map squeezed) ++ (Token.raw ts ++ textOf (trail.map squeezed)) := by
    conv_lhs => rw [heq]
    rw [List.map_append, List.map_append, Token.textOf_append, Token.textOf_append,
      Token.raw_eq_textOf]
  rw [htext]
  exact Text.trim_spaces h (textOf_squeezed_of_blank hlead) (textOf_squeezed_of_blank htrail)

/-- The text of a selector is taken apart as its tokens are. -/
theorem alternatives_raw {ts : List Token} (h : Accepted ts) (hquotes : QuotesAgreeFrom 0 ts)
    (htrimmed : ∀ part ∈ Grammar.splitTop .comma ts, (Token.raw part).Trimmed) :
    alternatives (Token.raw ts) = (Grammar.splitTop .comma ts).map Token.raw := by
  have hagree := agreesFrom_of_quotes (fun t ht => h.exists_lexeme ht) hquotes
  rw [alternatives, Token.raw_eq_textOf, h.trimmed, cut_textOf hagree, List.map_map]
  exact List.map_congr_left fun part hpart => trim_textOf (htrimmed part hpart)

/-- What a nested selector is expanded to, by its tokens: the parts between the
    separating commas, where each part with the token `&` is written once for
    every part of the enclosing selector. -/
def expansion (ts ps : List Token) : Text :=
  if ts.any isParent then
    Text.join (utf8 ", ") <| (Grammar.splitTop .comma ts).flatMap fun part =>
      if part.any isParent then
        (Grammar.splitTop .comma ps).map fun p => filled (Token.raw p) part
      else [Token.raw part]
  else Token.raw ts

theorem Accepted.raw_ne_nil {ts : List Token} (h : Accepted ts) : Token.raw ts ≠ [] := by
  obtain ⟨t, rest, rfl⟩ := List.exists_cons_of_ne_nil h.nonempty
  obtain ⟨⟨more, b, u, htext, -⟩, -⟩ := h.exists_lexeme List.mem_cons_self
  rw [Token.raw, h.trimmed, List.flatMap_cons, htext]
  split <;> exact List.cons_ne_nil _ _

theorem Accepted.parentMark_mem_raw_iff {ts : List Token} (h : Accepted ts) :
    parentMark ∈ Token.raw ts ↔ ∃ t ∈ ts, parentMark ∈ t.text := by
  rw [Token.raw, h.trimmed, List.mem_flatMap]
  refine exists_congr fun t => and_congr_right fun ht => ?_
  split
  · -- White space holds no `&`, neither as it is nor as a space.
    rename_i hspace
    obtain ⟨⟨rest, hlexeme⟩, -⟩ := h.exists_lexeme ht
    obtain ⟨-, hall, -⟩ := (Lexer.isLexeme_space_iff (Token.isSpace_iff.mp hspace)).mp hlexeme
    exact iff_of_false (by decide) fun hmark => absurd (hall _ hmark) (by decide)
  · rfl

theorem Accepted.openRule_iff {ts : List Token} (h : Accepted ts) (rules : List Rule)
    (mark : Token) :
    (∃ p, Grammar.openRule ⟨[], rules⟩ ts mark = .ok p) ↔ ∀ t ∈ ts, parentMark ∉ t.text := by
  have hraw := h.parentMark_mem_raw_iff
  constructor
  · rintro ⟨p, hp⟩ t ht hmark
    obtain ⟨first, -, hnone, -⟩ := Grammar.openRule_eq_ok_iff.mp hp
    exact hnone rfl (hraw.mpr ⟨t, ht, hmark⟩)
  · intro hnone
    have hblank : Token.blank ts = false := by
      rw [Bool.eq_false_iff, ne_eq, ← Token.trim_eq_nil_iff, h.trimmed]
      exact h.nonempty
    obtain ⟨lead, first, rest, hlead, hfirst, heq⟩ := Token.exists_first_of_not_blank hblank
    refine ⟨_, Grammar.openRule_eq_ok_iff.mpr
      ⟨first, ⟨lead, rest, hlead, Token.isSpace_eq_false_iff.mp hfirst, heq⟩,
        fun _ hmark => ?_, rfl⟩⟩
    obtain ⟨t, ht, hmem⟩ := hraw.mp hmark
    exact hnone t ht hmem

/-- The tokens of a selector and of the one around it. A selector at the top is
    accepted exactly if none of its tokens holds a `&`, strings included. If no
    string, address or escape of the selector holds a `&`, none of both
    selectors holds a bracket or a comma that counts, and no part of them begins
    or ends with a character that is white space outside of style sheets only,
    then the text of the nested selector is what the tokens say. -/
theorem substitute_eq_expansion {ts : List Token} (hts : Accepted ts) :
    (∀ rules mark, (∃ p, Grammar.openRule ⟨[], rules⟩ ts mark = .ok p) ↔
      ∀ t ∈ ts, parentMark ∉ t.text) ∧
    ∀ ps, Accepted ps → (∀ t ∈ ts, quotes t = true → parentMark ∉ t.text) →
      QuotesAgreeFrom 0 ts → QuotesAgreeFrom 0 ps →
      (∀ part ∈ Grammar.splitTop .comma ts ++ Grammar.splitTop .comma ps,
        (Token.raw part).Trimmed) →
      substitute (Token.raw ts) (Token.raw ps) = expansion ts ps := by
  refine ⟨hts.openRule_iff, fun ps hps hmarks hagree hagree' htrimmed => ?_⟩
  rw [List.forall_mem_append] at htrimmed
  have hplain : ParentsPlain ts := by
    intro t ht hmark
    obtain ⟨⟨rest, hlexeme⟩, hkind⟩ := hts.exists_lexeme ht
    have hquotes : quotes t = false := Bool.eq_false_iff.mpr fun hq => hmarks t ht hq hmark
    exact isParent_of_mem (hasBytes_of_not_quotes hlexeme hkind hquotes) hmark
  have hany := parentMark_mem_raw_iff hplain
  unfold expansion
  split
  · rename_i hparent
    rw [substitute_of_mem (hany.mpr hparent) hps.raw_ne_nil, combinations,
      alternatives_raw hts hagree htrimmed.1, List.flatMap_map]
    congr 1
    refine List.flatMap_congr fun part hpart => ?_
    -- One part of the selector, with the parts of the parent put for its `&`.
    have hplain' : ParentsPlain part := fun t ht => hplain t (Grammar.mem_of_mem_splitFrom hpart ht)
    have hany' := parentMark_mem_raw_iff hplain'
    split
    · rename_i hpartial
      rw [combined_of_mem (hany'.mpr hpartial), alternatives_raw hps hagree' htrimmed.2,
        List.map_map]
      exact List.map_congr_left fun p _ => replaceByte_raw hplain' (Token.raw p)
    · rename_i hpartial
      exact combined_of_not_mem (fun hmark => hpartial (hany'.mp hmark)) _
  · rename_i hparent
    exact substitute_of_not_mem (fun hmark => hparent (hany.mp hmark)) _

/-- All tokens of a text, as the tokens of a selector. -/
theorem accepted_lex {src : Text}
    (hgood : ∀ t ∈ Lexer.lex 0 src, t.kind ∉ [.badString, .badUrl, .comment])
    (hsegment : Grammar.IsSegment (Lexer.lex 0 src))
    (htrimmed : Token.trim (Lexer.lex 0 src) = Lexer.lex 0 src) (hne : Lexer.lex 0 src ≠ []) :
    Accepted (Lexer.lex 0 src) := by
  simp only [List.mem_cons, List.not_mem_nil, or_false, not_or] at hgood
  have hkept : (Lexer.lex 0 src).filter (fun t => t.kind != .comment) = Lexer.lex 0 src :=
    List.filter_eq_self.mpr fun t ht => bne_iff_ne.mpr (hgood t ht).2.2
  refine ⟨⟨src, fun t ht => ⟨(hgood t ht).1, (hgood t ht).2.1⟩, ?_⟩, hsegment, htrimmed, hne⟩
  exact ⟨[], [], by rw [hkept, List.nil_append, List.append_nil]⟩

/-- Two lists with strings that hold commas and parentheses inside of brackets. -/
theorem substitute_eq_expansion_of_lists :
    let ts := Lexer.lex 0 (utf8 "&:not(.x, &) > a[t=\"1,2\"], .c")
    let ps := Lexer.lex 0 (utf8 ".p, q[u=\"(,)\"]")
    substitute (Token.raw ts) (Token.raw ps) = expansion ts ps ∧
      expansion ts ps = utf8 (".p:not(.x, .p) > a[t=\"1,2\"], " ++
        "q[u=\"(,)\"]:not(.x, q[u=\"(,)\"]) > a[t=\"1,2\"], .c") := by
  intro ts ps
  have hts : Accepted ts := accepted_lex (by decide +kernel) (by decide +kernel)
    (by decide +kernel) (by decide +kernel)
  have hps : Accepted ps := accepted_lex (by decide +kernel) (by decide +kernel)
    (by decide +kernel) (by decide +kernel)
  refine ⟨(substitute_eq_expansion hts).2 ps hps ?_ ?_ ?_ ?_, ?_⟩
  all_goals decide +kernel

/-- A `&` inside of a string is replaced in a nested selector, and makes the
    parser reject one at the top. -/
theorem substitute_replaces_quoted_mark :
    let ts := Lexer.lex 0 (utf8 "[href=\"x&y\"]")
    let ps := Lexer.lex 0 (utf8 ".a, .b")
    Accepted ts ∧ Accepted ps ∧ expansion ts ps = utf8 "[href=\"x&y\"]" ∧
      substitute (Token.raw ts) (Token.raw ps) = utf8 "[href=\"x.ay\"], [href=\"x.by\"]" ∧
      (parse (utf8 "a[href=\"x&y\"] \x7b color: red; \x7d")).toOption.isNone := by
  refine ⟨accepted_lex ?_ ?_ ?_ ?_, accepted_lex ?_ ?_ ?_ ?_, ?_, ?_, ?_⟩
  all_goals decide +kernel

end Selector

end MixinCss
