/-
  MixinCss.Proofs.Token.Lexemes

  Token lists that the lexer finds in their own text. Whether it does so depends
  on what follows them: `Lexemes ts rest` says that the lexer, at the text of
  `ts` with `rest` behind it, finds just `ts` and goes on with `rest`
  (`lex_of_lexemes`). The tokens of a source are such a list, and so is every
  part of it (`lexemes_lex`, `lexemes_append`).

  What follows may be exchanged (`Lexemes.exchange`), and white space inside may
  be written as a single space (`lexemes_squeezed`).
-/

import MixinCss.Proofs.Token.Locality
import MixinCss.Proofs.Token.Trim

namespace MixinCss

namespace Token

/-- The text of tokens. -/
def textOf (ts : List Token) : Text := ts.flatMap text

@[simp] theorem textOf_nil : textOf [] = [] := rfl

@[simp] theorem textOf_cons (t : Token) (ts : List Token) :
    textOf (t :: ts) = t.text ++ textOf ts := rfl

@[simp] theorem textOf_append (ts us : List Token) :
    textOf (ts ++ us) = textOf ts ++ textOf us := List.flatMap_append

/-- The token without its place. -/
def bare (t : Token) : Token := { t with offset := 0 }

/-- White space as a single space; any other token as it is. -/
def squeezed (t : Token) : Token := if t.isSpace then { t with text := [ascii ' '] } else t

theorem squeezed_of_isSpace {t : Token} (h : t.isSpace = true) :
    t.squeezed = { t with text := [ascii ' '] } := if_pos h

theorem squeezed_of_not_isSpace {t : Token} (h : t.isSpace = false) : t.squeezed = t :=
  if_neg (by rw [h]; decide)

@[simp] theorem squeezed_kind (t : Token) : t.squeezed.kind = t.kind := by
  unfold squeezed
  split <;> rfl

@[simp] theorem squeezed_isSpace (t : Token) : t.squeezed.isSpace = t.isSpace := by
  unfold isSpace
  rw [squeezed_kind]

theorem squeezed_squeezed (t : Token) : t.squeezed.squeezed = t.squeezed := by
  by_cases h : t.isSpace = true
  · rw [squeezed_of_isSpace h]
    exact squeezed_of_isSpace h
  · have hsame := squeezed_of_not_isSpace (Bool.eq_false_iff.2 h)
    rw [hsame, hsame]

theorem raw_eq_textOf (ts : List Token) : raw ts = textOf ((trim ts).map squeezed) := by
  unfold raw textOf
  rw [List.flatMap_map]
  congr 1
  funext t
  unfold squeezed
  split <;> rfl

end Token

namespace Lexer

open Token (textOf bare squeezed)

/-! ## What a first byte begins -/

/-- Bytes that are tokens by themselves. -/
def marks : List (UInt8 × TokenKind) :=
  [(ascii ':', .colon), (ascii ';', .semicolon), (ascii ',', .comma), (ascii '(', .openParen),
    (ascii ')', .closeParen), (ascii '[', .openBracket), (ascii ']', .closeBracket),
    (0x7B, .openBrace), (0x7D, .closeBrace)]

/-- Two bytes that are a token together. -/
def pairs : List (UInt8 × UInt8 × TokenKind) :=
  [(ascii '$', ascii '=', .tailMatch), (ascii '*', ascii '=', .substringMatch),
    (ascii '^', ascii '=', .headMatch), (ascii '~', ascii '=', .includeMatch),
    (ascii '|', ascii '=', .dashMatch), (ascii '|', ascii '|', .column)]

/-- What can be found at the byte `b` with `rest` behind it, and how many bytes
    belong to it. -/
inductive Scanned (b : UInt8) (rest : Text) : TokenKind × Nat → Prop where
  | space (hb : isSpace b = true) : Scanned b rest (.whitespace, run isSpace (b :: rest))
  | mark {kind : TokenKind} (h : (b, kind) ∈ marks) : Scanned b rest (kind, 1)
  | pair {second : UInt8} {kind : TokenKind} (h : (b, second, kind) ∈ pairs)
      (hsecond : rest.head? = some second) : Scanned b rest (kind, 2)
  | comment {more : Text} (hb : b = ascii '/') (hrest : rest = ascii '*' :: more) :
      Scanned b rest (.comment, 2 + commentTail more)
  | commentOpen (hb : b = ascii '<') (hrest : utf8 "!--" <+: rest) :
      Scanned b rest (.commentOpen, 4)
  | commentClose (hb : b = ascii '-') (hrest : utf8 "->" <+: rest) :
      Scanned b rest (.commentClose, 3)
  | hash (hb : b = ascii '#') (hname : nameTail rest ≠ 0) :
      Scanned b rest (.hash, nameTail rest + 1)
  | atKeyword (hb : b = ascii '@') (hname : name rest ≠ 0) :
      Scanned b rest (.atKeyword, name rest + 1)
  | custom (h : (b :: rest).take 2 = [ascii '-', ascii '-']) :
      Scanned b rest (.customProperty, name (b :: rest))
  | string (hb : isQuote b = true) (h : (stringTail b rest).1 = true) :
      Scanned b rest (.string, (stringTail b rest).2 + 1)
  | badString (hb : isQuote b = true) (h : (stringTail b rest).1 = false) :
      Scanned b rest (.badString, (stringTail b rest).2 + 1)
  | numeric {r : TokenKind × Nat} (h : numeric? (b :: rest) = some r) : Scanned b rest r
  | nameLike {r : TokenKind × Nat} (h : nameLike? (b :: rest) = some r) : Scanned b rest r
  | unicodeRange {r : TokenKind × Nat} (h : unicodeRange? (b :: rest) = some r) :
      Scanned b rest r
  | delim (hmark : b ∉ marks.map Prod.fst) (hstart : isNameStart b = false) :
      Scanned b rest (.delim, 1)

theorem scan_of_isSpace {b : UInt8} (h : isSpace b = true) (rest : Text) :
    scan b rest = (.whitespace, run isSpace (b :: rest)) := by
  unfold scan
  exact if_pos h

theorem scan_of_mark {b : UInt8} {kind : TokenKind} (h : (b, kind) ∈ marks) (rest : Text) :
    scan b rest = (kind, 1) := by
  simp only [marks, List.mem_cons, Prod.mk.injEq, List.not_mem_nil, or_false] at h
  rcases h with ⟨rfl, rfl⟩ | ⟨rfl, rfl⟩ | ⟨rfl, rfl⟩ | ⟨rfl, rfl⟩ | ⟨rfl, rfl⟩ | ⟨rfl, rfl⟩ |
    ⟨rfl, rfl⟩ | ⟨rfl, rfl⟩ | ⟨rfl, rfl⟩ <;> rfl

theorem firstOf_cases (fs : List (Option (TokenKind × Nat))) :
    (∃ r, some r ∈ fs ∧ firstOf fs = r) ∨ (∀ f ∈ fs, f = none) ∧ firstOf fs = (.delim, 1) := by
  unfold firstOf
  cases hfound : fs.findSome? id with
  | none => exact .inr ⟨List.findSome?_eq_none_iff.mp hfound, rfl⟩
  | some r =>
    obtain ⟨f, hf, hr⟩ := List.exists_of_findSome?_eq_some hfound
    exact .inl ⟨r, by rwa [← hr], rfl⟩

/-- A choice has what both of its sides have. -/
theorem ite_holds {α : Type} {P : α → Prop} {c : Prop} [Decidable c] {a b : α} (hpos : c → P a)
    (hneg : ¬ c → P b) : P (if c then a else b) := by
  split
  · exact hpos ‹_›
  · exact hneg ‹_›

theorem isNameStart_of_name {b : UInt8} {rest : Text} (h : name (b :: rest) = 0) :
    isNameStart b = false := by
  rw [name_eq] at h
  refine Bool.eq_false_iff.2 fun hstart => ?_
  have hdash : dash (b :: rest) = 0 := by
    have hne : b ≠ ascii '-' := by
      rintro rfl
      revert hstart
      decide
    simp [dash, one, hne]
  rw [hdash, List.drop_zero, nameHead, if_pos hstart, if_neg Nat.one_ne_zero] at h
  split at h <;> omega

/-- The scanner as a whole: one constructor for each class of tokens. -/
theorem scanned_scan (b : UInt8) (rest : Text) : Scanned b rest (scan b rest) := by
  by_cases hspace : isSpace b = true
  · rw [scan_of_isSpace hspace]
    exact .space hspace
  by_cases hmark : b ∈ marks.map Prod.fst
  · obtain ⟨⟨b', kind⟩, hmem, rfl⟩ := List.mem_map.1 hmark
    rw [scan_of_mark hmem]
    exact .mark hmem
  have hdelim : isNameStart b = false → Scanned b rest (.delim, 1) := .delim hmark
  have hpair : ∀ {second : UInt8} {kind : TokenKind}, (b, second, kind) ∈ pairs →
      isNameStart b = false → Scanned b rest (pair second kind rest) := by
    intro second kind hmem hstart
    unfold pair
    split
    · exact ite_holds (fun hd => .pair hmem (by rw [hd]; rfl)) fun _ => hdelim hstart
    · exact hdelim hstart
  have hfirst : ∀ {fs : List (Option (TokenKind × Nat))},
      (∀ f ∈ fs, ∀ r, f = some r → Scanned b rest r) →
        ((∀ f ∈ fs, f = none) → isNameStart b = false) → Scanned b rest (firstOf fs) := by
    intro fs hsome hnone
    rcases firstOf_cases fs with ⟨r, hr, heq⟩ | ⟨hall, heq⟩
    · rw [heq]
      exact hsome _ hr r rfl
    · rw [heq]
      exact hdelim (hnone hall)
  have hnumeric : ∀ r, numeric? (b :: rest) = some r → Scanned b rest r := fun _ => .numeric
  have hname : ∀ r, nameLike? (b :: rest) = some r → Scanned b rest r := fun _ => .nameLike
  have hrange : ∀ r, unicodeRange? (b :: rest) = some r → Scanned b rest r :=
    fun _ => .unicodeRange
  have hnameless : nameLike? (b :: rest) = none → isNameStart b = false :=
    fun hnone => isNameStart_of_name (nameLike?_eq_none_iff.1 hnone)
  unfold scan
  dsimp only
  refine ite_holds (fun hb => absurd hb hspace) fun _ => ?_
  iterate 9 refine ite_holds (fun hb => absurd (by rw [hb]; decide) hmark) fun _ => ?_
  refine ite_holds (fun hb => ?_) fun _ => ?_
  · exact ite_holds (fun _ => hdelim (by rw [hb]; decide)) fun hpos => .hash hb hpos
  refine ite_holds (fun hb => ?_) fun _ => ?_
  · cases hfine : (stringTail b rest).1 with
    | true => exact .string hb hfine
    | false => exact .badString hb hfine
  refine ite_holds (fun hb => ?_) fun _ => ?_
  · refine hfirst (List.forall_mem_singleton.2 hnumeric) fun _ => ?_
    simp only [Bool.or_eq_true, decide_eq_true_eq] at hb
    rcases hb with rfl | rfl <;> decide
  refine ite_holds (fun hb => ?_) fun _ => ?_
  · -- `-`
    refine ite_holds (fun hclose => ?_) fun _ => ite_holds (fun hdash => .custom ?_) fun _ => ?_
    · exact .commentClose hb (List.isPrefixOf_iff_prefix.1 hclose)
    · rw [List.take_succ_cons, List.take_one, hdash, hb]
      rfl
    · exact hfirst (List.forall_mem_cons.2 ⟨hname, List.forall_mem_singleton.2 hnumeric⟩)
        fun _ => by rw [hb]; decide
  refine ite_holds (fun hb => ?_) fun _ => ?_
  · exact ite_holds (fun _ => hdelim (by rw [hb]; decide)) fun hpos => .atKeyword hb hpos
  iterate 4
    refine ite_holds (fun hb => hpair (by rw [hb]; decide) (by rw [hb]; decide)) fun _ => ?_
  refine ite_holds (fun hb => ?_) fun _ => ?_
  · -- `/`
    split
    · exact ite_holds (fun hc => .comment hb (by rw [hc])) fun _ => hdelim (by rw [hb]; decide)
    · exact hdelim (by rw [hb]; decide)
  refine ite_holds (fun hb => ?_) fun _ => ?_
  · exact ite_holds (fun hopen => .commentOpen hb (List.isPrefixOf_iff_prefix.1 hopen))
      fun _ => hdelim (by rw [hb]; decide)
  refine ite_holds (fun hb => ?_) fun _ => ?_
  · exact hfirst (List.forall_mem_singleton.2 hname) fun _ => by rw [hb]; decide
  refine ite_holds (fun _ => ?_) fun _ => ?_
  · exact hfirst (List.forall_mem_cons.2 ⟨hrange, List.forall_mem_singleton.2 hname⟩)
      fun hnone => hnameless (hnone _ (List.mem_cons_of_mem _ List.mem_cons_self))
  refine ite_holds (fun hb => ?_) fun _ => ?_
  · -- `|`
    exact ite_holds (fun hbar => .pair (by rw [hb]; decide) hbar) fun _ =>
      hpair (by rw [hb]; decide) (by rw [hb]; decide)
  · exact hfirst (List.forall_mem_cons.2 ⟨hnumeric, List.forall_mem_singleton.2 hname⟩)
      fun hnone => hnameless (hnone _ (List.mem_cons_of_mem _ List.mem_cons_self))

/-! ## Classes told by their first bytes -/

/-- The classes of tokens that are told by their first byte, or in the case of
    comments by the first two. -/
def ownKinds : List TokenKind := [.whitespace, .comment] ++ marks.map Prod.snd

theorem numeric?_kind {t : Text} {kind : TokenKind} {n : Nat} (h : numeric? t = some (kind, n)) :
    kind ∉ ownKinds := by
  rw [numeric?_eq] at h
  split at h
  · cases h
  · split at h
    · cases h
      decide
    · split at h <;> cases h <;> decide

theorem nameLike?_kind {t : Text} {kind : TokenKind} {n : Nat} (h : nameLike? t = some (kind, n)) :
    kind ∉ ownKinds := by
  rw [nameLike?_eq] at h
  split at h
  · cases h
  · split at h
    · split at h
      · cases h
        rcases urlTail_kind (t.drop (name t + 1)) with hkind | hkind <;> rw [hkind] <;> decide
      · cases h
        decide
    · cases h
      decide

theorem unicodeRange?_kind {t : Text} {kind : TokenKind} {n : Nat}
    (h : unicodeRange? t = some (kind, n)) : kind = .unicodeRange := by
  match t with
  | [] => cases h
  | [_] => cases h
  | u :: plus :: rest =>
    rw [unicodeRange?] at h
    obtain ⟨-, h⟩ := Option.ite_none_right_eq_some.1 h
    dsimp only at h
    split at h
    · split at h
      · obtain ⟨-, h⟩ := Option.ite_none_right_eq_some.1 h
        cases h
        rfl
      · obtain ⟨-, h⟩ := Option.ite_none_right_eq_some.1 h
        cases h
        rfl
    · obtain ⟨-, h⟩ := Option.ite_none_right_eq_some.1 h
      cases h
      rfl

/-- What a token can be, by its first byte. -/
theorem scan_cases (b : UInt8) (rest : Text) :
    (isSpace b = true ∧ scan b rest = (.whitespace, run isSpace (b :: rest))) ∨
    (∃ kind, (b, kind) ∈ marks ∧ scan b rest = (kind, 1)) ∨
    (∃ more, b = ascii '/' ∧ rest = ascii '*' :: more ∧
      scan b rest = (.comment, 2 + commentTail more)) ∨
    (scan b rest).1 ∉ ownKinds := by
  have hscan := scanned_scan b rest
  generalize scan b rest = r at hscan ⊢
  cases hscan with
  | space hb => exact .inl ⟨hb, rfl⟩
  | mark hmem => exact .inr (.inl ⟨_, hmem, rfl⟩)
  | comment hb hrest => exact .inr (.inr (.inl ⟨_, hb, hrest, rfl⟩))
  | pair hmem =>
    have hkinds : ∀ p ∈ pairs, p.2.2 ∉ ownKinds := by decide
    exact .inr (.inr (.inr (hkinds _ hmem)))
  | numeric hr => exact .inr (.inr (.inr (numeric?_kind hr)))
  | nameLike hr => exact .inr (.inr (.inr (nameLike?_kind hr)))
  | unicodeRange hr =>
    refine .inr (.inr (.inr ?_))
    rw [unicodeRange?_kind hr]
    decide
  | commentOpen | commentClose | hash | atKeyword | custom | string | badString | delim =>
    refine .inr (.inr (.inr ?_))
    dsimp only
    decide

/-- White space is told by its first byte. -/
theorem isSpace_of_scan {b : UInt8} {rest : Text} (h : (scan b rest).1 = .whitespace) :
    isSpace b = true ∧ scan b rest = (.whitespace, run isSpace (b :: rest)) := by
  rcases scan_cases b rest with hspace | ⟨kind, hmem, hscan⟩ | ⟨more, _, _, hscan⟩ | hother
  · exact hspace
  · rw [hscan] at h
    subst h
    simp [marks] at hmem
  · rw [hscan] at h
    cases h
  · exact absurd (by rw [h]; decide) hother

/-- A mark is told by its byte. -/
theorem mark_of_scan {b : UInt8} {rest : Text} (h : (scan b rest).1 ∈ marks.map Prod.snd) :
    (b, (scan b rest).1) ∈ marks ∧ (scan b rest).2 = 1 := by
  rcases scan_cases b rest with ⟨_, hscan⟩ | ⟨kind, hmem, hscan⟩ | ⟨more, _, _, hscan⟩ | hother
  · rw [hscan] at h
    exact absurd h (by decide : TokenKind.whitespace ∉ marks.map Prod.snd)
  · rw [hscan]
    exact ⟨hmem, rfl⟩
  · rw [hscan] at h
    exact absurd h (by decide : TokenKind.comment ∉ marks.map Prod.snd)
  · exact absurd (List.mem_append_right _ h) hother

/-- A comment is told by its first two bytes. -/
theorem comment_of_scan {b : UInt8} {rest : Text} (h : (scan b rest).1 = .comment) :
    ∃ more, b :: rest = utf8 "/*" ++ more := by
  rcases scan_cases b rest with ⟨_, hscan⟩ | ⟨kind, hmem, hscan⟩ | ⟨more, rfl, rfl, _⟩ | hother
  · rw [hscan] at h
    cases h
  · rw [hscan] at h
    subst h
    simp [marks] at hmem
  · exact ⟨more, rfl⟩
  · exact absurd (by rw [h]; decide) hother

/-! ## A token in front of a text -/

/-- At the text of the token, with `rest` behind it, the lexer finds the token. -/
def IsLexeme (t : Token) (rest : Text) : Prop :=
  ∃ b u, t.text = b :: u ∧ (scan b (u ++ rest)).1 = t.kind ∧
    (u ++ rest).take ((scan b (u ++ rest)).2 - 1) = u

theorem drop_of_take_eq {u rest : Text} {n : Nat} (h : (u ++ rest).take n = u) :
    (u ++ rest).drop n = rest := by
  have hsplit := List.take_append_drop n (u ++ rest)
  rw [h] at hsplit
  exact List.append_cancel_left hsplit

theorem lex_cons (offset : Nat) (b : UInt8) (rest : Text) :
    lex offset (b :: rest) =
      ⟨(scan b rest).1, b :: rest.take ((scan b rest).2 - 1), offset⟩ ::
        lex (offset + (b :: rest.take ((scan b rest).2 - 1)).length)
          (rest.drop ((scan b rest).2 - 1)) := by
  rw [lex]

theorem lex_of_isLexeme {t : Token} {rest : Text} (h : IsLexeme t rest) (offset : Nat) :
    lex offset (t.text ++ rest) =
      { t with offset := offset } :: lex (offset + t.text.length) rest := by
  obtain ⟨b, u, htext, hkind, htake⟩ := h
  rw [htext, List.cons_append, lex_cons, htake, hkind, drop_of_take_eq htake]

theorem isLexeme_of_lex {offset : Nat} {s : Text} {t : Token} {ts : List Token}
    (h : lex offset s = t :: ts) :
    ∃ rest, s = t.text ++ rest ∧ IsLexeme t rest ∧ ts = lex (offset + t.text.length) rest := by
  cases s with
  | nil =>
    rw [lex] at h
    cases h
  | cons b s =>
    rw [lex_cons] at h
    obtain ⟨rfl, rfl⟩ := List.cons.inj h
    have hs := List.take_append_drop ((scan b s).2 - 1) s
    refine ⟨s.drop ((scan b s).2 - 1), ?_, ⟨b, s.take ((scan b s).2 - 1), rfl, ?_, ?_⟩, rfl⟩
    · show b :: s = b :: (_ ++ _)
      rw [hs]
    · rw [hs]
    · rw [hs]

/-! ## Tokens in front of a text -/

/-- At the text of the tokens, with `rest` behind it, the lexer finds the tokens. -/
def Lexemes : List Token → Text → Prop
  | [], _ => True
  | t :: ts, rest => IsLexeme t (textOf ts ++ rest) ∧ Lexemes ts rest

@[simp] theorem lexemes_nil (rest : Text) : Lexemes [] rest := trivial

theorem lexemes_append {ts us : List Token} {rest : Text} :
    Lexemes (ts ++ us) rest ↔ Lexemes ts (textOf us ++ rest) ∧ Lexemes us rest := by
  induction ts with
  | nil => simp
  | cons t ts ih =>
    rw [List.cons_append, Lexemes, ih, Lexemes, Token.textOf_append, List.append_assoc, and_assoc]

/-- The tokens of a text are found in it. -/
theorem lexemes_lex (offset : Nat) (s : Text) : Lexemes (lex offset s) [] := by
  induction h : lex offset s generalizing offset s with
  | nil => exact lexemes_nil []
  | cons t ts ih =>
    obtain ⟨rest, rfl, ht, rfl⟩ := isLexeme_of_lex h
    refine ⟨?_, ih _ _ rfl⟩
    rw [textOf, lex_flatMap_text, List.append_nil]
    exact ht

/-- Tokens in front of a text are what the lexer finds first, at places of their own. -/
theorem lex_of_lexemes {ts : List Token} {rest : Text} (h : Lexemes ts rest) (offset : Nat) :
    ∃ us, us.map bare = ts.map bare ∧
      lex offset (textOf ts ++ rest) = us ++ lex (offset + (textOf ts).length) rest := by
  induction ts generalizing offset with
  | nil => exact ⟨[], rfl, rfl⟩
  | cons t ts ih =>
    obtain ⟨ht, hts⟩ := h
    obtain ⟨us, hus, hlex⟩ := ih hts (offset + t.text.length)
    refine ⟨{ t with offset := offset } :: us, congrArg (t.bare :: ·) hus, ?_⟩
    rw [Token.textOf_cons, List.append_assoc, lex_of_isLexeme ht, hlex, List.length_append,
      Nat.add_assoc, List.cons_append]

/-! ## White space and marks -/

theorem take_run (p : UInt8 → Bool) (w : Text) : w.take (run p w) = w.takeWhile p :=
  (List.prefix_iff_eq_take.1 (List.takeWhile_prefix p)).symm

theorem takeWhile_append_eq_iff {p : UInt8 → Bool} {u rest : Text} :
    (u ++ rest).takeWhile p = u ↔
      (∀ b ∈ u, p b = true) ∧ ∀ b, rest.head? = some b → p b = false := by
  induction u with
  | nil => cases rest <;> simp [List.takeWhile_cons]
  | cons c u ih =>
    by_cases hc : p c = true
    · simp [hc, ih]
    · simp [hc]

/-- White space is found where no more of it follows. -/
theorem isLexeme_space_iff {t : Token} (h : t.kind = .whitespace) {rest : Text} :
    IsLexeme t rest ↔
      t.text ≠ [] ∧ (∀ b ∈ t.text, isSpace b = true) ∧
        ∀ b, rest.head? = some b → isSpace b = false := by
  constructor
  · rintro ⟨b, u, htext, hkind, htake⟩
    obtain ⟨hb, hscan⟩ := isSpace_of_scan (hkind.trans h)
    rw [hscan, run_cons_of_pos hb, Nat.add_sub_cancel, take_run, takeWhile_append_eq_iff] at htake
    rw [htext]
    exact ⟨List.cons_ne_nil b u, List.forall_mem_cons.2 ⟨hb, htake.1⟩, htake.2⟩
  · rintro ⟨hne, hall, hrest⟩
    obtain ⟨b, u, htext⟩ := List.exists_cons_of_ne_nil hne
    rw [htext, List.forall_mem_cons] at hall
    have hscan := scan_of_isSpace hall.1 (u ++ rest)
    refine ⟨b, u, htext, by rw [hscan, h], ?_⟩
    rw [hscan, run_cons_of_pos hall.1, Nat.add_sub_cancel, take_run, takeWhile_append_eq_iff]
    exact ⟨hall.2, hrest⟩

/-- Any other token begins with a byte that is not white space. -/
theorem IsLexeme.exists_cons {t : Token} {rest : Text} (h : IsLexeme t rest)
    (hspace : t.kind ≠ .whitespace) : ∃ b u, t.text = b :: u ∧ isSpace b = false := by
  obtain ⟨b, u, htext, hkind, -⟩ := h
  refine ⟨b, u, htext, Bool.eq_false_iff.2 fun hb => hspace ?_⟩
  rw [← hkind, scan_of_isSpace hb]

/-- A mark is found whatever follows. -/
theorem isLexeme_mark_iff {t : Token} (h : t.kind ∈ marks.map Prod.snd) {rest : Text} :
    IsLexeme t rest ↔ ∃ b, t.text = [b] ∧ (b, t.kind) ∈ marks := by
  constructor
  · rintro ⟨b, u, htext, hkind, htake⟩
    obtain ⟨hmem, hone⟩ := mark_of_scan (hkind ▸ h)
    rw [hone] at htake
    exact ⟨b, by rw [htext, ← htake]; rfl, hkind ▸ hmem⟩
  · rintro ⟨b, htext, hmem⟩
    have hscan := scan_of_mark hmem rest
    exact ⟨b, [], htext, congrArg Prod.fst hscan, by rw [List.nil_append, hscan]; rfl⟩

/-- In a text without `/*` there are no comments. -/
theorem ne_comment_of_lexemes {ts : List Token} {rest : Text} (h : Lexemes ts rest)
    (hnone : ¬ utf8 "/*" <:+: textOf ts ++ rest) : ∀ t ∈ ts, t.kind ≠ .comment := by
  induction ts with
  | nil => exact fun _ ht => nomatch ht
  | cons t ts ih =>
    rw [Token.textOf_cons, List.append_assoc] at hnone
    rw [List.forall_mem_cons]
    refine ⟨fun hkind => ?_, ih h.2 fun hback => ?_⟩
    · obtain ⟨b, u, htext, hscan, -⟩ := h.1
      obtain ⟨more, hmore⟩ := comment_of_scan (hscan.trans hkind)
      rw [htext, List.cons_append, hmore] at hnone
      exact hnone (List.prefix_append _ more).isInfix
    · exact hnone (hback.trans (List.suffix_append t.text _).isInfix)

/-! ## What follows exchanged -/

/-- Any token but white space and a bad address stays when what follows, from a
    stop on, is exchanged. -/
theorem IsLexeme.append {t : Token} {w x y : Text} (h : IsLexeme t (w ++ x))
    (hexchange : Exchange (t.text ++ w) x y) (hspace : t.kind ≠ .whitespace)
    (hurl : t.kind ≠ .badUrl) : IsLexeme t (w ++ y) := by
  obtain ⟨b, u, htext, hkind, htake⟩ := h
  rw [htext] at hexchange
  rw [← List.append_assoc] at hkind htake
  -- Something follows, so the count of bytes is the length of the token.
  have hlength : (scan b (u ++ w ++ x)).2 - 1 = u.length := by
    have hx := hexchange.length_pos
    have hu := congrArg List.length htake
    rw [List.length_take, List.length_append, List.length_append] at hu
    omega
  have hscan : scan b (u ++ w ++ y) = (t.kind, (scan b (u ++ w ++ x)).2) := by
    refine scan_append hexchange (by rw [← hkind]) (.inl ?_) hspace hurl
    rw [List.length_cons, List.length_append]
    omega
  refine ⟨b, u, htext, ?_, ?_⟩
  · rw [← List.append_assoc, hscan]
  · rw [← List.append_assoc, hscan, hlength, List.append_assoc, List.take_left]

theorem head?_append_congr {x y : Text} (h : x.head? = y.head?) (w : Text) :
    (w ++ x).head? = (w ++ y).head? := by
  rw [List.head?_append, List.head?_append, h]

/-- Tokens stay when what follows is exchanged for a text with the same first byte. -/
theorem Lexemes.exchange {ts : List Token} {x y : Text} (h : Lexemes ts x) (hx : Stopped x)
    (hy : Stopped y) (hhead : x.head? = y.head?) (hgood : ∀ t ∈ ts, t.kind ≠ .badUrl) :
    Lexemes ts y := by
  induction ts with
  | nil => exact lexemes_nil y
  | cons t ts ih =>
    obtain ⟨ht, hts⟩ := h
    refine ⟨?_, ih hts fun u hu => hgood u (List.mem_cons_of_mem t hu)⟩
    by_cases hspace : t.kind = .whitespace
    · rw [isLexeme_space_iff hspace] at ht ⊢
      rw [← head?_append_congr hhead]
      exact ht
    · exact ht.append (hx.exchange hy fun _ => offersLess_of_head? hhead) hspace
        (hgood t List.mem_cons_self)

/-! ## Texts put together -/

/-- A text whose last token is a closing brace keeps its tokens whatever follows. -/
theorem lexemes_of_closeBrace {s : Text} {offset : Nat}
    (hlast : (lex offset s).getLast?.map Token.kind = some .closeBrace)
    (hgood : ∀ t ∈ lex offset s, t.kind ≠ .badUrl) (rest : Text) : Lexemes (lex offset s) rest := by
  obtain ⟨brace, hbrace, hkind⟩ := Option.map_eq_some_iff.1 hlast
  obtain ⟨ts, hts⟩ := List.getLast?_eq_some_iff.1 hbrace
  have hlex := lexemes_lex offset s
  rw [hts] at hlex hgood ⊢
  obtain ⟨hfront, hlexeme, -⟩ := lexemes_append.1 hlex
  have hmark : brace.kind ∈ marks.map Prod.snd := by
    rw [hkind]
    decide
  obtain ⟨b, htext, hmem⟩ := (isLexeme_mark_iff hmark).1 hlexeme
  obtain rfl : b = 0x7D := by
    rw [hkind] at hmem
    simpa [marks] using hmem
  -- The brace is a mark whatever follows, and it is a stop for what stands in front of it.
  refine lexemes_append.2 ⟨?_, (isLexeme_mark_iff hmark).2 ⟨0x7D, htext, hmem⟩, trivial⟩
  rw [Token.textOf_cons, htext] at hfront ⊢
  refine hfront.exchange (.intro (by decide)) (.intro (by decide)) rfl fun t ht => ?_
  exact hgood t (List.mem_append_left _ ht)

/-- The tokens of two texts put together, if the first keeps its own. -/
theorem lex_append_bare {s₁ s₂ : Text} (h : Lexemes (lex 0 s₁) s₂) :
    (lex 0 (s₁ ++ s₂)).map bare = (lex 0 s₁ ++ lex 0 s₂).map bare := by
  have htext (s : Text) : textOf (lex 0 s) = s := lex_flatMap_text 0 s
  have hboth : Lexemes (lex 0 s₁ ++ lex 0 s₂) [] := by
    refine lexemes_append.2 ⟨?_, lexemes_lex 0 s₂⟩
    rw [htext, List.append_nil]
    exact h
  obtain ⟨us, hus, hlex⟩ := lex_of_lexemes hboth 0
  rw [Token.textOf_append, htext, htext, List.append_nil] at hlex
  rw [hlex, lex, List.append_nil, hus]

/-! ## White space squeezed -/

theorem mem_stops_of_isSpace {b : UInt8} (h : isSpace b = true) : b ∈ stops := by
  simp only [isSpace, Bool.or_eq_true, beq_iff_eq] at h
  rcases h with (((rfl | rfl) | rfl) | rfl) | rfl <;> decide

theorem stopped_of_space {t : Token} {rest : Text} (h : IsLexeme t rest)
    (hspace : t.kind = .whitespace) (more : Text) : Stopped (t.text ++ more) := by
  obtain ⟨hne, hall, _⟩ := (isLexeme_space_iff hspace).1 h
  obtain ⟨b, u, htext⟩ := List.exists_cons_of_ne_nil hne
  rw [htext]
  exact .intro (mem_stops_of_isSpace (hall b (htext ▸ List.mem_cons_self)))

/-- Up to the first white space nothing changes when white space is squeezed. -/
theorem exists_unsqueezed {ts : List Token} {x y : Text} (h : Lexemes ts x) (hx : Stopped x)
    (hy : Stopped y) :
    ∃ w x' y', textOf ts ++ x = w ++ x' ∧ textOf (ts.map squeezed) ++ y = w ++ y' ∧
      Stopped x' ∧ Stopped y' ∧ w ⊆ textOf ts := by
  induction ts with
  | nil => exact ⟨[], x, y, rfl, rfl, hx, hy, List.nil_subset _⟩
  | cons t ts ih =>
    rw [List.map_cons, Token.textOf_cons, Token.textOf_cons, List.append_assoc, List.append_assoc]
    by_cases hspace : t.isSpace = true
    · -- The texts differ from the first white space on.
      refine ⟨[], _, _, rfl, rfl, stopped_of_space h.1 (Token.isSpace_iff.1 hspace) _, ?_,
        List.nil_subset _⟩
      rw [Token.squeezed_of_isSpace hspace]
      exact .intro (by decide)
    · obtain ⟨w, x', y', hleft, hright, hx', hy', hw⟩ := ih h.2
      refine ⟨t.text ++ w, x', y', ?_, ?_, hx', hy', ?_⟩
      · rw [hleft, List.append_assoc]
      · rw [Token.squeezed_of_not_isSpace (Bool.eq_false_iff.2 hspace), hright, List.append_assoc]
      · exact List.append_subset.2 ⟨List.subset_append_left _ _,
          List.Subset.trans hw (List.subset_append_right _ _)⟩

/-- Tokens stay when white space among them is squeezed and what follows is
    exchanged, if there is no backslash. The last token is not white space, as
    more of it might follow. -/
theorem lexemes_squeezed {ts : List Token} {x y : Text} (h : Lexemes ts x) (hx : Stopped x)
    (hy : Stopped y) (hslash : ascii '\\' ∉ textOf ts) (hgood : ∀ t ∈ ts, t.kind ≠ .badUrl)
    (hlast : ∀ t, ts.getLast? = some t → t.isSpace = false) :
    Lexemes (ts.map squeezed) y := by
  induction ts with
  | nil => exact lexemes_nil y
  | cons t ts ih =>
    obtain ⟨ht, hts⟩ := h
    rw [Token.textOf_cons, List.mem_append, not_or] at hslash
    refine ⟨?_, ih hts hslash.2 (fun u hu => hgood u (List.mem_cons_of_mem t hu)) fun u hu =>
      hlast u (by rw [List.getLast?_cons, hu]; rfl)⟩
    by_cases hspace : t.isSpace = true
    · -- Another token stands behind the white space, and keeps its first byte.
      have hkind := Token.isSpace_iff.1 hspace
      obtain ⟨_, _, hnext⟩ := (isLexeme_space_iff hkind).1 ht
      rw [Token.squeezed_of_isSpace hspace]
      refine (isLexeme_space_iff (t := { t with text := [ascii ' '] }) hkind).2
        ⟨List.cons_ne_nil _ _, by simp; decide, ?_⟩
      cases ts with
      | nil => exact absurd hspace (by rw [hlast t rfl]; decide)
      | cons u us =>
        obtain ⟨c, v, htext, _⟩ := hts.1
        have hc : isSpace c = false := hnext c (by rw [Token.textOf_cons, htext]; rfl)
        have hu : u.isSpace = false := by
          refine Token.isSpace_eq_false_iff.2 fun hu => ?_
          obtain ⟨_, hall, _⟩ := (isLexeme_space_iff hu).1 hts.1
          rw [hall c (by rw [htext]; exact List.mem_cons_self)] at hc
          cases hc
        rw [List.map_cons, Token.squeezed_of_not_isSpace hu, Token.textOf_cons, htext]
        intro b hb
        cases hb
        exact hc
    · -- Nothing is changed up to the next white space, and white space is a stop.
      obtain ⟨w, x', y', hleft, hright, hx', hy', hw⟩ := exists_unsqueezed hts hx hy
      rw [Token.squeezed_of_not_isSpace (Bool.eq_false_iff.2 hspace), hright]
      rw [hleft] at ht
      refine ht.append (hx'.exchange hy' fun hopen => ?_)
        (fun hk => hspace (Token.isSpace_iff.2 hk)) (hgood t List.mem_cons_self)
      rcases List.mem_append.1 hopen.backslash_mem with hmem | hmem
      · exact absurd hmem hslash.1
      · exact absurd (hw hmem) hslash.2

end Lexer

end MixinCss
