/-
  MixinCss.Proofs.Token.Separated

  When the words of a run stay apart in the text that is kept of it. Words with
  nothing between them are found as they were, and so are words with white space
  between them, unless the space that is kept is taken by an escape in front of
  it. Where there was a comment only, the words now touch; they are still found
  if the first is complete by itself, or if the second begins with a byte that
  ends names and does not join the first.

  Such a text is read as the words of the run, with white space at the same
  places (`Lexemes.words_lex`).
-/

import MixinCss.Proofs.Token.Words

namespace MixinCss.Lexer

open Token (textOf bare Word words)

/-! ## Complete tokens -/

/-- Bytes that are tokens by themselves, except behind what they complete. -/
def lone : List UInt8 := [ascii '&', ascii '>', ascii '=', ascii '%']

/-- Texts that are tokens whatever follows them. -/
def completeTexts : List Text :=
  marks.map (fun m => [m.1]) ++ pairs.map (fun p => [p.1, p.2.1]) ++ lone.map fun b => [b]

/-- The token is found whatever follows it. -/
def IsComplete (t : Token) : Prop := t.kind = .function ∨ t.text ∈ completeTexts

instance (t : Token) : Decidable (IsComplete t) := inferInstanceAs (Decidable (_ ∨ _))

theorem scan_of_pair {b second : UInt8} {kind : TokenKind} (h : (b, second, kind) ∈ pairs)
    (rest : Text) : scan b (second :: rest) = (kind, 2) := by
  simp only [pairs, List.mem_cons, Prod.mk.injEq, List.not_mem_nil, or_false] at h
  rcases h with ⟨rfl, rfl, rfl⟩ | ⟨rfl, rfl, rfl⟩ | ⟨rfl, rfl, rfl⟩ | ⟨rfl, rfl, rfl⟩ |
    ⟨rfl, rfl, rfl⟩ | ⟨rfl, rfl, rfl⟩ <;> rfl

theorem scan_of_lone {b : UInt8} (h : b ∈ lone) (rest : Text) : scan b rest = (.delim, 1) := by
  have hname : name (b :: rest) = 0 := by
    simp only [lone, List.mem_cons, List.not_mem_nil, or_false] at h
    rcases h with rfl | rfl | rfl | rfl <;> cases rest <;> rfl
  have hnumber : number (b :: rest) = 0 := by
    simp only [lone, List.mem_cons, List.not_mem_nil, or_false] at h
    rcases h with rfl | rfl | rfl | rfl <;> rfl
  have hlast : scan b rest = firstOf [numeric? (b :: rest), nameLike? (b :: rest)] := by
    simp only [lone, List.mem_cons, List.not_mem_nil, or_false] at h
    rcases h with rfl | rfl | rfl | rfl <;> rfl
  rw [hlast, numeric?_eq_none_iff.mpr hnumber, nameLike?_eq_none_iff.mpr hname]
  rfl

theorem scan_of_complete {b : UInt8} {u : Text} (h : b :: u ∈ completeTexts) :
    ∃ kind, ∀ x, scan b (u ++ x) = (kind, u.length + 1) := by
  rw [completeTexts, List.mem_append, List.mem_append] at h
  rcases h with (h | h) | h
  · obtain ⟨m, hm, heq⟩ := List.mem_map.mp h
    cases heq
    exact ⟨m.2, fun x => scan_of_mark hm _⟩
  · obtain ⟨p, hp, heq⟩ := List.mem_map.mp h
    cases heq
    exact ⟨p.2.2, fun x => scan_of_pair hp _⟩
  · obtain ⟨c, hc, heq⟩ := List.mem_map.mp h
    cases heq
    exact ⟨.delim, fun x => scan_of_lone hc _⟩

theorem Scanned.function {b : UInt8} {rest : Text} {n : Nat} (h : Scanned b rest (.function, n)) :
    n = name (b :: rest) + 1 ∧ 0 < name (b :: rest) ∧
      ((b :: rest).drop (name (b :: rest))).head? = some (ascii '(') := by
  generalize hr : (TokenKind.function, n) = r at h
  cases h with
  | nameLike hname =>
    subst hr
    rw [nameLike?_eq] at hname
    split at hname
    · cases hname
    rename_i hpos
    split at hname
    · rename_i hparen
      split at hname
      · have hkind := urlTail_kind ((b :: rest).drop (name (b :: rest) + 1))
        have hfunction := congrArg Prod.fst (Option.some.inj hname)
        dsimp only at hfunction
        rw [hfunction] at hkind
        rcases hkind with hkind | hkind <;> cases hkind
      · cases hname
        exact ⟨rfl, Nat.pos_of_ne_zero hpos, hparen⟩
    · cases hname
  | numeric hnumeric =>
    subst hr
    rw [numeric?_eq] at hnumeric
    split at hnumeric
    · cases hnumeric
    split at hnumeric
    · cases hnumeric
    split at hnumeric <;> cases hnumeric
  | unicodeRange hrange =>
    subst hr
    cases unicodeRange?_kind hrange
  | mark hmem =>
    cases hr
    exact absurd hmem (by simp [marks])
  | pair hmem =>
    cases hr
    exact absurd hmem (by simp [pairs])
  | space | comment | commentOpen | commentClose | hash | atKeyword | custom | string |
    badString | delim => cases hr

/-- A function is a name with a parenthesis, whatever follows. -/
theorem IsLexeme.function {t : Token} {x : Text} (h : IsLexeme t x) (hkind : t.kind = .function) :
    (∃ v, t.text = v ++ [ascii '(']) ∧ ∀ y, IsLexeme t y := by
  obtain ⟨b, u, htext, hscan, htake⟩ := h
  cases hr : scan b (u ++ x) with
  | mk kind n =>
    rw [hr] at hscan htake
    obtain rfl : kind = .function := hscan.trans hkind
    have hfound := scanned_scan b (u ++ x)
    rw [hr] at hfound
    obtain ⟨rfl, hpos, hparen⟩ := hfound.function
    obtain ⟨k, hk⟩ : ∃ k, name (b :: (u ++ x)) = k + 1 := ⟨_, (Nat.succ_pred_eq_of_pos hpos).symm⟩
    rw [hk] at hr htake hparen
    rw [List.drop_succ_cons] at hparen
    rw [Nat.add_sub_cancel] at htake
    -- The parenthesis is the last byte of the token.
    have hlength : u.length = k + 1 := by
      have hlt : k < (u ++ x).length := by
        rw [List.head?_drop] at hparen
        exact (List.getElem?_eq_some_iff.mp hparen).1
      have htaken := congrArg List.length htake
      rw [List.length_take] at htaken
      omega
    have hlast : u.drop k = [ascii '('] := by
      rw [List.drop_append_of_le_length (by omega)] at hparen
      cases hdrop : u.drop k with
      | nil => exact absurd hdrop (drop_ne_nil (by omega))
      | cons c rest =>
        have hrest := congrArg List.length hdrop
        rw [List.length_drop, List.length_cons] at hrest
        rw [hdrop] at hparen
        cases hparen
        obtain rfl : rest = [] := List.length_eq_zero_iff.mp (by omega)
        rfl
    obtain ⟨v, rfl⟩ : ∃ v, u = v ++ [ascii '('] :=
      ⟨u.take k, by rw [← hlast, List.take_append_drop]⟩
    refine ⟨⟨b :: v, htext⟩, fun y => ⟨b, v ++ [ascii '('], htext, ?_⟩⟩
    rw [List.append_assoc, List.singleton_append] at hr
    have hwithin : Within (b :: v) .function (k + 1 + 1) := by
      rw [List.length_append, List.length_singleton] at hlength
      exact .inr ⟨rfl, by rw [List.length_cons]; omega⟩
    have hsame : scan b (v ++ ascii '(' :: y) = (.function, k + 1 + 1) :=
      scan_append (exchange_of_head (by decide) (by decide) (b :: v) x y) hr hwithin (by decide)
        (by decide)
    rw [List.append_assoc, List.singleton_append, hsame]
    refine ⟨hkind.symm, ?_⟩
    rw [List.append_cons, Nat.add_sub_cancel, ← hlength, List.take_left]

/-- Complete tokens do not depend on what follows. -/
theorem IsLexeme.complete {t : Token} {x : Text} (h : IsLexeme t x) (hcomplete : IsComplete t)
    (y : Text) : IsLexeme t y := by
  rcases hcomplete with hkind | htexts
  · exact (h.function hkind).2 y
  · obtain ⟨b, u, htext, hscan, -⟩ := h
    rw [htext] at htexts
    obtain ⟨kind, hall⟩ := scan_of_complete htexts
    rw [hall] at hscan
    refine ⟨b, u, htext, ?_, ?_⟩
    · rw [hall, hscan]
    · rw [hall, Nat.add_sub_cancel, List.take_left]

/-- Tokens in front of a complete one are settled at a byte of it. -/
theorem IsLexeme.exists_end {t : Token} {x : Text} (h : IsLexeme t x) (hcomplete : IsComplete t) :
    ∃ v c u, t.text = v ++ c :: u ∧ c ∈ ends ∧ c ∉ [ascii '.', ascii '!'] := by
  rcases hcomplete with hkind | htexts
  · obtain ⟨v, htext⟩ := (h.function hkind).1
    exact ⟨v, ascii '(', [], htext, by decide, by decide⟩
  · obtain ⟨b, u, htext, -, -⟩ := h
    have hall : ∀ s ∈ completeTexts, ∀ c ∈ s.head?, c ∈ ends ∧ c ∉ [ascii '.', ascii '!'] := by
      decide +kernel
    exact ⟨[], b, u, htext, hall t.text htexts b (by rw [htext]; rfl)⟩

/-! ## Words that stay apart -/

/-- White space other than a line break stands first. -/
def StartsPlain (gap : List Token) : Prop :=
  ∀ c ∈ (textOf gap).head?, isSpace c = true ∧ isNewline c = false

/-- The text begins with a byte that ends what stands in front of it. -/
def StartsApart (front text : Text) : Prop := ∀ c ∈ text.head?, c ∈ ends ∧ ¬ Joins front c

/-- The word `w` is still apart from what stands in front of it in the text that
    is kept; `front` is the text in front, and `last` its last token. -/
structure Apart (front : Text) (last : Token) (w : Word) : Prop where
  touching : w.spaces = 0 →
    w.gap = [] ∨ IsComplete last ∨ StartsApart last.text w.token.text
  spaced : w.spaces ≠ 0 → StartsPlain w.gap ∨ ¬ OpenEscape front

/-- All words are, one after the other. -/
def SeparatedFrom (front : Text) (last : Token) : List Word → Prop
  | [] => True
  | w :: ws => Apart front last w ∧
      SeparatedFrom (front ++ textOf w.gap ++ w.token.text) w.token ws

/-- The words of a run stay apart in the text that is kept of it. -/
def Separated (ts : List Token) : Prop :=
  ∀ w ∈ (words ts).head?, SeparatedFrom w.token.text w.token (words ts).tail

instance (gap : List Token) : Decidable (StartsPlain gap) :=
  inferInstanceAs (Decidable (∀ c ∈ (textOf gap).head?, _))

instance (front text : Text) : Decidable (StartsApart front text) :=
  inferInstanceAs (Decidable (∀ c ∈ text.head?, _))

theorem apart_iff {front : Text} {last : Token} {w : Word} :
    Apart front last w ↔
      (w.spaces = 0 → w.gap = [] ∨ IsComplete last ∨ StartsApart last.text w.token.text) ∧
      (w.spaces ≠ 0 → StartsPlain w.gap ∨ ¬ OpenEscape front) :=
  ⟨fun h => ⟨h.touching, h.spaced⟩, fun h => ⟨h.1, h.2⟩⟩

instance (front : Text) (last : Token) (w : Word) : Decidable (Apart front last w) :=
  decidable_of_iff _ apart_iff.symm

instance decidableSeparatedFrom (front : Text) (last : Token) :
    (ws : List Word) → Decidable (SeparatedFrom front last ws)
  | [] => isTrue trivial
  | w :: ws =>
    have := decidableSeparatedFrom (front ++ textOf w.gap ++ w.token.text) w.token ws
    inferInstanceAs (Decidable (_ ∧ _))

instance (ts : List Token) : Decidable (Separated ts) :=
  inferInstanceAs (Decidable (∀ w ∈ (words ts).head?, _))

/-! ## What an open escape is offered -/

theorem offersLess_nil (x : Text) : OffersLess x [] := ⟨fun _ => rfl, Nat.zero_le _⟩

theorem one_le_one (p : UInt8 → Bool) (t : Text) : one p t ≤ 1 := by
  cases t with
  | nil => exact Nat.zero_le 1
  | cons b t =>
    rw [one]
    split <;> omega

/-- A space offers no more than other white space, line breaks apart. -/
theorem offersLess_of_space {c : UInt8} (hspace : isSpace c = true) (hnewline : isNewline c = false)
    (x y : Text) : OffersLess (c :: x) y := by
  refine ⟨fun hnone => ?_, ?_⟩
  · rw [escape?_cons, if_neg (by rw [hnewline]; decide)] at hnone
    cases hnone
  · have hone : one isSpace (c :: x) = 1 := if_pos hspace
    rw [hone]
    exact one_le_one isSpace y

/-- A byte that is no white space offers no more than a comment. -/
theorem offersLess_of_slash (x : Text) {y : Text} (hy : ∀ c ∈ y.head?, isSpace c = false) :
    OffersLess (ascii '/' :: x) y := by
  refine ⟨fun hnone => ?_, ?_⟩
  · rw [escape?_cons, if_neg (by decide)] at hnone
    cases hnone
  · cases y with
    | nil => exact Nat.zero_le _
    | cons c y =>
      have hzero : one isSpace (c :: y) = 0 := if_neg (by rw [hy c rfl]; decide)
      rw [hzero]
      exact Nat.zero_le _

/-! ## Words in the text that is kept -/

theorem IsLexeme.head_of_isFiller {t : Token} {rest : Text} (h : IsLexeme t rest)
    (hfiller : t.isFiller = true) :
    ∃ c u, t.text = c :: u ∧ c ∈ halts ∧ (t.kind = .comment → c = ascii '/') := by
  rcases Token.isFiller_iff.mp hfiller with hspace | hcomment
  · have hkind := Token.isSpace_iff.mp hspace
    obtain ⟨hne, hall, -⟩ := (isLexeme_space_iff hkind).mp h
    obtain ⟨c, u, htext⟩ := List.exists_cons_of_ne_nil hne
    have hc := hall c (by rw [htext]; exact List.mem_cons_self)
    refine ⟨c, u, htext, List.mem_append_left _ (mem_stops_of_isSpace hc), fun hcomment => ?_⟩
    rw [hkind] at hcomment
    cases hcomment
  · obtain ⟨c, u, htext, hscan, -⟩ := h
    obtain ⟨more, hmore⟩ := comment_of_scan (hscan.trans hcomment)
    have hc : c = ascii '/' := (List.cons.inj hmore).1
    exact ⟨c, u, htext, by rw [hc]; decide, fun _ => hc⟩

section Kept

variable {ws : List Word} {trail : List Token} {x : Text}

/-- Filler at the end of a run and what follows it begin with a halt. -/
theorem halts_of_trail (htrail : ∀ t ∈ trail, t.isFiller = true) (h : Lexemes trail x)
    (hx : Stopped x) :
    textOf trail ++ x ≠ [] ∧ ∀ c ∈ (textOf trail ++ x).head?, c ∈ halts := by
  cases trail with
  | nil => exact ⟨hx.ne_nil, hx.halts⟩
  | cons t trail =>
    obtain ⟨c, u, htext, hc, -⟩ := h.1.head_of_isFiller (htrail t List.mem_cons_self)
    rw [Token.textOf_cons, htext]
    refine ⟨List.cons_ne_nil _ _, ?_⟩
    rintro _ ⟨⟩
    exact hc

/-- In the source a word behind a gap goes on with a halt, the slash of a comment
    if there is no white space. -/
theorem exists_gap_head {w : Word} {rest : Text} (hproper : w.IsProper) (hne : w.gap ≠ [])
    (h : Lexemes w.tokens rest) :
    ∃ c u, textOf w.tokens ++ rest = c :: u ∧ c ∈ halts ∧ (textOf w.gap).head? = some c ∧
      (w.spaces = 0 → c = ascii '/') := by
  obtain ⟨f, gap, hgap⟩ := List.exists_cons_of_ne_nil hne
  have hfiller : f.isFiller = true := hproper.gap f (by rw [hgap]; exact List.mem_cons_self)
  have hgaps := (lexemes_append.mp h).1
  rw [hgap] at hgaps
  obtain ⟨c, u, htext, hc, hslash⟩ := hgaps.1.head_of_isFiller hfiller
  have hhead : textOf w.gap = c :: (u ++ textOf gap) := by
    rw [hgap, Token.textOf_cons, htext, List.cons_append]
  refine ⟨c, u ++ textOf gap ++ (w.token.text ++ rest), ?_, hc, by rw [hhead]; rfl, fun hzero => ?_⟩
  · rw [Word.tokens, Token.textOf_append, hhead, Token.textOf_cons, Token.textOf_nil]
    simp
  · have hnone := Word.any_isSpace_eq w
    rw [hzero, hgap, List.any_cons] at hnone
    have hspace : f.isSpace = false := (Bool.or_eq_false_iff.mp hnone).1
    exact hslash ((Token.isFiller_iff.mp hfiller).resolve_left (by rw [hspace]; decide))

/-- A word behind a gap: from the gap on the texts may be exchanged. -/
theorem Apart.exchange {w : Word} {front v rest rest' : Text} {last : Token}
    (hproper : w.IsProper) (hne : w.gap ≠ [])
    (h : Lexemes w.tokens rest) (hlast : ¬ IsComplete last) (hapart : Apart front last w)
    (hv : v <:+ front) (hend : last.text <:+ v) :
    Exchange v (textOf w.tokens ++ rest) (w.text ++ rest') := by
  obtain ⟨c, u, hleft, hc, hgap, hslash⟩ := exists_gap_head hproper hne h
  have hhead : ∀ d ∈ (c :: u).head?, d ∈ halts := by
    rintro _ ⟨⟩
    exact hc
  rw [hleft]
  by_cases hzero : w.spaces = 0
  · -- A comment: the text that is kept goes on with the token.
    have htoken := (lexemes_append.mp h).2.1
    obtain ⟨b, t, hfirst, hb⟩ := htoken.exists_cons (Token.isFiller_eq_false_iff.mp hproper.token).1
    have hright : w.text ++ rest' = b :: (t ++ rest') := by
      rw [Word.text, hzero, hfirst]
      rfl
    have hescapes : OffersLess (c :: u) (b :: (t ++ rest')) := by
      rw [hslash hzero]
      refine offersLess_of_slash u ?_
      rintro _ ⟨⟩
      exact hb
    have htouching := hapart.touching hzero
    rw [hfirst] at htouching
    rw [hright]
    rcases htouching with hnil | hcomplete | hends
    · exact absurd hnil hne
    · exact absurd hcomplete hlast
    · refine exchange_of_ends (List.cons_ne_nil c u) hhead (fun d hd => ?_) fun _ => hescapes
      exact ⟨(hends d hd).1, fun hjoins => (hends d hd).2 (hjoins.of_suffix hend)⟩
  · -- White space: it goes on with a space.
    obtain ⟨k, hk⟩ := Nat.exists_eq_succ_of_ne_zero hzero
    rw [Word.text, hk, List.replicate_succ, List.append_assoc, List.cons_append]
    refine exchange_of_halts (List.cons_ne_nil c u) hhead ?_ fun hopen => ?_
    · rintro _ ⟨⟩
      decide
    · rcases hapart.spaced hzero with hplain | hclosed
      · have hspace := hplain c hgap
        exact offersLess_of_space hspace.1 hspace.2 u _
      · exact absurd (hopen.of_suffix hv) hclosed

/-- Behind a token that is not complete, the text of the source and the text that
    is kept are the same up to a place where they may be exchanged. -/
theorem exists_exchange (hproper : ∀ w ∈ ws, w.IsProper) (htrail : ∀ t ∈ trail, t.isFiller = true)
    (h : Lexemes (ws.flatMap Word.tokens ++ trail) x) (hx : Stopped x) {front v : Text}
    {last : Token} (hlast : ¬ IsComplete last) (hsep : SeparatedFrom front last ws)
    (hv : v <:+ front) (hend : last.text <:+ v) :
    ∃ w x' y', textOf (ws.flatMap Word.tokens ++ trail) ++ x = w ++ x' ∧
      ws.flatMap Word.text = w ++ y' ∧ Exchange (v ++ w) x' y' := by
  induction ws generalizing front v last with
  | nil =>
    obtain ⟨hne, hhalts⟩ := halts_of_trail htrail h hx
    refine ⟨[], _, [], rfl, rfl, ?_⟩
    rw [List.append_nil]
    exact exchange_of_halts hne hhalts (fun _ hc => nomatch hc) fun _ => offersLess_nil _
  | cons w ws ih =>
    rw [List.forall_mem_cons] at hproper
    obtain ⟨hapart, hrest⟩ := hsep
    rw [List.flatMap_cons, List.append_assoc] at h ⊢
    obtain ⟨hword, hws⟩ := lexemes_append.mp h
    rw [Token.textOf_append, List.append_assoc, List.flatMap_cons]
    by_cases hgap : w.gap = []
    · have htokens : w.tokens = [w.token] := by
        rw [Word.tokens, hgap]
        rfl
      have htext : w.text = w.token.text := by
        rw [Word.text, Word.spaces, hgap]
        rfl
      rw [htokens] at hword ⊢
      rw [Token.textOf_cons, Token.textOf_nil, List.append_nil, htext]
      by_cases hcomplete : IsComplete w.token
      · -- A complete token has a byte at which all in front of it is settled.
        obtain ⟨a, c, b, htoken, hc, hlooked⟩ := hword.1.exists_end hcomplete
        refine ⟨a, c :: (b ++ (textOf (ws.flatMap Word.tokens ++ trail) ++ x)),
          c :: (b ++ ws.flatMap Word.text), ?_, ?_, exchange_of_head hc hlooked _ _ _⟩
        · rw [htoken, List.append_assoc, List.cons_append]
        · rw [htoken, List.append_assoc, List.cons_append]
      · rw [hgap, Token.textOf_nil, List.append_nil] at hrest
        have hsuffix : v ++ w.token.text <:+ front ++ w.token.text := by
          obtain ⟨before, rfl⟩ := hv
          exact ⟨before, (List.append_assoc before v w.token.text).symm⟩
        obtain ⟨a, x', y', hleft, hright, hexchange⟩ := ih hproper.2 hws hcomplete hrest hsuffix
          (List.suffix_append v w.token.text)
        refine ⟨w.token.text ++ a, x', y', ?_, ?_, ?_⟩
        · rw [hleft, List.append_assoc]
        · rw [hright, List.append_assoc]
        · rw [← List.append_assoc]
          exact hexchange
    · refine ⟨[], _, _, rfl, rfl, ?_⟩
      rw [List.append_nil]
      exact hapart.exchange hproper.1 hgap hword hlast hv hend

/-- A token is found in the text that is kept. -/
theorem IsLexeme.kept {t : Token} (ht : IsLexeme t (textOf (ws.flatMap Word.tokens ++ trail) ++ x))
    (hfiller : t.isFiller = false) (hgood : t.kind ≠ .badUrl) (hproper : ∀ w ∈ ws, w.IsProper)
    (htrail : ∀ t ∈ trail, t.isFiller = true) (h : Lexemes (ws.flatMap Word.tokens ++ trail) x)
    (hx : Stopped x) {front : Text} (hsep : SeparatedFrom front t ws) (hfront : t.text <:+ front) :
    IsLexeme t (ws.flatMap Word.text) := by
  by_cases hcomplete : IsComplete t
  · exact ht.complete hcomplete _
  · obtain ⟨w, x', y', hleft, hright, hexchange⟩ := exists_exchange hproper htrail h hx hcomplete
      hsep hfront List.suffix_rfl
    rw [hleft] at ht
    rw [hright]
    exact ht.append hexchange (Token.isFiller_eq_false_iff.mp hfiller).1 hgood

/-- One word in front of others. -/
theorem lexemes_kept_cons {w : Word} (hproper : w.IsProper) {ts : List Token}
    (htoken : IsLexeme w.token (textOf ts)) (h : Lexemes ts []) : Lexemes (w.kept ++ ts) [] := by
  have hfound : Lexemes (w.token :: ts) [] := ⟨by rw [List.append_nil]; exact htoken, h⟩
  unfold Word.kept
  split
  · exact hfound
  · rename_i hspaces
    obtain ⟨b, u, htext, hb⟩ := htoken.exists_cons (Token.isFiller_eq_false_iff.mp hproper.token).1
    refine ⟨(isLexeme_space_iff rfl).mpr ⟨?_, ?_, ?_⟩, hfound⟩
    · exact fun hnil => hspaces (by simpa using congrArg List.length hnil)
    · intro c hc
      rw [List.eq_of_mem_replicate hc]
      decide
    · show ∀ c, (textOf (w.token :: ts) ++ []).head? = some c → isSpace c = false
      rw [Token.textOf_cons, htext]
      rintro _ ⟨⟩
      exact hb

/-- The words of a run are found in the text that is kept. -/
theorem lexemes_kept (hproper : ∀ w ∈ ws, w.IsProper) (htrail : ∀ t ∈ trail, t.isFiller = true)
    (h : Lexemes (ws.flatMap Word.tokens ++ trail) x) (hx : Stopped x)
    (hgood : ∀ w ∈ ws, w.token.kind ≠ .badUrl) {front : Text} {last : Token}
    (hsep : SeparatedFrom front last ws) : Lexemes (ws.flatMap Word.kept) [] := by
  induction ws generalizing front last with
  | nil => exact lexemes_nil []
  | cons w ws ih =>
    rw [List.forall_mem_cons] at hproper hgood
    rw [List.flatMap_cons, List.append_assoc] at h
    obtain ⟨hword, hrest⟩ := lexemes_append.mp h
    have htoken := (lexemes_append.mp hword).2.1
    rw [List.flatMap_cons]
    refine lexemes_kept_cons hproper.1 ?_ (ih hproper.2 hrest hgood.2 hsep.2)
    rw [Token.textOf_flatMap_kept]
    exact htoken.kept hproper.1.token hgood.1 hproper.2 htrail hrest hx hsep.2
      (List.suffix_append _ _)

end Kept

theorem Separated.from_nil {ts : List Token} (h : Separated ts)
    (hfirst : ∀ w ∈ (words ts).head?, w.gap = []) (last : Token) :
    SeparatedFrom [] last (words ts) := by
  unfold Separated at h
  cases hws : words ts with
  | nil => exact trivial
  | cons w ws =>
    rw [hws] at h hfirst
    have hgap : w.gap = [] := hfirst w rfl
    have hspaces : w.spaces = 0 := by
      rw [Word.spaces, hgap]
      rfl
    refine ⟨⟨fun _ => .inl hgap, fun hne => absurd hspaces hne⟩, ?_⟩
    rw [hgap, Token.textOf_nil, List.append_nil, List.nil_append]
    exact h w rfl

/-- What is kept of a run whose words stay apart is read as its words, with white
    space at the same places and without comments. -/
theorem Lexemes.words_lex {ts : List Token} {x : Text} (h : Lexemes ts x) (hx : Stopped x)
    (hgood : ∀ t ∈ ts, t.kind ≠ .badUrl) (hsep : Separated ts) :
    (words (lex 0 ((words ts).flatMap Word.text))).map Word.shown = (words ts).map Word.shown ∧
      ∀ t ∈ lex 0 ((words ts).flatMap Word.text), t.kind ≠ .comment := by
  obtain ⟨hproper, hfirst, lead, trail, -, htrail, heq⟩ := Token.exists_eq_words ts
  have hall := h
  rw [heq] at hall
  have hgood' : ∀ w ∈ words ts, w.token.kind ≠ .badUrl := by
    intro w hw
    refine hgood w.token ?_
    rw [heq]
    refine List.mem_append_right _ (List.mem_append_left _ (List.mem_flatMap.mpr ⟨w, hw, ?_⟩))
    exact List.mem_append_right _ List.mem_cons_self
  have hkept := lexemes_kept hproper htrail (lexemes_append.mp hall).2 hx hgood'
    (hsep.from_nil hfirst default)
  obtain ⟨us, hus, hlex⟩ := lex_of_lexemes hkept 0
  rw [Token.textOf_flatMap_kept, List.append_nil, lex, List.append_nil] at hlex
  rw [hlex]
  refine ⟨?_, fun t ht => ?_⟩
  · rw [Token.shown_words_congr hus, Token.shown_words_kept hproper hfirst]
  · have hbare : t.bare ∈ ((words ts).flatMap Word.kept).map bare := by
      rw [← hus]
      exact List.mem_map_of_mem ht
    obtain ⟨u, hu, hut⟩ := List.mem_map.mp hbare
    obtain ⟨w, hw, hu⟩ := List.mem_flatMap.mp hu
    have hkind : u.bare.kind = t.bare.kind := congrArg Token.kind hut
    have hne := (hproper w hw).ne_comment_of_mem_kept hu
    exact fun hcomment => hne (hkind.trans hcomment)

end MixinCss.Lexer
