/-
  MixinCss.Proofs.Token.Words

  The tokens of a run with the filler between them. White space and comments are
  filler, every other token is a word. A run is kept without its comments and
  with one space for each white space between words (`raw_withoutComments`).

  The tokens that this text should be read as (`Word.kept`) have the same words
  as the run, with white space at the same places (`shown_words_kept`).
-/

import MixinCss.Proofs.Token.Lexemes

namespace MixinCss

namespace Token

/-! ## Words -/

/-- White space or a comment. -/
def isFiller (t : Token) : Bool := t.isSpace || t.kind == .comment

/-- A token that is no filler, with the filler in front of it. -/
structure Word where
  gap : List Token
  token : Token
deriving DecidableEq, Repr

namespace Word

/-- How many white spaces stand in front of the token; there are comments between them. -/
def spaces (w : Word) : Nat := w.gap.countP isSpace

/-- The token, and whether there is white space in front of it. -/
def shown (w : Word) : Bool × Token := (w.gap.any isSpace, w.token.bare)

/-- The token with as many spaces in front of it. -/
def text (w : Word) : Text := List.replicate w.spaces (ascii ' ') ++ w.token.text

/-- All tokens of the word. -/
def tokens (w : Word) : List Token := w.gap ++ [w.token]

/-- The gap is filler and the token is none. -/
structure IsProper (w : Word) : Prop where
  gap : ∀ t ∈ w.gap, t.isFiller = true
  token : w.token.isFiller = false

end Word

/-- The words of a run with the filler `gap` in front of it. -/
def wordsFrom (gap : List Token) : List Token → List Word
  | [] => []
  | t :: ts => if t.isFiller then wordsFrom (gap ++ [t]) ts else ⟨gap, t⟩ :: wordsFrom [] ts

/-- The words of a run. In front of the first one there is no gap. -/
def words (ts : List Token) : List Word := wordsFrom [] (ts.dropWhile isFiller)

theorem isFiller_eq_false_iff {t : Token} :
    t.isFiller = false ↔ t.kind ≠ .whitespace ∧ t.kind ≠ .comment := by
  rw [isFiller, Bool.or_eq_false_iff, isSpace_eq_false_iff, beq_eq_false_iff_ne]

theorem isFiller_iff {t : Token} : t.isFiller = true ↔ t.isSpace = true ∨ t.kind = .comment := by
  rw [isFiller, Bool.or_eq_true, beq_iff_eq]

theorem isSpace_of_isFiller {t : Token} (h : t.isFiller = false) : t.isSpace = false :=
  isSpace_eq_false_iff.mpr (isFiller_eq_false_iff.mp h).1

theorem wordsFrom_append_cons {g : List Token} (hg : ∀ t ∈ g, t.isFiller = true) {t : Token}
    (ht : t.isFiller = false) (gap ts : List Token) :
    wordsFrom gap (g ++ t :: ts) = ⟨gap ++ g, t⟩ :: wordsFrom [] ts := by
  induction g generalizing gap with
  | nil =>
    rw [List.nil_append, wordsFrom, if_neg (by rw [ht]; decide), List.append_nil]
  | cons f g ih =>
    rw [List.forall_mem_cons] at hg
    rw [List.cons_append, wordsFrom, if_pos hg.1, ih hg.2, List.append_assoc, List.singleton_append]

/-- A run is made of its words and of filler at the end. -/
theorem exists_eq_wordsFrom {gap : List Token} (hgap : ∀ t ∈ gap, t.isFiller = true)
    (ts : List Token) :
    (∀ w ∈ wordsFrom gap ts, w.IsProper) ∧
      ∃ trail, (∀ t ∈ trail, t.isFiller = true) ∧
        gap ++ ts = (wordsFrom gap ts).flatMap Word.tokens ++ trail := by
  induction ts generalizing gap with
  | nil => exact ⟨fun _ hw => absurd hw List.not_mem_nil, gap, hgap, List.append_nil gap⟩
  | cons t ts ih =>
    rw [wordsFrom]
    split
    · rename_i hfiller
      have hmore : ∀ u ∈ gap ++ [t], u.isFiller = true :=
        List.forall_mem_append.mpr ⟨hgap, List.forall_mem_singleton.mpr hfiller⟩
      obtain ⟨hproper, trail, htrail, heq⟩ := ih hmore
      exact ⟨hproper, trail, htrail, by rw [← heq, ← List.append_cons]⟩
    · rename_i hfiller
      have hnone : ∀ u ∈ ([] : List Token), u.isFiller = true := fun _ hu =>
        absurd hu List.not_mem_nil
      obtain ⟨hproper, trail, htrail, heq⟩ := ih hnone
      refine ⟨List.forall_mem_cons.mpr ⟨⟨hgap, Bool.eq_false_iff.mpr hfiller⟩, hproper⟩,
        trail, htrail, ?_⟩
      rw [List.flatMap_cons, Word.tokens, List.append_assoc, ← heq, List.append_assoc,
        List.nil_append, List.singleton_append]

/-- A run is made of filler, its words and filler again. -/
theorem exists_eq_words (ts : List Token) :
    (∀ w ∈ words ts, w.IsProper) ∧ (∀ w ∈ (words ts).head?, w.gap = []) ∧
      ∃ lead trail, (∀ t ∈ lead, t.isFiller = true) ∧ (∀ t ∈ trail, t.isFiller = true) ∧
        ts = lead ++ ((words ts).flatMap Word.tokens ++ trail) := by
  have hnone : ∀ t ∈ ([] : List Token), t.isFiller = true := fun _ ht =>
    absurd ht List.not_mem_nil
  obtain ⟨hproper, trail, htrail, heq⟩ := exists_eq_wordsFrom hnone (ts.dropWhile isFiller)
  refine ⟨hproper, ?_, ts.takeWhile isFiller, trail, fun t ht => List.mem_takeWhile_imp ht,
    htrail, ?_⟩
  · -- The run has been stripped of the filler in front of the first word.
    rw [words]
    cases hrest : ts.dropWhile isFiller with
    | nil => exact fun _ hw => nomatch hw
    | cons t rest =>
      have ht : t.isFiller = false := by
        have hhead := List.head?_dropWhile_not isFiller ts
        rw [hrest] at hhead
        exact Bool.eq_false_iff.mpr (by simpa using hhead)
      rw [wordsFrom, if_neg (by rw [ht]; decide)]
      rintro _ ⟨⟩
      rfl
  · rw [words, ← heq, List.nil_append, List.takeWhile_append_dropWhile]

/-! ## The text that is kept -/

/-- The tokens of a run that are no comments. -/
def withoutComments (ts : List Token) : List Token := ts.filter fun t => t.kind != .comment

theorem withoutComments_append (ts us : List Token) :
    withoutComments (ts ++ us) = withoutComments ts ++ withoutComments us := List.filter_append ..

theorem withoutComments_cons_of_ne {t : Token} (h : t.kind ≠ .comment) (ts : List Token) :
    withoutComments (t :: ts) = t :: withoutComments ts :=
  List.filter_cons_of_pos (p := fun t : Token => t.kind != .comment) (bne_iff_ne.mpr h)

theorem withoutComments_cons_of_eq {t : Token} (h : t.kind = .comment) (ts : List Token) :
    withoutComments (t :: ts) = withoutComments ts :=
  List.filter_cons_of_neg (p := fun t : Token => t.kind != .comment)
    fun hne => bne_iff_ne.mp hne h

theorem blank_withoutComments {ts : List Token} (h : ∀ t ∈ ts, t.isFiller = true) :
    blank (withoutComments ts) = true := by
  rw [blank_iff]
  intro t ht
  obtain ⟨hmem, hkind⟩ := List.mem_filter.mp ht
  exact (isFiller_iff.mp (h t hmem)).resolve_right (bne_iff_ne.mp hkind)

theorem Word.withoutComments_tokens {w : Word} (h : w.IsProper) :
    withoutComments w.tokens = withoutComments w.gap ++ [w.token] := by
  have hkind := (isFiller_eq_false_iff.mp h.token).2
  rw [Word.tokens, withoutComments_append, withoutComments_cons_of_ne hkind]
  rfl

/-- No white space stands behind the last word. -/
theorem rdropWhile_words {ws : List Word} (h : ∀ w ∈ ws, w.IsProper) :
    (withoutComments (ws.flatMap Word.tokens)).rdropWhile isSpace =
      withoutComments (ws.flatMap Word.tokens) := by
  induction ws with
  | nil => rfl
  | cons w ws ih =>
    rw [List.forall_mem_cons] at h
    rw [List.flatMap_cons, withoutComments_append, Word.withoutComments_tokens h.1,
      List.append_assoc, List.singleton_append,
      rdropWhile_append_cons (isSpace_of_isFiller h.1.token), ih h.2]

theorem trim_words {ws : List Word} (h : ∀ w ∈ ws, w.IsProper)
    (hfirst : ∀ w ∈ ws.head?, w.gap = []) :
    trim (withoutComments (ws.flatMap Word.tokens)) = withoutComments (ws.flatMap Word.tokens) := by
  cases ws with
  | nil => rfl
  | cons w ws =>
    rw [List.forall_mem_cons] at h
    have hgap : w.gap = [] := hfirst w rfl
    have htokens : withoutComments w.tokens = [w.token] := by
      rw [Word.withoutComments_tokens h.1, hgap]
      rfl
    rw [List.flatMap_cons, withoutComments_append, htokens, List.singleton_append,
      trim_cons (isSpace_of_isFiller h.1.token), rdropWhile_words h.2]

theorem textOf_squeezed_gap {gap : List Token} (h : ∀ t ∈ gap, t.isFiller = true) :
    textOf ((withoutComments gap).map squeezed) =
      List.replicate (gap.countP isSpace) (ascii ' ') := by
  induction gap with
  | nil => rfl
  | cons t gap ih =>
    rw [List.forall_mem_cons] at h
    have hrest := ih h.2
    rcases isFiller_iff.mp h.1 with hspace | hcomment
    · have hkind : t.kind ≠ .comment := by
        rw [isSpace_iff.mp hspace]
        decide
      rw [withoutComments_cons_of_ne hkind, List.map_cons, textOf_cons,
        squeezed_of_isSpace hspace, hrest, List.countP_cons_of_pos hspace, List.replicate_succ]
      rfl
    · have hspace : ¬ t.isSpace = true := by
        rw [isSpace_iff, hcomment]
        decide
      rw [withoutComments_cons_of_eq hcomment, List.countP_cons_of_neg hspace, hrest]

theorem textOf_squeezed_words {ws : List Word} (h : ∀ w ∈ ws, w.IsProper) :
    textOf ((withoutComments (ws.flatMap Word.tokens)).map squeezed) = ws.flatMap Word.text := by
  induction ws with
  | nil => rfl
  | cons w ws ih =>
    rw [List.forall_mem_cons] at h
    rw [List.flatMap_cons, withoutComments_append, Word.withoutComments_tokens h.1,
      List.map_append, List.map_append, textOf_append, textOf_append, textOf_squeezed_gap h.1.gap,
      ih h.2, List.flatMap_cons]
    have htoken : textOf ([w.token].map squeezed) = w.token.text := by
      rw [List.map_singleton, squeezed_of_not_isSpace (isSpace_of_isFiller h.1.token), textOf_cons,
        textOf_nil, List.append_nil]
    rw [htoken]
    rfl

/-- A run is kept without its comments, and with one space for each white space
    between its words. -/
theorem raw_withoutComments (ts : List Token) :
    raw (withoutComments ts) = (words ts).flatMap Word.text := by
  obtain ⟨hproper, hfirst, lead, trail, hlead, htrail, heq⟩ := exists_eq_words ts
  have htrim : trim (withoutComments ts) =
      withoutComments ((words ts).flatMap Word.tokens) := by
    conv => lhs; rw [heq]
    rw [withoutComments_append, withoutComments_append,
      trim_blank_append (blank_withoutComments hlead),
      trim_append_blank (blank_withoutComments htrail), trim_words hproper hfirst]
  rw [raw_eq_textOf, htrim, textOf_squeezed_words hproper]

/-! ## What the text is read as -/

/-- The tokens that the text of a word is read as. -/
def Word.kept (w : Word) : List Token :=
  if w.spaces = 0 then [w.token]
  else [⟨.whitespace, List.replicate w.spaces (ascii ' '), 0⟩, w.token]

theorem Word.IsProper.ne_comment_of_mem_kept {w : Word} (h : w.IsProper) {t : Token}
    (ht : t ∈ w.kept) : t.kind ≠ .comment := by
  have htoken := (isFiller_eq_false_iff.mp h.token).2
  unfold Word.kept at ht
  split at ht
  · rw [List.mem_singleton.mp ht]
    exact htoken
  · rcases List.mem_cons.mp ht with rfl | ht
    · exact fun hcomment => nomatch hcomment
    · rw [List.mem_singleton.mp ht]
      exact htoken

theorem textOf_kept (w : Word) : textOf w.kept = w.text := by
  unfold Word.kept Word.text
  split
  · rename_i hzero
    simp [hzero]
  · simp

theorem textOf_flatMap_kept (ws : List Word) :
    textOf (ws.flatMap Word.kept) = ws.flatMap Word.text := by
  unfold textOf
  rw [List.flatMap_assoc]
  exact List.flatMap_congr fun w _ => textOf_kept w

theorem Word.any_isSpace_eq (w : Word) : w.gap.any isSpace = decide (w.spaces ≠ 0) := by
  rw [Bool.eq_iff_iff, List.any_eq_true, decide_eq_true_eq, ← Nat.pos_iff_ne_zero, Word.spaces,
    List.countP_pos_iff]

theorem shown_wordsFrom_kept {ws : List Word} (h : ∀ w ∈ ws, w.IsProper) :
    (wordsFrom [] (ws.flatMap Word.kept)).map Word.shown = ws.map Word.shown := by
  induction ws with
  | nil => rfl
  | cons w ws ih =>
    rw [List.forall_mem_cons] at h
    rw [List.flatMap_cons, List.map_cons, ← ih h.2, Word.shown, Word.any_isSpace_eq, Word.kept]
    split
    · rename_i hzero
      rw [List.singleton_append, ← List.nil_append (w.token :: _),
        wordsFrom_append_cons (g := []) (fun _ ht => absurd ht List.not_mem_nil) h.1.token, hzero]
      rfl
    · rename_i hspaces
      have hspace : ∀ t ∈ [(⟨.whitespace, List.replicate w.spaces (ascii ' '), 0⟩ : Token)],
          t.isFiller = true := List.forall_mem_singleton.mpr rfl
      rw [List.cons_append, List.singleton_append, ← List.singleton_append,
        wordsFrom_append_cons hspace h.1.token, decide_eq_true hspaces]
      rfl

/-- The words of a text that is kept are those of the run. -/
theorem shown_words_kept {ws : List Word} (h : ∀ w ∈ ws, w.IsProper)
    (hfirst : ∀ w ∈ ws.head?, w.gap = []) :
    (words (ws.flatMap Word.kept)).map Word.shown = ws.map Word.shown := by
  rw [← shown_wordsFrom_kept h, words]
  cases ws with
  | nil => rfl
  | cons w ws =>
    have hgap : w.gap = [] := hfirst w rfl
    have hkept : w.kept = [w.token] := by
      rw [Word.kept, Word.spaces, hgap]
      rfl
    have htoken := (h w List.mem_cons_self).token
    rw [List.flatMap_cons, hkept, List.singleton_append,
      List.dropWhile_cons_of_neg (by rw [htoken]; decide)]

theorem isFiller_bare (t : Token) : t.bare.isFiller = t.isFiller := rfl

theorem shown_wordsFrom_bare (gap ts : List Token) :
    (wordsFrom (gap.map bare) (ts.map bare)).map Word.shown =
      (wordsFrom gap ts).map Word.shown := by
  induction ts generalizing gap with
  | nil => rfl
  | cons t ts ih =>
    rw [List.map_cons, wordsFrom, wordsFrom, isFiller_bare]
    split
    · rw [← ih (gap ++ [t]), List.map_append]
      rfl
    · rw [List.map_cons, List.map_cons, ← ih []]
      refine congrArg₂ List.cons ?_ rfl
      show ((gap.map bare).any isSpace, t.bare.bare) = (gap.any isSpace, t.bare)
      rw [List.any_map]
      rfl

/-- Words do not depend on the places of tokens. -/
theorem shown_words_congr {ts us : List Token} (h : ts.map bare = us.map bare) :
    (words ts).map Word.shown = (words us).map Word.shown := by
  have hbare : ∀ vs : List Token, (words vs).map Word.shown =
      (words (vs.map bare)).map Word.shown := by
    intro vs
    rw [words, words, List.dropWhile_map]
    exact (shown_wordsFrom_bare [] (vs.dropWhile isFiller)).symm
  rw [hbare ts, hbare us, h]

end Token

end MixinCss
