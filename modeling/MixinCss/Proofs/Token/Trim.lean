/-
  MixinCss.Proofs.Token.Trim

  White space at the ends of a token list. `trim` cuts a list into white space,
  the tokens from the first one that is not white space up to the last such
  one, and white space again; `trim_eq_cons_iff` says so for lists that are not
  blank and `trim_eq_nil_iff` for those that are.
-/

import Mathlib.Data.List.DropRight
import MixinCss.Token.Basic

namespace MixinCss.Token

/-! ## Blank lists -/

theorem isSpace_iff {t : Token} : t.isSpace = true ↔ t.kind = .whitespace := by
  unfold isSpace
  rw [beq_iff_eq]

theorem isSpace_eq_false_iff {t : Token} : t.isSpace = false ↔ t.kind ≠ .whitespace := by
  rw [← Bool.not_eq_true, isSpace_iff]

theorem isSpace_of_kind {t : Token} {kind : TokenKind} (h : t.kind = kind)
    (hkind : kind ≠ .whitespace) : t.isSpace = false := by
  rw [isSpace_eq_false_iff, h]
  exact hkind

@[simp] theorem blank_nil : blank [] = true := rfl

@[simp] theorem blank_cons (t : Token) (ts : List Token) :
    blank (t :: ts) = (t.isSpace && blank ts) := rfl

@[simp] theorem blank_append (front back : List Token) :
    blank (front ++ back) = (blank front && blank back) := List.all_append

@[simp] theorem blank_reverse (ts : List Token) : blank ts.reverse = blank ts := List.all_reverse

theorem blank_iff {ts : List Token} : blank ts = true ↔ ∀ t ∈ ts, t.isSpace = true :=
  List.all_eq_true

/-- A list that is not blank begins, after white space, with a first token. -/
theorem exists_first_of_not_blank {ts : List Token} (h : blank ts = false) :
    ∃ lead t rest, blank lead = true ∧ t.isSpace = false ∧ ts = lead ++ t :: rest := by
  induction ts with
  | nil => simp at h
  | cons t ts ih =>
    by_cases ht : t.isSpace = true
    · rw [blank_cons, ht, Bool.true_and] at h
      obtain ⟨lead, first, rest, hlead, hfirst, rfl⟩ := ih h
      exact ⟨t :: lead, first, rest, by rw [blank_cons, ht, hlead]; rfl, hfirst, rfl⟩
    · exact ⟨[], t, ts, rfl, by simpa using ht, rfl⟩

/-! ## White space at the end -/

theorem exists_eq_rdropWhile_append (ts : List Token) :
    ∃ trail, blank trail = true ∧ ts = ts.rdropWhile isSpace ++ trail := by
  refine ⟨ts.rtakeWhile isSpace, ?_, List.rdropWhile_append_rtakeWhile.symm⟩
  rw [blank_iff]
  intro t ht
  exact List.mem_rtakeWhile_imp ht

theorem rdropWhile_append_blank {ts trail : List Token} (h : blank trail = true) :
    (ts ++ trail).rdropWhile isSpace = ts.rdropWhile isSpace := by
  induction trail using List.reverseRecOn with
  | nil => rw [List.append_nil]
  | append_singleton trail t ih =>
    rw [blank_append, Bool.and_eq_true] at h
    have ht : t.isSpace = true := by simpa using h.2
    rw [← List.append_assoc, List.rdropWhile_concat_pos isSpace _ t ht, ih h.1]

/-- Tokens in front of one that is not white space stay. -/
theorem rdropWhile_append_cons {front back : List Token} {t : Token} (h : t.isSpace = false) :
    (front ++ t :: back).rdropWhile isSpace = front ++ t :: back.rdropWhile isSpace := by
  induction back using List.reverseRecOn with
  | nil => exact List.rdropWhile_concat_neg isSpace front t (by simp [h])
  | append_singleton back last ih =>
    -- Both sides lose `last`, or neither does.
    rw [← List.cons_append, ← List.append_assoc, List.rdropWhile_concat, List.rdropWhile_concat,
      ih]
    split
    · rfl
    · rw [List.append_assoc, List.cons_append]

theorem rdropWhile_cons {t : Token} {ts : List Token} (h : t.isSpace = false) :
    (t :: ts).rdropWhile isSpace = t :: ts.rdropWhile isSpace := by
  rw [← List.nil_append (t :: ts), rdropWhile_append_cons h, List.nil_append]

/-! ## White space at both ends -/

theorem trim_blank_append {lead ts : List Token} (h : blank lead = true) :
    trim (lead ++ ts) = trim ts := by
  unfold trim
  rw [List.dropWhile_append_of_pos (blank_iff.mp h)]

theorem trim_cons {t : Token} {ts : List Token} (h : t.isSpace = false) :
    trim (t :: ts) = t :: ts.rdropWhile isSpace := by
  have hdrop : (t :: ts).dropWhile isSpace = t :: ts := List.dropWhile_cons_of_neg (by simp [h])
  have htrim : trim (t :: ts) = ((t :: ts).dropWhile isSpace).rdropWhile isSpace := rfl
  rw [htrim, hdrop, rdropWhile_cons h]

theorem trim_eq_nil_iff {ts : List Token} : trim ts = [] ↔ blank ts = true := by
  constructor
  · intro h
    by_contra hblank
    obtain ⟨lead, t, rest, hlead, ht, rfl⟩ :=
      exists_first_of_not_blank (by simpa using hblank)
    rw [trim_blank_append hlead, trim_cons ht] at h
    exact List.cons_ne_nil _ _ h
  · intro h
    have hall : trim (ts ++ []) = trim [] := trim_blank_append h
    rw [List.append_nil] at hall
    exact hall

/-- What trimming leaves begins with the first token that is not white space. -/
theorem trim_eq_cons_iff {ts rest : List Token} {t : Token} :
    trim ts = t :: rest ↔
      ∃ lead body, blank lead = true ∧ t.isSpace = false ∧ ts = lead ++ t :: body ∧
        rest = body.rdropWhile isSpace := by
  constructor
  · intro h
    have hblank : blank ts = false := by
      rw [← Bool.not_eq_true, ← trim_eq_nil_iff, h]
      exact List.cons_ne_nil _ _
    obtain ⟨lead, first, body, hlead, hfirst, rfl⟩ := exists_first_of_not_blank hblank
    rw [trim_blank_append hlead, trim_cons hfirst, List.cons.injEq] at h
    obtain ⟨rfl, rfl⟩ := h
    exact ⟨lead, body, hlead, hfirst, rfl, rfl⟩
  · rintro ⟨lead, body, hlead, ht, rfl, rfl⟩
    rw [trim_blank_append hlead, trim_cons ht]

theorem trim_append_blank {ts trail : List Token} (h : blank trail = true) :
    trim (ts ++ trail) = trim ts := by
  cases hts : trim ts with
  | nil =>
    rw [trim_eq_nil_iff] at hts ⊢
    rw [blank_append, hts, h]
    rfl
  | cons t rest =>
    rw [trim_eq_cons_iff] at hts ⊢
    obtain ⟨lead, body, hlead, ht, rfl, rfl⟩ := hts
    refine ⟨lead, body ++ trail, hlead, ht, ?_, ?_⟩
    · rw [List.append_assoc, List.cons_append]
    · rw [rdropWhile_append_blank h]

theorem trim_rdropWhile (ts : List Token) : trim (ts.rdropWhile isSpace) = trim ts := by
  obtain ⟨trail, htrail, heq⟩ := exists_eq_rdropWhile_append ts
  conv => rhs; rw [heq]
  rw [trim_append_blank htrail]

theorem trim_trim (ts : List Token) : trim (trim ts) = trim ts := by
  cases hts : trim ts with
  | nil => rfl
  | cons t rest =>
    obtain ⟨lead, body, -, ht, -, rfl⟩ := trim_eq_cons_iff.mp hts
    rw [trim_cons ht, List.rdropWhile_idempotent]

theorem exists_eq_trim (ts : List Token) :
    ∃ lead trail, blank lead ∧ blank trail ∧ ts = lead ++ (trim ts ++ trail) := by
  obtain ⟨trail, htrail, heq⟩ := exists_eq_rdropWhile_append (ts.dropWhile isSpace)
  refine ⟨ts.takeWhile isSpace, trail, ?_, htrail, ?_⟩
  · exact blank_iff.2 fun t ht => List.mem_takeWhile_imp ht
  · have htrim : trim ts = (ts.dropWhile isSpace).rdropWhile isSpace := rfl
    rw [htrim, ← heq, List.takeWhile_append_dropWhile]

theorem mem_of_mem_trim {t : Token} {ts : List Token} (h : t ∈ trim ts) : t ∈ ts := by
  obtain ⟨lead, trail, -, -, hts⟩ := exists_eq_trim ts
  rw [hts]
  exact List.mem_append_right lead (List.mem_append_left trail h)

theorem isSpace_of_head?_trim {ts : List Token} {t : Token} (h : (trim ts).head? = some t) :
    t.isSpace = false := by
  obtain ⟨rest, hrest⟩ := List.head?_eq_some_iff.1 h
  obtain ⟨_, _, _, ht, _⟩ := trim_eq_cons_iff.1 hrest
  exact ht

theorem isSpace_of_getLast?_trim {ts : List Token} {t : Token} (h : (trim ts).getLast? = some t) :
    t.isSpace = false := by
  have hne : trim ts ≠ [] := fun hnil => by rw [hnil] at h; cases h
  have hlast := List.rdropWhile_last_not isSpace (ts.dropWhile isSpace) hne
  rw [List.getLast?_eq_some_getLast hne, Option.some.injEq] at h
  rw [← h]
  exact Bool.eq_false_iff.2 hlast

theorem trim_map {f : Token → Token} (hf : ∀ t, (f t).isSpace = t.isSpace) (ts : List Token) :
    trim (ts.map f) = (trim ts).map f := by
  have hspace : isSpace ∘ f = isSpace := funext hf
  unfold trim
  rw [List.dropWhile_map, hspace, ← List.map_reverse, List.dropWhile_map, hspace, List.map_reverse]

theorem trim_of_not_isSpace {ts : List Token} (h : ∀ t ∈ ts, t.isSpace = false) : trim ts = ts := by
  cases ts with
  | nil => rfl
  | cons t rest =>
    have hrest : rest.rdropWhile isSpace = rest := by
      refine List.rdropWhile_eq_self_iff.2 fun hne => Bool.eq_false_iff.1 ?_
      exact h _ (List.mem_cons_of_mem t (List.getLast_mem hne))
    rw [trim_cons (h t List.mem_cons_self), hrest]

/-- The text of tokens does not see white space at their ends. -/
theorem raw_trim (ts : List Token) : raw (trim ts) = raw ts := by
  unfold raw
  rw [trim_trim]

end MixinCss.Token
