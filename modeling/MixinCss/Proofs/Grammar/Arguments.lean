/-
  MixinCss.Proofs.Grammar.Arguments

  The arguments that are read from the tokens of a call are those that the
  grammar derives. The groups between commas come first, then what one group
  can be, then the fold over all groups.
-/

import MixinCss.Proofs.Grammar.Derivation
import MixinCss.Proofs.Outcome
import MixinCss.Proofs.Token.Trim

namespace MixinCss.Grammar

/-! ## Groups -/

theorem splitFrom_ne_nil (sep : TokenKind) (depth : Int) (ts : List Token) :
    splitFrom sep depth ts ≠ [] := by
  cases ts with
  | nil => exact List.cons_ne_nil _ _
  | cons t ts =>
    rw [splitFrom]
    split
    · exact List.cons_ne_nil _ _
    · split <;> exact List.cons_ne_nil _ _

theorem splitFrom_cons (sep : TokenKind) (depth : Int) (t : Token) (ts : List Token) :
    splitFrom sep depth (t :: ts) =
      if t.kind = sep ∧ depth = 0 then [] :: splitFrom sep depth ts
      else (splitFrom sep (depth + t.nesting) ts).modifyHead (t :: ·) := by
  obtain ⟨group, groups, hgroups⟩ :=
    List.exists_cons_of_ne_nil (splitFrom_ne_nil sep (depth + t.nesting) ts)
  rw [splitFrom, hgroups]
  rfl

/-- A token that does not separate goes to the first group of the rest. -/
theorem exists_splitFrom_cons {sep : TokenKind} {depth : Int} {t : Token} (ts : List Token)
    (h : ¬ (t.kind = sep ∧ depth = 0)) :
    ∃ group groups, splitFrom sep (depth + t.nesting) ts = group :: groups ∧
      splitFrom sep depth (t :: ts) = (t :: group) :: groups := by
  obtain ⟨group, groups, hrest⟩ :=
    List.exists_cons_of_ne_nil (splitFrom_ne_nil sep (depth + t.nesting) ts)
  exact ⟨group, groups, hrest, by rw [splitFrom_cons, if_neg h, hrest, List.modifyHead_cons]⟩

/-- The groups are made of the tokens. -/
theorem mem_of_mem_splitFrom {sep : TokenKind} {depth : Int} {t : Token} {ts group : List Token}
    (hgroup : group ∈ splitFrom sep depth ts) (ht : t ∈ group) : t ∈ ts := by
  induction ts generalizing depth group with
  | nil =>
    rw [splitFrom, List.mem_singleton] at hgroup
    rwa [hgroup] at ht
  | cons u ts ih =>
    by_cases hsep : u.kind = sep ∧ depth = 0
    · rw [splitFrom, if_pos hsep, List.mem_cons] at hgroup
      rcases hgroup with rfl | hgroup
      · cases ht
      · exact List.mem_cons_of_mem u (ih hgroup ht)
    · obtain ⟨first, groups, hrest, hcons⟩ := exists_splitFrom_cons ts hsep
      rw [hcons, List.mem_cons] at hgroup
      rcases hgroup with rfl | hgroup
      · rcases List.mem_cons.mp ht with rfl | ht
        · exact List.mem_cons_self
        · exact List.mem_cons_of_mem u (ih (hrest ▸ List.mem_cons_self) ht)
      · exact List.mem_cons_of_mem u (ih (hrest ▸ List.mem_cons_of_mem first hgroup) ht)

/-- No comma of the tokens stands at level zero, if they begin at `depth`. -/
def NoCommaFrom (depth : Int) (ts : List Token) : Prop :=
  ∀ front comma back, ts = front ++ comma :: back → comma.kind = .comma →
    depth + level front ≠ 0

theorem noCommaFrom_zero {ts : List Token} : NoCommaFrom 0 ts ↔ NoTopComma ts := by
  unfold NoCommaFrom NoTopComma
  simp only [Int.zero_add]

theorem noCommaFrom_cons {depth : Int} {t : Token} {ts : List Token} :
    NoCommaFrom depth (t :: ts) ↔
      (t.kind = .comma → depth ≠ 0) ∧ NoCommaFrom (depth + t.nesting) ts := by
  constructor
  · intro h
    refine ⟨?_, ?_⟩
    · intro ht
      have hzero := h [] t ts rfl ht
      simpa using hzero
    · intro front comma back hts hcomma
      have hlevel := h (t :: front) comma back (by rw [hts, List.cons_append]) hcomma
      rw [level_cons, ← Int.add_assoc] at hlevel
      exact hlevel
  · rintro ⟨hhead, htail⟩ front comma back hts hcomma
    cases front with
    | nil =>
      rw [List.nil_append, List.cons.injEq] at hts
      obtain ⟨rfl, -⟩ := hts
      simpa using hhead hcomma
    | cons first front =>
      rw [List.cons_append, List.cons.injEq] at hts
      obtain ⟨rfl, hts⟩ := hts
      rw [level_cons, ← Int.add_assoc]
      exact htail front comma back hts hcomma

theorem splitFrom_of_noComma {depth : Int} {ts : List Token} (h : NoCommaFrom depth ts) :
    splitFrom .comma depth ts = [ts] := by
  induction ts generalizing depth with
  | nil => rfl
  | cons t ts ih =>
    rw [noCommaFrom_cons] at h
    obtain ⟨hhead, htail⟩ := h
    rw [splitFrom, if_neg (by rintro ⟨ht, hd⟩; exact hhead ht hd), ih htail]

theorem splitFrom_append_comma {depth : Int} {group rest : List Token} {comma : Token}
    (h : NoCommaFrom depth group) (hclosed : depth + level group = 0)
    (hcomma : comma.kind = .comma) :
    splitFrom .comma depth (group ++ comma :: rest) = group :: splitFrom .comma 0 rest := by
  induction group generalizing depth with
  | nil =>
    have hdepth : depth = 0 := by simpa using hclosed
    rw [List.nil_append, splitFrom, if_pos ⟨hcomma, hdepth⟩, hdepth]
  | cons t ts ih =>
    rw [noCommaFrom_cons] at h
    obtain ⟨hhead, htail⟩ := h
    have hlevel : depth + t.nesting + level ts = 0 := by
      rw [level_cons] at hclosed
      omega
    rw [List.cons_append, splitFrom, if_neg (by rintro ⟨ht, hd⟩; exact hhead ht hd),
      ih htail hlevel]

/-- Tokens have no separating comma, or a first one. -/
theorem noComma_or_first (depth : Int) (ts : List Token) :
    NoCommaFrom depth ts ∨ ∃ group comma rest, ts = group ++ comma :: rest ∧
      NoCommaFrom depth group ∧ depth + level group = 0 ∧ comma.kind = .comma := by
  induction ts generalizing depth with
  | nil =>
    left
    intro front comma back h
    simp at h
  | cons t ts ih =>
    by_cases htop : t.kind = .comma ∧ depth = 0
    · right
      refine ⟨[], t, ts, rfl, ?_, by simpa using htop.2, htop.1⟩
      intro front comma back h
      simp at h
    · have hhead : t.kind = .comma → depth ≠ 0 := fun ht hd => htop ⟨ht, hd⟩
      rcases ih (depth + t.nesting) with hnone | ⟨group, comma, rest, rfl, hgroup, hclosed, hcomma⟩
      · exact .inl (noCommaFrom_cons.mpr ⟨hhead, hnone⟩)
      · right
        refine ⟨t :: group, comma, rest, rfl, noCommaFrom_cons.mpr ⟨hhead, hgroup⟩, ?_, hcomma⟩
        rw [level_cons, ← Int.add_assoc]
        exact hclosed

/-- Splitting at commas gives the groups of the grammar, and no others. -/
theorem splitTop_comma_eq_iff {ts : List Token} {groups : List (List Token)} :
    splitTop .comma ts = groups ↔ Groups ts groups := by
  constructor
  · rintro rfl
    -- The rest after the first separating comma is shorter.
    induction hn : ts.length using Nat.strongRecOn generalizing ts with
    | ind n ih =>
      unfold splitTop
      rcases noComma_or_first 0 ts with hnone | ⟨group, comma, rest, rfl, hgroup, hclosed, hcomma⟩
      · rw [splitFrom_of_noComma hnone]
        exact .last (noCommaFrom_zero.mp hnone)
      · rw [splitFrom_append_comma hgroup hclosed hcomma]
        have hshorter : rest.length < n := by
          rw [← hn, List.length_append, List.length_cons]
          omega
        exact .more (noCommaFrom_zero.mp hgroup) (by simpa using hclosed) hcomma
          (ih rest.length hshorter rfl)
  · intro h
    unfold splitTop
    induction h with
    | last hgroup => exact splitFrom_of_noComma (noCommaFrom_zero.mpr hgroup)
    | more hgroup hclosed hcomma _ ih =>
      rw [splitFrom_append_comma (noCommaFrom_zero.mpr hgroup) (by simpa using hclosed) hcomma, ih]

theorem noTopComma_of_blank {ts : List Token} (h : Token.blank ts) : NoTopComma ts := by
  rintro front comma back rfl hcomma
  rw [Token.blank_append, Token.blank_cons, Bool.and_eq_true, Bool.and_eq_true,
    Token.isSpace_iff, hcomma] at h
  exact absurd h.2.1 (by decide)

theorem Groups.ne_nil {ts : List Token} {groups : List (List Token)} (h : Groups ts groups) :
    groups ≠ [] := by
  cases h <;> exact List.cons_ne_nil _ _

/-- Blank tokens are a group of their own. -/
theorem Groups.not_blank {ts : List Token} {groups : List (List Token)} (h : Groups ts groups)
    (hgroups : ∀ group ∈ groups, ¬ Token.blank group) : ¬ Token.blank ts := by
  intro hblank
  have hsingle : Groups ts [ts] := .last (noTopComma_of_blank hblank)
  rw [← splitTop_comma_eq_iff] at h hsingle
  rw [← h, hsingle] at hgroups
  exact hgroups ts (List.mem_singleton_self ts) hblank

/-! ## One argument -/

/-- A colon that follows white space at most is the first token after trimming. -/
theorem trim_eq_colon_iff {ts : List Token} {colon : Token} {value : List Token}
    (hcolon : colon.kind = .colon) :
    (∃ rest, Token.trim ts = colon :: rest ∧ value = Token.trim rest) ↔
      ∃ gap after, Token.blank gap ∧ ts = gap ++ colon :: after ∧ value = Token.trim after := by
  have hspace := Token.isSpace_of_kind hcolon (by decide)
  constructor
  · rintro ⟨rest, hrest, rfl⟩
    obtain ⟨gap, after, hgap, -, rfl, rfl⟩ := Token.trim_eq_cons_iff.mp hrest
    exact ⟨gap, after, hgap, rfl, Token.trim_rdropWhile after⟩
  · rintro ⟨gap, after, hgap, rfl, rfl⟩
    refine ⟨after.rdropWhile Token.isSpace, ?_, (Token.trim_rdropWhile after).symm⟩
    exact Token.trim_eq_cons_iff.mpr ⟨gap, after, hgap, hspace, rfl, rfl⟩

theorem keyword?_eq_some_iff {t : Token} {ts value : List Token} {key : Text} :
    keyword? (t :: ts) = some (key, value) ↔
      t.kind = .ident ∧ key = t.text ∧ ∃ gap colon after, Token.blank gap ∧
        colon.kind = .colon ∧ ts = gap ++ colon :: after ∧ value = Token.trim after := by
  constructor
  · intro h
    rw [keyword?] at h
    split at h
    · rename_i hident
      split at h
      · rename_i colon rest htrim
        split at h
        · rename_i hcolon
          simp only [Option.some.injEq, Prod.mk.injEq] at h
          obtain ⟨rfl, rfl⟩ := h
          obtain ⟨gap, after, hgap, hts, hvalue⟩ :=
            (trim_eq_colon_iff hcolon).mp ⟨rest, htrim, rfl⟩
          exact ⟨hident, rfl, gap, colon, after, hgap, hcolon, hts, hvalue⟩
        · cases h
      · cases h
    · cases h
  · rintro ⟨hident, rfl, gap, colon, after, hgap, hcolon, hts, hvalue⟩
    obtain ⟨rest, htrim, hrest⟩ := (trim_eq_colon_iff hcolon).mpr ⟨gap, after, hgap, hts, hvalue⟩
    rw [keyword?, if_pos hident, htrim]
    simp only [if_pos hcolon, hrest]

/-- A group is read as a keyword argument just where it is keyed. -/
theorem keyword?_trim_eq_some_iff {group value : List Token} {key : Text} :
    keyword? (Token.trim group) = some (key, value) ↔
      ∃ after, Keyed group key after ∧ value = Token.trim after := by
  constructor
  · intro h
    cases htrim : Token.trim group with
    | nil => rw [htrim] at h; cases h
    | cons t ts =>
      rw [htrim, keyword?_eq_some_iff] at h
      obtain ⟨hident, rfl, gap, colon, after, hgap, hcolon, hts, rfl⟩ := h
      obtain ⟨lead, body, hlead, -, rfl, rfl⟩ := Token.trim_eq_cons_iff.mp htrim
      -- White space at the end of the group belongs to the value.
      obtain ⟨trail, htrail, hbody⟩ := Token.exists_eq_rdropWhile_append body
      rw [hts, List.append_assoc, List.cons_append] at hbody
      refine ⟨after ++ trail, ?_, (Token.trim_append_blank htrail).symm⟩
      rw [hbody]
      exact .intro hlead hident hgap hcolon
  · rintro ⟨after, hkeyed, rfl⟩
    cases hkeyed with
    | @intro lead gap _ head colon hlead hhead hgap hcolon =>
      have hspace := Token.isSpace_of_kind hhead (by decide)
      have hcolonSpace := Token.isSpace_of_kind hcolon (by decide)
      rw [Token.trim_blank_append hlead, Token.trim_cons hspace, keyword?_eq_some_iff]
      exact ⟨hhead, rfl, gap, colon, after.rdropWhile Token.isSpace, hgap, hcolon,
        Token.rdropWhile_append_cons hcolonSpace, (Token.trim_rdropWhile after).symm⟩

theorem KeywordOf.not_blank {group : List Token} {k : Keyword} (h : KeywordOf group k) :
    ¬ Token.blank group := by
  obtain ⟨value, hkeyed, -⟩ := h
  intro hblank
  have hkeyword := keyword?_trim_eq_some_iff.mpr ⟨value, hkeyed, rfl⟩
  rw [Token.trim_eq_nil_iff.mpr hblank] at hkeyword
  cases hkeyword

theorem not_blank_of_keywords {groups : List (List Token)} {pairs : List Keyword}
    (h : List.Forall₂ KeywordOf groups pairs) : ∀ group ∈ groups, ¬ Token.blank group := by
  have hall : List.Forall₂ (fun group k => ¬ Token.blank group ∧ KeywordOf group k)
      groups pairs := h.imp fun _ _ hk => ⟨hk.not_blank, hk⟩
  exact ((List.forall₂_and_left _ _).mp hall).1

theorem find?_isSome_iff {pairs : List Keyword} {key : Text} :
    (Args.find? pairs key).isSome ↔ key ∈ pairs.map Keyword.key := by
  unfold Args.find?
  rw [Option.isSome_map, List.find?_isSome, List.mem_map]
  simp only [beq_iff_eq]

/-- One more argument is added to those by keyword or to those by position. -/
theorem addArgument_eq_ok_iff {name : Text} {offset : Nat} {values : List Value}
    {pairs : List Keyword} {group : List Token} {out : List Value × List Keyword} :
    addArgument name offset (values, pairs) group = .ok out ↔
      (∃ k, KeywordOf group k ∧ k.key ∉ pairs.map Keyword.key ∧ out = (values, pairs ++ [k])) ∨
      (PlainGroup group ∧ out = (values ++ [valueOfArgument (Token.trim group)], pairs)) := by
  constructor
  · intro h
    unfold addArgument at h
    split at h
    · cases h
    · rename_i t ts htrim
      -- The group is not blank; it has a key and a colon, or it stands for itself.
      have hblank : ¬ Token.blank group := by
        rw [← Token.trim_eq_nil_iff, htrim]
        exact List.cons_ne_nil _ _
      rw [← htrim] at h
      split at h
      · rename_i key value hkeyword
        obtain ⟨after, hkeyed, rfl⟩ := keyword?_trim_eq_some_iff.mp hkeyword
        split at h
        · cases h
        · rename_i hvalue
          split at h
          · cases h
          · rename_i hnew
            rw [find?_isSome_iff] at hnew
            rw [List.isEmpty_iff, Token.trim_eq_nil_iff] at hvalue
            left
            exact ⟨⟨key, _⟩, ⟨after, hkeyed, hvalue, rfl⟩, hnew, (Except.ok.inj h).symm⟩
      · rename_i hkeyword
        right
        refine ⟨⟨hblank, ?_⟩, (Except.ok.inj h).symm⟩
        intro key value hkeyed
        have hsome := keyword?_trim_eq_some_iff.mpr ⟨value, hkeyed, rfl⟩
        rw [hkeyword] at hsome
        cases hsome
  · rintro (⟨⟨key, value⟩, ⟨after, hkeyed, hvalue, rfl⟩, hnew, rfl⟩ | ⟨⟨hblank, hplain⟩, rfl⟩)
    · have hkeyword := keyword?_trim_eq_some_iff.mpr ⟨after, hkeyed, rfl⟩
      rw [← find?_isSome_iff] at hnew
      rw [← Token.trim_eq_nil_iff, ← List.isEmpty_iff] at hvalue
      unfold addArgument
      cases htrim : Token.trim group with
      | nil => rw [htrim] at hkeyword; cases hkeyword
      | cons t ts =>
        rw [htrim] at hkeyword
        simp only [hkeyword, if_neg hvalue, if_neg hnew]
    · have hkeyword : keyword? (Token.trim group) = none := by
        cases hk : keyword? (Token.trim group) with
        | none => rfl
        | some pair =>
          obtain ⟨after, hkeyed, -⟩ := keyword?_trim_eq_some_iff.mp hk
          exact absurd hkeyed (hplain _ _)
      unfold addArgument
      cases htrim : Token.trim group with
      | nil => exact absurd (Token.trim_eq_nil_iff.mp htrim) hblank
      | cons t ts =>
        rw [htrim] at hkeyword
        simp only [hkeyword]

/-! ## All arguments -/

/-- What the fold over the groups has collected. If nothing is by position then
    every group is a keyword argument, and if nothing is by keyword then none
    is keyed. -/
theorem foldlM_addArgument_eq_ok {name : Text} {offset : Nat} {groups : List (List Token)}
    {values values' : List Value} {pairs pairs' : List Keyword}
    (hkeys : (pairs.map Keyword.key).Nodup)
    (h : groups.foldlM (addArgument name offset) (values, pairs) = .ok (values', pairs')) :
    ∃ xs ys, values' = values ++ xs ∧ pairs' = pairs ++ ys ∧
      ((pairs ++ ys).map Keyword.key).Nodup ∧
      (xs = [] → List.Forall₂ KeywordOf groups ys) ∧
      (ys = [] → (∀ group ∈ groups, PlainGroup group) ∧
        xs = groups.map fun group => valueOfArgument (Token.trim group)) := by
  induction groups generalizing values pairs with
  | nil =>
    cases h
    exact ⟨[], [], by simp, by simp, by simpa using hkeys, by simp, by simp⟩
  | cons group groups ih =>
    rw [List.foldlM_cons, bind_eq_ok_iff] at h
    obtain ⟨out, hout, hrest⟩ := h
    rw [addArgument_eq_ok_iff] at hout
    rcases hout with ⟨k, hk, hnew, rfl⟩ | ⟨hplain, rfl⟩
    · have hkeys' : ((pairs ++ [k]).map Keyword.key).Nodup := by
        rw [List.map_append, List.map_singleton, List.nodup_append]
        refine ⟨hkeys, List.pairwise_singleton _ _, ?_⟩
        intro key hkey other hother
        rw [List.mem_singleton] at hother
        rintro rfl
        exact hnew (hother ▸ hkey)
      -- From here on there is a keyword, so nothing is to show for positions.
      obtain ⟨xs, ys, rfl, rfl, hnodup, hkeyword, -⟩ := ih hkeys' hrest
      refine ⟨xs, k :: ys, rfl, ?_, ?_, ?_, ?_⟩
      · rw [List.append_assoc, List.singleton_append]
      · rw [List.append_assoc, List.singleton_append] at hnodup
        exact hnodup
      · intro hxs
        exact .cons hk (hkeyword hxs)
      · intro hys
        exact absurd hys (List.cons_ne_nil _ _)
    · obtain ⟨xs, ys, rfl, rfl, hnodup, -, hpositional⟩ := ih hkeys hrest
      refine ⟨valueOfArgument (Token.trim group) :: xs, ys, ?_, rfl, hnodup, ?_, ?_⟩
      · rw [List.append_assoc, List.singleton_append]
      · intro hxs
        exact absurd hxs (List.cons_ne_nil _ _)
      · intro hys
        obtain ⟨hall, hxs⟩ := hpositional hys
        exact ⟨List.forall_mem_cons.mpr ⟨hplain, hall⟩, by rw [hxs, List.map_cons]⟩

theorem foldlM_addArgument_keywords {name : Text} {offset : Nat} {groups : List (List Token)}
    {values : List Value} {pairs ys : List Keyword} (h : List.Forall₂ KeywordOf groups ys)
    (hkeys : ((pairs ++ ys).map Keyword.key).Nodup) :
    groups.foldlM (addArgument name offset) (values, pairs) = .ok (values, pairs ++ ys) := by
  induction h generalizing pairs with
  | nil => rw [List.append_nil]; rfl
  | @cons group k groups ys hk _ ih =>
    have hnew : k.key ∉ pairs.map Keyword.key := by
      rw [List.map_append, List.map_cons, List.nodup_append] at hkeys
      intro hmem
      exact hkeys.2.2 _ hmem _ List.mem_cons_self rfl
    have hstep : addArgument name offset (values, pairs) group = .ok (values, pairs ++ [k]) :=
      addArgument_eq_ok_iff.mpr (.inl ⟨k, hk, hnew, rfl⟩)
    have hsplit : pairs ++ k :: ys = pairs ++ [k] ++ ys := List.append_cons ..
    rw [hsplit] at hkeys ⊢
    rw [List.foldlM_cons, hstep]
    exact ih hkeys

theorem foldlM_addArgument_positional {name : Text} {offset : Nat} {groups : List (List Token)}
    {values : List Value} {pairs : List Keyword} (h : ∀ group ∈ groups, PlainGroup group) :
    groups.foldlM (addArgument name offset) (values, pairs) =
      .ok (values ++ groups.map (fun group => valueOfArgument (Token.trim group)), pairs) := by
  induction groups generalizing values with
  | nil => rw [List.map_nil, List.append_nil]; rfl
  | cons group groups ih =>
    rw [List.forall_mem_cons] at h
    have hstep : addArgument name offset (values, pairs) group =
        .ok (values ++ [valueOfArgument (Token.trim group)], pairs) :=
      addArgument_eq_ok_iff.mpr (.inr ⟨h.1, rfl⟩)
    have hsplit := List.append_cons values (valueOfArgument (Token.trim group))
      (groups.map fun group => valueOfArgument (Token.trim group))
    rw [List.foldlM_cons, hstep, List.map_cons, hsplit]
    exact ih h.2

/-- Blank tokens are one group, so they are read as no arguments at all. -/
theorem arguments_of_blank {name : Text} {offset : Nat} {inside : List Token}
    (h : Token.blank inside) : arguments name offset inside = .ok .none := by
  have hgroups : splitTop .comma inside = [inside] :=
    splitTop_comma_eq_iff.mpr (.last (noTopComma_of_blank h))
  unfold arguments
  rw [hgroups]
  simp only [List.length_singleton, h, and_self, if_true]
  rfl

theorem arguments_of_not_blank {name : Text} {offset : Nat} {inside : List Token} {args : Args}
    (h : ¬ Token.blank inside) :
    arguments name offset inside = .ok args ↔
      ∃ values pairs, (splitTop .comma inside).foldlM (addArgument name offset) ([], []) =
          .ok (values, pairs) ∧
        (pairs = [] ∧ args = .positional values ∨
          values = [] ∧ pairs ≠ [] ∧ args = .keywords pairs) := by
  unfold arguments
  dsimp only
  rw [if_neg (fun hsingle => h hsingle.2), bind_eq_ok_iff]
  constructor
  · rintro ⟨⟨values, pairs⟩, hfold, hout⟩
    refine ⟨values, pairs, hfold, ?_⟩
    cases values with
    | nil =>
      cases pairs with
      | nil => exact .inl ⟨rfl, (Except.ok.inj hout).symm⟩
      | cons k pairs => exact .inr ⟨rfl, List.cons_ne_nil _ _, (Except.ok.inj hout).symm⟩
    | cons v values =>
      cases pairs with
      | nil => exact .inl ⟨rfl, (Except.ok.inj hout).symm⟩
      | cons k pairs => cases hout
  · rintro ⟨values, pairs, hfold, ⟨rfl, rfl⟩ | ⟨rfl, hpairs, rfl⟩⟩
    · refine ⟨(values, []), hfold, ?_⟩
      cases values <;> rfl
    · refine ⟨([], pairs), hfold, ?_⟩
      cases pairs with
      | nil => exact absurd rfl hpairs
      | cons k pairs => rfl

/-- The arguments of a call are read as the grammar derives them. -/
theorem arguments_eq_ok_iff {name : Text} {offset : Nat} {inside : List Token} {args : Args} :
    arguments name offset inside = .ok args ↔ Arguments inside args := by
  constructor
  · intro h
    by_cases hblank : Token.blank inside
    · rw [arguments_of_blank hblank] at h
      cases h
      exact .none hblank
    · have hgroups : Groups inside (splitTop .comma inside) := splitTop_comma_eq_iff.mp rfl
      rw [arguments_of_not_blank hblank] at h
      obtain ⟨values, pairs, hfold, hargs⟩ := h
      have hnil : (([] : List Keyword).map Keyword.key).Nodup := List.Pairwise.nil
      obtain ⟨xs, ys, rfl, rfl, hkeys, hkeyword, hpositional⟩ :=
        foldlM_addArgument_eq_ok hnil hfold
      rcases hargs with ⟨hys, rfl⟩ | ⟨hxs, -, rfl⟩
      · obtain ⟨hplain, rfl⟩ := hpositional (by simpa using hys)
        exact .positional hgroups hplain
      · exact .keywords hgroups (hkeyword (by simpa using hxs)) hkeys
  · intro h
    cases h with
    | none hblank => exact arguments_of_blank hblank
    | @keywords groups pairs hgroups hpairs hkeys =>
      -- There is at least one group, so there is a pair and no value.
      have hne : pairs ≠ [] := by
        rintro rfl
        cases hpairs
        exact hgroups.ne_nil rfl
      have hblank := hgroups.not_blank (not_blank_of_keywords hpairs)
      rw [arguments_of_not_blank hblank, splitTop_comma_eq_iff.mpr hgroups]
      exact ⟨[], pairs, foldlM_addArgument_keywords hpairs hkeys, .inr ⟨rfl, hne, rfl⟩⟩
    | @positional groups hgroups hplain =>
      have hblank := hgroups.not_blank fun group hgroup => (hplain group hgroup).1
      rw [arguments_of_not_blank hblank, splitTop_comma_eq_iff.mpr hgroups]
      exact ⟨_, [], foldlM_addArgument_positional hplain, .inl ⟨rfl, rfl⟩⟩

end MixinCss.Grammar
