/-
  MixinCss.Proofs.Grammar.Statement

  Declarations and calls are read from segments as the grammar derives them.
  The main statements are `statement_eq_none_iff` and `statement_eq_some_iff`:
  a segment is no statement if it is blank, and otherwise it is white space
  followed by a declaration or, in front of a semicolon, by a call.
-/

import MixinCss.Proofs.Grammar.Arguments

namespace MixinCss.Grammar

theorem forall_prefix_cons {P : List Token → Prop} {t : Token} {ts : List Token} :
    (∀ front, front <+: t :: ts → P front) ↔ P [] ∧ ∀ front, front <+: ts → P (t :: front) := by
  constructor
  · intro h
    refine ⟨h [] List.nil_prefix, fun front hfront => ?_⟩
    exact h (t :: front) (List.cons_prefix_cons.mpr ⟨rfl, hfront⟩)
  · rintro ⟨hnil, hcons⟩ front hfront
    rcases List.prefix_cons_iff.mp hfront with rfl | ⟨rest, rfl, hrest⟩
    · exact hnil
    · exact hcons rest hrest

/-! ## The end of a call -/

theorem parenNesting_eq_neg_one_iff {t : Token} :
    t.parenNesting = -1 ↔ t.kind = .closeParen := by
  unfold Token.parenNesting
  split <;> simp_all

theorem parenNesting_cases (t : Token) :
    t.parenNesting = 1 ∨ t.parenNesting = -1 ∨ t.parenNesting = 0 := by
  unfold Token.parenNesting
  split <;> simp

/-- A token closes the last open parenthesis, or it stands inside and changes
    the nesting. -/
theorem untilClose_cons {depth : Nat} (hdepth : 1 ≤ depth) (t : Token) (ts : List Token) :
    (∃ next : Nat, 1 ≤ next ∧ (next : Int) = depth + t.parenNesting ∧
      untilClose depth (t :: ts) =
        (untilClose next ts).map fun found => (t :: found.1, found.2)) ∨
    t.kind = .closeParen ∧ depth = 1 ∧ untilClose depth (t :: ts) = some ([], ts) := by
  rw [untilClose]
  rcases parenNesting_cases t with hnesting | hnesting | hnesting
  · rw [if_pos hnesting]
    exact .inl ⟨depth + 1, by omega, by rw [hnesting]; rfl, rfl⟩
  · rw [if_neg (by omega), if_pos hnesting]
    by_cases hlast : depth ≤ 1
    · exact .inr ⟨parenNesting_eq_neg_one_iff.mp hnesting, by omega, if_pos hlast⟩
    · rw [if_neg hlast]
      exact .inl ⟨depth - 1, by omega, by rw [hnesting]; omega, rfl⟩
  · rw [if_neg (by omega), if_neg (by omega)]
    exact .inl ⟨depth, hdepth, by rw [hnesting]; omega, rfl⟩

/-- What is found as the end of a parenthesis is a closing one, at which the
    count of open ones becomes zero for the first time. -/
theorem untilClose_sound {depth : Nat} {ts inside after : List Token} (hdepth : 1 ≤ depth)
    (h : untilClose depth ts = some (inside, after)) :
    ∃ closing, ts = inside ++ closing :: after ∧ closing.kind = .closeParen ∧
      depth + parenLevel inside = 1 ∧
      ∀ front, front <+: inside → (depth : Int) + parenLevel front ≠ 0 := by
  induction ts generalizing depth inside with
  | nil => cases h
  | cons t ts ih =>
    rcases untilClose_cons hdepth t ts with ⟨next, hnext, hsum, hcons⟩ | ⟨hkind, hone, hcons⟩
    · rw [hcons] at h
      obtain ⟨⟨rest, _⟩, hrest, heq⟩ := Option.map_eq_some_iff.mp h
      obtain ⟨rfl, rfl⟩ : t :: rest = inside ∧ _ = after := Prod.mk.inj heq
      obtain ⟨closing, hts, hclosing, hlevel, hfirst⟩ := ih hnext hrest
      refine ⟨closing, by rw [hts, List.cons_append], hclosing, ?_, ?_⟩
      · rw [parenLevel_cons]
        omega
      · rw [forall_prefix_cons]
        refine ⟨by rw [parenLevel_nil]; omega, ?_⟩
        intro front hfront
        have hlevel' := hfirst front hfront
        rw [parenLevel_cons]
        omega
    · rw [hcons] at h
      cases h
      refine ⟨t, rfl, hkind, by rw [hone]; rfl, ?_⟩
      intro front hfront
      rw [List.prefix_nil.mp hfront, hone]
      decide

theorem untilClose_complete {depth : Nat} {inside after : List Token} {closing : Token}
    (hclosing : closing.kind = .closeParen) (hlevel : depth + parenLevel inside = 1)
    (hfirst : ∀ front, front <+: inside → (depth : Int) + parenLevel front ≠ 0) :
    untilClose depth (inside ++ closing :: after) = some (inside, after) := by
  induction inside generalizing depth with
  | nil =>
    have hone : depth = 1 := by
      rw [parenLevel_nil] at hlevel
      omega
    have hnesting := parenNesting_eq_neg_one_iff.mpr hclosing
    rw [List.nil_append, untilClose, hnesting, hone]
    rfl
  | cons t rest ih =>
    rw [forall_prefix_cons] at hfirst
    obtain ⟨hdepth, hrest⟩ := hfirst
    have hnow := hrest [] List.nil_prefix
    simp only [parenLevel_cons, parenLevel_nil] at hlevel hdepth hrest hnow
    have hopen : 1 ≤ depth := by omega
    rw [List.cons_append]
    rcases untilClose_cons hopen t (rest ++ closing :: after) with
      ⟨next, -, hsum, hcons⟩ | ⟨hkind, hone, -⟩
    · rw [hcons, ih (by omega) fun front hfront => by have hne := hrest front hfront; omega]
      rfl
    · -- The parenthesis would be closed inside.
      have hnesting := parenNesting_eq_neg_one_iff.mpr hkind
      omega

/-! ## Calls and declarations -/

theorem functionNesting {head : Token} (h : head.kind = .function) : head.parenNesting = 1 := by
  unfold Token.parenNesting
  rw [h]

/-- A call is read from the tokens after its name just as it is derived. -/
theorem call_eq_ok_iff {src : Source} {head : Token} {ts : List Token} {n : Node}
    (hhead : head.kind = .function) :
    call src head ts = .ok n ↔ Calls src (head :: ts) n := by
  have hnesting := functionNesting hhead
  constructor
  · intro h
    unfold call at h
    dsimp only at h
    split at h
    · rename_i inside after huntil
      obtain ⟨closing, rfl, hclosing, hlevel, hfirst⟩ := untilClose_sound (Nat.le_refl 1) huntil
      split at h
      · cases h
      · rename_i hextra
        obtain ⟨args, hargs, hn⟩ := bind_eq_ok_iff.mp h
        cases hn
        -- Only white space may follow the call.
        have hafter : Token.blank after := by
          rw [← Token.trim_eq_nil_iff]
          cases htrim : Token.trim after with
          | nil => rfl
          | cons t rest => exact absurd htrim (hextra t rest)
        refine .intro hhead hclosing ?_ ?_ hafter (arguments_eq_ok_iff.mp hargs)
        · have hclose := parenNesting_eq_neg_one_iff.mpr hclosing
          rw [parenLevel_cons, parenLevel_append, parenLevel_cons, parenLevel_nil]
          omega
        · intro front hfront
          have hne := hfirst front hfront
          rw [parenLevel_cons, hnesting]
          exact hne
    · cases h
  · intro h
    cases h with
    | @intro _ closing inside after args _ hclosing hclosed hfirst hafter hargs =>
      have hclose := parenNesting_eq_neg_one_iff.mpr hclosing
      have huntil : untilClose 1 (inside ++ closing :: after) = some (inside, after) := by
        apply untilClose_complete hclosing
        · rw [parenLevel_cons, parenLevel_append, parenLevel_cons, parenLevel_nil] at hclosed
          omega
        · intro front hfront
          have hne := hfirst front hfront
          rw [parenLevel_cons, hnesting] at hne
          exact hne
      have hargs' : arguments head.functionName head.offset inside = .ok args :=
        arguments_eq_ok_iff.mpr hargs
      unfold call
      simp only [huntil, Token.trim_eq_nil_iff.mpr hafter, hargs']
      rfl

theorem declaration_eq_ok_iff {src : Source} {head : Token} {ts : List Token} {n : Node}
    (hhead : head.kind = .ident ∨ head.kind = .customProperty) :
    declaration src head ts = .ok n ↔ Declares src (head :: ts) n := by
  constructor
  · intro h
    unfold declaration at h
    split at h
    · rename_i colon rest htrim
      split at h
      · rename_i hcolon
        dsimp only at h
        split at h
        · cases h
        · rename_i hvalue
          cases h
          obtain ⟨gap, after, hgap, rfl, hafter⟩ :=
            (trim_eq_colon_iff hcolon).mp ⟨rest, htrim, rfl⟩
          rw [hafter] at hvalue ⊢
          rw [List.isEmpty_iff, Token.trim_eq_nil_iff] at hvalue
          exact .intro hhead hgap hcolon hvalue
      · cases h
    · cases h
  · intro h
    cases h with
    | @intro _ colon gap value _ hgap hcolon hvalue =>
      obtain ⟨rest, htrim, hrest⟩ := (trim_eq_colon_iff hcolon).mpr ⟨gap, value, hgap, rfl, rfl⟩
      rw [← Token.trim_eq_nil_iff, ← List.isEmpty_iff] at hvalue
      unfold declaration
      rw [htrim]
      simp only [if_pos hcolon, ← hrest, if_neg hvalue]

/-! ## Statements -/

theorem Declares.exists_head {src : Source} {segment : List Token} {n : Node}
    (h : Declares src segment n) :
    ∃ head ts, segment = head :: ts ∧ (head.kind = .ident ∨ head.kind = .customProperty) := by
  cases h with
  | intro hhead => exact ⟨_, _, rfl, hhead⟩

theorem Calls.exists_head {src : Source} {segment : List Token} {n : Node}
    (h : Calls src segment n) : ∃ head ts, segment = head :: ts ∧ head.kind = .function := by
  cases h with
  | intro hhead => exact ⟨_, _, rfl, hhead⟩

theorem Calls.append_blank {src : Source} {ts trail : List Token} {n : Node}
    (h : Calls src ts n) (htrail : Token.blank trail) : Calls src (ts ++ trail) n := by
  cases h with
  | @intro head closing inside after args hhead hclosing hclosed hfirst hafter hargs =>
    rw [List.cons_append, List.append_assoc, List.cons_append]
    refine .intro hhead hclosing hclosed hfirst ?_ hargs
    rw [Token.blank_append, hafter, htrail]
    rfl

theorem Calls.rdropWhile {src : Source} {head : Token} {ts : List Token} {n : Node}
    (h : Calls src (head :: ts) n) : Calls src (head :: ts.rdropWhile Token.isSpace) n := by
  cases h with
  | @intro _ closing inside after args hhead hclosing hclosed hfirst hafter hargs =>
    have hspace := Token.isSpace_of_kind hclosing (by decide)
    have hnil : after.rdropWhile Token.isSpace = [] :=
      List.rdropWhile_eq_nil_iff.mpr (Token.blank_iff.mp hafter)
    rw [Token.rdropWhile_append_cons hspace, hnil]
    exact .intro hhead hclosing hclosed hfirst Token.blank_nil hargs

theorem declaration_rdropWhile (src : Source) (head : Token) (ts : List Token) :
    declaration src head (ts.rdropWhile Token.isSpace) = declaration src head ts := by
  unfold declaration
  rw [Token.trim_rdropWhile]

theorem statement_eq_none_iff {src : Source} {terminated : Bool} {body : List Token} :
    statement src terminated body = .ok none ↔ Token.blank body := by
  constructor
  · intro h
    rw [← Token.trim_eq_nil_iff]
    unfold statement at h
    split at h
    · assumption
    · split at h
      · split at h
        · obtain ⟨n, -, hn⟩ := map_eq_ok_iff.mp h
          cases hn
        · cases h
      · obtain ⟨n, -, hn⟩ := map_eq_ok_iff.mp h
        cases hn
      · obtain ⟨n, -, hn⟩ := map_eq_ok_iff.mp h
        cases hn
      · cases h
  · intro h
    unfold statement
    rw [Token.trim_eq_nil_iff.mpr h]

/-- A statement is white space followed by a declaration or, if a semicolon
    stands behind it, by a call. -/
theorem statement_eq_some_iff {src : Source} {terminated : Bool} {body : List Token} {n : Node} :
    statement src terminated body = .ok (some n) ↔
      ∃ lead segment, Token.blank lead ∧ body = lead ++ segment ∧
        (Declares src segment n ∨ terminated = true ∧ Calls src segment n) := by
  constructor
  · intro h
    unfold statement at h
    split at h
    · cases h
    · rename_i head ts htrim
      obtain ⟨lead, rest, hlead, -, rfl, rfl⟩ := Token.trim_eq_cons_iff.mp htrim
      refine ⟨lead, head :: rest, hlead, rfl, ?_⟩
      split at h
      · rename_i hhead
        split at h
        · rename_i hterminated
          obtain ⟨n', hcall, hn⟩ := map_eq_ok_iff.mp h
          cases hn
          -- The white space that trimming took away may follow the call again.
          obtain ⟨trail, htrail, hrest⟩ := Token.exists_eq_rdropWhile_append rest
          rw [call_eq_ok_iff hhead] at hcall
          have hcalls := hcall.append_blank htrail
          rw [List.cons_append, ← hrest] at hcalls
          exact .inr ⟨hterminated, hcalls⟩
        · cases h
      · rename_i hhead
        obtain ⟨n', hdeclares, hn⟩ := map_eq_ok_iff.mp h
        cases hn
        rw [declaration_rdropWhile, declaration_eq_ok_iff (.inl hhead)] at hdeclares
        exact .inl hdeclares
      · rename_i hhead
        obtain ⟨n', hdeclares, hn⟩ := map_eq_ok_iff.mp h
        cases hn
        rw [declaration_rdropWhile, declaration_eq_ok_iff (.inr hhead)] at hdeclares
        exact .inl hdeclares
      · cases h
  · rintro ⟨lead, segment, hlead, rfl, hdeclares | ⟨rfl, hcalls⟩⟩
    · obtain ⟨head, ts, rfl, hhead⟩ := hdeclares.exists_head
      have hspace : head.isSpace = false := by
        rcases hhead with hhead | hhead
        · exact Token.isSpace_of_kind hhead (by decide)
        · exact Token.isSpace_of_kind hhead (by decide)
      have hread := (declaration_eq_ok_iff hhead).mpr hdeclares
      unfold statement
      rw [Token.trim_blank_append hlead, Token.trim_cons hspace]
      rcases hhead with hhead | hhead <;> simp only [hhead, declaration_rdropWhile, hread] <;> rfl
    · obtain ⟨head, ts, rfl, hhead⟩ := hcalls.exists_head
      have hspace := Token.isSpace_of_kind hhead (by decide)
      have hread := (call_eq_ok_iff hhead).mpr hcalls.rdropWhile
      unfold statement
      rw [Token.trim_blank_append hlead, Token.trim_cons hspace]
      simp only [hhead, if_true, hread]
      rfl

end MixinCss.Grammar
