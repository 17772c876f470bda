/-
  MixinCss.Proofs.Grammar.WellFormed

  What holds of every tree that the parser gives. Each node begins with a token
  of the source, which can be told from the node: the property, the name of the
  call with its parenthesis, or the beginning of the selector. No text in the
  tree is empty and no argument looks as if it were not given, since it is made
  of tokens and no token is empty. A group of values has parts, at least two of
  them, and no part is a group (`parse_wellFormed`).
-/

import MixinCss.Proofs.Grammar.Parts
import MixinCss.Proofs.Token.Seams
import MixinCss.Proofs.Token.Separated

namespace MixinCss

/-! ## Well-formed values and nodes -/

/-- A single value that counts as given. -/
def Value.IsSingle (v : Value) : Prop := v.kind ≠ .list ∧ v.isAbsent = false

/-- What an argument is: a single value, or several ones in a group. -/
def Value.IsArgument : Value → Prop
  | .list parts => 2 ≤ parts.length ∧ ∀ part ∈ parts, part.IsSingle
  | v => v.IsSingle

/-- Arguments by keyword are there, and each has a key of its own. -/
def Args.IsWellFormed : Args → Prop
  | .positional values => ∀ v ∈ values, v.IsArgument
  | .keywords pairs =>
    pairs ≠ [] ∧ (pairs.map Keyword.key).Nodup ∧ ∀ k ∈ pairs, k.key ≠ [] ∧ k.value.IsArgument

/-- How a node shows the text of the token that it begins with. -/
def Node.Shows (first : Text) : Node → Prop
  | .declaration property _ _ => property = first
  | .rule selector _ _ => first <+: selector
  | .call name _ _ => name ++ [ascii '('] = first
  | .nothing | .foreign _ => False

/-- The parts of a node by themselves. What a rule holds is not looked into. -/
def Node.IsFilled : Node → Prop
  | .declaration property value _ => property ≠ [] ∧ value.raw ≠ []
  | .rule selector _ _ => selector ≠ []
  | .call _ args _ => ∃ given, args = some given ∧ given.IsWellFormed
  | .nothing | .foreign _ => False

/-- The node is filled, and the source has at its place the token that it
    begins with. -/
structure Node.IsWellFormed (src : Text) (n : Node) : Prop where
  filled : n.IsFilled
  begins : ∃ first p, first ∈ Lexer.lex 0 src ∧ n.pos? = some p ∧ first.offset = p.offset ∧
    first.text ≠ [] ∧ first.text <+: src.drop p.offset ∧ n.Shows first.text

/-! ## Texts of tokens -/

namespace Lexer

/-- A lexeme is not empty, and it stands in the source at its offset. -/
theorem text_of_mem_lex {src : Text} {t : Token} (h : t ∈ lex 0 src) :
    t.text ≠ [] ∧ t.text <+: src.drop t.offset := by
  obtain ⟨pre, rest, hsrc, hoffset, -, b, u, htext, -⟩ := exists_seam_of_mem_lex h
  refine ⟨by rw [htext]; exact List.cons_ne_nil b u, ?_⟩
  rw [hsrc, hoffset, Nat.zero_add, List.drop_left]
  exact List.prefix_append _ _

theorem functionName_of_mem_lex {src : Text} {t : Token} (h : t ∈ lex 0 src)
    (hkind : t.kind = .function) : t.functionName ++ [ascii '('] = t.text := by
  obtain ⟨_, rest, -, -, -, hlexeme⟩ := exists_seam_of_mem_lex h
  obtain ⟨⟨v, htext⟩, -⟩ := hlexeme.function hkind
  rw [Token.functionName, htext, Text.dropTail_append]

end Lexer

namespace Token

/-- Without white space in front, the text of tokens begins with the text of the
    first one. -/
theorem text_prefix_raw {t : Token} {ts : List Token} (h : t.isSpace = false) :
    t.text <+: raw (t :: ts) := by
  rw [raw, trim_cons h, List.flatMap_cons, h]
  exact List.prefix_append _ _

theorem raw_ne_nil {ts : List Token} (hblank : ¬ blank ts) (htexts : ∀ t ∈ ts, t.text ≠ []) :
    raw ts ≠ [] := by
  obtain ⟨lead, t, rest, hlead, ht, rfl⟩ := exists_first_of_not_blank (eq_false_of_ne_true hblank)
  rw [← raw_trim, trim_blank_append hlead, raw_trim]
  exact (text_prefix_raw ht).ne_nil (htexts t (by simp))

theorem blank_trim_iff {ts : List Token} : blank (trim ts) ↔ blank ts := by
  rw [← trim_eq_nil_iff, trim_trim, trim_eq_nil_iff]

end Token

namespace Grammar

/-! ## Splitting -/

section Splitting

variable {sep : TokenKind} {depth : Int} {t : Token} {ts : List Token}

/-- Only separators are lost. -/
theorem exists_mem_splitFrom (depth : Int) (ht : t ∈ ts) (hkind : t.kind ≠ sep) :
    ∃ group ∈ splitFrom sep depth ts, t ∈ group := by
  induction ts generalizing depth with
  | nil => cases ht
  | cons u ts ih =>
    by_cases hsep : u.kind = sep ∧ depth = 0
    · rcases List.mem_cons.mp ht with rfl | ht
      · exact absurd hsep.1 hkind
      · obtain ⟨group, hgroup, hmem⟩ := ih depth ht
        exact ⟨group, by rw [splitFrom, if_pos hsep]; exact List.mem_cons_of_mem [] hgroup, hmem⟩
    · obtain ⟨first, groups, hrest, hcons⟩ := exists_splitFrom_cons ts hsep
      rw [hcons]
      rcases List.mem_cons.mp ht with rfl | ht
      · exact ⟨t :: first, List.mem_cons_self, List.mem_cons_self⟩
      · obtain ⟨group, hgroup, hmem⟩ := ih (depth + u.nesting) ht
        rw [hrest, List.mem_cons] at hgroup
        rcases hgroup with rfl | hgroup
        · exact ⟨u :: group, List.mem_cons_self, List.mem_cons_of_mem u hmem⟩
        · exact ⟨group, List.mem_cons_of_mem _ hgroup, hmem⟩

/-- A group begins where everything is closed, so it does not begin with a
    separator; for the first group this is so if the tokens begin there. -/
theorem head_of_splitFrom {first : List Token} {groups : List (List Token)}
    (h : splitFrom sep depth ts = first :: groups) :
    (depth = 0 → ∀ t ∈ first.head?, t.kind ≠ sep) ∧
      ∀ group ∈ groups, ∀ t ∈ group.head?, t.kind ≠ sep := by
  induction ts generalizing depth first groups with
  | nil =>
    cases h
    simp
  | cons u ts ih =>
    by_cases hsep : u.kind = sep ∧ depth = 0
    · -- What was the first group of the rest begins behind the separator.
      rw [splitFrom, if_pos hsep] at h
      obtain ⟨rfl, rfl⟩ := List.cons.inj h
      obtain ⟨second, more, hrest⟩ := List.exists_cons_of_ne_nil (splitFrom_ne_nil sep depth ts)
      have hbehind := ih hrest
      rw [hrest]
      exact ⟨fun _ => by simp, List.forall_mem_cons.mpr ⟨hbehind.1 hsep.2, hbehind.2⟩⟩
    · obtain ⟨second, more, hrest, hcons⟩ := exists_splitFrom_cons ts hsep
      rw [hcons] at h
      obtain ⟨rfl, rfl⟩ := List.cons.inj h
      refine ⟨fun hdepth t ht => ?_, (ih hrest).2⟩
      obtain rfl : u = t := Option.some.inj ht
      exact fun hkind => hsep ⟨hkind, hdepth⟩

theorem head_of_mem_splitTop {group : List Token} (h : group ∈ splitTop sep ts) :
    ∀ t ∈ group.head?, t.kind ≠ sep := by
  obtain ⟨first, groups, hsplit⟩ := List.exists_cons_of_ne_nil (splitFrom_ne_nil sep 0 ts)
  obtain ⟨hfirst, hgroups⟩ := head_of_splitFrom hsplit
  rw [splitTop, hsplit] at h
  rcases List.mem_cons.mp h with rfl | h
  · exact hfirst rfl
  · exact hgroups group h

end Splitting

/-! ## Values -/

/-- A value with a text is single and given. -/
theorem isSingle_of_raw {v : Value} (h : v.raw ≠ []) : v.IsSingle := by
  cases v with
  | list parts => exact absurd rfl h
  | word raw => exact ⟨ValueKind.noConfusion, List.isEmpty_eq_false_iff.mpr h⟩
  | _ => exact ⟨ValueKind.noConfusion, rfl⟩

theorem isArgument_of_isSingle {v : Value} (h : v.IsSingle) : v.IsArgument := by
  cases v with
  | list parts => exact absurd rfl h.1
  | _ => exact h

theorem isArgument_ofParts {parts : List Value} (hne : parts ≠ [])
    (h : ∀ part ∈ parts, part.IsSingle) : (Value.ofParts parts).IsArgument := by
  match parts with
  | [] => exact absurd rfl hne
  | [v] => exact isArgument_of_isSingle (h v List.mem_cons_self)
  | v :: w :: rest => exact ⟨by simp, h⟩

theorem raw_of_reference? {ts : List Token} {v : Value} (h : reference? ts = some v)
    (htexts : ∀ t ∈ ts, t.text ≠ []) : v.raw ≠ [] := by
  unfold reference? at h
  split at h
  · split at h
    · cases h
      exact htexts _ List.mem_cons_self
    · cases h
  · split at h
    · cases h
      exact List.cons_ne_nil _ _
    · cases h
  · cases h

theorem raw_of_number? {t : Token} {v : Value} (h : number? t = some v) : v.raw = t.text := by
  unfold number? at h
  split at h
  · cases h
    rfl
  · cases h

theorem raw_of_dimension? {t : Token} {v : Value} (h : dimension? t = some v) :
    v.raw = t.text := by
  unfold dimension? at h
  dsimp only at h
  split at h
  · cases h
    rfl
  · cases h

theorem raw_getD {text : Text} {v? : Option Value} (h : ∀ v, v? = some v → v.raw = text) :
    (v?.getD (.word text)).raw = text := by
  cases v? with
  | none => rfl
  | some v => exact h v rfl

theorem raw_scalar (t : Token) : (scalar t).raw = t.text := by
  unfold scalar
  split
  · exact raw_getD fun _ => raw_of_number?
  · exact raw_getD fun _ => raw_of_dimension?
  · exact raw_getD fun _ => raw_of_dimension?
  · rfl
  · rfl

/-- A value is read from tokens that begin with something else than white space,
    and it keeps their text. -/
theorem raw_atom {ts : List Token} (hblank : ¬ Token.blank ts) (htexts : ∀ t ∈ ts, t.text ≠ []) :
    (atom ts).raw ≠ [] := by
  unfold atom
  split
  · rename_i v hreference
    exact raw_of_reference? hreference htexts
  · split
    · rw [raw_scalar]
      exact htexts _ List.mem_cons_self
    · exact Token.raw_ne_nil hblank htexts

theorem raw_valueOfDeclaration {ts : List Token} (hblank : ¬ Token.blank ts)
    (htexts : ∀ t ∈ ts, t.text ≠ []) : (valueOfDeclaration ts).raw ≠ [] := by
  have hplain : ((reference? ts).getD (.word (Token.raw ts))).raw ≠ [] := by
    cases hreference : reference? ts with
    | none => exact Token.raw_ne_nil hblank htexts
    | some v => exact raw_of_reference? hreference htexts
  unfold valueOfDeclaration
  dsimp only
  split
  · rename_i t
    split
    · cases hnumber : number? t with
      | none => exact hplain
      | some v =>
        rw [Option.getD_some, raw_of_number? hnumber]
        exact htexts t List.mem_cons_self
    · exact hplain
  · exact hplain

/-- The parts of an argument are single values, and there is at least one. -/
theorem isArgument_valueOfArgument {ts : List Token} (hblank : ¬ Token.blank ts)
    (htexts : ∀ t ∈ ts, t.text ≠ []) : (valueOfArgument ts).IsArgument := by
  have hpart : ∀ part ∈ ((splitTop .whitespace ts).filter fun g => !g.isEmpty).map atom,
      part.IsSingle := by
    rw [List.forall_mem_map]
    intro group hgroup
    obtain ⟨hmem, hne⟩ := List.mem_filter.mp hgroup
    -- A group does not begin with white space, so it is not blank.
    have hhead := head_of_mem_splitTop hmem
    refine isSingle_of_raw (raw_atom ?_ fun t ht => htexts t (mem_of_mem_splitFrom hmem ht))
    cases group with
    | nil => cases hne
    | cons t rest =>
      rw [Token.blank_cons, Token.isSpace_eq_false_iff.mpr (hhead t rfl)]
      exact Bool.false_ne_true
  -- A token that is not white space is in some group.
  have hsome : ((splitTop .whitespace ts).filter fun g => !g.isEmpty) ≠ [] := by
    obtain ⟨lead, t, rest, -, ht, rfl⟩ :=
      Token.exists_first_of_not_blank (eq_false_of_ne_true hblank)
    obtain ⟨group, hgroup, hmem⟩ := exists_mem_splitFrom 0
      (List.mem_append_right lead List.mem_cons_self) (Token.isSpace_eq_false_iff.mp ht)
    refine List.ne_nil_of_mem (List.mem_filter.mpr ⟨hgroup, ?_⟩)
    rw [List.isEmpty_eq_false_iff.mpr (List.ne_nil_of_mem hmem)]
    rfl
  exact isArgument_ofParts (mt List.map_eq_nil_iff.mp hsome) hpart

theorem isArgument_trim {ts : List Token} (hblank : ¬ Token.blank ts)
    (htexts : ∀ t ∈ ts, t.text ≠ []) : (valueOfArgument (Token.trim ts)).IsArgument :=
  isArgument_valueOfArgument (mt Token.blank_trim_iff.mp hblank)
    fun t ht => htexts t (Token.mem_of_mem_trim ht)

/-! ## Arguments and nodes -/

theorem KeywordOf.isWellFormed {group : List Token} {k : Keyword} (h : KeywordOf group k)
    (htexts : ∀ t ∈ group, t.text ≠ []) : k.key ≠ [] ∧ k.value.IsArgument := by
  obtain ⟨value, hkeyed, hblank, hvalue⟩ := h
  -- The key is an index of `Keyed`, so it has to be a variable for the case split.
  generalize k.key = key at hkeyed ⊢
  cases hkeyed with
  | @intro lead gap _ head colon =>
    simp only [List.forall_mem_append, List.forall_mem_cons] at htexts
    rw [hvalue]
    exact ⟨htexts.2.1, isArgument_trim hblank htexts.2.2.2.2⟩

theorem exists_group_of_mem {groups : List (List Token)} {pairs : List Keyword} {k : Keyword}
    (h : List.Forall₂ KeywordOf groups pairs) (hk : k ∈ pairs) :
    ∃ group ∈ groups, KeywordOf group k := by
  induction h with
  | nil => cases hk
  | cons hfirst _ ih =>
    rcases List.mem_cons.mp hk with rfl | hk
    · exact ⟨_, List.mem_cons_self, hfirst⟩
    · obtain ⟨group, hmem, hkeyword⟩ := ih hk
      exact ⟨group, List.mem_cons_of_mem _ hmem, hkeyword⟩

theorem Arguments.isWellFormed {inside : List Token} {args : Args} (h : Arguments inside args)
    (htexts : ∀ t ∈ inside, t.text ≠ []) : args.IsWellFormed := by
  have hgroup {groups : List (List Token)} (hgroups : Groups inside groups) :
      ∀ group ∈ groups, ∀ t ∈ group, t.text ≠ [] := by
    intro group hmem t ht
    rw [← splitTop_comma_eq_iff.mpr hgroups] at hmem
    exact htexts t (mem_of_mem_splitFrom hmem ht)
  cases h with
  | none => exact List.forall_mem_nil _
  | @keywords groups pairs hgroups hpairs hkeys =>
    refine ⟨?_, hkeys, fun k hk => ?_⟩
    · rintro rfl
      cases hpairs
      exact hgroups.ne_nil rfl
    · obtain ⟨group, hmem, hkeyword⟩ := exists_group_of_mem hpairs hk
      exact hkeyword.isWellFormed (hgroup hgroups group hmem)
  | @positional groups hgroups hplain =>
    refine List.forall_mem_map.mpr fun group hmem => ?_
    exact isArgument_trim (hplain group hmem).1 (hgroup hgroups group hmem)

section Nodes

variable {src : Text} {part : List Token}

/-- A rule begins as its selector does. -/
theorem isWellFormed_rule {selector : List Token} {first : Token} (children : List Node)
    (hfirst : BeginsWith selector first) (hlex : ∀ t ∈ selector, t ∈ Lexer.lex 0 src) :
    Node.IsWellFormed src
      (.rule (Token.raw selector) children ((Source.ofText src).pos first.offset)) := by
  obtain ⟨lead, rest, hlead, hkind, rfl⟩ := hfirst
  have hmem := hlex first (List.mem_append_right lead List.mem_cons_self)
  obtain ⟨hne, hplace⟩ := Lexer.text_of_mem_lex hmem
  have hshows : first.text <+: Token.raw (lead ++ first :: rest) := by
    rw [← Token.raw_trim, Token.trim_blank_append hlead, Token.raw_trim]
    exact Token.text_prefix_raw (Token.isSpace_eq_false_iff.mpr hkind)
  exact ⟨hshows.ne_nil hne, first, _, hmem, rfl, rfl, hne, hplace, hshows⟩

theorem Declares.isWellFormed {n : Node} (h : Declares (Source.ofText src) part n)
    (hlex : ∀ t ∈ part, t ∈ Lexer.lex 0 src) : n.IsWellFormed src := by
  have htexts : ∀ t ∈ part, t.text ≠ [] := fun t ht => (Lexer.text_of_mem_lex (hlex t ht)).1
  cases h with
  | @intro head colon gap value hhead hgap hcolon hvalue =>
    simp only [List.forall_mem_append, List.forall_mem_cons] at hlex htexts
    obtain ⟨hne, hplace⟩ := Lexer.text_of_mem_lex hlex.1
    have hraw : (valueOfDeclaration (Token.trim value)).raw ≠ [] :=
      raw_valueOfDeclaration (mt Token.blank_trim_iff.mp hvalue)
        fun t ht => htexts.2.2.2 t (Token.mem_of_mem_trim ht)
    exact ⟨⟨hne, hraw⟩, head, _, hlex.1, rfl, rfl, hne, hplace, rfl⟩

theorem Calls.isWellFormed {n : Node} (h : Calls (Source.ofText src) part n)
    (hlex : ∀ t ∈ part, t ∈ Lexer.lex 0 src) : n.IsWellFormed src := by
  have htexts : ∀ t ∈ part, t.text ≠ [] := fun t ht => (Lexer.text_of_mem_lex (hlex t ht)).1
  cases h with
  | @intro head closing inside after args hhead hclosing hclosed hfirst hafter hargs =>
    simp only [List.forall_mem_append, List.forall_mem_cons] at hlex htexts
    obtain ⟨hne, hplace⟩ := Lexer.text_of_mem_lex hlex.1
    exact ⟨⟨args, rfl, hargs.isWellFormed htexts.2.1⟩, head, _, hlex.1, rfl, rfl, hne, hplace,
      Lexer.functionName_of_mem_lex hlex.1 hhead⟩

theorem Reads.isWellFormed {n : Node} (h : Reads (Source.ofText src) part n)
    (hlex : ∀ t ∈ part, t ∈ Lexer.lex 0 src) : n.IsWellFormed src := by
  cases h with
  | rule children hsegment hfirst hopening =>
    exact isWellFormed_rule children hfirst fun t ht => hlex t (List.mem_append_left _ ht)
  | statement hsegment hn hmark =>
    have hsub := fun t ht => hlex t (List.mem_append_left _ ht)
    exact hn.elim (·.isWellFormed hsub) (·.isWellFormed hsub)

end Nodes

theorem Document.parentless {src : Source} {ts : List Token} {sheet : Sheet}
    (h : Document src ts sheet) : ∀ r ∈ sheet, ascii '&' ∉ r.selector := by
  induction h with
  | done => exact List.forall_mem_nil _
  | space _ _ ih => exact ih
  | semicolon _ _ ih => exact ih
  | rule _ hparent _ ih => exact List.forall_mem_cons.mpr ⟨hparent, ih⟩

end Grammar

/-- The tree of a parsed source is well formed: from node to node the offsets
    grow, no rule at the top refers to a parent, and every node at any depth is
    filled and stands at the token that it begins with. -/
theorem parse_wellFormed {src : Text} {sheet : Sheet} (h : parse src = .ok sheet) :
    (Sheet.offsets sheet).Pairwise (· < ·) ∧ (∀ r ∈ sheet, ascii '&' ∉ r.selector) ∧
      ∀ n ∈ Sheet.members sheet, n.IsWellFormed src := by
  obtain ⟨ts, -, hderived⟩ := parse_eq_ok_iff.mp h
  refine ⟨parse_offsets_increase h, hderived.parentless, fun n hn => ?_⟩
  obtain ⟨part, hpart, hreads⟩ := parse_reads h n hn
  exact hreads.isWellFormed fun t ht => List.mem_of_mem_filter (hpart.subset ht)

/-- All forms of statements, with comments, empty statements and a final
    declaration; groups of values and arguments by keyword. -/
theorem parse_wellFormed_forms :
    let src := utf8 (".a /* 1 */ .b \x7b ; margin(top: 1px 2px, left: $x); /* 2 */ &:hover \x7b " ++
      "color: #fff \x7d f(g(x y) 'z', [,]) ; \x7d")
    ∃ sheet, parse src = .ok sheet ∧ Sheet.offsets sheet = [0, 18, 58, 68, 82] ∧
      [0, 18, 58, 68, 82].Pairwise (· < ·) ∧ (∀ r ∈ sheet, ascii '&' ∉ r.selector) ∧
      ∀ n ∈ Sheet.members sheet, n.IsWellFormed src := by
  intro src
  have hoffsets : (parse src).toOption.map Sheet.offsets = some [0, 18, 58, 68, 82] := by
    decide +kernel
  obtain ⟨sheet, hparse, hsheet⟩ := Option.map_eq_some_iff.mp hoffsets
  rw [toOption_eq_some_iff] at hparse
  obtain ⟨hgrow, htop, hall⟩ := parse_wellFormed hparse
  rw [hsheet] at hgrow
  exact ⟨sheet, hparse, hsheet, hgrow, htop, hall⟩

end MixinCss
