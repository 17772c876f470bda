/-
  MixinCss.Proofs.Grammar.ArgumentWords

  Words among the arguments of a call. Every other value shows by its text that it
  is none: a reference by its first byte, a string by its quote, a number or a
  dimension by a sign, a digit or a point, and a group by the space between its
  parts. So an argument that is written like a word is that word
  (`parse_argument_word`).
-/

import MixinCss.Proofs.Grammar.Dimensions
import MixinCss.Proofs.Grammar.WellFormed

namespace MixinCss

/-! ## First bytes -/

theorem Byte.isDigit_of_isLower {b : UInt8} (h : Byte.isLower b = true) :
    Byte.isDigit b = false := by
  refine Bool.eq_false_iff.mpr fun hdigit => ?_
  have hplain : Lexer.digitBytes.any Byte.isLower = false := by decide
  exact List.any_eq_false.mp hplain b (Lexer.mem_digitBytes hdigit) h

namespace Lexer

theorem number_of_isLower {b : UInt8} (h : Byte.isLower b = true) (rest : Text) :
    number (b :: rest) = 0 := by
  have hdigit : Byte.isDigit b = false := Byte.isDigit_of_isLower h
  have hsign : one isSign (b :: rest) = 0 := by
    refine if_neg fun hsign => ?_
    simp only [isSign, Bool.or_eq_true, beq_iff_eq] at hsign
    rcases hsign with rfl | rfl <;> revert h <;> decide
  have hwhole : whole (b :: rest) = 0 := by
    rw [whole, hsign, List.drop_zero, run_cons_of_neg hdigit]
  have hpoint : fraction (b :: rest) = 0 := by
    refine fraction_eq_zero fun hhead => ?_
    obtain rfl : b = ascii '.' := Option.some.inj hhead
    revert h
    decide
  rw [number_eq, hsign, hwhole, List.drop_zero, run_cons_of_neg hdigit, hpoint]
  rfl

theorem Scanned.isLower_eq_false {b : UInt8} {rest : Text} {kind : TokenKind} {n : Nat}
    (h : Scanned b rest (kind, n)) (hkind : kind ∈ valueKinds) : Byte.isLower b = false := by
  rcases h.value_cases hkind with ⟨-, rfl⟩ | ⟨-, hquote⟩ | hnumeric
  · decide
  · simp only [isQuote, Bool.or_eq_true, beq_iff_eq] at hquote
    rcases hquote with rfl | rfl <;> decide
  · refine Bool.eq_false_iff.mpr fun hb => ?_
    rw [numeric?_eq_none_iff.mpr (number_of_isLower hb rest)] at hnumeric
    cases hnumeric

theorem IsLexeme.isLower_head {t : Token} {rest : Text} (h : IsLexeme t rest)
    (hkind : t.kind ∈ valueKinds) : ∀ b ∈ t.text.head?, Byte.isLower b = false := by
  obtain ⟨b, u, htext, hscan, -⟩ := h
  have hfound := scanned_scan b (u ++ rest)
  cases hr : scan b (u ++ rest) with
  | mk kind n =>
    rw [hr] at hfound hscan
    obtain rfl : kind = t.kind := hscan
    rw [htext]
    rintro _ ⟨⟩
    exact hfound.isLower_eq_false hkind

end Lexer

theorem Decimal.isLower_format (f : Float) :
    ∀ b ∈ (Decimal.format f).head?, Byte.isLower b = false := by
  intro b hb
  refine Bool.eq_false_iff.mpr fun hlower => ?_
  rcases Decimal.format_cases f with hnumeral | hword
  · generalize Decimal.format f = t at hnumeral hb
    obtain @⟨sign, whole, part, hsign, hwhole, -⟩ := hnumeral
    obtain ⟨d, ds, rfl⟩ := List.exists_cons_of_ne_nil hwhole.nonempty
    rcases hsign with rfl | rfl
    · obtain rfl : d = b := Option.some.inj hb
      have hdigit := hwhole.digit d List.mem_cons_self
      exact Bool.false_ne_true ((Byte.isDigit_of_isLower hlower).symm.trans hdigit)
    · obtain rfl : ascii '-' = b := Option.some.inj hb
      revert hlower
      decide
  · have hplain : ∀ t ∈ Decimal.words, t.head?.any Byte.isLower = false := by decide
    have hfirst := hplain _ hword
    rw [Option.mem_def.mp hb, Option.any_some] at hfirst
    exact Bool.false_ne_true (hfirst.symm.trans hlower)

/-! ## Arguments -/

namespace Grammar

open Lexer

variable {ts : List Token} {b : UInt8} {w : Text}

/-- A token that is written like a word is no reference, no string and no
    dimension. -/
theorem not_mem_valueKinds {t : Token} {rest : Text} (ht : IsLexeme t rest) (htext : t.text = b :: w)
    (hb : Byte.isLower b = true) : t.kind ∉ valueKinds := by
  intro hkind
  have hlower := ht.isLower_head hkind b (by rw [htext]; rfl)
  exact Bool.false_ne_true (hlower.symm.trans hb)

theorem reference?_ne_some (hts : ∀ t ∈ ts, ∃ rest, IsLexeme t rest) {v : Value}
    (htext : v.text = b :: w) (hb : Byte.isLower b = true) : reference? ts ≠ some v := by
  intro h
  unfold reference? at h
  split at h
  · rename_i t
    obtain ⟨rest, hlexeme⟩ := hts t List.mem_cons_self
    obtain ⟨hkind, hv⟩ := Option.ite_none_right_eq_some.mp h
    cases hv
    exact not_mem_valueKinds hlexeme htext hb (by rw [hkind]; decide)
  · obtain ⟨-, hv⟩ := Option.ite_none_right_eq_some.mp h
    cases hv
    cases htext
    revert hb
    decide
  · cases h

theorem scalar_eq_word {t : Token} {rest : Text} (ht : IsLexeme t rest)
    (htext : (scalar t).text = b :: w) (hb : Byte.isLower b = true) :
    scalar t = .word (b :: w) := by
  have hother (hkind : t.kind ∈ valueKinds) : t.text ≠ b :: w :=
    fun h => not_mem_valueKinds ht h hb hkind
  unfold scalar at htext ⊢
  split at htext
  · -- A number is written with its digits.
    cases hnumber : number? t with
    | none =>
      rw [hnumber] at htext
      exact congrArg Value.word htext
    | some v =>
      obtain ⟨f, rfl⟩ : ∃ f, v = .number t.text f := by
        unfold number? at hnumber
        split at hnumber
        · exact ⟨_, (Option.some.inj hnumber).symm⟩
        · cases hnumber
      rw [hnumber] at htext
      have hlower := Decimal.isLower_format f b (congrArg List.head? htext)
      exact absurd (hlower.symm.trans hb) Bool.false_ne_true
  · rename_i hkind
    rw [text_dimension?] at htext
    exact absurd htext (hother (by rw [hkind]; decide))
  · rename_i hkind
    rw [text_dimension?] at htext
    exact absurd htext (hother (by rw [hkind]; decide))
  · rename_i hkind
    exact absurd htext (hother (by rw [hkind]; decide))
  · exact congrArg Value.word htext

/-- Tokens of a source without white space between them that are written like a
    word. -/
theorem atom_eq_word (hts : ∀ t ∈ ts, ∃ rest, IsLexeme t rest) (htext : (atom ts).text = b :: w)
    (hb : Byte.isLower b = true) : atom ts = .word (b :: w) := by
  unfold atom at htext ⊢
  split at htext
  · rename_i v hreference
    exact absurd hreference (reference?_ne_some hts htext hb)
  · split at htext
    · rename_i t _
      obtain ⟨rest, hlexeme⟩ := hts t List.mem_cons_self
      exact scalar_eq_word hlexeme htext hb
    · exact congrArg Value.word htext

theorem valueOfArgument_eq_word (hts : ∀ t ∈ ts, ∃ rest, IsLexeme t rest)
    (htext : (valueOfArgument ts).text = b :: w) (hb : Byte.isLower b = true)
    (hspace : ascii ' ' ∉ b :: w) : valueOfArgument ts = .word (b :: w) := by
  have hgroups : ∀ group ∈ (splitTop .whitespace ts).filter (fun g => !g.isEmpty),
      ∀ t ∈ group, ∃ rest, IsLexeme t rest := by
    intro group hgroup t ht
    exact hts t (mem_of_mem_splitFrom (List.mem_of_mem_filter hgroup) ht)
  rw [valueOfArgument] at htext ⊢
  generalize (splitTop .whitespace ts).filter (fun g => !g.isEmpty) = groups at hgroups htext ⊢
  cases groups with
  | nil => cases htext
  | cons group groups =>
    cases groups with
    | nil => exact atom_eq_word (hgroups group List.mem_cons_self) htext hb
    | cons second groups =>
      -- Between two parts there is a space.
      refine absurd ?_ hspace
      rw [← htext]
      show ascii ' ' ∈ (atom group).text ++ [ascii ' '] ++ _
      exact List.mem_append_left _ (List.mem_append_right _ List.mem_cons_self)

/-- An argument by position is the value of its tokens. -/
theorem Arguments.exists_tokens {inside : List Token} {values : List Value}
    (h : Arguments inside (.positional values)) {v : Value} (hv : v ∈ values) :
    ∃ ts, (∀ t ∈ ts, t ∈ inside) ∧ v = valueOfArgument ts := by
  cases h with
  | none => cases hv
  | @positional groups hgroups hplain =>
    obtain ⟨group, hgroup, rfl⟩ := List.mem_map.mp hv
    rw [← splitTop_comma_eq_iff.mpr hgroups] at hgroup
    refine ⟨Token.trim group, fun t ht => ?_, rfl⟩
    exact mem_of_mem_splitFrom hgroup (Token.mem_of_mem_trim ht)

theorem Reads.arguments {src : Source} {part : List Token} {name : Text} {args : Args} {pos : Pos}
    (h : Reads src part (.call name (some args) pos)) :
    ∃ inside, (∀ t ∈ inside, t ∈ part) ∧ Arguments inside args := by
  cases h with
  | statement hsegment hn hmark =>
    rcases hn with hdeclares | hcalls
    · cases hdeclares
    · cases hcalls with
      | @intro head closing inside after _ hhead hclosing hclosed hfirst hafter hargs =>
        refine ⟨inside, fun t ht => ?_, hargs⟩
        exact List.mem_append_left _ (List.mem_cons_of_mem _ (List.mem_append_left _ ht))

end Grammar

/-- An argument of a call in a source that begins with a small letter and holds no
    space is the word that it is written like. -/
theorem parse_argument_word {src : Text} {sheet : Sheet} (h : parse src = .ok sheet) {name : Text}
    {values : List Value} {pos : Pos}
    (hn : Node.call name (some (.positional values)) pos ∈ Sheet.members sheet) {v : Value}
    (hv : v ∈ values) {b : UInt8} {w : Text} (htext : v.text = b :: w)
    (hb : Byte.isLower b = true) (hspace : ascii ' ' ∉ b :: w) : v = .word (b :: w) := by
  obtain ⟨part, hpart, hreads⟩ := parse_reads h _ hn
  obtain ⟨inside, hinside, hargs⟩ := hreads.arguments
  obtain ⟨ts, hts, rfl⟩ := hargs.exists_tokens hv
  refine Grammar.valueOfArgument_eq_word (fun t ht => ?_) htext hb hspace
  have hmem := List.mem_of_mem_filter (hpart.subset (hinside t (hts t ht)))
  obtain ⟨_, rest, -, -, -, hlexeme⟩ := Lexer.exists_seam_of_mem_lex hmem
  exact ⟨rest, hlexeme⟩

end MixinCss
