/-
  MixinCss.Proofs.Compile

  Compiling as the three stages one behind the other, and documents that are put
  together. A document whose last token is a closing brace keeps its tokens when
  another one follows, so the two are parsed, expanded and written side by side
  (`compile_append`).
-/

import MixinCss.Compile
import MixinCss.Proofs.Grammar.Document
import MixinCss.Proofs.Grammar.Relocation
import MixinCss.Proofs.Text.Joined

namespace MixinCss

/-! ## The stages -/

theorem compile_eq_ok_iff {src : Text} {o : Options} {out : Compiled} :
    compile src o = .ok out ↔
      ∃ sheet expanded, parse src = .ok sheet ∧
        (o.catalog.expand sheet).result = .ok expanded ∧
        out = ⟨Sheet.render o.units expanded, warningsOf (o.catalog.expand sheet).notes⟩ := by
  unfold compile compileWith
  cases hparse : parse src with
  | error e => simp
  | ok sheet =>
    dsimp only
    cases hexpand : (o.catalog.expand sheet).result with
    | error e => simp [hexpand]
    | ok expanded => simp [hexpand, eq_comm]

/-! ## Documents put together -/

open Token (Moved)

/-- Two documents put together are parsed side by side. -/
theorem parse_append {s₁ s₂ : Text} {sheet₁ sheet₂ : Sheet} (h₁ : parse s₁ = .ok sheet₁)
    (h₂ : parse s₂ = .ok sheet₂)
    (hlast : (Lexer.lex 0 s₁).getLast?.map Token.kind = some .closeBrace) :
    ∃ sheet₁' sheet₂', parse (s₁ ++ s₂) = .ok (sheet₁' ++ sheet₂') ∧
      Sheet.unplaced sheet₁' = Sheet.unplaced sheet₁ ∧
      Sheet.unplaced sheet₂' = Sheet.unplaced sheet₂ := by
  obtain ⟨ts₁, htokens₁, hderived₁⟩ := parse_eq_ok_iff.1 h₁
  obtain ⟨ts₂, htokens₂, hderived₂⟩ := parse_eq_ok_iff.1 h₂
  obtain ⟨hgood₁, rfl⟩ := Grammar.tokens_eq_ok_iff.1 htokens₁
  obtain ⟨hgood₂, rfl⟩ := Grammar.tokens_eq_ok_iff.1 htokens₂
  have hkeeps := Lexer.lexemes_of_closeBrace hlast (fun t ht => (hgood₁ t ht).2) s₂
  have hmoved : Moved (Lexer.lex 0 (s₁ ++ s₂)) (Lexer.lex 0 s₁ ++ Lexer.lex 0 s₂) :=
    Lexer.lex_append_bare hkeeps
  have hgood : ∀ t ∈ Lexer.lex 0 (s₁ ++ s₂), t.kind ≠ .badString ∧ t.kind ≠ .badUrl := by
    refine hmoved.forall_mem (fun t u hbare ht => ?_) fun t ht => ?_
    · rw [Token.kind_eq_of_bare hbare]
      exact ht
    · rcases List.mem_append.1 ht with ht | ht
      · exact hgood₁ t ht
      · exact hgood₂ t ht
  -- Comments are dropped token by token, so the tokens that are kept still split in two.
  have hfilter := hmoved.filter (p := fun t => t.kind != .comment) fun _ => rfl
  rw [List.filter_append] at hfilter
  obtain ⟨us₁, us₂, hus, hus₁, hus₂⟩ := hfilter.of_append
  obtain ⟨sheet₁', hsheet₁, heq₁⟩ := hderived₁.relocate hus₁ (Source.ofText (s₁ ++ s₂))
  obtain ⟨sheet₂', hsheet₂, heq₂⟩ := hderived₂.relocate hus₂ (Source.ofText (s₁ ++ s₂))
  refine ⟨sheet₁', sheet₂', parse_eq_ok_iff.2 ⟨us₁ ++ us₂, ?_, hsheet₁.append hsheet₂⟩,
    heq₁, heq₂⟩
  exact Grammar.tokens_eq_ok_iff.2 ⟨hgood, hus.symm⟩

/-- Sheets that are the same up to places are expanded to sheets that are, with
    the same warnings. -/
theorem Catalog.expand_congr (c : Catalog) {sheet sheet' expanded : Sheet}
    (h : Sheet.unplaced sheet' = Sheet.unplaced sheet)
    (hexpand : (c.expand sheet).result = .ok expanded) :
    ∃ expanded', (c.expand sheet').result = .ok expanded' ∧
      Sheet.unplaced expanded' = Sheet.unplaced expanded ∧
      (warningsOf (c.expand sheet').notes).map Warning.message =
        (warningsOf (c.expand sheet).notes).map Warning.message := by
  have hvisit : (c.expand sheet').unplaced Sheet.unplaced =
      (c.expand sheet).unplaced Sheet.unplaced := by
    unfold Catalog.expand
    rw [← c.expandWithin_unplaced, h, c.expandWithin_unplaced]
  obtain ⟨hnotes, ⟨a, b, ha, hb, hab⟩ | ⟨d, e, _, he, _⟩⟩ := Visit.unplaced_eq_iff.1 hvisit
  · rw [hexpand] at hb
    cases hb
    refine ⟨a, ha, hab, ?_⟩
    rw [← warningsOf_unplaced, hnotes, warningsOf_unplaced]
  · rw [hexpand] at he
    cases he

theorem Sheet.render_append (u : Units) {front back : Sheet} (hfront : front ≠ [])
    (hback : back ≠ []) :
    Sheet.render u (front ++ back) =
      Sheet.render u front ++ utf8 "\n\n" ++ Sheet.render u back := by
  unfold Sheet.render
  rw [List.map_append, Text.join_append _ (mt List.map_eq_nil_iff.1 hfront)
    (mt List.map_eq_nil_iff.1 hback)]

/-- A sheet that has rules still has them when it is expanded. -/
theorem Catalog.ne_nil_of_expand {c : Catalog} {sheet expanded : Sheet}
    (h : (c.expand sheet).result = .ok expanded) (hsheet : sheet ≠ []) : expanded ≠ [] := by
  have hlength := congrArg List.length (c.expandWithin_headings depthLimit h)
  rw [List.length_map, List.length_map] at hlength
  intro hnil
  rw [hnil, List.length_nil, eq_comm, List.length_eq_zero_iff] at hlength
  exact hsheet hlength

/-- Documents compose. Let two sources be compiled, each with at least one rule,
    and let the last token of the first, comments included, be a closing brace.
    Then the first followed by the second is compiled, to the text of the first,
    an empty line and the text of the second; the messages of its warnings are
    those of the first followed by those of the second. -/
theorem compile_append (o : Options) {s₁ s₂ : Text} {sheet₁ sheet₂ : Sheet} {out₁ out₂ : Compiled}
    (h₁ : compile s₁ o = .ok out₁) (h₂ : compile s₂ o = .ok out₂)
    (hsheet₁ : parse s₁ = .ok sheet₁) (hsheet₂ : parse s₂ = .ok sheet₂)
    (hrules₁ : sheet₁ ≠ []) (hrules₂ : sheet₂ ≠ [])
    (hlast : (Lexer.lex 0 s₁).getLast?.map Token.kind = some .closeBrace) :
    ∃ out, compile (s₁ ++ s₂) o = .ok out ∧
      out.css = out₁.css ++ utf8 "\n\n" ++ out₂.css ∧
      out.warnings.map Warning.message =
        out₁.warnings.map Warning.message ++ out₂.warnings.map Warning.message := by
  obtain ⟨sheet, expanded₁, hparse, hexpand₁, rfl⟩ := compile_eq_ok_iff.1 h₁
  cases hsheet₁.symm.trans hparse
  obtain ⟨sheet, expanded₂, hparse, hexpand₂, rfl⟩ := compile_eq_ok_iff.1 h₂
  cases hsheet₂.symm.trans hparse
  obtain ⟨part₁, part₂, hboth, hpart₁, hpart₂⟩ := parse_append hsheet₁ hsheet₂ hlast
  -- The places in the second part have changed, which shows neither in the text nor in messages.
  obtain ⟨result₁, hresult₁, heq₁, hwarnings₁⟩ := o.catalog.expand_congr hpart₁ hexpand₁
  obtain ⟨result₂, hresult₂, heq₂, hwarnings₂⟩ := o.catalog.expand_congr hpart₂ hexpand₂
  have hvisit : o.catalog.expand (part₁ ++ part₂) =
      ⟨(o.catalog.expand part₁).notes ++ (o.catalog.expand part₂).notes,
        .ok (result₁ ++ result₂)⟩ := by
    unfold Catalog.expand at hresult₁ hresult₂ ⊢
    rw [Catalog.expandWithin_append, Visit.andThen_of_ok hresult₁ hresult₂]
  refine ⟨_, compile_eq_ok_iff.2 ⟨_, result₁ ++ result₂, hboth, by rw [hvisit], rfl⟩, ?_, ?_⟩
  · rw [Sheet.render_append _ (Catalog.ne_nil_of_expand hresult₁ ?_)
      (Catalog.ne_nil_of_expand hresult₂ ?_), ← Sheet.render_unplaced _ result₁, heq₁,
      ← Sheet.render_unplaced _ result₂, heq₂, Sheet.render_unplaced, Sheet.render_unplaced]
    · rintro rfl
      exact hrules₁ (List.map_eq_nil_iff.1 hpart₁.symm)
    · rintro rfl
      exact hrules₂ (List.map_eq_nil_iff.1 hpart₂.symm)
  · rw [hvisit, warningsOf_append, List.map_append, hwarnings₁, hwarnings₂]

/-- A rule with an unknown call and an unfinished declaration in front of a
    comment and a rule with another unknown call. -/
theorem compile_append_pair :
    let s₁ := utf8 ".a \x7b no(); width: 1 \x7d"
    let s₂ := utf8 "/* b */ .b \x7b hide(); never(2) ; \x7d"
    ∃ out, compile (s₁ ++ s₂) .standard = .ok out ∧
      out.css = utf8 ".a \x7b\n\twidth: 1rem;\n\x7d" ++ utf8 "\n\n" ++
        utf8 ".b \x7b\n\tdisplay: none;\n\x7d" ∧
      out.warnings.map Warning.message =
        [utf8 "unknown mixin: no"] ++ [utf8 "unknown mixin: never"] := by
  intro s₁ s₂
  have hcompile₁ : (compile s₁ .standard).toOption =
      some ⟨utf8 ".a \x7b\n\twidth: 1rem;\n\x7d", [⟨utf8 "unknown mixin: no", ⟨5, 1, 6⟩⟩]⟩ := by
    decide +kernel
  have hcompile₂ : (compile s₂ .standard).toOption =
      some ⟨utf8 ".b \x7b\n\tdisplay: none;\n\x7d",
        [⟨utf8 "unknown mixin: never", ⟨21, 1, 22⟩⟩]⟩ := by
    decide +kernel
  have hlength₁ : (parse s₁).toOption.map List.length = some 1 := by decide +kernel
  have hlength₂ : (parse s₂).toOption.map List.length = some 1 := by decide +kernel
  obtain ⟨sheet₁, hparse₁, hone₁⟩ := Option.map_eq_some_iff.1 hlength₁
  obtain ⟨sheet₂, hparse₂, hone₂⟩ := Option.map_eq_some_iff.1 hlength₂
  exact compile_append .standard (toOption_eq_some_iff.1 hcompile₁)
    (toOption_eq_some_iff.1 hcompile₂) (toOption_eq_some_iff.1 hparse₁)
    (toOption_eq_some_iff.1 hparse₂) (List.ne_nil_of_length_eq_add_one hone₁)
    (List.ne_nil_of_length_eq_add_one hone₂) (by decide +kernel)

end MixinCss
