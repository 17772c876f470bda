/-
  MixinCss.Proofs.Check

  Checking and compiling agree on every source. Both parse it and expand its
  calls; one keeps the text, the other lists what was found on the way.

    * A parsed sheet holds no foreign node, so what stops its expansion is
      always laid to a call (`expand_error_of_parse`).
    * `ofSource_cases` says once how a source is compiled and what its issues
      are; the statements about severities and numbers follow from it.
-/

import MixinCss.Check
import MixinCss.Proofs.Grammar.Document
import MixinCss.Proofs.Sheet.Expansion

namespace MixinCss

/-! ## Parsed sheets -/

namespace Grammar

theorem Declares.not_foreign {src : Source} {ts : List Token} {n : Node} (h : Declares src ts n) :
    ∀ m ∈ n.members, m.isForeign = false := by
  cases h with
  | intro => simp [Node.members, Node.isForeign]

theorem Calls.not_foreign {src : Source} {ts : List Token} {n : Node} (h : Calls src ts n) :
    ∀ m ∈ n.members, m.isForeign = false := by
  cases h with
  | intro => simp [Node.members, Node.isForeign]

theorem Final.not_foreign {src : Source} {ts : List Token} {nodes : List Node}
    (h : Final src ts nodes) : ∀ m ∈ Node.membersAll nodes, m.isForeign = false := by
  cases h with
  | nothing => simp
  | declaration _ hn =>
    rw [Node.membersAll_singleton]
    exact hn.not_foreign

mutual

theorem Items.not_foreign {src : Source} {ts : List Token} {nodes : List Node} :
    Items src ts nodes → ∀ m ∈ Node.membersAll nodes, m.isForeign = false
  | .done => by simp
  | .space _ hrest => hrest.not_foreign
  | .semicolon _ hrest => hrest.not_foreign
  | .rule hrule hrest => by
    rw [Node.membersAll_cons, List.forall_mem_append]
    exact ⟨hrule.not_foreign, hrest.not_foreign⟩
  | .statement _ hn _ hrest => by
    rw [Node.membersAll_cons, List.forall_mem_append]
    exact ⟨hn.elim Declares.not_foreign Calls.not_foreign, hrest.not_foreign⟩

theorem Block.not_foreign {src : Source} {ts : List Token} {r : Rule} :
    Block src ts r → ∀ m ∈ r.node.members, m.isForeign = false
  | .intro _ _ _ hbody hlast _ => by
    rw [Rule.node, Node.members, List.forall_mem_cons, Node.membersAll_append,
      List.forall_mem_append]
    exact ⟨rfl, hbody.not_foreign, hlast.not_foreign⟩

end

theorem Document.not_foreign {src : Source} {ts : List Token} {sheet : Sheet}
    (h : Document src ts sheet) : ∀ m ∈ Sheet.members sheet, m.isForeign = false := by
  induction h with
  | done => simp [Sheet.members]
  | space _ _ ih => exact ih
  | semicolon _ _ ih => exact ih
  | rule hrule _ _ ih =>
    rw [Sheet.members, List.map_cons, Node.membersAll_cons, List.forall_mem_append]
    exact ⟨hrule.not_foreign, ih⟩

end Grammar

/-- The expansion of a parsed sheet fails only in a call. -/
theorem expand_error_of_parse {c : Catalog} {src : Text} {sheet : Sheet} {e : ExpandError}
    (hparse : parse src = .ok sheet) (h : (c.expand sheet).result = .error e) :
    ∃ name pos fault, e = .call name pos fault := by
  obtain ⟨_, -, hderived⟩ := parse_eq_ok_iff.mp hparse
  have hcall := c.expandWithin_error_isCall Catalog.depthLimit hderived.not_foreign h
  cases e with
  | call name pos fault => exact ⟨name, pos, fault, rfl⟩
  | unexpectedNode kind => cases hcall

/-! ## One source -/

/-- How a source is compiled and what its issues are. The three cases are those
    of a syntax error, of a call that fails and of success. -/
theorem ofSource_cases (o : Options) (file src : Text) :
    (∃ e, compile src o = .error (.parse e) ∧
      Issue.ofSource o.catalog file src = [.ofPos file src e.pos .error e.fault.message]) ∨
    (∃ sheet name pos fault, parse src = .ok sheet ∧
      compile src o = .error (.expand (.call name pos fault)) ∧
      Issue.ofSource o.catalog file src =
        (warningsOf (o.catalog.expand sheet).notes).map (Issue.ofWarning file src) ++
          [.ofPos file src pos .error (utf8 "mixin " ++ name ++ utf8 ": " ++ fault.message)]) ∨
    ∃ out, compile src o = .ok out ∧
      Issue.ofSource o.catalog file src = out.warnings.map (Issue.ofWarning file src) := by
  unfold compile compileWith Issue.ofSource
  cases hparse : parse src with
  | error e => exact .inl ⟨e, rfl, rfl⟩
  | ok sheet =>
    dsimp only
    cases hresult : (o.catalog.expand sheet).result with
    | error e =>
      -- Both name the same call, because nothing but a call can have failed.
      obtain ⟨name, pos, fault, rfl⟩ := expand_error_of_parse hparse hresult
      exact .inr (.inl ⟨sheet, name, pos, fault, rfl, rfl, rfl⟩)
    | ok expanded =>
      refine .inr (.inr ⟨_, rfl, ?_⟩)
      rw [List.append_nil]

theorem countP_severity_ofWarning (file src : Text) (severity : Severity) (ws : List Warning) :
    (ws.map (Issue.ofWarning file src)).countP (fun i => i.severity = severity) =
      if severity = .warning then ws.length else 0 := by
  split
  · rename_i h
    subst h
    rw [List.countP_map]
    exact List.countP_eq_length.mpr fun w _ => rfl
  · rename_i h
    rw [List.countP_map]
    exact List.countP_eq_zero.mpr fun w _ hw => h (of_decide_eq_true hw).symm

/-- A source has one error if it is rejected, and none otherwise. -/
theorem countP_error_ofSource (o : Options) (file src : Text) :
    (Issue.ofSource o.catalog file src).countP (fun i => i.severity = .error) =
      if (compile src o).isOk then 0 else 1 := by
  rcases ofSource_cases o file src with
    ⟨e, hcompile, hissues⟩ | ⟨sheet, name, pos, fault, -, hcompile, hissues⟩ |
      ⟨out, hcompile, hissues⟩
  · rw [hcompile, hissues]
    rfl
  · rw [hcompile, hissues, List.countP_append, countP_severity_ofWarning]
    rfl
  · rw [hcompile, hissues, countP_severity_ofWarning]
    rfl

/-- Every issue of a source is an error or a warning. -/
theorem countP_severity_ofSource (o : Options) (file src : Text) :
    (Issue.ofSource o.catalog file src).countP (fun i => i.severity = .error) +
      (Issue.ofSource o.catalog file src).countP (fun i => i.severity = .warning) =
      (Issue.ofSource o.catalog file src).length := by
  rcases ofSource_cases o file src with
    ⟨e, -, hissues⟩ | ⟨sheet, name, pos, fault, -, -, hissues⟩ | ⟨out, -, hissues⟩
  · rw [hissues]
    rfl
  · rw [hissues, List.countP_append, List.countP_append, countP_severity_ofWarning,
      countP_severity_ofWarning, List.length_append, List.length_map]
    exact Nat.add_comm 1 _
  · rw [hissues, countP_severity_ofWarning, countP_severity_ofWarning, List.length_map]
    exact Nat.zero_add _

/-! ## All sources -/

theorem ofSources_errors (o : Options) (s : Scan) (files : List SourceFile) :
    (Findings.ofSources o s files).errors = files.countP fun f => !(compile f.src o).isOk := by
  unfold Findings.ofSources
  dsimp only
  induction files with
  | nil => rfl
  | cons f files ih =>
    rw [List.flatMap_cons, List.countP_append, List.countP_cons, ih, countP_error_ofSource,
      Nat.add_comm]
    cases (compile f.src o).isOk <;> rfl

theorem ofSources_errors_add_warnings (o : Options) (s : Scan) (files : List SourceFile) :
    (Findings.ofSources o s files).errors + (Findings.ofSources o s files).warnings =
      (Findings.ofSources o s files).issues.length := by
  unfold Findings.ofSources
  dsimp only
  induction files with
  | nil => rfl
  | cons f files ih =>
    have hf := countP_severity_ofSource o f.name f.src
    rw [List.flatMap_cons, List.countP_append, List.countP_append, List.length_append]
    omega

/-- The result of a check is that of the files that it read. -/
theorem check_eq_ok {p : Project} {t : FileTree} {r : Findings} {log : List LogEntry}
    (h : p.check t = .ok (r, log)) :
    ∃ s files, t.scan p.sourceDir p.includes p.useIgnoreList = .ok s ∧
      p.sources t s = .ok files ∧ r = .ofSources p.options s files := by
  obtain ⟨s, hscan, hrest⟩ := bind_eq_ok_iff.mp h
  obtain ⟨files, hfiles, hresult⟩ := bind_eq_ok_iff.mp hrest
  cases hresult
  exact ⟨s, files, mapError_eq_ok_iff.mp hscan, hfiles, rfl⟩

/-! ## Agreement -/

/-- What an issue says and the place that it gives. -/
structure Finding where
  severity : Severity
  text : Text
  line : Int
  column : Int

def Issue.finding (i : Issue) : Finding := ⟨i.severity, i.text, i.line, i.column⟩

/-- What is said at a place of the source. -/
def Finding.ofPos (pos : Pos) (severity : Severity) (text : Text) : Finding :=
  ⟨severity, text, pos.line, pos.column⟩

theorem map_finding_ofWarning (file src : Text) (ws : List Warning) :
    (ws.map (Issue.ofWarning file src)).map Issue.finding =
      ws.map fun w => .ofPos w.pos .warning w.message := by
  rw [List.map_map]
  rfl

/-- A source is compiled exactly if none of its issues is an error. -/
theorem exists_compile_eq_ok_iff (o : Options) (file src : Text) :
    (∃ out, compile src o = .ok out) ↔
      ∀ i ∈ Issue.ofSource o.catalog file src, i.severity ≠ .error := by
  have hcount := countP_error_ofSource o file src
  constructor
  · rintro ⟨out, hout⟩ i hi herror
    rw [hout] at hcount
    exact List.countP_eq_zero.mp hcount i hi (decide_eq_true herror)
  · intro hnone
    -- A rejected source would have an error to count.
    have hzero : (Issue.ofSource o.catalog file src).countP (fun i => i.severity = .error) = 0 :=
      List.countP_eq_zero.mpr fun i hi herror => hnone i hi (of_decide_eq_true herror)
    cases hcompile : compile src o with
    | ok out => exact ⟨out, rfl⟩
    | error e =>
      rw [hcompile, hzero] at hcount
      cases hcount

theorem findings_of_compile_eq_ok {o : Options} {src : Text} {out : Compiled}
    (h : compile src o = .ok out) (file : Text) :
    (Issue.ofSource o.catalog file src).map Issue.finding =
      out.warnings.map fun w => .ofPos w.pos .warning w.message := by
  rcases ofSource_cases o file src with
    ⟨e, hcompile, -⟩ | ⟨sheet, name, pos, fault, -, hcompile, -⟩ | ⟨out, hcompile, hissues⟩
  · cases h.symm.trans hcompile
  · cases h.symm.trans hcompile
  · cases h.symm.trans hcompile
    rw [hissues, map_finding_ofWarning]

theorem findings_of_parse_error {o : Options} {src : Text} {e : SyntaxError}
    (h : compile src o = .error (.parse e)) (file : Text) :
    (Issue.ofSource o.catalog file src).map Issue.finding =
      [.ofPos e.pos .error e.fault.message] := by
  rcases ofSource_cases o file src with
    ⟨e, hcompile, hissues⟩ | ⟨sheet, name, pos, fault, -, hcompile, -⟩ | ⟨out, hcompile, -⟩
  · cases h.symm.trans hcompile
    rw [hissues]
    rfl
  · cases h.symm.trans hcompile
  · cases h.symm.trans hcompile

theorem findings_of_expand_error {o : Options} {src : Text} {e : ExpandError}
    (h : compile src o = .error (.expand e)) (file : Text) :
    ∃ sheet name pos fault, parse src = .ok sheet ∧ e = .call name pos fault ∧
      (Issue.ofSource o.catalog file src).map Issue.finding =
        ((warningsOf (o.catalog.expand sheet).notes).map fun w =>
          .ofPos w.pos .warning w.message) ++
        [.ofPos pos .error (utf8 "mixin " ++ name ++ utf8 ": " ++ fault.message)] := by
  rcases ofSource_cases o file src with
    ⟨e, hcompile, -⟩ | ⟨sheet, name, pos, fault, hparse, hcompile, hissues⟩ | ⟨out, hcompile, -⟩
  · cases h.symm.trans hcompile
  · cases h.symm.trans hcompile
    refine ⟨sheet, name, pos, fault, hparse, rfl, ?_⟩
    rw [hissues, List.map_append, map_finding_ofWarning]
    rfl
  · cases h.symm.trans hcompile

/-- Compiling and checking agree. A source is compiled exactly if its check
    finds no error. If it is compiled, the issues are its warnings; if not, the
    warnings made before the failure and then the error, at the place of the
    fault or of the call that failed. So a check counts as many errors as files
    are rejected, and every issue is an error or a warning. -/
theorem check_agrees_with_compile :
    (∀ (o : Options) (file src : Text),
      ((∃ out, compile src o = .ok out) ↔
        ∀ i ∈ Issue.ofSource o.catalog file src, i.severity ≠ .error) ∧
      (∀ out, compile src o = .ok out →
        (Issue.ofSource o.catalog file src).map Issue.finding =
          out.warnings.map fun w => .ofPos w.pos .warning w.message) ∧
      (∀ e, compile src o = .error (.parse e) →
        (Issue.ofSource o.catalog file src).map Issue.finding =
          [.ofPos e.pos .error e.fault.message]) ∧
      ∀ e, compile src o = .error (.expand e) →
        ∃ sheet name pos fault, parse src = .ok sheet ∧ e = .call name pos fault ∧
          (Issue.ofSource o.catalog file src).map Issue.finding =
            ((warningsOf (o.catalog.expand sheet).notes).map fun w =>
              .ofPos w.pos .warning w.message) ++
            [.ofPos pos .error (utf8 "mixin " ++ name ++ utf8 ": " ++ fault.message)]) ∧
    ∀ (p : Project) (t : FileTree) (r : Findings) (log : List LogEntry),
      p.check t = .ok (r, log) →
        ∃ s files, t.scan p.sourceDir p.includes p.useIgnoreList = .ok s ∧
          p.sources t s = .ok files ∧
          r.errors = files.countP (fun f => !(compile f.src p.options).isOk) ∧
          r.errors + r.warnings = r.issues.length := by
  refine ⟨fun o file src => ⟨exists_compile_eq_ok_iff o file src, ?_, ?_, ?_⟩, ?_⟩
  · intro out hout
    exact findings_of_compile_eq_ok hout file
  · intro e he
    exact findings_of_parse_error he file
  · intro e he
    exact findings_of_expand_error he file
  · intro p t r log hcheck
    obtain ⟨s, files, hscan, hfiles, rfl⟩ := check_eq_ok hcheck
    exact ⟨s, files, hscan, hfiles, ofSources_errors _ s files,
      ofSources_errors_add_warnings _ s files⟩

/-- A source that is compiled with a warning, one that cannot be parsed, and one
    where a call fails behind a warning; and a check of the last one. -/
theorem check_agrees_with_compile_samples :
    let o := Options.standard
    let file := utf8 "a.mcss"
    let failing := utf8 "a\x7bno();opacity();\x7d"
    let project : Project := ⟨[], [], [], false, false, o⟩
    let tree : FileTree := ⟨.root, [(⟨[file]⟩, .file failing .full)]⟩
    (∃ out, compile (utf8 "a\x7bno();\x7d") o = .ok out ∧
      (Issue.ofSource o.catalog file (utf8 "a\x7bno();\x7d")).map Issue.finding =
        out.warnings.map fun w => .ofPos w.pos .warning w.message) ∧
    (∃ e, compile (utf8 "a\x7b") o = .error (.parse e) ∧
      (Issue.ofSource o.catalog file (utf8 "a\x7b")).map Issue.finding =
        [.ofPos e.pos .error e.fault.message]) ∧
    (∃ e, compile failing o = .error (.expand e) ∧
      ∃ sheet name pos fault, parse failing = .ok sheet ∧ e = .call name pos fault ∧
        (Issue.ofSource o.catalog file failing).map Issue.finding =
          ((warningsOf (o.catalog.expand sheet).notes).map fun w =>
            .ofPos w.pos .warning w.message) ++
          [.ofPos pos .error (utf8 "mixin " ++ name ++ utf8 ": " ++ fault.message)]) ∧
    ∃ r log, project.check tree = .ok (r, log) ∧ r.errors + r.warnings = r.issues.length := by
  intro o file failing project tree
  obtain ⟨hsources, hprojects⟩ := check_agrees_with_compile
  refine ⟨?_, ?_, ?_, ?_⟩
  · have hkind : (match compile (utf8 "a\x7bno();\x7d") o with | .ok _ => true | _ => false) =
        true := by
      decide +kernel
    split at hkind
    · rename_i out hout
      exact ⟨out, hout, (hsources o file _).2.1 out hout⟩
    · cases hkind
  · have hkind : (match compile (utf8 "a\x7b") o with | .error (.parse _) => true | _ => false) =
        true := by
      decide +kernel
    split at hkind
    · rename_i e he
      exact ⟨e, he, (hsources o file _).2.2.1 e he⟩
    · cases hkind
  · have hkind : (match compile failing o with | .error (.expand _) => true | _ => false) =
        true := by
      decide +kernel
    split at hkind
    · rename_i e he
      exact ⟨e, he, (hsources o file _).2.2.2 e he⟩
    · cases hkind
  · have hkind : (match project.check tree with | .ok _ => true | _ => false) = true := by
      decide +kernel
    split at hkind
    · rename_i r hr
      obtain ⟨_, _, -, -, -, htotal⟩ := hprojects project tree r.1 r.2 hr
      exact ⟨r.1, r.2, hr, htotal⟩
    · cases hkind

end MixinCss
