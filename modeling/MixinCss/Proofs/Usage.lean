/-
  MixinCss.Proofs.Usage

  How often mixins are called. A check counts the calls of a source by name, the
  known ones and the unknown ones apart; an expansion warns of the unknown ones.
  The counts lose nothing (`Usage.total_ofNames`), and where mixins give no
  further calls the two agree with each other and with the calls that stand in
  the source (`unknown_calls_agree`).
-/

import Mathlib.Algebra.BigOperators.Group.List.Lemmas
import MixinCss.Proofs.Check
import MixinCss.Proofs.Grammar.Offsets
import MixinCss.Proofs.Library.Yields
import MixinCss.Proofs.Sheet.Unknown
import MixinCss.Proofs.Text.Order

namespace MixinCss

/-! ## Counts -/

namespace Usage

theorem mem_ofNames {names : List Text} {entry : Text × Nat} (h : entry ∈ ofNames names) :
    entry.1 ∈ names := by
  obtain ⟨name, hname, rfl⟩ := List.mem_map.mp h
  exact Text.mem_sort.mp (Text.mem_eraseReps.mp hname)

/-- The counts of names add up to the number of names. -/
theorem total_ofNames (names : List Text) : total (ofNames names) = names.length := by
  have hnodup : (Text.sort names).eraseReps.Nodup := by
    refine (Text.pairwise_eraseReps_sort names).imp ?_
    rintro a b hbefore rfl
    rw [Text.before_irrefl] at hbefore
    cases hbefore
  have hperm : (Text.sort names).eraseReps.Perm names.dedup := by
    rw [List.perm_ext_iff_of_nodup hnodup names.nodup_dedup]
    intro name
    rw [Text.mem_eraseReps, Text.mem_sort, List.mem_dedup]
  have hdistinct : (names.dedup.map fun name => names.count name).sum = names.length := by
    -- The library counts with the equality test that comes from decidable equality.
    have hcount : ∀ name ∈ names.dedup,
        names.count name = @List.count Text instBEqOfDecidableEq name names :=
      fun name _ => List.countP_congr fun _ _ => by simp
    rw [List.map_congr_left hcount]
    exact List.sum_map_count_dedup_eq_length names
  have hsum := (hperm.map fun name => names.count name).sum_eq
  rw [hdistinct, List.sum_eq_foldr, List.foldr_map] at hsum
  rw [total, ofNames, List.foldr_map]
  exact hsum

end Usage

/-! ## Calls of a source -/

namespace Node

mutual

theorem callNames_eq : ∀ n : Node, callNames n = (callsAll [n]).map Prod.fst
  | .declaration .. => rfl
  | .rule selector children pos => by
    rw [callNames, callsAll_rule, callNamesAll_eq children]
  | .call .. => rfl
  | .nothing => rfl
  | .foreign _ => rfl

theorem callNamesAll_eq : ∀ nodes : List Node, callNamesAll nodes = (callsAll nodes).map Prod.fst
  | [] => rfl
  | n :: rest => by
    rw [callNamesAll, callNames_eq n, callNamesAll_eq rest, callsAll_cons n rest, List.map_append]

end

/-- The offsets of calls are among those of all nodes, in order. -/
theorem callsAll_offsets (nodes : List Node) :
    ((callsAll nodes).map fun call => call.2.offset).Sublist (offsetsAll nodes) := by
  unfold callsAll offsetsAll
  generalize membersAll nodes = members
  induction members with
  | nil => exact .slnil
  | cons n rest ih =>
    cases n with
    | call name args pos => exact ih.cons_cons _
    | declaration property value pos => exact ih.cons _
    | rule selector children pos => exact ih.cons _
    | nothing => exact ih
    | foreign kind => exact ih

end Node

/-- The names that are counted are those of the calls of the sheet. -/
theorem Sheet.callNames_eq (sheet : Sheet) :
    Sheet.callNames sheet = (Sheet.calls sheet).map Prod.fst := by
  induction sheet with
  | nil => rfl
  | cons r rest ih =>
    rw [Sheet.calls_cons, List.map_append, ← ih, ← Node.callNamesAll_eq]
    rfl

theorem sourceCalls_eq {src : Text} {sheet : Sheet} (h : parse src = .ok sheet) :
    sourceCalls src = (Sheet.calls sheet).map Prod.fst := by
  unfold sourceCalls
  rw [h]
  exact Sheet.callNames_eq sheet

/-- In a parsed sheet every call starts behind the one before it. -/
theorem parse_call_offsets_increase {src : Text} {sheet : Sheet} (h : parse src = .ok sheet) :
    ((Sheet.calls sheet).map fun call => call.2.offset).Pairwise (· < ·) :=
  (parse_offsets_increase h).sublist (Node.callsAll_offsets _)

/-- No mixin of the library gives a call. -/
theorem Catalog.library_isFlat (vars : Variables) : (Catalog.ofOverrides [] vars).IsFlat := by
  have hdeclare : ∀ property value, Node.callsAll [.declare property value] = [] :=
    fun _ _ => rfl
  have hall (nodes : List Node) (h : ∀ n ∈ nodes, Node.callsAll [n] = []) :
      Node.callsAll nodes = [] := by
    induction nodes with
    | nil => rfl
    | cons n rest ih =>
      rw [List.forall_mem_cons] at h
      rw [Node.callsAll_cons, h.1, ih h.2]
      rfl
  intro name args nodes hcall
  have hrule : ∀ selector children, (∀ n ∈ children, Node.callsAll [n] = []) →
      Node.callsAll [.rule selector children .unknown] = [] := by
    intro selector children hchildren
    rw [Node.callsAll_rule]
    exact hall children hchildren
  have hyields := Catalog.library_call_yields (P := fun n => Node.callsAll [n] = []) hdeclare hrule
    vars name args
  exact hall nodes (hyields.of_ok hcall)

/-! ## Agreement -/

/-- What a check of one source counts: its known calls and its unknown calls. -/
theorem ofSources_usage {src : Text} {sheet : Sheet} (hparse : parse src = .ok sheet)
    (o : Options) (s : Scan) (file : Text) :
    let r := Findings.ofSources o s [⟨file, src⟩]
    let names := (Sheet.calls sheet).map Prod.fst
    r.mixinCalls = .ofNames (names.filter o.catalog.isKnown) ∧
      r.unknownCalls = .ofNames (names.filter fun name => !o.catalog.isKnown name) := by
  have hcalls : [(⟨file, src⟩ : SourceFile)].flatMap (fun f => sourceCalls f.src) =
      (Sheet.calls sheet).map Prod.fst := by
    rw [List.flatMap_singleton, sourceCalls_eq hparse]
  unfold Findings.ofSources
  rw [hcalls]
  exact ⟨rfl, rfl⟩

/-- The issues of a source that expands are its warnings. -/
theorem ofSources_warnings {src : Text} {sheet out : Sheet} (hparse : parse src = .ok sheet)
    {o : Options} (hresult : (o.catalog.expand sheet).result = .ok out) (s : Scan) (file : Text) :
    (Findings.ofSources o s [⟨file, src⟩]).warnings = (o.catalog.expand sheet).warnings.length := by
  have hissues : Issue.ofSource o.catalog file src =
      (o.catalog.expand sheet).warnings.map (Issue.ofWarning file src) := by
    unfold Issue.ofSource
    rw [hparse]
    dsimp only
    rw [hresult]
    exact List.append_nil _
  unfold Findings.ofSources
  dsimp only
  rw [List.flatMap_singleton, hissues]
  exact countP_severity_ofWarning file src .warning _

theorem length_filter_isUnknown (c : Catalog) (calls : List (Text × Pos)) :
    ((calls.map Prod.fst).filter fun name => !c.isKnown name).length =
      (calls.filter c.isUnknown).length := by
  rw [List.filter_map, List.length_map]
  congr 2
  funext call
  simp [Catalog.isKnown, Catalog.isUnknown]

/-- Unknown calls, warnings and counts agree. If no mixin gives a call, which is
    so for the library with any settings, and a parsed source expands, then

    * the warnings are the unknown calls of the sheet, one for each in document
      order, and every warning is at a greater offset than the one before it;
    * without its unknown calls the sheet expands to the same sheet, and nothing
      is warned of;
    * a check of the source counts as many unknown calls as there are warnings,
      it counts known names as known and unknown ones as unknown, and all counts
      together are the number of calls in the sheet. -/
theorem unknown_calls_agree (src : Text) (sheet : Sheet) (hparse : parse src = .ok sheet) :
    (∀ (c : Catalog) (limit : Nat) (out : Sheet), c.IsFlat →
      (c.expandWithin limit sheet).result = .ok out →
        (c.expandWithin limit sheet).warnings =
            ((Sheet.calls sheet).filter c.isUnknown).map .ofCall ∧
          ((c.expandWithin limit sheet).warnings.map fun w => w.pos.offset).Pairwise (· < ·) ∧
          (c.expandWithin limit (Sheet.keepCalls c.isKnown sheet)).result = .ok out ∧
          (c.expandWithin limit (Sheet.keepCalls c.isKnown sheet)).warnings = []) ∧
    (∀ (o : Options) (s : Scan) (file : Text) (out : Sheet), o.catalog.IsFlat →
      (o.catalog.expand sheet).result = .ok out →
        let r := Findings.ofSources o s [⟨file, src⟩]
        Usage.total r.unknownCalls = (o.catalog.expand sheet).warnings.length ∧
          r.warnings = (o.catalog.expand sheet).warnings.length ∧
          (∀ entry ∈ r.mixinCalls, (o.catalog.find? entry.1).isSome) ∧
          (∀ entry ∈ r.unknownCalls, o.catalog.find? entry.1 = none) ∧
          r.totalCalls = (Sheet.calls sheet).length) ∧
    ∀ vars : Variables, (Catalog.ofOverrides [] vars).IsFlat := by
  refine ⟨?_, ?_, Catalog.library_isFlat⟩
  · intro c limit out hflat hresult
    have hwarnings := Catalog.warnings_of_isFlat hflat hresult
    have hkept : (c.expandWithin limit (Sheet.keepCalls c.isKnown sheet)).result = .ok out := by
      rw [c.expandWithin_keepCalls limit sheet]
      exact hresult
    refine ⟨hwarnings, ?_, hkept, ?_⟩
    · have hsublist : (((Sheet.calls sheet).filter c.isUnknown).map fun call => call.2.offset).Sublist
          ((Sheet.calls sheet).map fun call => call.2.offset) := List.filter_sublist.map _
      rw [hwarnings, List.map_map]
      exact (parse_call_offsets_increase hparse).sublist hsublist
    · -- The calls that are kept are known, so none of them is warned of.
      rw [Catalog.warnings_of_isFlat hflat hkept, Sheet.calls_keepCalls, List.filter_filter]
      have hnone : (Sheet.calls sheet).filter
          (fun call => c.isUnknown call && c.isKnown call.1) = [] := by
        rw [List.filter_eq_nil_iff]
        intro call _
        cases hfind : c.find? call.1 <;> simp [Catalog.isUnknown, Catalog.isKnown, hfind]
      rw [hnone]
      rfl
  · intro o s file out hflat hresult r
    obtain ⟨hmixins, hunknown⟩ := ofSources_usage hparse o s file
    have hwarnings := Catalog.warnings_of_isFlat hflat hresult
    have htotal : Usage.total r.unknownCalls =
        ((Sheet.calls sheet).filter o.catalog.isUnknown).length := by
      rw [hunknown, Usage.total_ofNames, length_filter_isUnknown]
    refine ⟨?_, ofSources_warnings hparse hresult s file, ?_, ?_, ?_⟩
    · rw [htotal]
      unfold Catalog.expand
      rw [hwarnings, List.length_map]
    · intro entry hentry
      rw [hmixins] at hentry
      exact (List.mem_filter.mp (Usage.mem_ofNames hentry)).2
    · intro entry hentry
      rw [hunknown] at hentry
      have hname := (List.mem_filter.mp (Usage.mem_ofNames hentry)).2
      simpa [Catalog.isKnown] using hname
    · unfold Findings.totalCalls
      rw [hmixins, hunknown, Usage.total_ofNames, Usage.total_ofNames,
        ← List.length_eq_length_filter_add, List.length_map]

/-- A known call between unknown ones, of which two are inside of a further rule. -/
theorem unknown_calls_agree_nested :
    let src := utf8 "a\x7bno();hide();b\x7bnever(1);no();\x7d\x7d"
    let o := Options.standard
    let r := Findings.ofSources o ⟨[], 0⟩ [⟨utf8 "a.mcss", src⟩]
    ∃ sheet out, parse src = .ok sheet ∧ o.catalog.IsFlat ∧
      (o.catalog.expand sheet).result = .ok out ∧
      (o.catalog.expand sheet).warnings = [⟨utf8 "unknown mixin: no", ⟨2, 1, 3⟩⟩,
        ⟨utf8 "unknown mixin: never", ⟨16, 1, 17⟩⟩, ⟨utf8 "unknown mixin: no", ⟨25, 1, 26⟩⟩] ∧
      ((o.catalog.expand sheet).warnings.map fun w => w.pos.offset).Pairwise (· < ·) ∧
      (o.catalog.expand (Sheet.keepCalls o.catalog.isKnown sheet)).result = .ok out ∧
      (o.catalog.expand (Sheet.keepCalls o.catalog.isKnown sheet)).warnings = [] ∧
      Usage.total r.unknownCalls = 3 ∧ r.totalCalls = 4 := by
  intro src o r
  have hrun : (parse src).toOption.map (fun sheet =>
      ((o.catalog.expand sheet).error?, (o.catalog.expand sheet).warnings,
        (Sheet.calls sheet).length)) =
      some (none, [⟨utf8 "unknown mixin: no", ⟨2, 1, 3⟩⟩,
        ⟨utf8 "unknown mixin: never", ⟨16, 1, 17⟩⟩, ⟨utf8 "unknown mixin: no", ⟨25, 1, 26⟩⟩], 4) := by
    decide +kernel
  obtain ⟨sheet, hparse, hseen⟩ := Option.map_eq_some_iff.mp hrun
  rw [toOption_eq_some_iff] at hparse
  rw [Prod.mk.injEq, Prod.mk.injEq] at hseen
  obtain ⟨hfine, hwarnings, hcalls⟩ := hseen
  obtain ⟨out, hresult⟩ := Visit.error?_eq_none_iff.mp hfine
  obtain ⟨hexpand, hcheck, hflat⟩ := unknown_calls_agree src sheet hparse
  have hstandard : o.catalog.IsFlat := hflat o.settings
  obtain ⟨-, hoffsets, hkept, hquiet⟩ :=
    hexpand o.catalog Catalog.depthLimit out hstandard hresult
  obtain ⟨hunknown, -, -, -, htotal⟩ :=
    hcheck o ⟨[], 0⟩ (utf8 "a.mcss") out hstandard hresult
  refine ⟨sheet, out, hparse, hstandard, hresult, hwarnings, hoffsets, hkept, hquiet, ?_, ?_⟩
  · rw [hunknown, hwarnings]
    rfl
  · rw [htotal, hcalls]

end MixinCss
