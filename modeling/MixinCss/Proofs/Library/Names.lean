/-
  MixinCss.Proofs.Library.Names

  The names that a catalog lists, against those that it answers to. The list is
  strictly increasing and holds every name that runs a mixin. Besides, it holds
  the names that are vacant: the user has put them down without a mixin, and the
  library has none to fall back on. A call fails for an unknown name exactly if
  the name runs no mixin, as long as the mixins of the user do not make up such
  failures on their own (`names_resolve_or_vacant`).
-/

import MixinCss.Mixin.Recipe
import MixinCss.Proofs.Library.Callees
import MixinCss.Proofs.Text.Order

namespace MixinCss

/-! ## Failures that are passed on -/

namespace Mixin

/-- The mixin fails for an unknown name only where one of its own calls does. -/
def Relays (mixin : Mixin) : Prop :=
  ∀ scope args name, mixin scope args = .error (.unknown name) →
    ∃ n a, scope.call n a = .error (.unknown name)

/-- The failure is for a name that is unknown to some call of the scope, or for
    another reason. -/
def FromScope (scope : Scope) (e : MixinFailure) : Prop :=
  ∀ name, e = .unknown name → ∃ n a, scope.call n a = .error (.unknown name)

theorem yields_fromScope (scope : Scope) (name : Text) (args : Args) :
    Yields (FromScope scope) (fun _ => True) (scope.call name args) := by
  cases hcall : scope.call name args with
  | ok nodes => exact fun _ _ => trivial
  | error e =>
    rintro unknown rfl
    exact ⟨name, args, hcall⟩

theorem fromScope_of_isRefusal {scope : Scope} {e : MixinFailure} (h : e.isRefusal = true) :
    FromScope scope e := by
  rintro name rfl
  cases h

theorem relays_of_keeps {mixin : Mixin}
    (h : ∀ scope, Keeps (FromScope scope) (fun _ => True) mixin) : Relays mixin := by
  intro scope args name hfails
  exact (h scope scope (yields_fromScope scope) args).of_error hfails name rfl

/-- A recipe fails as one of its steps does, and a step that fails for an unknown
    name is a call. -/
theorem relays_ofSteps (steps : List Step) : Relays (.ofSteps steps) := by
  intro scope args name hfails
  have hstep (step : Step) : Meets (FromScope scope) (fun _ => True) (step.run scope args) := by
    cases step with
    | node n => trivial
    | call n passed =>
      cases hcall : scope.call n (passed.resolve args) with
      | ok nodes =>
        rw [Step.run, hcall]
        trivial
      | error e =>
        rw [Step.run, hcall]
        rintro unknown rfl
        exact ⟨n, passed.resolve args, hcall⟩
    | declare property index key => trivial
    | fail message => exact fun _ h => nomatch h
    | breakOff message => exact fun _ h => nomatch h
  have hmeets : Meets (FromScope scope) (fun _ => True) (Mixin.ofSteps steps scope args) :=
    (meets_mapM fun step _ => hstep step).bind fun _ _ => trivial
  exact hmeets.of_error hfails name rfl

end Mixin

theorem Library.relays_of_lookup {name : Text} {mixin : Mixin}
    (h : all.lookup name = some mixin) : mixin.Relays :=
  Mixin.relays_of_keeps fun _ => keeps_of_lookup (fun _ => Mixin.fromScope_of_isRefusal)
    (fun _ _ => trivial) (fun _ _ _ => trivial) h

namespace Catalog

/-- The user has put the name down without a mixin, and the library has none
    under it. -/
def IsVacant (c : Catalog) (name : Text) : Prop :=
  c.overrides.lookup name = some none ∧ c.library.lookup name = none

/-! ## The list of names -/

theorem mem_map_fst_iff {α : Type} {entries : List (Text × α)} {name : Text} :
    name ∈ entries.map Prod.fst ↔ (entries.lookup name).isSome := by
  rw [List.lookup_isSome_iff, List.mem_map]
  simp only [beq_iff_eq]
  exact exists_congr fun _ => and_congr_right fun _ => eq_comm

/-- A name of either table is listed, whether or not it stands there with a
    mixin. -/
theorem mem_names_iff {c : Catalog} {name : Text} :
    name ∈ c.names ↔ (c.overrides.lookup name).isSome ∨ (c.library.lookup name).isSome := by
  rw [names, Text.mem_eraseReps, Text.mem_sort, List.mem_append, mem_map_fst_iff, mem_map_fst_iff]

theorem mem_names_iff_find? {c : Catalog} {name : Text} :
    name ∈ c.names ↔ (c.find? name).isSome ∨ c.IsVacant name := by
  rw [mem_names_iff, find?, override?, IsVacant]
  -- Not put down, put down without a mixin, or with one; and in the library or not.
  rcases c.overrides.lookup name with _ | _ | mixin <;>
    rcases c.library.lookup name with _ | mixin' <;> simp

theorem find?_of_isVacant {c : Catalog} {name : Text} (h : c.IsVacant name) :
    c.find? name = none := by
  rw [find?, override?, h.1, h.2]
  rfl

/-! ## Calls -/

theorem mem_overrides_of_override? {c : Catalog} {name : Text} {mixin : Mixin}
    (h : c.override? name = some mixin) : (name, some mixin) ∈ c.overrides := by
  rw [override?, Option.join_eq_some_iff, List.lookup_eq_some_iff] at h
  obtain ⟨front, back, hsplit, -⟩ := h
  rw [hsplit]
  exact List.mem_append_right front List.mem_cons_self

theorem call_of_find?_none {c : Catalog} {name : Text} (h : c.find? name = none)
    (args : Option Args) : c.call name args = .error (.unknown name) := by
  rw [call, nestingLimit, callWithin, h]

/-- A call fails for an unknown name only if the catalog has no mixin for it,
    however deep in other calls that came out. -/
theorem callWithin_unknown {c : Catalog}
    (h : ∀ name mixin, c.find? name = some mixin → mixin.Relays) {unknown : Text} :
    ∀ {fuel : Nat} {name : Text} {args : Args},
      c.callWithin fuel name args = .error (.unknown unknown) → c.find? unknown = none := by
  intro fuel
  -- With no fuel left a call fails for its depth, not for a name.
  induction fuel with
  | zero =>
    intro name args hfails
    cases hfails
  | succ fuel ih =>
    intro name args hfails
    rw [callWithin] at hfails
    split at hfails
    · rename_i hnone
      cases hfails
      exact hnone
    · rename_i mixin hfind
      obtain ⟨n, a, hcall⟩ := h name mixin hfind _ _ _ hfails
      exact ih hcall

theorem relays_of_find? {c : Catalog} (hlibrary : c.library = Library.all ∨ c.library = [])
    (huser : ∀ name mixin, c.override? name = some mixin → mixin.Relays) :
    ∀ name mixin, c.find? name = some mixin → mixin.Relays := by
  intro name mixin hfind
  rcases Option.or_eq_some_iff.mp hfind with hoverride | ⟨-, hlookup⟩
  · exact huser name mixin hoverride
  · rcases hlibrary with hall | hnone
    · rw [hall] at hlookup
      exact Library.relays_of_lookup hlookup
    · rw [hnone] at hlookup
      cases hlookup

/-- The names of a catalog are in strict byte order. They are the names that run
    a mixin and the vacant ones, which run none. A name that runs none is unknown
    to every call of it. A name that runs a mixin has it called, so that the call
    fails as the mixin does; it is then not for the name itself, unless a mixin of
    the user says so of its own accord. -/
theorem names_resolve_or_vacant (c : Catalog)
    (hlibrary : c.library = Library.all ∨ c.library = []) :
    c.names.Pairwise (fun a b => Text.before a b = true) ∧
    ∀ name,
      (name ∈ c.names ↔ (c.find? name).isSome ∨ c.IsVacant name) ∧
      (c.IsVacant name → c.find? name = none) ∧
      ∀ args,
        (c.find? name = none → c.call name args = .error (.unknown name)) ∧
        (∀ mixin, c.find? name = some mixin →
          c.call name args =
            mixin ⟨c.vars, c.callWithin (nestingLimit - 1)⟩ (args.getD .none)) ∧
        ((∀ n mixin, c.override? n = some mixin → mixin.Relays) →
          c.call name args = .error (.unknown name) → c.find? name = none) := by
  refine ⟨Text.pairwise_eraseReps_sort _, fun name => ⟨mem_names_iff_find?, find?_of_isVacant, ?_⟩⟩
  intro args
  refine ⟨fun hnone => call_of_find?_none hnone args, ?_, ?_⟩
  · intro mixin hfind
    exact callWithin_succ hfind (nestingLimit - 1) _
  · intro huser hfails
    exact callWithin_unknown (relays_of_find? hlibrary huser) hfails

/-- Without the library: `wrap` runs a recipe that calls `gone`, under which no
    mixin stands. Both are listed; a call of `wrap` fails for `gone` and a call of
    `gone` for itself. -/
theorem names_resolve_or_vacant_recipe :
    let wrap : Mixin := .ofSteps [.call (utf8 "gone") .same]
    let c : Catalog := ⟨[(utf8 "wrap", some wrap), (utf8 "gone", none)], [], .standard⟩
    (∀ n mixin, c.override? n = some mixin → mixin.Relays) ∧
      utf8 "wrap" ∈ c.names ∧ utf8 "gone" ∈ c.names ∧ c.IsVacant (utf8 "gone") ∧
      c.call (utf8 "wrap") none = .error (.unknown (utf8 "gone")) ∧
      (∀ args, c.call (utf8 "wrap") args ≠ .error (.unknown (utf8 "wrap"))) ∧
      ∀ args, c.call (utf8 "gone") args = .error (.unknown (utf8 "gone")) := by
  intro wrap c
  have huser : ∀ n mixin, c.override? n = some mixin → mixin.Relays := by
    intro n mixin hoverride
    have hmem := mem_overrides_of_override? hoverride
    simp only [c, List.mem_cons, Prod.mk.injEq, Option.some.injEq, reduceCtorEq, and_false,
      List.not_mem_nil, or_false] at hmem
    rw [hmem.2]
    exact Mixin.relays_ofSteps _
  have hvacant : c.IsVacant (utf8 "gone") := ⟨rfl, rfl⟩
  obtain ⟨-, hall⟩ := names_resolve_or_vacant c (.inr rfl)
  obtain ⟨hgone, hnone, hcall⟩ := hall (utf8 "gone")
  obtain ⟨hwrap, -, hrun⟩ := hall (utf8 "wrap")
  refine ⟨huser, hwrap.mpr (.inl rfl), hgone.mpr (.inr hvacant), hvacant, ?_, ?_,
    fun args => (hcall args).1 (hnone hvacant)⟩
  · rw [(hrun none).2.1 wrap rfl]
    rfl
  · intro args hfails
    cases (hrun args).2.2 huser hfails

/-- A name without a mixin is listed although nothing runs under it. -/
theorem names_list_vacant :
    let c : Catalog := ⟨[(utf8 "x", none)], [], .standard⟩
    c.names = [utf8 "x"] ∧ c.find? (utf8 "x") = none ∧
      ∀ args, c.call (utf8 "x") args = .error (.unknown (utf8 "x")) := by
  intro c
  refine ⟨?_, rfl, fun args => rfl⟩
  rw [names, List.map_nil, List.append_nil, List.map_singleton, Text.sort, List.mergeSort_singleton]
  rfl

end Catalog

end MixinCss
