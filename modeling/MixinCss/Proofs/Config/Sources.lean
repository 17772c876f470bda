/-
  MixinCss.Proofs.Config.Sources

  What the sources of settings give. The environment gives each path the value of
  the last variable for it, as long as no variable is for a key on the way to it or
  behind it. A command line gives each flag at most one value, which is no map, and
  nothing under other keys.
-/

import Mathlib.Data.List.Basic
import Mathlib.Data.List.Induction
import MixinCss.Command
import MixinCss.Proofs.Config.Layers

namespace MixinCss

/-! ## The environment -/

namespace Environment

/-- The value of the last variable for a path of keys. -/
def valueAt? (env : Environment) (path : List Text) : Option Text :=
  (env.filter fun v => Settings.environmentPath? v.1 == some path).getLast?.map Prod.snd

/-- No variable is for a key on the way to a path or behind it. -/
def ClearAt (env : Environment) (path : List Text) : Prop :=
  ∀ v ∈ env, ∀ q ∈ Settings.environmentPath? v.1, q = path ∨ Settings.Apart q path

instance (env : Environment) (path : List Text) : Decidable (env.ClearAt path) :=
  inferInstanceAs (Decidable (∀ v ∈ env, ∀ q ∈ Settings.environmentPath? v.1,
    q = path ∨ Settings.Apart q path))

theorem valueAt?_concat (env : Environment) (v : Text × Text) (path : List Text) :
    valueAt? (env ++ [v]) path =
      if Settings.environmentPath? v.1 = some path then some v.2 else env.valueAt? path := by
  rw [valueAt?, List.filter_append]
  by_cases hv : Settings.environmentPath? v.1 = some path
  · rw [if_pos hv, List.filter_cons_of_pos (by simpa using hv), List.filter_nil,
      List.getLast?_concat, Option.map_some]
  · rw [if_neg hv, List.filter_cons_of_neg (by simpa using hv), List.filter_nil,
      List.append_nil, ← valueAt?]

end Environment

namespace Settings

theorem ofEnvironment_concat (env : Environment) (v : Text × Text) :
    ofEnvironment (env ++ [v]) =
      (environmentPath? v.1).elim (ofEnvironment env) fun path =>
        (ofEnvironment env).put path (.text v.2) := by
  obtain ⟨name, value⟩ := v
  rw [ofEnvironment, List.foldl_append, List.foldl_cons, List.foldl_nil, ← ofEnvironment]
  dsimp only
  cases environmentPath? name <;> rfl

theorem open_ofEnvironment {path : List Text} (hpath : path ≠ []) {env : Environment}
    (h : env.ClearAt path) :
    Open (ofEnvironment env) path ∧
      at? (ofEnvironment env) path = (env.valueAt? path).map .text := by
  -- Later variables win, so the induction takes the last one off.
  induction env using List.reverseRecOn with
  | nil => exact ⟨open_nil hpath, at?_nil path⟩
  | append_singleton env v ih =>
    obtain ⟨hopen, hat⟩ := ih fun w hw => h w (List.mem_append_left _ hw)
    have hv := h v (List.mem_append_right _ List.mem_cons_self)
    rw [ofEnvironment_concat, Environment.valueAt?_concat]
    cases hq : environmentPath? v.1 with
    | none => exact ⟨hopen, hat⟩
    | some q =>
      obtain ⟨hput, hput'⟩ := open_put hopen (v := .text v.2) rfl (hv q hq)
      refine ⟨hput, hput'.trans ?_⟩
      rw [hat]
      simp only [Option.some.injEq]
      split <;> rfl

theorem point_not_mem_environmentPath? {name : Text} {path : List Text}
    (h : environmentPath? name = some path) {key : Text} (hkey : key ∈ path) :
    ascii '.' ∉ key := by
  rw [environmentPath?] at h
  split at h
  · cases h
  · cases h
  · rw [← Option.some.inj h] at hkey
    exact Text.not_mem_of_mem_split hkey

theorem point_not_mem_keys_ofEnvironment (env : Environment) :
    ∀ k ∈ (ofEnvironment env).keys, ascii '.' ∉ k := by
  induction env using List.reverseRecOn with
  | nil => exact List.forall_mem_nil _
  | append_singleton env v ih =>
    rw [ofEnvironment_concat]
    cases hq : environmentPath? v.1 with
    | none => exact ih
    | some q =>
      cases q with
      | nil => exact ih
      | cons key rest =>
        intro k hk
        rw [Option.elim_some, put, mem_keys_merge] at hk
        obtain hk | hk := hk
        · rw [List.mem_singleton.mp hk]
          exact point_not_mem_environmentPath? hq List.mem_cons_self
        · exact ih k hk

end Settings

/-! ## Flags -/

/-- Settings that flags may have been set to. -/
structure FlagSet.Holds (flags : FlagSet) (s : Settings) : Prop where
  nodup : s.keys.Nodup
  names : ∀ k ∈ s.keys, ∃ f ∈ flags, utf8 f.name = k
  plain : ∀ k v, s.lookup k = some v → v.isMap = false

theorem Flag.isMap_of_read {f : Flag} {old : Option Setting} {value : Text} {v : Setting}
    (h : f.read old value = .ok v) : v.isMap = false := by
  rw [read] at h
  split at h
  · rw [← Except.ok.inj h]
    rfl
  · split at h
    · rw [← Except.ok.inj h]
      rfl
    · cases h
  · split at h
    · rw [← Except.ok.inj h]
      rfl
    · cases h
  · split at h
    · split at h
      · rw [← Except.ok.inj h]
        rfl
      · rw [← Except.ok.inj h]
        rfl
    · cases h

namespace FlagSet

variable {flags : FlagSet}

theorem holds_nil (flags : FlagSet) : flags.Holds [] :=
  ⟨List.Pairwise.nil, List.forall_mem_nil _, fun _ _ h => by cases h⟩

theorem Holds.set {p q : ParsedFlags} (h : flags.Holds p.settings) {f : Flag} (hf : f ∈ flags)
    {value : Text} (hset : p.set f value = .ok q) : flags.Holds q.settings := by
  rw [ParsedFlags.set] at hset
  cases hread : f.read (p.settings.lookup (utf8 f.name)) value with
  | error e => rw [hread] at hset; cases hset
  | ok v =>
    rw [hread] at hset
    obtain rfl := Except.ok.inj hset
    refine ⟨Settings.nodup_keys_set h.nodup _ _, fun k hk => ?_, fun k w hw => ?_⟩
    · obtain rfl | hk := Settings.mem_keys_set.mp hk
      · exact ⟨f, hf, rfl⟩
      · exact h.names k hk
    · rw [Settings.lookup_set] at hw
      split at hw
      · rw [← Option.some.inj hw]
        exact Flag.isMap_of_read hread
      · exact h.plain k w hw

theorem Holds.of_map {p : ParsedFlags} (h : flags.Holds p.settings) {f : Flag} (hf : f ∈ flags)
    {value : Text} {b : Bool} {r : ParsedFlags × Bool}
    (hset : (p.set f value).map (fun q => (q, b)) = .ok r) : flags.Holds r.1.settings := by
  cases hq : p.set f value with
  | error e => rw [hq] at hset; cases hset
  | ok q =>
    rw [hq] at hset
    rw [← Except.ok.inj hset]
    exact h.set hf hq

theorem Holds.readName {p : ParsedFlags} (h : flags.Holds p.settings) {next : Option Text}
    {word : Text} {r : ParsedFlags × Bool} (hread : flags.readName next p word = .ok r) :
    flags.Holds r.1.settings := by
  rw [FlagSet.readName] at hread
  split at hread
  · cases hread
  · split at hread
    · cases hread
    · dsimp only at hread
      split at hread
      · cases hread
      · rename_i f hfind
        have hf : f ∈ flags := List.mem_of_find?_eq_some hfind
        split at hread
        · exact h.of_map hf hread
        · split at hread
          · exact h.of_map hf hread
          · split at hread
            · exact h.of_map hf hread
            · cases hread

theorem Holds.readLetters {p : ParsedFlags} (h : flags.Holds p.settings) {next : Option Text}
    {letters : Text} {r : ParsedFlags × Bool} (hread : flags.readLetters next p letters = .ok r) :
    flags.Holds r.1.settings := by
  induction letters generalizing p with
  | nil =>
    rw [FlagSet.readLetters] at hread
    rw [← Except.ok.inj hread]
    exact h
  | cons letter rest ih =>
    rw [FlagSet.readLetters] at hread
    split at hread
    · cases hread
    · rename_i f hfind
      have hf : f ∈ flags := List.mem_of_find?_eq_some hfind
      split at hread
      · split at hread
        · exact h.of_map hf hread
        · split at hread
          · split at hread
            · rename_i hset
              exact ih (h.set hf hset) hread
            · cases hread
          · exact h.of_map hf hread
      · split at hread
        · exact h.of_map hf hread
        · split at hread
          · exact h.of_map hf hread
          · cases hread

theorem Holds.parseFrom {p q : ParsedFlags} (h : flags.Holds p.settings) {taken : Bool}
    {words : List Text} (hparse : flags.parseFrom taken p words = .ok q) :
    flags.Holds q.settings := by
  induction words generalizing taken p with
  | nil =>
    rw [FlagSet.parseFrom] at hparse
    rw [← Except.ok.inj hparse]
    exact h
  | cons word rest ih =>
    rw [FlagSet.parseFrom] at hparse
    split at hparse
    · exact ih h hparse
    · split at hparse
      · rw [← Except.ok.inj hparse]
        exact h
      · dsimp only at hparse
        split at hparse
        · rename_i r tookNext hstep
          refine ih ?_ hparse
          split at hstep
          · exact h.readName hstep
          · split at hstep
            · exact h.readLetters hstep
            · rw [← (Prod.mk.inj (Except.ok.inj hstep)).1]
              exact h
        · cases hparse

theorem holds_parse {words : List Text} {p : ParsedFlags} (h : flags.parse words = .ok p) :
    flags.Holds p.settings :=
  (holds_nil flags).parseFrom h

end FlagSet

/-- The flags of a command line are flags that some command knows. -/
theorem Request.holds_ofLine {line : List Text} {r : Request} (h : Request.ofLine line = .ok r) :
    ∃ c : Command, FlagSet.Holds (c.flags ++ [Command.helpFlag]) r.flags := by
  rw [ofLine] at h
  cases hchoose : Command.choose line with
  | error e => rw [hchoose] at h; cases h
  | ok choice =>
    obtain ⟨c, rest⟩ := choice
    refine ⟨c, ?_⟩
    rw [hchoose] at h
    cases hparse : FlagSet.parse (c.flags ++ [Command.helpFlag]) rest with
    | error e =>
      simp only [bind, Except.bind, hparse, Except.mapError] at h
      cases h
    | ok p =>
      simp only [bind, Except.bind, hparse, Except.mapError] at h
      split at h
      · rw [← Except.ok.inj h]
        exact FlagSet.holds_nil _
      · split at h
        · cases h
        · rw [← Except.ok.inj h]
          exact FlagSet.holds_parse hparse

end MixinCss
