/-
  MixinCss.Proofs.Config.Layers

  Settings laid over each other, as they are seen along a path of keys. A layer is
  open along a path if each key is given once there, maps lead up to its end, and
  no map stands at the end (`Settings.Open`). What an open layer gives comes first,
  and where it gives nothing the settings below it are seen (`Settings.at?_merge`).
  Values that are put at paths of their own make an open layer.
-/

import Mathlib.Data.List.Basic
import MixinCss.Config.Setting
import MixinCss.Proofs.Files.Path
import MixinCss.Proofs.Text.Joined

namespace MixinCss

/-- Whether a setting holds settings. -/
def Setting.isMap : Setting → Bool
  | .map _ => true
  | _ => false

namespace Settings

/-- The keys of settings. -/
def keys (s : Settings) : List Text := s.map Prod.fst

theorem lookup_eq_none_iff {s : Settings} {key : Text} : s.lookup key = none ↔ key ∉ s.keys := by
  rw [List.lookup_eq_none_iff, keys, List.mem_map]
  constructor
  · rintro h ⟨e, he, rfl⟩
    exact absurd (h e he) (by simp)
  · intro h e he
    rw [bne_iff_ne]
    rintro rfl
    exact h ⟨e, he, rfl⟩

/-! ## One key -/

theorem keys_set (s : Settings) (key : Text) (v : Setting) :
    (s.set key v).keys = if key ∈ s.keys then s.keys else s.keys ++ [key] := by
  induction s with
  | nil => rfl
  | cons e rest ih =>
    obtain ⟨k, old⟩ := e
    rw [set]
    by_cases hk : k = key
    · rw [if_pos hk, if_pos (by simp [keys, hk])]
      rfl
    · have hmem : key ∈ keys ((k, old) :: rest) ↔ key ∈ keys rest := by
        simp [keys, Ne.symm hk]
      rw [if_neg hk, keys, List.map_cons, ← keys, ih]
      simp only [hmem]
      split <;> rfl

theorem nodup_keys_set {s : Settings} (h : s.keys.Nodup) (key : Text) (v : Setting) :
    (s.set key v).keys.Nodup := by
  rw [keys_set]
  split
  · exact h
  · rename_i hkey
    rw [List.nodup_append]
    refine ⟨h, List.pairwise_singleton _ key, fun k hk k' hk' => ?_⟩
    rw [List.mem_singleton.mp hk']
    exact fun heq => hkey (heq ▸ hk)

theorem mem_keys_set {s : Settings} {key k : Text} {v : Setting} :
    k ∈ (s.set key v).keys ↔ k = key ∨ k ∈ s.keys := by
  rw [keys_set]
  split
  · rename_i hkey
    exact ⟨.inr, fun h => h.elim (· ▸ hkey) id⟩
  · rw [List.mem_append, List.mem_singleton, or_comm]

theorem lookup_cons (k : Text) (v : Setting) (rest : Settings) (key : Text) :
    List.lookup key ((k, v) :: rest) = if key = k then some v else rest.lookup key := by
  rw [List.lookup_cons]
  by_cases hk : key = k
  · rw [if_pos hk, beq_iff_eq.mpr hk]
  · rw [if_neg hk, beq_eq_false_iff_ne.mpr hk]

theorem lookup_set (s : Settings) (key k : Text) (v : Setting) :
    (s.set key v).lookup k = if k = key then some v else s.lookup k := by
  induction s with
  | nil => rw [set, lookup_cons]
  | cons e rest ih =>
    obtain ⟨k', old⟩ := e
    rw [set]
    by_cases hk : k' = key
    · subst hk
      rw [if_pos rfl, lookup_cons, lookup_cons]
      split <;> rfl
    · rw [if_neg hk, lookup_cons, lookup_cons, ih]
      by_cases heq : k = k'
      · rw [if_pos heq, if_pos heq, if_neg (heq ▸ hk)]
      · rw [if_neg heq, if_neg heq]

/-! ## Layers -/

theorem mem_keys_merge {base new : Settings} {k : Text} :
    k ∈ (merge base new).keys ↔ k ∈ new.keys ∨ k ∈ base.keys := by
  induction new generalizing base with
  | nil => rw [merge]; simp [keys]
  | cons e rest ih =>
    obtain ⟨key, v⟩ := e
    have hcons : k ∈ keys ((key, v) :: rest) ↔ k = key ∨ k ∈ keys rest := List.mem_cons
    rw [merge, ih, mem_keys_set, hcons, or_left_comm, or_assoc]

theorem nodup_keys_merge {base : Settings} (h : base.keys.Nodup) (new : Settings) :
    (merge base new).keys.Nodup := by
  induction new generalizing base with
  | nil => rwa [merge]
  | cons e rest ih =>
    obtain ⟨key, v⟩ := e
    rw [merge]
    exact ih (nodup_keys_set h _ _)

theorem lookup_merge_of_not_mem {base new : Settings} {k : Text} (h : k ∉ new.keys) :
    (merge base new).lookup k = base.lookup k := by
  induction new generalizing base with
  | nil => rw [merge]
  | cons e rest ih =>
    obtain ⟨key, v⟩ := e
    rw [keys, List.map_cons, List.mem_cons, not_or] at h
    rw [merge, ih h.2, lookup_set, if_neg h.1]

theorem lookup_merge {base new : Settings} (hnew : new.keys.Nodup) {k : Text} {v : Setting}
    (h : new.lookup k = some v) :
    (merge base new).lookup k = some (overlay (base.lookup k) v) := by
  induction new generalizing base with
  | nil => cases h
  | cons e rest ih =>
    obtain ⟨key, w⟩ := e
    rw [keys, List.map_cons, List.nodup_cons] at hnew
    rw [merge]
    by_cases hk : k = key
    · subst hk
      rw [lookup_cons, if_pos rfl] at h
      rw [lookup_merge_of_not_mem hnew.1, lookup_set, if_pos rfl, Option.some.inj h]
    · rw [lookup_cons, if_neg hk] at h
      rw [ih hnew.2 h, lookup_set, if_neg hk]

theorem overlay_of_isMap {v : Setting} (h : v.isMap = false) (old : Option Setting) :
    overlay old v = v := by
  cases v with
  | map => cases h
  | _ => rw [overlay]

/-- The settings inside of a setting; none unless it is a map. -/
def inside : Option Setting → Settings
  | some (.map members) => members
  | _ => []

theorem inside_of_isMap {v : Setting} (h : v.isMap = false) : inside (some v) = [] := by
  cases v with
  | map => cases h
  | _ => rfl

theorem overlay_map (old : Option Setting) (members : Settings) :
    overlay old (.map members) = .map (merge (inside old) members) ∨
      overlay old (.map members) = .map members ∧ inside old = [] := by
  cases old with
  | none => exact .inr ⟨by rw [overlay]; simp, rfl⟩
  | some v =>
    cases hv : v.isMap with
    | false =>
      refine .inr ⟨?_, inside_of_isMap hv⟩
      rw [overlay]
      intro base hbase
      rw [Option.some.inj hbase] at hv
      cases hv
    | true =>
      cases v with
      | map base => exact .inl (by rw [overlay, inside])
      | _ => cases hv

/-! ## Paths -/

/-- The setting at a path of keys. -/
def at? (s : Settings) : List Text → Option Setting
  | [] => none
  | [key] => s.lookup key
  | key :: next :: rest => at? (inside (s.lookup key)) (next :: rest)

theorem at?_nil (p : List Text) : at? [] p = none := by
  induction p with
  | nil => rfl
  | cons key rest ih =>
    cases rest with
    | nil => rfl
    | cons next rest => exact ih

theorem at?_cons (s : Settings) (key : Text) {rest : List Text} (h : rest ≠ []) :
    at? s (key :: rest) = at? (inside (s.lookup key)) rest := by
  obtain ⟨next, rest, rfl⟩ := List.exists_cons_of_ne_nil h
  rw [at?]

theorem at?_congr {s t : Settings} {key : Text} (h : s.lookup key = t.lookup key)
    (rest : List Text) : at? s (key :: rest) = at? t (key :: rest) := by
  cases rest with
  | nil => exact h
  | cons next rest => rw [at?, at?, h]

theorem at?_of_lookup_eq_none {s : Settings} {key : Text} (h : s.lookup key = none)
    (rest : List Text) : at? s (key :: rest) = none := by
  rw [at?_congr (show s.lookup key = List.lookup key [] from h), at?_nil]

/-- Settings that leave a path open: nothing but maps of distinct keys up to its
    end, and no map there. -/
inductive Open : Settings → List Text → Prop where
  | absent {s : Settings} {key : Text} {rest : List Text} :
    s.keys.Nodup → s.lookup key = none → Open s (key :: rest)
  | here {s : Settings} {key : Text} {v : Setting} :
    s.keys.Nodup → s.lookup key = some v → v.isMap = false → Open s [key]
  | inner {s members : Settings} {key : Text} {rest : List Text} :
    s.keys.Nodup → s.lookup key = some (.map members) → rest ≠ [] → Open members rest →
    Open s (key :: rest)

theorem open_nil {p : List Text} (h : p ≠ []) : Open [] p := by
  obtain ⟨key, rest, rfl⟩ := List.exists_cons_of_ne_nil h
  exact .absent List.Pairwise.nil rfl

/-- What an open layer gives comes before what is below it. -/
theorem at?_merge {base new : Settings} {p : List Text} (h : Open new p) :
    at? (merge base new) p = (at? new p).or (at? base p) := by
  induction h generalizing base with
  | absent _ hnone =>
    rw [at?_of_lookup_eq_none hnone, Option.none_or]
    exact at?_congr (lookup_merge_of_not_mem (lookup_eq_none_iff.mp hnone)) _
  | here hnodup hsome hv =>
    rw [at?, at?, lookup_merge hnodup hsome, overlay_of_isMap hv, hsome, Option.some_or]
  | @inner new members key rest hnodup hsome hrest _ ih =>
    rw [at?_cons _ _ hrest, at?_cons _ _ hrest, at?_cons _ _ hrest, lookup_merge hnodup hsome,
      hsome]
    -- Two maps are merged, which is the case of the shorter path; any other setting
    -- below is replaced, and nothing could be seen inside of it.
    obtain heq | ⟨heq, hinside⟩ := overlay_map (base.lookup key) members
    · rw [heq]
      exact ih
    · rw [heq, hinside, at?_nil, Option.or_none]

theorem Open.nodup {s : Settings} {p : List Text} (h : Open s p) : s.keys.Nodup := by
  cases h with
  | absent h _ => exact h
  | here h _ _ => exact h
  | inner h _ _ _ => exact h

theorem Open.inside {s : Settings} {key : Text} {rest : List Text} (h : Open s (key :: rest))
    (hrest : rest ≠ []) : Open (Settings.inside (s.lookup key)) rest := by
  cases h with
  | absent _ hnone =>
    rw [hnone]
    exact open_nil hrest
  | here => exact absurd rfl hrest
  | inner _ hsome _ hmembers =>
    rw [hsome]
    exact hmembers

theorem Open.congr {s t : Settings} {key : Text} {rest : List Text} (h : Open s (key :: rest))
    (ht : t.keys.Nodup) (heq : t.lookup key = s.lookup key) : Open t (key :: rest) := by
  cases h with
  | absent _ hnone => exact .absent ht (heq.trans hnone)
  | here _ hsome hv => exact .here ht (heq.trans hsome) hv
  | inner _ hsome hrest hmembers => exact .inner ht (heq.trans hsome) hrest hmembers

theorem Open.merge {base new : Settings} {p : List Text} (h : Open base p) (hnew : Open new p) :
    Open (merge base new) p := by
  induction hnew generalizing base with
  | absent _ hnone =>
    exact h.congr (nodup_keys_merge h.nodup _)
      (lookup_merge_of_not_mem (lookup_eq_none_iff.mp hnone))
  | here hnodup hsome hv =>
    refine .here (nodup_keys_merge h.nodup _) (lookup_merge hnodup hsome) ?_
    rwa [overlay_of_isMap hv]
  | @inner new members key rest hnodup hsome hrest hmembers ih =>
    have hmerged : (Settings.merge base new).lookup key = _ := lookup_merge hnodup hsome
    obtain heq | ⟨heq, -⟩ := overlay_map (base.lookup key) members
    · exact .inner (nodup_keys_merge h.nodup _) (heq ▸ hmerged) hrest (ih (h.inside hrest))
    · exact .inner (nodup_keys_merge h.nodup _) (heq ▸ hmerged) hrest hmembers

/-! ## Values at paths -/

/-- Two paths of which neither leads to the other one. -/
def Apart (p q : List Text) : Prop := ¬ p <+: q ∧ ¬ q <+: p

instance (p q : List Text) : Decidable (Apart p q) :=
  inferInstanceAs (Decidable (¬ p <+: q ∧ ¬ q <+: p))

theorem nodup_keys_singleton (key : Text) (v : Setting) : (keys [(key, v)]).Nodup :=
  List.pairwise_singleton _ key

theorem open_singleton_of_ne {key k : Text} (h : k ≠ key) (v : Setting) (p : List Text) :
    Open [(key, v)] (k :: p) ∧ at? [(key, v)] (k :: p) = none := by
  have hnone : List.lookup k [(key, v)] = none := by
    rw [lookup_cons, if_neg h, List.lookup_nil]
  exact ⟨.absent (nodup_keys_singleton key v) hnone, at?_of_lookup_eq_none hnone p⟩

/-- A value alone at a path is seen there, and the paths apart from it stay open. -/
theorem open_nested {v : Setting} (hv : v.isMap = false) {key : Text} {rest p : List Text}
    (h : key :: rest = p ∨ Apart (key :: rest) p) :
    Open [(key, nested v rest)] p ∧
      at? [(key, nested v rest)] p = if key :: rest = p then some v else none := by
  induction rest generalizing key p with
  | nil =>
    obtain rfl | hapart := h
    · rw [if_pos rfl]
      exact ⟨.here (nodup_keys_singleton _ _) List.lookup_cons_self hv, List.lookup_cons_self⟩
    · cases p with
      | nil => exact absurd List.nil_prefix hapart.2
      | cons k p =>
        have hk : k ≠ key := by
          rintro rfl
          exact hapart.1 (List.cons_prefix_cons.mpr ⟨rfl, List.nil_prefix⟩)
        rw [if_neg fun heq => hk (List.cons.inj heq).1.symm]
        exact open_singleton_of_ne hk _ p
  | cons next rest ih =>
    cases p with
    | nil => exact absurd List.nil_prefix (h.resolve_left (List.cons_ne_nil _ _)).2
    | cons k p =>
      by_cases hk : k = key
      · subst hk
        -- Below the common first key, the paths are still equal or apart.
        have hbelow : next :: rest = p ∨ Apart (next :: rest) p :=
          h.imp (fun heq => (List.cons.inj heq).2) fun hapart =>
            ⟨fun hp => hapart.1 (List.cons_prefix_cons.mpr ⟨rfl, hp⟩),
              fun hp => hapart.2 (List.cons_prefix_cons.mpr ⟨rfl, hp⟩)⟩
        have hp : p ≠ [] := by
          rintro rfl
          exact absurd List.nil_prefix (hbelow.resolve_left (List.cons_ne_nil _ _)).2
        obtain ⟨hopen, hat⟩ := ih hbelow
        refine ⟨.inner (nodup_keys_singleton _ _) List.lookup_cons_self hp hopen, ?_⟩
        rw [at?_cons _ _ hp, List.lookup_cons_self, nested, inside, hat]
        simp only [List.cons.injEq, true_and]
      · rw [if_neg fun heq => hk (List.cons.inj heq).1.symm]
        exact open_singleton_of_ne hk _ p

/-- Putting a value at a path that is the same as `p` or apart from it. -/
theorem open_put {s : Settings} {p q : List Text} (hs : Open s p) {v : Setting}
    (hv : v.isMap = false) (hq : q = p ∨ Apart q p) :
    Open (s.put q v) p ∧ at? (s.put q v) p = if q = p then some v else at? s p := by
  cases q with
  | nil =>
    obtain rfl | hapart := hq
    · cases hs
    · exact absurd List.nil_prefix hapart.1
  | cons key rest =>
    obtain ⟨hopen, hat⟩ := open_nested hv hq
    refine ⟨hs.merge hopen, ?_⟩
    rw [put, at?_merge hopen, hat]
    split
    · exact Option.some_or
    · exact Option.none_or

/-! ## Paths as texts -/

theorem find?_of_not_mem {key : Text} (h : ascii '.' ∉ key) (s : Settings) :
    find? s key = s.lookup key := by
  induction s with
  | nil => rfl
  | cons e rest ih =>
    obtain ⟨k, v⟩ := e
    have hafter : key.after? (k ++ [ascii '.']) = none := by
      rw [Text.after?, if_neg]
      intro hhead
      exact h ((List.isPrefixOf_iff_prefix.mp hhead).subset (by simp))
    rw [find?, lookup_cons, hafter, ih]
    simp only [eq_comm]

/-- The part behind a key that leads to another one. -/
theorem after?_point {k group : Text} (hk : ascii '.' ∉ k) (hgroup : ascii '.' ∉ group)
    (leaf : Text) :
    (group ++ ascii '.' :: leaf).after? (k ++ [ascii '.']) =
      if k = group then some leaf else none := by
  rw [Text.after?]
  by_cases heq : k = group
  · subst heq
    have hhead : k ++ [ascii '.'] <+: k ++ ascii '.' :: leaf := ⟨leaf, by simp⟩
    rw [if_pos rfl, if_pos (List.isPrefixOf_iff_prefix.mpr hhead)]
    simp
  · rw [if_neg heq, if_neg]
    intro hhead
    obtain ⟨more, hmore⟩ := List.isPrefixOf_iff_prefix.mp hhead
    rw [List.append_assoc, List.singleton_append] at hmore
    have hsplit := congrArg (Text.split (ascii '.')) hmore
    rw [Text.split_append_cons, Text.split_append_cons, Text.split_of_not_mem hk,
      Text.split_of_not_mem hgroup] at hsplit
    exact heq (List.cons.inj hsplit).1

theorem findBelow?_eq (v : Setting) (path : Text) :
    findBelow? v path = find? (inside (some v)) path := by
  cases v with
  | map members => rw [findBelow?, inside]
  | _ => rw [findBelow?, inside_of_isMap rfl, find?]

theorem find?_point {group leaf : Text} (hgroup : ascii '.' ∉ group) (hleaf : ascii '.' ∉ leaf)
    {s : Settings} (hkeys : s.keys.Nodup) (hpoints : ∀ k ∈ s.keys, ascii '.' ∉ k) :
    find? s (group ++ ascii '.' :: leaf) = at? s [group, leaf] := by
  induction s with
  | nil => rfl
  | cons e rest ih =>
    obtain ⟨k, v⟩ := e
    obtain ⟨hk, hrest⟩ := List.forall_mem_cons.mp hpoints
    obtain ⟨hfresh, hnodup⟩ := List.nodup_cons.mp hkeys
    have hne : k ≠ group ++ ascii '.' :: leaf := by
      rintro rfl
      exact hk (List.mem_append_right _ List.mem_cons_self)
    rw [find?, if_neg hne, after?_point hk hgroup, at?, lookup_cons]
    by_cases heq : k = group
    · subst heq
      have hnone : at? rest [k, leaf] = none :=
        at?_of_lookup_eq_none (lookup_eq_none_iff.mpr hfresh) _
      rw [if_pos rfl, if_pos rfl, ih hnodup hrest, hnone]
      calc (findBelow? v leaf).or none = findBelow? v leaf := Option.or_none
        _ = (inside (some v)).lookup leaf := by rw [findBelow?_eq, find?_of_not_mem hleaf]
    · rw [if_neg heq, if_neg (Ne.symm heq)]
      exact ih hnodup hrest

/-- A path as a text leads to where its keys do. -/
theorem find?_eq_at? {s : Settings} (hkeys : s.keys.Nodup)
    (hpoints : ∀ k ∈ s.keys, ascii '.' ∉ k) {path : Text}
    (hpath : (Text.split (ascii '.') path).length ≤ 2) :
    find? s path = at? s (Text.split (ascii '.') path) := by
  have hjoin := Text.join_split (ascii '.') path
  have hparts : ∀ part ∈ Text.split (ascii '.') path, ascii '.' ∉ part :=
    fun part => Text.not_mem_of_mem_split
  match hsplit : Text.split (ascii '.') path, Text.split_ne_nil (ascii '.') path with
  | [key], _ =>
    rw [hsplit, Text.join_singleton] at hjoin
    rw [hsplit] at hparts
    rw [← hjoin, find?_of_not_mem (hparts key List.mem_cons_self), at?]
  | [group, leaf], _ =>
    rw [hsplit] at hjoin hparts
    have hpoint : group ++ ascii '.' :: leaf = path := by
      rw [← hjoin, Text.join_cons_cons, Text.join_singleton]
    rw [← hpoint]
    exact find?_point (hparts group List.mem_cons_self)
      (hparts leaf (List.mem_cons_of_mem _ List.mem_cons_self)) hkeys hpoints
  | _ :: _ :: _ :: rest, _ =>
    rw [hsplit] at hpath
    simp at hpath

end Settings

end MixinCss
