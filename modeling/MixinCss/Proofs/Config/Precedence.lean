/-
  MixinCss.Proofs.Config.Precedence

  Which source a setting of a run comes from. Each parameter has a flat key, that
  of its flag, and a key inside of a group. At one key the flags come before the
  environment and the environment before the file. But the flat key comes before
  the other one as a whole, so that a flat key in the file hides a variable for the
  key in the group. Moreover the variable that is named after a key with a dash is
  for another key.
-/

import MixinCss.Proofs.Config.Sources
import MixinCss.Proofs.Text.Wellformed

namespace MixinCss

/-! ## Parameters -/

namespace Setting

/-- A setting as text; nothing has none. -/
def asText : Setting → Text
  | .null => []
  | v => v.print

def asSwitch : Setting → Bool
  | .switch b => b
  | v => (Settings.readSwitch? v.print).getD false

def asWhole : Setting → Int
  | .whole n => n
  | v =>
    match Decimal.read v.print with
    | .ok f => Settings.truncate f
    | .error _ => 0

/-- The value in place of a fallback, given what is set at two keys. For a text, an
    empty one does not count; for a switch or an integer, whatever is set does. -/
def chosen (first second : Option Setting) : Setting → Setting
  | .text t =>
    .text ((((first.map asText).filter (!·.isEmpty)).or
      ((second.map asText).filter (!·.isEmpty))).getD t)
  | .switch b => .switch (((first.or second).map asSwitch).getD b)
  | .whole n => .whole (((first.or second).map asWhole).getD n)
  | other => other

end Setting

/-- The texts, switches and integers that a run takes from its settings. -/
inductive Parameter where
  | sourceDir
  | outputDir
  | useIgnoreList
  | dryRun
  | standardUnit
  | lineHeightUnit
  | forceColors
  | printLines
  | printLinterName
  | maxIssues
deriving DecidableEq, Repr

namespace Parameter

/-- The name of the flag. -/
def flat : Parameter → String
  | .sourceDir => "source"
  | .outputDir => "output-dir"
  | .useIgnoreList => "gitignore"
  | .dryRun => "dry-run"
  | .standardUnit => "unit"
  | .lineHeightUnit => "line-height-unit"
  | .forceColors => "color"
  | .printLines => "print-lines"
  | .printLinterName => "print-linter-name"
  | .maxIssues => "max-issues"

/-- The key inside of a group. -/
def grouped : Parameter → String
  | .sourceDir => "build.source"
  | .outputDir => "build.output-dir"
  | .useIgnoreList => "build.gitignore"
  | .dryRun => "build.dry-run"
  | .standardUnit => "units.default"
  | .lineHeightUnit => "units.line-height"
  | .forceColors => "color"
  | .printLines => "check.print-lines"
  | .printLinterName => "check.print-linter-name"
  | .maxIssues => "check.max-issues"

def fallback : Parameter → Setting
  | .sourceDir => .text (utf8 "styles")
  | .outputDir => .text []
  | .useIgnoreList => .switch true
  | .dryRun => .switch false
  | .standardUnit => .text []
  | .lineHeightUnit => .text []
  | .forceColors => .switch false
  | .printLines => .switch true
  | .printLinterName => .switch true
  | .maxIssues => .whole 0

/-- The value that a run works with. -/
def used (p : Project) (c : ReportConfig) : Parameter → Setting
  | .sourceDir => .text p.sourceDir
  | .outputDir => .text p.outputDir
  | .useIgnoreList => .switch p.useIgnoreList
  | .dryRun => .switch p.dryRun
  | .standardUnit => .text p.options.units.standard
  | .lineHeightUnit => .text p.options.units.lineHeight
  | .forceColors => .switch c.forceColors
  | .printLines => .switch c.printLines
  | .printLinterName => .switch c.printLinterName
  | .maxIssues => .whole c.maxIssues

end Parameter

namespace Settings

theorem textAt_eq_chosen (s : Settings) (first second : String) (t : Text) :
    .text (s.textAt first second t) =
      Setting.chosen (find? s (utf8 first)) (find? s (utf8 second)) (.text t) := by
  have hget (path : String) :
      s.getText path = ((find? s (utf8 path)).map Setting.asText).getD [] := by
    rw [getText]
    cases find? s (utf8 path) with
    | none => rfl
    | some v => cases v <;> rfl
  have hfilter (o : Option Text) (rest : Text) :
      (if !(o.getD []).isEmpty then o.getD [] else rest) =
        (o.filter (!·.isEmpty)).getD rest := by
    cases o with
    | none => rfl
    | some t => cases t <;> rfl
  rw [textAt, hget, hget, Setting.chosen, hfilter, hfilter]
  cases ((find? s (utf8 first)).map Setting.asText).filter (!·.isEmpty) <;> rfl

theorem switchAt_eq_chosen (s : Settings) (first second : String) (b : Bool) :
    .switch (s.switchAt first second b) =
      Setting.chosen (find? s (utf8 first)) (find? s (utf8 second)) (.switch b) := by
  have hget {path : String} {v : Setting} (h : find? s (utf8 path) = some v) :
      s.getSwitch path = v.asSwitch := by
    rw [getSwitch, h]
    cases v <;> rfl
  rw [switchAt, isSet, isSet, Setting.chosen]
  cases hfirst : find? s (utf8 first) with
  | some v => rw [hget hfirst]; rfl
  | none =>
    cases hsecond : find? s (utf8 second) with
    | some v => rw [hget hsecond]; rfl
    | none => rfl

theorem wholeAt_eq_chosen (s : Settings) (first second : String) (n : Int) :
    .whole (s.wholeAt first second n) =
      Setting.chosen (find? s (utf8 first)) (find? s (utf8 second)) (.whole n) := by
  have hget {path : String} {v : Setting} (h : find? s (utf8 path) = some v) :
      s.getWhole path = v.asWhole := by
    rw [getWhole, h]
    cases v <;> rfl
  rw [wholeAt, isSet, isSet, Setting.chosen]
  cases hfirst : find? s (utf8 first) with
  | some v => rw [hget hfirst]; rfl
  | none =>
    cases hsecond : find? s (utf8 second) with
    | some v => rw [hget hsecond]; rfl
    | none => rfl

/-! ## Names of variables -/

/-- A byte in the name of the variable for a key. -/
def variableByte (b : UInt8) : UInt8 :=
  if b = ascii '.' || b = ascii '-' then ascii '_' else if Byte.isLower b then b - 0x20 else b

/-- The variable that is named after a key: in capitals, with underscores for
    points and dashes. -/
def variableName (key : Text) : Text := environmentHead ++ key.map variableByte

/-- The path that this variable is for: its dashes count as points. -/
def variablePath (key : Text) : List Text :=
  Text.split (ascii '.') (key.map fun b => if b = ascii '-' then ascii '.' else b)

/-- Bytes of the keys of parameters. -/
def isKeyByte (b : UInt8) : Bool := Byte.isLower b || b = ascii '.' || b = ascii '-'

theorem lowered_of_ascii {t : Text} (h : ∀ b ∈ t, b < 0x80) : t.lowered = t.map Byte.lower := by
  induction t with
  | nil => rw [Text.lowered, Text.runes]; rfl
  | cons b rest ih =>
    obtain ⟨hb, hrest⟩ := List.forall_mem_cons.mp h
    have hlow : b.toNat < 0x80 := UInt8.lt_iff_toNat_lt.mp hb
    rw [Text.lowered, Text.runes_of_ascii hb, List.flatMap_cons, ← Text.lowered, ih hrest,
      if_neg (by dsimp only; omega), if_neg (by dsimp only; omega)]
    rfl

theorem variableByte_read {b : UInt8} (h : isKeyByte b = true) :
    variableByte b < 0x80 ∧
      (if Byte.lower (variableByte b) = ascii '_' then ascii '.' else Byte.lower (variableByte b)) =
        if b = ascii '-' then ascii '.' else b := by
  have hall : ∀ n : Fin 256, isKeyByte (UInt8.ofFin n) = true →
      variableByte (UInt8.ofFin n) < 0x80 ∧
        (if Byte.lower (variableByte (UInt8.ofFin n)) = ascii '_' then ascii '.'
          else Byte.lower (variableByte (UInt8.ofFin n))) =
          if UInt8.ofFin n = ascii '-' then ascii '.' else UInt8.ofFin n := by decide +kernel
  exact hall b.toFin h

theorem environmentPath?_variableName {key : Text} (hne : key ≠ [])
    (hkey : ∀ b ∈ key, isKeyByte b = true) :
    environmentPath? (variableName key) = some (variablePath key) := by
  have hafter : (variableName key).after? environmentHead = some (key.map variableByte) := by
    rw [variableName, Text.after?, if_pos (List.isPrefixOf_iff_prefix.mpr (List.prefix_append _ _)),
      List.drop_left]
  have hname : (Text.lowered (key.map variableByte)).replaceByte (ascii '_') [ascii '.'] =
      key.map fun b => if b = ascii '-' then ascii '.' else b := by
    rw [lowered_of_ascii, Text.replaceByte, List.map_map, List.flatMap_map, List.map_eq_flatMap]
    · refine List.flatMap_congr fun b hb => ?_
      rw [← (variableByte_read (hkey b hb)).2, Function.comp_apply]
      split <;> rfl
    · rw [List.forall_mem_map]
      exact fun b hb => (variableByte_read (hkey b hb)).1
  obtain ⟨b, rest, rfl⟩ := List.exists_cons_of_ne_nil hne
  rw [environmentPath?, hafter, variablePath, ← hname]
  rfl

/-- The variable that is named after a key is for that key only if it has no dash. -/
theorem environmentPath?_variableName_iff {key : Text} (hne : key ≠ [])
    (hkey : ∀ b ∈ key, isKeyByte b = true) :
    environmentPath? (variableName key) = some (Text.split (ascii '.') key) ↔
      ascii '-' ∉ key := by
  rw [environmentPath?_variableName hne hkey, Option.some.injEq, variablePath]
  constructor
  · intro h hdash
    have hmap := congrArg (Text.join [ascii '.']) h
    rw [Text.join_split, Text.join_split] at hmap
    rw [← hmap, List.mem_map] at hdash
    obtain ⟨b, -, hb⟩ := hdash
    split at hb
    · exact absurd hb (by decide)
    · rename_i hne
      exact hne hb
  · intro h
    congr 1
    refine (List.map_congr_left fun b hb => if_neg ?_).trans (List.map_id key)
    rintro rfl
    exact h hb

/-! ## Sources of a key -/

/-- What the sources give at a key: the flag, or else the variable, or else the
    file. -/
def provided (flags : Settings) (env : Environment) (file : Settings) (key : Text) :
    Option Setting :=
  (flags.lookup key).or
    (((env.valueAt? (Text.split (ascii '.') key)).map .text).or (find? (merge [] file) key))

end Settings

theorem FlagSet.Holds.open_path {flags : FlagSet} {s : Settings} (h : flags.Holds s)
    (hpoints : ∀ f ∈ flags, ascii '.' ∉ utf8 f.name) {key : Text}
    (hgroups : ∀ f ∈ flags, utf8 f.name ∉ (Text.split (ascii '.') key).dropLast) :
    Settings.Open s (Text.split (ascii '.') key) ∧
      Settings.at? s (Text.split (ascii '.') key) = s.lookup key := by
  have hjoin := Text.join_split (ascii '.') key
  match hsplit : Text.split (ascii '.') key, Text.split_ne_nil (ascii '.') key with
  | [k], _ =>
    rw [hsplit, Text.join_singleton] at hjoin
    subst hjoin
    refine ⟨?_, rfl⟩
    cases hk : s.lookup k with
    | none => exact .absent h.nodup hk
    | some v => exact .here h.nodup hk (h.plain k v hk)
  | group :: next :: rest, _ =>
    -- No flag is named like a group, and no name of a flag has a point in it.
    have hgroup : s.lookup group = none := by
      rw [Settings.lookup_eq_none_iff]
      intro hmem
      obtain ⟨f, hf, rfl⟩ := h.names group hmem
      refine hgroups f hf ?_
      rw [hsplit, List.dropLast_cons_cons]
      exact List.mem_cons_self
    have hkey : s.lookup key = none := by
      rw [Settings.lookup_eq_none_iff]
      intro hmem
      obtain ⟨f, hf, hname⟩ := h.names key hmem
      refine hpoints f hf ?_
      rw [hname, ← hjoin, hsplit, Text.join_cons_cons]
      exact List.mem_append_right _ List.mem_cons_self
    rw [hkey]
    exact ⟨.absent h.nodup hgroup, Settings.at?_of_lookup_eq_none hgroup _⟩

namespace Settings

/-- At each key that is clear in the environment, the flags come before the
    environment and the environment before the file. -/
theorem find?_load {known : FlagSet} {flags file : Settings} {env : Environment}
    (hflags : known.Holds flags) (hnames : ∀ f ∈ known, ascii '.' ∉ utf8 f.name)
    (hpoints : ∀ k ∈ file.keys, ascii '.' ∉ k) {key : Text}
    (hlength : (Text.split (ascii '.') key).length ≤ 2)
    (hgroups : ∀ f ∈ known, utf8 f.name ∉ (Text.split (ascii '.') key).dropLast)
    (henv : env.ClearAt (Text.split (ascii '.') key)) :
    find? (merge (merge (merge [] file) (ofEnvironment env)) flags) key =
      provided flags env file key := by
  have hfile : (merge [] file).keys.Nodup :=
    nodup_keys_merge (show (keys []).Nodup from List.Pairwise.nil) _
  have hfilePoints : ∀ k ∈ (merge [] file).keys, ascii '.' ∉ k := by
    intro k hk
    exact hpoints k ((mem_keys_merge.mp hk).resolve_right List.not_mem_nil)
  have hall : ∀ k ∈ (merge (merge (merge [] file) (ofEnvironment env)) flags).keys,
      ascii '.' ∉ k := by
    intro k hk
    rw [mem_keys_merge, mem_keys_merge] at hk
    obtain hk | hk | hk := hk
    · obtain ⟨f, hf, rfl⟩ := hflags.names k hk
      exact hnames f hf
    · exact point_not_mem_keys_ofEnvironment env k hk
    · exact hfilePoints k hk
  -- Both upper layers are open along the path, so each is seen before the next one.
  obtain ⟨hopen, hat⟩ := hflags.open_path hnames hgroups
  obtain ⟨henvOpen, henvAt⟩ := open_ofEnvironment (Text.split_ne_nil _ _) henv
  rw [find?_eq_at? (nodup_keys_merge (nodup_keys_merge hfile _) _) hall hlength, at?_merge hopen,
    at?_merge henvOpen, hat, henvAt, ← find?_eq_at? hfile hfilePoints hlength, provided]

theorem project_of_design {s : Settings} {design : Option Variables}
    (h : (find? s (utf8 "variables")).map Variables.ofSetting = design.map .ok) :
    ∃ includes, s.project = .ok {
      sourceDir := s.textAt "source" "build.source" (utf8 "styles")
      outputDir := s.textAt "output-dir" "build.output-dir" []
      includes
      useIgnoreList := s.switchAt "gitignore" "build.gitignore" true
      dryRun := s.switchAt "dry-run" "build.dry-run" false
      options := {
        mixins := []
        units := {
          standard := s.textAt "unit" "units.default" []
          lineHeight := s.textAt "line-height-unit" "units.line-height" [] }
        design } } := by
  rw [project]
  cases hfind : find? s (utf8 "variables") with
  | none =>
    rw [hfind] at h
    rw [Option.map_eq_none_iff.mp h.symm]
    exact ⟨_, rfl⟩
  | some v =>
    rw [hfind, Option.map_some] at h
    obtain ⟨d, rfl, hd⟩ := Option.map_eq_some_iff.mp h.symm
    simp only [← hd]
    exact ⟨_, rfl⟩

theorem exists_design_of_project {s : Settings} {p : Project} (h : s.project = .ok p) :
    ∃ design : Option Variables,
      (find? s (utf8 "variables")).map Variables.ofSetting = design.map .ok := by
  cases hfind : find? s (utf8 "variables") with
  | none => exact ⟨none, rfl⟩
  | some v =>
    cases hdesign : Variables.ofSetting v with
    | ok design => exact ⟨some design, by rw [Option.map_some, hdesign, Option.map_some]⟩
    | error fault =>
      simp only [project, hfind, hdesign] at h
      cases h

/-- A project is described unless the design settings cannot be read. -/
theorem exists_project_iff (s : Settings) :
    (∃ p, s.project = .ok p) ↔
      ∀ v ∈ find? s (utf8 "variables"), ∃ design, Variables.ofSetting v = .ok design := by
  constructor
  · rintro ⟨p, hp⟩ v hv
    obtain ⟨design, hdesign⟩ := exists_design_of_project hp
    rw [Option.mem_def.mp hv, Option.map_some] at hdesign
    obtain ⟨d, -, hd⟩ := Option.map_eq_some_iff.mp hdesign.symm
    exact ⟨d, hd.symm⟩
  · intro h
    have hdesign : ∃ design : Option Variables,
        (find? s (utf8 "variables")).map Variables.ofSetting = design.map .ok := by
      cases hfind : find? s (utf8 "variables") with
      | none => exact ⟨none, rfl⟩
      | some v =>
        obtain ⟨d, hd⟩ := h v hfind
        exact ⟨some d, by rw [Option.map_some, hd, Option.map_some]⟩
    obtain ⟨design, hdesign⟩ := hdesign
    obtain ⟨includes, hp⟩ := project_of_design hdesign
    exact ⟨_, hp⟩

end Settings

namespace Parameter

theorem used_eq {s : Settings} {p : Project} (h : s.project = .ok p) (x : Parameter) :
    x.used p s.report = x.fallback.chosen (Settings.find? s (utf8 x.flat))
      (Settings.find? s (utf8 x.grouped)) := by
  obtain ⟨design, hdesign⟩ := Settings.exists_design_of_project h
  obtain ⟨includes, hp⟩ := Settings.project_of_design hdesign
  obtain rfl := Except.ok.inj (hp.symm.trans h)
  cases x with
  | sourceDir => exact s.textAt_eq_chosen _ _ _
  | outputDir => exact s.textAt_eq_chosen _ _ _
  | useIgnoreList => exact s.switchAt_eq_chosen _ _ _
  | dryRun => exact s.switchAt_eq_chosen _ _ _
  | standardUnit => exact s.textAt_eq_chosen _ _ _
  | lineHeightUnit => exact s.textAt_eq_chosen _ _ _
  | forceColors => exact s.switchAt_eq_chosen _ _ _
  | printLines => exact s.switchAt_eq_chosen _ _ _
  | printLinterName => exact s.switchAt_eq_chosen _ _ _
  | maxIssues => exact s.wholeAt_eq_chosen _ _ _

/-- The keys of a parameter. -/
def keys (x : Parameter) : List Text := [utf8 x.flat, utf8 x.grouped]

theorem length_split_le {x : Parameter} {key : Text} (h : key ∈ x.keys) :
    (Text.split (ascii '.') key).length ≤ 2 := by
  revert key
  cases x <;> decide

/-- The groups that keys of parameters are in. -/
def groups : List Text := [utf8 "build", utf8 "units", utf8 "check"]

theorem mem_groups {x : Parameter} {key : Text} (h : key ∈ x.keys) :
    ∀ group ∈ (Text.split (ascii '.') key).dropLast, group ∈ groups := by
  revert key
  cases x <;> decide

theorem all_isKeyByte {x : Parameter} {key : Text} (h : key ∈ x.keys) :
    key ≠ [] ∧ key.all Settings.isKeyByte = true := by
  revert key
  cases x <;> decide

/-- All parameters. -/
def all : List Parameter := [.sourceDir, .outputDir, .useIgnoreList, .dryRun, .standardUnit,
  .lineHeightUnit, .forceColors, .printLines, .printLinterName, .maxIssues]

theorem mem_all (x : Parameter) : x ∈ all := by
  cases x <;> decide

/-- The variables that are named after keys of parameters do not stand in the way of
    each other. -/
theorem clearAt_of_named {env : Environment}
    (h : ∀ v ∈ env, Settings.environmentPath? v.1 = none ∨
      ∃ y : Parameter, ∃ key ∈ y.keys, v.1 = Settings.variableName key)
    {x : Parameter} {key : Text} (hkey : key ∈ x.keys) :
    env.ClearAt (Text.split (ascii '.') key) := by
  have hpaths : ∀ x ∈ all, ∀ y ∈ all, ∀ key ∈ x.keys, ∀ other ∈ y.keys,
      Settings.variablePath other = Text.split (ascii '.') key ∨
        Settings.Apart (Settings.variablePath other) (Text.split (ascii '.') key) := by
    decide +kernel
  intro v hv q hq
  obtain hnone | ⟨y, other, hother, hname⟩ := h v hv
  · rw [hnone] at hq
    cases hq
  · obtain ⟨hne, hbytes⟩ := all_isKeyByte hother
    rw [hname, Settings.environmentPath?_variableName hne (List.all_eq_true.mp hbytes),
      Option.mem_some_iff] at hq
    subst hq
    exact hpaths x x.mem_all y y.mem_all key hkey other hother

end Parameter

theorem Command.flag_name_ne (c : Command) :
    ∀ f ∈ c.flags ++ [Command.helpFlag],
      ascii '.' ∉ utf8 f.name ∧ utf8 f.name ∉ Parameter.groups := by
  cases c <;> decide

namespace World

theorem settings_eq_ok_iff {w : World} {r : Request} {s : Settings} {p : Project} :
    w.settings r = .ok (s, p) ↔
      Settings.load w.tree w.env r.flags = .ok s ∧ s.project = .ok p := by
  rw [settings]
  cases Settings.load w.tree w.env r.flags with
  | error e => exact iff_of_false (fun h => by cases h) fun h => by cases h.1
  | ok t =>
    cases hp : t.project with
    | error e =>
      simp only [bind, Except.bind, hp]
      refine iff_of_false (fun h => by cases h) fun ⟨hs, hproject⟩ => ?_
      rw [← Except.ok.inj hs, hp] at hproject
      cases hproject
    | ok q =>
      simp only [bind, Except.bind, hp, pure, Except.pure, Except.ok.injEq, Prod.mk.injEq]
      refine and_congr_right ?_
      rintro rfl
      rw [hp, Except.ok.injEq]

/-- A run has settings as soon as its file can be read, and a project unless the
    design settings are at fault. Each parameter is what the sources give at its
    flat key, or else what they give at its key in a group, or else the fallback.
    At one key the flag comes first, then the variable, then the file. The variable
    that is named after the key in a group is the one for it only if the key has no
    dash. A variable for a group, or for a key behind that of a parameter, would be in
    the way; those that are named after keys of parameters never are. -/
theorem settings_precedence (w : World) {line : List Text} {r : Request}
    (hline : Request.ofLine line = .ok r) {file : Settings}
    (hfile : Settings.ofFile w.tree r.flags.configPath = .ok file)
    (hpoints : ∀ k ∈ file.keys, ascii '.' ∉ k) :
    ∃ s, Settings.load w.tree w.env r.flags = .ok s ∧
      ((∃ p, w.settings r = .ok (s, p)) ↔ ∀ v ∈ Settings.find? s (utf8 "variables"),
        ∃ design, Variables.ofSetting v = .ok design) ∧
      (∀ p, w.settings r = .ok (s, p) → ∀ x : Parameter,
        (∀ key ∈ x.keys, w.env.ClearAt (Text.split (ascii '.') key)) →
        x.used p s.report = x.fallback.chosen
          (Settings.provided r.flags w.env file (utf8 x.flat))
          (Settings.provided r.flags w.env file (utf8 x.grouped))) ∧
      (∀ x : Parameter,
        Settings.environmentPath? (Settings.variableName (utf8 x.grouped)) =
            some (Text.split (ascii '.') (utf8 x.grouped)) ↔
          ascii '-' ∉ utf8 x.grouped) ∧
      ((∀ v ∈ w.env, Settings.environmentPath? v.1 = none ∨
          ∃ y : Parameter, ∃ key ∈ y.keys, v.1 = Settings.variableName key) →
        ∀ x : Parameter, ∀ key ∈ x.keys, w.env.ClearAt (Text.split (ascii '.') key)) := by
  obtain ⟨c, hflags⟩ := Request.holds_ofLine hline
  have hload : Settings.load w.tree w.env r.flags = .ok (Settings.merge
      (Settings.merge (Settings.merge [] file) (Settings.ofEnvironment w.env)) r.flags) := by
    rw [Settings.load, hfile]
    rfl
  refine ⟨_, hload, ?_, fun p hp x hclear => ?_, fun x => ?_,
    fun hnamed x key hkey => Parameter.clearAt_of_named hnamed hkey⟩
  · simp only [settings_eq_ok_iff, hload, true_and]
    exact Settings.exists_project_iff _
  · have hfind {key : Text} (hkey : key ∈ x.keys) :=
      Settings.find?_load hflags (fun f hf => (c.flag_name_ne f hf).1) hpoints
        (Parameter.length_split_le hkey)
        (fun f hf hgroup => (c.flag_name_ne f hf).2 (Parameter.mem_groups hkey _ hgroup))
        (hclear key hkey)
    rw [x.used_eq (settings_eq_ok_iff.mp hp).2, hfind List.mem_cons_self,
      hfind (List.mem_cons_of_mem _ List.mem_cons_self)]
  · obtain ⟨hne, hbytes⟩ := Parameter.all_isKeyByte
      (List.mem_cons_of_mem (utf8 x.flat) (List.mem_singleton_self (utf8 x.grouped)))
    exact Settings.environmentPath?_variableName_iff hne (List.all_eq_true.mp hbytes)

/-- A world with settings in a file and in variables. -/
def configured (config : String) (named : List (String × String)) : World where
  tree := ⟨.root, [(⟨[standardConfigPath]⟩, .file (utf8 config) .full)]⟩
  env := named.map fun v => (utf8 v.1, utf8 v.2)
  timestamp := []

/-- A flat key in the file, a variable over a key in a group, and a flag. -/
theorem settings_precedence_mixed :
    let w := configured "source: one\nbuild:\n  source: two\n  gitignore: false\n"
      [("CSSMIX_BUILD_SOURCE", "three"), ("CSSMIX_BUILD_GITIGNORE", "true")]
    let r : Request := ⟨.build, [(utf8 "unit", .text (utf8 "px"))]⟩
    Request.ofLine [utf8 "build", utf8 "--unit", utf8 "px"] = .ok r ∧
      ∃ s p, w.settings r = .ok (s, p) ∧ p.sourceDir = utf8 "one" ∧ p.useIgnoreList = true ∧
        p.options.units.standard = utf8 "px" := by
  intro w r
  have hline : Request.ofLine [utf8 "build", utf8 "--unit", utf8 "px"] = .ok r := rfl
  have hfile : Settings.ofFile w.tree r.flags.configPath = .ok [
      (utf8 "source", .text (utf8 "one")),
      (utf8 "build", .map [(utf8 "source", .text (utf8 "two")),
        (utf8 "gitignore", .switch false)])] := rfl
  have hclear : ∀ x ∈ [Parameter.sourceDir, .useIgnoreList, .standardUnit],
      ∀ key ∈ x.keys, w.env.ClearAt (Text.split (ascii '.') key) := by decide +kernel
  have hdesign : (Settings.load w.tree w.env r.flags).toOption.all
      (fun s => (Settings.find? s (utf8 "variables")).isNone) = true := by decide +kernel
  obtain ⟨s, hload, hproject, hused, -⟩ := w.settings_precedence hline hfile (by decide)
  rw [hload] at hdesign
  obtain ⟨p, hp⟩ := hproject.mpr fun v hv => by
    rw [Option.isNone_iff_eq_none.mp hdesign] at hv
    cases hv
  have hvalue (x : Parameter) (hx : x ∈ [Parameter.sourceDir, .useIgnoreList, .standardUnit]) :=
    hused p hp x (hclear x hx)
  refine ⟨hline, s, p, hp, ?_, ?_, ?_⟩
  · refine (congrArg Setting.asText (hvalue .sourceDir (by decide))).trans ?_
    decide +kernel
  · refine (congrArg Setting.asSwitch (hvalue .useIgnoreList (by decide))).trans ?_
    decide +kernel
  · refine (congrArg Setting.asText (hvalue .standardUnit (by decide))).trans ?_
    decide +kernel

/-- The variable for the output directory has no effect, and the one for the
    sources has none beside a flat key in the file. -/
theorem settings_variables_hidden :
    ((configured "" [("CSSMIX_BUILD_OUTPUT_DIR", "out")]).settings ⟨.build, []⟩).toOption.map
        (fun r => r.2.outputDir) = some [] ∧
      ((configured "source: one\n" [("CSSMIX_BUILD_SOURCE", "two")]).settings
        ⟨.build, []⟩).toOption.map (fun r => r.2.sourceDir) = some (utf8 "one") := by
  decide +kernel

end World

end MixinCss
