/-
  MixinCss.Proofs.Files.Glob

  Where patterns lead. What a pattern is joined to is part of the pattern, so a
  directory is kept only if its names are patterns for themselves alone
  (`Glob.IsPlain`). Then each stage keeps it: a backslash is taken off inside of
  a name, the pattern is cut at a slash, alternatives are put in behind it, and
  the names of the tree are followed from there (`Glob.exists_isWithin_of_mem_paths?`).
-/

import MixinCss.Files.Glob
import MixinCss.Proofs.Files.Place
import MixinCss.Proofs.Files.Tree

namespace MixinCss

/-! ## Trees -/

namespace FileTree

/-- Names lead to the working directory and to every entry. -/
structure IsNormal (t : FileTree) : Prop where
  home : t.home.IsNormal
  entries : ∀ entry ∈ t.entries, entry.1.IsNormal

variable {t : FileTree}

theorem isNormal_ofTexts {home : Place} (h : home.IsNormal) (entries : List (Text × Entry)) :
    (ofTexts home entries).IsNormal := by
  refine ⟨h, fun entry hentry => ?_⟩
  obtain ⟨⟨path, e⟩, -, rfl⟩ := List.mem_map.mp hentry
  exact (Path.normal_ofText path).place h

theorem IsNormal.known (h : t.IsNormal) : ∀ entry ∈ t.known, entry.1.IsNormal := by
  refine List.forall_mem_append.mpr ⟨fun entry hentry s hs => ?_, h.entries⟩
  obtain ⟨place, hplace, rfl⟩ := List.mem_map.mp hentry
  obtain ⟨n, -, rfl⟩ := List.mem_map.mp hplace
  exact h.home s (List.mem_of_mem_take hs)

theorem IsNormal.isName_of_mem_names (h : t.IsNormal) {p : Path} {name : Text}
    (hname : name ∈ t.names p) : Path.IsName name := by
  obtain ⟨entry, hentry, hlast⟩ := List.mem_filterMap.mp hname
  obtain ⟨-, hlast⟩ := Option.ite_none_right_eq_some.mp hlast
  exact h.known entry hentry name (List.mem_of_getLast? hlast)

theorem IsNormal.isName_of_mem_below (h : t.IsNormal) {p : Path} {way : List Text}
    {e : Entry} (hway : (way, e) ∈ t.below p) : ∀ s ∈ way, Path.IsName s := by
  obtain ⟨entry, hentry, hfound⟩ := List.mem_filterMap.mp hway
  obtain ⟨-, hfound⟩ := Option.ite_none_right_eq_some.mp hfound
  cases hfound
  exact fun s hs => h.known entry hentry s (List.mem_of_mem_drop hs)

end FileTree

namespace Glob

open MixinCss.Path (IsName IsStep extend)

/-! ## Names that are no patterns -/

/-- A name that is a pattern for itself alone. -/
structure IsPlain (s : Text) : Prop where
  literal : ∀ b ∈ s, isMeta b = false
  kept : unescape s = s

instance (s : Text) : Decidable (IsPlain s) :=
  decidable_of_iff (s.any isMeta = false ∧ unescape s = s)
    ⟨fun h => ⟨fun b hb => Bool.eq_false_iff.mpr (List.any_eq_false.mp h.1 b hb), h.2⟩,
      fun h => ⟨List.any_eq_false.mpr fun b hb => Bool.eq_false_iff.mp (h.literal b hb), h.kept⟩⟩

theorem IsPlain.isLiteral {s : Text} (h : IsPlain s) : isLiteral s = true := by
  obtain ⟨hliteral, -⟩ := h
  fun_induction Glob.isLiteral s with
  | case1 => rfl
  | case2 b rest hmeta => exact absurd hmeta (Bool.eq_false_iff.mp (hliteral b List.mem_cons_self))
  | case3 => rfl
  | case4 hmeta c more ih =>
    exact ih fun a ha => hliteral a (List.mem_cons_of_mem _ (List.mem_cons_of_mem _ ha))
  | case5 b rest hmeta hescape ih => exact ih fun a ha => hliteral a (List.mem_cons_of_mem _ ha)

theorem IsPlain.ne_stars {s : Text} (h : IsPlain s) : s ≠ utf8 "**" := by
  rintro rfl
  have hstar := h.literal (ascii '*') (by decide)
  exact absurd hstar (by decide)

/-! ## Backslashes -/

/-- Bytes in front of which a backslash is taken away. -/
def isEscapable (b : UInt8) : Bool := isMeta b || b = ascii ']' || b = ascii '\x7d'

/-- A slash is none of them. -/
theorem unescape_append_slash (a b : Text) :
    unescape (a ++ ascii '/' :: b) = unescape a ++ ascii '/' :: unescape b := by
  have hslash : unescape (ascii '/' :: b) = ascii '/' :: unescape b := by
    cases b with
    | nil => rfl
    | cons c more => rfl
  have hnot : (isMeta (ascii '/') || decide (ascii '/' = ascii ']') ||
      decide (ascii '/' = ascii '\x7d')) = false := by decide
  fun_induction unescape a with
  | case1 => exact hslash
  | case2 c =>
    rw [List.singleton_append, unescape, hnot, Bool.and_false, if_neg Bool.false_ne_true, hslash]
    rfl
  | case3 c d more hescape ih =>
    rw [List.cons_append, List.cons_append, unescape, if_pos hescape, ih]
    rfl
  | case4 c d more hescape ih =>
    rw [List.cons_append, List.cons_append, unescape, if_neg hescape, ← List.cons_append, ih]
    rfl

theorem unescape_sublist (s : Text) : (unescape s).Sublist s := by
  fun_induction unescape s with
  | case1 => exact List.Sublist.refl _
  | case2 b => exact List.Sublist.refl _
  | case3 b c more hescape ih => exact (ih.cons_cons c).cons b
  | case4 b c more hescape ih => exact ih.cons_cons b

/-- Where a backslash has been taken away, the byte behind it is left. -/
theorem unescape_eq_self_or (s : Text) :
    unescape s = s ∨ ∃ b ∈ unescape s, isEscapable b = true := by
  fun_induction unescape s with
  | case1 => exact .inl rfl
  | case2 b => exact .inl rfl
  | case3 b c more hescape ih =>
    rw [Bool.and_eq_true] at hescape
    exact .inr ⟨c, List.mem_cons_self, hescape.2⟩
  | case4 b c more hescape ih =>
    rcases ih with hsame | ⟨a, ha, hleft⟩
    · exact .inl (by rw [hsame])
    · exact .inr ⟨a, List.mem_cons_of_mem _ ha, hleft⟩

/-- A backslash that is taken away makes no other step of a name. -/
theorem isName_unescape {s : Text} (h : IsName s) : IsName (unescape s) := by
  have hstep : IsStep (unescape s) := fun hmem => h.step ((unescape_sublist s).subset hmem)
  rcases unescape_eq_self_or s with hsame | ⟨b, hb, hleft⟩
  · rwa [hsame]
  · -- Such a byte is in none of the other steps.
    have hother : ∀ t : Text, t.any isEscapable = false → unescape s ≠ t := by
      rintro t ht rfl
      exact List.any_eq_false.mp ht b hb hleft
    exact ⟨hstep, hother [] rfl, hother _ (by decide), hother _ (by decide)⟩

theorem unescape_join (steps : List Text) :
    unescape (Text.join [ascii '/'] steps) = Text.join [ascii '/'] (steps.map unescape) := by
  induction steps with
  | nil => rfl
  | cons s rest ih =>
    cases rest with
    | nil => rfl
    | cons next rest =>
      rw [Text.join_cons_cons, unescape_append_slash, ih]
      exact (Text.join_cons_cons _ _ _ _).symm

/-- Backslashes are taken away inside of the segments of a path. -/
theorem unescape_text (p : Path) :
    unescape p.text = Path.text ⟨p.rooted, p.segments.map unescape⟩ := by
  obtain ⟨rooted, segments⟩ := p
  cases rooted with
  | true =>
    have hslash := unescape_append_slash [] (Text.join [ascii '/'] segments)
    rw [unescape_join] at hslash
    exact hslash
  | false =>
    cases segments with
    | nil => decide
    | cons s rest => exact unescape_join (s :: rest)

theorem normal_map_unescape {p : Path} (h : p.Normal) :
    Path.Normal ⟨p.rooted, p.segments.map unescape⟩ := by
  -- Steps up stay what they are, and names stay names.
  have hkinds : ∀ s ∈ p.segments, (s = Path.up ∧ unescape s = Path.up) ∨
      (s ≠ Path.up ∧ IsName (unescape s)) := by
    intro s hs
    obtain ⟨hstep, hne, hhere⟩ := h.plain s hs
    by_cases hup : s = Path.up
    · subst hup
      exact .inl ⟨rfl, by decide⟩
    · exact .inr ⟨hup, isName_unescape ⟨hstep, hne, hhere, hup⟩⟩
  refine ⟨?_, ?_, ?_⟩
  · intro _ hmem
    obtain ⟨s, hs, rfl⟩ := List.mem_map.mp hmem
    rcases hkinds s hs with ⟨hs', hup⟩ | ⟨-, hname⟩
    · rw [hup, ← hs']
      exact h.plain s hs
    · exact ⟨hname.step, hname.nonempty, hname.notHere⟩
  · refine List.pairwise_map.mpr (h.ups.imp_of_mem fun {a b} ha hb hab hup => ?_)
    rcases hkinds b hb with ⟨hb, -⟩ | ⟨-, hname⟩
    · rw [hab hb]
      decide
    · exact absurd hup hname.notUp
  · intro hrooted hmem
    obtain ⟨s, hs, hup⟩ := List.mem_map.mp hmem
    rcases hkinds s hs with ⟨hs', -⟩ | ⟨-, hname⟩
    · exact h.down hrooted (hs' ▸ hs)
    · exact hname.notUp hup

/-! ## The base of a pattern -/

theorem lastLiteralSlash_slash (i : Nat) (found : Option Nat) (rest : Text) :
    lastLiteralSlash i found (ascii '/' :: rest) = lastLiteralSlash (i + 1) (some i) rest := by
  rw [lastLiteralSlash.eq_def]
  dsimp only
  rw [if_neg (by decide), if_pos rfl]

theorem lastLiteralSlash_ne_none {i : Nat} {found : Option Nat} (h : found ≠ none) (t : Text) :
    lastLiteralSlash i found t ≠ none := by
  fun_induction lastLiteralSlash i found t with
  | case1 => exact h
  | case2 => exact h
  | case3 i found rest hmeta ih => exact ih (Option.some_ne_none _)
  | case4 => exact h
  | case5 i found c more hmeta hslash ih => exact ih h
  | case6 i found b rest hmeta hslash hescape ih => exact ih h

/-- A slash is where it was found. -/
theorem lastLiteralSlash_eq_some {i n : Nat} {found : Option Nat} {t : Text}
    (h : lastLiteralSlash i found t = some n) :
    found = some n ∨ ∃ front back, t = front ++ ascii '/' :: back ∧ n = i + front.length := by
  fun_induction lastLiteralSlash i found t with
  | case1 => exact .inl h
  | case2 => exact .inl h
  | case3 i found rest hmeta ih =>
    rcases ih h with hfound | ⟨front, back, rfl, hn⟩
    · cases hfound
      exact .inr ⟨[], rest, rfl, rfl⟩
    · exact .inr ⟨ascii '/' :: front, back, rfl, by rw [hn, List.length_cons]; omega⟩
  | case4 => exact .inl h
  | case5 i found c more hmeta hslash ih =>
    rcases ih h with hfound | ⟨front, back, rfl, hn⟩
    · exact .inl hfound
    · refine .inr ⟨ascii '\\' :: c :: front, back, rfl, ?_⟩
      rw [hn, List.length_cons, List.length_cons]
      omega
  | case6 i found b rest hmeta hslash hescape ih =>
    rcases ih h with hfound | ⟨front, back, rfl, hn⟩
    · exact .inl hfound
    · exact .inr ⟨b :: front, back, rfl, by rw [hn, List.length_cons]; omega⟩

/-- The text of a path with segments, cut at the slashes. -/
theorem split_text {p : Path} (h : p.Normal) (hne : p.segments ≠ []) :
    Text.split (ascii '/') p.text = Path.withRoot p.rooted p.segments := by
  obtain ⟨rooted, segments⟩ := p
  rcases List.eq_nil_or_concat segments with hnil | ⟨init, last, hlast⟩
  · exact absurd hnil hne
  · rw [List.concat_eq_append] at hlast
    subst hlast
    rw [Path.text_concat, Path.split_lead h.forall_mem_withRoot h.isStep_last]
    cases rooted with
    | true => rfl
    | false => rfl

/-- What stands in front of a slash in the text of a path is the text of the
    first segments, and what stands behind it the other segments. -/
theorem exists_front_of_slash {p : Path} (h : p.Normal) (hne : p.segments ≠ []) {a b : Text}
    (ha : a ≠ []) (htext : p.text = a ++ ascii '/' :: b) :
    ∃ front back, p.segments = front ++ back ∧ a = Path.text ⟨p.rooted, front⟩ ∧
      b = Text.join [ascii '/'] back := by
  have hsplit := split_text h hne
  rw [htext, Text.split_append_cons] at hsplit
  obtain ⟨first, more, hfirst⟩ := Text.exists_split_eq_cons (ascii '/') a
  have hjoin := Text.join_split (ascii '/') a
  have hb := (Text.join_split (ascii '/') b).symm
  rw [hfirst] at hsplit hjoin
  cases hrooted : p.rooted with
  | true =>
    rw [hrooted] at hsplit
    obtain ⟨rfl, hsegments⟩ := List.cons.inj hsplit
    refine ⟨more, _, hsegments.symm, ?_, hb⟩
    cases more with
    | nil => exact absurd hjoin.symm ha
    | cons next rest =>
      rw [← hjoin, Text.join_cons_cons]
      rfl
  | false =>
    rw [hrooted] at hsplit
    exact ⟨first :: more, _, hsplit.symm, hjoin.symm, hb⟩

/-- A pattern is cut at a slash of its own, so the segments in front of it make
    the base and those behind it the rest. -/
theorem splitBase_text {p : Path} (h : p.Normal) (hne : p.segments ≠ []) :
    ∃ front back, p.segments = front ++ back ∧
      Path.ofText (splitBase p.text).1 = ⟨p.rooted, front.map unescape⟩ ∧
      (splitBase p.text).2 = Text.join [ascii '/'] back := by
  have hnonempty : p.segments.isEmpty = false := List.isEmpty_eq_false_iff.mpr hne
  rw [splitBase]
  cases hslash : lastLiteralSlash 0 none p.text with
  | none =>
    -- The slash of a rooted path would have been found.
    have hrooted : p.rooted = false := by
      cases hrooted : p.rooted with
      | false => rfl
      | true =>
        have hfound : lastLiteralSlash 0 none p.text =
            lastLiteralSlash 1 (some 0) (Text.join [ascii '/'] p.segments) := by
          rw [Path.text, hrooted]
          exact lastLiteralSlash_slash 0 none _
        exact absurd (hfound.symm.trans hslash)
          (lastLiteralSlash_ne_none (Option.some_ne_none 0) _)
    refine ⟨[], p.segments, rfl, ?_, ?_⟩
    · rw [hrooted]
      show Path.ofText (utf8 ".") = ⟨false, []⟩
      decide
    · show p.text = _
      rw [Path.text, hrooted, hnonempty]
      rfl
  | some n =>
    obtain hnone | ⟨a, b, htext, hn⟩ := lastLiteralSlash_eq_some hslash
    · cases hnone
    rw [Nat.zero_add] at hn
    cases n with
    | zero =>
      -- The slash is the root: no segment in front of it could be empty.
      obtain rfl := List.eq_nil_of_length_eq_zero hn.symm
      rw [List.nil_append] at htext
      have hsplit := split_text h hne
      rw [htext, Text.split_cons_self] at hsplit
      cases hrooted : p.rooted with
      | true =>
        rw [hrooted] at hsplit
        refine ⟨[], p.segments, rfl, ?_, ?_⟩
        · show Path.ofText (utf8 "/") = ⟨true, []⟩
          decide
        · rw [← (List.cons.inj hsplit).2, Text.join_split]
          show p.text.drop 1 = b
          rw [htext]
          rfl
      | false =>
        rw [hrooted] at hsplit
        have hfirst : [] ∈ p.segments := by
          rw [← show _ = p.segments from hsplit]
          exact List.mem_cons_self
        exact absurd rfl (h.plain [] hfirst).2.1
    | succ n =>
      have ha : a ≠ [] := List.ne_nil_of_length_pos (by omega)
      obtain ⟨front, back, hsegments, hfront, hrest⟩ := exists_front_of_slash h hne ha htext
      have hwhole : Path.Normal ⟨p.rooted, front ++ back⟩ := by
        rw [← hsegments]
        exact h
      refine ⟨front, back, hsegments, ?_, ?_⟩
      · show Path.ofText (unescape (p.text.take (n + 1))) = _
        rw [htext, hn, List.take_left, hfront, unescape_text]
        exact (normal_map_unescape hwhole.of_append).text_spells.1
      · show p.text.drop (n + 1 + 1) = _
        rw [htext, hn, ← hrest, List.drop_length_add_append]
        rfl

/-! ## Alternatives -/

theorem lastBrace?_eq_some {t behind before : Text} (h : lastBrace? t = some (behind, before)) :
    t = behind ++ ascii '\x7d' :: before := by
  fun_induction lastBrace? t generalizing behind before with
  | case1 => cases h
  | case2 b rest hbrace =>
    cases h
    rw [Bool.and_eq_true, decide_eq_true_eq] at hbrace
    rw [hbrace.1]
    rfl
  | case3 b rest hbrace ih =>
    obtain ⟨⟨behind, before⟩, hrest, hpair⟩ := Option.map_eq_some_iff.mp h
    cases hpair
    rw [ih hrest]
    rfl

theorem openingBrace?_eq_some {depth : Nat} {t inner before : Text}
    (h : openingBrace? depth t = some (inner, before)) :
    t = inner ++ ascii '\x7b' :: before := by
  induction t generalizing depth inner before with
  | nil => cases h
  | cons b rest ih =>
    -- Every byte but the brace itself is put in front of what is found behind it.
    have hfurther : ∀ {next : Nat}, (openingBrace? next rest).map
        (fun found => (b :: found.1, found.2)) = some (inner, before) →
        b :: rest = inner ++ ascii '\x7b' :: before := by
      intro next hmap
      obtain ⟨⟨found, before⟩, hrest, hpair⟩ := Option.map_eq_some_iff.mp hmap
      cases hpair
      rw [ih hrest]
      rfl
    rw [openingBrace?] at h
    dsimp only at h
    split at h
    · exact hfurther h
    · split at h
      · rename_i hopening
        split at h
        · cases h
          rw [Bool.and_eq_true, decide_eq_true_eq] at hopening
          rw [hopening.1]
          rfl
        · exact hfurther h
      · exact hfurther h

theorem lastPair?_eq_some {pattern front inner behind : Text}
    (h : lastPair? pattern = some (front, inner, behind)) :
    pattern = front ++ ascii '\x7b' :: (inner ++ ascii '\x7d' :: behind) := by
  obtain ⟨⟨last, before⟩, hlast, h⟩ := Option.bind_eq_some_iff.mp h
  obtain ⟨⟨between, start⟩, hopening, h⟩ := Option.bind_eq_some_iff.mp h
  cases h
  have hreverse := lastBrace?_eq_some hlast
  rw [openingBrace?_eq_some hopening] at hreverse
  have htext := congrArg List.reverse hreverse
  rw [List.reverse_reverse] at htext
  rw [htext]
  simp

/-- Pairs of braces open behind a text without an opening one. -/
theorem exists_front_of_lastPair? {head tail front inner behind : Text}
    (hhead : ascii '\x7b' ∉ head) (h : lastPair? (head ++ tail) = some (front, inner, behind)) :
    ∃ more, front = head ++ more := by
  rcases List.append_eq_append_iff.mp (lastPair?_eq_some h) with
    ⟨more, hfront, -⟩ | ⟨more, hmore, hrest⟩
  · exact ⟨more, hfront⟩
  · -- Otherwise the brace would be in `head`.
    cases more with
    | nil => exact ⟨[], by rw [hmore, List.append_nil, List.append_nil]⟩
    | cons c more =>
      obtain ⟨rfl, -⟩ := List.cons.inj hrest
      refine absurd ?_ hhead
      rw [hmore]
      exact List.mem_append_right _ List.mem_cons_self

theorem exists_of_mem_expandWithin {head : Text} (hhead : ascii '\x7b' ∉ head) {fuel : Nat}
    {tail alternative : Text} (h : alternative ∈ expandWithin fuel (head ++ tail)) :
    ∃ more, alternative = head ++ more := by
  induction fuel generalizing tail with
  | zero => exact ⟨tail, List.mem_singleton.mp h⟩
  | succ fuel ih =>
    rw [expandWithin] at h
    split at h
    · exact ⟨tail, List.mem_singleton.mp h⟩
    · rename_i front inner behind hpair
      obtain ⟨part, -, hpart⟩ := List.mem_flatMap.mp h
      obtain ⟨more, rfl⟩ := exists_front_of_lastPair? hhead hpair
      rw [List.append_assoc, List.append_assoc] at hpart
      exact ih hpart

theorem expandWithin_of_not_mem {pattern : Text} (h : ascii '\x7b' ∉ pattern) (fuel : Nat) :
    expandWithin fuel pattern = [pattern] := by
  cases fuel with
  | zero => rfl
  | succ fuel =>
    rw [expandWithin]
    split
    · rfl
    · rename_i front inner behind hpair
      refine absurd ?_ h
      rw [lastPair?_eq_some hpair]
      exact List.mem_append_right _ List.mem_cons_self

theorem IsPlain.brace_not_mem {s : Text} (h : IsPlain s) : ascii '\x7b' ∉ s := by
  intro hmem
  have hmeta := h.literal _ hmem
  exact absurd hmeta (by decide)

theorem brace_not_mem_lead {names : List Text} (h : ∀ s ∈ names, IsPlain s) :
    ascii '\x7b' ∉ Path.lead names := by
  intro hmem
  obtain ⟨s, hs, hmem⟩ := List.mem_flatMap.mp hmem
  rcases List.mem_append.mp hmem with hmem | hmem
  · exact (h s hs).brace_not_mem hmem
  · exact absurd hmem (by decide)

/-- Plain names at the start of a pattern are at the start of all that it stands
    for. -/
theorem exists_split_of_mem_expand {names rest : List Text} (hplain : ∀ s ∈ names, IsPlain s)
    (hsteps : ∀ s ∈ names, IsStep s) {alternative : Text}
    (h : alternative ∈ expand (Text.join [ascii '/'] (names ++ rest))) :
    ∃ more, Text.split (ascii '/') alternative = names ++ more := by
  by_cases hrest : rest = []
  · subst hrest
    rw [List.append_nil] at h
    rcases List.eq_nil_or_concat names with rfl | ⟨init, last, hlast⟩
    · exact ⟨_, rfl⟩
    · rw [List.concat_eq_append] at hlast
      subst hlast
      obtain ⟨hinit, hlast⟩ := List.forall_mem_append.mp hplain
      obtain ⟨hinitSteps, hlastStep⟩ := List.forall_mem_append.mp hsteps
      rw [List.forall_mem_singleton] at hlast hlastStep
      rw [Text.join_concat] at h
      change alternative ∈ expand (Path.lead init ++ last) at h
      have hbrace : ascii '\x7b' ∉ Path.lead init ++ last := by
        rw [List.mem_append, not_or]
        exact ⟨brace_not_mem_lead hinit, hlast.brace_not_mem⟩
      rw [expand, expandWithin_of_not_mem hbrace, List.mem_singleton] at h
      rw [h, Path.split_lead hinitSteps hlastStep]
      exact ⟨[], (List.append_nil _).symm⟩
  · rw [Path.join_append hrest] at h
    obtain ⟨more, rfl⟩ := exists_of_mem_expandWithin (brace_not_mem_lead hplain) h
    exact ⟨_, Path.split_lead_append hsteps more⟩

/-! ## Descents -/

variable {t : FileTree}

/-- A descent goes along names of the tree. -/
theorem isWithin_of_mem_descend (ht : t.IsNormal) {literal : Bool} {place q : Path}
    {segments : List Text} (h : q ∈ descend t literal place segments) : q.IsWithin place := by
  induction segments generalizing literal place with
  | nil =>
    cases List.mem_singleton.mp h
    exact .refl q
  | cons segment rest ih =>
    rw [descend] at h
    split at h
    · -- Two stars: the descent goes on from here and from all that is below.
      split at h
      · obtain ⟨start, hstart, hq⟩ := List.mem_flatMap.mp h
        refine (ih hq).trans ?_
        rcases List.mem_cons.mp hstart with rfl | hstart
        · exact .refl start
        · obtain ⟨⟨way, e⟩, hway, rfl⟩ := List.mem_map.mp hstart
          exact ⟨way, ht.isName_of_mem_below hway, rfl⟩
      · cases h
    · obtain ⟨name, hname, hq⟩ := List.mem_flatMap.mp h
      have hstep := ht.isName_of_mem_names (List.mem_filter.mp hname).1
      exact (ih hq).trans ⟨[name], List.forall_mem_singleton.mpr hstep, rfl⟩

/-- Plain names are followed as they stand. -/
theorem mem_descend_of_isPlain {place q : Path} {names rest : List Text}
    (hplain : ∀ s ∈ names, IsPlain s) (h : q ∈ descend t true place (names ++ rest)) :
    q ∈ descend t true (place.extend names) rest := by
  induction names generalizing place with
  | nil => rwa [Path.extend_nil]
  | cons s names ih =>
    obtain ⟨hs, hnames⟩ := List.forall_mem_cons.mp hplain
    rw [List.cons_append, descend, if_neg hs.ne_stars, hs.isLiteral] at h
    obtain ⟨name, hname, hq⟩ := List.mem_flatMap.mp h
    have hsame : name = s := by
      rw [← hs.kept]
      simpa using (List.mem_filter.mp hname).2
    have hdone := ih hnames hq
    rwa [hsame, child, ← extend, Path.extend_extend] at hdone

/-! ## Paths of a pattern -/

/-- A pattern that is joined to a directory with plain names leads to nothing
    outside of that directory. -/
theorem exists_isWithin_of_mem_paths? (ht : t.IsNormal) {directory : Path} {names : List Text}
    (hdirectory : directory.Normal) (hplain : ∀ s ∈ directory.segments, IsPlain s)
    (hnames : ∀ s ∈ names, IsName s) {pattern : Text}
    (hpattern : Path.ofText pattern = directory.extend names) {paths : List Text}
    (h : paths? t pattern = some paths) {file : Text} (hfile : file ∈ paths) :
    ∃ q : Path, q.IsWithin directory ∧ file = q.text := by
  have hnormal : (directory.extend names).Normal := hdirectory.extend hnames
  have hkept : directory.segments.map unescape = directory.segments := by
    rw [List.map_congr_left fun s hs => (hplain s hs).kept, List.map_id']
  have hunescaped : ∀ front : List Text, (∀ s ∈ front, IsName s) →
      Path.IsWithin ⟨directory.rooted, (directory.segments ++ front).map unescape⟩ directory := by
    intro front hfront
    refine ⟨front.map unescape, ?_, ?_⟩
    · intro _ hmem
      obtain ⟨s, hs, rfl⟩ := List.mem_map.mp hmem
      exact isName_unescape (hfront s hs)
    · rw [List.map_append, hkept]
      rfl
  rw [paths?, Path.clean, hpattern] at h
  dsimp only at h
  split at h
  · -- The pattern is the directory or, at the top, a root or a step up.
    split at h
    · cases h
    · cases h
      split at hfile
      · refine ⟨_, hunescaped names hnames, ?_⟩
        rw [List.mem_singleton.mp hfile, unescape_text, (normal_map_unescape hnormal).text_spells.1]
        rfl
      · cases hfile
  · rename_i hrest
    have hne : (directory.extend names).segments ≠ [] := by
      intro hnil
      have htext : ∀ p : Path, p.segments = [] →
          (splitBase p.text).2 = [] ∨ (splitBase p.text).2 = utf8 "." := by
        rintro ⟨rooted, _⟩ rfl
        cases rooted with
        | true => exact .inl (by decide)
        | false => exact .inr (by decide)
      rcases htext _ hnil with hempty | hhere
      · exact hrest (.inl hempty)
      · exact hrest (.inr (.inl hhere))
    split at h
    · cases h
    · cases h
      obtain ⟨front, back, hsegments, hbase, hback⟩ := splitBase_text hnormal hne
      rw [hbase, hback] at hfile
      obtain ⟨alternative, halternative, hfile⟩ := List.mem_flatMap.mp hfile
      obtain ⟨q, hq, rfl⟩ := List.mem_map.mp hfile
      refine ⟨q, ?_, rfl⟩
      -- The slash stands behind the directory or inside of it.
      rcases List.append_eq_append_iff.mp hsegments with ⟨more, rfl, hmore⟩ | ⟨more, hmore, rfl⟩
      · rw [hmore, List.forall_mem_append] at hnames
        exact (isWithin_of_mem_descend ht hq).trans (hunescaped more hnames.1)
      · -- The other names of the directory are in the part that is expanded and
        -- followed; being plain, they are followed as they stand.
        have hsteps : ∀ s ∈ directory.segments, IsStep s := fun s hs => (hdirectory.plain s hs).1
        rw [hmore, List.forall_mem_append] at hplain hsteps
        rw [hmore, List.map_append] at hkept
        obtain ⟨following, hsplit⟩ := exists_split_of_mem_expand hplain.2 hsteps.2 halternative
        rw [hsplit, (List.append_inj hkept (List.length_map _)).1] at hq
        have hdone := isWithin_of_mem_descend ht (mem_descend_of_isPlain hplain.2 hq)
        rwa [extend, ← hmore] at hdone

end Glob

end MixinCss
