/-
  MixinCss.Proofs.Sheet.Associativity

  Nesting selectors is associative: a selector is put into the one around it, and
  the outcome into the next one, or the two outer ones are put together first
  (`Selector.substitute_assoc`).

  The outcome of a replacement is a list again, and it is cut into exactly the
  parts that were put together (`Selector.alternatives_substitute`): brackets are
  closed in each of them, so that no comma comes to stand outside, and none of
  them begins or ends with white space.
-/

import MixinCss.Proofs.Sheet.Nesting

namespace MixinCss

namespace Selector

/-! ## Closed brackets -/

/-- The count of open parentheses and brackets begins with `depth`, never falls
    below zero, and ends with zero. -/
def ClosedFrom (depth : Int) : Text → Prop
  | [] => depth = 0
  | b :: rest => 0 ≤ depth + byteNesting b ∧ ClosedFrom (depth + byteNesting b) rest

instance ClosedFrom.decidable : (depth : Int) → (t : Text) → Decidable (ClosedFrom depth t)
  | depth, [] => inferInstanceAs (Decidable (depth = 0))
  | depth, b :: rest =>
    have := ClosedFrom.decidable (depth + byteNesting b) rest
    inferInstanceAs (Decidable (_ ∧ _))

theorem ClosedFrom.level {depth : Int} {t : Text} (h : ClosedFrom depth t) :
    depth + byteLevel t = 0 := by
  induction t generalizing depth with
  | nil => rw [byteLevel, Int.add_zero]; exact h
  | cons b rest ih => rw [byteLevel, ← Int.add_assoc]; exact ih h.2

/-- What is closed may stand in brackets that are closed later. -/
theorem ClosedFrom.append {depth inner : Int} (hdepth : 0 ≤ depth) {x y : Text}
    (hx : ClosedFrom inner x) (hy : ClosedFrom depth y) : ClosedFrom (depth + inner) (x ++ y) := by
  induction x generalizing inner with
  | nil =>
    obtain rfl : inner = 0 := hx
    rwa [Int.add_zero]
  | cons b rest ih =>
    rw [List.cons_append, ClosedFrom, Int.add_assoc]
    exact ⟨Int.add_nonneg hdepth hx.1, ih hx.2⟩

/-- Commas that are inside of brackets are so inside of more brackets. -/
theorem CommasInside.deeper {depth inner : Int} (hdepth : 0 ≤ depth) (hinner : 0 ≤ inner)
    {x : Text} (hclosed : ClosedFrom inner x) (h : CommasInside inner x) :
    CommasInside (depth + inner) x := by
  induction x generalizing inner with
  | nil => trivial
  | cons b rest ih =>
    rw [CommasInside, Int.add_assoc]
    refine ⟨fun hcomma => ?_, ih hclosed.1 hclosed.2 h.2⟩
    have := h.1 hcomma
    omega

theorem ClosedFrom.of_append_right {depth : Int} {x y : Text} (h : ClosedFrom depth (x ++ y)) :
    ClosedFrom (depth + byteLevel x) y := by
  induction x generalizing depth with
  | nil => rwa [byteLevel, Int.add_zero]
  | cons b rest ih => rw [byteLevel, ← Int.add_assoc]; exact ih h.2

theorem ClosedFrom.of_append_left {depth : Int} {x y : Text} (hy : byteLevel y = 0)
    (h : ClosedFrom depth (x ++ y)) : ClosedFrom depth x := by
  induction x generalizing depth with
  | nil =>
    have hlevel := h.level
    rwa [List.nil_append, hy, Int.add_zero] at hlevel
  | cons b rest ih => exact ⟨h.1, ih h.2⟩

theorem CommasInside.of_append {depth : Int} {x y : Text} (h : CommasInside depth (x ++ y)) :
    CommasInside depth x ∧ CommasInside (depth + byteLevel x) y := by
  induction x generalizing depth with
  | nil => exact ⟨trivial, by rwa [byteLevel, Int.add_zero]⟩
  | cons b rest ih =>
    obtain ⟨hx, hy⟩ := ih h.2
    rw [byteLevel, ← Int.add_assoc]
    exact ⟨⟨h.1, hx⟩, hy⟩

/-- The parts of a closed text are closed, and have no comma to cut at. -/
theorem closed_of_cut {depth : Int} {t : Text} (h : ClosedFrom depth t) :
    ∃ part parts, cut depth t = part :: parts ∧
      (ClosedFrom depth part ∧ CommasInside depth part) ∧
      ∀ x ∈ parts, ClosedFrom 0 x ∧ CommasInside 0 x := by
  induction t generalizing depth with
  | nil => exact ⟨[], [], rfl, ⟨h, trivial⟩, List.forall_mem_nil _⟩
  | cons b rest ih =>
    obtain ⟨part, parts, hparts, hpart, hrest⟩ := ih h.2
    rw [cut_cons]
    split
    · rename_i hcomma
      obtain ⟨rfl, rfl⟩ := hcomma
      exact ⟨[], part :: parts, congrArg ([] :: ·) hparts, ⟨rfl, trivial⟩,
        List.forall_mem_cons.mpr ⟨hpart, hrest⟩⟩
    · rename_i hcomma
      refine ⟨b :: part, parts, by rw [hparts]; rfl, ⟨⟨h.1, hpart.1⟩, ?_, hpart.2⟩, hrest⟩
      exact fun hb hdepth => hcomma ⟨hb, hdepth⟩

/-! ## Lists of selectors and their parts -/

/-- A selector that is one part of a list. -/
structure IsPart (t : Text) : Prop where
  utf8 : t.isUtf8 = true
  closed : ClosedFrom 0 t
  commas : CommasInside 0 t
  trimmed : t.Trimmed
  nonempty : t ≠ []

/-- A list of selectors: well-formed text in which brackets are closed and no
    part is empty. -/
structure IsList (t : Text) : Prop where
  utf8 : t.isUtf8 = true
  closed : ClosedFrom 0 t
  nonempty : [] ∉ alternatives t

theorem isUtf8_of_mem_join {parts : List Text}
    (h : (Text.join [ascii ','] parts).isUtf8 = true) : ∀ part ∈ parts, part.isUtf8 = true := by
  induction parts with
  | nil => exact List.forall_mem_nil _
  | cons part rest ih =>
    cases rest with
    | nil => exact List.forall_mem_singleton.mpr h
    | cons next rest =>
      have hjoin : Text.join [ascii ','] (part :: next :: rest) =
          part ++ ascii ',' :: Text.join [ascii ','] (next :: rest) := List.append_assoc _ _ _
      rw [hjoin, Text.isUtf8_iff, Text.runes_append (Text.seam_of_ascii (by decide) _ _),
        Text.runes_of_ascii (by decide), List.forall_mem_append, List.forall_mem_cons] at h
      exact List.forall_mem_cons.mpr ⟨Text.isUtf8_iff.mpr h.1, ih (Text.isUtf8_iff.mpr h.2.2)⟩

/-- White space is no byte that matters to lists. -/
theorem isPlain_of_space {t : Text}
    (h : ∀ b ∈ t, 0x80 ≤ b ∨ isSpaceCode b.toNat = true) : Lexer.IsPlain t := by
  intro b hb hmark
  simp only [Lexer.listMarks, List.mem_cons, List.not_mem_nil, or_false] at hmark
  have hspace := h b hb
  rcases hmark with rfl | rfl | rfl | rfl | rfl | rfl <;> exact absurd hspace (by decide)

/-- Trimming keeps brackets and commas. -/
theorem closed_trim {t : Text} (hclosed : ClosedFrom 0 t) (hcommas : CommasInside 0 t) :
    ClosedFrom 0 t.trim ∧ CommasInside 0 t.trim := by
  obtain ⟨lead, trail, hspace, heq⟩ := Text.exists_eq_trim t
  rw [List.forall_mem_append] at hspace
  have hlead := (commasInside_of_isPlain (isPlain_of_space hspace.1) 0).2
  have htrail := (commasInside_of_isPlain (isPlain_of_space hspace.2) 0).2
  rw [heq] at hclosed hcommas
  have hclosed := hclosed.of_append_right
  have hcommas := hcommas.of_append.2
  rw [hlead, Int.add_zero] at hclosed hcommas
  exact ⟨hclosed.of_append_left htrail, hcommas.of_append.1⟩

theorem IsList.isPart {t : Text} (h : IsList t) {part : Text} (hpart : part ∈ alternatives t) :
    IsPart part := by
  have hnonempty : part ≠ [] := fun hnil => h.nonempty (hnil ▸ hpart)
  obtain ⟨raw, hraw, rfl⟩ := List.mem_map.mp hpart
  have hutf8 : raw.isUtf8 = true :=
    isUtf8_of_mem_join (by rw [join_cut]; exact h.utf8) raw hraw
  obtain ⟨first, more, hcut, hfirst, hmore⟩ := closed_of_cut h.closed
  rw [hcut] at hraw
  have hall : ∀ x ∈ first :: more, ClosedFrom 0 x ∧ CommasInside 0 x :=
    List.forall_mem_cons.mpr ⟨hfirst, hmore⟩
  obtain ⟨hclosed, hcommas⟩ := hall raw hraw
  obtain ⟨hclosed, hcommas⟩ := closed_trim hclosed hcommas
  exact ⟨Text.isUtf8_trim hutf8, hclosed, hcommas, Text.trimmed_trim hutf8, hnonempty⟩

theorem alternatives_nil : alternatives [] = [[]] := by
  rw [alternatives, cut, List.map_singleton, Text.trim, Text.runes]
  rfl

theorem IsList.ne_nil {t : Text} (h : IsList t) : t ≠ [] := by
  rintro rfl
  have hnonempty := h.nonempty
  rw [alternatives_nil] at hnonempty
  exact hnonempty List.mem_cons_self

/-! ## Parts joined to a list -/

theorem cut_join {part : Text} {parts : List Text} (h : ∀ p ∈ part :: parts, IsPart p) :
    cut 0 (Text.join (utf8 ", ") (part :: parts)) = part :: parts.map (ascii ' ' :: ·) := by
  induction parts generalizing part with
  | nil =>
    have hpart := h part List.mem_cons_self
    have hcut := cut_append hpart.commas []
    rw [List.append_nil, hpart.closed.level] at hcut
    rw [Text.join_singleton, hcut, cut, List.modifyHead_cons, List.append_nil, List.map_nil]
  | cons next parts ih =>
    rw [List.forall_mem_cons] at h
    have hjoin : Text.join (utf8 ", ") (part :: next :: parts) =
        part ++ ascii ',' :: ascii ' ' :: Text.join (utf8 ", ") (next :: parts) :=
      List.append_assoc _ _ _
    have hspace : (0 : Int) + byteNesting (ascii ' ') = 0 := by decide
    rw [hjoin, cut_append h.1.commas, h.1.closed.level, cut_cons, if_pos ⟨rfl, rfl⟩, cut_cons,
      if_neg (by decide), hspace, ih h.2, List.modifyHead_cons, List.modifyHead_cons,
      List.append_nil, List.map_cons]

theorem IsPart.trim {t : Text} (h : IsPart t) : t.trim = t := by
  have htrim := Text.trim_spaces h.trimmed (List.forall_mem_nil _) (List.forall_mem_nil _)
  rwa [List.nil_append, List.append_nil] at htrim

/-- A list is cut into the parts that were joined to it. -/
theorem alternatives_join {parts : List Text} (hne : parts ≠ []) (h : ∀ p ∈ parts, IsPart p) :
    alternatives (Text.join (utf8 ", ") parts) = parts := by
  obtain ⟨part, more, rfl⟩ := List.exists_cons_of_ne_nil hne
  rw [alternatives, cut_join h, List.map_cons, List.map_map, (h part List.mem_cons_self).trim]
  congr 1
  refine (List.map_congr_left fun p hp => ?_).trans (List.map_id more)
  have hspace : ∀ b ∈ [ascii ' '], b = ascii ' ' := List.forall_mem_singleton.mpr rfl
  have htrim := Text.trim_spaces (h p (List.mem_cons_of_mem _ hp)).trimmed hspace
    (List.forall_mem_nil _)
  rwa [List.append_nil] at htrim

/-! ## Parts put into parts -/

/-- Brackets stay closed, and no comma comes to stand outside of them, where a
    part is put for `&`. -/
theorem closed_replaceByte {p : Text} (hp : ClosedFrom 0 p) (hpcommas : CommasInside 0 p)
    {depth : Int} (hdepth : 0 ≤ depth) {s : Text} (hs : ClosedFrom depth s)
    (hscommas : CommasInside depth s) :
    ClosedFrom depth (s.replaceByte parentMark p) ∧
      CommasInside depth (s.replaceByte parentMark p) := by
  induction s generalizing depth with
  | nil => exact ⟨hs, trivial⟩
  | cons b rest ih =>
    obtain ⟨hclosed, hcommas⟩ := ih hs.1 hs.2 hscommas.2
    rw [Text.replaceByte_cons]
    split
    · rename_i hb
      have hlevel : depth + byteNesting b = depth := by rw [hb]; exact Int.add_zero depth
      rw [hlevel] at hclosed hcommas
      have hput := hp.append hdepth hclosed
      have hdeep := hpcommas.deeper hdepth (Int.le_refl 0) hp
      rw [Int.add_zero] at hput hdeep
      refine ⟨hput, commasInside_append hdeep ?_⟩
      have hzero := hp.level
      rw [Int.zero_add] at hzero
      rwa [hzero, Int.add_zero]
    · exact ⟨⟨hs.1, hclosed⟩, hscommas.1, hcommas⟩

theorem IsPart.replaceByte {s p : Text} (hs : IsPart s) (hp : IsPart p) :
    IsPart (s.replaceByte parentMark p) := by
  have hmark : parentMark < 0x80 := by decide
  obtain ⟨hclosed, hcommas⟩ :=
    closed_replaceByte hp.closed hp.commas (Int.le_refl 0) hs.closed hs.commas
  refine ⟨Text.isUtf8_replaceByte hmark hs.utf8 hp.utf8, hclosed, hcommas,
    Text.trimmed_replaceByte hmark hs.utf8 hp.utf8 hs.trimmed hp.trimmed hp.nonempty, ?_⟩
  obtain ⟨b, rest, rfl⟩ := List.exists_cons_of_ne_nil hs.nonempty
  rw [Text.replaceByte_cons]
  refine List.append_ne_nil_of_left_ne_nil ?_ _
  split
  · exact hp.nonempty
  · exact List.cons_ne_nil _ _

theorem isPart_of_mem_combinations {s p : Text} (hs : IsList s) (hp : IsList p) :
    ∀ part ∈ combinations s p, IsPart part := by
  intro part hpart
  rcases mem_combinations.mp hpart with ⟨hmem, -⟩ | ⟨x, hx, -, y, hy, rfl⟩
  · exact hs.isPart hmem
  · exact (hs.isPart hx).replaceByte (hp.isPart hy)

theorem alternatives_ne_nil (t : Text) : alternatives t ≠ [] :=
  mt List.map_eq_nil_iff.mp (cut_ne_nil 0 t)

theorem combinations_ne_nil (s p : Text) : combinations s p ≠ [] := by
  obtain ⟨x, more, halternatives⟩ := List.exists_cons_of_ne_nil (alternatives_ne_nil s)
  rw [combinations, halternatives, List.flatMap_cons]
  refine List.append_ne_nil_of_left_ne_nil ?_ _
  by_cases hx : parentMark ∈ x
  · rw [combined_of_mem hx]
    exact mt List.map_eq_nil_iff.mp (alternatives_ne_nil p)
  · rw [combined_of_not_mem hx]
    exact List.cons_ne_nil _ _

/-- The parts of a selector that has been put into the one around it. -/
theorem alternatives_substitute {s p : Text} (hs : IsList s) (hp : IsList p) :
    alternatives (substitute s p) = combinations s p := by
  by_cases hmark : parentMark ∈ s
  · rw [substitute_of_mem hmark hp.ne_nil]
    exact alternatives_join (combinations_ne_nil s p) (isPart_of_mem_combinations hs hp)
  · -- No part has a `&`, so each of them is written as it is.
    rw [substitute_of_not_mem hmark, combinations]
    have hnone : ∀ x ∈ alternatives s, combined p x = [x] := fun x hx =>
      combined_of_not_mem (fun hmem => hmark ((exists_mem_alternatives_iff s).mp ⟨x, hx, hmem⟩)) p
    rw [List.flatMap_congr hnone, List.flatMap_singleton']

/-! ## Nesting twice -/

theorem replaceByte_replaceByte (s p q : Text) :
    (s.replaceByte parentMark p).replaceByte parentMark q =
      s.replaceByte parentMark (p.replaceByte parentMark q) := by
  induction s with
  | nil => rfl
  | cons b rest ih =>
    rw [Text.replaceByte_cons, Text.replaceByte_cons, Text.replaceByte_append, ih]
    congr 1
    split
    · rfl
    · rename_i hb
      exact Text.replaceByte_of_not_mem (fun hmem => hb (List.mem_singleton.mp hmem).symm) q

/-- A part that has been put into `s` is put together with what is around it, or
    is put together with it first. -/
theorem combined_replaceByte {s : Text} (hs : parentMark ∈ s) (p q : Text) :
    combined q (s.replaceByte parentMark p) =
      (combined q p).map fun x => s.replaceByte parentMark x := by
  by_cases hp : parentMark ∈ p
  · rw [combined_of_mem ((parentMark_mem_replaceByte hs p).mpr hp), combined_of_mem hp,
      List.map_map]
    exact List.map_congr_left fun x _ => replaceByte_replaceByte s p x
  · rw [combined_of_not_mem (mt (parentMark_mem_replaceByte hs p).mp hp), combined_of_not_mem hp,
      List.map_singleton]

theorem flatMap_combined {p q : Text} (hp : IsList p) (hq : IsList q) (s : Text) :
    (combined p s).flatMap (combined q) = combined (substitute p q) s := by
  by_cases hs : parentMark ∈ s
  · calc (combined p s).flatMap (combined q)
        = (alternatives p).flatMap fun x => combined q (s.replaceByte parentMark x) := by
          rw [combined_of_mem hs, List.flatMap_map]
      _ = (alternatives p).flatMap fun x =>
            (combined q x).map fun y => s.replaceByte parentMark y :=
          List.flatMap_congr fun x _ => combined_replaceByte hs x q
      _ = (combinations p q).map fun y => s.replaceByte parentMark y := by
          rw [combinations, List.map_flatMap]
      _ = combined (substitute p q) s := by
          rw [combined_of_mem hs, alternatives_substitute hp hq]
  · rw [combined_of_not_mem hs, combined_of_not_mem hs, List.flatMap_singleton,
      combined_of_not_mem hs]

/-- Three lists of selectors, each inside of the next one: it does not matter
    which two of them are put together first. -/
theorem substitute_assoc {s p q : Text} (hs : IsList s) (hp : IsList p) (hq : IsList q) :
    substitute (substitute s p) q = substitute s (substitute p q) := by
  by_cases hsmark : parentMark ∈ s
  case neg =>
    rw [substitute_of_not_mem hsmark, substitute_of_not_mem hsmark, substitute_of_not_mem hsmark]
  by_cases hpmark : parentMark ∈ p
  case neg =>
    -- Nothing is left to put `q` for.
    have hleft : parentMark ∉ substitute s p := fun hmem =>
      (parentMark_mem_substitute.mp hmem).2.elim hp.ne_nil hpmark
    rw [substitute_of_not_mem hpmark, substitute_of_not_mem hleft]
  have hmark : parentMark ∈ substitute s p :=
    parentMark_mem_substitute.mpr ⟨hsmark, .inr hpmark⟩
  have hne : substitute p q ≠ [] := by
    intro hnil
    have hparts := isPart_of_mem_combinations hp hq
    rw [← alternatives_substitute hp hq, hnil, alternatives_nil] at hparts
    exact (hparts [] List.mem_cons_self).nonempty rfl
  rw [substitute_of_mem hmark hq.ne_nil, substitute_of_mem hsmark hne, combinations,
    alternatives_substitute hs hp, combinations, List.flatMap_assoc, combinations]
  exact congrArg _ (List.flatMap_congr fun x _ => flatMap_combined hp hq x)

/-- Three levels of lists, with a repeated `&`, one in brackets and a part without
    any. -/
theorem substitute_assoc_of_lists :
    let s := utf8 "& > &, .c:not(&, .d)"
    let p := utf8 "&:hover , é &"
    let q := utf8 ".a,.b[x=\"(,)\"]"
    IsList s ∧ IsList p ∧ IsList q ∧
      substitute (substitute s p) q = substitute s (substitute p q) := by
  intro s p q
  have hs : IsList s := ⟨by decide +kernel, by decide +kernel, by decide +kernel⟩
  have hp : IsList p := ⟨by decide +kernel, by decide +kernel, by decide +kernel⟩
  have hq : IsList q := ⟨by decide +kernel, by decide +kernel, by decide +kernel⟩
  exact ⟨hs, hp, hq, substitute_assoc hs hp hq⟩

end Selector

end MixinCss
