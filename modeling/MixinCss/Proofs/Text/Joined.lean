/-
  MixinCss.Proofs.Text.Joined

  Texts put together with a text between them, and lines, each of which is ended
  by a line feed.
-/

import MixinCss.Text.Basic

namespace MixinCss.Text

theorem join_cons_cons (sep : UInt8) (part next : Text) (rest : List Text) :
    join [sep] (part :: next :: rest) = part ++ sep :: join [sep] (next :: rest) :=
  List.append_assoc _ _ _

theorem join_cons (sep part : Text) {parts : List Text} (h : parts ≠ []) :
    join sep (part :: parts) = part ++ sep ++ join sep parts := by
  obtain ⟨next, more, rfl⟩ := List.exists_cons_of_ne_nil h
  rfl

theorem join_append (sep : Text) {front back : List Text} (hfront : front ≠ [])
    (hback : back ≠ []) : join sep (front ++ back) = join sep front ++ sep ++ join sep back := by
  induction front with
  | nil => exact absurd rfl hfront
  | cons part parts ih =>
    by_cases hparts : parts = []
    · subst hparts
      exact join_cons sep part hback
    · have hmore : parts ++ back ≠ [] := List.append_ne_nil_of_left_ne_nil hparts back
      rw [List.cons_append, join_cons sep part hmore, ih hparts, join_cons sep part hparts]
      simp only [List.append_assoc]

theorem lines_cons (l : Text) (rest : List Text) :
    lines (l :: rest) = l ++ ascii '\n' :: lines rest := by
  rw [lines, List.flatMap_cons, List.append_assoc, List.singleton_append]
  rfl

theorem lines_append (front back : List Text) : lines (front ++ back) = lines front ++ lines back :=
  List.flatMap_append

/-- Lines with line feeds between them lack the last line feed only. -/
theorem join_append_newline {ls : List Text} (h : ls ≠ []) :
    join [ascii '\n'] ls ++ [ascii '\n'] = lines ls := by
  induction ls with
  | nil => exact absurd rfl h
  | cons l rest ih =>
    cases rest with
    | nil => rw [join_singleton, lines_cons, lines, List.flatMap_nil]
    | cons next rest =>
      rw [join_cons_cons, List.append_assoc, List.cons_append, ih (List.cons_ne_nil _ _),
        ← lines_cons]

end MixinCss.Text
