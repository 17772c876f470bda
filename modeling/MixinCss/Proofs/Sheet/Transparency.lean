/-
  MixinCss.Proofs.Sheet.Transparency

  At-rules are transparent for `&`. A printed sheet is a list of lines; read from
  the top with a stack of the open rules, it tells for each declaration the
  nearest literal rule around it. This listing does not change if an at-rule
  inside of another rule is replaced by what it holds
  (`Sheet.listing_transparent`).
-/

import MixinCss.Proofs.Text.Joined
import MixinCss.Sheet.Render

namespace MixinCss

open Selector (substitute)

/-! ## Lines of a printed sheet -/

inductive PrintedLine where
  /-- The first line of a rule, and whether it is a literal one. -/
  | opening (depth : Nat) (literal : Bool) (selector : Text)
  | declaration (depth : Nat) (property value : Text)
  /-- The last line of a rule. -/
  | closing (depth : Nat)
  | blank

def PrintedLine.text : PrintedLine → Text
  | .opening depth _ selector => Node.indent depth ++ selector ++ utf8 " \x7b"
  | .declaration depth property value =>
    Node.indent depth ++ property ++ utf8 ": " ++ value ++ utf8 ";"
  | .closing depth => Node.indent depth ++ utf8 "\x7d"
  | .blank => []

namespace Node

mutual

/-- The lines of a member of a rule. -/
def lines (u : Units) (parent : Text) (depth : Nat) : Node → List PrintedLine
  | .declaration property value _ =>
    [.declaration depth property (value.render (u.ofProperty property))]
  | .rule selector children _ =>
    .opening depth (!isAtSelector selector) (writtenSelector selector parent) ::
      (linesAll u (innerParent selector parent) (depth + 1) children ++ [.closing depth])
  | .call .. | .nothing | .foreign _ => []

def linesAll (u : Units) (parent : Text) (depth : Nat) : List Node → List PrintedLine
  | [] => []
  | n :: rest => lines u parent depth n ++ linesAll u parent depth rest

end

mutual

theorem render_eq_lines (u : Units) (parent : Text) (depth : Nat) :
    ∀ n : Node, render u parent depth n =
      Text.lines ((lines u parent depth n).map PrintedLine.text)
  | .declaration property value pos => by
    rw [render, lines, List.map_singleton, Text.lines_cons, PrintedLine.text]
    simp only [List.append_assoc]
    rfl
  | .rule selector children pos => by
    rw [render, lines, List.map_cons, List.map_append, List.map_singleton, Text.lines_cons,
      Text.lines_append, Text.lines_cons, renderAll_eq_lines u _ _ children, PrintedLine.text,
      PrintedLine.text]
    simp only [List.append_assoc]
    rfl
  | .call .. => by rw [render, lines]; rfl
  | .nothing => by rw [render, lines]; rfl
  | .foreign _ => by rw [render, lines]; rfl

theorem renderAll_eq_lines (u : Units) (parent : Text) (depth : Nat) :
    ∀ nodes : List Node, renderAll u parent depth nodes =
      Text.lines ((linesAll u parent depth nodes).map PrintedLine.text)
  | [] => by rw [renderAll, linesAll]; rfl
  | n :: rest => by
    rw [renderAll, linesAll, List.map_append, Text.lines_append, render_eq_lines u parent depth n,
      renderAll_eq_lines u parent depth rest]

end

end Node

theorem Rule.lines_ne_nil (u : Units) (r : Rule) :
    (r.node.lines u [] 0).map PrintedLine.text ≠ [] := by
  rw [Rule.node, Node.lines, List.map_cons]
  exact List.cons_ne_nil _ _

theorem Rule.render_eq_lines (u : Units) (r : Rule) :
    r.render u = Text.join [ascii '\n'] ((r.node.lines u [] 0).map PrintedLine.text) := by
  rw [← List.append_left_inj [ascii '\n'], Text.join_append_newline (r.lines_ne_nil u),
    ← Node.render_eq_lines, Rule.render, Rule.node, Node.render]
  simp only [List.append_assoc]
  rfl

namespace Sheet

/-- The lines of a sheet, with a blank one between two rules. -/
def lines (u : Units) : Sheet → List PrintedLine
  | [] => []
  | [r] => r.node.lines u [] 0
  | r :: next :: rest => r.node.lines u [] 0 ++ .blank :: lines u (next :: rest)

theorem lines_ne_nil (u : Units) (r : Rule) (rest : Sheet) :
    (lines u (r :: rest)).map PrintedLine.text ≠ [] := by
  cases rest with
  | nil => exact r.lines_ne_nil u
  | cons next rest =>
    rw [lines, List.map_append]
    exact List.append_ne_nil_of_left_ne_nil (r.lines_ne_nil u) _

theorem render_eq_lines (u : Units) (sheet : Sheet) :
    sheet.render u = Text.join [ascii '\n'] ((sheet.lines u).map PrintedLine.text) := by
  induction sheet with
  | nil => rfl
  | cons r rest ih =>
    cases rest with
    | nil => exact r.render_eq_lines u
    | cons next rest =>
      have hrender : render u (r :: next :: rest) =
          r.render u ++ utf8 "\n\n" ++ render u (next :: rest) := rfl
      obtain ⟨l, ls, hls⟩ := List.exists_cons_of_ne_nil (lines_ne_nil u next rest)
      rw [hrender, ih, lines, List.map_append, List.map_cons,
        Text.join_append _ (r.lines_ne_nil u) (List.cons_ne_nil _ _), ← r.render_eq_lines, hls,
        Text.join_cons_cons, List.append_assoc, List.append_assoc]
      rfl

end Sheet

/-! ## Listings -/

/-- What a printed sheet says, at-rules apart. -/
inductive ListingEntry where
  /-- A literal rule with this selector. -/
  | rule (selector : Text)
  /-- A declaration, and the selector of the nearest literal rule around it. -/
  | declaration (owner : Option Text) (property value : Text)
deriving DecidableEq

def ListingEntry.rule? : ListingEntry → Option Text
  | .rule selector => some selector
  | .declaration .. => none

/-- Reads printed lines. Of the rules that are open, the innermost first, literal
    ones are kept with their selectors. -/
def listingFrom (around : List (Option Text)) : List PrintedLine → List ListingEntry
  | [] => []
  | .opening _ literal selector :: rest =>
    if literal then .rule selector :: listingFrom (some selector :: around) rest
    else listingFrom (none :: around) rest
  | .declaration _ property value :: rest =>
    .declaration (around.findSome? id) property value :: listingFrom around rest
  | .closing _ :: rest => listingFrom around.tail rest
  | .blank :: rest => listingFrom around rest

/-- The listing of a printed sheet. -/
def Sheet.listing (u : Units) (sheet : Sheet) : List ListingEntry := listingFrom [] (sheet.lines u)

namespace Node

mutual

/-- The entries of a member of a rule, where `owner` is the nearest literal rule
    around it. -/
def entries (u : Units) (parent : Text) (owner : Option Text) : Node → List ListingEntry
  | .declaration property value _ =>
    [.declaration owner property (value.render (u.ofProperty property))]
  | .rule selector children _ =>
    if isAtSelector selector then entriesAll u parent owner children
    else
      .rule (substitute selector parent) ::
        entriesAll u (substitute selector parent) (some (substitute selector parent)) children
  | .call .. | .nothing | .foreign _ => []

def entriesAll (u : Units) (parent : Text) (owner : Option Text) : List Node → List ListingEntry
  | [] => []
  | n :: rest => entries u parent owner n ++ entriesAll u parent owner rest

end

mutual

/-- The lines of a member are read as its entries, and all rules that they open
    are closed again. -/
theorem listingFrom_lines (u : Units) (parent : Text) (depth : Nat) (around : List (Option Text))
    (rest : List PrintedLine) :
    ∀ n : Node, listingFrom around (lines u parent depth n ++ rest) =
      entries u parent (around.findSome? id) n ++ listingFrom around rest
  | .declaration property value pos => by
    rw [lines, entries, List.singleton_append, listingFrom, List.singleton_append]
  | .rule selector children pos => by
    rw [lines, entries, List.cons_append, List.append_assoc, listingFrom, writtenSelector,
      innerParent]
    cases isAtSelector selector with
    | true =>
      rw [if_pos rfl, if_pos rfl, if_pos rfl, Bool.not_true, if_neg Bool.false_ne_true,
        listingFrom_linesAll u parent (depth + 1) (none :: around) _ children]
      rfl
    | false =>
      rw [if_neg Bool.false_ne_true, if_neg Bool.false_ne_true, if_neg Bool.false_ne_true,
        Bool.not_false, if_pos rfl,
        listingFrom_linesAll u _ (depth + 1) (some (substitute selector parent) :: around) _
          children]
      rfl
  | .call .. => by rw [lines, entries]; rfl
  | .nothing => by rw [lines, entries]; rfl
  | .foreign _ => by rw [lines, entries]; rfl

theorem listingFrom_linesAll (u : Units) (parent : Text) (depth : Nat)
    (around : List (Option Text)) (rest : List PrintedLine) :
    ∀ nodes : List Node, listingFrom around (linesAll u parent depth nodes ++ rest) =
      entriesAll u parent (around.findSome? id) nodes ++ listingFrom around rest
  | [] => by rw [linesAll, entriesAll]; rfl
  | n :: more => by
    rw [linesAll, entriesAll, List.append_assoc, listingFrom_lines u parent depth around _ n,
      listingFrom_linesAll u parent depth around rest more, List.append_assoc]

end

end Node

/-- The listing of a sheet is made of the entries of its rules. -/
theorem Sheet.listing_eq_entries (u : Units) (sheet : Sheet) :
    sheet.listing u = Node.entriesAll u [] none (sheet.map Rule.node) := by
  rw [Sheet.listing]
  induction sheet with
  | nil => rfl
  | cons r rest ih =>
    cases rest with
    | nil =>
      have hlines := Node.listingFrom_lines u [] 0 [] [] r.node
      rwa [List.append_nil] at hlines
    | cons next rest =>
      rw [Sheet.lines, Node.listingFrom_lines, listingFrom, ih, List.map_cons, Node.entriesAll]
      rfl

/-! ## At-rules replaced by what they hold -/

/-- One at-rule among the members, or deeper inside of them, is replaced by its
    members. -/
inductive Node.Unwraps : List Node → List Node → Prop where
  | here {front children back : List Node} {selector : Text} {pos : Pos}
      (h : isAtSelector selector = true) :
      Unwraps (front ++ .rule selector children pos :: back) (front ++ (children ++ back))
  | inside {front children children' back : List Node} {selector : Text} {pos : Pos}
      (h : Unwraps children children') :
      Unwraps (front ++ .rule selector children pos :: back)
        (front ++ .rule selector children' pos :: back)

/-- One at-rule inside of a rule of the sheet is replaced by its members. -/
inductive Sheet.Unwraps : Sheet → Sheet → Prop where
  | inside {front back : Sheet} {r : Rule} {children : List Node}
      (h : Node.Unwraps r.children children) :
      Unwraps (front ++ r :: back) (front ++ { r with children := children } :: back)

namespace Node

theorem entriesAll_append (u : Units) (parent : Text) (owner : Option Text)
    (front back : List Node) :
    entriesAll u parent owner (front ++ back) =
      entriesAll u parent owner front ++ entriesAll u parent owner back := by
  induction front with
  | nil => rfl
  | cons n rest ih => rw [List.cons_append, entriesAll, entriesAll, ih, List.append_assoc]

theorem entriesAll_of_unwraps {u : Units} {nodes nodes' : List Node} (h : Unwraps nodes nodes') :
    ∀ (parent : Text) (owner : Option Text),
      entriesAll u parent owner nodes' = entriesAll u parent owner nodes := by
  induction h with
  | here hat =>
    intro parent owner
    rw [entriesAll_append, entriesAll_append, entriesAll_append, entriesAll, entries, if_pos hat]
  | inside _ ih =>
    intro parent owner
    rw [entriesAll_append, entriesAll_append, entriesAll, entriesAll, entries, entries, ih, ih]

end Node

theorem Sheet.listing_of_unwraps {u : Units} {sheet sheet' : Sheet} (h : sheet.Unwraps sheet') :
    sheet'.listing u = sheet.listing u := by
  obtain ⟨hinside⟩ := h
  rw [listing_eq_entries, listing_eq_entries, List.map_append, List.map_append, List.map_cons,
    List.map_cons]
  exact Node.entriesAll_of_unwraps (.inside hinside) [] none

/-! ## Selectors on the way to a rule -/

namespace Selector

/-- The selector of the last rule of a nest, as it is printed: the literal
    selectors from the outside to the inside, each put into the one before. -/
def nested (path : List Text) : Text :=
  (path.filter fun s => !isAtSelector s).foldl (fun parent s => substitute s parent) []

/-- Whether the last rule of a nest is a literal one. -/
def endsLiteral (path : List Text) : Bool := path.getLast?.any fun s => !isAtSelector s

theorem nested_concat (path : List Text) (selector : Text) :
    nested (path ++ [selector]) = Node.innerParent selector (nested path) := by
  rw [nested, List.filter_append, List.foldl_append, Node.innerParent]
  cases hat : isAtSelector selector with
  | true => rw [List.filter_cons_of_neg (by rw [hat]; decide)]; rfl
  | false => rw [List.filter_cons_of_pos (by rw [hat]; rfl)]; rfl

theorem endsLiteral_concat (path : List Text) (selector : Text) :
    endsLiteral (path ++ [selector]) = !isAtSelector selector := by
  rw [endsLiteral, List.getLast?_concat]
  rfl

end Selector

namespace Node

mutual

/-- The rules of a member, each by the selectors of the rules that lead to it
    from the top of the sheet, its own at the end. -/
def paths (above : List Text) : Node → List (List Text)
  | .rule selector children _ => (above ++ [selector]) :: pathsAll (above ++ [selector]) children
  | .declaration .. | .call .. | .nothing | .foreign _ => []

def pathsAll (above : List Text) : List Node → List (List Text)
  | [] => []
  | n :: rest => paths above n ++ pathsAll above rest

end

mutual

theorem rules_entries (u : Units) (above : List Text) (owner : Option Text) :
    ∀ n : Node, (entries u (Selector.nested above) owner n).filterMap ListingEntry.rule? =
      ((paths above n).filter Selector.endsLiteral).map Selector.nested
  | .declaration .. => by rw [entries, paths]; rfl
  | .rule selector children pos => by
    have hchildren := fun owner => rules_entriesAll u (above ++ [selector]) owner children
    have hends := Selector.endsLiteral_concat above selector
    rw [Selector.nested_concat, innerParent] at hchildren
    rw [entries, paths]
    cases hat : isAtSelector selector with
    | true =>
      rw [hat, if_pos rfl] at hchildren
      rw [hat] at hends
      rw [if_pos rfl, hchildren, List.filter_cons_of_neg (by rw [hends]; decide)]
    | false =>
      rw [hat, if_neg Bool.false_ne_true] at hchildren
      rw [hat] at hends
      have hrule : ∀ s, ListingEntry.rule? (.rule s) = some s := fun _ => rfl
      rw [if_neg Bool.false_ne_true, List.filterMap_cons_some (hrule _), hchildren,
        List.filter_cons_of_pos (by rw [hends]; rfl), List.map_cons, Selector.nested_concat,
        innerParent, hat, if_neg Bool.false_ne_true]
  | .call .. => by rw [entries, paths]; rfl
  | .nothing => by rw [entries, paths]; rfl
  | .foreign _ => by rw [entries, paths]; rfl

theorem rules_entriesAll (u : Units) (above : List Text) (owner : Option Text) :
    ∀ nodes : List Node,
      (entriesAll u (Selector.nested above) owner nodes).filterMap ListingEntry.rule? =
      ((pathsAll above nodes).filter Selector.endsLiteral).map Selector.nested
  | [] => by rw [entriesAll, pathsAll]; rfl
  | n :: rest => by
    rw [entriesAll, pathsAll, List.filterMap_append, List.filter_append, List.map_append,
      rules_entries u above owner n, rules_entriesAll u above owner rest]

end

end Node

/-- The rules of a sheet, each by the selectors that lead to it. -/
def Sheet.paths (sheet : Sheet) : List (List Text) := Node.pathsAll [] (sheet.map Rule.node)

/-- The listing of a printed sheet stays the same if an at-rule inside of another
    rule, at any depth, is replaced by what it holds. The literal rules of the
    listing are those of the sheet, in the same order, and the selector of each
    is made of the literal selectors that lead to it, from the outside to the
    inside. -/
theorem Sheet.listing_transparent (u : Units) (sheet : Sheet) :
    sheet.render u = Text.join [ascii '\n'] ((sheet.lines u).map PrintedLine.text) ∧
    (∀ sheet', sheet.Unwraps sheet' → sheet'.listing u = sheet.listing u) ∧
    (sheet.listing u).filterMap ListingEntry.rule? =
      (sheet.paths.filter Selector.endsLiteral).map Selector.nested := by
  refine ⟨render_eq_lines u sheet, fun sheet' => listing_of_unwraps, ?_⟩
  rw [listing_eq_entries]
  exact Node.rules_entriesAll u [] none _

/-- At-rules above a rule, in it and beside it: the inner one is replaced by a
    rule and a declaration. -/
theorem Sheet.listing_transparent_supports :
    let color : Node := .declare (utf8 "color") (.word (utf8 "red"))
    let held : List Node := [.rule (utf8 "&.b") [color] .unknown, color]
    let rule (children : List Node) : Node := .rule (utf8 ".a, p") (color :: children) .unknown
    let sheet (children : List Node) : Sheet :=
      [⟨utf8 "@media x", [color, rule children], .unknown⟩]
    let wrapped := sheet [.rule (utf8 "@supports y") held .unknown]
    wrapped.Unwraps (sheet held) ∧ (sheet held).listing .usual = wrapped.listing .usual ∧
      wrapped.listing .usual = [
        .declaration none (utf8 "color") (utf8 "red"),
        .rule (utf8 ".a, p"),
        .declaration (some (utf8 ".a, p")) (utf8 "color") (utf8 "red"),
        .rule (utf8 ".a.b, p.b"),
        .declaration (some (utf8 ".a.b, p.b")) (utf8 "color") (utf8 "red"),
        .declaration (some (utf8 ".a, p")) (utf8 "color") (utf8 "red")] := by
  intro color held rule sheet wrapped
  have hheld : Node.Unwraps [color, .rule (utf8 "@supports y") held .unknown] (color :: held) :=
    @Node.Unwraps.here [color] held [] (utf8 "@supports y") .unknown (by decide)
  have hrule : Node.Unwraps [color, rule [.rule (utf8 "@supports y") held .unknown]]
      [color, rule held] := @Node.Unwraps.inside [color] _ _ [] (utf8 ".a, p") .unknown hheld
  have hsheet : wrapped.Unwraps (sheet held) := @Sheet.Unwraps.inside [] [] _ _ hrule
  exact ⟨hsheet, (listing_transparent .usual wrapped).2.1 _ hsheet, by decide +kernel⟩

end MixinCss
