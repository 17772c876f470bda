/-
  MixinCss.Proofs.Grammar.Offsets

  The places of parsed nodes. A token starts behind the one before it, and the
  nodes of a sheet, taken in document order, start at tokens that stand in this
  order in the source. So their offsets grow from node to node
  (`parse_offsets_increase`).
-/

import MixinCss.Proofs.Grammar.Document
import MixinCss.Proofs.Sheet.Members

namespace MixinCss

/-! ## Tokens -/

namespace Lexer

theorem offset_le_of_mem_lex {offset : Nat} {s : Text} {t : Token} (h : t ∈ lex offset s) :
    offset ≤ t.offset := by
  fun_induction lex offset s with
  | case1 => cases h
  | case2 offset b rest kind n hscan text ih =>
    rcases List.mem_cons.mp h with rfl | h
    · exact Nat.le_refl offset
    · have hbehind := ih h
      omega

/-- Every token starts behind the start of the one before it. -/
theorem lex_offsets_increase (offset : Nat) (s : Text) :
    ((lex offset s).map Token.offset).Pairwise (· < ·) := by
  fun_induction lex offset s with
  | case1 => exact .nil
  | case2 offset b rest kind n hscan text ih =>
    refine .cons ?_ ih
    intro next hnext
    obtain ⟨t, ht, rfl⟩ := List.mem_map.mp hnext
    have hbehind := offset_le_of_mem_lex ht
    -- No lexeme is empty: it has at least the byte at which it was found.
    have hlength : 0 < text.length := by simp [text]
    show offset < t.offset
    omega

end Lexer

/-! ## Nodes -/

namespace Node

/-- The place of a node that has one. -/
def pos? : Node → Option Pos
  | .declaration _ _ pos | .rule _ _ pos | .call _ _ pos => some pos
  | .nothing | .foreign _ => none

end Node

/-- The offsets of nodes and of what they hold, in document order. -/
def Node.offsetsAll (nodes : List Node) : List Nat :=
  (Node.membersAll nodes).filterMap fun n => n.pos?.map Pos.offset

/-- The offsets of the nodes of a sheet, in document order. -/
def Sheet.offsets (sheet : Sheet) : List Nat := Node.offsetsAll (sheet.map Rule.node)

namespace Grammar

open Node (offsetsAll)

theorem offsetsAll_cons (n : Node) (rest : List Node) :
    offsetsAll (n :: rest) = offsetsAll [n] ++ offsetsAll rest := by
  unfold offsetsAll
  rw [Node.membersAll_cons, List.filterMap_append, Node.membersAll_singleton]

theorem offsetsAll_append (front back : List Node) :
    offsetsAll (front ++ back) = offsetsAll front ++ offsetsAll back := by
  unfold offsetsAll
  rw [Node.membersAll_append, List.filterMap_append]

theorem offsetsAll_rule (r : Rule) :
    offsetsAll [r.node] = r.pos.offset :: offsetsAll r.children := by
  unfold offsetsAll Rule.node
  rw [Node.membersAll_singleton, Node.members, List.filterMap_cons]
  rfl

variable {src : Source} {ts : List Token}

theorem Declares.offsets {n : Node} (h : Declares src ts n) :
    (offsetsAll [n]).Sublist (ts.map Token.offset) := by
  cases h with
  | intro => exact (List.nil_sublist _).cons_cons _

theorem Calls.offsets {n : Node} (h : Calls src ts n) :
    (offsetsAll [n]).Sublist (ts.map Token.offset) := by
  cases h with
  | intro => exact (List.nil_sublist _).cons_cons _

theorem Final.offsets {nodes : List Node} (h : Final src ts nodes) :
    (offsetsAll nodes).Sublist (ts.map Token.offset) := by
  cases h with
  | nothing => exact List.nil_sublist _
  | declaration _ hn => exact hn.offsets

theorem BeginsWith.offset {first : Token} (h : BeginsWith ts first) :
    [first.offset].Sublist (ts.map Token.offset) := by
  obtain ⟨lead, rest, -, -, rfl⟩ := h
  rw [List.singleton_sublist]
  exact List.mem_map_of_mem (by simp)

mutual

theorem Items.offsets {ts : List Token} {nodes : List Node} :
    Items src ts nodes → (offsetsAll nodes).Sublist (ts.map Token.offset)
  | .done => List.nil_sublist _
  | .space _ hrest => hrest.offsets.cons _
  | .semicolon _ hrest => hrest.offsets.cons _
  | .rule hrule hrest => by
    rw [offsetsAll_cons, List.map_append]
    exact hrule.offsets.append hrest.offsets
  | .statement _ hn _ hrest => by
    rw [offsetsAll_cons, List.map_append]
    exact (hn.elim Declares.offsets Calls.offsets).append (hrest.offsets.cons _)

/-- A rule starts at a token of its selector, and what it holds at tokens
    between its braces. -/
theorem Block.offsets {ts : List Token} {r : Rule} :
    Block src ts r → (offsetsAll [r.node]).Sublist (ts.map Token.offset)
  | .intro _ hfirst _ hbody hlast _ => by
    rw [offsetsAll_rule, offsetsAll_append, List.map_append, List.map_cons, List.map_append,
      List.map_append]
    refine hfirst.offset.append (List.Sublist.cons _ (hbody.offsets.append ?_))
    exact hlast.offsets.trans (List.sublist_append_left _ _)

end

/-- The nodes of a sheet start at tokens, in the order of the tokens. -/
theorem Document.offsets {sheet : Sheet} (h : Document src ts sheet) :
    (Sheet.offsets sheet).Sublist (ts.map Token.offset) := by
  unfold Sheet.offsets
  induction h with
  | done => exact List.nil_sublist _
  | space _ _ ih => exact ih.cons _
  | semicolon _ _ ih => exact ih.cons _
  | rule hrule _ _ ih =>
    rw [List.map_cons, offsetsAll_cons, List.map_append]
    exact hrule.offsets.append ih

end Grammar

/-- Along a parsed sheet the offsets of the nodes grow from node to node. -/
theorem parse_offsets_increase {src : Text} {sheet : Sheet} (h : parse src = .ok sheet) :
    (Sheet.offsets sheet).Pairwise (· < ·) := by
  obtain ⟨ts, htokens, hderived⟩ := parse_eq_ok_iff.mp h
  obtain ⟨-, rfl⟩ := Grammar.tokens_eq_ok_iff.mp htokens
  have hkept := (List.filter_sublist (p := fun t : Token => t.kind != .comment)
    (l := Lexer.lex 0 src)).map Token.offset
  exact (Lexer.lex_offsets_increase 0 src).sublist (hderived.offsets.trans hkept)

end MixinCss
