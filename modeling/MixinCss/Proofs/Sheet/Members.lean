/-
  MixinCss.Proofs.Sheet.Members

  The nodes of a sheet at every depth, in document order. What is said of a
  tree "at any depth" is said of the members of this list.
-/

import MixinCss.Sheet.Basic

namespace MixinCss

namespace Node

mutual

/-- The node and all nodes below it, each in front of what it holds. -/
def members : Node → List Node
  | .rule selector children pos => .rule selector children pos :: membersAll children
  | .declaration property value pos => [.declaration property value pos]
  | .call name args pos => [.call name args pos]
  | .nothing => [.nothing]
  | .foreign kind => [.foreign kind]

/-- The members of nodes, one node after the other. -/
def membersAll : List Node → List Node
  | [] => []
  | n :: rest => members n ++ membersAll rest

end

/-- Declarations and rules; all that an expanded sheet is made of. -/
def isPlain : Node → Bool
  | .declaration .. | .rule .. => true
  | .call .. | .nothing | .foreign _ => false

/-- Nodes of a kind that no sheet is made of. -/
def isForeign : Node → Bool
  | .foreign _ => true
  | _ => false

@[simp] theorem membersAll_nil : membersAll [] = [] := rfl

@[simp] theorem membersAll_cons (n : Node) (rest : List Node) :
    membersAll (n :: rest) = n.members ++ membersAll rest := rfl

@[simp] theorem membersAll_append (front back : List Node) :
    membersAll (front ++ back) = membersAll front ++ membersAll back := by
  induction front with
  | nil => rfl
  | cons n rest ih => rw [List.cons_append, membersAll_cons, ih, membersAll_cons, List.append_assoc]

theorem membersAll_singleton (n : Node) : membersAll [n] = n.members := by
  rw [membersAll_cons, membersAll_nil, List.append_nil]

theorem mem_members (n : Node) : n ∈ n.members := by
  cases n <;> exact List.mem_cons_self

end Node

/-- The nodes of a sheet at every depth. -/
def Sheet.members (sheet : Sheet) : List Node := Node.membersAll (sheet.map Rule.node)

theorem Sheet.members_cons (r : Rule) (rest : Sheet) :
    Sheet.members (r :: rest) = (r.node :: Node.membersAll r.children) ++ Sheet.members rest := rfl

end MixinCss
