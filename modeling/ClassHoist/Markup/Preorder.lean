import ClassHoist.Markup.Tree

/-! # All the nodes of a tree

The nodes of a tree in preorder: each before the nodes inside it, and those of a block's body
before those of its branches.
-/

namespace ClassHoist.Markup

mutual

/-- A node and all nodes inside it, in preorder. -/
def Node.preorder : Node → List Node
  | .element span role attributes children =>
    .element span role attributes children :: nodesPreorder children
  | .block span kind header ⟨nodes, bodySpan⟩ branches =>
    .block span kind header ⟨nodes, bodySpan⟩ branches
      :: (nodesPreorder nodes ++ branchesPreorder branches)
  | node => [node]

/-- The nodes of a list and all nodes inside them, in preorder. -/
def nodesPreorder : List Node → List Node
  | [] => []
  | node :: rest => node.preorder ++ nodesPreorder rest

/-- The nodes of branches and all nodes inside them, in preorder. -/
def branchesPreorder : List (Branch Node) → List Node
  | [] => []
  | ⟨_, _, _, ⟨nodes, _⟩⟩ :: rest => nodesPreorder nodes ++ branchesPreorder rest

end

end ClassHoist.Markup
