import CanonicalQuery.Query.Node

/-!
# The nodes of a query tree

The nodes of a tree in pre-order: each node comes before its parts, and the parts of a sequence come
in their order.  A node may be listed together with its level, which grows by one from a node to its
parts.

## Main definitions

- `Node.subtrees`: the nodes of a tree, each with all that is below it.
- `Node.preorder`: the same nodes with their levels.
- `Node.IsPhrase`, `Node.IsGroup`, `Node.IsRange`: which shape a node has.
-/

namespace CanonicalQuery.Node

/-- The nodes of a tree in pre-order. -/
def subtrees : Node → List Node
  | .group inner => .group inner :: inner.subtrees
  | .unary operator operand => .unary operator operand :: operand.subtrees
  | .field name operand => .field name operand :: operand.subtrees
  | .sequence items => .sequence items :: subtreesOfAll items
  | n => [n]
where
  subtreesOfAll : List Node → List Node
    | [] => []
    | n :: ns => n.subtrees ++ subtreesOfAll ns

/-- The nodes of a tree in pre-order with their levels, where the tree itself has a given level. -/
def preorder (level : Nat) : Node → List (Nat × Node)
  | .group inner => (level, .group inner) :: inner.preorder (level + 1)
  | .unary operator operand => (level, .unary operator operand) :: operand.preorder (level + 1)
  | .field name operand => (level, .field name operand) :: operand.preorder (level + 1)
  | .sequence items => (level, .sequence items) :: preorderOfAll items
  | n => [(level, n)]
where
  preorderOfAll : List Node → List (Nat × Node)
    | [] => []
    | n :: ns => n.preorder (level + 1) ++ preorderOfAll ns

mutual

/-- The levels are listed beside the nodes. -/
theorem map_snd_preorder (level : Nat) : ∀ n : Node, (n.preorder level).map Prod.snd = n.subtrees
  | .term _ | .phrase _ | .range _ _ _ => rfl
  | .group inner | .unary _ inner | .field _ inner => by
    rw [preorder, List.map_cons, map_snd_preorder (level + 1) inner, subtrees]
  | .sequence items => by
    rw [preorder, List.map_cons, map_snd_preorderOfAll level items, subtrees]

theorem map_snd_preorderOfAll (level : Nat) : ∀ ns : List Node,
    (preorder.preorderOfAll level ns).map Prod.snd = subtrees.subtreesOfAll ns
  | [] => rfl
  | n :: ns => by
    rw [preorder.preorderOfAll, List.map_append, map_snd_preorder (level + 1) n,
      map_snd_preorderOfAll level ns, subtrees.subtreesOfAll]

end

mutual

/-- All nodes are listed. -/
theorem length_subtrees : ∀ n : Node, n.subtrees.length = n.size
  | .term _ | .phrase _ | .range _ _ _ => rfl
  | .group inner | .unary _ inner | .field _ inner => by
    rw [subtrees, List.length_cons, length_subtrees inner, size]
  | .sequence items => by
    rw [subtrees, List.length_cons, length_subtreesOfAll items, size]

theorem length_subtreesOfAll : ∀ ns : List Node,
    (subtrees.subtreesOfAll ns).length = size.sizeList ns
  | [] => rfl
  | n :: ns => by
    rw [subtrees.subtreesOfAll, List.length_append, length_subtrees n, length_subtreesOfAll ns,
      size.sizeList]

end

/-! ## Shapes -/

def IsPhrase : Node → Bool
  | .phrase _ => true
  | _ => false

def IsGroup : Node → Bool
  | .group _ => true
  | _ => false

/-- A field over a range with these bounds. -/
def IsRange (bounds : Bounds) : Node → Bool
  | .range _ b _ => b = bounds
  | _ => false

end CanonicalQuery.Node
