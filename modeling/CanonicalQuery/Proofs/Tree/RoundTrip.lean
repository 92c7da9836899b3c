import CanonicalQuery.Error
import CanonicalQuery.Proofs.Tree.Denotation
import CanonicalQuery.Tree.Writing

/-!
# Attribute trees are read back

The attribute tree that is written for a query tree denotes that query tree.  The writer and the
reader are two tables of shapes; they meet in the rules of what attribute trees denote, so that each
of the written objects is found to be an instance of one rule.

## Main statements

- `Tree.denotes_toTree`: a query tree is what its attribute tree denotes.
- `Node.ofTree_toTree`: reading takes back writing, and so the canonical text of the written
  attribute tree is that of the query tree.
-/

namespace CanonicalQuery

open CanonicalQuery.Json (Value)

namespace Tree

theorem marks_marker (o : Operator) : Marks o.marker o := .named o

theorem denotes_term (t : Term) : Denotes t.toTree (.term t) := by
  obtain ⟨value, modifier⟩ := t
  rcases modifier with _ | (degree | factor)
  · exact .term value
  · exact .similarTerm value (.given degree)
  · exact .boostedTerm factor value

theorem denotes_phrase (p : Phrase) : Denotes p.toTree (.phrase p) := by
  obtain ⟨value, modifier⟩ := p
  rcases modifier with _ | (factor | words)
  · exact .phrase value
  · exact .boostedPhrase factor value
  · exact .distantPhrase words value

mutual

/-- A query tree is what its attribute tree denotes. -/
theorem denotes_toTree : ∀ n : Node, Denotes n.toTree n
  | .term t => denotes_term t
  | .phrase p => denotes_phrase p
  | .group inner => .group (denotes_toTree inner)
  | .unary operator operand => .unary (marks_marker operator) (denotes_toTree operand)
  | .field name operand => .field name (denotes_toTree operand)
  | .range name .inclusive ends => .inclusive name ends.lower ends.upper
  | .range name .exclusive ends => .exclusive name ends.lower ends.upper
  | .sequence items => .sequence (denotesAll_itemTrees items)

theorem denotesAll_itemTrees : ∀ ns : List Node, DenotesAll (Node.toTree.itemTrees ns) ns
  | [] => .nil
  | n :: ns => .cons (denotes_toTree n) (denotesAll_itemTrees ns)

end

/-- The canonical text of an attribute tree is that of the query tree that it denotes. -/
theorem Denotes.canonicalQuery {v : Value} {n : Node} (h : Denotes v n) :
    v.canonicalQuery = .ok n.query := by
  rw [Value.canonicalQuery, Node.ofTree, ofTree_of_denotes h]
  rfl

end Tree

/-- **Attribute trees are read back.**  What is written for a query tree is a JSON value with sorted
objects, it is read as the same query tree, and its canonical text is the text of the query tree. -/
theorem Node.ofTree_toTree (n : Node) :
    n.toTree.Sorted ∧ Node.ofTree n.toTree = .ok n ∧ n.toTree.canonicalQuery = .ok n.query := by
  have hdenotes := Tree.denotes_toTree n
  exact ⟨hdenotes.sorted, Tree.ofTree_of_denotes hdenotes, hdenotes.canonicalQuery⟩

end CanonicalQuery
