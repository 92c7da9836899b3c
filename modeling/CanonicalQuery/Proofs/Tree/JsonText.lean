import CanonicalQuery.Proofs.Json.RoundTrip
import CanonicalQuery.Proofs.Text.Utf8
import CanonicalQuery.Proofs.Tree.RoundTrip

/-!
# Attribute trees as JSON text

The attribute tree of a query tree may be written as JSON text, and the query tree is read from this
text and from its octets alike.  The only limit is that of JSON readings on how deep brackets nest;
a text that goes beyond it is refused before any of it is looked at as an attribute tree.

## Main statements

- `Tree.numberless_toTree`: a written attribute tree has texts, arrays and objects only.
- `Node.ofJson_text_toTree`: what is read from the text of an attribute tree.
-/

namespace CanonicalQuery

open CanonicalQuery.Json (Value)

namespace Tree

/-- All leaves of a written marker, range, term or phrase are strings. -/
theorem numberless_marker (o : Operator) : o.marker.Numberless := ⟨trivial, trivial⟩

theorem numberless_range (r : Range) : r.toTree.Numberless := ⟨trivial, trivial, trivial⟩

theorem numberless_term (t : Term) : t.toTree.Numberless := by
  obtain ⟨value, modifier⟩ := t
  rcases modifier with _ | (degree | factor)
  · exact ⟨trivial, trivial⟩
  · exact ⟨trivial, trivial, trivial⟩
  · exact ⟨trivial, trivial, trivial⟩

theorem numberless_phrase (p : Phrase) : p.toTree.Numberless := by
  obtain ⟨value, modifier⟩ := p
  rcases modifier with _ | (factor | words)
  · exact ⟨trivial, trivial⟩
  · exact ⟨trivial, trivial, trivial⟩
  · exact ⟨trivial, trivial, trivial⟩

mutual

/-- A written attribute tree holds no number. -/
theorem numberless_toTree : ∀ n : Node, n.toTree.Numberless
  | .term t => numberless_term t
  | .phrase p => numberless_phrase p
  | .group inner => ⟨numberless_toTree inner, trivial⟩
  | .unary operator operand => ⟨numberless_toTree operand, numberless_marker operator, trivial⟩
  | .field _ operand => ⟨trivial, numberless_toTree operand, trivial⟩
  | .range _ .inclusive ends => ⟨trivial, numberless_range ends, trivial⟩
  | .range _ .exclusive ends => ⟨numberless_range ends, trivial, trivial⟩
  | .sequence items => numberless_itemTrees items

theorem numberless_itemTrees : ∀ ns : List Node, Value.NumberlessItems (Node.toTree.itemTrees ns)
  | [] => trivial
  | n :: ns => ⟨numberless_toTree n, numberless_itemTrees ns⟩

end

/-- The text of a written attribute tree is read as the tree itself, unless it nests too deep. -/
theorem ofText_text_toTree (n : Node) :
    Value.ofText n.toTree.text
      = if n.toTree.depth ≤ 127 then .ok n.toTree else .error .refused := by
  rw [Value.ofText_text n.toTree (numberless_toTree n),
    Value.sorted_eq_self n.toTree (denotes_toTree n).sorted]

end Tree

theorem Node.ofRead_ofText_toTree (n : Node) :
    Node.ofRead (Value.ofText n.toTree.text)
      = if n.toTree.depth ≤ 127 then .ok n else .error (.json .refused) := by
  rw [Tree.ofText_text_toTree]
  split_ifs with hdepth
  · rw [Node.ofRead, Node.ofTree, Tree.ofTree_of_denotes (Tree.denotes_toTree n)]
    rfl
  · rfl

/-- **Attribute trees survive as JSON text.**  The text that is written for the attribute tree of a
query tree is read as that query tree, from its characters and from its octets, if and only if its
brackets nest at most 127 deep.  The text of every other query tree is refused by the JSON
reader. -/
theorem Node.ofJson_text_toTree (n : Node) :
    (Node.ofJson n.toTree.text = .ok n ↔ n.toTree.depth ≤ 127) ∧
    (Node.ofOctets n.toTree.text.toUTF8 = .ok n ↔ n.toTree.depth ≤ 127) ∧
    Node.ofJson n.toTree.text
      = (if n.toTree.depth ≤ 127 then .ok n else .error (.json .refused)) ∧
    Node.ofOctets n.toTree.text.toUTF8
      = (if n.toTree.depth ≤ 127 then .ok n else .error (.json .refused)) := by
  have hread := Node.ofRead_ofText_toTree n
  have hchars : Node.ofJson n.toTree.text
      = if n.toTree.depth ≤ 127 then .ok n else .error (.json .refused) := hread
  have hoctets : Node.ofOctets n.toTree.text.toUTF8
      = if n.toTree.depth ≤ 127 then .ok n else .error (.json .refused) := by
    rw [Node.ofOctets, Value.ofOctets_toUTF8]
    exact hread
  -- each equivalence is read off the equation with the two cases
  have hiff : (if n.toTree.depth ≤ 127 then Except.ok n else .error (Error.json .refused))
      = .ok n ↔ n.toTree.depth ≤ 127 := by
    split_ifs with hdepth
    · exact iff_of_true rfl hdepth
    · exact iff_of_false (by intro h; cases h) hdepth
  refine ⟨?_, ?_, hchars, hoctets⟩
  · rw [hchars]
    exact hiff
  · rw [hoctets]
    exact hiff

end CanonicalQuery
