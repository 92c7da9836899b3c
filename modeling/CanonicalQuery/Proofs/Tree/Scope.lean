import CanonicalQuery.Proofs.Query.Nesting
import CanonicalQuery.Proofs.Query.Unambiguous
import CanonicalQuery.Proofs.Tree.RoundTrip

/-!
# What query text keeps of the scope of operators and fields

An attribute tree may put a whole array behind the mark of an operator or the name of a field.  The
canonical text writes nothing around the items, so the mark or the name comes to stand before the
first item alone: `+a b` is written both for the required sequence of `a` and `b` and for the
sequence of a required `a` and a `b`.

So the text keeps the scope of operators and fields among the trees in which they stand before
single items, and it does so for no others: any other tree shares its text with one of these.

## Main statements

- `Node.query_loses_scope`: two attribute trees with the same text and different scopes.
- `Node.scope_of_query`: among which trees the text keeps the scope, and that among no more.
-/

namespace CanonicalQuery

open CanonicalQuery.Json (Value)

/-! ## §1 Attribute trees without empty arrays -/

mutual

/-- No array of the value is empty. -/
def Json.Value.Filled : Value → Prop
  | .array vs => vs ≠ [] ∧ Json.Value.FilledItems vs
  | .object members => Json.Value.FilledMembers members
  | _ => True

def Json.Value.FilledItems : List Value → Prop
  | [] => True
  | v :: vs => v.Filled ∧ Json.Value.FilledItems vs

def Json.Value.FilledMembers : List (String × Value) → Prop
  | [] => True
  | (_, v) :: members => v.Filled ∧ Json.Value.FilledMembers members

end

namespace Tree

mutual

/-- Empty sequences are read from empty arrays only. -/
theorem Denotes.filled : ∀ {v : Value} {n : Node}, Denotes v n → v.Filled → n.Filled
  | _, _, .word _, _ | _, _, .term _, _ | _, _, .similarTerm _ _, _ | _, _, .boostedTerm _ _, _ =>
    trivial
  | _, _, .phrase _, _ | _, _, .boostedPhrase _ _, _ | _, _, .distantPhrase _ _, _ => trivial
  | _, _, .inclusive _ _ _, _ | _, _, .exclusive _ _ _, _ => trivial
  | _, .sequence [], .sequence h, hfilled => by
    cases h
    exact absurd rfl hfilled.1
  | _, .sequence (n :: ns), .sequence h, hfilled =>
    ⟨List.cons_ne_nil n ns, h.filledItems hfilled.2⟩
  | _, _, .group h, hfilled | _, _, .operand h, hfilled => h.filled hfilled.1
  | _, _, .unary _ h, hfilled => h.filled hfilled.1
  | _, _, .field _ h, hfilled => h.filled hfilled.2.1

theorem DenotesAll.filledItems : ∀ {vs : List Value} {ns : List Node}, DenotesAll vs ns →
    Json.Value.FilledItems vs → Node.Filled.filledItems ns
  | _, _, .nil, _ => trivial
  | _, _, .cons h hs, hfilled => ⟨h.filled hfilled.1, hs.filledItems hfilled.2⟩

end

mutual

theorem filled_toTree : ∀ n : Node, n.Filled → n.toTree.Filled
  | .term ⟨_, none⟩, _ | .term ⟨_, some (.similarity _)⟩, _ | .term ⟨_, some (.boost _)⟩, _ => by
    simp [Node.toTree, Term.toTree, Json.Value.Filled, Json.Value.FilledMembers]
  | .phrase ⟨_, none⟩, _ | .phrase ⟨_, some (.boost _)⟩, _
  | .phrase ⟨_, some (.distance _)⟩, _ => by
    simp [Node.toTree, Phrase.toTree, Json.Value.Filled, Json.Value.FilledMembers]
  | .range _ .inclusive _, _ | .range _ .exclusive _, _ => by
    simp [Node.toTree, Range.toTree, Json.Value.Filled, Json.Value.FilledMembers]
  | .group inner, hfilled => ⟨filled_toTree inner hfilled, trivial⟩
  | .unary operator operand, hfilled => by
    have hmarker : operator.marker.Filled := by
      simp [Operator.marker, Json.Value.Filled, Json.Value.FilledMembers]
    exact ⟨filled_toTree operand hfilled, hmarker, trivial⟩
  | .field _ operand, hfilled => by
    refine ⟨?_, filled_toTree operand hfilled, trivial⟩
    simp [Json.Value.Filled]
  -- an empty sequence is the only tree that is written as an empty array
  | .sequence [], hfilled => absurd rfl hfilled.1
  | .sequence (n :: ns), hfilled => by
    refine ⟨?_, filled_itemTrees (n :: ns) hfilled.2⟩
    simp [Node.toTree.itemTrees]

theorem filled_itemTrees : ∀ ns : List Node, Node.Filled.filledItems ns →
    Json.Value.FilledItems (Node.toTree.itemTrees ns)
  | [], _ => trivial
  | n :: ns, hfilled => ⟨filled_toTree n hfilled.1, filled_itemTrees ns hfilled.2⟩

end

end Tree

/-! ## §2 Which trees the text tells apart -/

/-- Whether the required operand is the whole sequence or its first item is lost. -/
theorem Node.query_loses_scope :
    let whole : Value :=
      .object [("operand", .array [.string "a", .string "b"]), ("unary_operator", .string "+")]
    let first : Value :=
      .array [.object [("operand", .string "a"), ("unary_operator", .string "+")], .string "b"]
    let n : Node := .unary .required (.sequence [.word "a", .word "b"])
    let m : Node := .sequence [.unary .required (.word "a"), .word "b"]
    Node.ofTree whole = .ok n ∧ Node.ofTree first = .ok m ∧ whole.Filled ∧ first.Filled ∧
      n.Plain ∧ m.Plain ∧ whole.canonicalQuery = first.canonicalQuery ∧ ¬Node.Similar n m := by
  intro whole first n m
  have hn : Node.ofTree whole = .ok n := rfl
  have hm : Node.ofTree first = .ok m := rfl
  have hquery : whole.canonicalQuery = first.canonicalQuery := by
    rw [(Tree.denotes_of_ofTree hn).canonicalQuery, (Tree.denotes_of_ofTree hm).canonicalQuery]
    exact congrArg Except.ok (by decide)
  have hfilled : whole.Filled ∧ first.Filled := by
    simp [whole, first, Json.Value.Filled, Json.Value.FilledItems, Json.Value.FilledMembers]
  refine ⟨hn, hm, hfilled.1, hfilled.2, by decide, by decide, hquery, ?_⟩
  -- similar trees have the same number of items
  intro hsimilar
  have hlength := congrArg List.length hsimilar.items_eq
  simp [n, m, Node.items, Node.items.itemsOfAll, Node.word] at hlength

/-- A plain tree without empty sequences shares its text with one of those in which operators and
fields stand before single items. -/
theorem Node.exists_scoped_of_query {v : Value} {n : Node} (hv : Node.ofTree v = .ok n)
    (hfilled : v.Filled) (hplain : n.Plain) :
    ∃ w m, Node.ofTree w = .ok m ∧ w.Filled ∧ m.Plain ∧ m.Scoped ∧
      w.canonicalQuery = v.canonicalQuery := by
  have hdenotes := Tree.denotes_of_ofTree hv
  -- the tree of the spine puts each operator and field before the first item only
  have hspine : n.spine.node.spine = n.spine := Spine.spine_node n.spine
  obtain ⟨hfilled', hscoped⟩ := Node.filled_scoped_spine_node (hdenotes.filled hfilled)
  have hplain' : n.spine.node.Plain := by
    rw [Node.Plain, ← Node.texts_spine, hspine, Node.texts_spine]
    exact hplain
  have hwritten := Tree.denotes_toTree n.spine.node
  have hquery : n.spine.node.toTree.canonicalQuery = v.canonicalQuery := by
    rw [hwritten.canonicalQuery, hdenotes.canonicalQuery, Node.query_eq_of_spine_eq hspine]
  exact ⟨n.spine.node.toTree, n.spine.node, Tree.ofTree_of_denotes hwritten,
    Tree.filled_toTree _ hfilled', hplain', hscoped, hquery⟩

/-- Among the trees in which operators and fields stand before single items, the text tells the tree
up to how its sequences nest. -/
theorem Node.similar_of_query {v w : Value} {n m : Node} (hv : Node.ofTree v = .ok n)
    (hw : Node.ofTree w = .ok m) (hvfilled : v.Filled) (hwfilled : w.Filled) (hn : n.Plain)
    (hm : m.Plain) (hnscoped : n.Scoped) (hmscoped : m.Scoped)
    (hquery : w.canonicalQuery = v.canonicalQuery) : Node.Similar n m := by
  have hdenotes := Tree.denotes_of_ofTree hv
  have hdenotes' := Tree.denotes_of_ofTree hw
  have htext : n.query = m.query := by
    rw [hdenotes.canonicalQuery, hdenotes'.canonicalQuery] at hquery
    exact (Except.ok.inj hquery).symm
  exact Node.similar_of_spine_eq (hdenotes.filled hvfilled) (hdenotes'.filled hwfilled)
    hnscoped hmscoped (Node.spine_eq_of_query_eq hn hm htext)

/-- **Among which trees the text keeps the scope of operators and fields.**  A plain tree without
empty sequences has the text of some tree in which operators and fields stand before single items.
It is that tree, up to how sequences nest, if and only if it is such a tree itself. -/
theorem Node.scope_of_query {v : Value} {n : Node} (hv : Node.ofTree v = .ok n)
    (hfilled : v.Filled) (hplain : n.Plain) :
    (∃ w m, Node.ofTree w = .ok m ∧ w.Filled ∧ m.Plain ∧ m.Scoped ∧
      w.canonicalQuery = v.canonicalQuery) ∧
    ∀ w m, Node.ofTree w = .ok m → w.Filled → m.Plain → m.Scoped →
      w.canonicalQuery = v.canonicalQuery → (Node.Similar n m ↔ n.Scoped) := by
  refine ⟨Node.exists_scoped_of_query hv hfilled hplain, ?_⟩
  intro w m hw hwfilled hm hmscoped hquery
  constructor
  · intro hsimilar
    exact hsimilar.scoped_iff.mpr hmscoped
  · intro hnscoped
    exact Node.similar_of_query hv hw hfilled hwfilled hplain hm hnscoped hmscoped hquery

/-- Two nestings of `+a b c` whose required operand is `a`. -/
theorem Node.scope_of_query_of_nested_items :
    let nested : Value := .array
      [.object [("operand", .array [.string "a"]), ("unary_operator", .string "+")],
        .array [.string "b", .string "c"]]
    let flat : Value := .array
      [.object [("operand", .string "a"), ("unary_operator", .string "+")],
        .string "b", .string "c"]
    let n : Node := .sequence [.unary .required (.sequence [.word "a"]),
      .sequence [.word "b", .word "c"]]
    let m : Node := .sequence [.unary .required (.word "a"), .word "b", .word "c"]
    Node.ofTree nested = .ok n ∧ Node.ofTree flat = .ok m ∧ nested.Filled ∧ n.Plain ∧
      flat.canonicalQuery = nested.canonicalQuery ∧ (Node.Similar n m ↔ n.Scoped) := by
  intro nested flat n m
  have hn : Node.ofTree nested = .ok n := rfl
  have hm : Node.ofTree flat = .ok m := rfl
  have hscoped : m.Scoped := by
    simp [m, Node.Scoped, Node.Scoped.scopedItems, Node.items, Node.word]
  have hquery : flat.canonicalQuery = nested.canonicalQuery := by
    rw [(Tree.denotes_of_ofTree hn).canonicalQuery, (Tree.denotes_of_ofTree hm).canonicalQuery]
    exact congrArg Except.ok (by decide)
  have hfilled : nested.Filled ∧ flat.Filled := by
    simp [nested, flat, Json.Value.Filled, Json.Value.FilledItems, Json.Value.FilledMembers]
  have hplain : n.Plain := by decide
  exact ⟨hn, hm, hfilled.1, hplain, hquery,
    (Node.scope_of_query hn hfilled.1 hplain).2 flat m hm hfilled.2 (by decide) hscoped hquery⟩

end CanonicalQuery
