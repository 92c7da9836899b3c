import CanonicalQuery.Proofs.Query.Spine

/-!
# Flat query trees

Every spine is the spine of a query tree, and among the trees with one spine there is one that makes
no use of sequences beyond what the spine asks for.  A tree is *flat* if no sequence has exactly one
item or stands directly in a sequence, behind the mark of an operator or behind the name of a field.
Flat trees are read back from their spines, so no two of them have the same one.

## Main definitions

- `Spine.node`: a tree with the given spine.
- `Node.Flat`: trees without superfluous sequences.
-/

namespace CanonicalQuery

/-! ## §1 The tree of a spine -/

/-- The tree of some trees side by side: a sequence, unless it would have one item only. -/
def Node.abreast (first : Node) : List Node → Node
  | [] => first
  | n :: ns => .sequence (first :: n :: ns)

/-- A tree whose spine is the given element alone. -/
def Element.node : Element → Node
  | .blank => .sequence []
  | .term t => .term t
  | .phrase p => .phrase p
  | .range name bounds ends => .range name bounds ends
  | .group first rest => .group (.abreast first.node (nodes rest))
  | .marked operator e => .unary operator e.node
  | .named name e => .field name e.node
where
  nodes : List Element → List Node
    | [] => []
    | e :: es => e.node :: nodes es

/-- A tree with the given spine. -/
def Spine.node (s : Spine) : Node :=
  .abreast s.first.node (Element.node.nodes s.rest)

theorem Spine.node_of_rest_eq_nil {s : Spine} (h : s.rest = []) : s.node = s.first.node := by
  rw [Spine.node, h]
  rfl

theorem Spine.node_mapFirst {s : Spine} (h : s.rest = []) (mark : Element → Element) :
    (s.mapFirst mark).node = (mark s.first).node :=
  Spine.node_of_rest_eq_nil h

theorem Spine.node_ofElements {es : List Element} {n m : Node} {ns : List Node}
    (h : Element.node.nodes es = n :: m :: ns) :
    (Spine.ofElements es).node = .sequence (n :: m :: ns) := by
  cases es with
  | nil => cases h
  | cons e es =>
    obtain ⟨hfirst, hrest⟩ := List.cons.inj h
    unfold Spine.ofElements Spine.node
    rw [hfirst, hrest]
    rfl

theorem Node.elements_spine_abreast (n : Node) (ns : List Node) :
    (Node.abreast n ns).spine.elements
      = n.spine.elements ++ Node.spine.elementsOfAll ns := by
  cases ns with
  | nil => simp [Node.abreast, Node.spine.elementsOfAll]
  | cons m ns => rfl

mutual

theorem Element.spine_node : ∀ e : Element, e.node.spine = .single e
  | .blank | .term _ | .phrase _ | .range _ _ _ => rfl
  | .group first rest => by
    -- the items of a group are its first element and the rest, in a sequence only if there are more
    have hinner : (Node.abreast first.node (Element.node.nodes rest)).spine = ⟨first, rest⟩ := by
      apply Spine.eq_of_elements_eq
      rw [Node.elements_spine_abreast, Element.spine_node first, Element.elementsOfAll_nodes rest]
      rfl
    rw [Element.node, Node.spine, hinner]
    rfl
  | .marked operator e => by
    rw [Element.node, Node.spine, Element.spine_node e]
    rfl
  | .named name e => by
    rw [Element.node, Node.spine, Element.spine_node e]
    rfl

theorem Element.elementsOfAll_nodes : ∀ es : List Element,
    Node.spine.elementsOfAll (Element.node.nodes es) = es
  | [] => rfl
  | e :: es => by
    rw [Element.node.nodes, Node.spine.elementsOfAll, Element.spine_node e,
      Element.elementsOfAll_nodes es]
    rfl

end

/-- Every spine is the spine of a tree. -/
theorem Spine.spine_node (s : Spine) : s.node.spine = s := by
  apply Spine.eq_of_elements_eq
  rw [Spine.node, Node.elements_spine_abreast, Element.spine_node, Element.elementsOfAll_nodes]
  rfl

/-! ## §2 Flat trees -/

def Node.isSequence : Node → Bool
  | .sequence _ => true
  | _ => false

/-- No sequence of the tree has exactly one item, and none stands directly in a sequence or behind a
mark or the name of a field. -/
def Node.Flat : Node → Prop
  | .term _ | .phrase _ | .range _ _ _ => True
  | .group inner => inner.Flat
  | .unary _ operand | .field _ operand => operand.isSequence = false ∧ operand.Flat
  | .sequence items => items.length ≠ 1 ∧ flatItems items
where
  flatItems : List Node → Prop
    | [] => True
    | n :: ns => n.isSequence = false ∧ n.Flat ∧ flatItems ns

theorem Node.Flat.rest_spine : ∀ {n : Node}, n.Flat → n.isSequence = false → n.spine.rest = []
  | .term _, _, _ | .phrase _, _, _ | .range _ _ _, _, _ | .group _, _, _ => rfl
  | .unary _ _, ⟨hsequence, hflat⟩, _ | .field _ _, ⟨hsequence, hflat⟩, _ =>
    hflat.rest_spine hsequence

theorem Node.Flat.first_node {n : Node} (hflat : n.Flat) (hsequence : n.isSequence = false)
    (hnode : n.spine.node = n) : n.spine.first.node = n := by
  rw [← Spine.node_of_rest_eq_nil (hflat.rest_spine hsequence), hnode]

mutual

/-- A flat tree is the tree of its spine. -/
theorem Node.node_spine_of_flat : ∀ n : Node, n.Flat → n.spine.node = n
  | .term _, _ | .phrase _, _ | .range _ _ _, _ => rfl
  | .group inner, hflat => congrArg Node.group (Node.node_spine_of_flat inner hflat)
  -- the operand is no sequence, so its spine has one element, which the mark belongs to
  | .unary operator operand, ⟨hsequence, hflat⟩ => by
    have hrest : operand.spine.rest = [] := hflat.rest_spine hsequence
    have hnode : operand.spine.first.node = operand :=
      hflat.first_node hsequence (Node.node_spine_of_flat operand hflat)
    rw [Node.spine, Spine.node_mapFirst hrest, Element.node, hnode]
  | .field name operand, ⟨hsequence, hflat⟩ => by
    have hrest : operand.spine.rest = [] := hflat.rest_spine hsequence
    have hnode : operand.spine.first.node = operand :=
      hflat.first_node hsequence (Node.node_spine_of_flat operand hflat)
    rw [Node.spine, Spine.node_mapFirst hrest, Element.node, hnode]
  | .sequence [], _ => rfl
  | .sequence [n], hflat => absurd rfl hflat.1
  | .sequence (n :: m :: ns), hflat =>
    Spine.node_ofElements (Node.nodes_elementsOfAll_of_flat (n :: m :: ns) hflat.2)

theorem Node.nodes_elementsOfAll_of_flat : ∀ ns : List Node, Node.Flat.flatItems ns →
    Element.node.nodes (Node.spine.elementsOfAll ns) = ns
  | [], _ => rfl
  | n :: ns, ⟨hsequence, hflat, hitems⟩ => by
    -- an item that is no sequence contributes one element
    have hrest : n.spine.rest = [] := hflat.rest_spine hsequence
    have hnode : n.spine.first.node = n :=
      hflat.first_node hsequence (Node.node_spine_of_flat n hflat)
    rw [Node.spine.elementsOfAll, Spine.elements, hrest, List.singleton_append,
      Element.node.nodes, hnode, Node.nodes_elementsOfAll_of_flat ns hitems]

end

/-- Flat trees are known by their spines. -/
theorem Node.Flat.eq_of_spine_eq {a b : Node} (ha : a.Flat) (hb : b.Flat)
    (h : a.spine = b.spine) : a = b := by
  rw [← Node.node_spine_of_flat a ha, ← Node.node_spine_of_flat b hb, h]

end CanonicalQuery
