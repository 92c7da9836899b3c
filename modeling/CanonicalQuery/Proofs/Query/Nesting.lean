import CanonicalQuery.Proofs.Query.Flat

/-!
# Trees up to the nesting of sequences

How sequences nest within one another says nothing about a query: a sequence among the items of a
sequence may be replaced by its items, and a sequence of one item by this item.  Trees that differ
in no other way are *similar*.  A tree is similar to the one in which all sequences are run
together, so similar trees are those with the same items after that has been done.

What an operator or a field stands before is another matter.  A tree is *scoped* if it is a single
item every time.  Scoped trees without empty sequences are known up to similarity from their spines,
and each spine without blanks is the spine of a scoped tree.

## Main definitions

- `Node.Similar`: trees that differ in how sequences nest.
- `Node.items`: the items of a tree with all sequences run together.
- `Node.Filled`: trees without empty sequences.
- `Node.Scoped`: trees whose operators and fields stand before single items.

## Main statements

- `Node.similar_iff_items_eq`: similar trees are those with the same items.
- `Node.similar_of_spine_eq`: scoped trees with the same spine are similar.
- `Node.filled_scoped_spine_node`: among the trees with a given spine, one is scoped.
-/

namespace CanonicalQuery

namespace Node

/-! ## §1 Similar trees -/

/-- The trees differ only in how sequences stand in sequences, and in sequences of one item. -/
inductive Similar : Node → Node → Prop where
  | refl (n : Node) : Similar n n
  | symm {a b : Node} : Similar a b → Similar b a
  | trans {a b c : Node} : Similar a b → Similar b c → Similar a c
  /-- A sequence that is an item of a sequence is replaced by its items. -/
  | splice (before items behind : List Node) :
      Similar (.sequence (before ++ .sequence items :: behind))
        (.sequence (before ++ items ++ behind))
  /-- A sequence of one item is replaced by the item. -/
  | unwrap (n : Node) : Similar (.sequence [n]) n
  | group {a b : Node} : Similar a b → Similar (.group a) (.group b)
  | unary {a b : Node} (operator : Operator) : Similar a b →
      Similar (.unary operator a) (.unary operator b)
  | field {a b : Node} (name : String) : Similar a b → Similar (.field name a) (.field name b)
  | item {a b : Node} (before behind : List Node) : Similar a b →
      Similar (.sequence (before ++ a :: behind)) (.sequence (before ++ b :: behind))

/-! ## §2 Sequences run together -/

/-- The tree of some items: a sequence, unless there is one item only. -/
def gather : List Node → Node
  | [n] => n
  | ns => .sequence ns

/-- The items of a tree after all its sequences have been run together; a tree that is no sequence
is a single item. -/
def items : Node → List Node
  | .term t => [.term t]
  | .phrase p => [.phrase p]
  | .range name bounds ends => [.range name bounds ends]
  | .group inner => [.group (gather inner.items)]
  | .unary operator operand => [.unary operator (gather operand.items)]
  | .field name operand => [.field name (gather operand.items)]
  | .sequence ns => itemsOfAll ns
where
  itemsOfAll : List Node → List Node
    | [] => []
    | n :: ns => n.items ++ itemsOfAll ns

theorem itemsOfAll_append (ns ms : List Node) :
    items.itemsOfAll (ns ++ ms) = items.itemsOfAll ns ++ items.itemsOfAll ms := by
  induction ns with
  | nil => rfl
  | cons n ns ih => simp [items.itemsOfAll, ih]

/-- Similar trees have the same items. -/
theorem Similar.items_eq {a b : Node} (h : Similar a b) : a.items = b.items := by
  -- on how the trees are similar: each step leaves the items of the whole
  induction h with
  | refl => rfl
  | symm _ ih => exact ih.symm
  | trans _ _ ih ih' => exact ih.trans ih'
  | splice before inner behind =>
    simp [items, itemsOfAll_append, items.itemsOfAll]
  | unwrap n => simp [items, items.itemsOfAll]
  | group _ ih => rw [items, items, ih]
  | unary _ _ ih => rw [items, items, ih]
  | field _ _ ih => rw [items, items, ih]
  | item before behind _ ih =>
    simp only [items, itemsOfAll_append, items.itemsOfAll, ih]

/-- A sequence is similar to its items gathered. -/
theorem similar_gather (ns : List Node) : Similar (.sequence ns) (gather ns) := by
  match ns with
  | [] => exact .refl _
  | [n] => exact .unwrap n
  | n :: m :: ns => exact .refl _

/-- The items of a gathered item stand for it among other items. -/
theorem similar_splice_gather (before ns behind : List Node) :
    Similar (.sequence (before ++ gather ns :: behind)) (.sequence (before ++ ns ++ behind)) := by
  match ns with
  | [] => exact .splice before [] behind
  | [n] => simpa [gather] using Similar.refl _
  | n :: m :: ns => exact .splice before (n :: m :: ns) behind

mutual

/-- A tree is similar to the one in which all sequences are run together. -/
theorem similar_gather_items : ∀ n : Node, Similar n (gather n.items)
  | .term t => .refl _
  | .phrase p => .refl _
  | .range name bounds ends => .refl _
  | .group inner => .group (similar_gather_items inner)
  | .unary operator operand => .unary operator (similar_gather_items operand)
  | .field name operand => .field name (similar_gather_items operand)
  | .sequence ns => by
    have hitems : Similar (.sequence ([] ++ ns)) (.sequence ([] ++ items.itemsOfAll ns)) :=
      similar_sequence_items [] ns
    exact .trans hitems (similar_gather (items.itemsOfAll ns))

theorem similar_sequence_items : ∀ (before ns : List Node),
    Similar (.sequence (before ++ ns)) (.sequence (before ++ items.itemsOfAll ns))
  | before, [] => .refl _
  | before, n :: ns => by
    -- the first item is run together, and then spliced into the sequence
    have hfirst : Similar (.sequence (before ++ n :: ns))
        (.sequence (before ++ gather n.items :: ns)) := .item before ns (similar_gather_items n)
    have hspliced := similar_splice_gather before n.items ns
    have hrest := similar_sequence_items (before ++ n.items) ns
    rw [items.itemsOfAll, ← List.append_assoc]
    exact .trans hfirst (.trans hspliced hrest)

end

/-- Similar trees are those with the same items. -/
theorem similar_iff_items_eq {a b : Node} : Similar a b ↔ a.items = b.items := by
  constructor
  · exact Similar.items_eq
  · intro h
    exact .trans (similar_gather_items a) (h ▸ .symm (similar_gather_items b))

/-! ## §3 Filled and scoped trees -/

/-- No sequence of the tree is empty. -/
def Filled : Node → Prop
  | .term _ | .phrase _ | .range _ _ _ => True
  | .group inner => inner.Filled
  | .unary _ operand | .field _ operand => operand.Filled
  | .sequence ns => ns ≠ [] ∧ filledItems ns
where
  filledItems : List Node → Prop
    | [] => True
    | n :: ns => n.Filled ∧ filledItems ns

/-- Every operator and every field of the tree stands before a single item. -/
def Scoped : Node → Prop
  | .term _ | .phrase _ | .range _ _ _ => True
  | .group inner => inner.Scoped
  | .unary _ operand | .field _ operand => operand.items.length = 1 ∧ operand.Scoped
  | .sequence ns => scopedItems ns
where
  scopedItems : List Node → Prop
    | [] => True
    | n :: ns => n.Scoped ∧ scopedItems ns

theorem scopedItems_append (ns ms : List Node) :
    Scoped.scopedItems (ns ++ ms) ↔ Scoped.scopedItems ns ∧ Scoped.scopedItems ms := by
  induction ns with
  | nil => simp [Scoped.scopedItems]
  | cons n ns ih => simp [Scoped.scopedItems, ih, and_assoc]

/-- What operators and fields stand before is the same in similar trees. -/
theorem Similar.scoped_iff {a b : Node} (h : Similar a b) : a.Scoped ↔ b.Scoped := by
  induction h with
  | refl => exact Iff.rfl
  | symm _ ih => exact ih.symm
  | trans _ _ ih ih' => exact ih.trans ih'
  | splice before inner behind =>
    simp [Scoped, scopedItems_append, Scoped.scopedItems]
  | unwrap n => simp [Scoped, Scoped.scopedItems]
  | group _ ih => exact ih
  | unary _ hsimilar ih => rw [Scoped, Scoped, hsimilar.items_eq, ih]
  | field _ hsimilar ih => rw [Scoped, Scoped, hsimilar.items_eq, ih]
  | item before behind _ ih => simp only [Scoped, scopedItems_append, Scoped.scopedItems, ih]

/-! ## §4 Scoped trees are known from their spines -/

theorem gather_nodes (first : Element) (rest : List Element) :
    gather (Element.node.nodes (first :: rest))
      = .abreast first.node (Element.node.nodes rest) := by
  cases rest with
  | nil => rfl
  | cons e es => rfl

theorem nodes_append (es fs : List Element) :
    Element.node.nodes (es ++ fs) = Element.node.nodes es ++ Element.node.nodes fs := by
  induction es with
  | nil => rfl
  | cons e es ih => simp [Element.node.nodes, ih]

/-- A single item that is given by elements is given by one element. -/
theorem nodes_rest_eq_nil {operand : Node} (hlength : operand.items.length = 1)
    (hnodes : Element.node.nodes operand.spine.elements = operand.items) :
    operand.items = [operand.spine.first.node] ∧ operand.spine.rest = [] := by
  rw [Spine.elements, Element.node.nodes] at hnodes
  cases hrest : operand.spine.rest with
  | nil =>
    rw [hrest] at hnodes
    exact ⟨hnodes.symm, rfl⟩
  -- two elements would be two items
  | cons e es =>
    rw [hrest] at hnodes
    simp [← hnodes, Element.node.nodes] at hlength

mutual

/-- The items of a scoped tree are the trees of the elements of its spine. -/
theorem nodes_elements_of_scoped : ∀ n : Node, n.Filled → n.Scoped →
    Element.node.nodes n.spine.elements = n.items
  | .term _, _, _ | .phrase _, _, _ | .range _ _ _, _, _ => rfl
  | .group inner, hfilled, hscoped => by
    have hinner := nodes_elements_of_scoped inner hfilled hscoped
    -- what is inside the group is gathered from the elements of its spine
    have hgather : gather inner.items
        = .abreast inner.spine.first.node (Element.node.nodes inner.spine.rest) := by
      rw [← hinner, Spine.elements, gather_nodes]
    rw [items, hgather]
    rfl
  | .unary operator operand, hfilled, ⟨hlength, hscoped⟩ => by
    have hoperand := nodes_elements_of_scoped operand hfilled hscoped
    -- the operand is one element, so the mark stands before all of it
    obtain ⟨hitems, hrest⟩ := nodes_rest_eq_nil hlength hoperand
    rw [items, hitems, spine, Spine.mapFirst, hrest]
    rfl
  | .field name operand, hfilled, ⟨hlength, hscoped⟩ => by
    have hoperand := nodes_elements_of_scoped operand hfilled hscoped
    obtain ⟨hitems, hrest⟩ := nodes_rest_eq_nil hlength hoperand
    rw [items, hitems, spine, Spine.mapFirst, hrest]
    rfl
  | .sequence [], hfilled, _ => absurd rfl hfilled.1
  | .sequence (n :: ns), hfilled, hscoped =>
    nodes_elementsOfAll_of_scoped (n :: ns) hfilled.2 hscoped

theorem nodes_elementsOfAll_of_scoped : ∀ ns : List Node, Filled.filledItems ns →
    Scoped.scopedItems ns → Element.node.nodes (spine.elementsOfAll ns) = items.itemsOfAll ns
  | [], _, _ => rfl
  | n :: ns, ⟨hfilled, hfilledItems⟩, ⟨hscoped, hscopedItems⟩ => by
    rw [spine.elementsOfAll, items.itemsOfAll, nodes_append,
      nodes_elements_of_scoped n hfilled hscoped,
      nodes_elementsOfAll_of_scoped ns hfilledItems hscopedItems]

end

/-- Scoped trees without empty sequences that have the same spine are similar. -/
theorem similar_of_spine_eq {a b : Node} (ha : a.Filled) (hb : b.Filled) (ha' : a.Scoped)
    (hb' : b.Scoped) (h : a.spine = b.spine) : Similar a b := by
  rw [similar_iff_items_eq, ← nodes_elements_of_scoped a ha ha',
    ← nodes_elements_of_scoped b hb hb', h]

end Node

/-! ## §5 Each spine without blanks is the spine of a scoped tree -/

/-- No element within the element is blank. -/
def Element.Filled : Element → Prop
  | .blank => False
  | .term _ | .phrase _ | .range _ _ _ => True
  | .group first rest => first.Filled ∧ filledAll rest
  | .marked _ e | .named _ e => e.Filled
where
  filledAll : List Element → Prop
    | [] => True
    | e :: es => e.Filled ∧ filledAll es

theorem Element.filledAll_append (es fs : List Element) :
    Element.Filled.filledAll (es ++ fs)
      ↔ Element.Filled.filledAll es ∧ Element.Filled.filledAll fs := by
  induction es with
  | nil => simp [Element.Filled.filledAll]
  | cons e es ih => simp [Element.Filled.filledAll, ih, and_assoc]

mutual

/-- The spine of a tree without empty sequences has no blanks. -/
theorem Node.filled_elements : ∀ n : Node, n.Filled → Element.Filled.filledAll n.spine.elements
  | .term _, _ | .phrase _, _ | .range _ _ _, _ => ⟨trivial, trivial⟩
  | .group inner, hfilled => ⟨Node.filled_elements inner hfilled, trivial⟩
  | .unary _ operand, hfilled => Node.filled_elements operand hfilled
  | .field _ operand, hfilled => Node.filled_elements operand hfilled
  | .sequence [], hfilled => absurd rfl hfilled.1
  | .sequence (n :: ns), hfilled => Node.filled_elementsOfAll (n :: ns) hfilled.2

theorem Node.filled_elementsOfAll : ∀ ns : List Node, Node.Filled.filledItems ns →
    Element.Filled.filledAll (Node.spine.elementsOfAll ns)
  | [], _ => trivial
  | n :: ns, ⟨hfilled, hitems⟩ =>
    (Element.filledAll_append _ _).mpr
      ⟨Node.filled_elements n hfilled, Node.filled_elementsOfAll ns hitems⟩

end

/-- The tree is a single item, scoped and without empty sequences. -/
structure Node.IsItem (n : Node) : Prop where
  items_eq : n.items = [n]
  isFilled : n.Filled
  isScoped : n.Scoped

theorem Node.IsItem.unary {n : Node} (h : n.IsItem) (operator : Operator) :
    (Node.unary operator n).IsItem where
  items_eq := by rw [items, h.items_eq, gather]
  isFilled := h.isFilled
  isScoped := ⟨by rw [h.items_eq]; rfl, h.isScoped⟩

theorem Node.IsItem.field {n : Node} (h : n.IsItem) (name : String) :
    (Node.field name n).IsItem where
  items_eq := by rw [items, h.items_eq, gather]
  isFilled := h.isFilled
  isScoped := ⟨by rw [h.items_eq]; rfl, h.isScoped⟩

/-- Items side by side are run together already. -/
theorem Node.filled_scoped_abreast {n : Node} {ns : List Node} (hn : n.IsItem)
    (hns : ∀ m ∈ ns, m.IsItem) :
    (Node.abreast n ns).items = n :: ns ∧ (Node.abreast n ns).Filled ∧
      (Node.abreast n ns).Scoped := by
  cases ns with
  | nil => exact ⟨hn.items_eq, hn.isFilled, hn.isScoped⟩
  | cons m ms =>
    -- single items stay as they are when they are run together
    have hall : ∀ ns : List Node, (∀ m ∈ ns, m.IsItem) →
        items.itemsOfAll ns = ns ∧ Filled.filledItems ns ∧ Scoped.scopedItems ns := by
      intro ns h
      induction ns with
      | nil => exact ⟨rfl, trivial, trivial⟩
      | cons n ns ih =>
        obtain ⟨hfirst, hrest⟩ := List.forall_mem_cons.mp h
        obtain ⟨hitems, hfilled, hscoped⟩ := ih hrest
        refine ⟨?_, ⟨hfirst.isFilled, hfilled⟩, hfirst.isScoped, hscoped⟩
        rw [items.itemsOfAll, hfirst.items_eq, hitems]
        rfl
    obtain ⟨hitems, hfilled, hscoped⟩ := hall (n :: m :: ms) (List.forall_mem_cons.mpr ⟨hn, hns⟩)
    exact ⟨hitems, ⟨List.cons_ne_nil n (m :: ms), hfilled⟩, hscoped⟩

mutual

/-- The tree of an element without blanks is a single item. -/
theorem Element.isItem_node : ∀ e : Element, e.Filled → e.node.IsItem
  | .term _, _ | .phrase _, _ | .range _ _ _, _ => ⟨rfl, trivial, trivial⟩
  | .group first rest, ⟨hfirst, hrest⟩ => by
    obtain ⟨hitems, hfilled, hscoped⟩ :=
      Node.filled_scoped_abreast (Element.isItem_node first hfirst)
        (Element.isItem_nodes rest hrest)
    -- the items of the group are the trees of its elements
    refine ⟨?_, hfilled, hscoped⟩
    rw [Element.node, Node.items, hitems, ← Node.gather_nodes]
    rfl
  | .marked operator e, he => (Element.isItem_node e he).unary operator
  | .named name e, he => (Element.isItem_node e he).field name

theorem Element.isItem_nodes : ∀ es : List Element, Element.Filled.filledAll es →
    ∀ n ∈ Element.node.nodes es, n.IsItem
  | [], _ => List.forall_mem_nil _
  | e :: es, ⟨he, hes⟩ =>
    List.forall_mem_cons.mpr ⟨Element.isItem_node e he, Element.isItem_nodes es hes⟩

end

/-- Of the trees with a given spine, one is scoped. -/
theorem Node.filled_scoped_spine_node {n : Node} (h : n.Filled) :
    n.spine.node.Filled ∧ n.spine.node.Scoped := by
  obtain ⟨hfirst, hrest⟩ := Node.filled_elements n h
  exact (Node.filled_scoped_abreast (Element.isItem_node _ hfirst)
    (Element.isItem_nodes _ hrest)).2

end CanonicalQuery
