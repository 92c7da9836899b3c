import CanonicalQuery.Proofs.Tree.RoundTrip

/-!
# The normal form of attribute trees

One query tree may be denoted by several attribute trees.  They differ in spelling only: a word may
be a string or an object, a similarity may be null, an operand may be wrapped, and the marker of an
operator may be a symbol or an object.  The normal form settles the spelling at every place where
a node may stand, and leaves everything else as it is.

Reading an attribute tree and writing it again gives its normal form.  So the normal form is exactly
what the reader keeps of an attribute tree.

## Main definitions

- `Tree.normal`: the normal form of a JSON value.
- `Tree.normalMarker`: the normal form of a marker.

## Main statements

- `Tree.Denotes.toTree_eq`: the attribute tree that is written for what a value denotes is the
  normal form of the value.
- `Node.toTree_eq_normal`: the same of the reader, and what follows for the values that it accepts.
-/

namespace CanonicalQuery

open CanonicalQuery.Json (Value)

namespace Tree

/-! ## §1 The normal form -/

/-- The symbol that a marker holds. -/
def heldSymbol? : Value → Option String
  | .string symbol => some symbol
  | .object [(_, .string symbol)] => some symbol
  | _ => none

/-- A marker of the operator whose symbol it holds; other values stay as they are. -/
def normalMarker (m : Value) : Value :=
  match (heldSymbol? m).bind Operator.ofSymbol? with
  | some o => o.marker
  | none => m

mutual

/-- The normal form of a value in the place of a node. -/
def normal : Value → Value
  | .string s => .object [("term", .string s)]
  | .array vs => .array (normalItems vs)
  | .object [("operand", v)] => normal v
  | .object [("similarity", .null), ("term", t)] =>
    .object [("similarity", .string ""), ("term", t)]
  | .object [("operand", v), ("unary_operator", m)] =>
    .object [("operand", normal v), ("unary_operator", normalMarker m)]
  | .object [("group", v)] => .object [("group", normal v)]
  | .object [("field", f), ("operand", v)] => .object [("field", f), ("operand", normal v)]
  | v => v

def normalItems : List Value → List Value
  | [] => []
  | v :: vs => normal v :: normalItems vs

end

/-- A marker is brought into the form that is written for the operator that it denotes. -/
theorem Marks.normalMarker_eq {m : Value} {o : Operator} (h : Marks m o) :
    normalMarker m = o.marker := by
  cases h with
  | symbol => simp [normalMarker, heldSymbol?, Operator.ofSymbol?_symbol]
  | common => simp [normalMarker, heldSymbol?, Operator.ofSymbol?_symbol]
  | named => simp [normalMarker, heldSymbol?, Operator.ofSymbol?_symbol]

/-! ## §2 Writing what was read gives the normal form -/

/-- A term with a similarity is written with its degree as a string. -/
theorem normal_similarTerm {v : Value} {degree : String} (h : Degree v degree) (s : String) :
    normal (.object [("similarity", v), ("term", .string s)])
      = (Node.term ⟨s, some (.similarity degree)⟩).toTree := by
  cases h <;> simp [normal, Node.toTree, Term.toTree]

mutual

/-- The attribute tree that is written for what a value denotes is the normal form of the value. -/
theorem Denotes.toTree_eq : ∀ {v : Value} {n : Node}, Denotes v n → n.toTree = normal v
  | _, _, .word s => by rw [normal]; rfl
  | _, _, .sequence h => by rw [normal, Node.toTree, h.itemTrees_eq_normalItems]
  | _, _, .term s => by simp [normal]; rfl
  | _, _, .similarTerm s h => (normal_similarTerm h s).symm
  | _, _, .boostedTerm factor s => by simp [normal]; rfl
  | _, _, .phrase s => by simp [normal]; rfl
  | _, _, .boostedPhrase factor s => by simp [normal]; rfl
  | _, _, .distantPhrase words s => by simp [normal]; rfl
  | _, _, .group h => by rw [normal, Node.toTree, h.toTree_eq]
  | _, _, .unary hm h => by rw [normal, Node.toTree, h.toTree_eq, hm.normalMarker_eq]
  | _, _, .operand h => by rw [normal, h.toTree_eq]
  | _, _, .field name h => by rw [normal, Node.toTree, h.toTree_eq]
  | _, _, .inclusive name lower upper => by simp [normal]; rfl
  | _, _, .exclusive name lower upper => by simp [normal]; rfl

theorem DenotesAll.itemTrees_eq_normalItems : ∀ {vs : List Value} {ns : List Node},
    DenotesAll vs ns → Node.toTree.itemTrees ns = normalItems vs
  | _, _, .nil => rfl
  | _, _, .cons h hs => by
    rw [Node.toTree.itemTrees, normalItems, h.toTree_eq, hs.itemTrees_eq_normalItems]

end

theorem Denotes.normal {v : Value} {n : Node} (h : Denotes v n) : Denotes (normal v) n := by
  rw [← h.toTree_eq]
  exact denotes_toTree n

theorem Denotes.normal_normal {v : Value} {n : Node} (h : Denotes v n) :
    Tree.normal (Tree.normal v) = Tree.normal v := by
  rw [← h.normal.toTree_eq, h.toTree_eq]

/-- Two values denote the same query tree exactly if they have the same normal form. -/
theorem Denotes.eq_iff_normal_eq {v w : Value} {n m : Node} (hv : Denotes v n)
    (hw : Denotes w m) : n = m ↔ Tree.normal v = Tree.normal w := by
  rw [← hv.toTree_eq, ← hw.toTree_eq]
  constructor
  · intro h
    rw [h]
  · intro h
    -- trees that are written alike are read as one
    have hn := ofTree_of_denotes (denotes_toTree n)
    have hm := ofTree_of_denotes (denotes_toTree m)
    rw [h, hm] at hn
    exact (Except.ok.inj hn).symm

end Tree

/-! ## §3 Normal forms of accepted values -/

/-- **Writing what was read gives the normal form.**  Among the values that are read, those with the
same normal form are read as the same query tree and no others; the normal form of such a value is
read as well, has itself as normal form, and has the canonical text of the value. -/
theorem Node.toTree_eq_normal {v : Value} {n : Node} (h : Node.ofTree v = .ok n) :
    n.toTree = Tree.normal v ∧
    (∀ w m, Node.ofTree w = .ok m →
      (Node.ofTree v = Node.ofTree w ↔ Tree.normal v = Tree.normal w)) ∧
    Node.ofTree (Tree.normal v) = .ok n ∧
    Tree.normal (Tree.normal v) = Tree.normal v ∧
    (Tree.normal v).canonicalQuery = v.canonicalQuery := by
  -- all of it is known of what a value denotes
  have hdenotes := Tree.denotes_of_ofTree h
  refine ⟨hdenotes.toTree_eq, ?_, Tree.ofTree_of_denotes hdenotes.normal,
    hdenotes.normal_normal, ?_⟩
  · intro w m hw
    have hdenotes' := Tree.denotes_of_ofTree hw
    rw [h, hw, ← hdenotes.eq_iff_normal_eq hdenotes', Except.ok.injEq]
  · rw [hdenotes.canonicalQuery, hdenotes.normal.canonicalQuery]

/-- A marked list in parentheses, spelled with a bare symbol, a wrapped operand, a word as a string
and a similarity that is null, and the normal form of that spelling. -/
theorem Node.toTree_eq_normal_of_short_spelling :
    let spelled : Value :=
      .object [("operand", .object [("operand", .object [("group",
          .array [.string "a", .object [("similarity", .null), ("term", .string "b")]])])]),
        ("unary_operator", .string "-")]
    let normal : Value :=
      .object [("operand", .object [("group",
          .array [.object [("term", .string "a")],
            .object [("similarity", .string ""), ("term", .string "b")]])]),
        ("unary_operator", .object [("prohibited", .string "-")])]
    let n : Node := .unary .prohibited
      (.group (.sequence [.word "a", .term ⟨"b", some (.similarity "")⟩]))
    Node.ofTree spelled = .ok n ∧ Tree.normal spelled = normal ∧ n.toTree = Tree.normal spelled ∧
      Node.ofTree (Tree.normal spelled) = .ok n := by
  intro spelled normal n
  have hread : Node.ofTree spelled = .ok n := rfl
  obtain ⟨htree, -, hnormal, -, -⟩ := Node.toTree_eq_normal hread
  exact ⟨hread, rfl, htree, hnormal⟩

end CanonicalQuery
