import CanonicalQuery.Proofs.Tree.Denotation

/-!
# The grammar of attribute trees

Which JSON values are attribute trees, said without saying what they mean.  A value belongs to a
category: it is a node, a marker, a range, a degree of similarity, the symbol of an operator or just
a text.  For each category the grammar lists the shapes of its objects; a shape gives a set of keys
and under each key the category of what it leads to.  In which order the members of an object stand
is of no concern to the grammar.

The reader accepts exactly the nodes of this grammar among the values with sorted objects, and
JSON values that are maps have no others.

## Main definitions

- `Category`, `shapes`: the categories and the shapes of their objects.
- `Derives`: which values belong to a category.

## Main statements

- `Tree.denoted_iff_derives`: in each category, the values that mean something are the derivable
  ones.
- `Node.ofTree_accepts_iff_derives`: the reader accepts the nodes of the grammar and nothing else.
-/

namespace CanonicalQuery

open CanonicalQuery.Json

namespace Tree

/-! ## §1 The grammar -/

/-- The categories of values in an attribute tree. -/
inductive Category where
  | text
  | degree
  | symbol (o : Operator)
  | marker
  | range
  | node
  deriving DecidableEq, Repr

/-- The shapes of the objects of a category: their keys, each with the category of its value. -/
def shapes : Category → List (List (String × Category))
  | .node =>
    [[("term", .text)],
      [("similarity", .degree), ("term", .text)],
      [("boost", .text), ("term", .text)],
      [("phrase", .text)],
      [("boost", .text), ("phrase", .text)],
      [("distance", .text), ("phrase", .text)],
      [("group", .node)],
      [("operand", .node), ("unary_operator", .marker)],
      [("operand", .node)],
      [("field", .text), ("operand", .node)],
      [("field", .text), ("inclusive_range", .range)],
      [("exclusive_range", .range), ("field", .text)]]
  | .range => [[("from", .text), ("to", .text)]]
  | .marker =>
    [[("unary_operator", .symbol .required)],
      [("unary_operator", .symbol .prohibited)],
      [("required", .symbol .required)],
      [("prohibited", .symbol .prohibited)]]
  | .symbol _ | .degree | .text => []

/-- Each shape names its keys in their order. -/
theorem pairwise_keys_of_mem_shapes {c : Category} :
    ∀ shape ∈ shapes c, (Members.keys shape).Pairwise (· < ·) := by
  cases c with
  | node | range | marker => decide
  | text | degree | symbol =>
    intro shape hshape
    cases hshape

/-- Which values belong to a category. -/
inductive Derives : Category → Value → Prop where
  | text (s : String) : Derives .text (.string s)
  | degree (s : String) : Derives .degree (.string s)
  | noDegree : Derives .degree .null
  | symbol (o : Operator) : Derives (.symbol o) (.string o.symbol)
  | bareSymbol (o : Operator) : Derives .marker (.string o.symbol)
  | word (s : String) : Derives .node (.string s)
  | sequence {vs : List Value} : (∀ v ∈ vs, Derives .node v) → Derives .node (.array vs)
  /-- An object of one of the shapes: it has exactly the keys of the shape, and what they lead to
  is derivable. -/
  | object {c : Category} {shape : List (String × Category)} {members : List (String × Value)} :
      shape ∈ shapes c → Members.HasKeys (Members.keys shape) members →
      (∀ name part v, (name, part) ∈ shape → (name, v) ∈ members → Derives part v) →
      Derives c (.object members)

/-- What the values of a category mean. -/
def Denoted : Category → Value → Prop
  | .text, v => ∃ s, v = .string s
  | .degree, v => ∃ degree, Degree v degree
  | .symbol o, v => v = .string o.symbol
  | .marker, v => ∃ o, Marks v o
  | .range, v => ∃ lower upper, v = .object [("from", .string lower), ("to", .string upper)]
  | .node, v => ∃ n, Denotes v n

/-! ## §2 What means something is derivable -/

theorem Derives.single {c part : Category} {key : String} {v : Value}
    (hshape : [(key, part)] ∈ shapes c) (hv : Derives part v) :
    Derives c (.object [(key, v)]) := by
  refine .object hshape (Members.hasKeys_of_keys_eq rfl) ?_
  intro name part' v' hpart hmember
  obtain ⟨rfl, rfl⟩ := Prod.mk.inj (List.mem_singleton.mp hpart)
  obtain ⟨-, rfl⟩ := Prod.mk.inj (List.mem_singleton.mp hmember)
  exact hv

theorem Derives.pair {c part part' : Category} {key key' : String} {v w : Value}
    (hshape : [(key, part), (key', part')] ∈ shapes c)
    (hv : Derives part v) (hw : Derives part' w) :
    Derives c (.object [(key, v), (key', w)]) := by
  -- the keys of a shape are in order, so a member belongs to one of them only
  have hlt : key < key' := List.pairwise_pair.mp (pairwise_keys_of_mem_shapes _ hshape)
  have hne : key ≠ key' := String.ne_of_lt hlt
  refine .object hshape (Members.hasKeys_of_keys_eq rfl) ?_
  intro name part'' v' hpart hmember
  simp only [List.mem_cons, Prod.mk.injEq, List.not_mem_nil, or_false] at hpart hmember
  rcases hpart with ⟨rfl, rfl⟩ | ⟨rfl, rfl⟩
  · rcases hmember with ⟨-, rfl⟩ | ⟨heq, -⟩
    · exact hv
    · exact absurd heq hne
  · rcases hmember with ⟨heq, -⟩ | ⟨-, rfl⟩
    · exact absurd heq.symm hne
    · exact hw

theorem Degree.derives {v : Value} {degree : String} (h : Degree v degree) :
    Derives .degree v := by
  cases h with
  | given => exact .degree _
  | null => exact .noDegree

theorem Marks.derives {m : Value} {o : Operator} (h : Marks m o) : Derives .marker m := by
  cases h with
  | symbol => exact .bareSymbol o
  | common => cases o <;> exact .single (by simp [shapes]) (.symbol _)
  | named => cases o <;> exact .single (by simp [shapes, Operator.name]) (.symbol _)

theorem derives_range (lower upper : String) :
    Derives .range (.object [("from", .string lower), ("to", .string upper)]) :=
  .pair (by simp [shapes]) (.text lower) (.text upper)

mutual

/-- Every attribute tree is a node of the grammar. -/
theorem Denotes.derives : ∀ {v : Value} {n : Node}, Denotes v n → Derives .node v
  | _, _, .word s => .word s
  | _, _, .sequence h => .sequence h.derivesItems
  | _, _, .term s | _, _, .phrase s => .single (by simp [shapes]) (.text s)
  | _, _, .similarTerm s h => .pair (by simp [shapes]) h.derives (.text s)
  | _, _, .boostedTerm t s | _, _, .boostedPhrase t s | _, _, .distantPhrase t s =>
    .pair (by simp [shapes]) (.text t) (.text s)
  | _, _, .group h | _, _, .operand h => .single (by simp [shapes]) h.derives
  | _, _, .unary hm h => .pair (by simp [shapes]) h.derives hm.derives
  | _, _, .field name h => .pair (by simp [shapes]) (.text name) h.derives
  | _, _, .inclusive name lower upper =>
    .pair (by simp [shapes]) (.text name) (derives_range lower upper)
  | _, _, .exclusive name lower upper =>
    .pair (by simp [shapes]) (derives_range lower upper) (.text name)

theorem DenotesAll.derivesItems : ∀ {vs : List Value} {ns : List Node}, DenotesAll vs ns →
    ∀ v ∈ vs, Derives .node v
  | _, _, .nil => List.forall_mem_nil _
  | _, _, .cons h hs => List.forall_mem_cons.mpr ⟨h.derives, hs.derivesItems⟩

end

theorem Denoted.derives {c : Category} {v : Value} (h : Denoted c v) : Derives c v := by
  cases c with
  | text => obtain ⟨s, rfl⟩ := h; exact .text s
  | degree => obtain ⟨_, hdegree⟩ := h; exact hdegree.derives
  | symbol o => cases h; exact .symbol o
  | marker => obtain ⟨_, hmarks⟩ := h; exact hmarks.derives
  | range => obtain ⟨lower, upper, rfl⟩ := h; exact derives_range lower upper
  | node => obtain ⟨_, hdenotes⟩ := h; exact hdenotes.derives

theorem Denoted.sorted {c : Category} {v : Value} (h : Denoted c v) : v.Sorted := by
  cases c with
  | text => obtain ⟨s, rfl⟩ := h; exact sorted_string s
  | degree => obtain ⟨_, hdegree⟩ := h; exact hdegree.sorted
  | symbol o => cases h; exact sorted_string _
  | marker => obtain ⟨_, hmarks⟩ := h; exact hmarks.sorted
  | range =>
    obtain ⟨lower, upper, rfl⟩ := h
    exact (Value.sorted_pair (by decide)).mpr ⟨sorted_string lower, sorted_string upper⟩
  | node => obtain ⟨_, hdenotes⟩ := h; exact hdenotes.sorted

/-! ## §3 What is derivable means something -/

section Object

variable {members : List (String × Value)}

theorem denoted_single {key : String} {part : Category}
    (hlt : (Members.keys members).Pairwise (· < ·)) (hkeys : Members.HasKeys [key] members)
    (hparts : ∀ name p v, (name, p) ∈ [(key, part)] → (name, v) ∈ members → Denoted p v) :
    ∃ v, members = [(key, v)] ∧ Denoted part v := by
  obtain ⟨v, rfl⟩ := Members.eq_single hkeys hlt
  exact ⟨v, rfl, hparts key part v (by simp) (by simp)⟩

theorem denoted_pair {key key' : String} {part part' : Category}
    (hshape : (Members.keys [(key, part), (key', part')]).Pairwise (· < ·))
    (hlt : (Members.keys members).Pairwise (· < ·)) (hkeys : Members.HasKeys [key, key'] members)
    (hparts : ∀ name p v, (name, p) ∈ [(key, part), (key', part')] → (name, v) ∈ members →
      Denoted p v) :
    ∃ v w, members = [(key, v), (key', w)] ∧ Denoted part v ∧ Denoted part' w := by
  obtain ⟨v, w, rfl⟩ := Members.eq_pair (List.pairwise_pair.mp hshape) hkeys hlt
  exact ⟨v, w, rfl, hparts key part v (by simp) (by simp), hparts key' part' w (by simp) (by simp)⟩

/-- An object of a shape of its category means something if what its keys lead to does. -/
theorem denoted_object {c : Category} {shape : List (String × Category)}
    (hshape : shape ∈ shapes c) (hlt : (Members.keys members).Pairwise (· < ·))
    (hkeys : Members.HasKeys (Members.keys shape) members)
    (hparts : ∀ name p v, (name, p) ∈ shape → (name, v) ∈ members → Denoted p v) :
    Denoted c (.object members) := by
  have hordered := pairwise_keys_of_mem_shapes shape hshape
  cases c with
  | text | degree | symbol => cases hshape
  | marker =>
    simp only [shapes, List.mem_cons, List.not_mem_nil, or_false] at hshape
    rcases hshape with rfl | rfl | rfl | rfl
    · obtain ⟨_, rfl, rfl⟩ := denoted_single hlt hkeys hparts
      exact ⟨_, .common .required⟩
    · obtain ⟨_, rfl, rfl⟩ := denoted_single hlt hkeys hparts
      exact ⟨_, .common .prohibited⟩
    · obtain ⟨_, rfl, rfl⟩ := denoted_single hlt hkeys hparts
      exact ⟨_, .named .required⟩
    · obtain ⟨_, rfl, rfl⟩ := denoted_single hlt hkeys hparts
      exact ⟨_, .named .prohibited⟩
  | range =>
    obtain rfl := List.mem_singleton.mp hshape
    obtain ⟨_, _, rfl, ⟨lower, rfl⟩, upper, rfl⟩ := denoted_pair hordered hlt hkeys hparts
    exact ⟨lower, upper, rfl⟩
  | node =>
    -- one rule of `Denotes` for each of the shapes
    simp only [shapes, List.mem_cons, List.not_mem_nil, or_false] at hshape
    rcases hshape with rfl | rfl | rfl | rfl | rfl | rfl | rfl | rfl | rfl | rfl | rfl | rfl
    · obtain ⟨_, rfl, s, rfl⟩ := denoted_single hlt hkeys hparts
      exact ⟨_, .term s⟩
    · obtain ⟨_, _, rfl, ⟨_, hdegree⟩, s, rfl⟩ := denoted_pair hordered hlt hkeys hparts
      exact ⟨_, .similarTerm s hdegree⟩
    · obtain ⟨_, _, rfl, ⟨factor, rfl⟩, s, rfl⟩ := denoted_pair hordered hlt hkeys hparts
      exact ⟨_, .boostedTerm factor s⟩
    · obtain ⟨_, rfl, s, rfl⟩ := denoted_single hlt hkeys hparts
      exact ⟨_, .phrase s⟩
    · obtain ⟨_, _, rfl, ⟨factor, rfl⟩, s, rfl⟩ := denoted_pair hordered hlt hkeys hparts
      exact ⟨_, .boostedPhrase factor s⟩
    · obtain ⟨_, _, rfl, ⟨words, rfl⟩, s, rfl⟩ := denoted_pair hordered hlt hkeys hparts
      exact ⟨_, .distantPhrase words s⟩
    · obtain ⟨_, rfl, _, hinner⟩ := denoted_single hlt hkeys hparts
      exact ⟨_, .group hinner⟩
    · obtain ⟨_, _, rfl, ⟨_, hoperand⟩, _, hmarks⟩ := denoted_pair hordered hlt hkeys hparts
      exact ⟨_, .unary hmarks hoperand⟩
    · obtain ⟨_, rfl, _, hoperand⟩ := denoted_single hlt hkeys hparts
      exact ⟨_, .operand hoperand⟩
    · obtain ⟨_, _, rfl, ⟨name, rfl⟩, _, hoperand⟩ := denoted_pair hordered hlt hkeys hparts
      exact ⟨_, .field name hoperand⟩
    · obtain ⟨_, _, rfl, ⟨name, rfl⟩, lower, upper, rfl⟩ :=
        denoted_pair hordered hlt hkeys hparts
      exact ⟨_, .inclusive name lower upper⟩
    · obtain ⟨_, _, rfl, ⟨lower, upper, rfl⟩, name, rfl⟩ :=
        denoted_pair hordered hlt hkeys hparts
      exact ⟨_, .exclusive name lower upper⟩

end Object

/-- If each of the items of an array denotes a query tree, then together they do. -/
theorem exists_denotesAll : ∀ {vs : List Value}, (∀ v ∈ vs, ∃ n, Denotes v n) →
    ∃ ns, DenotesAll vs ns
  | [], _ => ⟨[], .nil⟩
  | v :: vs, h => by
    obtain ⟨n, hn⟩ := h v List.mem_cons_self
    obtain ⟨ns, hns⟩ := exists_denotesAll fun w hw => h w (List.mem_cons_of_mem v hw)
    exact ⟨n :: ns, .cons hn hns⟩

/-- A derivable value with sorted objects means something. -/
theorem Derives.denoted {c : Category} {v : Value} (h : Derives c v) : v.Sorted → Denoted c v := by
  -- sortedness is handed down to the parts of a value
  induction h with
  | text s => exact fun _ => ⟨s, rfl⟩
  | degree s => exact fun _ => ⟨s, .given s⟩
  | noDegree => exact fun _ => ⟨"", .null⟩
  | symbol o => exact fun _ => rfl
  | bareSymbol o => exact fun _ => ⟨o, .symbol o⟩
  | word s => exact fun _ => ⟨.word s, .word s⟩
  | sequence _ ih =>
    intro hsorted
    obtain ⟨ns, hns⟩ := exists_denotesAll fun v hv => ih v hv (hsorted.item hv)
    exact ⟨.sequence ns, .sequence hns⟩
  | object hshape hkeys _ ih =>
    intro hsorted
    exact denoted_object hshape hsorted.1 hkeys fun name p v hpart hmember =>
      ih name p v hpart hmember (hsorted.2.member hmember)

/-- In each category, the values that mean something are the derivable ones with sorted objects. -/
theorem denoted_iff_derives {c : Category} {v : Value} :
    Denoted c v ↔ v.Sorted ∧ Derives c v :=
  ⟨fun h => ⟨h.sorted, h.derives⟩, fun h => h.2.denoted h.1⟩

end Tree

/-- **The reader accepts the nodes of the grammar and nothing else.**  A JSON value is the attribute
tree of some query tree exactly if its objects are maps in the order of their keys and it can be
derived as a node. -/
theorem Node.ofTree_accepts_iff_derives (v : Value) :
    (∃ n, Node.ofTree v = .ok n) ↔ v.Sorted ∧ Tree.Derives .node v := by
  rw [← Tree.denoted_iff_derives]
  exact exists_congr fun n => Tree.ofTree_eq_ok_iff

end CanonicalQuery
