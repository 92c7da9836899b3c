import CanonicalQuery.Error
import CanonicalQuery.Proofs.Query.Contexts
import CanonicalQuery.Proofs.Tree.Grammar

/-!
# Attribute trees with a hole

An attribute tree is read part by part, and what a part gives does not depend on where it stands.
So a value in the hole of a context that can be read up to the hole is read as if it stood alone: a
defect of the value is the defect of the whole, at the path of the hole, whatever comes behind; and
if the rest can be read as well, the query tree of the value is put into the hole of a query tree
that depends on the context only.

## Main definitions

- `Tree.Layer`, `Tree.Context`: the layers of an attribute tree around a hole.
- `Tree.Context.path`: the way from the root to the hole.
- `Tree.Context.Gives`: the query tree with a hole that an attribute tree with a hole denotes.
- `Rerooted`: an error whose path begins at another root.

## Main statements

- `Node.ofRead_context_fill`: what is read of a filled context.
-/

namespace CanonicalQuery

open CanonicalQuery.Json

namespace Tree

/-! ## §1 Contexts -/

/-- One layer of an attribute tree around a hole. -/
inductive Layer where
  /-- An array: the items in front of the hole and those behind it. -/
  | item (earlier later : List Value)
  | group
  /-- A bare operand. -/
  | operand
  | unary (marker : Value)
  | field (name : String)
  deriving Repr

/-- The layers around a hole, the outermost first. -/
abbrev Context := List Layer

def Layer.fill : Layer → Value → Value
  | .item earlier later, v => .array (earlier ++ v :: later)
  | .group, v => .object [("group", v)]
  | .operand, v => .object [("operand", v)]
  | .unary marker, v => .object [("operand", v), ("unary_operator", marker)]
  | .field name, v => .object [("field", .string name), ("operand", v)]

/-- The attribute tree that has a value in place of the hole. -/
def Context.fill : Context → Value → Value
  | [], v => v
  | l :: C, v => l.fill (fill C v)

/-- The step from a layer to what it is around. -/
def Layer.step : Layer → Step
  | .item earlier _ => .index earlier.length
  | .group => .key "group"
  | .operand | .unary _ | .field _ => .key "operand"

/-- The path of the hole. -/
def Context.path (C : Context) : Path :=
  C.map Layer.step

/-- The value alone is an attribute tree. -/
def Accepted (v : Value) : Prop :=
  ∃ n, Node.ofRead (.ok v) = .ok n

/-- What is read before the hole of a layer is as it should be. -/
def Layer.Opens : Layer → Prop
  | .item earlier _ => ∀ v ∈ earlier, Accepted v
  | .unary marker => ∃ o, readMarker marker = .ok o
  | .group | .operand | .field _ => True

/-- What is read behind the hole of a layer is as it should be. -/
def Layer.Closes : Layer → Prop
  | .item _ later => ∀ v ∈ later, Accepted v
  | .group | .operand | .unary _ | .field _ => True

def Context.Opens (C : Context) : Prop := ∀ l ∈ C, l.Opens

def Context.Closes (C : Context) : Prop := ∀ l ∈ C, l.Closes

/-- The query tree with a hole that an attribute tree with a hole denotes. -/
inductive Context.Gives : Context → Node.Context → Prop where
  | hole : Gives [] []
  | item {earlier later : List Value} {ns ms : List Node} {C : Context} {D : Node.Context} :
      DenotesAll earlier ns → DenotesAll later ms → Gives C D →
      Gives (.item earlier later :: C) (.item ns ms :: D)
  | group {C : Context} {D : Node.Context} : Gives C D → Gives (.group :: C) (.group :: D)
  /-- A bare operand leaves no trace. -/
  | operand {C : Context} {D : Node.Context} : Gives C D → Gives (.operand :: C) D
  | unary {marker : Value} {o : Operator} {C : Context} {D : Node.Context} : Marks marker o →
      Gives C D → Gives (.unary marker :: C) (.unary o :: D)
  | field {C : Context} {D : Node.Context} (name : String) : Gives C D →
      Gives (.field name :: C) (.field name :: D)

/-! ## §2 Defects in the hole -/

theorem accepted_iff_denotes {v : Value} : Accepted v ↔ ∃ n, Denotes v n := by
  simp only [Accepted, Node.ofRead, mapError_eq_ok, Node.ofTree, ofTree_eq_ok_iff]

/-- The items in front of a defect are read first, and nothing is read behind it. -/
theorem ofTrees_append_error {v : Value} {d : Defect} (hv : ofTree v = .error d)
    (later : List Value) :
    ∀ (earlier : List Value) (position : Nat), (∀ w ∈ earlier, Accepted w) →
      ofTrees position (earlier ++ v :: later)
        = .error (d.below (.index (position + earlier.length)))
  | [], position, _ => by
    rw [List.nil_append, ofTrees, hv]
    rfl
  | w :: earlier, position, hearlier => by
    obtain ⟨n, hn⟩ := accepted_iff_denotes.mp (hearlier w List.mem_cons_self)
    -- an item in front moves the position by one and is read without a defect
    have hrest := ofTrees_append_error hv later earlier (position + 1)
      fun u hu => hearlier u (List.mem_cons_of_mem w hu)
    rw [List.cons_append, ofTrees, ofTree_of_denotes hn, hrest, List.length_cons,
      Nat.add_assoc, Nat.add_comm 1]
    rfl

/-- A defect in the hole of a layer is the defect of the whole. -/
theorem Layer.ofTree_fill_error {l : Layer} (hl : l.Opens) {v : Value} {d : Defect}
    (hv : ofTree v = .error d) : ofTree (l.fill v) = .error (d.below l.step) := by
  cases l with
  | item earlier later =>
    have hitems := ofTrees_append_error hv later earlier 0 hl
    rw [Nat.zero_add] at hitems
    rw [Layer.fill, ofTree, hitems]
    rfl
  | group =>
    rw [Layer.fill, ofTree, hv]
    rfl
  | operand =>
    rw [Layer.fill, ofTree, hv]
    rfl
  | unary marker =>
    -- the marker is read before the operand
    obtain ⟨o, ho⟩ := hl
    rw [Layer.fill, ofTree, ho, hv]
    rfl
  | field name =>
    rw [Layer.fill, ofTree, hv]
    rfl

/-- A defect seen from further up. -/
def Defect.under (path : Path) (d : Defect) : Defect :=
  { d with path := path ++ d.path }

theorem Context.ofTree_fill_error {C : Context} (hC : C.Opens) {v : Value} {d : Defect}
    (hv : ofTree v = .error d) : ofTree (C.fill v) = .error (d.under C.path) := by
  induction C with
  | nil => exact hv
  | cons l C ih =>
    obtain ⟨hl, hC⟩ := List.forall_mem_cons.mp hC
    exact Layer.ofTree_fill_error hl (ih hC)

/-- The path of the hole leads to what is in it. -/
theorem Context.follow?_path (C : Context) (v : Value) : C.path.follow? (C.fill v) = some v := by
  induction C with
  | nil => rfl
  | cons l C ih =>
    cases l with
    | item earlier later => simpa [path, fill, Layer.fill, Layer.step, Path.follow?] using ih
    | group | operand | unary | field => exact ih

/-! ## §3 Query trees in the hole -/

theorem DenotesAll.append {vs ws : List Value} {ns ms : List Node} (hv : DenotesAll vs ns)
    (hw : DenotesAll ws ms) : DenotesAll (vs ++ ws) (ns ++ ms) := by
  induction vs generalizing ns with
  | nil =>
    cases hv
    exact hw
  | cons v vs ih =>
    cases hv with
    | cons hv hvs => exact .cons hv (ih hvs)

theorem Context.Gives.denotes_fill {C : Context} {D : Node.Context} (h : C.Gives D) {v : Value}
    {n : Node} (hv : Denotes v n) : Denotes (C.fill v) (D.fill n) := by
  induction h with
  | hole => exact hv
  | item hearlier hlater _ ih => exact .sequence (hearlier.append (.cons ih hlater))
  | group _ ih => exact .group ih
  | operand _ ih => exact .operand ih
  | unary hmarker _ ih => exact .unary hmarker ih
  | field name _ ih => exact .field name ih

theorem Context.exists_gives {C : Context} (hopens : C.Opens) (hcloses : C.Closes) :
    ∃ D, C.Gives D := by
  have hitems {vs : List Value} (h : ∀ v ∈ vs, Accepted v) : ∃ ns, DenotesAll vs ns :=
    exists_denotesAll fun v hv => accepted_iff_denotes.mp (h v hv)
  -- what opens and closes a layer denotes something, and makes it a layer of query trees
  induction C with
  | nil => exact ⟨[], .hole⟩
  | cons l C ih =>
    obtain ⟨hopen, hopens⟩ := List.forall_mem_cons.mp hopens
    obtain ⟨hclose, hcloses⟩ := List.forall_mem_cons.mp hcloses
    obtain ⟨D, hD⟩ := ih hopens hcloses
    cases l with
    | item earlier later =>
      obtain ⟨ns, hns⟩ := hitems hopen
      obtain ⟨ms, hms⟩ := hitems hclose
      exact ⟨_, .item hns hms hD⟩
    | group => exact ⟨_, .group hD⟩
    | operand => exact ⟨_, .operand hD⟩
    | unary marker =>
      obtain ⟨o, ho⟩ := hopen
      exact ⟨_, .unary (readMarker_eq_ok.mp ho) hD⟩
    | field name => exact ⟨_, .field name hD⟩

/-! ## §4 Errors at another root -/

/-- The errors are the same but for the path, which begins with another text in place of `$`. -/
inductive Rerooted (root : String) : Error → Error → Prop where
  | unhandledShape (rest shape : String) :
      Rerooted root (.unhandledShape ("$" ++ rest) shape) (.unhandledShape (root ++ rest) shape)
  | invalidAttribute (rest name detail : String) :
      Rerooted root (.invalidAttribute ("$" ++ rest) name detail)
        (.invalidAttribute (root ++ rest) name detail)

theorem Path.text_append (path path' : Path) :
    Path.text (path ++ path') = path.text ++ String.join (path'.map Step.text) := by
  rw [Path.text, Path.text, List.map_append, String.join_append, String.append_assoc]

theorem Defect.rerooted_under (path : Path) (d : Defect) :
    Rerooted path.text d.toError (d.under path).toError := by
  obtain ⟨path', fault⟩ := d
  have htext : path'.text = "$" ++ String.join (path'.map Step.text) := rfl
  cases fault <;>
    simp only [Defect.toError, Defect.under, Path.text_append, htext] <;>
    constructor

end Tree

open CanonicalQuery.Tree

/-- **Reading is compositional.**  Let an attribute tree have a hole, and let all that is read
before the hole be as it should be.  The path of the hole leads to what is put there; an error of it
is the error of the whole, with the path of the hole in place of the root; and if all behind the
hole is as it should be too, the query tree of what is put there is put into the hole of a query
tree that depends on the context only. -/
theorem Node.ofRead_context_fill (C : Tree.Context) (hopens : C.Opens) :
    (∀ v, C.path.follow? (C.fill v) = some v) ∧
    (∀ v e, Node.ofRead (.ok v) = .error e →
      ∃ e', Node.ofRead (.ok (C.fill v)) = .error e' ∧ Rerooted C.path.text e e') ∧
    (C.Closes → ∃ D : Node.Context, C.Gives D ∧
      ∀ v n, Node.ofRead (.ok v) = .ok n → Node.ofRead (.ok (C.fill v)) = .ok (D.fill n)) := by
  refine ⟨C.follow?_path, fun v e hv => ?_, fun hcloses => ?_⟩
  -- the defect of the part is the defect of the whole, further down
  · obtain ⟨d, hd, rfl⟩ := mapError_eq_error.mp hv
    refine ⟨(d.under C.path).toError, ?_, d.rerooted_under C.path⟩
    exact mapError_eq_error.mpr ⟨_, Context.ofTree_fill_error hopens hd, rfl⟩
  -- the query context comes first, so that it does not depend on the part
  · obtain ⟨D, hD⟩ := Context.exists_gives hopens hcloses
    refine ⟨D, hD, fun v n hv => ?_⟩
    have hdenotes := ofTree_eq_ok_iff.mp (mapError_eq_ok.mp hv)
    exact mapError_eq_ok.mpr (ofTree_of_denotes (hD.denotes_fill hdenotes))

/-- A hole between two items, behind a mark and within a bare operand. -/
theorem Node.ofRead_context_fill_of_marked_item :
    let C : Tree.Context := [.item [.string "a"] [.string "b"], .unary (.string "+"), .operand]
    C.Opens ∧ C.Closes ∧
    (∃ e, Node.ofRead (.ok (C.fill (.object [("term", .null)]))) = .error e ∧
      Rerooted "$[1].operand.operand"
        (.invalidAttribute "$" "term" "expected a string, found null") e) ∧
    ∃ D : Node.Context, C.Gives D ∧
      Node.ofRead (.ok (C.fill (.object [("term", .string "c")]))) = .ok (D.fill (.word "c")) := by
  intro C
  have hopens : C.Opens := by
    simp only [C, Context.Opens, List.forall_mem_cons, Layer.Opens]
    exact ⟨⟨⟨.word "a", rfl⟩, by simp⟩, ⟨.required, rfl⟩, trivial, by simp⟩
  have hcloses : C.Closes := by
    simp only [C, Context.Closes, List.forall_mem_cons, Layer.Closes]
    exact ⟨⟨⟨.word "b", rfl⟩, by simp⟩, trivial, trivial, by simp⟩
  obtain ⟨-, hrejects, haccepts⟩ := Node.ofRead_context_fill C hopens
  obtain ⟨D, hD, hread⟩ := haccepts hcloses
  exact ⟨hopens, hcloses, hrejects _ _ rfl, D, hD, hread _ _ rfl⟩

end CanonicalQuery
