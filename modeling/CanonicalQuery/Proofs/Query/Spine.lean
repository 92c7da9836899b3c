import CanonicalQuery.Proofs.Query.Texts
import CanonicalQuery.Proofs.Text.Pieces

/-!
# Spines of query trees

A sequence has no mark of its own in a query text.  So the text of a tree does not tell how the tree
nests its sequences: neither where a sequence stands inside another one, nor that an operator or a
field stands before a whole sequence and not before its first item only.  What the text does tell is
the *spine* of the tree: the elements that stand side by side, each with the marks in front of it,
and within each pair of parentheses another spine.

A spine has at least one element.  The empty sequence writes nothing, and its spine is one blank
element, because nothing between two separators is still something to a reader who counts them.

## Main definitions

- `Element`, `Spine`: elements, and lists of elements that are not empty.
- `Node.spine`: the spine of a tree.
- `Spine.query`: the text of a spine.

`Node.query_spine` says that the text of a tree is the text of its spine.
-/

namespace CanonicalQuery

/-! ## §1 Elements and spines -/

/-- What stands between two separators of a query text, outside of any parentheses. -/
inductive Element where
  | blank
  | term (term : Term)
  | phrase (phrase : Phrase)
  | range (name : String) (bounds : Bounds) (ends : Range)
  /-- A spine in parentheses: its first element and the others. -/
  | group (first : Element) (rest : List Element)
  /-- An element behind the mark of an operator. -/
  | marked (operator : Operator) (element : Element)
  /-- An element behind the name of a field. -/
  | named (name : String) (element : Element)
  deriving Repr, Inhabited

/-- Elements side by side, at least one. -/
@[ext]
structure Spine where
  first : Element
  rest : List Element
  deriving Repr, Inhabited

namespace Spine

def single (e : Element) : Spine := ⟨e, []⟩

/-- The spine of some elements; where there are none, there is one blank. -/
def ofElements : List Element → Spine
  | [] => single .blank
  | e :: es => ⟨e, es⟩

def elements (s : Spine) : List Element := s.first :: s.rest

/-- A spine with something put before its first element. -/
def mapFirst (mark : Element → Element) (s : Spine) : Spine := ⟨mark s.first, s.rest⟩

/-- The spine in parentheses, as one element. -/
def grouped (s : Spine) : Element := .group s.first s.rest

theorem eq_of_elements_eq {s t : Spine} (h : s.elements = t.elements) : s = t := by
  obtain ⟨hfirst, hrest⟩ := List.cons.inj h
  exact Spine.ext hfirst hrest

end Spine

/-- The spine of a tree. -/
def Node.spine : Node → Spine
  | .term t => .single (.term t)
  | .phrase p => .single (.phrase p)
  | .group inner => .single inner.spine.grouped
  | .unary operator operand => operand.spine.mapFirst (.marked operator)
  | .field name operand => operand.spine.mapFirst (.named name)
  | .range name bounds ends => .single (.range name bounds ends)
  | .sequence items => .ofElements (elementsOfAll items)
where
  /-- The elements of the items of a sequence, one item after the other. -/
  elementsOfAll : List Node → List Element
    | [] => []
    | n :: ns => n.spine.elements ++ elementsOfAll ns

theorem Node.elementsOfAll_eq_flatMap (ns : List Node) :
    Node.spine.elementsOfAll ns = ns.flatMap fun n => n.spine.elements := by
  induction ns with
  | nil => rfl
  | cons n ns ih => simp [Node.spine.elementsOfAll, ih]

theorem Node.elements_spine_sequence (n : Node) (ns : List Node) :
    (Node.sequence (n :: ns)).spine.elements
      = (n :: ns).flatMap fun m => m.spine.elements := by
  rw [← Node.elementsOfAll_eq_flatMap]
  rfl

/-! ## §2 The text of a spine -/

def Element.query : Element → String
  | .blank => ""
  | .term t => t.query
  | .phrase p => p.query
  | .range name bounds ends => name ++ ":" ++ bounds.enclose ends.query
  | .group first rest => "(" ++ first.query ++ queryBehind rest ++ ")"
  | .marked operator e => operator.symbol ++ e.query
  | .named name e => name ++ ":" ++ e.query
where
  /-- The text of elements that stand behind another one, a separator before each. -/
  queryBehind : List Element → String
    | [] => ""
    | e :: es => " " ++ e.query ++ queryBehind es

/-- The text of a spine: its elements with single spaces between them. -/
def Spine.query (s : Spine) : String :=
  s.first.query ++ Element.query.queryBehind s.rest

theorem Element.queryBehind_append (es fs : List Element) :
    Element.query.queryBehind (es ++ fs)
      = Element.query.queryBehind es ++ Element.query.queryBehind fs := by
  induction es with
  | nil => simp [Element.query.queryBehind]
  | cons e es ih => simp [Element.query.queryBehind, ih, String.append_assoc]

theorem Element.query_grouped (s : Spine) : s.grouped.query = "(" ++ s.query ++ ")" := by
  simp [Spine.grouped, Spine.query, Element.query, String.append_assoc]

theorem Spine.query_mapFirst {mark : Element → Element} {text : String}
    (hmark : ∀ e, (mark e).query = text ++ e.query) (s : Spine) :
    (s.mapFirst mark).query = text ++ s.query := by
  simp [Spine.mapFirst, Spine.query, hmark, String.append_assoc]

/-! ## §3 The text of a tree is the text of its spine -/

theorem Spine.query_single (e : Element) : (Spine.single e).query = e.query := by
  simp [Spine.single, Spine.query, Element.query.queryBehind]

mutual

/-- The text of a tree is the text of its spine. -/
theorem Node.query_spine : ∀ n : Node, n.spine.query = n.query
  | .term t => Spine.query_single (.term t)
  | .phrase p => Spine.query_single (.phrase p)
  | .group inner => by
    rw [Node.spine, Spine.query_single, Element.query_grouped, Node.query_spine inner, Node.query]
  | .unary operator operand => by
    rw [Node.spine, Spine.query_mapFirst fun _ => rfl, Node.query_spine operand, Node.query]
  | .field name operand => by
    rw [Node.spine, Spine.query_mapFirst fun _ => rfl, Node.query_spine operand, Node.query]
  | .range name bounds ends => Spine.query_single (.range name bounds ends)
  -- nothing is written for an empty sequence, nor for a blank
  | .sequence [] => Spine.query_single .blank
  | .sequence (n :: ns) => by
    -- the other items stand behind the elements of the first one
    have hitems := Node.queryBehind_elementsOfAll ns
    calc (Node.sequence (n :: ns)).spine.query
        = n.spine.first.query
            ++ Element.query.queryBehind (n.spine.rest ++ Node.spine.elementsOfAll ns) := rfl
      _ = n.spine.query ++ Element.query.queryBehind (Node.spine.elementsOfAll ns) := by
          rw [Element.queryBehind_append, ← String.append_assoc, Spine.query]
      _ = n.query ++ String.join ((Node.query.queryList ns).map (" " ++ ·)) := by
          rw [Node.query_spine n, hitems]
      _ = (Node.sequence (n :: ns)).query := by
          rw [Node.query, Node.query.queryList, intercalate_cons_eq_append]

/-- Behind other text, the spines of some trees are the texts of the trees, a separator before
each. -/
theorem Node.queryBehind_elementsOfAll : ∀ ns : List Node,
    Element.query.queryBehind (Node.spine.elementsOfAll ns)
      = String.join ((Node.query.queryList ns).map (" " ++ ·))
  | [] => by simp [Node.spine.elementsOfAll, Element.query.queryBehind, Node.query.queryList]
  | n :: ns => by
    have hfirst : Element.query.queryBehind n.spine.elements = " " ++ n.query := by
      rw [← Node.query_spine n, Spine.elements, Element.query.queryBehind, Spine.query,
        String.append_assoc]
    rw [Node.spine.elementsOfAll, Element.queryBehind_append, hfirst,
      Node.queryBehind_elementsOfAll ns, Node.query.queryList, List.map_cons, String.join_cons]

end

/-! ## §4 The texts of a spine -/

def Element.texts : Element → List (Role × String)
  | .blank => []
  | .term t => t.texts
  | .phrase p => p.texts
  | .range name _ ends => (.name, name) :: ends.texts
  | .group first rest => first.texts ++ textsOfAll rest
  | .marked _ e => e.texts
  | .named name e => (.name, name) :: e.texts
where
  textsOfAll : List Element → List (Role × String)
    | [] => []
    | e :: es => e.texts ++ textsOfAll es

def Spine.texts (s : Spine) : List (Role × String) :=
  s.first.texts ++ Element.texts.textsOfAll s.rest

theorem Element.textsOfAll_append (es fs : List Element) :
    Element.texts.textsOfAll (es ++ fs)
      = Element.texts.textsOfAll es ++ Element.texts.textsOfAll fs := by
  induction es with
  | nil => rfl
  | cons e es ih => simp [Element.texts.textsOfAll, ih]

theorem Spine.texts_single (e : Element) : (Spine.single e).texts = e.texts := by
  simp [Spine.single, Spine.texts, Element.texts.textsOfAll]

theorem Spine.textsOfAll_elements (s : Spine) :
    Element.texts.textsOfAll s.elements = s.texts := rfl

mutual

/-- A tree and its spine hold the same texts in the same order. -/
theorem Node.texts_spine : ∀ n : Node, n.spine.texts = n.texts
  | .term t => Spine.texts_single (.term t)
  | .phrase p => Spine.texts_single (.phrase p)
  | .group inner => by
    rw [Node.spine, Spine.texts_single, Node.texts, ← Node.texts_spine inner]
    rfl
  | .unary operator operand => Node.texts_spine operand
  | .field name operand => congrArg ((Role.name, name) :: ·) (Node.texts_spine operand)
  | .range name bounds ends => Spine.texts_single (.range name bounds ends)
  | .sequence [] => rfl
  | .sequence (n :: ns) => Node.textsOfAll_elementsOfAll (n :: ns)

theorem Node.textsOfAll_elementsOfAll : ∀ ns : List Node,
    Element.texts.textsOfAll (Node.spine.elementsOfAll ns) = Node.texts.textsOfAll ns
  | [] => rfl
  | n :: ns => by
    rw [Node.spine.elementsOfAll, Element.textsOfAll_append, Spine.textsOfAll_elements,
      Node.texts_spine n, Node.textsOfAll_elementsOfAll ns, Node.texts.textsOfAll]

end

end CanonicalQuery
