import CanonicalQuery.Query.Node
import CanonicalQuery.Json.Value

/-!
# Writing attribute trees

Every query tree has one attribute tree that is written for it.  Its objects are sorted by key, an
operator is written as an object that names it, and a similarity is always a string.

## Main definitions

- `Node.toTree`: the attribute tree of a query tree.
-/

namespace CanonicalQuery

open CanonicalQuery.Json (Value)

/-- The object that marks an operand. -/
def Operator.marker (o : Operator) : Value :=
  .object [(o.name, .string o.symbol)]

/-- The object that gives the ends of a range. -/
def Range.toTree (r : Range) : Value :=
  .object [("from", .string r.lower), ("to", .string r.upper)]

/-- The object of a term. -/
def Term.toTree (t : Term) : Value :=
  match t.modifier with
  | none => .object [("term", .string t.value)]
  | some (.similarity degree) =>
    .object [("similarity", .string degree), ("term", .string t.value)]
  | some (.boost factor) => .object [("boost", .string factor), ("term", .string t.value)]

/-- The object of a phrase. -/
def Phrase.toTree (p : Phrase) : Value :=
  match p.modifier with
  | none => .object [("phrase", .string p.value)]
  | some (.boost factor) => .object [("boost", .string factor), ("phrase", .string p.value)]
  | some (.distance words) =>
    .object [("distance", .string words), ("phrase", .string p.value)]

/-- The attribute tree of a query tree. -/
def Node.toTree : Node → Value
  | .term t => t.toTree
  | .phrase p => p.toTree
  | .group inner => .object [("group", inner.toTree)]
  | .unary operator operand =>
    .object [("operand", operand.toTree), ("unary_operator", operator.marker)]
  | .field name operand => .object [("field", .string name), ("operand", operand.toTree)]
  | .range name .inclusive ends =>
    .object [("field", .string name), ("inclusive_range", ends.toTree)]
  | .range name .exclusive ends =>
    .object [("exclusive_range", ends.toTree), ("field", .string name)]
  | .sequence items => .array (itemTrees items)
where
  itemTrees : List Node → List Value
    | [] => []
    | n :: ns => n.toTree :: itemTrees ns

end CanonicalQuery
