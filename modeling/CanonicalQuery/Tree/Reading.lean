import CanonicalQuery.Query.Node
import CanonicalQuery.Tree.Defect

/-!
# Reading attribute trees

A string is a term, an array is a sequence, and an object is a node whose shape is known by its set
of keys.  Texts are taken as they are and never converted, so a number where a text belongs is a
defect.  The first defect is reported, in the order in which the parts of a node are read.

- A term may carry a `similarity`, where null stands for the empty degree, or a `boost`; a phrase
  may carry a `boost` or a `distance`.
- A bare `operand` is the node it holds.
- The marker of a `unary_operator` is a symbol, or an object that gives the symbol under the name of
  the operator or under `unary_operator`.
- A range has exactly the keys `from` and `to`.

## Main definitions

- `Node.ofTree`: the query tree of an attribute tree, or its first defect.
- `readMarker`, `readRange`: the parts of a node that are no nodes.
-/

namespace CanonicalQuery.Tree

open CanonicalQuery.Json

/-! ## §1 Texts, markers and ranges -/

/-- A textual attribute. -/
def readText (name : String) : Value → Except Defect String
  | .string s => .ok s
  | v => .error (.here (.notText name v.kind))

/-- The degree of similarity of a term; null is the empty degree. -/
def readSimilarity : Value → Except Defect String
  | .null => .ok ""
  | v => readText "similarity" v

/-- The operator with a symbol that was given under `name`. -/
def readSymbol (name symbol : String) : Except Defect Operator :=
  match Operator.ofSymbol? symbol with
  | none => .error (.here (.unknownSymbol name symbol))
  | some operator =>
    if name = "unary_operator" ∨ name = operator.name then .ok operator
    else if name = "required" ∨ name = "prohibited" then
      .error (.here (.otherSymbol name symbol))
    else .error (.here (.unhandled (.keys [name])))

/-- The operator of a marker. -/
def readMarker : Value → Except Defect Operator
  | .string symbol => readSymbol "unary_operator" symbol
  | .object [(name, .string symbol)] => readSymbol name symbol
  | .object [(name, v)] => .error (.here (.notText name v.kind))
  | v => .error (.here (.unhandled (shape v)))

/-- The ends of a range. -/
def readRange : Value → Except Defect Range
  | .object [("from", lower), ("to", upper)] => do
    let lower ← readText "from" lower
    let upper ← readText "to" upper
    return { lower, upper }
  | v => .error (.here (.unhandled (shape v)))

/-! ## §2 Nodes -/

mutual

/-- The query tree of an attribute tree, or the first defect. -/
def ofTree : Value → Except Defect Node
  | .string s => .ok (.word s)
  | .array items => return .sequence (← ofTrees 0 items)
  | .object [("term", value)] => return .word (← readText "term" value)
  | .object [("similarity", degree), ("term", value)] => do
    let degree ← readSimilarity degree
    let value ← readText "term" value
    return .term { value, modifier := some (.similarity degree) }
  | .object [("boost", factor), ("term", value)] => do
    let value ← readText "term" value
    let factor ← readText "boost" factor
    return .term { value, modifier := some (.boost factor) }
  | .object [("phrase", value)] => return .phrase { value := ← readText "phrase" value }
  | .object [("boost", factor), ("phrase", value)] => do
    let value ← readText "phrase" value
    let factor ← readText "boost" factor
    return .phrase { value, modifier := some (.boost factor) }
  | .object [("distance", words), ("phrase", value)] => do
    let value ← readText "phrase" value
    let words ← readText "distance" words
    return .phrase { value, modifier := some (.distance words) }
  | .object [("group", inner)] => return .group (← below (.key "group") (ofTree inner))
  | .object [("operand", operand), ("unary_operator", marker)] => do
    let operator ← below (.key "unary_operator") (readMarker marker)
    let operand ← below (.key "operand") (ofTree operand)
    return .unary operator operand
  | .object [("operand", operand)] => below (.key "operand") (ofTree operand)
  | .object [("field", name), ("operand", operand)] => do
    let name ← readText "field" name
    let operand ← below (.key "operand") (ofTree operand)
    return .field name operand
  | .object [("field", name), ("inclusive_range", ends)] => do
    let name ← readText "field" name
    let ends ← below (.key "inclusive_range") (readRange ends)
    return .range name .inclusive ends
  | .object [("exclusive_range", ends), ("field", name)] => do
    let name ← readText "field" name
    let ends ← below (.key "exclusive_range") (readRange ends)
    return .range name .exclusive ends
  | v => .error (.here (.unhandled (shape v)))

/-- The query trees of the items of an array, the first of which has the given position. -/
def ofTrees (position : Nat) : List Value → Except Defect (List Node)
  | [] => .ok []
  | v :: rest => do
    let n ← below (.index position) (ofTree v)
    let ns ← ofTrees (position + 1) rest
    return n :: ns

end

end CanonicalQuery.Tree

namespace CanonicalQuery

/-- The query tree of an attribute tree, or the first defect. -/
def Node.ofTree (v : Json.Value) : Except Tree.Defect Node :=
  Tree.ofTree v

end CanonicalQuery
