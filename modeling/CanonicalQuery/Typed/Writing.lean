import CanonicalQuery.Json.Value
import CanonicalQuery.Query.Node

/-!
# The typed form of query trees

Beside the attribute tree there is a second JSON form of a query tree, which spells out its types.
A value that is one of several alternatives is an object whose only key names the alternative; an
alternative without content is just its name.  The members of a record stand in the order of its
declaration, and an absent modifier is left out.

## Main definitions

- `Node.typed`: the typed form of a tree.
- `Term.typed`, `Phrase.typed`, `Range.typed`, `FieldValue.typed`, `TermModifier.typed`,
  `PhraseModifier.typed`, `Operator.typed`, `Keyword.typed`: the typed forms of its parts.
-/

namespace CanonicalQuery

open CanonicalQuery.Json (Value)

/-- An alternative and its content. -/
def Json.Value.tagged (name : String) (content : Value) : Value :=
  .object [(name, content)]

/-! ## §1 Parts -/

/-- The alternatives are `Similarity` and `Boost`. -/
def TermModifier.typed : TermModifier → Value
  | .similarity degree => .tagged "Similarity" (.string degree)
  | .boost factor => .tagged "Boost" (.string factor)

/-- The alternatives are `Boost` and `Distance`. -/
def PhraseModifier.typed : PhraseModifier → Value
  | .boost factor => .tagged "Boost" (.string factor)
  | .distance words => .tagged "Distance" (.string words)

/-- A record of `value` and `modifier`. -/
def Term.typed (t : Term) : Value :=
  match t.modifier with
  | none => .object [("value", .string t.value)]
  | some modifier => .object [("value", .string t.value), ("modifier", modifier.typed)]

/-- A record of `value` and `modifier`. -/
def Phrase.typed (p : Phrase) : Value :=
  match p.modifier with
  | none => .object [("value", .string p.value)]
  | some modifier => .object [("value", .string p.value), ("modifier", modifier.typed)]

/-- A record of `from` and `to`. -/
def Range.typed (r : Range) : Value :=
  .object [("from", .string r.lower), ("to", .string r.upper)]

/-- The alternative of a range that the bounds select. -/
def Bounds.alternative : Bounds → String
  | .inclusive => "Inclusive"
  | .exclusive => "Exclusive"

/-- The alternative of an operator. -/
def Operator.alternative : Operator → String
  | .required => "Required"
  | .prohibited => "Prohibited"

/-- An operator has no content. -/
def Operator.typed (o : Operator) : Value :=
  .string o.alternative

/-- The alternative of a keyword. -/
def Keyword.alternative : Keyword → String
  | .and => "And"
  | .or => "Or"
  | .not => "Not"

/-- A keyword has no content. -/
def Keyword.typed (k : Keyword) : Value :=
  .string k.alternative

/-! ## §2 Trees -/

/-- The typed form of a tree.  A field is a record of `field` and `value`, whose alternatives are
`Operand`, `Inclusive` and `Exclusive`. -/
def Node.typed : Node → Value
  | .term t => .tagged "Term" t.typed
  | .phrase p => .tagged "Phrase" p.typed
  | .group inner => .tagged "Group" (.object [("inner", inner.typed)])
  | .unary operator operand =>
    .tagged "Unary" (.object [("operator", operator.typed), ("operand", operand.typed)])
  | .field name operand =>
    .tagged "Field"
      (.object [("field", .string name), ("value", .tagged "Operand" operand.typed)])
  | .range name bounds ends =>
    .tagged "Field"
      (.object [("field", .string name), ("value", .tagged bounds.alternative ends.typed)])
  | .sequence items => .tagged "Sequence" (.array (itemForms items))
where
  itemForms : List Node → List Value
    | [] => []
    | n :: ns => n.typed :: itemForms ns

/-- The typed form of what stands behind the colon of a field. -/
def FieldValue.typed : FieldValue → Value
  | .operand node => .tagged "Operand" node.typed
  | .range bounds ends => .tagged bounds.alternative ends.typed

/-- A field is a record of its name and its value. -/
theorem Node.typed_ofField (name : String) (v : FieldValue) :
    (Node.ofField name v).typed =
      .tagged "Field" (.object [("field", .string name), ("value", v.typed)]) := by
  cases v <;> rfl

end CanonicalQuery
