import CanonicalQuery.Query.Node

/-!
# Canonical query text

The one text that is written for a query tree.  A sequence writes its items with one space between
neighbours; every other shape puts fixed marks around the text of its parts, and no text that the
tree holds is changed or escaped.

## Main definitions

- `Node.query`: the canonical text of a tree.
- `Term.query`, `Phrase.query`, `Range.query`, `FieldValue.query`: the text of its parts.

`Node.query_sequence` gives the text of a sequence as a join of the texts of its items.
-/

namespace CanonicalQuery

/-! ## §1 Leaves -/

/-- A modifier of a term: a tilde before a similarity, a caret before a boost. -/
def TermModifier.query : TermModifier → String
  | .similarity degree => "~" ++ degree
  | .boost factor => "^" ++ factor

/-- A modifier of a phrase: a caret before a boost, a tilde before a distance. -/
def PhraseModifier.query : PhraseModifier → String
  | .boost factor => "^" ++ factor
  | .distance words => "~" ++ words

/-- A term is its word and what modifies it. -/
def Term.query (t : Term) : String :=
  t.value ++ (t.modifier.map TermModifier.query).getD ""

/-- A phrase is its text in quotes and what modifies it. -/
def Phrase.query (p : Phrase) : String :=
  "\"" ++ p.value ++ "\"" ++ (p.modifier.map PhraseModifier.query).getD ""

/-- The two ends of a range with `TO` between them. -/
def Range.query (r : Range) : String :=
  r.lower ++ " TO " ++ r.upper

/-- Brackets for a range with its ends, braces for one without. -/
def Bounds.enclose : Bounds → String → String
  | .inclusive, text => "[" ++ text ++ "]"
  | .exclusive, text => "\x7b" ++ text ++ "\x7d"

/-! ## §2 Trees -/

/-- The canonical text of a tree. -/
def Node.query : Node → String
  | .term t => t.query
  | .phrase p => p.query
  | .group inner => "(" ++ inner.query ++ ")"
  | .unary operator operand => operator.symbol ++ operand.query
  | .field name operand => name ++ ":" ++ operand.query
  | .range name bounds ends => name ++ ":" ++ bounds.enclose ends.query
  | .sequence items => " ".intercalate (queryList items)
where
  queryList : List Node → List String
    | [] => []
    | n :: ns => n.query :: queryList ns

theorem Node.queryList_eq_map (ns : List Node) : Node.query.queryList ns = ns.map Node.query := by
  induction ns with
  | nil => rfl
  | cons n ns ih => simp [Node.query.queryList, ih]

/-- A sequence joins the texts of its items with single spaces. -/
theorem Node.query_sequence (ns : List Node) :
    (Node.sequence ns).query = " ".intercalate (ns.map Node.query) := by
  simp [Node.query, Node.queryList_eq_map]

/-- The text behind the colon of a field. -/
def FieldValue.query : FieldValue → String
  | .operand node => node.query
  | .range bounds ends => bounds.enclose ends.query

end CanonicalQuery
