/-!
# Query trees

The syntax tree of a query in the style of Lucene: terms and phrases with at most one modifier,
groups, operands marked as required or prohibited, fields over an operand or over a range of
values, and sequences.

## Main definitions

- `Node`: a query tree.  A field over an operand and a field over a range are two constructors;
  `FieldValue` is what stands behind the colon of either.
- `Operator`, `Keyword`: the marks `+` and `-`, and the words `AND`, `OR` and `NOT`.
- `Node.size`, `Node.kind`: the number of nodes of a tree and the name of its outermost shape.

Equality of trees is decidable; `Node.beq` walks both trees and `Node.beq_iff` says that it decides
equality.
-/

namespace CanonicalQuery

/-! ## §1 Leaves -/

/-- What may follow a term: a degree of similarity or a boost. -/
inductive TermModifier where
  /-- A fuzzy term; the degree may be empty. -/
  | similarity (degree : String)
  | boost (factor : String)
  deriving DecidableEq, Repr, Inhabited

/-- What may follow a phrase: a boost or a distance. -/
inductive PhraseModifier where
  | boost (factor : String)
  /-- A phrase whose words may stand this far apart. -/
  | distance (words : String)
  deriving DecidableEq, Repr, Inhabited

/-- A single word with at most one modifier. -/
structure Term where
  /-- The word, written as it is. -/
  value : String
  /-- What follows the word. -/
  modifier : Option TermModifier := none
  deriving DecidableEq, Repr, Inhabited

/-- A quoted text with at most one modifier. -/
structure Phrase where
  /-- The text between the quotes. -/
  value : String
  /-- What follows the closing quote. -/
  modifier : Option PhraseModifier := none
  deriving DecidableEq, Repr, Inhabited

/-- The two ends of a range of values. -/
structure Range where
  /-- The end that is written first. -/
  lower : String
  /-- The end that is written last. -/
  upper : String
  deriving DecidableEq, Repr, Inhabited

/-- Whether the ends of a range belong to it. -/
inductive Bounds where
  /-- Both ends belong to the range. -/
  | inclusive
  /-- Neither end belongs to the range. -/
  | exclusive
  deriving DecidableEq, Repr, Inhabited

/-! ## §2 Operators and keywords -/

/-- The marks of an operand. -/
inductive Operator where
  /-- The operand has to match. -/
  | required
  /-- The operand must not match. -/
  | prohibited
  deriving DecidableEq, Repr, Inhabited

namespace Operator

/-- The mark as it is written before an operand. -/
def symbol : Operator → String
  | required => "+"
  | prohibited => "-"

/-- The name of the mark. -/
def name : Operator → String
  | required => "required"
  | prohibited => "prohibited"

/-- The operator with a given symbol, if there is one. -/
def ofSymbol? (symbol : String) : Option Operator :=
  if symbol = "+" then some required else if symbol = "-" then some prohibited else none

theorem ofSymbol?_symbol (o : Operator) : ofSymbol? o.symbol = some o := by
  cases o <;> decide

theorem ofSymbol?_eq_some_iff {s : String} {o : Operator} :
    ofSymbol? s = some o ↔ s = o.symbol := by
  constructor
  · intro h
    simp only [ofSymbol?] at h
    split at h
    · cases h; assumption
    · split at h
      · cases h; assumption
      · cases h
  · rintro rfl
    exact ofSymbol?_symbol o

end Operator

/-- The words that combine the items of a sequence; in a tree they are plain terms. -/
inductive Keyword where
  | and
  | or
  | not
  deriving DecidableEq, Repr, Inhabited

/-- The keyword as it is written. -/
def Keyword.word : Keyword → String
  | .and => "AND"
  | .or => "OR"
  | .not => "NOT"

/-! ## §3 Trees -/

/-- A query tree. -/
inductive Node where
  | term (term : Term)
  | phrase (phrase : Phrase)
  | group (inner : Node)
  | unary (operator : Operator) (operand : Node)
  /-- A field whose value is another tree. -/
  | field (name : String) (operand : Node)
  /-- A field whose value is a range. -/
  | range (name : String) (bounds : Bounds) (ends : Range)
  | sequence (items : List Node)
  deriving Repr, Inhabited

/-- What a field is compared with: a tree or a range. -/
inductive FieldValue where
  | operand (node : Node)
  | range (bounds : Bounds) (ends : Range)
  deriving Repr, Inhabited

namespace Node

/-- The tree of a word without modifier. -/
def word (value : String) : Node :=
  .term { value }

/-- The tree of a field over a given value. -/
def ofField (name : String) : FieldValue → Node
  | .operand node => .field name node
  | .range bounds ends => .range name bounds ends

/-- The tree of a keyword, which is a plain term. -/
def ofKeyword (k : Keyword) : Node :=
  .word k.word

/-- The name of a tree's outermost shape. -/
def kind : Node → String
  | .term _ => "term"
  | .phrase _ => "phrase"
  | .group _ => "group"
  | .unary _ _ => "unary"
  | .field _ _ => "field"
  | .range _ _ _ => "field"
  | .sequence _ => "sequence"

/-- The number of nodes of a tree. -/
def size : Node → Nat
  | .term _ => 1
  | .phrase _ => 1
  | .group inner => inner.size + 1
  | .unary _ operand => operand.size + 1
  | .field _ operand => operand.size + 1
  | .range _ _ _ => 1
  | .sequence items => sizeList items + 1
where
  sizeList : List Node → Nat
    | [] => 0
    | n :: ns => n.size + sizeList ns

/-! ## §4 Deciding equality -/

mutual

/-- Compare two trees, shape by shape. -/
def beq : Node → Node → Bool
  | .term a, .term b => a == b
  | .phrase a, .phrase b => a == b
  | .group a, .group b => beq a b
  | .unary o a, .unary p b => o == p && beq a b
  | .field f a, .field g b => f == g && beq a b
  | .range f k r, .range g l s => f == g && k == l && r == s
  | .sequence as, .sequence bs => beqList as bs
  | _, _ => false

/-- Compare two lists of trees, item by item. -/
def beqList : List Node → List Node → Bool
  | [], [] => true
  | a :: as, b :: bs => beq a b && beqList as bs
  | _, _ => false

end

mutual

/-- The comparison decides equality. -/
theorem beq_iff : ∀ a b : Node, beq a b = true ↔ a = b
  | .term _, b => by cases b <;> simp [beq]
  | .phrase _, b => by cases b <;> simp [beq]
  | .group a, b => by cases b <;> simp [beq, beq_iff a]
  | .unary _ a, b => by cases b <;> simp [beq, beq_iff a]
  | .field _ a, b => by cases b <;> simp [beq, beq_iff a]
  | .range _ _ _, b => by cases b <;> simp [beq, and_assoc]
  | .sequence as, b => by cases b <;> simp [beq, beqList_iff as]

theorem beqList_iff : ∀ as bs : List Node, beqList as bs = true ↔ as = bs
  | [], bs => by cases bs <;> simp [beqList]
  | a :: as, bs => by cases bs <;> simp [beqList, beq_iff a, beqList_iff as]

end

instance : DecidableEq Node := fun a b =>
  decidable_of_iff (beq a b = true) (beq_iff a b)

end Node

end CanonicalQuery
