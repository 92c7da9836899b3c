import CanonicalQuery.Query.Text

/-!
# The texts of a query tree

A query tree holds texts in several roles: words and quoted texts, the modifiers of both, the names
of fields and the ends of ranges.  Conditions on the texts of a tree depend on the role that a text
plays, so the texts of a tree are listed together with their roles.

## Main definitions

- `Role`: what a text is in the tree that holds it.
- `Node.texts`: the texts of a tree in the order in which they are written, each with its role.
- `Term.texts`, `Phrase.texts`, `Range.texts`: the texts of its parts.
-/

namespace CanonicalQuery

/-! ## §1 Roles -/

/-- What a text is in the tree that holds it. -/
inductive Role where
  | word
  | quoted
  | similarity
  | boost
  | distance
  | name
  | endpoint
  deriving DecidableEq, Repr, Inhabited

/-! ## §2 Leaves -/

def TermModifier.held : TermModifier → Role × String
  | .similarity degree => (.similarity, degree)
  | .boost factor => (.boost, factor)

def PhraseModifier.held : PhraseModifier → Role × String
  | .boost factor => (.boost, factor)
  | .distance words => (.distance, words)

def Term.texts (t : Term) : List (Role × String) :=
  (.word, t.value) :: (t.modifier.map TermModifier.held).toList

def Phrase.texts (p : Phrase) : List (Role × String) :=
  (.quoted, p.value) :: (p.modifier.map PhraseModifier.held).toList

def Range.texts (r : Range) : List (Role × String) :=
  [(.endpoint, r.lower), (.endpoint, r.upper)]

/-! ## §3 Trees -/

/-- The texts of a tree in the order in which they are written. -/
def Node.texts : Node → List (Role × String)
  | .term t => t.texts
  | .phrase p => p.texts
  | .group inner => inner.texts
  | .unary _ operand => operand.texts
  | .field name operand => (.name, name) :: operand.texts
  | .range name _ ends => (.name, name) :: ends.texts
  | .sequence items => textsOfAll items
where
  textsOfAll : List Node → List (Role × String)
    | [] => []
    | n :: ns => n.texts ++ textsOfAll ns

end CanonicalQuery
