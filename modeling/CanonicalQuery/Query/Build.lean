import CanonicalQuery.Query.Node

/-!
# Building trees on a stack

A tree can be put together step by step.  The stack holds the trees made so far, the latest on top;
a step puts a tree on it, changes the tree on top, or joins several trees into one.  A step that
does not apply leaves the stack as it is.

## Main definitions

- `Build.Step`: the steps.
- `Build.Step.apply?`: the stack behind a step, if the step applies.
- `Build.Step.repeated`: a step taken several times, up to the first time that it does not apply.
- `Node.withSimilarity?`, `Node.withBoost?`, `Node.withDistance?`: changing the modifier of a leaf.
-/

namespace CanonicalQuery

/-! ## §1 Modifiers of leaves -/

/-- A term with a similarity in place of its modifier. -/
def Node.withSimilarity? (degree : String) : Node → Option Node
  | .term t => some (.term { t with modifier := some (.similarity degree) })
  | _ => none

/-- A term or a phrase with a boost in place of its modifier. -/
def Node.withBoost? (factor : String) : Node → Option Node
  | .term t => some (.term { t with modifier := some (.boost factor) })
  | .phrase p => some (.phrase { p with modifier := some (.boost factor) })
  | _ => none

/-- A phrase with a distance in place of its modifier. -/
def Node.withDistance? (words : String) : Node → Option Node
  | .phrase p => some (.phrase { p with modifier := some (.distance words) })
  | _ => none

namespace Build

/-! ## §2 Steps -/

/-- One step of building a tree. -/
inductive Step where
  | push (n : Node)
  /-- Put a copy of the tree on top on the stack. -/
  | copy
  | drop
  /-- Join this many trees from the top into a sequence, the deepest first. -/
  | join (count : Nat)
  | similarity (degree : String)
  | boost (factor : String)
  | distance (words : String)
  | group
  /-- Mark the tree on top with an operator. -/
  | mark (operator : Operator)
  /-- Mark the tree on top with the operator of a symbol, if it is one. -/
  | markWith (symbol : String)
  | field (name : String)
  /-- A step that never applies. -/
  | unknown
  deriving Repr

/-- The stack with its top changed. -/
def changeTop (change : Node → Option Node) : List Node → Option (List Node)
  | [] => none
  | top :: rest => (change top).map (· :: rest)

/-- The stack behind a step, if the step applies. -/
def Step.apply? : Step → List Node → Option (List Node)
  | .push n, stack => some (n :: stack)
  | .copy, [] => none
  | .copy, top :: rest => some (top :: top :: rest)
  | .drop, [] => none
  | .drop, _ :: rest => some rest
  | .join count, stack =>
    if count ≤ stack.length then
      some (.sequence (stack.take count).reverse :: stack.drop count)
    else none
  | .similarity degree, stack => changeTop (Node.withSimilarity? degree) stack
  | .boost factor, stack => changeTop (Node.withBoost? factor) stack
  | .distance words, stack => changeTop (Node.withDistance? words) stack
  | .group, stack => changeTop (fun n => some (.group n)) stack
  | .mark operator, stack => changeTop (fun n => some (.unary operator n)) stack
  | .markWith symbol, stack =>
    changeTop (fun n => (Operator.ofSymbol? symbol).map (.unary · n)) stack
  | .field name, stack => changeTop (fun n => some (.field name n)) stack
  | .unknown, _ => none

/-- The stack behind a number of repetitions of a step, and whether all of them applied; nothing is
tried after the first that does not. -/
def Step.repeated (s : Step) : Nat → List Node → List Node × Bool
  | 0, stack => (stack, true)
  | times + 1, stack =>
    match s.apply? stack with
    | some next => s.repeated times next
    | none => (stack, false)

end Build

end CanonicalQuery
