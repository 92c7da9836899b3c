import CanonicalQuery.CommandLine.Run

/-!
# Printing step by step

The program prints line by line while it works, and what is printed stays printed if the program
fails afterwards.  Here its work is written down in this way: each part may print and may fail, and
the parts follow each other as the program takes them.  What a run prints is then no longer settled
by how it ends.

## Main definitions

- `Part`: a part of the program; `Part.printed` and `Part.failure?` say what is seen of it.
- `printNode`, `printQuery`, `printExplanation`: the parts that print.
- `program`: the work on an invocation.
-/

namespace CanonicalQuery.CommandLine

open CanonicalQuery.Terminal

/-! ## §1 Parts -/

/-- A part of the program.  The state is what has been printed; it is kept when the part fails. -/
abbrev Part (α : Type) := ExceptT Trouble (StateM String) α

namespace Part

/-- How a part ends that begins behind a text, and what is printed then. -/
def after {α : Type} (p : Part α) (text : String) : Except Trouble α × String :=
  StateT.run (ExceptT.run p) text

/-- What a part prints. -/
def printed {α : Type} (p : Part α) : String :=
  (p.after "").2

/-- Why a part fails, if it does. -/
def failure? {α : Type} (p : Part α) : Option Trouble :=
  match (p.after "").1 with
  | .ok _ => none
  | .error trouble => some trouble

/-- Print a text. -/
def print (text : String) : Part Unit :=
  modify (· ++ text)

/-- Go on with a result, or fail with its trouble. -/
def attempt {α : Type} (result : Except Trouble α) : Part α :=
  ExceptT.mk (pure result)

end Part

/-! ## §2 Parts that print -/

/-- Print a line. -/
def printLine (colors : Bool) (line : Line) : Part Unit :=
  Part.print (writeLine colors line ++ "\n")

/-- Print lines one by one. -/
def printLines (colors : Bool) : List Line → Part Unit
  | [] => pure ()
  | line :: lines => do
    printLine colors line
    printLines colors lines

/-- Print a tree node by node, indented by a depth. -/
def printNode (colors : Bool) (depth : Nat) : Node → Part Unit
  | .group inner => do
    printLine colors (nodeLine depth "group" [])
    printNode colors (depth + 1) inner
  | .unary operator operand => do
    printLine colors (nodeLine depth operator.name [.colored .white operator.symbol])
    printNode colors (depth + 1) operand
  | .field name operand => do
    printLine colors (nodeLine depth "field" [.colored .white name])
    printNode colors (depth + 1) operand
  | .sequence items => do
    printLine colors
      (nodeLine depth "sequence" [.plain ("(" ++ toString items.length ++ " items)")])
    printNodes items
  -- a node without parts is a single line
  | leaf => printLines colors (leaf.listing depth)
where
  printNodes : List Node → Part Unit
    | [] => pure ()
    | n :: ns => do
      printNode colors (depth + 1) n
      printNodes ns

/-- Print the query of a tree. -/
def printQuery (format : OutputFormat) (n : Node) : Part Unit :=
  Part.print (queryText format n)

/-- Print a tree and its query. -/
def printExplanation (colors : Bool) (format : OutputFormat) (n : Node) : Part Unit :=
  match format with
  | .plain => do
    printLine colors [.styled (.bold .green) "Tree:"]
    printNode colors 1 n
    printLine colors []
    printLine colors [.styled (.bold .green) "Canonical query:"]
    printLine colors [.plain "  ", .colored .white n.query]
  | .json => Part.print (explanationText colors .json n)

/-! ## §3 The program -/

/-- The configuration that is asked for. -/
def Invocation.load (world : World) (i : Invocation) : Except Error Config :=
  Config.load world.wording.toml world.entry world.directory? i.config

/-- Whether colors are on once the configuration holds. -/
def Invocation.colors (world : World) (i : Invocation) (config : Config) : Bool :=
  colorsWanted world.environment world.terminal && !i.noColor && config.output.color

/-- The format that holds: the one that is asked for, or else the one of the configuration. -/
def Invocation.formatUnder (i : Invocation) (config : Config) : OutputFormat :=
  i.format.getD config.output.format

/-- The work on an invocation. -/
def program (world : World) (i : Invocation) : Part Unit := do
  let config ← Part.attempt ((i.load world).mapError .config)
  let colors := i.colors world config
  let format := i.formatUnder config
  match i.command with
  | .serialize source => do
    let n ← Part.attempt (treeOf world source)
    printQuery format n
  | .explain source => do
    let n ← Part.attempt (treeOf world source)
    printExplanation colors format n
  | .rules => printLines colors rules
  | .inline tree => do
    let n ← Part.attempt (treeOfText world tree)
    printQuery format n
  | .hint => printLines colors hint

end CanonicalQuery.CommandLine
