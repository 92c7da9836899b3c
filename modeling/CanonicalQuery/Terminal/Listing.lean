import CanonicalQuery.Query.Text
import CanonicalQuery.Terminal.Style
import CanonicalQuery.Text.Shown

/-!
# Listings

What is shown to a reader: the listing of a tree with one line for each of its nodes, the table of
the rules by which trees are written, and a hint on how to use the program.

In a listing each node is indented by two spaces more than the node above it.

## Main definitions

- `Node.listing`: the lines of a tree at some depth.
- `explanation`: the listing of a tree and its canonical text.
- `rules`, `hint`: the table of rules and the hint.
-/

namespace CanonicalQuery

open CanonicalQuery.Terminal

/-! ## §1 Trees -/

/-- What a term carries behind its word. -/
def TermModifier.remark : Option TermModifier → String
  | none => ""
  | some (.similarity degree) => " similarity=" ++ Text.Shown.write degree
  | some (.boost factor) => " boost=" ++ factor

/-- What a phrase carries behind its text. -/
def PhraseModifier.remark : Option PhraseModifier → String
  | none => ""
  | some (.boost factor) => " boost=" ++ factor
  | some (.distance words) => " distance=" ++ words

/-- The indentation of a depth. -/
def indentation (depth : Nat) : Piece :=
  .plain (String.ofList (List.replicate (2 * depth) ' '))

/-- The line of a node: what it is, and details with a space before each. -/
def nodeLine (depth : Nat) (name : String) (details : List Piece) : Line :=
  indentation depth :: .colored .cyan name :: details.flatMap fun detail => [.plain " ", detail]

/-- The lines of a tree, indented by a depth. -/
def Node.listing (depth : Nat) : Node → List Line
  | .term t =>
    [nodeLine depth "term" [.colored .yellow t.value]
      ++ [.styled .dimmed (TermModifier.remark t.modifier)]]
  | .phrase p =>
    [nodeLine depth "phrase" [.colored .yellow (Text.Shown.write p.value)]
      ++ [.styled .dimmed (PhraseModifier.remark p.modifier)]]
  | .group inner => nodeLine depth "group" [] :: inner.listing (depth + 1)
  | .unary operator operand =>
    nodeLine depth operator.name [.colored .white operator.symbol] :: operand.listing (depth + 1)
  | .field name operand =>
    nodeLine depth "field" [.colored .white name] :: operand.listing (depth + 1)
  | .range name bounds ends =>
    [nodeLine depth "field"
      [.colored .white name, .colored .yellow (bounds.enclose ends.query)]]
  | .sequence items =>
    nodeLine depth "sequence" [.plain ("(" ++ toString items.length ++ " items)")]
      :: listings items
where
  listings : List Node → List Line
    | [] => []
    | n :: ns => n.listing (depth + 1) ++ listings ns

/-- The listing of a tree and its canonical text. -/
def explanation (n : Node) : List Line :=
  [.styled (.bold .green) "Tree:"] :: n.listing 1
    ++ [[], [.styled (.bold .green) "Canonical query:"],
      [.plain "  ", .colored .white n.query]]

/-! ## §2 The table of rules -/

/-- A text with blanks behind it up to a width of 26. -/
def padded (text : String) : String :=
  text ++ String.ofList (List.replicate (26 - text.length) ' ')

/-- The shapes of nodes, and what is written for them. -/
def ruleTexts : List (String × String) :=
  [ ("term", "value"),
    ("term + similarity", "value~similarity"),
    ("term + boost", "value^boost"),
    ("phrase", "\"value\""),
    ("phrase + boost", "\"value\"^boost"),
    ("phrase + distance", "\"value\"~distance"),
    ("group", "(inner)"),
    ("unary", "+operand / -operand"),
    ("field + operand", "field:operand"),
    ("field + inclusive_range", "field:[from TO to]"),
    ("field + exclusive_range", "field:\x7bfrom TO to\x7d"),
    ("sequence", "item item ...") ]

/-- A row of the table. -/
def row (left right : Style) (texts : String × String) : Line :=
  [.styled left (padded texts.1), .plain " ", .styled right texts.2]

/-- The table of rules. -/
def rules : List Line :=
  [[.styled (.bold .cyan) "Serialization Rules"], [],
    row (.bold .white) (.bold .white) ("Shape", "Output"),
    [.styled .dimmed (String.ofList (List.replicate 50 '─'))]]
    ++ ruleTexts.map (row (.colored .yellow) (.colored .white))

/-! ## §3 The hint -/

/-- How the program is used. -/
def hint : List Line :=
  [[.styled (.bold .cyan) "lucene-query: canonical Lucene query serializer"], [],
    [.plain "Usage: lucene-query <TREE_JSON> [OPTIONS]"], [],
    [.plain "Try: lucene-query --help"]]

end CanonicalQuery
