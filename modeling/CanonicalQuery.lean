import CanonicalQuery.Query.Node
import CanonicalQuery.Query.Text
import CanonicalQuery.Query.Build
import CanonicalQuery.Text.Hex
import CanonicalQuery.Text.Utf8
import CanonicalQuery.Text.Unprintable
import CanonicalQuery.Text.Shown
import CanonicalQuery.Decimal.Binary64
import CanonicalQuery.Decimal.Shortest
import CanonicalQuery.Json.Value
import CanonicalQuery.Json.Form
import CanonicalQuery.Json.Number
import CanonicalQuery.Json.Quoted
import CanonicalQuery.Json.Automaton
import CanonicalQuery.Json.Text
import CanonicalQuery.Tree.Defect
import CanonicalQuery.Tree.Reading
import CanonicalQuery.Tree.Writing
import CanonicalQuery.Typed.Writing
import CanonicalQuery.Typed.Mismatch
import CanonicalQuery.Typed.Record
import CanonicalQuery.Typed.Reading
import CanonicalQuery.Toml.Quoted
import CanonicalQuery.Toml.Scalar
import CanonicalQuery.Toml.Item
import CanonicalQuery.Toml.Reading
import CanonicalQuery.Files.Entry
import CanonicalQuery.Files.Tree
import CanonicalQuery.Error
import CanonicalQuery.Config.Basic
import CanonicalQuery.Config.Typed
import CanonicalQuery.Config.Reading
import CanonicalQuery.Config.Loading
import CanonicalQuery.Terminal.Style
import CanonicalQuery.Terminal.Listing
import CanonicalQuery.CommandLine.Arguments
import CanonicalQuery.CommandLine.Run
import CanonicalQuery.CommandLine.Printing
import CanonicalQuery.Main
import CanonicalQuery.Proofs.Steps
import CanonicalQuery.Proofs.Text.Pieces
import CanonicalQuery.Proofs.Text.Shown
import CanonicalQuery.Proofs.Text.Utf8
import CanonicalQuery.Proofs.Query.Spine
import CanonicalQuery.Proofs.Query.Plain
import CanonicalQuery.Proofs.Query.Unambiguous
import CanonicalQuery.Proofs.Query.Nesting
import CanonicalQuery.Proofs.Json.Members
import CanonicalQuery.Proofs.Json.Reordered
import CanonicalQuery.Proofs.Json.RoundTrip
import CanonicalQuery.Proofs.Json.Demands
import CanonicalQuery.Proofs.Json.Lines
import CanonicalQuery.Proofs.Tree.Denotation
import CanonicalQuery.Proofs.Tree.RoundTrip
import CanonicalQuery.Proofs.Tree.Grammar
import CanonicalQuery.Proofs.Tree.Normal
import CanonicalQuery.Proofs.Tree.Paths
import CanonicalQuery.Proofs.Tree.Faults
import CanonicalQuery.Proofs.Tree.Scope
import CanonicalQuery.Proofs.Tree.JsonText
import CanonicalQuery.Proofs.Typed.Order
import CanonicalQuery.Proofs.Typed.RoundTrip
import CanonicalQuery.Proofs.Typed.Agreement
import CanonicalQuery.Proofs.CommandLine.Supply
import CanonicalQuery.Proofs.CommandLine.Ending
import CanonicalQuery.Proofs.CommandLine.Words
import CanonicalQuery.Proofs.CommandLine.Routes
import CanonicalQuery.Proofs.CommandLine.JsonOutput
import CanonicalQuery.Proofs.Tree.AllDefects
import CanonicalQuery.Proofs.CommandLine.Coloring
import CanonicalQuery.Proofs.CommandLine.Configured
import CanonicalQuery.Proofs.Tree.FirstDefect
import CanonicalQuery.Proofs.Query.Contexts
import CanonicalQuery.Proofs.Tree.Contexts
import CanonicalQuery.Proofs.Json.Composed
import CanonicalQuery.Proofs.Tree.Separators
import CanonicalQuery.Proofs.Json.Rearranged
import CanonicalQuery.Proofs.Query.Preorder
import CanonicalQuery.Proofs.Text.Brackets
import CanonicalQuery.Proofs.Query.Brackets
import CanonicalQuery.Proofs.Typed.Parts
import CanonicalQuery.Proofs.Typed.Denotation
import CanonicalQuery.Proofs.Terminal.Labels
import CanonicalQuery.Proofs.Terminal.Outline
import CanonicalQuery.Proofs.CommandLine.Tokens
import CanonicalQuery.Proofs.CommandLine.Told
import CanonicalQuery.Proofs.CommandLine.Globals
import CanonicalQuery.Proofs.CommandLine.Sides
import CanonicalQuery.Proofs.Toml.Entries
import CanonicalQuery.Proofs.Toml.Distinct
import CanonicalQuery.Proofs.Toml.Statements
import CanonicalQuery.Proofs.Config.Output
