import CanonicalQuery.Proofs.CommandLine.Supply
import CanonicalQuery.Proofs.Json.Lines
import CanonicalQuery.Proofs.Typed.RoundTrip

/-!
# Output as JSON

Asked for JSON, a run with an accepted tree prints one line.  The line carries what the run would
print as plain text, whatever characters the query holds: a reader of JSON takes the query out of it
as it is.  Where the tree is shown too, a reader that minds no depth takes out its typed form, and
reading that gives the tree that the query was written for.

## Main definitions

- `explanationValue`: what is shown as JSON of a tree and its query.
- `PrintsLine`: a run prints one line, and the line is the text of a value.
- `ShowsJson`: what a run on an accepted tree prints as JSON.

## Main statements

- `node_of_explanationValue`: the tree that is shown is the tree that was read.
- `run_shows_json`: every run that is asked for JSON prints this.
-/

namespace CanonicalQuery.CommandLine

open CanonicalQuery.Json

variable {world : World} {i : Invocation} {config : Config} {n : Node}

/-! ## §1 Values that are shown -/

/-- The query of a tree as it is shown. -/
def queryValue (n : Node) : Value :=
  .object [("query", .string n.query)]

/-- A tree and its query as they are shown. -/
def explanationValue (n : Node) : Value :=
  .object [("query", .string n.query), ("tree", n.typed.sorted)]

theorem numberless_queryValue (n : Node) : (queryValue n).Numberless :=
  ⟨trivial, trivial⟩

theorem sorted_queryValue (n : Node) : (queryValue n).Sorted :=
  Value.sorted_single.mpr trivial

theorem numberless_explanationValue (n : Node) : (explanationValue n).Numberless :=
  ⟨trivial, Value.numberless_sorted _ (Typed.regular_node n).numberless, trivial⟩

theorem sorted_explanationValue (n : Node) : (explanationValue n).Sorted := by
  have hlt : "query" < "tree" := by decide
  exact (Value.sorted_pair hlt).mpr ⟨trivial, Value.sorted_sorted n.typed⟩

/-- The tree that is shown is read as the tree it was. -/
theorem node_of_explanationValue (n : Node) :
    Typed.ofValue Typed.node n.typed.sorted = .ok n := by
  have hround : Typed.RoundTrips Typed.node Node.typed :=
    Typed.roundTrips_of_typed (fun _ _ _ => Typed.node_reordered) Typed.node_typed
      Typed.regular_node
  exact hround.value n

/-! ## §2 Lines -/

/-- What is printed is one line, without characters below U+0020 in front of its end, and the line
is read as a value; a reader with the usual limit of depth reads it unless the value is too deep. -/
def PrintsLine (output : String) (v : Value) : Prop :=
  ∃ line, output = line ++ "\n" ∧ Printable line ∧
    Value.ofSymbols .unlimited (symbols line) = .ok v ∧
    (v.depth ≤ 127 → Value.ofText line = .ok v)

theorem printsLine_text {v : Value} (h : v.Numberless) (hs : v.Sorted) :
    PrintsLine (v.text ++ "\n") v := by
  refine ⟨v.text, rfl, Value.printable_text v h, Value.ofSymbols_text h hs, fun hdepth => ?_⟩
  rw [Value.ofText_text v h, if_pos hdepth, Value.sorted_eq_self v hs]

/-! ## §3 Runs -/

/-- What a run on an accepted tree prints if it is asked for JSON. -/
structure ShowsJson (world : World) (i : Invocation) (config : Config) (n : Node)
    (output : String) : Prop where
  /-- A query alone, as it would be printed as plain text. -/
  query : i.command.Explains = false →
    ∃ q, PrintsLine output (.object [("query", .string q)]) ∧
      ∀ i' : Invocation, i'.command = i.command → i'.config = i.config →
        i'.formatUnder config = .plain → (perform world i').output = q ++ "\n"
  /-- A query and its tree, from which the query can be written again. -/
  explain : i.command.Explains = true →
    ∃ q tree, PrintsLine output (.object [("query", .string q), ("tree", tree)]) ∧
      q = n.query ∧ Typed.ofValue Typed.node tree = .ok n

/-- A run with an accepted tree prints the answer of its command. -/
theorem perform_of_accepted {read : Except Failure Value}
    (hl : i.load world = .ok config) (hs : Supplied world i.command read)
    (hn : Node.ofRead read = .ok n) :
    perform world i =
      .printed (i.command.answer (i.colors world config) (i.formatUnder config) n) := by
  rw [perform_of_supplied hl hs, hn]

/-- Whatever the tree, a run that is asked for JSON shows it on one line. -/
theorem run_shows_json {words : List String} {read : Except Failure Value}
    (hi : Invocation.ofWords world.environment words = .ok i) (hl : i.load world = .ok config)
    (hf : i.formatUnder config = .json) (hs : Supplied world i.command read)
    (hn : Node.ofRead read = .ok n) :
    ShowsJson world i config n (run world words).output := by
  rw [run_of_invocation hi, perform_of_accepted hl hs hn, hf]
  constructor
  case query =>
    intro hcommand
    refine ⟨n.query, ?line, ?plain⟩
    case line =>
      simp only [Command.answer, hcommand]
      exact printsLine_text (numberless_queryValue n) (sorted_queryValue n)
    case plain =>
      -- the other invocation reads the same tree under the same configuration
      intro i' hc hconfig hplain
      have hl' : i'.load world = .ok config := by
        rw [Invocation.load, hconfig]
        exact hl
      have hs' : Supplied world i'.command read := by
        rw [hc]
        exact hs
      rw [perform_of_accepted hl' hs' hn, hplain, hc]
      simp only [Command.answer, hcommand]
      rfl
  case explain =>
    intro hcommand
    refine ⟨n.query, n.typed.sorted, ?line, rfl, node_of_explanationValue n⟩
    simp only [Command.answer, hcommand]
    exact printsLine_text (numberless_explanationValue n) (sorted_explanationValue n)

/-- The end of a line within a word is shown as an escape. -/
theorem run_shows_json_of_broken_word :
    ShowsJson World.bare ⟨.inline "\"a\\nb\"", some .json, none, false, false⟩ .default
      (.word "a\nb") (run World.bare ["--format=json", "\"a\\nb\""]).output :=
  run_shows_json rfl rfl rfl (.inline _) rfl

end CanonicalQuery.CommandLine
