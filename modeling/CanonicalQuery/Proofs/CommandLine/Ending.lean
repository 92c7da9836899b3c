import CanonicalQuery.Proofs.CommandLine.Supply
import CanonicalQuery.Proofs.Steps

/-!
# How runs end

A run fails exactly when it must: when its configuration cannot be loaded, when its tree cannot be
read, or when its tree is refused, and the first of these that applies is the one that is told.  A
run that fails prints nothing, although the program prints step by step: every step that may fail
comes before the first one that prints.

A run that does not fail answers to its tree with the canonical text that the tree gives, and with
nothing else.

## Main definitions

- `Part.Prints`: a part of the program ends well and prints a text.
- `Fails`: what is seen of a run that fails.
- `Ends`: how a run on an invocation ends.

## Main statements

- `printNode_prints`: a tree that is printed node by node gives its listing.
- `program_printed`, `program_failure?`: what the program prints step by step is the output, and it
  stops where the run fails.
- `run_ends`: every run on an invocation ends in this way.
-/

namespace CanonicalQuery.CommandLine

open CanonicalQuery.Terminal

/-! ## §1 Parts of the program -/

namespace Part

/-- A part ends well, and behind whatever was printed before it prints a text. -/
def Prints (p : Part Unit) (text : String) : Prop :=
  ∀ before, p.after before = (.ok (), before ++ text)

theorem print_prints (text : String) : (print text).Prints text :=
  fun _ => rfl

theorem pure_prints : (pure () : Part Unit).Prints "" := by
  intro before
  rw [String.append_empty]
  rfl

/-- Parts that follow each other print one text behind the other. -/
theorem Prints.bind {p q : Part Unit} {text text' : String} (hp : p.Prints text)
    (hq : q.Prints text') : (p >>= fun _ => q).Prints (text ++ text') := by
  intro before
  -- a failure of `p` would end the work, but `p` ends well
  have hseq : (p >>= fun _ => q).after before =
      match p.after before with
      | (.ok _, printed) => q.after printed
      | (.error trouble, printed) => (.error trouble, printed) := by
    simp only [after, ExceptT.run_bind, StateT.run_bind]
    cases StateT.run (ExceptT.run p) before with
    | mk result printed => cases result <;> rfl
  rw [hseq, hp, ← String.append_assoc]
  exact hq _

/-- Behind an attempt that succeeds the work goes on; an attempt that fails ends it at once, and
what was printed before stays. -/
theorem after_attempt_bind {α β : Type} (result : Except Trouble α) (next : α → Part β)
    (before : String) :
    (attempt result >>= next).after before =
      match result with
      | .ok a => (next a).after before
      | .error trouble => (.error trouble, before) := by
  cases result <;> rfl

end Part

/-! ## §2 Listings that are printed line by line -/

/-- A line is printed with a line feed behind it. -/
theorem printLine_prints (colors : Bool) (line : Line) :
    (printLine colors line).Prints (writeLines colors [line]) := by
  have hone : writeLines colors [line] = writeLine colors line ++ "\n" := by
    simp [writeLines, String.join]
  rw [hone]
  exact Part.print_prints _

theorem writeLines_append (colors : Bool) (front behind : List Line) :
    writeLines colors (front ++ behind) = writeLines colors front ++ writeLines colors behind := by
  simp only [writeLines, List.map_append, String.join_append]

/-- A line and what follows it. -/
theorem printLine_bind_prints (line : Line) {lines : List Line} {p : Part Unit}
    (hp : p.Prints (writeLines colors lines)) :
    (printLine colors line >>= fun _ => p).Prints (writeLines colors (line :: lines)) := by
  have hcons := writeLines_append colors [line] lines
  rw [List.singleton_append] at hcons
  rw [hcons]
  exact (printLine_prints colors line).bind hp

theorem printLines_prints (colors : Bool) (lines : List Line) :
    (printLines colors lines).Prints (writeLines colors lines) := by
  induction lines with
  | nil => exact Part.pure_prints
  | cons line lines ih => exact printLine_bind_prints line ih

mutual

/-- A tree that is printed node by node gives its listing. -/
theorem printNode_prints (colors : Bool) (depth : Nat) (n : Node) :
    (printNode colors depth n).Prints (writeLines colors (n.listing depth)) := by
  cases n with
  | term t => exact printLines_prints colors _
  | phrase p => exact printLines_prints colors _
  | range name bounds ends => exact printLines_prints colors _
  -- the line of the node, and behind it what is printed of its parts
  | group inner => exact printLine_bind_prints _ (printNode_prints colors (depth + 1) inner)
  | unary operator operand =>
    exact printLine_bind_prints _ (printNode_prints colors (depth + 1) operand)
  | field name operand =>
    exact printLine_bind_prints _ (printNode_prints colors (depth + 1) operand)
  | sequence items => exact printLine_bind_prints _ (printNodes_prints colors depth items)

theorem printNodes_prints (colors : Bool) (depth : Nat) (items : List Node) :
    (printNode.printNodes colors depth items).Prints
      (writeLines colors (Node.listing.listings depth items)) := by
  cases items with
  | nil => exact Part.pure_prints
  | cons n ns =>
    rw [Node.listing.listings, writeLines_append]
    exact (printNode_prints colors (depth + 1) n).bind (printNodes_prints colors depth ns)

end

/-- An explanation is printed line by line, or at once as JSON. -/
theorem printExplanation_prints (colors : Bool) (format : OutputFormat) (n : Node) :
    (printExplanation colors format n).Prints (explanationText colors format n) := by
  cases format with
  | json => exact Part.print_prints _
  | plain =>
    -- the title, the listing, an empty line, another title, and the query
    have hend := printLine_bind_prints [] <|
      printLine_bind_prints [.styled (.bold .green) "Canonical query:"] <|
        printLine_prints colors [.plain "  ", .colored .white n.query]
    have hnode := (printNode_prints colors 1 n).bind hend
    rw [← writeLines_append] at hnode
    exact printLine_bind_prints _ hnode

/-! ## §3 The program -/

variable {world : World} {i : Invocation} {config : Config}

/-- A tree is read, and then the answer to it is printed. -/
theorem after_read {read : Except Trouble Node} {print : Node → Part Unit}
    {write : Node → String} (h : ∀ n, (print n).Prints (write n)) :
    (Part.attempt read >>= print).after "" =
      match (do return write (← read) : Except Trouble String) with
      | .ok text => (.ok (), text)
      | .error trouble => (.error trouble, "") := by
  rw [Part.after_attempt_bind]
  cases read with
  | ok n =>
    have hn := h n ""
    rw [String.empty_append] at hn
    exact hn
  | error trouble => rfl

/-- The program prints all of its text, or fails before it prints any. -/
theorem after_program (hl : i.load world = .ok config) :
    (program world i).after "" =
      match printedText world (i.colors world config) (i.formatUnder config) i.command with
      | .ok text => (.ok (), text)
      | .error trouble => (.error trouble, "") := by
  have hload : (i.load world).mapError Trouble.config = .ok config := mapError_eq_ok.mpr hl
  rw [program, hload, Part.after_attempt_bind]
  -- what is left may fail once, where the tree is read, and prints only behind that
  cases hc : i.command with
  | hint => simpa [printedText] using printLines_prints _ hint ""
  | rules => simpa [printedText] using printLines_prints _ rules ""
  | inline tree => exact after_read fun n => Part.print_prints _
  | serialize source => exact after_read fun n => Part.print_prints _
  | explain source => exact after_read fun n => printExplanation_prints _ _ n

/-- Why a run fails, if it does. -/
def Outcome.trouble? : Outcome → Option Trouble
  | .failed trouble _ => some trouble
  | _ => none

/-- The program does step by step what the outcome of the run tells. -/
theorem program_printed_failure? (world : World) (i : Invocation) :
    (program world i).printed = (perform world i).output ∧
      (program world i).failure? = (perform world i).trouble? := by
  rw [Part.printed, Part.failure?]
  cases hl : i.load world with
  -- without its configuration the program stops at once
  | error e =>
    have hload : (i.load world).mapError Trouble.config = .error (.config e) :=
      mapError_eq_error.mpr ⟨e, hl, rfl⟩
    rw [perform_of_unloaded hl, program, hload, Part.after_attempt_bind]
    exact ⟨rfl, rfl⟩
  | ok config =>
    rw [perform_of_loaded hl, after_program hl]
    cases printedText world (i.colors world config) (i.formatUnder config) i.command with
    | ok text => exact ⟨rfl, rfl⟩
    | error trouble => exact ⟨rfl, rfl⟩

/-! ## §4 Failures -/

/-- What stands before the text of an error. -/
def errorMark (colors : Bool) : String :=
  if colors then "\x1b[1;31mError:\x1b[0m " else "Error: "

/-- What is seen of a run that fails with a text. -/
structure Fails (o : Outcome) (colors : Bool) (text : String) : Prop where
  exitCode : o.exitCode = 1
  output : o.output = ""
  error : o.error? = some (errorMark colors ++ text)

theorem fails_failed (trouble : Trouble) (colors : Bool) :
    Fails (.failed trouble colors) colors trouble.message where
  exitCode := rfl
  output := rfl
  error := by
    -- the mark is the piece in front, as it is written with color or without
    have hmark : (Piece.styled (.bold .red) "Error:").write colors ++ " " = errorMark colors := by
      cases colors <;> decide
    have hplain (text : String) : (Piece.plain text).write colors = text := by
      cases colors <;> rfl
    simp [Outcome.error?, writeLine, String.join, hplain, ← hmark]

/-- The canonical text of a value is the query of the tree that it is read as. -/
theorem canonicalQuery_eq_ok {v : Json.Value} {q : String} :
    v.canonicalQuery = .ok q ↔ ∃ n, Node.ofRead (.ok v) = .ok n ∧ n.query = q :=
  map_eq_ok

theorem canonicalQuery_eq_error {v : Json.Value} {e : Error} :
    v.canonicalQuery = .error e ↔ Node.ofRead (.ok v) = .error e :=
  map_eq_error

/-- How a run on an invocation ends. -/
structure Ends (world : World) (i : Invocation) (o : Outcome) : Prop where
  /-- What the program prints before it stops is the output. -/
  printed : (program world i).printed = o.output
  stopped : (program world i).failure?.isSome ↔ o.exitCode = 1
  unloaded : ∀ {e}, i.load world = .error e →
    Fails o (colorsWanted world.environment world.terminal)
      ("failed to load config: " ++ e.chain)
  unsupplied : ∀ {config text}, i.load world = .ok config →
    Unsupplied world i.command text → Fails o (i.colors world config) text
  /-- The words of the reader that refuses a text stand behind the mark, once for the error and once
  for what lies behind it. -/
  malformed : ∀ {config failure}, i.load world = .ok config →
    Supplied world i.command (.error failure) →
    Fails o (i.colors world config)
      ("JSON error: " ++ i.command.words world ++ ": " ++ i.command.words world)
  rejected : ∀ {config v e}, i.load world = .ok config →
    Supplied world i.command (.ok v) → v.canonicalQuery = .error e →
    Fails o (i.colors world config) e.message
  fails_iff : o.exitCode = 1 ↔
    (∃ e, i.load world = .error e) ∨ (∃ text, Unsupplied world i.command text) ∨
      (∃ failure, Supplied world i.command (.error failure)) ∨
      ∃ v e, Supplied world i.command (.ok v) ∧ v.canonicalQuery = .error e
  succeeds : o.exitCode ≠ 1 → o.exitCode = 0 ∧ o.error? = none
  treeless : ∀ {config}, i.load world = .ok config → i.command.Treeless → o.exitCode = 0
  accepted : ∀ {config v q}, i.load world = .ok config →
    Supplied world i.command (.ok v) → v.canonicalQuery = .ok q → o.exitCode = 0
  /-- A query without its tree is the canonical text, and nothing else is printed. -/
  answers : ∀ {config v q}, i.load world = .ok config →
    Supplied world i.command (.ok v) → v.canonicalQuery = .ok q →
    i.formatUnder config = .plain → i.command.Explains = false → o.output = q ++ "\n"

/-- A run with a refused tree fails with what is to be said about it. -/
theorem fails_of_refused {read : Except Json.Failure Json.Value} {e : Error}
    (hl : i.load world = .ok config) (hs : Supplied world i.command read)
    (he : Node.ofRead read = .error e) :
    Fails (perform world i) (i.colors world config)
      (Trouble.ofError (i.command.words world) e).message := by
  rw [perform_of_supplied hl hs, he]
  exact fails_failed _ _

/-- A run with a value that is no tree fails with what is wrong about it, and nothing more. -/
theorem fails_of_rejected {v : Json.Value} {e : Error} (hl : i.load world = .ok config)
    (hs : Supplied world i.command (.ok v)) (he : Node.ofRead (.ok v) = .error e) :
    Fails (perform world i) (i.colors world config) e.message := by
  obtain ⟨htrouble, hchain⟩ := ofError_of_rejected he (i.command.words world)
  have hfails := fails_of_refused hl hs he
  rw [htrouble] at hfails
  rw [← hchain]
  exact hfails

/-- A run fails on a configuration that cannot be loaded, whatever it was asked for. -/
theorem fails_of_unloaded {e : Error} (hl : i.load world = .error e) :
    Fails (perform world i) (colorsWanted world.environment world.terminal)
      ("failed to load config: " ++ e.chain) := by
  rw [perform_of_unloaded hl]
  exact fails_failed (.config e) _

/-- A run fails where its tree cannot be read to the end. -/
theorem fails_of_unsupplied {text : String} (hl : i.load world = .ok config)
    (hu : Unsupplied world i.command text) :
    Fails (perform world i) (i.colors world config) text := by
  obtain ⟨trouble, ht, hm⟩ := hu.printedText (i.colors world config) (i.formatUnder config)
  rw [perform_of_loaded hl, ht, ← hm]
  exact fails_failed trouble _

/-- A run that needs no tree prints. -/
theorem exitCode_of_treeless (hl : i.load world = .ok config) (ht : i.command.Treeless) :
    (perform world i).exitCode = 0 := by
  obtain ⟨text, htext⟩ := ht.printedText world (i.colors world config) (i.formatUnder config)
  rw [perform_of_loaded hl, htext]
  rfl

/-- A run with an accepted tree prints. -/
theorem exitCode_of_accepted {v : Json.Value} {q : String}
    (hl : i.load world = .ok config) (hs : Supplied world i.command (.ok v))
    (hq : v.canonicalQuery = .ok q) :
    (perform world i).exitCode = 0 := by
  obtain ⟨n, hn, -⟩ := canonicalQuery_eq_ok.mp hq
  rw [perform_of_supplied hl hs, hn]
  rfl

/-- A run fails on its configuration, on what it cannot read, or on a tree that is refused. -/
theorem exitCode_eq_one_iff (world : World) (i : Invocation) :
    (perform world i).exitCode = 1 ↔
      (∃ e, i.load world = .error e) ∨ (∃ text, Unsupplied world i.command text) ∨
        (∃ failure, Supplied world i.command (.error failure)) ∨
        ∃ v e, Supplied world i.command (.ok v) ∧ v.canonicalQuery = .error e := by
  constructor
  · intro h
    cases hl : i.load world with
    | error e => exact .inl ⟨e, rfl⟩
    | ok config =>
      right
      rcases i.command.supply_cases world with ht | ⟨failure | v, hs⟩ | hu
      · simp [exitCode_of_treeless hl ht] at h
      · exact .inr (.inl ⟨failure, hs⟩)
      -- a value that is refused, or one that is answered
      · cases hq : v.canonicalQuery with
        | error e => exact .inr (.inr ⟨v, e, hs, hq⟩)
        | ok q => simp [exitCode_of_accepted hl hs hq] at h
      · exact .inl hu
  · intro h
    cases hl : i.load world with
    | error e => exact (fails_of_unloaded hl).exitCode
    | ok config =>
      rcases h with ⟨e, he⟩ | ⟨text, hu⟩ | ⟨failure, hs⟩ | ⟨v, e, hs, he⟩
      · simp [hl] at he
      · exact (fails_of_unsupplied hl hu).exitCode
      · exact (fails_of_refused hl hs rfl).exitCode
      · exact (fails_of_refused hl hs (canonicalQuery_eq_error.mp he)).exitCode

/-- A run on an invocation prints, or it fails. -/
theorem perform_printed_or_failed (world : World) (i : Invocation) :
    (∃ text, perform world i = .printed text) ∨
      ∃ trouble colors, perform world i = .failed trouble colors := by
  cases hl : i.load world with
  | error e => exact .inr ⟨_, _, perform_of_unloaded hl⟩
  | ok config =>
    rw [perform_of_loaded hl]
    cases printedText world (i.colors world config) (i.formatUnder config) i.command with
    | ok text => exact .inl ⟨text, rfl⟩
    | error trouble => exact .inr ⟨trouble, _, rfl⟩

/-- Every run on an invocation ends in the way that is told above. -/
theorem run_ends {world : World} {words : List String} {i : Invocation}
    (hi : Invocation.ofWords world.environment words = .ok i) :
    Ends world i (run world words) := by
  rw [run_of_invocation hi]
  -- what the program prints and where it stops are the output and the trouble of the run
  obtain ⟨hprinted, hfailure⟩ := program_printed_failure? world i
  exact
    { printed := hprinted
      stopped := by
        rw [hfailure]
        rcases perform_printed_or_failed world i with ⟨text, ht⟩ | ⟨trouble, colors, ht⟩
        · simp [ht, Outcome.trouble?, Outcome.exitCode]
        · simp [ht, Outcome.trouble?, Outcome.exitCode]
      unloaded := fails_of_unloaded
      unsupplied := fails_of_unsupplied
      malformed := fun hl hs => fails_of_refused hl hs rfl
      rejected := by
        intro config v e hl hs he
        exact fails_of_rejected hl hs (canonicalQuery_eq_error.mp he)
      fails_iff := exitCode_eq_one_iff world i
      succeeds := by
        rcases perform_printed_or_failed world i with ⟨text, ht⟩ | ⟨trouble, colors, ht⟩
        · exact fun _ => by rw [ht]; exact ⟨rfl, rfl⟩
        · exact fun h => absurd (by rw [ht]; rfl) h
      treeless := exitCode_of_treeless
      accepted := exitCode_of_accepted
      answers := by
        -- without its tree, an answer is the text that the tree gives
        intro config v q hl hs hq hplain hcommand
        obtain ⟨n, hn, hnq⟩ := canonicalQuery_eq_ok.mp hq
        rw [perform_of_supplied hl hs, hn, hplain, ← hnq]
        simp only [Command.answer, hcommand]
        rfl }

/-- The configuration is told of first, although the tree is no JSON either. -/
theorem run_ends_of_missing_config :
    Invocation.ofWords World.bare.environment ["[", "--config", "absent.toml", "-f", "json"] =
        .ok ⟨.inline "[", some .json, some "absent.toml", false, false⟩ ∧
      Fails (run World.bare ["[", "--config", "absent.toml", "-f", "json"]) false
        ("failed to load config: IO error: No such file or directory (os error 2): " ++
          "No such file or directory (os error 2)") := by
  have hi : Invocation.ofWords World.bare.environment
      ["[", "--config", "absent.toml", "-f", "json"] =
        .ok ⟨.inline "[", some .json, some "absent.toml", false, false⟩ := by
    rfl
  exact ⟨hi, (run_ends hi).unloaded rfl⟩

end CanonicalQuery.CommandLine
