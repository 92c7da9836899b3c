import CanonicalQuery.CommandLine.Printing
import CanonicalQuery.Proofs.Steps
import CanonicalQuery.Proofs.Text.Utf8

/-!
# What commands are supplied with

A command that needs a tree gets it from the command line, from the standard input or from a file.
What it finds there is a JSON value or a text that is none, or nothing can be read to its end.  Both
are relations on the world, apart from the readers, and together with the commands that need no tree
they leave nothing out.

Once the configuration holds, a run depends on the world only through them, and through what the
reader of the tree has to say.

## Main definitions

- `Supplied`: what reading JSON gives where a command looks for its tree.
- `Unsupplied`: nothing can be read there; the text says why.
- `Command.Treeless`: no tree is needed.
- `Command.words`: what is said about a tree that is no JSON.
- `Command.Explains`, `Command.answer`: what a command prints about a tree.
- `World.bare`: a world to begin with.

## Main statements

- `Command.supply_cases`: every command is treeless, supplied or unsupplied.
- `Supplied.functional`: what is supplied is determined.
- `Supplied.printedText`, `Unsupplied.printedText`: the answer to what is supplied is the one that
  is printed.
-/

namespace CanonicalQuery.CommandLine

open CanonicalQuery.Terminal
open CanonicalQuery.Files (Failure Stream)

variable {world : World} {c : Command} {colors : Bool} {format : OutputFormat}
variable {read read' : Except Json.Failure Json.Value} {text : String}

/-! ## §1 Supplies -/

/-- A world with nothing in it, and nothing said. -/
def World.bare : World where
  entry _ := .absent .missing
  environment _ := none
  account := none
  input := .ended .empty
  terminal := false
  wording := ⟨fun _ => "", fun _ => "", fun _ => ""⟩
  help _ := ""

/-- What reading JSON gives where a command looks for its tree. -/
inductive Supplied (world : World) : Command → Except Json.Failure Json.Value → Prop where
  | inline (tree : String) : Supplied world (.inline tree) (Json.Value.ofText tree)
  | input {c : Command} {text : String} :
      c.source? = some .standardInput → world.input = .ended text.toUTF8 →
      Supplied world c (Json.Value.ofText text)
  | file {c : Command} {path : String} {octets : ByteArray} :
      c.source? = some (.file path) → (world.entry path).opened = .ok (.ended octets) →
      Supplied world c (Json.Value.ofOctets octets)
  /-- A file that breaks off is no JSON if this shows before. -/
  | refusedBefore {c : Command} {path : String} {octets : ByteArray} {cause : Failure} :
      c.source? = some (.file path) → (world.entry path).opened = .ok ⟨octets, some cause⟩ →
      Json.Refuses octets = true → Supplied world c (.error .refused)

/-- Nothing can be read to its end where a command looks for its tree, and why. -/
inductive Unsupplied (world : World) : Command → String → Prop where
  | input {c : Command} {octets : ByteArray} {cause : Failure} :
      c.source? = some .standardInput → world.input = ⟨octets, some cause⟩ →
      Unsupplied world c cause.message
  | notText {c : Command} {octets : ByteArray} :
      c.source? = some .standardInput → world.input = .ended octets →
      (∀ text : String, octets ≠ text.toUTF8) →
      Unsupplied world c "stream did not contain valid UTF-8"
  | closed {c : Command} {path : String} {cause : Failure} :
      c.source? = some (.file path) → (world.entry path).opened = .error cause →
      Unsupplied world c ("failed to open " ++ path ++ ": " ++ cause.message)
  /-- A file breaks off, as a directory does at once, and might have been JSON up to there. -/
  | broken {c : Command} {path : String} {octets : ByteArray} {cause : Failure} :
      c.source? = some (.file path) → (world.entry path).opened = .ok ⟨octets, some cause⟩ →
      Json.Refuses octets = false →
      Unsupplied world c ("JSON error: " ++ cause.message ++ ": " ++ cause.message)

/-- A command that needs no tree. -/
def Command.Treeless (c : Command) : Prop :=
  c = .hint ∨ c = .rules

/-- Every command is treeless, supplied or unsupplied, in every world. -/
theorem Command.supply_cases (world : World) (c : Command) :
    c.Treeless ∨ (∃ read, Supplied world c read) ∨ ∃ text, Unsupplied world c text := by
  have ofSource (source : Source) (hs : c.source? = some source) :
      (∃ read, Supplied world c read) ∨ ∃ text, Unsupplied world c text := by
    cases source with
    | standardInput =>
      rcases world.input.cases with ⟨_, _, hi⟩ | ⟨_, hi⟩ | ⟨_, hi, hnone⟩
      · exact .inr ⟨_, .input hs hi⟩
      · exact .inl ⟨_, .input hs hi⟩
      · exact .inr ⟨_, .notText hs hi hnone⟩
    | file path =>
      match he : (world.entry path).opened with
      | .error cause => exact .inr ⟨_, .closed hs he⟩
      | .ok ⟨octets, none⟩ => exact .inl ⟨_, .file hs he⟩
      | .ok ⟨octets, some cause⟩ =>
        -- what was read before the failure may settle already that it is no JSON
        cases hr : Json.Refuses octets with
        | true => exact .inl ⟨_, .refusedBefore hs he hr⟩
        | false => exact .inr ⟨_, .broken hs he hr⟩
  cases c with
  | hint => exact .inl (.inl rfl)
  | rules => exact .inl (.inr rfl)
  | inline tree => exact .inr (.inl ⟨_, .inline tree⟩)
  | serialize source => exact .inr (ofSource source rfl)
  | explain source => exact .inr (ofSource source rfl)

theorem Supplied.not_treeless (h : Supplied world c read) : ¬c.Treeless := by
  rintro (rfl | rfl) <;> cases h <;> simp_all [Command.source?]

theorem Unsupplied.not_treeless (h : Unsupplied world c text) : ¬c.Treeless := by
  rintro (rfl | rfl) <;> cases h <;> simp_all [Command.source?]

/-! ## §2 What is read -/

/-- What the reader of a tree says where it is no JSON, for the place where the tree is looked
for. -/
def Source.words (world : World) : Source → String
  | .standardInput =>
    match world.input.text with
    | .ok text => world.wording.json text
    | .error _ => ""
  | .file path =>
    match (world.entry path).opened with
    | .ok stream => world.wording.jsonOctets stream.octets
    | .error _ => ""

/-- What the reader of a command's tree says where it is no JSON. -/
def Command.words (world : World) : Command → String
  | .inline tree => world.wording.json tree
  | .serialize source | .explain source => source.words world
  | .hint | .rules => ""

theorem Command.words_of_source {source : Source} (hs : c.source? = some source) :
    c.words world = source.words world := by
  cases c with
  | serialize _ =>
    obtain rfl := Option.some.inj hs
    rfl
  | explain _ =>
    obtain rfl := Option.some.inj hs
    rfl
  | hint => cases hs
  | rules => cases hs
  | inline _ => cases hs

/-- What reading a stream as JSON comes to. -/
theorem ofStream_of_refuses {octets : ByteArray} {cause : Failure} {refuses : Bool}
    (h : Json.Refuses octets = refuses) :
    Json.Value.ofStream ⟨octets, some cause⟩ =
      if refuses then .ok (.error .refused) else .error cause := by
  rw [← h]
  rfl

/-- The tree of a source is the one that reading it supplies. -/
theorem treeOf_of_supplied {source : Source} (hs : c.source? = some source)
    (h : Supplied world c read) :
    treeOf world source = (Node.ofRead read).mapError (.ofError (source.words world)) := by
  -- an inline tree has no source; of the others each has one, which is the given one
  cases h with
  | inline tree => cases hs
  | input hs' hi =>
    obtain rfl := Option.some.inj (hs.symm.trans hs')
    simp only [treeOf, Source.words, hi, Stream.text_of_toUTF8]
    rfl
  | file hs' he =>
    obtain rfl := Option.some.inj (hs.symm.trans hs')
    simp only [treeOf, Source.words, he]
    rfl
  | refusedBefore hs' he hr =>
    obtain rfl := Option.some.inj (hs.symm.trans hs')
    simp only [treeOf, Source.words, he, treeOfStream, ofStream_of_refuses hr, if_true]

/-- Where nothing can be read the tree is missing, and the trouble is told. -/
theorem treeOf_of_unsupplied {source : Source} (hs : c.source? = some source)
    (h : Unsupplied world c text) :
    ∃ trouble, treeOf world source = .error trouble ∧ trouble.message = text := by
  cases h with
  | @input octets cause hs' hi =>
    obtain rfl := Option.some.inj (hs.symm.trans hs')
    exact ⟨.input cause, by simp only [treeOf, hi, Stream.text], rfl⟩
  | notText hs' hi hnone =>
    obtain rfl := Option.some.inj (hs.symm.trans hs')
    exact ⟨.input .notText, by simp only [treeOf, hi, Stream.text_of_ne_toUTF8 hnone], rfl⟩
  | @closed path cause hs' he =>
    obtain rfl := Option.some.inj (hs.symm.trans hs')
    exact ⟨.closed path cause, by simp only [treeOf, he], rfl⟩
  | @broken path octets cause hs' he hr =>
    obtain rfl := Option.some.inj (hs.symm.trans hs')
    -- the octets alone are not refused, so the reader goes on and meets the failure
    refine ⟨.unreadable cause, ?_, rfl⟩
    simp only [treeOf, he, treeOfStream, ofStream_of_refuses hr, Bool.false_eq_true, if_false]

/-- A defect is reported as a shape without a rule or as an attribute of the wrong form. -/
theorem toError_cases (d : Tree.Defect) :
    (∃ path shape, d.toError = .unhandledShape path shape) ∨
      ∃ path name detail, d.toError = .invalidAttribute path name detail := by
  cases hd : d.fault with
  | unhandled shape => exact .inl ⟨_, _, by rw [Tree.Defect.toError, hd]⟩
  | notText name found => exact .inr ⟨_, _, _, by rw [Tree.Defect.toError, hd]⟩
  | unknownSymbol name symbol => exact .inr ⟨_, _, _, by rw [Tree.Defect.toError, hd]⟩
  | otherSymbol name symbol => exact .inr ⟨_, _, _, by rw [Tree.Defect.toError, hd]⟩

/-- An error about a tree stands for itself: nothing lies behind it, and no reader of JSON has a say
in it. -/
theorem ofError_of_rejected {v : Json.Value} {e : Error} (h : Node.ofRead (.ok v) = .error e)
    (words : String) : Trouble.ofError words e = .refused e ∧ e.chain = e.message := by
  rw [Node.ofRead] at h
  obtain ⟨d, -, rfl⟩ := mapError_eq_error.mp h
  rcases toError_cases d with ⟨path, shape, hd⟩ | ⟨path, name, detail, hd⟩
  · rw [hd]
    exact ⟨rfl, rfl⟩
  · rw [hd]
    exact ⟨rfl, rfl⟩

/-- What is supplied to a command is determined. -/
theorem Supplied.functional (h : Supplied world c read) (h' : Supplied world c read') :
    read = read' := by
  cases h <;> cases h' <;> simp_all [Command.source?, Stream.ended, String.toByteArray_inj]

/-! ## §3 What is printed -/

/-- Whether a command shows the tree too. -/
def Command.Explains : Command → Bool
  | .explain _ => true
  | _ => false

/-- What a command prints about a tree. -/
def Command.answer (c : Command) (colors : Bool) (format : OutputFormat) (n : Node) : String :=
  if c.Explains then explanationText colors format n else queryText format n

/-- What is printed answers to the tree that is supplied, or tells why it is refused. -/
theorem Supplied.printedText (h : Supplied world c read) :
    printedText world colors format c =
      ((Node.ofRead read).mapError (Trouble.ofError (c.words world))).map
        (c.answer colors format) := by
  -- both subcommands read from a source, and the tree on the line from its text
  cases c with
  | hint => exact absurd (.inl rfl) h.not_treeless
  | rules => exact absurd (.inr rfl) h.not_treeless
  | inline tree =>
    have hr : read = Json.Value.ofText tree := h.functional (.inline tree)
    rw [CommandLine.printedText, bind_return_eq_map, treeOfText, Node.ofJson, hr]
    rfl
  | serialize source =>
    rw [CommandLine.printedText, bind_return_eq_map, treeOf_of_supplied rfl h]
    rfl
  | explain source =>
    rw [CommandLine.printedText, bind_return_eq_map, treeOf_of_supplied rfl h]
    rfl

/-- Where nothing is supplied nothing is printed, in any format. -/
theorem Unsupplied.printedText (h : Unsupplied world c text) (colors : Bool)
    (format : OutputFormat) :
    ∃ trouble, printedText world colors format c = .error trouble ∧ trouble.message = text := by
  have ofSource {source : Source} (hs : c.source? = some source) (write : Node → String) :
      ∃ trouble, (do return write (← treeOf world source)) = Except.error trouble
        ∧ trouble.message = text := by
    obtain ⟨trouble, ht, hm⟩ := treeOf_of_unsupplied hs h
    exact ⟨trouble, by rw [ht]; rfl, hm⟩
  cases c with
  | hint => exact absurd (.inl rfl) h.not_treeless
  | rules => exact absurd (.inr rfl) h.not_treeless
  | inline tree => cases h <;> simp_all [Command.source?]
  | serialize source => exact ofSource rfl _
  | explain source => exact ofSource rfl _

/-- A command that needs no tree prints whatever the world is. -/
theorem Command.Treeless.printedText (h : c.Treeless) (world : World) (colors : Bool)
    (format : OutputFormat) :
    ∃ text, printedText world colors format c = .ok text := by
  obtain rfl | rfl := h
  · exact ⟨_, rfl⟩
  · exact ⟨_, rfl⟩

/-! ## §4 Runs -/

variable {i : Invocation} {config : Config}

/-- Without a configuration a run fails before the option on color is looked at. -/
theorem perform_of_unloaded {e : Error} (h : i.load world = .error e) :
    perform world i = .failed (.config e) (colorsWanted world.environment world.terminal) := by
  rw [Invocation.load] at h
  simp only [perform, h]

/-- Once the configuration holds, a run ends as printing does. -/
theorem perform_of_loaded (h : i.load world = .ok config) :
    perform world i =
      match printedText world (i.colors world config) (i.formatUnder config) i.command with
      | .ok text => .printed text
      | .error trouble => .failed trouble (i.colors world config) := by
  rw [Invocation.load] at h
  simp only [perform, h]
  rfl

/-- A run with a supplied tree answers to it, or tells why it is refused. -/
theorem perform_of_supplied (hl : i.load world = .ok config)
    (h : Supplied world i.command read) :
    perform world i =
      match Node.ofRead read with
      | .ok n => .printed (i.command.answer (i.colors world config) (i.formatUnder config) n)
      | .error e => .failed (.ofError (i.command.words world) e) (i.colors world config) := by
  rw [perform_of_loaded hl, h.printedText]
  cases Node.ofRead read <;> rfl

/-- Words that make an invocation are carried out. -/
theorem run_of_invocation {words : List String}
    (hi : Invocation.ofWords world.environment words = .ok i) :
    run world words = perform world i := by
  simp only [run, hi]

end CanonicalQuery.CommandLine
