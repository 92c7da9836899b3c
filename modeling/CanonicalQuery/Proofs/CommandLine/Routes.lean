import CanonicalQuery.Proofs.CommandLine.Ending
import CanonicalQuery.Proofs.CommandLine.Words
import CanonicalQuery.Proofs.Text.Utf8

/-!
# Routes of a tree

A text reaches the program on the command line, on the standard input or in a file.  Whichever way
it takes, the same options, the same environment and the same configuration lead to the same run,
for a text of any kind: the reader of a file sees the octets of the text, the others its characters.

There are two limits to this.

- A text that is no JSON is refused on each way, and for the same kind of reason; but the reader of
  octets may tell the place of the mistake differently from the reader of characters.
- The options have to be accepted.  There is one way in which they are accepted without a subcommand
  and refused with one: an empty path in the environment is looked at on either side of a
  subcommand, so it is refused there although an option on one side wins over it.

## Main definitions

- `HandsOver`: a command finds a text where it looks for its tree.
- `World.Alike`, `Invocation.Alike`: worlds and invocations that differ only in where trees stand.
- `Outcome.AlikeFor`: two outcomes differ at most in the words of the readers about a text.
- `RoutesAgree`: all the ways of a text lead to the same run.

## Main statements

- `perform_cases`: like invocations of like worlds have the same outcome, up to these words.
- `routesAgree`: the routes agree for every text.
- `routes_differ`: the two ways in which they differ.
-/

namespace CanonicalQuery.CommandLine

variable {world world' : World} {t : String} {i i' : Invocation} {words words' : List String}

/-! ## §1 Texts that are handed over -/

/-- A command finds a text where it looks for its tree. -/
inductive HandsOver (world : World) (t : String) : Command → Prop where
  | inline : HandsOver world t (.inline t)
  | input {c : Command} : c.source? = some .standardInput → world.input = .ended t.toUTF8 →
      HandsOver world t c
  | file {c : Command} {path : String} : c.source? = some (.file path) →
      (world.entry path).opened = .ok (.ended t.toUTF8) → HandsOver world t c

/-- A text is read alike on each of its ways. -/
theorem HandsOver.supplied {c : Command} (h : HandsOver world t c) :
    Supplied world c (Json.Value.ofText t) := by
  cases h with
  | inline => exact .inline t
  | input hs hi => exact .input hs hi
  | file hs he =>
    rw [← Json.Value.ofOctets_toUTF8]
    exact .file hs he

/-- What readers may say about a text: as characters, or as octets. -/
def Wording.about (wording : Wording) (t : String) : List String :=
  [wording.json t, wording.jsonOctets t.toUTF8]

/-- A command says about its tree what one of the readers says. -/
theorem HandsOver.words_mem {c : Command} (h : HandsOver world t c) :
    c.words world ∈ Wording.about world.wording t := by
  cases h with
  | inline => exact List.mem_cons_self
  | input hs hi =>
    rw [Command.words_of_source hs, Source.words, hi, Files.Stream.text_of_toUTF8]
    exact List.mem_cons_self
  | file hs he =>
    rw [Command.words_of_source hs, Source.words, he]
    exact List.mem_cons_of_mem _ List.mem_cons_self

/-- Where no file is read, the words are those of the reader of characters. -/
theorem words_of_input {c : Command} (hs : c.source? = some .standardInput)
    (hi : world.input = .ended t.toUTF8) : c.words world = world.wording.json t := by
  rw [Command.words_of_source hs, Source.words, hi, Files.Stream.text_of_toUTF8]

/-! ## §2 Like worlds and invocations -/

/-- Worlds that differ in where trees stand, and not in how a run is set up. -/
structure World.Alike (world world' : World) (config : Option String) : Prop where
  environment : world'.environment = world.environment
  terminal : world'.terminal = world.terminal
  wording : world'.wording = world.wording
  config : Config.load world'.wording.toml world'.entry world'.directory? config =
    Config.load world.wording.toml world.entry world.directory? config

/-- Invocations that ask for the same, wherever their trees are. -/
structure Invocation.Alike (i i' : Invocation) : Prop where
  format : i'.format = i.format
  config : i'.config = i.config
  noColor : i'.noColor = i.noColor
  explains : i'.command.Explains = i.command.Explains

/-- Like invocations of like worlds end alike if they are handed the same text, unless this is no
JSON: then each of them fails in the words of its reader. -/
theorem perform_cases (hw : world.Alike world' i.config) (hi : i.Alike i')
    (h : HandsOver world t i.command) (h' : HandsOver world' t i'.command) :
    perform world' i' = perform world i ∨
      ∃ failure colors, Json.Value.ofText t = .error failure ∧
        perform world i = .failed (.malformed failure (i.command.words world)) colors ∧
        perform world' i' = .failed (.malformed failure (i'.command.words world')) colors := by
  have hload : i'.load world' = i.load world := by
    rw [Invocation.load, Invocation.load, hi.config]
    exact hw.config
  cases hl : i.load world with
  | error e =>
    left
    rw [perform_of_unloaded hl, perform_of_unloaded (hload.trans hl), hw.environment, hw.terminal]
  | ok config =>
    -- what is printed depends on the world only through the tree, the colors and the format
    have hcolors : i'.colors world' config = i.colors world config := by
      rw [Invocation.colors, Invocation.colors, hw.environment, hw.terminal, hi.noColor]
    have hformat : i'.formatUnder config = i.formatUnder config := by
      rw [Invocation.formatUnder, Invocation.formatUnder, hi.format]
    rw [perform_of_supplied hl h.supplied, perform_of_supplied (hload.trans hl) h'.supplied,
      hcolors, hformat]
    cases hread : Json.Value.ofText t with
    | error failure => exact .inr ⟨failure, i.colors world config, rfl, rfl, rfl⟩
    | ok v =>
      left
      cases hn : Node.ofRead (.ok v) with
      | ok n => simp only [Command.answer, hi.explains]
      | error e =>
        -- an error about the tree of a value is told without the reader
        simp only [(ofError_of_rejected hn _).1]

/-! ## §3 Outcomes that are alike -/

/-- Two outcomes for a text differ at most in the words of the readers about it. -/
inductive Outcome.AlikeFor (wording : Wording) (t : String) : Outcome → Outcome → Prop where
  | same (o : Outcome) : AlikeFor wording t o o
  /-- The text is no JSON, and either reader has its own words for that. -/
  | words {failure : Json.Failure} {w w' : String} (colors : Bool) :
      Json.Value.ofText t = .error failure →
      w ∈ Wording.about wording t → w' ∈ Wording.about wording t →
      AlikeFor wording t (.failed (.malformed failure w) colors)
        (.failed (.malformed failure w') colors)

/-- What is seen of two outcomes for a text that differ at most in the words of the readers. -/
structure SeenAlike (wording : Wording) (t : String) (o o' : Outcome) : Prop where
  exitCode : o'.exitCode = o.exitCode
  output : o'.output = o.output
  /-- The errors are the same, or they are the same but for the words behind the mark. -/
  error : o'.error? = o.error? ∨
    ∃ colors, ∃ w ∈ Wording.about wording t, ∃ w' ∈ Wording.about wording t,
      o.error? = some (errorMark colors ++ ("JSON error: " ++ w ++ ": " ++ w)) ∧
        o'.error? = some (errorMark colors ++ ("JSON error: " ++ w' ++ ": " ++ w'))
  /-- A text that is JSON is answered alike, or refused with the same error. -/
  value : ∀ {v}, Json.Value.ofText t = .ok v → o' = o
  /-- So is every text if the readers agree on what they say about it. -/
  agreed : wording.jsonOctets t.toUTF8 = wording.json t → o' = o

theorem Outcome.AlikeFor.seen {wording : Wording} {o o' : Outcome}
    (h : Outcome.AlikeFor wording t o o') : SeenAlike wording t o o' := by
  cases h with
  | same => exact ⟨rfl, rfl, .inl rfl, fun _ => rfl, fun _ => rfl⟩
  | @words failure w w' colors hread hw hw' =>
    refine ⟨rfl, rfl, .inr ⟨colors, w, hw, w', hw', ?_, ?_⟩, fun hv => ?_, fun hsame => ?_⟩
    · exact (fails_failed (.malformed failure w) colors).error
    · exact (fails_failed (.malformed failure w') colors).error
    -- the text is no JSON
    · rw [hread] at hv
      cases hv
    · -- both words are the one that the readers agree on
      rw [Wording.about, hsame] at hw hw'
      simp only [List.mem_cons, List.not_mem_nil, or_false, or_self] at hw hw'
      rw [hw, hw']

/-! ## §4 Command lines -/

variable {p : Parts} {s : Subcommand} {b : Options} {path : String}

/-- The invocation of accepted parts. -/
theorem ofWords_of_readBefore (environment : String → Option String)
    (h : readBefore {} none words = .ok p) :
    Invocation.ofWords environment words =
      if p.Accepts (environment configVariable) then
        .ok (p.invocation (environment configVariable))
      else .error .misused := by
  rw [Invocation.ofWords, h]
  rfl

/-- A subcommand with options reads the standard input unless they name a source. -/
def ReadsInput (p : Parts) : Prop :=
  ∃ s b, p.command = some (s, b) ∧ s ≠ .rules ∧ b.input = none

theorem ReadsInput.source (h : ReadsInput p) : p.toCommand.source? = some .standardInput := by
  obtain ⟨s, b, hc, hs, hinput⟩ := h
  cases s with
  | rules => exact absurd rfl hs
  | serialize => simp [Parts.toCommand, hc, Command.source?, Options.source, hinput]
  | explain => simp [Parts.toCommand, hc, Command.source?, Options.source, hinput]

/-- With a source of its own the command looks there, and stays what it is. -/
theorem ReadsInput.source_withInput (h : ReadsInput p) (path : String) :
    (p.withInput path).toCommand.source? = some (Source.ofPath path) ∧
      (p.withInput path).toCommand.Explains = p.toCommand.Explains := by
  obtain ⟨s, b, hc, hs, hinput⟩ := h
  cases s with
  | rules => exact absurd rfl hs
  | serialize => simp [Parts.withInput, Parts.toCommand, hc]; exact ⟨rfl, rfl⟩
  | explain => simp [Parts.withInput, Parts.toCommand, hc]; exact ⟨rfl, rfl⟩

/-- A source has no part in whether a line is accepted, nor in what else is asked for. -/
theorem Parts.withInput_accepts (given : Option String) :
    (p.withInput path).Accepts given = p.Accepts given := by
  rw [Parts.Accepts, Parts.Accepts, Parts.withInput]
  cases p.command <;> rfl

theorem Parts.withInput_invocation (given : Option String) :
    (p.withInput path).invocation given =
      { p.invocation given with command := (p.withInput path).toCommand } := by
  rw [Parts.invocation, Parts.invocation, Parts.withInput]
  cases p.command <;> rfl

/-- A path that is a single dash, or a single letter, has one name. -/
theorem splitOn_single : "-".splitOn "/" = ["-"] ∧ "t".splitOn "/" = ["t"] := by
  constructor
  -- neither of the two positions of such a path begins a slash
  all_goals
    rw [String.splitOn, if_neg (by decide), String.splitOnAux, if_neg (by decide),
      if_neg (by decide), String.splitOnAux, if_pos (by decide)]
    rfl

/-- A single dash stands for the standard input. -/
theorem ReadsInput.withDash (h : ReadsInput p) (given : Option String) :
    (p.withInput "-").invocation given = p.invocation given := by
  obtain ⟨s, b, hc, hs, hinput⟩ := h
  have hdash : Source.ofPath "-" = .standardInput := by
    rw [Source.ofPath, splitOn_single.1]
    rfl
  -- without a source of its own the command looks at the input too
  have hcommand : (p.withInput "-").toCommand = p.toCommand := by
    cases s with
    | rules => exact absurd rfl hs
    | serialize => simp [Parts.withInput, Parts.toCommand, hc, Options.source, hinput, hdash]
    | explain => simp [Parts.withInput, Parts.toCommand, hc, Options.source, hinput, hdash]
  rw [Parts.withInput_invocation, hcommand]
  rfl

/-! ## §5 The routes -/

/-- The configuration that a line asks for in a world. -/
def Parts.configIn (p : Parts) (world : World) : Option String :=
  (p.invocation (world.environment configVariable)).config

/-- Runs on lines that are accepted as like invocations end alike. -/
theorem run_alike (hi : Invocation.ofWords world.environment words = .ok i)
    (hi' : Invocation.ofWords world'.environment words' = .ok i')
    (hw : world.Alike world' i.config) (ha : i.Alike i') (h : HandsOver world t i.command)
    (h' : HandsOver world' t i'.command) :
    Outcome.AlikeFor world.wording t (run world words) (run world' words') := by
  rw [run_of_invocation hi, run_of_invocation hi']
  rcases perform_cases hw ha h h' with hsame | ⟨failure, colors, hread, ho, ho'⟩
  · rw [hsame]
    exact .same _
  · have hmem := h'.words_mem
    rw [hw.wording] at hmem
    rw [ho, ho']
    exact .words colors hread h.words_mem hmem

/-- If the text is read by the same reader, the runs are the same. -/
theorem run_eq_of_words (hi : Invocation.ofWords world.environment words = .ok i)
    (hi' : Invocation.ofWords world'.environment words' = .ok i')
    (hw : world.Alike world' i.config) (ha : i.Alike i') (h : HandsOver world t i.command)
    (h' : HandsOver world' t i'.command)
    (hwords : i'.command.words world' = i.command.words world) :
    run world' words' = run world words := by
  rw [run_of_invocation hi, run_of_invocation hi']
  rcases perform_cases hw ha h h' with hsame | ⟨failure, colors, -, ho, ho'⟩
  · exact hsame
  · rw [ho, ho', hwords]

/-- A single dash as a source makes no difference. -/
theorem run_withDash (h : Reads words p) (hr : ReadsInput p) :
    run world (words ++ ["--input", "-"]) = run world words := by
  obtain ⟨s, b, hc, hs, hinput⟩ := id hr
  have hread := h.withInput hc hs hinput "-" (by decide) (by decide)
  -- the lines are accepted alike, and ask for the same
  rw [run, run, ofWords_of_readBefore _ hread, ofWords_of_readBefore _ h.read,
    Parts.withInput_accepts, hr.withDash]

/-- A file that holds the text of the standard input makes no difference but in the words of its
reader. -/
theorem run_withFile (h : Reads words p) (hr : ReadsInput p) (hpath : path ≠ "")
    (hplain : Word.of path = .plain) (hfile : Source.ofPath path = .file path)
    (hw : world.Alike world' (p.configIn world)) (hinput : world.input = .ended t.toUTF8)
    (hentry : (world'.entry path).opened = .ok (.ended t.toUTF8)) :
    Outcome.AlikeFor world.wording t (run world words)
      (run world' (words ++ ["--input", path])) := by
  obtain ⟨s, b, hc, hs, hnone⟩ := id hr
  have hread := h.withInput hc hs hnone path hpath hplain
  have hof := ofWords_of_readBefore world.environment h.read
  have hof' := ofWords_of_readBefore world'.environment hread
  rw [hw.environment, Parts.withInput_accepts] at hof'
  cases hacc : p.Accepts (world.environment configVariable) with
  | false =>
    -- both lines are refused
    rw [hacc] at hof hof'
    rw [run, run, hof, hw.environment, hof']
    exact .same _
  | true =>
    rw [if_pos hacc] at hof hof'
    rw [← hw.environment] at hof'
    -- both commands do the same with their tree, which stands elsewhere
    obtain ⟨hsource, hexplains⟩ := hr.source_withInput path
    refine run_alike (t := t) hof hof' hw ?_ (.input hr.source hinput) ?_
    · rw [hw.environment, Parts.withInput_invocation]
      exact ⟨rfl, rfl, rfl, hexplains⟩
    · exact .file (hsource.trans (congrArg some hfile)) hentry

/-- The names that are no trees. -/
def reservedNames : List String :=
  ["serialize", "explain", "rules", "help"]

theorem ofName?_of_not_reserved (h : t ∉ reservedNames) :
    Subcommand.ofName? t = none ∧ t ≠ "help" := by
  simp only [reservedNames, List.mem_cons, List.not_mem_nil, not_or] at h
  obtain ⟨hserialize, hexplain, hrules, hhelp, -⟩ := h
  refine ⟨?_, hhelp⟩
  simp [Subcommand.ofName?, Subcommand.name, Ne.symm hserialize, Ne.symm hexplain, Ne.symm hrules]

/-- A tree on the command line is written as one on the standard input. -/
theorem run_inline {before behind : List String} {o o' : Options}
    (h : Reads before ⟨o, none, none⟩) (h' : Reads (before ++ behind) ⟨o', none, none⟩)
    (hdash : t.toList.head? ≠ some '-') (hname : t ∉ reservedNames)
    (hvariable : world.environment configVariable ≠ some "")
    (hw : world.Alike world' (Parts.configIn ⟨o', none, none⟩ world))
    (hinput : world.input = .ended t.toUTF8) :
    run world' (before ++ t :: behind) = run world (before ++ behind ++ ["serialize"]) := by
  obtain ⟨hsub, hhelp⟩ := ofName?_of_not_reserved hname
  have hof := ofWords_of_readBefore world.environment
    (h'.withSubcommand .serialize).read
  have hof' := ofWords_of_readBefore world'.environment
    (h.withTree h' hdash hsub hhelp)
  -- the variable is not empty, so no option has to win over it
  have hacc (p : Parts) : p.Accepts (world.environment configVariable) = true := by
    simp [Parts.Accepts, hvariable]
  rw [hw.environment, if_pos (hacc _)] at hof'
  rw [if_pos (hacc _)] at hof
  rw [← hw.environment] at hof'
  refine run_eq_of_words (t := t) hof hof' ?_ ?_ (.input rfl hinput) .inline ?_
  · -- without options of its own the subcommand asks for the same configuration
    have hconfig : (Parts.invocation ⟨o', none, some (.serialize, {})⟩
        (world.environment configVariable)).config = Parts.configIn ⟨o', none, none⟩ world := rfl
    rw [hconfig]
    exact hw
  · rw [hw.environment]
    exact ⟨rfl, rfl, by simp [Parts.invocation], rfl⟩
  · -- on either way the characters are read
    have hinline : Command.words world' (.inline t) = world'.wording.json t := rfl
    rw [words_of_input rfl hinput, ← hw.wording]
    exact hinline

/-- All the ways of a text lead to the same result, but for the words of its readers where it is no
JSON. -/
structure RoutesAgree (t : String) : Prop where
  /-- Octets and characters give the same tree, or the same error. -/
  library : Node.ofOctets t.toUTF8 = Node.ofJson t
  /-- On any lines that are accepted with the same options. -/
  runs : ∀ {world world' words words' i i'},
    Invocation.ofWords world.environment words = .ok i →
    Invocation.ofWords world'.environment words' = .ok i' →
    World.Alike world world' i.config → i.Alike i' →
    HandsOver world t i.command → HandsOver world' t i'.command →
    Outcome.AlikeFor world.wording t (run world words) (run world' words')
  /-- On two such lines that leave the text to the same reader. -/
  sameReader : ∀ {world world' words words' i i'},
    Invocation.ofWords world.environment words = .ok i →
    Invocation.ofWords world'.environment words' = .ok i' →
    World.Alike world world' i.config → i.Alike i' →
    HandsOver world t i.command → HandsOver world' t i'.command →
    i'.command.words world' = i.command.words world → run world' words' = run world words
  /-- A dash behind `--input`. -/
  dash : ∀ {world words p}, Reads words p → ReadsInput p →
    run world (words ++ ["--input", "-"]) = run world words
  /-- A path behind `--input`. -/
  file : ∀ {world world' words p path}, Reads words p → ReadsInput p →
    path ≠ "" → Word.of path = .plain → Source.ofPath path = .file path →
    World.Alike world world' (p.configIn world) →
    world.input = .ended t.toUTF8 → (world'.entry path).opened = .ok (.ended t.toUTF8) →
    Outcome.AlikeFor world.wording t (run world words)
      (run world' (words ++ ["--input", path]))
  /-- The text on the command line, in front of some options and behind others. -/
  inline : ∀ {world world' before behind o o'},
    Reads before ⟨o, none, none⟩ → Reads (before ++ behind) ⟨o', none, none⟩ →
    t.toList.head? ≠ some '-' → t ∉ reservedNames →
    world.environment configVariable ≠ some "" →
    World.Alike world world' (Parts.configIn ⟨o', none, none⟩ world) →
    world.input = .ended t.toUTF8 →
    run world' (before ++ t :: behind) = run world (before ++ behind ++ ["serialize"])
  /-- What is alike in this way is seen alike. -/
  seen : ∀ {wording o o'}, Outcome.AlikeFor wording t o o' → SeenAlike wording t o o'

/-- The routes agree for every text. -/
theorem routesAgree (t : String) : RoutesAgree t where
  library := by rw [Node.ofOctets, Json.Value.ofOctets_toUTF8, Node.ofJson]
  runs := run_alike
  sameReader := run_eq_of_words
  dash := run_withDash
  file := run_withFile
  inline := run_inline
  seen := Outcome.AlikeFor.seen

/-- A word in quotes is written as JSON on either way. -/
theorem routesAgree_of_word :
    run World.bare ["-f", "json", "\"a\"", "--no-color"] =
      run { World.bare with input := .ended "\"a\"".toUTF8 }
        ["-f", "json", "--no-color", "serialize"] := by
  have hbefore : Reads ["-f", "json"] ⟨{ format := some .json }, none, none⟩ :=
    ⟨rfl, by decide⟩
  have hall : Reads (["-f", "json"] ++ ["--no-color"])
      ⟨{ format := some .json, noColor := true }, none, none⟩ :=
    ⟨rfl, by decide⟩
  exact (routesAgree "\"a\"").inline hbefore hall (by decide) (by decide) (by decide)
    ⟨rfl, rfl, rfl, rfl⟩ rfl

/-! ## §6 Where routes differ -/

/-- A world with an empty configuration file and an empty path in the environment. -/
def World.withEmptyVariable (input : ByteArray) : World where
  entry path := if path = "c.toml" then .file .empty else .absent .missing
  environment name := if name = configVariable then some "" else none
  account := none
  input := .ended input
  terminal := false
  wording := World.bare.wording
  help := World.bare.help

/-- A world with a number beyond the format on the standard input and in a file.  The reader of
characters tells the column where the number ends, and the reader of octets the one behind it, which
it has looked at as well. -/
def World.withLargeNumber : World where
  entry path := if path = "t" then .file "[1e400]".toUTF8 else .absent .missing
  environment _ := none
  account := none
  input := .ended "[1e400]".toUTF8
  terminal := false
  wording :=
    { json := fun _ => "number out of range at line 1 column 6"
      jsonOctets := fun _ => "number out of range at line 1 column 7"
      toml := fun _ => "" }
  help := World.bare.help

/-- Although an option gives the configuration, the empty path in the environment is refused with a
subcommand, and only with one.  And the error about a text that is no JSON may tell another column
if the text stands in a file. -/
theorem routes_differ :
    ("\"a\"".toList.head? ≠ some '-' ∧ "\"a\"" ∉ reservedNames ∧
      run (.withEmptyVariable "\"a\"".toUTF8) ["--config", "c.toml", "\"a\""] = .printed "a\n" ∧
      run (.withEmptyVariable "\"a\"".toUTF8) ["--config", "c.toml", "serialize"] = .misused) ∧
    (run .withLargeNumber ["serialize"]).error? =
      some ("Error: JSON error: number out of range at line 1 column 6: " ++
        "number out of range at line 1 column 6") ∧
    (run .withLargeNumber ["serialize", "--input", "t"]).error? =
      some ("Error: JSON error: number out of range at line 1 column 7: " ++
        "number out of range at line 1 column 7") := by
  have hpath : Source.ofPath "t" = .file "t" := by
    rw [Source.ofPath, splitOn_single.2]
    rfl
  have hi : Invocation.ofWords World.withLargeNumber.environment ["serialize", "--input", "t"] =
      .ok ⟨.serialize (Source.ofPath "t"), none, none, false, false⟩ := by
    rfl
  -- the number is beyond the format, and either reader refuses it
  have hrun : Json.Automaton.run .standard Json.Automaton.start (Json.symbols "[1e400]") = none :=
    Option.isNone_iff_eq_none.mp (by decide +kernel)
  have hread : Json.Value.ofText "[1e400]" = .error .refused := by
    rw [Json.Value.ofText, Json.Value.ofSymbols, Json.readSymbols, hrun]
    rfl
  have hs : Supplied .withLargeNumber (.serialize (.file "t")) (.error .refused) := by
    rw [← hread, ← Json.Value.ofOctets_toUTF8]
    exact .file rfl rfl
  refine ⟨⟨by decide, by decide, ?_, ?_⟩, ?_, ?_⟩
  · rfl
  · rfl
  · decide +kernel
  · rw [run_of_invocation hi, hpath]
    have hl : Invocation.load .withLargeNumber ⟨.serialize (.file "t"), none, none, false, false⟩ =
        .ok .default := by
      rfl
    exact (fails_of_refused hl hs rfl).error

end CanonicalQuery.CommandLine
