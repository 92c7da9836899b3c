import CanonicalQuery.Proofs.CommandLine.Ending
import CanonicalQuery.Proofs.CommandLine.Settings
import CanonicalQuery.Proofs.Config.Choice

/-!
# Configured runs

A run takes its configuration from one file.  The file is named by an option, or else by a variable
of the environment, or else it is searched for; if it is broken, the run fails and says so.  So two
worlds that agree on this file, on the candidates before it and on the tree have the same run,
whatever else they hold.

The format of the output is the one that an option asks for, and else the one of the configuration.

## Main definitions

- `Parts.said?`: what the options of a line say, the last side first.
- `World.AgreeOn`: two worlds do not differ in what a run looks at.
- `Configured`: how a run is set up.
- `OneFileDecides`: loading and running depend on one file.

## Main statements

- `World.AgreeOn.run_eq`: worlds that agree have the same run.
- `oneFileDecides`: this holds of every file system, environment and command line.
-/

namespace CanonicalQuery.CommandLine

open CanonicalQuery.Terminal
open CanonicalQuery.Config (Uses Broken IoOrConfig AgreeUpTo)

variable {world world' : World} {words : List String} {i : Invocation} {config : Config}
variable {used : Option String}

/-! ## §1 What the options say -/

/-- What the options of a line say; behind a subcommand they win over those before it. -/
def Parts.said? {α : Type} (p : Parts) (option : Options → Option α) : Option α :=
  (p.command.bind fun (_, behind) => option behind) <|> option p.before

/-- What a line asks for, told by what its options say. -/
theorem said_of_ofWords {environment : String → Option String}
    (h : Invocation.ofWords environment words = .ok i) :
    ∃ p, readBefore {} none words = .ok p ∧
      i.config = (p.said? Options.config <|> environment configVariable) ∧
      i.format = p.said? Options.format := by
  rw [Invocation.ofWords] at h
  obtain ⟨p, hp, h⟩ := bind_eq_ok.mp h
  dsimp only at h
  split at h
  · obtain rfl := pure_eq_ok.mp h
    refine ⟨p, hp, ?_, ?_⟩
    -- with a subcommand its options stand in front of the ones before it, without one they are
    -- absent
    · obtain ⟨before, tree, _ | ⟨s, b⟩⟩ := p
      · simp [Parts.said?, Parts.invocation]
      · simp [Parts.said?, Parts.invocation, Option.or_assoc]
    · obtain ⟨before, tree, _ | ⟨s, b⟩⟩ := p
      · simp [Parts.said?, Parts.invocation]
      · simp [Parts.said?, Parts.invocation]
  · cases h

/-! ## §2 Worlds that agree -/

/-- Two worlds agree on the file that configures a run, on the wish for color, and on its tree; and
their readers have the same words. -/
structure World.AgreeOn (world world' : World) (i : Invocation) (used : Option String) : Prop where
  explicit : world'.environment configVariable = world.environment configVariable
  wanted : colorsWanted world'.environment world'.terminal =
    colorsWanted world.environment world.terminal
  wording : world'.wording = world.wording
  config : AgreeUpTo world.entry world'.entry world.directory? world'.directory? i.config used
  file : ∀ path, i.command.source? = some (.file path) →
    (world'.entry path).opened = (world.entry path).opened
  input : i.command.source? = some .standardInput → world'.input = world.input

/-- What is printed depends on what the worlds agree on. -/
theorem World.AgreeOn.printedText_eq (h : world.AgreeOn world' i used) (colors : Bool)
    (format : OutputFormat) :
    printedText world' colors format i.command = printedText world colors format i.command := by
  have htree {source : Source} (hs : i.command.source? = some source) :
      treeOf world' source = treeOf world source := by
    cases source with
    | standardInput => simp only [treeOf, treeOfText, h.input hs, h.wording]
    | file path => simp only [treeOf, treeOfStream, h.file path hs, h.wording]
  -- a hint, the rules and a tree on the line have no source
  cases hc : i.command with
  | hint => rfl
  | rules => rfl
  | inline tree => simp only [printedText, treeOfText, h.wording]
  | serialize source => rw [printedText, printedText, htree (by rw [hc]; rfl)]
  | explain source => rw [printedText, printedText, htree (by rw [hc]; rfl)]

/-- Worlds that agree have the same run. -/
theorem World.AgreeOn.run_eq (h : world.AgreeOn world' i used)
    (hi : Invocation.ofWords world.environment words = .ok i)
    (hused : Uses world.entry world.directory? i.config used) :
    run world' words = run world words := by
  have hi' : Invocation.ofWords world'.environment words = .ok i := by
    rw [← hi, Invocation.ofWords, Invocation.ofWords, h.explicit]
  have hload : i.load world' = i.load world := by
    rw [Invocation.load, Invocation.load, h.wording]
    exact h.config.load_eq hused
  rw [run_of_invocation hi, run_of_invocation hi']
  -- where nothing is loaded the color of the error depends on what is wanted only
  cases hl : i.load world with
  | error e => rw [perform_of_unloaded hl, perform_of_unloaded (hload.trans hl), h.wanted]
  | ok config =>
    have hcolors : i.colors world' config = i.colors world config := by
      rw [Invocation.colors, Invocation.colors, h.wanted]
    rw [perform_of_loaded hl, perform_of_loaded (hload.trans hl), hcolors, h.printedText_eq]

/-! ## §3 How a run is set up -/

/-- How a run is set up by its options, the environment and one file. -/
structure Configured (world : World) (words : List String) (i : Invocation) : Prop where
  /-- Options win over the variable that names a configuration. -/
  said : ∃ p, readBefore {} none words = .ok p ∧
    i.config = (p.said? Options.config <|> world.environment configVariable) ∧
    i.format = p.said? Options.format
  /-- An option that is added at the end sets what it says, whatever was said before. -/
  added : ∀ {p} {setting : Setting}, Reads words p → setting.Fits p.last →
    run world (words ++ [setting.word]) = perform world (setting.apply i)
  /-- A broken file ends the run. -/
  broken : ∀ {path}, Uses world.entry world.directory? i.config (some path) →
    Broken world.wording.toml (world.entry path) →
    ∃ e, IoOrConfig e ∧ Fails (run world words)
      (colorsWanted world.environment world.terminal) ("failed to load config: " ++ e.chain)
  /-- No other file has a part in the run. -/
  agrees : ∀ {world' used}, Uses world.entry world.directory? i.config used →
    world.AgreeOn world' i used → run world' words = run world words
  /-- The format that an option asks for, whatever the configuration says. -/
  asked : ∀ {config v n f}, i.load world = .ok config → Supplied world i.command (.ok v) →
    Node.ofRead (.ok v) = .ok n → i.format = some f →
    run world words = .printed (i.command.answer (i.colors world config) f n)
  /-- The format of the configuration where no option asks for one. -/
  left : ∀ {config v n}, i.load world = .ok config → Supplied world i.command (.ok v) →
    Node.ofRead (.ok v) = .ok n → i.format = none →
    run world words = .printed (i.command.answer (i.colors world config) config.output.format n)

/-- A run with an accepted tree answers in the format that holds. -/
theorem run_of_accepted {v : Json.Value} {n : Node}
    (hi : Invocation.ofWords world.environment words = .ok i) (hl : i.load world = .ok config)
    (hs : Supplied world i.command (.ok v)) (hn : Node.ofRead (.ok v) = .ok n) :
    run world words =
      .printed (i.command.answer (i.colors world config) (i.formatUnder config) n) := by
  rw [run_of_invocation hi, perform_of_supplied hl hs, hn]

theorem configured (hi : Invocation.ofWords world.environment words = .ok i) :
    Configured world words i where
  said := said_of_ofWords hi
  added hread hfit := run_of_invocation (ofWords_append_setting hread hfit hi)
  broken hused hbroken := by
    obtain ⟨e, he, hload⟩ := (Config.broken_iff hused).mp hbroken
    rw [run_of_invocation hi]
    exact ⟨e, he, fails_of_unloaded hload⟩
  agrees hused hagree := hagree.run_eq hi hused
  asked hl hs hn hf := by
    rw [run_of_accepted hi hl hs hn, Invocation.formatUnder, hf]
    rfl
  left hl hs hn hf := by
    rw [run_of_accepted hi hl hs hn, Invocation.formatUnder, hf]
    rfl

/-- What is configured is decided by one file, whatever is said about texts that are refused. -/
structure OneFileDecides : Prop where
  load : ∀ words entry directory explicit, Config.Decides words entry directory explicit
  run : ∀ {world words i}, Invocation.ofWords world.environment words = .ok i →
    Configured world words i

/-- **One file decides**, in every file system, environment and command line. -/
theorem oneFileDecides : OneFileDecides where
  load := Config.decides
  run := configured

/-- A world whose working directory has a directory in the place of a configuration, and whose user
has a configuration, a regular file, that may not be read.  The user has no home but the one of the
account. -/
def World.withClosedConfig : World where
  entry path :=
    if path = "lucene-query.toml" then .directory
    else if path = "/home/ada/.config/lucene-query/config.toml" then ⟨true, .error .denied⟩
    else .absent .missing
  environment _ := none
  account := some "/home/ada"
  input := .ended .empty
  terminal := false
  wording := World.bare.wording
  help := World.bare.help

/-- The directory is passed over, and the closed file is not: neither do the defaults hold in its
place, nor does the run go on. -/
theorem oneFileDecides_of_closed_config :
    Config.load World.withClosedConfig.wording.toml World.withClosedConfig.entry
        World.withClosedConfig.directory? none = .error (.io .denied) ∧
      ∃ e, IoOrConfig e ∧ Fails (run World.withClosedConfig ["rules"]) false
        ("failed to load config: " ++ e.chain) := by
  have hcandidates : Config.candidates World.withClosedConfig.directory? =
      ["lucene-query.toml"] ++ "/home/ada/.config/lucene-query/config.toml" :: [] := by
    rfl
  -- the directory is the only candidate before the closed file
  have hused : Uses World.withClosedConfig.entry World.withClosedConfig.directory? none
      (some "/home/ada/.config/lucene-query/config.toml") := by
    refine .candidate hcandidates (fun p hp => ?_) rfl
    obtain rfl := List.mem_singleton.mp hp
    rfl
  have hi : Invocation.ofWords World.withClosedConfig.environment ["rules"] =
      .ok ⟨.rules, none, none, false, false⟩ := by
    rfl
  exact ⟨((oneFileDecides.load _ _ _ none).gives hused _).mpr (.closed rfl),
    (oneFileDecides.run hi).broken hused (.closed rfl)⟩

end CanonicalQuery.CommandLine
