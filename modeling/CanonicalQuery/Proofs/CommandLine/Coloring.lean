import CanonicalQuery.Proofs.CommandLine.Ending
import CanonicalQuery.Proofs.CommandLine.JsonOutput
import CanonicalQuery.Proofs.CommandLine.Settings
import CanonicalQuery.Proofs.Config.Choice
import CanonicalQuery.Proofs.Tree.Strings

/-!
# Color in runs

Color adds escape sequences to what a run prints, and nothing else.  Without its sequences the
output of a run is, character for character, that of the same run with the option against color.
Queries, and everything that is shown as JSON, are never colored.

With the option against color a run shows no escape that does not stand in the tree or in a path it
was given, provided that its configuration loads.  If it does not load, the option has not been
looked at yet, and the mark in front of the error is colored if the environment asks for it.  Behind
the mark stand words of the system, or of the reader of TOML, which may quote what it has read.

The help is written by the parser of command lines, which does not look at the option either: it is
the same with the option and without.

## Main definitions

- `Given`: the texts that a run is given.
- `World.Plainspoken`: the system and the readers of JSON put no escapes into their words.
- `Uncolored`: what a run shows with the option against color.
- `ColorsOnly`: what color adds to a run.

## Main statements

- `run_without_color`: where escapes come from if the line says the option.
- `run_marks_error_in_color`: a run that says the option and shows a colored mark.
- `run_colors_only`: color changes nothing but escape sequences.
-/

namespace CanonicalQuery.CommandLine

open CanonicalQuery.Terminal

variable {world : World} {words : List String} {i : Invocation} {config : Config}
variable {c : Command} {colors : Bool} {format : OutputFormat} {n : Node} {given : String → Prop}

/-! ## §1 Texts that are printed -/

theorem Printable.escapeless {text : String} (h : Json.Printable text) : Escapeless text :=
  -- an escape is below the blank
  fun hescape => absurd (h _ hescape) (by decide)

/-- What is shown as JSON holds no escape. -/
theorem escapeless_json {v : Json.Value} (h : v.Numberless) : Escapeless (v.text ++ "\n") :=
  escapeless_append.mpr ⟨Printable.escapeless (Json.Value.printable_text v h), by decide⟩

theorem woven_queryText (format : OutputFormat) (h : WovenTexts given n.texts) :
    Woven given (queryText format n) := by
  cases format with
  | plain =>
    have hend : Escapeless "\n" := by decide
    exact (n.woven_query h).append hend.woven
  | json => exact (escapeless_json (numberless_queryValue n)).woven

theorem woven_explanationText (format : OutputFormat) (h : WovenTexts given n.texts) :
    Woven given (explanationText false format n) := by
  cases format with
  | plain => exact woven_writeLines (woven_explanation n h)
  | json => exact (escapeless_json (numberless_explanationValue n)).woven

/-- What is printed about a tree without color is woven from its texts. -/
theorem woven_answer (c : Command) (format : OutputFormat) (h : WovenTexts given n.texts) :
    Woven given (c.answer false format n) := by
  rw [Command.answer]
  -- an explanation, or the query alone
  split
  · exact woven_explanationText format h
  · exact woven_queryText format h

theorem Command.Treeless.woven_printedText {text : String} (h : c.Treeless)
    (ht : CommandLine.printedText world false format c = .ok text) : Woven given text := by
  obtain rfl | rfl := h
  · obtain rfl := Except.ok.inj ht
    exact woven_writeLines fun line hline p hp => (escapeless_hint line hline p hp).woven
  · obtain rfl := Except.ok.inj ht
    exact woven_writeLines fun line hline p hp => (escapeless_rules line hline p hp).woven

/-! ## §2 Texts that a run is given -/

/-- The texts that a run is given: its paths and the strings of its tree. -/
inductive Given (world : World) (i : Invocation) : String → Prop where
  | config {path : String} : i.config = some path → Given world i path
  | source {path : String} : i.command.source? = some (.file path) → Given world i path
  | tree {v : Json.Value} {s : String} : Supplied world i.command (.ok v) → s ∈ v.strings →
      Given world i s

/-- What the system says about files and input that cannot be read holds no escape, and neither does
what the readers of JSON say about texts that they refuse. -/
structure World.Plainspoken (world : World) : Prop where
  closed : ∀ {path cause}, (world.entry path).opened = .error cause → Escapeless cause.message
  broken : ∀ {path octets cause}, (world.entry path).opened = .ok ⟨octets, some cause⟩ →
    Escapeless cause.message
  input : ∀ {octets cause}, world.input = ⟨octets, some cause⟩ → Escapeless cause.message
  json : ∀ text, Escapeless (world.wording.json text)
  jsonOctets : ∀ octets, Escapeless (world.wording.jsonOctets octets)

/-- What is said about a command's tree that is no JSON holds no escape, wherever the tree
stands. -/
theorem escapeless_words (hw : world.Plainspoken) (c : Command) :
    Escapeless (c.words world) := by
  -- on the standard input characters are refused, and in a file octets
  have ofSource (source : Source) : Escapeless (source.words world) := by
    cases source with
    | standardInput =>
      rw [Source.words]
      split
      · exact hw.json _
      · exact escapeless_empty
    | file path =>
      rw [Source.words]
      split
      · exact hw.jsonOctets _
      · exact escapeless_empty
  cases c with
  | inline tree => exact hw.json tree
  | serialize source => exact ofSource source
  | explain source => exact ofSource source
  | hint | rules => exact escapeless_empty

/-- The wording of a failure and what lies behind it, which is the same text once more. -/
theorem escapeless_chain {front message : String} (hfront : Escapeless front)
    (h : Escapeless message) : Escapeless (front ++ message ++ ": " ++ message) := by
  have hcolon : Escapeless ": " := by decide
  exact escapeless_append.mpr
    ⟨escapeless_append.mpr ⟨escapeless_append.mpr ⟨hfront, h⟩, hcolon⟩, h⟩

/-- An error of the system is told in its words alone. -/
theorem escapeless_io {cause : Files.Failure} (h : Escapeless cause.message) :
    Escapeless (Error.io cause).chain :=
  escapeless_chain (by decide) h

/-- The objects of a value that is read have their members in order. -/
theorem Supplied.sorted {v : Json.Value} (h : Supplied world c (.ok v)) : v.Sorted := by
  -- what a text is read as has been sorted
  have hform {f : Json.Form} (hf : f.toValue = .ok v) : v.Sorted := by
    rw [Json.Form.toValue] at hf
    split at hf
    · obtain rfl := Except.ok.inj hf
      exact Json.Value.sorted_sorted _
    · cases hf
  have hsymbols {symbols : List (Option Char)}
      (hv : Json.Value.ofSymbols .standard symbols = .ok v) : v.Sorted := by
    obtain ⟨f, -, hf⟩ := bind_eq_ok.mp hv
    exact hform hf
  generalize hr : (Except.ok v : Except Json.Failure Json.Value) = r at h
  cases h with
  | inline tree => exact hsymbols hr.symm
  | input => exact hsymbols hr.symm
  | file => exact hsymbols hr.symm
  | refusedBefore => cases hr

theorem woven_tree {v : Json.Value} (hs : Supplied world i.command (.ok v)) :
    ∀ s ∈ v.strings, Woven (Given world i) s :=
  fun _ h => woven_of_given (.tree hs h)

/-- The texts of a tree that is read are woven from the strings of its value. -/
theorem wovenTexts_of_ofRead {v : Json.Value} (hv : ∀ s ∈ v.strings, Woven given s)
    (hn : Node.ofRead (.ok v) = .ok n) : WovenTexts given n.texts := by
  have hdenotes : Tree.Denotes v n := Tree.ofTree_eq_ok_iff.mp (mapError_eq_ok.mp hn)
  exact hdenotes.wovenTexts hv

/-- What is said about a refused tree is woven from its strings. -/
theorem woven_refused {v : Json.Value} {e : Error} (hsorted : v.Sorted)
    (hv : ∀ s ∈ v.strings, Woven given s) (he : Node.ofRead (.ok v) = .error e) :
    Woven given e.message := by
  -- what is said about a tree is said about one of its defects
  obtain ⟨d, hd, rfl⟩ := mapError_eq_error.mp he
  exact (Tree.defective_of_ofTree hsorted hd).woven_message hv

/-- What is said where no tree can be read is woven from the path of its file. -/
theorem woven_unsupplied (hw : world.Plainspoken) {text : String}
    (h : Unsupplied world i.command text) : Woven (Given world i) text := by
  cases h with
  | input hs hi => exact (hw.input hi).woven
  | notText => exact (escapeless_ofList (by decide)).woven
  | broken hs he hr => exact (escapeless_chain (by decide) (hw.broken he)).woven
  | @closed path cause hs he =>
    -- the path of the file stands before the words of the system
    have hpath : Woven (Given world i) path := woven_of_given (.source hs)
    have hcause : Woven (Given world i) cause.message := (hw.closed he).woven
    exact (hpath.behind (by decide)).beside hcause (by decide)

/-- What is said about a configuration that does not load holds no escape, unless it is the reader
of TOML that says it. -/
theorem unloaded_cases (hw : world.Plainspoken) {e : Error} (h : i.load world = .error e) :
    Escapeless e.chain ∨ ∃ text, e = .config (world.wording.toml text) := by
  generalize hr : (Except.error e : Except Error Config) = r at h
  -- by what has become of the file that the run uses
  have hused : Config.Uses world.entry world.directory? i.config
      (Config.choose? world.entry world.directory? i.config) := Config.uses_iff.mpr rfl
  have hgives := (Config.load_eq_iff hused).mp h
  generalize Config.choose? world.entry world.directory? i.config = used at hgives
  cases hgives with
  | defaults => cases hr
  | closed hopened =>
    cases hr
    exact .inl (escapeless_io (hw.closed hopened))
  | unread hopened =>
    cases hr
    exact .inl (escapeless_io (hw.broken hopened))
  | notText =>
    cases hr
    exact .inl (escapeless_io (escapeless_ofList (by decide)))
  -- it is text, and the reader of TOML refuses it
  | text => exact .inr ⟨_, Config.ofToml_eq_error hr.symm⟩

/-! ## §3 Runs that say the option against color -/

/-- What a run shows if its line says the option against color. -/
structure Uncolored (world : World) (i : Invocation) (o : Outcome) : Prop where
  /-- Every escape in the output comes from what the run is given. -/
  output : Woven (Given world i) o.output
  /-- So does every escape in the error, once the configuration holds. -/
  error : ∀ {config line}, i.load world = .ok config → o.error? = some line →
    Woven (Given world i) line
  /-- If the configuration does not load, nothing is printed but the error, and its mark is colored
  as the environment asks for it. -/
  unloaded : ∀ {e}, i.load world = .error e → o.output = "" ∧
    o.error? = some (errorMark (colorsWanted world.environment world.terminal) ++
      ("failed to load config: " ++ e.chain))
  /-- Behind the mark no escapes stand, unless it is the reader of TOML that refuses the text of the
  configuration. -/
  behindMark : ∀ {e}, i.load world = .error e →
    Escapeless ("failed to load config: " ++ e.chain) ∨
      ∃ text, e = .config (world.wording.toml text)

/-- A run that fails without color with a woven text shows a woven line. -/
theorem Fails.woven {o : Outcome} {text : String} (h : Fails o false text) (ht : Woven given text) :
    Woven given o.output ∧ ∀ line, o.error? = some line → Woven given line := by
  have hmark : Escapeless (errorMark false) := by decide
  refine ⟨h.output ▸ woven_empty, fun line hline => ?_⟩
  obtain rfl : errorMark false ++ text = line := Option.some.inj (h.error.symm.trans hline)
  exact ht.behind hmark

theorem woven_printed {text : String} (ht : Woven given text) :
    Woven given (Outcome.printed text).output ∧
      ∀ line, (Outcome.printed text).error? = some line → Woven given line :=
  ⟨ht, fun line hline => by cases hline⟩

/-- Once the configuration holds, nothing that a run shows without color holds an escape of its
own. -/
theorem woven_perform (hw : world.Plainspoken) (hno : i.noColor = true)
    (hl : i.load world = .ok config) :
    Woven (Given world i) (perform world i).output ∧
      ∀ line, (perform world i).error? = some line → Woven (Given world i) line := by
  -- with the option no color is wanted
  have hcolors : i.colors world config = false := by simp [Invocation.colors, hno]
  -- no tree is needed, or there is something to read, or there is nothing
  rcases i.command.supply_cases world with ht | ⟨read, hs⟩ | ⟨text, hu⟩
  · obtain ⟨text, htext⟩ := ht.printedText world false (i.formatUnder config)
    rw [perform_of_loaded hl, hcolors, htext]
    exact woven_printed (ht.woven_printedText htext)
  · cases read with
    | error failure =>
      -- the tree is no JSON, and the reader says so
      have hfails := fails_of_refused hl hs rfl
      rw [hcolors] at hfails
      have hfront : Escapeless "JSON error: " := by decide
      exact hfails.woven (escapeless_chain hfront (escapeless_words hw i.command)).woven
    | ok v =>
      cases hn : Node.ofRead (.ok v) with
      | ok n =>
        rw [perform_of_supplied hl hs, hn, hcolors]
        exact woven_printed (woven_answer _ _ (wovenTexts_of_ofRead (woven_tree hs) hn))
      | error e =>
        -- the tree is JSON, and it is refused
        have hfails := fails_of_rejected hl hs hn
        rw [hcolors] at hfails
        exact hfails.woven (woven_refused hs.sorted (woven_tree hs) hn)
  · have hfails := fails_of_unsupplied hl hu
    rw [hcolors] at hfails
    exact hfails.woven (woven_unsupplied hw hu)

/-- **With the option against color, escapes come from what is given.**  The mark in front of an
error about the configuration is the one exception. -/
theorem run_without_color (hw : world.Plainspoken) (hsaid : SaysNoColor words)
    (hi : Invocation.ofWords world.environment words = .ok i) :
    Uncolored world i (run world words) := by
  have hno : i.noColor = true := (ofWords_noColor_iff hi).mpr hsaid
  rw [run_of_invocation hi]
  -- the option is looked at when the configuration has been loaded
  cases hl : i.load world with
  | error e =>
    -- the run ends here, in the color that the environment asks for
    have hfails := fails_of_unloaded hl
    have hfront : Escapeless "failed to load config: " := escapeless_ofList (by decide)
    exact
      { output := hfails.output ▸ woven_empty
        error := fun hl' => by cases hl.symm.trans hl'
        unloaded := fun hl' => by
          obtain rfl := Except.error.inj (hl.symm.trans hl')
          exact ⟨hfails.output, hfails.error⟩
        behindMark := fun hl' => by
          rcases unloaded_cases hw hl' with hchain | htoml
          · exact .inl (escapeless_append.mpr ⟨hfront, hchain⟩)
          · exact .inr htoml }
  | ok config =>
    obtain ⟨houtput, herror⟩ := woven_perform hw hno hl
    exact
      { output := houtput
        error := fun _ => herror _
        unloaded := fun hl' => by cases hl.symm.trans hl'
        behindMark := fun hl' => by cases hl.symm.trans hl' }

/-- A world without files whose environment forces color. -/
def World.forced : World :=
  { World.bare with environment := fun name => if name = "CLICOLOR_FORCE" then some "1" else none }

theorem plainspoken_forced : World.forced.Plainspoken where
  closed h := by
    obtain rfl := Except.error.inj h
    exact escapeless_ofList (by decide)
  broken h := by cases h
  input h := by cases h
  json _ := escapeless_empty
  jsonOctets _ := escapeless_empty

/-- An escape in the tree is shown as it is, and no other. -/
theorem run_without_color_of_escape :
    Uncolored World.forced ⟨.inline "\"a\\u001bb\"", none, none, true, false⟩
      (run World.forced ["--no-color", "\"a\\u001bb\""]) :=
  run_without_color plainspoken_forced (by simp [SaysNoColor]) rfl

/-- The configuration is loaded before the option is looked at, so the mark of its error is
colored. -/
theorem run_marks_error_in_color :
    SaysNoColor ["--no-color", "-c", "absent.toml", "rules"] ∧ World.forced.Plainspoken ∧
      ∃ i line,
        Invocation.ofWords World.forced.environment
          ["--no-color", "-c", "absent.toml", "rules"] = .ok i ∧
        (run World.forced ["--no-color", "-c", "absent.toml", "rules"]).error? = some line ∧
        ¬Woven (Given World.forced i) line := by
  let i : Invocation := ⟨.rules, none, some "absent.toml", true, false⟩
  have hi : Invocation.ofWords World.forced.environment
      ["--no-color", "-c", "absent.toml", "rules"] = .ok i := rfl
  have hl : i.load World.forced = .error (.io .missing) := rfl
  -- the only text that is given is the path
  have hgiven : ∀ s, Given World.forced i s → Escapeless s := by
    intro s hs
    cases hs with
    | config h =>
      obtain rfl := Option.some.inj h
      decide
    | source h => cases h
    | tree h => exact absurd (.inr rfl) h.not_treeless
  have herror : (run World.forced ["--no-color", "-c", "absent.toml", "rules"]).error? =
      some (errorMark true ++ ("failed to load config: " ++ (Error.io .missing).chain)) := by
    rw [run_of_invocation hi]
    exact (fails_of_unloaded hl).error
  -- were the line woven from the path, its mark would hold no escape
  refine ⟨by simp [SaysNoColor], plainspoken_forced, i, _, hi, herror, fun hwoven => ?_⟩
  have hmark : ¬Escapeless (errorMark true) := by decide
  exact hmark (escapeless_append.mp (hwoven.escapeless hgiven)).1

/-! ## §4 What color adds -/

/-- The tree of a run, if it has one, holds no escapes. -/
def TreeEscapeless (world : World) (words : List String) : Prop :=
  ∀ {i v}, Invocation.ofWords world.environment words = .ok i →
    Supplied world i.command (.ok v) → ∀ s ∈ v.strings, Escapeless s

/-- The help that a line asks for, if it does, is written without escapes. -/
def HelpEscapeless (world : World) (words : List String) : Prop :=
  ∀ {topic}, Invocation.ofWords world.environment words = .error (.help topic) →
    Escapeless (world.help topic)

/-- What a command prints is never colored: queries, and what is shown as JSON. -/
def Command.NeverColored (c : Command) (format : OutputFormat) : Prop :=
  match c with
  | .inline _ | .serialize _ => True
  | .explain _ => format = .json
  | .hint | .rules => False

/-- What color adds to a run. -/
structure ColorsOnly (world : World) (words : List String) : Prop where
  /-- The option in front of a line that does not say it. -/
  added : ¬SaysNoColor words → HelpEscapeless world words →
    (run world ("--no-color" :: words)).exitCode = 0 ∧
      stripped (run world words).output = (run world ("--no-color" :: words)).output
  /-- A line without an invocation asks for the version or for help, and the option has no say in
  what is then shown. -/
  shown : ∀ {stop}, ¬SaysNoColor words →
    Invocation.ofWords world.environment words = .error stop →
    run world ("--no-color" :: words) = run world words
  /-- Any line that asks for the same without color, the line itself included. -/
  alike : ∀ {words' i}, Invocation.ofWords world.environment words = .ok i →
    Invocation.ofWords world.environment words' = .ok (Setting.noColor.apply i) →
    (run world words').exitCode = 0 ∧
      stripped (run world words).output = (run world words').output
  /-- Queries and JSON are the same with and without color. -/
  same : ∀ {words' i config}, Invocation.ofWords world.environment words = .ok i →
    Invocation.ofWords world.environment words' = .ok (Setting.noColor.apply i) →
    i.load world = .ok config → i.command.NeverColored (i.formatUnder config) →
    run world words' = run world words

theorem escapeless_texts {v : Json.Value} (hv : ∀ s ∈ v.strings, Escapeless s)
    (hn : Node.ofRead (.ok v) = .ok n) : WovenTexts (fun _ => False) n.texts :=
  wovenTexts_of_ofRead (fun s hs => (hv s hs).woven) hn

theorem escapeless_of_woven {text : String} (h : Woven (fun _ => False) text) :
    Escapeless text :=
  h.escapeless fun _ => False.elim

/-- What is printed about a tree, without its sequences. -/
theorem stripped_answer (c : Command) (colors : Bool) (format : OutputFormat)
    (h : WovenTexts (fun _ => False) n.texts) :
    stripped (c.answer colors format n) = c.answer false format n := by
  rw [Command.answer, Command.answer]
  split
  -- an explanation is colored if it is plain; a query never is
  · cases format with
    | plain =>
      exact stripped_writeLines colors fun line hline p hp =>
        escapeless_of_woven (woven_explanation n h line hline p hp)
    | json => exact stripped_of_escapeless (escapeless_json (numberless_explanationValue n))
  · exact stripped_of_escapeless (escapeless_of_woven (woven_queryText format h))

/-- What an invocation prints, without its sequences. -/
theorem stripped_printedText {text : String}
    (htree : ∀ {v}, Supplied world c (.ok v) → ∀ s ∈ v.strings, Escapeless s)
    (h : printedText world colors format c = .ok text) :
    printedText world false format c = .ok (stripped text) := by
  -- no tree is needed, or there is something to read, or there is nothing
  rcases c.supply_cases world with ht | ⟨read, hs⟩ | ⟨message, hu⟩
  · obtain rfl | rfl := ht
    · obtain rfl := Except.ok.inj h
      exact congrArg Except.ok (stripped_writeLines colors escapeless_hint).symm
    · obtain rfl := Except.ok.inj h
      exact congrArg Except.ok (stripped_writeLines colors escapeless_rules).symm
  · rw [hs.printedText] at h ⊢
    cases hn : Node.ofRead read with
    | error e =>
      rw [hn] at h
      cases h
    | ok n =>
      cases read with
      | error failure => cases hn
      | ok v =>
        rw [hn] at h
        obtain rfl := Except.ok.inj h
        exact congrArg Except.ok
          (stripped_answer c colors format (escapeless_texts (htree hs) hn)).symm
  -- where nothing can be read, nothing is printed
  · obtain ⟨trouble, ht, -⟩ := hu.printedText colors format
    rw [ht] at h
    cases h

theorem printed_of_exitCode {o : Outcome} (h : o.exitCode = 0) : o = .printed o.output := by
  cases o with
  | printed text => rfl
  | failed trouble colors => cases h
  | misused => cases h

/-- A line that asks for the same without color prints the same without sequences. -/
theorem run_noColor_of_printed {words' : List String} (hexit : (run world words).exitCode = 0)
    (htree : TreeEscapeless world words)
    (hi : Invocation.ofWords world.environment words = .ok i)
    (hi' : Invocation.ofWords world.environment words' = .ok (Setting.noColor.apply i)) :
    run world words' = .printed (stripped (run world words).output) := by
  have hprinted := printed_of_exitCode hexit
  rw [run_of_invocation hi] at hprinted ⊢
  rw [run_of_invocation hi']
  cases hl : i.load world with
  | error e =>
    rw [perform_of_unloaded hl] at hprinted
    cases hprinted
  | ok config =>
    -- the option has no part in which configuration is loaded
    have hl' : (Setting.noColor.apply i).load world = .ok config := hl
    have hcolors : (Setting.noColor.apply i).colors world config = false := by
      simp [Invocation.colors, Setting.apply]
    rw [perform_of_loaded hl] at hprinted ⊢
    rw [perform_of_loaded hl', hcolors]
    cases htext : printedText world (i.colors world config) (i.formatUnder config) i.command with
    | error trouble =>
      rw [htext] at hprinted
      cases hprinted
    | ok text =>
      -- the same text is printed, without its sequences
      have hstripped := stripped_printedText (htree hi) htext
      have hsame : printedText world false ((Setting.noColor.apply i).formatUnder config)
          (Setting.noColor.apply i).command = .ok (stripped text) := hstripped
      rw [hsame]
      rfl

/-- What is never colored does not depend on the wish for color. -/
theorem printedText_of_neverColored (h : c.NeverColored format) (colors colors' : Bool) :
    printedText world colors format c = printedText world colors' format c := by
  cases c with
  | hint | rules => cases h
  | inline tree => rfl
  | serialize source => rfl
  | explain source =>
    obtain rfl : format = .json := h
    rfl

theorem run_noColor_of_neverColored {words' : List String}
    (hexit : (run world words).exitCode = 0)
    (hi : Invocation.ofWords world.environment words = .ok i)
    (hi' : Invocation.ofWords world.environment words' = .ok (Setting.noColor.apply i))
    (hl : i.load world = .ok config) (hnever : i.command.NeverColored (i.formatUnder config)) :
    run world words' = run world words := by
  have hprinted := printed_of_exitCode hexit
  rw [run_of_invocation hi] at hprinted ⊢
  rw [run_of_invocation hi']
  have hl' : (Setting.noColor.apply i).load world = .ok config := hl
  rw [perform_of_loaded hl] at hprinted ⊢
  rw [perform_of_loaded hl']
  -- the option changes the color and nothing else that is printed depends on
  have hsame : printedText world ((Setting.noColor.apply i).colors world config)
      ((Setting.noColor.apply i).formatUnder config) (Setting.noColor.apply i).command =
        printedText world (i.colors world config) (i.formatUnder config) i.command :=
    printedText_of_neverColored hnever _ _
  rw [hsame]
  cases htext : printedText world (i.colors world config) (i.formatUnder config) i.command with
  | error trouble =>
    rw [htext] at hprinted
    cases hprinted
  | ok text => rfl

/-- The texts about the program itself are never colored. -/
theorem escapeless_versionText : Escapeless versionText :=
  escapeless_ofList (by decide)

/-- A line that leads to no invocation does not lead to one with the option in front of it. -/
theorem run_cons_noColor_of_stop {stop : Stop} (hsaid : ¬SaysNoColor words)
    (h : Invocation.ofWords world.environment words = .error stop) :
    run world ("--no-color" :: words) = run world words := by
  have hcons := ofWords_cons_noColor world.environment hsaid
  rw [h] at hcons
  simp only [run, h, hcons, Except.map]

/-- What is shown instead of a run holds no escapes, if the help that it may be holds none. -/
theorem escapeless_of_stop {stop : Stop} (hexit : (run world words).exitCode = 0)
    (hhelp : HelpEscapeless world words)
    (h : Invocation.ofWords world.environment words = .error stop) :
    Escapeless (run world words).output := by
  cases stop with
  -- a misuse has another exit code
  | misused =>
    simp only [run, h, Outcome.exitCode] at hexit
    cases hexit
  | version =>
    simp only [run, h, Outcome.output]
    exact escapeless_versionText
  | help topic =>
    simp only [run, h, Outcome.output]
    exact hhelp h

end CanonicalQuery.CommandLine
