import CanonicalQuery.Config.Basic

/-!
# Command lines

The words of a command line are options, a subcommand and an attribute tree.  They are read from the
left, and the first word that cannot be understood ends the reading.

- A long option follows two dashes; its value follows an equals sign or is the next word.
- Short options follow one dash and may be joined; the value of the last one may be joined too, with
  or without an equals sign, or is the next word.
- An option may be given once before the subcommand and once behind it.
- Behind a word of two dashes alone all words are plain.  A single dash is a plain word.
- A plain word is a subcommand if it names one, and else the tree; behind a subcommand no plain word
  may stand.

What an option with a separate value is worth shows only when the next option, plain word or the end
of its side is reached.

## Main definitions

- `Flag`, `Side`: the options, and which of them may stand before and behind a subcommand.
- `Topic`, `Stop`: what help is given on, and why a line leads to no run.
- `Level`: the options of one side, and how a word adds to them.
- `Invocation`, `Invocation.ofWords`: what a command line asks for.
-/

namespace CanonicalQuery.CommandLine

/-! ## §1 Options -/

/-- The options. -/
inductive Flag where
  | format
  | config
  | input
  | noColor
  | verbose
  | version
  | help
  deriving DecidableEq, Repr, Inhabited

namespace Flag

/-- The name behind two dashes. -/
def long : Flag → String
  | format => "format"
  | config => "config"
  | input => "input"
  | noColor => "no-color"
  | verbose => "verbose"
  | version => "version"
  | help => "help"

/-- The letter behind one dash. -/
def short? : Flag → Option Char
  | format => some 'f'
  | config => some 'c'
  | input => some 'i'
  | noColor => none
  | verbose => some 'v'
  | version => some 'V'
  | help => some 'h'

/-- Whether an option has a value. -/
def HasValue : Flag → Bool
  | format | config | input => true
  | noColor | verbose | version | help => false

end Flag

/-- The subcommands. -/
inductive Subcommand where
  | serialize
  | explain
  | rules
  deriving DecidableEq, Repr, Inhabited

/-- The name of a subcommand. -/
def Subcommand.name : Subcommand → String
  | .serialize => "serialize"
  | .explain => "explain"
  | .rules => "rules"

/-- The subcommand with a given name. -/
def Subcommand.ofName? (name : String) : Option Subcommand :=
  [serialize, explain, rules].find? fun s => s.name == name

/-- The side of the subcommand on which an option stands: before any, or behind one. -/
abbrev Side := Option Subcommand

/-- The options that may stand on a side. -/
def Side.flags : Side → List Flag
  | none => [.format, .config, .noColor, .verbose, .version, .help]
  | some .rules => [.format, .config, .noColor, .verbose, .help]
  | some _ => [.format, .config, .input, .noColor, .verbose, .help]

/-- The option with a long name. -/
def Side.long? (side : Side) (name : String) : Option Flag :=
  side.flags.find? fun f => f.long == name

/-- The option with a letter. -/
def Side.short? (side : Side) (letter : Char) : Option Flag :=
  side.flags.find? fun f => f.short? == some letter

/-- What help is given on. -/
inductive Topic where
  | program
  | subcommand (s : Subcommand)
  /-- The word that asks for help on a topic. -/
  | help
  deriving DecidableEq, Repr, Inhabited

/-- Why a command line leads to no run. -/
inductive Stop where
  | misused
  | version
  | help (topic : Topic)
  deriving DecidableEq, Repr, Inhabited

/-- Why a line leads to no run that ends behind a subcommand: help that is asked for there is on the
subcommand. -/
def Stop.behind (s : Subcommand) : Stop → Stop
  | .help _ => .help (.subcommand s)
  | stop => stop

/-! ## §2 One side -/

/-- What the options of one side say. -/
structure Options where
  format : Option OutputFormat := none
  config : Option String := none
  input : Option String := none
  noColor : Bool := false
  verbose : Bool := false
  deriving DecidableEq, Repr, Inhabited

/-- The options of one side so far. -/
structure Level where
  options : Options := {}
  /-- The option that came last, with its value if that was a word of its own. -/
  pending : Option (Flag × Option String) := none
  deriving DecidableEq, Repr, Inhabited

namespace Level

/-- Whether the next word belongs to an option. -/
def Awaits (level : Level) : Bool :=
  match level.pending with
  | some (_, none) => true
  | _ => false

/-- Give an option its value. -/
def put (options : Options) (flag : Flag) (value : String) : Except Stop Options :=
  match flag with
  | .format =>
    match options.format, OutputFormat.ofName? value false with
    | none, some f => .ok { options with format := some f }
    | _, _ => .error .misused
  | .config =>
    if options.config.isNone ∧ value ≠ "" then .ok { options with config := some value }
    else .error .misused
  | .input =>
    if options.input.isNone ∧ value ≠ "" then .ok { options with input := some value }
    else .error .misused
  | _ => .error .misused

/-- The options of a side with the last one settled. -/
def settled (level : Level) : Except Stop Options :=
  match level.pending with
  | none => .ok level.options
  | some (flag, some value) => put level.options flag value
  | some (_, none) => .error .misused

/-- An option without value. -/
def raise (level : Level) (flag : Flag) : Except Stop Level := do
  let options ← level.settled
  match flag with
  | .version => .error .version
  | .help => .error (.help .program)
  | .noColor =>
    if options.noColor then .error .misused
    else return ⟨{ options with noColor := true }, none⟩
  | .verbose =>
    if options.verbose then .error .misused
    else return ⟨{ options with verbose := true }, none⟩
  | _ => .error .misused

/-- An option together with its value. -/
def give (level : Level) (flag : Flag) (value : String) : Except Stop Level := do
  let options ← level.settled
  return ⟨← put options flag value, none⟩

/-- An option whose value is the next word. -/
def await (level : Level) (flag : Flag) : Except Stop Level := do
  return ⟨← level.settled, some (flag, none)⟩

/-- A long option without its dashes. -/
def long (side : Side) (level : Level) (text : List Char) : Except Stop Level :=
  match side.long? (String.ofList (text.takeWhile (· ≠ '='))), text.dropWhile (· ≠ '=') with
  | none, _ => .error .misused
  | some flag, [] => if flag.HasValue then level.await flag else level.raise flag
  | some flag, _ :: value =>
    if flag.HasValue then level.give flag (String.ofList value) else .error .misused

/-- Short options without their dash. -/
def short (side : Side) (level : Level) : List Char → Except Stop Level
  | [] => .ok level
  | letter :: rest =>
    match side.short? letter with
    | none => .error .misused
    | some flag =>
      if flag.HasValue then
        match rest with
        | [] => level.await flag
        | '=' :: value => level.give flag (String.ofList value)
        | value => level.give flag (String.ofList value)
      else
        match level.raise flag with
        | .ok level => short side level rest
        | .error stop => .error stop

/-- The word that an option awaits. -/
def answer (level : Level) (value : String) : Level :=
  { level with pending := level.pending.map fun (flag, _) => (flag, some value) }

end Level

/-! ## §3 Whole command lines -/

/-- What a word is on its own. -/
inductive Word where
  | dashes
  | long (text : List Char)
  | short (text : List Char)
  | plain
  deriving DecidableEq, Repr

/-- What a word is on its own. -/
def Word.of (word : String) : Word :=
  match word.toList with
  | ['-', '-'] => .dashes
  | '-' :: '-' :: text => .long text
  | ['-'] => .plain
  | '-' :: text => .short text
  | _ => .plain

/-- The options behind a subcommand. -/
def readBehind (s : Subcommand) (level : Level) : List String → Except Stop Options
  | [] => level.settled
  | word :: rest =>
    match Word.of word with
    -- plain words may not follow
    | .dashes => if rest.isEmpty then level.settled else .error .misused
    | .long text => do readBehind s (← level.long (some s) text) rest
    | .short text => do readBehind s (← level.short (some s) text) rest
    | .plain => if level.Awaits then readBehind s (level.answer word) rest else .error .misused

/-- What stands on a command line. -/
structure Parts where
  /-- The options before the subcommand. -/
  before : Options
  tree : Option String
  /-- The subcommand and the options behind it. -/
  command : Option (Subcommand × Options)
  deriving DecidableEq, Repr, Inhabited

/-- The topic that the words behind `help` name, if they name one. -/
def Topic.ofWords? : List String → Option Topic
  | [] => some .program
  | [name] => if name = "help" then some .help else (Subcommand.ofName? name).map .subcommand
  | _ => none

/-- The words behind two dashes, all of them plain. -/
def readPlain (level : Level) (tree : Option String) (words : List String) : Except Stop Parts :=
  match tree.toList ++ words with
  | [] => do return ⟨← level.settled, none, none⟩
  | [tree] => do return ⟨← level.settled, some tree, none⟩
  | _ => .error .misused

/-- The words from a place before any subcommand on. -/
def readBefore (level : Level) (tree : Option String) : List String → Except Stop Parts
  | [] => readPlain level tree []
  | word :: rest =>
    match Word.of word with
    | .dashes => if level.Awaits then .error .misused else readPlain level tree rest
    | .long text => do readBefore (← level.long none text) tree rest
    | .short text => do readBefore (← level.short none text) tree rest
    | .plain =>
      if level.Awaits then readBefore (level.answer word) tree rest
      else
        match Subcommand.ofName? word with
        | some s => do
          -- the options before the subcommand are settled last
          let behind ← (readBehind s {} rest).mapError (Stop.behind s)
          return ⟨← level.settled, tree, some (s, behind)⟩
        | none =>
          if word = "help" then .error ((Topic.ofWords? rest).elim .misused .help)
          else
            match tree with
            | some _ => .error .misused
            | none => do readBefore ⟨← level.settled, none⟩ (some word) rest

/-! ## §4 Invocations -/

/-- Where a tree is read from. -/
inductive Source where
  | standardInput
  | file (path : String)
  deriving DecidableEq, Repr, Inhabited

/-- The source that a path names.  A single dash is the standard input, also with slashes and points
behind it. -/
def Source.ofPath (path : String) : Source :=
  match path.splitOn "/" with
  | "-" :: rest =>
    if rest.all fun name => name = "" ∨ name = "." then .standardInput else .file path
  | _ => .file path

/-- What is to be done. -/
inductive Command where
  | hint
  /-- Write the query of a tree that stands on the command line. -/
  | inline (tree : String)
  /-- Write the query of a tree. -/
  | serialize (source : Source)
  /-- Show a tree and its query. -/
  | explain (source : Source)
  | rules
  deriving DecidableEq, Repr, Inhabited

/-- What a command line asks for. -/
structure Invocation where
  command : Command
  /-- The format, if it is not left to the configuration. -/
  format : Option OutputFormat
  /-- The configuration file, if one is asked for. -/
  config : Option String
  noColor : Bool
  verbose : Bool
  deriving DecidableEq, Repr, Inhabited

/-- The source of a tree, which is the standard input unless an option names a file. -/
def Options.source (o : Options) : Source :=
  (o.input.map Source.ofPath).getD .standardInput

/-- What is to be done; a tree before a subcommand does not count. -/
def Parts.toCommand (p : Parts) : Command :=
  match p.command, p.tree with
  | some (.serialize, behind), _ => .serialize behind.source
  | some (.explain, behind), _ => .explain behind.source
  | some (.rules, _), _ => .rules
  | none, some tree => .inline tree
  | none, none => .hint

/-- The variable that names a configuration file where no option does. -/
def configVariable : String :=
  "LUCENE_QUERY_CONFIG"

/-- Whether what the environment gives as a configuration file can stand.  An empty path can only if
every side has an option that wins over it. -/
def Parts.Accepts (p : Parts) (given : Option String) : Bool :=
  given != some "" ||
    p.before.config.isSome && p.command.all fun (_, behind) => behind.config.isSome

/-- What the parts of a command line ask for.  An option behind the subcommand wins over one before
it, and any option over what the environment gives. -/
def Parts.invocation (p : Parts) (given : Option String) : Invocation :=
  let behind := (p.command.map Prod.snd).getD {}
  { command := p.toCommand
    format := behind.format <|> p.before.format
    config := behind.config <|> p.before.config <|> given
    noColor := p.before.noColor || behind.noColor
    verbose := p.before.verbose || behind.verbose }

/-- What a command line asks for in an environment. -/
def Invocation.ofWords (environment : String → Option String) (words : List String) :
    Except Stop Invocation := do
  let parts ← readBefore {} none words
  let given := environment configVariable
  if parts.Accepts given then return parts.invocation given else .error .misused

end CanonicalQuery.CommandLine
