import CanonicalQuery.CommandLine.Arguments
import CanonicalQuery.Config.Loading
import CanonicalQuery.Terminal.Listing
import CanonicalQuery.Typed.Writing

/-!
# Runs

What a run of the program does, as a function of the world that it sees: the files, the environment,
the account of the user, the standard input, and whether its output is shown on a terminal.  What
other libraries say is part of the world too: the words of the readers of JSON and TOML about texts
that they refuse, and the help that the parser of command lines writes.

First the configuration is loaded, then the tree is read if one is needed, and only then anything is
printed.  So a run that fails prints nothing but its error.

## Main definitions

- `World`: what a run sees.
- `Trouble`, `Trouble.message`: why a run fails, and its wording.
- `Outcome`: how a run ends; `Outcome.exitCode`, `Outcome.output`, `Outcome.error?` say what is seen
  of it.
- `perform`, `run`: the outcome of an invocation and of a command line.
- `Invocation.paths`, `Invocation.ReadsInput`: what of the world an invocation depends on.
-/

namespace CanonicalQuery.CommandLine

open CanonicalQuery.Terminal

/-- What a run sees. -/
structure World where
  /-- What stands at a path. -/
  entry : String → Files.Entry
  environment : String → Option String
  /-- The home directory that the accounts of the system give the user. -/
  account : Option String
  /-- What is read from the standard input. -/
  input : Files.Stream
  /-- Whether output is shown on a terminal. -/
  terminal : Bool
  /-- What readers say about texts that they refuse. -/
  wording : Wording
  /-- The help on a topic. -/
  help : Topic → String

/-- The directory for the configurations of the user. -/
def World.directory? (world : World) : Option String :=
  Config.directory? world.environment world.account

/-! ## §1 Troubles -/

/-- Why a run fails. -/
inductive Trouble where
  /-- The configuration cannot be loaded. -/
  | config (error : Error)
  /-- The file of the tree cannot be opened. -/
  | closed (path : String) (cause : Files.Failure)
  /-- The file of the tree is open but cannot be read. -/
  | unreadable (cause : Files.Failure)
  /-- The standard input cannot be read, or is no text. -/
  | input (cause : Files.Failure)
  /-- The tree is no JSON, in the words of its reader. -/
  | malformed (failure : Json.Failure) (words : String)
  /-- The tree is refused. -/
  | refused (error : Error)
  deriving DecidableEq, Repr

/-- What an error about a tree means to a run, where the reader of the tree has said some words. -/
def Trouble.ofError (words : String) : Error → Trouble
  | .json failure => .malformed failure words
  | e => .refused e

/-- The wording of a trouble. -/
def Trouble.message : Trouble → String
  | .config e => "failed to load config: " ++ e.chain
  | .closed path cause => "failed to open " ++ path ++ ": " ++ cause.message
  | .unreadable cause => "JSON error: " ++ cause.message ++ ": " ++ cause.message
  | .input cause => cause.message
  | .malformed failure words => (Error.json failure).message ++ words ++ ": " ++ words
  | .refused e => e.chain

/-! ## §2 Outcomes -/

/-- How a run ends. -/
inductive Outcome where
  | printed (text : String)
  /-- With an error, which may be in color. -/
  | failed (trouble : Trouble) (colors : Bool)
  | misused
  deriving DecidableEq, Repr

namespace Outcome

/-- The code with which the program exits. -/
def exitCode : Outcome → Nat
  | printed _ => 0
  | failed _ _ => 1
  | misused => 2

/-- What is printed on the standard output. -/
def output : Outcome → String
  | printed text => text
  | failed _ _ => ""
  | misused => ""

/-- The line that is printed on the error output, if the run fails. -/
def error? : Outcome → Option String
  | failed trouble colors =>
    some (writeLine colors
      [.styled (.bold .red) "Error:", .plain " ", .plain trouble.message])
  | _ => none

end Outcome

/-! ## §3 Performing an invocation -/

/-- The tree in a text. -/
def treeOfText (world : World) (text : String) : Except Trouble Node :=
  (Node.ofJson text).mapError (.ofError (world.wording.json text))

/-- The tree in what is read from a file. -/
def treeOfStream (world : World) (stream : Files.Stream) : Except Trouble Node :=
  match Json.Value.ofStream stream with
  | .ok read => (Node.ofRead read).mapError (.ofError (world.wording.jsonOctets stream.octets))
  | .error cause => .error (.unreadable cause)

/-- The tree that a source holds. -/
def treeOf (world : World) : Source → Except Trouble Node
  | .file path =>
    match (world.entry path).opened with
    | .ok stream => treeOfStream world stream
    | .error cause => .error (.closed path cause)
  | .standardInput =>
    match world.input.text with
    | .ok text => treeOfText world text
    | .error cause => .error (.input cause)

/-- The query of a tree as it is printed. -/
def queryText (format : OutputFormat) (n : Node) : String :=
  match format with
  | .plain => n.query ++ "\n"
  | .json => (Json.Value.object [("query", .string n.query)]).text ++ "\n"

/-- A tree and its query as they are printed. -/
def explanationText (colors : Bool) (format : OutputFormat) (n : Node) : String :=
  match format with
  | .plain => writeLines colors (explanation n)
  | .json =>
    (Json.Value.object [("query", .string n.query), ("tree", n.typed.sorted)]).text ++ "\n"

/-- What an invocation prints once the configuration holds. -/
def printedText (world : World) (colors : Bool) (format : OutputFormat) :
    Command → Except Trouble String
  | .hint => .ok (writeLines colors hint)
  | .rules => .ok (writeLines colors rules)
  | .inline tree => do return queryText format (← treeOfText world tree)
  | .serialize source => do return queryText format (← treeOf world source)
  | .explain source => do return explanationText colors format (← treeOf world source)

/-- The outcome of an invocation. -/
def perform (world : World) (i : Invocation) : Outcome :=
  let wanted := colorsWanted world.environment world.terminal
  match Config.load world.wording.toml world.entry world.directory? i.config with
  | .error e => .failed (.config e) wanted
  | .ok config =>
    let colors := wanted && !i.noColor && config.output.color
    match printedText world colors (i.format.getD config.output.format) i.command with
    | .ok text => .printed text
    | .error trouble => .failed trouble colors

/-- The name and the version of the program. -/
def versionText : String :=
  "lucene-query 0.3.0\n"

/-- The outcome of a command line. -/
def run (world : World) (words : List String) : Outcome :=
  match Invocation.ofWords world.environment words with
  | .error .misused => .misused
  | .error .version => .printed versionText
  | .error (.help topic) => .printed (world.help topic)
  | .ok i => perform world i

/-! ## §4 What a run depends on -/

/-- The file that a source names, if it names one. -/
def Source.paths : Source → List String
  | .standardInput => []
  | .file path => [path]

/-- The source of the tree that a command reads, if it reads one. -/
def Command.source? : Command → Option Source
  | .serialize source | .explain source => some source
  | .hint | .inline _ | .rules => none

/-- The paths at which an invocation may look. -/
def Invocation.paths (directory? : Option String) (i : Invocation) : List String :=
  (match i.config with
    | some path => [path]
    | none => Config.candidates directory?)
    ++ (i.command.source?.map Source.paths).getD []

/-- Whether an invocation reads the standard input. -/
def Invocation.ReadsInput (i : Invocation) : Bool :=
  i.command.source? == some .standardInput

end CanonicalQuery.CommandLine
