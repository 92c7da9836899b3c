import CanonicalQuery.CommandLine.Run

/-!
# The program

The outer layer of the program: it looks at the part of the world that a command line depends on,
runs, and prints the outcome.  The library fixes no words for the help, for a misused command line
and for texts that are no JSON or no TOML; those given here are one choice.
-/

namespace CanonicalQuery.CommandLine

/-! ## §1 Reading -/

/-- Why something cannot be opened or read. -/
def failureOf : IO.Error → Files.Failure
  | .noFileOrDirectory .. => .missing
  | .permissionDenied _ code details =>
    if code = 13 then .denied else .other (toString (IO.Error.permissionDenied none code details))
  | .inappropriateType _ code _ => if code = 21 then .directory else .notDirectory
  -- a path is refused as an argument for nothing but its length
  | .invalidArgument .. => .nameTooLong
  | e => .other (toString e)

/-- Read what is open until it ends or fails. -/
def drain (source : IO.FS.Stream) : IO Files.Stream := do
  let mut octets := ByteArray.empty
  let mut failure? := none
  let mut more := true
  while more do
    match ← EIO.toBaseIO (source.read 65536) with
    | .ok next =>
      octets := octets ++ next
      more := !next.isEmpty
    | .error e =>
      failure? := some (failureOf e)
      more := false
  return { octets, failure? }

/-- Whether a path leads to a regular file, which can be told without opening it. -/
def isFile (path : String) : IO Bool := do
  match ← EIO.toBaseIO (do ((← IO.currentDir) / path).metadata) with
  | .ok found => return found.type == .file
  | .error _ => return false

/-- What stands at a path of the file system. -/
def lookAt (path : String) : IO Files.Entry := do
  let isFile ← isFile path
  match ← EIO.toBaseIO (IO.FS.Handle.mk path .read) with
  | .ok handle => return { isFile, opened := .ok (← drain (.ofHandle handle)) }
  | .error e => return { isFile, opened := .error (failureOf e) }

/-- The value behind a name in a table whose lines have it in front. -/
def valueIn (name table : String) : Option String :=
  (table.splitOn "\n").findSome? fun line =>
    match line.splitOn "\t" with
    | first :: value :: _ => if first = name then some value else none
    | _ => none

/-- The home directory in the table of accounts for a number of a user. -/
def homeIn (user table : String) : Option String :=
  (table.splitOn "\n").findSome? fun line =>
    match line.splitOn ":" with
    | [_, _, number, _, _, home, _] => if number = user then some home else none
    | _ => none

/-- The home directory of the account that runs the program. -/
def accountHome : IO (Option String) := do
  match ← EIO.toBaseIO (IO.FS.readFile "/proc/self/status"),
      ← EIO.toBaseIO (IO.FS.readFile "/etc/passwd") with
  | .ok status, .ok accounts => return (valueIn "Uid:" status).bind (homeIn · accounts)
  | _, _ => return none

/-! ## §2 Words -/

/-- What is said about texts that are refused. -/
def briefly : Wording where
  json _ := "the text is no JSON"
  jsonOctets _ := "the text is no JSON"
  toml _ := "the text is no configuration"

/-- What a subcommand does. -/
def Subcommand.purpose : Subcommand → String
  | .serialize => "Serialize a tree into canonical query text"
  | .explain => "Show the typed structure of a tree and its canonical query"
  | .rules => "Show the serialization rule table"

/-- The lines on the options that may stand anywhere. -/
def optionLines : List String :=
  ["Options:",
    "  -f, --format <FORMAT>  Output format (overrides the config file): plain, json",
    "  -c, --config <CONFIG>  Config file path",
    "      --no-color         Disable colored output",
    "  -v, --verbose          Verbose output",
    "  -h, --help             Print help"]

/-- The line on the option that names a file with a tree. -/
def inputLine : String :=
  "  -i, --input <INPUT>    JSON file to read ('-' or omitted for stdin)"

/-- The lines of the help on a topic. -/
def helpLines : Topic → List String
  | .program =>
    ["Canonical serializer for Lucene-style query trees", "",
      "Usage: lucene-query [OPTIONS] [TREE] [COMMAND]", "", "Commands:"]
    ++ [Subcommand.serialize, .explain, .rules].map (fun s => "  " ++ s.name ++ ": " ++ s.purpose)
    ++ ["  help: Print this message or the help of the given subcommand(s)", "", "Arguments:",
      "  [TREE]  Attribute tree as inline JSON", ""]
    ++ optionLines
    ++ ["  -V, --version          Print version", "", "EXAMPLES:",
      "    lucene-query '\x7b\"term\": \"fuzzy\", \"similarity\": \"0.8\"\x7d'",
      "    lucene-query serialize --input tree.json --format json",
      "    cat tree.json | lucene-query explain"]
  | .subcommand s =>
    [s.purpose, "", "Usage: lucene-query " ++ s.name ++ " [OPTIONS]", ""]
    ++ optionLines ++ (if s = .rules then [] else [inputLine])
  | .help =>
    ["Print this message or the help of the given subcommand(s)", "",
      "Usage: lucene-query help [COMMAND]"]

/-- The help on a topic. -/
def helpOn (topic : Topic) : String :=
  String.join ((helpLines topic).map (· ++ "\n"))

/-- What is said about a command line that cannot be understood. -/
def misuseText : String :=
  "error: the arguments cannot be understood\n\nFor more information, try '--help'.\n"

/-! ## §3 The world -/

/-- The variables of the environment that a run depends on. -/
def variableNames : List String :=
  ["CLICOLOR", "CLICOLOR_FORCE", "NO_COLOR", "XDG_CONFIG_HOME", "HOME", configVariable]

/-- The part of the world that a command line depends on. -/
def observe (words : List String) : IO World := do
  let values ← variableNames.mapM fun name => return (name, ← IO.getEnv name)
  let environment := fun name => (values.lookup name).join
  let world : World := {
    entry := fun _ => .absent .missing
    environment
    account := ← accountHome
    input := .ended .empty
    terminal := ← (← IO.getStdout).isTty
    wording := briefly
    help := helpOn }
  match Invocation.ofWords environment words with
  | .error _ => return world
  | .ok i =>
    let entries ← (i.paths world.directory?).mapM fun path => return (path, ← lookAt path)
    let input ← if i.ReadsInput then drain (← IO.getStdin) else pure world.input
    return { world with
      entry := fun path => (entries.lookup path).getD (.absent .missing)
      input }

end CanonicalQuery.CommandLine

open CanonicalQuery.CommandLine in
/-- Run the program on the words of its command line. -/
def main (words : List String) : IO UInt32 := do
  let outcome := run (← observe words) words
  IO.print outcome.output
  match outcome.error? with
  | some line => IO.eprintln line
  | none => if outcome = .misused then IO.eprint misuseText
  return outcome.exitCode.toUInt32
