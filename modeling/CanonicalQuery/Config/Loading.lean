import CanonicalQuery.Config.Reading
import CanonicalQuery.Files.Entry

/-!
# Loading configurations

A configuration is read from one file.  It is the file that was asked for, or else the first regular
file among the candidates: one in the working directory, and one in the directory for the
configurations of the user.  Without any file the defaults hold.  Whatever is wrong with the chosen
file, no other is tried in its place.  In particular a candidate is chosen for being a regular file,
before anything shows whether it can be read.

## Main definitions

- `Config.directory?`: the directory for the configurations of a user.
- `Config.candidates`: the paths that are tried.
- `Config.choose?`: the path of the file that is read.
- `Config.load`: the configuration that holds.
-/

namespace CanonicalQuery.Config

open CanonicalQuery.Files (Entry)

/-- The variables of an environment by name. -/
abbrev Environment := String → Option String

/-- The configuration file of a working directory. -/
def localName : String :=
  "lucene-query.toml"

/-- Whether a path begins at the root. -/
def IsAbsolute (path : String) : Bool :=
  path.toList.head? = some '/'

/-- A name in a directory. -/
def inDirectory (directory name : String) : String :=
  if directory.toList.getLast? = some '/' then directory ++ name else directory ++ "/" ++ name

/-- The home directory of a user: `HOME` unless it is missing or empty, else the one of the
account. -/
def home? (environment : Environment) (account : Option String) : Option String :=
  (environment "HOME").filter (· ≠ "") <|> account.filter (· ≠ "")

/-- The directory for the configurations of a user: `XDG_CONFIG_HOME` if it is an absolute path,
else `.config` in the home directory. -/
def directory? (environment : Environment) (account : Option String) : Option String :=
  (environment "XDG_CONFIG_HOME").filter IsAbsolute <|>
    (home? environment account).map (inDirectory · ".config")

/-- The paths that are tried if no file is asked for. -/
def candidates (directory? : Option String) : List String :=
  localName ::
    (directory?.map fun directory =>
      inDirectory (inDirectory directory "lucene-query") "config.toml").toList

/-- The path of the file that is read, if there is one. -/
def choose? (entry : String → Entry) (directory? explicit : Option String) : Option String :=
  match explicit with
  | some path => some path
  | none => (candidates directory?).find? fun path => (entry path).isFile

/-- The configuration in an entry of the file system; `words` are said about a text that gives
none. -/
def ofEntry (words : String → String) (e : Entry) : Except Error Config :=
  match e.text with
  | .error cause => .error (.io cause)
  | .ok text => ofToml words text

/-- The configuration that holds. -/
def load (words : String → String) (entry : String → Entry) (directory? explicit : Option String) :
    Except Error Config :=
  match choose? entry directory? explicit with
  | some path => ofEntry words (entry path)
  | none => .ok default

end CanonicalQuery.Config
