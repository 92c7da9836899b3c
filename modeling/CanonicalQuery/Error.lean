import CanonicalQuery.Files.Entry
import CanonicalQuery.Json.Text
import CanonicalQuery.Query.Text
import CanonicalQuery.Tree.Reading

/-!
# Errors

What may go wrong with the inputs of this library, and how it is put into words.  The words for a
text that is no JSON or no TOML are those of the reader that refuses it; they tell a place in the
text and are not fixed here.

## Main definitions

- `Error`, `Error.message`: the causes of failure and their wording; `Error.chain` adds what lies
  behind an error.
- `Wording`: what readers say about texts that they refuse.
- `Tree.Defect.toError`: the error that reports a defect of an attribute tree.
- `Node.ofJson`, `Node.ofOctets`: query trees from JSON text.
- `Json.Value.ofStream`: what reading JSON from something open comes to.
- `Json.Value.canonicalQuery`: from an attribute tree to canonical query text.
-/

namespace CanonicalQuery

/-- Why an input gives no result. -/
inductive Error where
  /-- No rule handles the value at a path. -/
  | unhandledShape (path shape : String)
  /-- An attribute of the value at a path has the wrong form. -/
  | invalidAttribute (path name detail : String)
  | json (failure : Json.Failure)
  | config (detail : String)
  | io (cause : Files.Failure)
  deriving DecidableEq, Repr

/-- What readers say about texts that they refuse.  A text of JSON and the octets of a file are read
in two ways, and the same mistake may be told of differently. -/
structure Wording where
  /-- About a text that is no JSON. -/
  json : String → String
  /-- About the octets of a file that are no JSON. -/
  jsonOctets : ByteArray → String
  /-- About a text that is no TOML, or no configuration. -/
  toml : String → String

/-- The wording of an error.  Where JSON is refused, the words of its reader follow. -/
def Error.message : Error → String
  | .unhandledShape path shape => "Unhandled node shape at " ++ path ++ ": " ++ shape
  | .invalidAttribute path name detail =>
    "Invalid attribute '" ++ name ++ "' at " ++ path ++ ": " ++ detail
  | .json _ => "JSON error: "
  | .config detail => "Configuration error: " ++ detail
  | .io cause => "IO error: " ++ cause.message

/-- The wording of an error together with what lies behind it. -/
def Error.chain : Error → String
  | .io cause => Error.message (.io cause) ++ ": " ++ cause.message
  | e => e.message

namespace Tree

/-- The detail that tells how an attribute is wrong; an unhandled shape has none. -/
def Fault.detail : Fault → String
  | .unhandled _ => ""
  | .notText _ found => "expected a string, found " ++ found.name
  | .unknownSymbol _ symbol => "unknown unary operator '" ++ symbol ++ "'"
  | .otherSymbol name symbol => "'" ++ symbol ++ "' does not mark a " ++ name ++ " operand"

/-- The error that reports a defect. -/
def Defect.toError (d : Defect) : Error :=
  match d.fault with
  | .unhandled shape => .unhandledShape d.path.text shape.text
  | .notText name _ => .invalidAttribute d.path.text name d.fault.detail
  | .unknownSymbol name _ => .invalidAttribute d.path.text name d.fault.detail
  | .otherSymbol name _ => .invalidAttribute d.path.text name d.fault.detail

end Tree

/-- The query tree of an attribute tree that is read as JSON. -/
def Node.ofRead (read : Except Json.Failure Json.Value) : Except Error Node :=
  match read with
  | .error failure => .error (.json failure)
  | .ok v => (Node.ofTree v).mapError Tree.Defect.toError

/-- The query tree of the attribute tree in a JSON text. -/
def Node.ofJson (text : String) : Except Error Node :=
  Node.ofRead (Json.Value.ofText text)

/-- The query tree of the attribute tree in a JSON text in UTF-8. -/
def Node.ofOctets (octets : ByteArray) : Except Error Node :=
  Node.ofRead (Json.Value.ofOctets octets)

/-- Whether octets end the reading of JSON, whatever follows: one of them cannot stand where it
stands, or they end within a number whose exponent is more than is counted. -/
def Json.Refuses (octets : ByteArray) : Bool :=
  match Json.Automaton.run .standard Json.Automaton.start (Utf8.symbols octets) with
  | some ⟨_, .number _ literal⟩ => Json.literalOverflows literal.reverse
  | some _ => false
  | none => true

/-- What reading JSON from something open comes to.  Octets are read as they come, so a text is
refused before a failure behind it is met. -/
def Json.Value.ofStream (s : Files.Stream) :
    Except Files.Failure (Except Json.Failure Json.Value) :=
  match s.failure? with
  | none => .ok (Json.Value.ofOctets s.octets)
  | some cause => if Json.Refuses s.octets then .ok (.error .refused) else .error cause

/-- The canonical text of the query that an attribute tree gives. -/
def Json.Value.canonicalQuery (v : Json.Value) : Except Error String :=
  ((Node.ofTree v).mapError Tree.Defect.toError).map Node.query

end CanonicalQuery
