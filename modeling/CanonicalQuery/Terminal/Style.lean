/-!
# Colored text

A terminal is told by escape sequences how to show what follows.  A colored piece of text stands
between the sequence of its style and the sequence that resets all styles.  A reset inside the piece
would end its style too early, so the sequence of the style is written again behind it.

A piece is a text with a style, and a line is made of pieces; whether the styles are written is
decided when the line is.

## Main definitions

- `Color`, `Style`: how a piece is shown.
- `Piece`, `Piece.write`: a piece of text, in color or plain.
- `Line`, `writeLines`: the pieces of a line, and the text of lines.
- `colorsWanted`: whether an environment asks for color.
-/

namespace CanonicalQuery.Terminal

/-! ## §1 Styles -/

/-- The colors in use. -/
inductive Color where
  | red
  | green
  | yellow
  | cyan
  | white
  deriving DecidableEq, Repr, Inhabited

/-- The code of a color. -/
def Color.code : Color → String
  | .red => "31"
  | .green => "32"
  | .yellow => "33"
  | .cyan => "36"
  | .white => "37"

/-- How a piece is shown. -/
inductive Style where
  | colored (color : Color)
  | bold (color : Color)
  | dimmed
  deriving DecidableEq, Repr, Inhabited

/-- The codes of a style; bold comes before the color. -/
def Style.codes : Style → String
  | .colored color => color.code
  | .bold color => "1;" ++ color.code
  | .dimmed => "2"

/-- The sequence that begins a style. -/
def Style.start (s : Style) : List Char :=
  '\x1b' :: '[' :: s.codes.toList ++ ['m']

/-- The sequence that resets all styles. -/
def reset : List Char :=
  ['\x1b', '[', '0', 'm']

/-! ## §2 Pieces -/

/-- Write a sequence behind every reset of a text. -/
def restart (start : List Char) : List Char → List Char
  | '\x1b' :: '[' :: '0' :: 'm' :: rest => reset ++ start ++ restart start rest
  | c :: rest => c :: restart start rest
  | [] => []

/-- A text with the style in which it is shown, if it has one. -/
structure Piece where
  text : String
  style : Option Style := none
  deriving DecidableEq, Repr, Inhabited

/-- A text in a style. -/
def Piece.styled (style : Style) (text : String) : Piece :=
  { text, style }

/-- A text in a color. -/
def Piece.colored (color : Color) (text : String) : Piece :=
  .styled (.colored color) text

/-- A text without style. -/
def Piece.plain (text : String) : Piece :=
  { text }

/-- A piece as it is written, with its style only if colors are on. -/
def Piece.write (colors : Bool) (p : Piece) : String :=
  match colors, p.style with
  | true, some style =>
    String.ofList (style.start ++ restart style.start p.text.toList ++ reset)
  | _, _ => p.text

/-- The pieces of a line. -/
abbrev Line := List Piece

/-- A line without its end. -/
def writeLine (colors : Bool) (line : Line) : String :=
  String.join (line.map (Piece.write colors))

/-- Lines, each with its end. -/
def writeLines (colors : Bool) (lines : List Line) : String :=
  String.join (lines.map fun line => writeLine colors line ++ "\n")

/-! ## §3 When to use color -/

/-- Whether an environment asks for color: `CLICOLOR_FORCE` forces it; otherwise it is used on a
terminal, unless `NO_COLOR` is set or `CLICOLOR` is zero. -/
def colorsWanted (environment : String → Option String) (terminal : Bool) : Bool :=
  match environment "CLICOLOR_FORCE" with
  | some value => if value ≠ "0" then true else otherwise
  | none => otherwise
where
  /-- Whether color is used without being forced. -/
  otherwise : Bool :=
    terminal && (environment "NO_COLOR").isNone && decide (environment "CLICOLOR" ≠ some "0")

end CanonicalQuery.Terminal
