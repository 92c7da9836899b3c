import CanonicalQuery.Json.Form
import CanonicalQuery.Json.Number
import CanonicalQuery.Json.Quoted

/-!
# Reading JSON text

JSON text is read one symbol at a time by a machine whose state is a stack of open brackets and
what may come next.  A symbol that cannot come next is *refused*; a text that stops before its value
is complete is *unfinished*.  The two failures are told apart because no state is left unless a
symbol forces it: everything read so far can still be continued.

A symbol is a character, or `none` for an octet that belongs to none.

A *strict* reading also refuses numbers beyond the binary64 format and strings without a value, and
any reading may limit how deep brackets nest.

## Main definitions

- `Demands`: strictness and the limit of depth.
- `State`, `step`, `run`, `finish`: the machine.
- `readSymbols`: the form of a text, or how reading failed.
-/

namespace CanonicalQuery.Json

/-- What a reader demands of a text beyond its grammar. -/
structure Demands where
  /-- Refuse numbers and strings that have no value. -/
  strict : Bool
  /-- The number of brackets that may be open at once, if there is a limit. -/
  depth : Option Nat
  deriving DecidableEq, Repr

/-- How reading a text fails. -/
inductive Failure where
  /-- The text ends while its value could still be completed. -/
  | unfinished
  /-- A symbol of the text cannot stand where it stands. -/
  | refused
  deriving DecidableEq, Repr

namespace Automaton

/-! ## §1 States -/

/-- An open bracket around the place where a value is read, with what it holds so far, newest
first. -/
inductive Frame where
  | array (items : List Form)
  | member (members : List (Option String × Form)) (key : Option String)
  deriving Repr

/-- Where in a number literal a reading stands. -/
inductive NumberPhase where
  | minus
  | zero
  | whole
  | point
  | fraction
  | exponent
  | exponentSign
  | exponentDigits
  deriving DecidableEq, Repr

/-- What a string is read for. -/
inductive Purpose where
  | value
  | key (members : List (Option String × Form))
  deriving Repr

/-- What may come next. -/
inductive Mode where
  | value
  /-- The first item of an array, or its end. -/
  | firstItem
  /-- The comma after an item of an array, or its end. -/
  | afterItem (items : List Form)
  /-- The first key of an object, or its end. -/
  | firstKey
  | key (members : List (Option String × Form))
  | colon (members : List (Option String × Form)) (key : Option String)
  /-- The comma after a member of an object, or its end. -/
  | afterMember (members : List (Option String × Form))
  /-- The next character and the rest of a word, which spells `form`. -/
  | word (next : Char) (rest : List Char) (form : Form)
  /-- More of a number; its literal so far, newest first. -/
  | number (phase : NumberPhase) (literal : List Char)
  /-- More of a string. -/
  | string (purpose : Purpose) (state : Quoted.State)
  /-- Nothing but blanks. -/
  | done (form : Form)
  deriving Repr

/-- A reading in progress; the innermost open bracket comes first. -/
structure State where
  stack : List Frame
  mode : Mode
  deriving Repr

/-- The state before the first symbol. -/
def start : State := ⟨[], .value⟩

/-! ## §2 One symbol -/

/-- The blanks that may stand between tokens. -/
def IsBlank (c : Char) : Prop :=
  c = ' ' ∨ c = '\t' ∨ c = '\n' ∨ c = '\r'

instance (c : Char) : Decidable (IsBlank c) := inferInstanceAs (Decidable (_ ∨ _))

/-- A complete value goes into the innermost open bracket. -/
def complete (stack : List Frame) (form : Form) : State :=
  match stack with
  | [] => ⟨[], .done form⟩
  | .array items :: outer => ⟨outer, .afterItem (form :: items)⟩
  | .member members key :: outer => ⟨outer, .afterMember ((key, form) :: members)⟩

/-- Whether one more bracket may be opened. -/
def Demands.HasRoom (d : Demands) (stack : List Frame) : Prop :=
  ∀ limit ∈ d.depth, stack.length < limit

instance (d : Demands) (stack : List Frame) : Decidable (Demands.HasRoom d stack) :=
  inferInstanceAs (Decidable (∀ _ ∈ d.depth, _))

/-- Begin a value with its first character. -/
def beginValue (d : Demands) (stack : List Frame) (c : Char) : Option State :=
  if c = '"' then some ⟨stack, .string .value Quoted.start⟩
  else if c = '[' then if Demands.HasRoom d stack then some ⟨stack, .firstItem⟩ else none
  else if c = '\x7b' then if Demands.HasRoom d stack then some ⟨stack, .firstKey⟩ else none
  else if c = 'n' then some ⟨stack, .word 'u' ['l', 'l'] .null⟩
  else if c = 't' then some ⟨stack, .word 'r' ['u', 'e'] (.bool true)⟩
  else if c = 'f' then some ⟨stack, .word 'a' ['l', 's', 'e'] (.bool false)⟩
  else if c = '-' then some ⟨stack, .number .minus [c]⟩
  else if c = '0' then some ⟨stack, .number .zero [c]⟩
  else if c.isDigit then some ⟨stack, .number .whole [c]⟩
  else none

/-- The place in a number literal behind one more character, if it may stand there. -/
def NumberPhase.next? : NumberPhase → Char → Option NumberPhase
  | .minus, c => if c = '0' then some .zero else if c.isDigit then some .whole else none
  | .zero, c =>
    if c = '.' then some .point else if c = 'e' ∨ c = 'E' then some .exponent else none
  | .whole, c =>
    if c.isDigit then some .whole
    else if c = '.' then some .point
    else if c = 'e' ∨ c = 'E' then some .exponent
    else none
  | .point, c => if c.isDigit then some .fraction else none
  | .fraction, c =>
    if c.isDigit then some .fraction else if c = 'e' ∨ c = 'E' then some .exponent else none
  | .exponent, c =>
    if c = '+' ∨ c = '-' then some .exponentSign
    else if c.isDigit then some .exponentDigits
    else none
  | .exponentSign, c => if c.isDigit then some .exponentDigits else none
  | .exponentDigits, c => if c.isDigit then some .exponentDigits else none

/-- Whether a number literal may end here. -/
def NumberPhase.MayEnd : NumberPhase → Bool
  | .zero | .whole | .fraction | .exponentDigits => true
  | .minus | .point | .exponent | .exponentSign => false

/-- End a number: the literal has to be complete, and within the format if the reading is strict. -/
def endNumber (d : Demands) (stack : List Frame) (phase : NumberPhase) (literal : List Char) :
    Option State :=
  if phase.MayEnd ∧ (d.strict → literalIsFinite literal.reverse) then
    some (complete stack (.number (String.ofList literal.reverse)))
  else none

/-- A character behind a complete value: a blank, a comma or a closing bracket. -/
def stepAfterValue (s : State) (c : Char) : Option State :=
  if IsBlank c then some s
  else
    match s.mode with
    | .afterItem items =>
      if c = ',' then some ⟨.array items :: s.stack, .value⟩
      else if c = ']' then some (complete s.stack (.array items.reverse))
      else none
    | .afterMember members =>
      if c = ',' then some ⟨s.stack, .key members⟩
      else if c = '\x7d' then some (complete s.stack (.object members.reverse))
      else none
    | _ => none

/-- A character of a string or its closing quote, or a stray octet between the quotes. -/
def stepString (d : Demands) (stack : List Frame) (purpose : Purpose) (state : Quoted.State)
    (c? : Option Char) : Option State :=
  match Quoted.step d.strict state c?, purpose with
  | .more state, purpose => some ⟨stack, .string purpose state⟩
  | .closed text, .value => some (complete stack (.string text))
  | .closed text, .key members => some ⟨stack, .colon members text⟩
  | .refused, _ => none

/-- One more symbol; `none` if it is refused. -/
def step (d : Demands) (s : State) (c? : Option Char) : Option State :=
  match s.mode, c? with
  | .string purpose state, c? => stepString d s.stack purpose state c?
  | .value, some c => if IsBlank c then some s else beginValue d s.stack c
  | .firstItem, some c =>
    if IsBlank c then some s
    else if c = ']' then some (complete s.stack (.array []))
    else beginValue d (.array [] :: s.stack) c
  | .firstKey, some c =>
    if IsBlank c then some s
    else if c = '"' then some ⟨s.stack, .string (.key []) Quoted.start⟩
    else if c = '\x7d' then some (complete s.stack (.object []))
    else none
  | .key members, some c =>
    if IsBlank c then some s
    else if c = '"' then some ⟨s.stack, .string (.key members) Quoted.start⟩
    else none
  | .colon members key, some c =>
    if IsBlank c then some s
    else if c = ':' then some ⟨.member members key :: s.stack, .value⟩
    else none
  | .word next rest form, some c =>
    if c ≠ next then none
    else
      match rest with
      | [] => some (complete s.stack form)
      | next :: rest => some ⟨s.stack, .word next rest form⟩
  | .number phase literal, some c =>
    match phase.next? c with
    | some phase => some ⟨s.stack, .number phase (c :: literal)⟩
    -- the number is over; the character belongs behind it
    | none => (endNumber d s.stack phase literal).bind (stepAfterValue · c)
  | .afterItem _, some c => stepAfterValue s c
  | .afterMember _, some c => stepAfterValue s c
  | .done _, some c => stepAfterValue s c
  -- a stray octet stands only between quotes
  | _, none => none

/-! ## §3 Whole texts -/

/-- Read symbols one after the other; `none` if one of them is refused. -/
def run (d : Demands) : State → List (Option Char) → Option State
  | s, [] => some s
  | s, c? :: rest =>
    match step d s c? with
    | some next => run d next rest
    | none => none

/-- The end of the text. -/
def finish (d : Demands) (s : State) : Except Failure Form :=
  match s.mode with
  | .done form => .ok form
  | .number phase literal =>
    if phase.MayEnd then
      match endNumber d s.stack phase literal with
      | some ⟨_, .done form⟩ => .ok form
      | some _ => .error .unfinished
      | none => .error .refused
    else .error .unfinished
  | _ => .error .unfinished

theorem run_append (d : Demands) (s : State) (as bs : List (Option Char)) :
    run d s (as ++ bs) = (run d s as).bind (run d · bs) := by
  induction as generalizing s with
  | nil => rfl
  | cons c? as ih =>
    simp only [List.cons_append, run]
    cases step d s c? with
    | none => rfl
    | some next => exact ih next

end Automaton

/-- The form of a text given symbol by symbol. -/
def readSymbols (d : Demands) (symbols : List (Option Char)) : Except Failure Form :=
  match Automaton.run d Automaton.start symbols with
  | some s => Automaton.finish d s
  | none => .error .refused

end CanonicalQuery.Json
