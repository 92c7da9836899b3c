import CanonicalQuery.Proofs.Json.Demands
import CanonicalQuery.Proofs.Json.RoundTrip

/-!
# Texts within texts

A text that is read as a whole is read in the same way within the brackets of another text.  The
open brackets around it are out of its reach: what they hold stays as it is until the text is over,
and the only thing they change is how many brackets the text may open itself.

## Main definitions

- `Demands.within`: what is left of some demands within open brackets.
- `State.within`: a reading with open brackets around it.
- `IsText`: the texts that are JSON, whatever else is demanded of them.
- `Form.of?`: the form of a text, if it is read.

## Main statements

- `Automaton.step_within`: a step within open brackets is a step without them.
- `Automaton.run_embedded`: a text within brackets is read up to the delimiter behind it.
-/

namespace CanonicalQuery.Json

/-! ## §1 Open brackets around a reading -/

/-- The demands on a text within some open brackets. -/
def Demands.within (d : Demands) (count : Nat) : Demands :=
  ⟨d.strict, d.depth.map (· - count)⟩

/-- Without open brackets nothing is taken from the demands. -/
theorem Demands.within_zero (d : Demands) : d.within 0 = d := by
  simp [Demands.within]

namespace Automaton

variable {d : Demands}

/-- Brackets around a reading count like brackets of its own: either way they use up room. -/
theorem hasRoom_within (stack outer : List Frame) :
    Demands.HasRoom (d.within outer.length) stack ↔ Demands.HasRoom d (stack ++ outer) := by
  simp only [Demands.HasRoom, Demands.within, Option.mem_def, Option.map_eq_some_iff,
    List.length_append]
  constructor
  · intro h limit hlimit
    have hroom := h _ ⟨limit, hlimit, rfl⟩
    omega
  · rintro h _ ⟨limit, hlimit, rfl⟩
    have hroom := h limit hlimit
    omega

/-- A reading with open brackets around it; what it has completed goes into the innermost one. -/
def State.within (s : State) (outer : List Frame) : State :=
  match s.mode with
  | .done form => complete outer form
  | mode => ⟨s.stack ++ outer, mode⟩

/-- A value completed within brackets goes into the same frame as without them; only with an empty
stack the outer brackets receive it. -/
theorem complete_within (stack outer : List Frame) (form : Form) :
    (complete stack form).within outer = complete (stack ++ outer) form := by
  cases stack with
  | nil => rfl
  | cons frame stack => cases frame <;> rfl

/-- What has just been completed is followed by what may follow a value, whatever it was completed
into. -/
theorem step_complete (stack : List Frame) (form : Form) (c : Char) :
    step d (complete stack form) (some c) = stepAfterValue (complete stack form) c := by
  cases stack with
  | nil => rfl
  | cons frame stack => cases frame <;> rfl

/-- A value begins within brackets as it begins without them. -/
theorem beginValue_within (stack outer : List Frame) (c : Char) :
    beginValue d (stack ++ outer) c
      = (beginValue (d.within outer.length) stack c).map (·.within outer) := by
  simp only [beginValue, hasRoom_within]
  -- the outer brackets show in the tests for room alone, and these were just rewritten
  split_ifs <;> rfl

/-- A string does not see the brackets around it until it is closed. -/
theorem stepString_within (stack outer : List Frame) (purpose : Purpose) (q : Quoted.State)
    (c? : Option Char) :
    stepString d (stack ++ outer) purpose q c?
      = (stepString (d.within outer.length) stack purpose q c?).map (·.within outer) := by
  unfold stepString
  rw [show (d.within outer.length).strict = d.strict from rfl]
  cases Quoted.step d.strict q c? with
  | more q' => rfl
  | closed text =>
    cases purpose with
    -- a closed value leaves the string, and its frame may be the innermost outer one
    | value => exact congrArg some (complete_within stack outer _).symm
    | key members => rfl
  | refused => rfl

/-- Behind a complete value, brackets around it matter only to what closes the value. -/
theorem stepAfterValue_within {s : State} {c : Char} (outer : List Frame)
    (h : stepAfterValue s c ≠ none) :
    stepAfterValue (s.within outer) c = (stepAfterValue s c).map (·.within outer) := by
  by_cases hblank : IsBlank c
  · rw [stepAfterValue, stepAfterValue, if_pos hblank, if_pos hblank]
    rfl
  -- a comma keeps the frame of the reading, a bracket closes it and completes one level further out
  · obtain ⟨stack, mode⟩ := s
    rw [stepAfterValue, if_neg hblank] at h
    rw [stepAfterValue, stepAfterValue, if_neg hblank, if_neg hblank]
    cases mode with
    | afterItem items =>
      simp only [State.within]
      split_ifs
      · rfl
      · exact congrArg some (complete_within stack outer _).symm
      · rfl
    | afterMember members =>
      simp only [State.within]
      split_ifs
      · rfl
      · exact congrArg some (complete_within stack outer _).symm
      · rfl
    -- behind a whole text nothing may follow without brackets, so this case is excluded
    | _ => exact absurd rfl h

/-- A number ends within brackets as it ends without them. -/
theorem endNumber_within (stack outer : List Frame) (phase : NumberPhase) (literal : List Char) :
    endNumber d (stack ++ outer) phase literal
      = (endNumber (d.within outer.length) stack phase literal).map (·.within outer) := by
  unfold endNumber
  rw [show (d.within outer.length).strict = d.strict from rfl]
  split_ifs
  · exact congrArg some (complete_within stack outer _).symm
  · rfl

/-- **A step within open brackets** is a step without them, as long as there is one: a complete text
may be followed by more within brackets only. -/
theorem step_within {s : State} {c? : Option Char} (outer : List Frame)
    (h : step .formOnly s c? ≠ none) :
    step d (s.within outer) c? = (step (d.within outer.length) s c?).map (·.within outer) := by
  -- One case per mode.  The modes that only move on inside their own frame agree by computation;
  -- the four lemmas above take care of those that begin a value, end one, or end a number.
  obtain ⟨stack, mode⟩ := s
  cases mode with
  | string purpose q =>
    rw [step_string]
    exact (step_string _ _ _ _).trans (stepString_within stack outer purpose q c?)
  | value =>
    cases c? with
    -- the number is over, so the symbol is read again behind its value
    | none => rfl
    | some c =>
      simp only [step, State.within]
      split_ifs
      · rfl
      · exact beginValue_within stack outer c
  -- the empty array is completed at once, and a first item opens a frame below which the rest is as
  -- in `value`
  | firstItem =>
    cases c? with
    | none => rfl
    | some c =>
      simp only [step, State.within]
      split_ifs
      · rfl
      · exact congrArg some (complete_within stack outer _).symm
      · exact beginValue_within (.array [] :: stack) outer c
  | firstKey =>
    cases c? with
    | none => rfl
    | some c =>
      simp only [step, State.within]
      split_ifs
      · rfl
      · rfl
      · exact congrArg some (complete_within stack outer _).symm
      · rfl
  | key members =>
    cases c? with
    | none => rfl
    | some c =>
      simp only [step, State.within]
      split_ifs <;> rfl
  | colon members key =>
    cases c? with
    | none => rfl
    | some c =>
      simp only [step, State.within]
      split_ifs <;> rfl
  | word next rest form =>
    cases c? with
    | none => rfl
    | some c =>
      simp only [step, State.within]
      split_ifs
      · rfl
      · cases rest with
        | nil => exact congrArg some (complete_within stack outer _).symm
        | cons next rest => rfl
  | number phase literal =>
    cases c? with
    | none => rfl
    | some c =>
      simp only [step, State.within] at h ⊢
      cases hnext : phase.next? c with
      | some phase' => rfl
      | none =>
        simp only [hnext] at h ⊢
        rw [endNumber_within]
        cases hend : endNumber (d.within outer.length) stack phase literal with
        | none => rfl
        | some s' =>
          -- the reading for the form alone ends the same number, so its step behind the value did
          -- not fail
          rw [endNumber_formOnly hend] at h
          exact stepAfterValue_within outer h
  | afterItem items =>
    cases c? with
    | none => rfl
    | some c => exact stepAfterValue_within outer h
  | afterMember members =>
    cases c? with
    | none => rfl
    | some c => exact stepAfterValue_within outer h
  | done form =>
    cases c? with
    -- a stray octet behind a whole text is refused, against `h`
    | none => exact absurd rfl h
    | some c =>
      -- this is where brackets make the difference: the text is over, but the frame around it is
      -- not
      show step d (complete outer form) (some c) = _
      rw [step_complete]
      exact stepAfterValue_within outer h

/-- A run within open brackets is a run without them. -/
theorem run_within {s : State} {symbols : List (Option Char)} (outer : List Frame)
    (h : run .formOnly s symbols ≠ none) :
    run d (s.within outer) symbols
      = (run (d.within outer.length) s symbols).map (·.within outer) := by
  -- symbol by symbol; that no step fails without demands is what is left of `h` behind each of them
  induction symbols generalizing s with
  | nil => rfl
  | cons c? symbols ih =>
    cases hform : step .formOnly s c? with
    | none => exact absurd (by rw [run, hform]) h
    | some s' =>
      rw [run, hform] at h
      rw [run, run, step_within outer (by rw [hform]; exact Option.some_ne_none s')]
      cases hstep : step (d.within outer.length) s c? with
      | none => rfl
      | some s'' =>
        -- a demanding step that succeeds leads where the undemanding one does
        obtain rfl : s'' = s' := Option.some.inj ((step_formOnly hstep).symm.trans hform)
        exact ih h

/-! ## §2 A text within brackets -/

/-- A character behind a value that cannot be part of one. -/
def IsDelimiter (c : Char) : Prop :=
  IsBlank c ∨ c = ',' ∨ c = ']' ∨ c = '\x7d'

/-- No number goes on with a delimiter. -/
theorem next?_delimiter {c : Char} (hc : IsDelimiter c) (phase : NumberPhase) :
    phase.next? c = none := by
  rcases hc with (rfl | rfl | rfl | rfl) | rfl | rfl | rfl <;> cases phase <;> rfl

end Automaton

/-- The form of a text, if it is read. -/
def Form.of? (d : Demands) (text : String) : Option Form :=
  (Form.ofText d text).toOption

/-- The option holds the form that a reading gives, if it gives one. -/
theorem Form.of?_eq_some {d : Demands} {text : String} {form : Form} :
    Form.of? d text = some form ↔ Form.ofText d text = .ok form := by
  rw [Form.of?]
  cases Form.ofText d text <;> simp [Except.toOption]

/-- Reading a text is a run of the machine and its end. -/
theorem Form.of?_eq_bind (d : Demands) (text : String) :
    Form.of? d text
      = (Automaton.run d Automaton.start (symbols text)).bind
          fun s => (Automaton.finish d s).toOption := by
  rw [Form.of?, Form.ofText, readSymbols]
  cases Automaton.run d Automaton.start (symbols text) with
  | none => rfl
  | some s => rfl

namespace Automaton

variable {d : Demands}

/-- A number at the end of a text is not within brackets. -/
theorem eq_nil_of_finish_number {stack : List Frame} {phase : NumberPhase} {literal : List Char}
    {form : Form} (h : finish d ⟨stack, .number phase literal⟩ = .ok form) : stack = [] := by
  simp only [finish, endNumber] at h
  -- completing a number inside of a frame leaves the frame open, and then the text is unfinished
  cases stack with
  | nil => rfl
  | cons frame stack => cases frame <;> split_ifs at h <;> cases h

/-- The end of a text within brackets is seen at the delimiter behind it. -/
theorem run_finish {s : State} {form : Form} (h : finish .formOnly s = .ok form)
    (outer : List Frame) {c : Char} (hc : IsDelimiter c) (rest : List (Option Char)) :
    run d (s.within outer) (some c :: rest)
      = (finish (d.within outer.length) s).toOption.bind
          fun form => run d (complete outer form) (some c :: rest) := by
  -- only two modes may end a text: a value is complete already, or a number is completed by its end
  obtain ⟨stack, mode⟩ := s
  cases mode with
  | done form' => rfl
  | number phase literal =>
    obtain rfl : stack = [] := eq_nil_of_finish_number h
    have hnext : phase.next? c = none := next?_delimiter hc phase
    have hmay : phase.MayEnd = true := by
      simp only [finish] at h
      split_ifs at h with hmay
      exact hmay
    -- without brackets the end of the text ends the number, within them the delimiter does
    have hembedded := endNumber_within (d := d) [] outer phase literal
    have hstep : step d (State.within ⟨[], .number phase literal⟩ outer) (some c)
        = (endNumber d ([] ++ outer) phase literal).bind (stepAfterValue · c) := by
      simp only [step, State.within, hnext]
    rw [run, hstep, hembedded, finish]
    simp only [if_pos hmay]
    cases hnumber : endNumber (d.within outer.length) [] phase literal with
    | none => rfl
    | some s' =>
      obtain rfl : s' = complete [] (.number (String.ofList literal.reverse)) := by
        unfold endNumber at hnumber
        split_ifs at hnumber
        exact (Option.some.inj hnumber).symm
      show _ = run d (complete outer _) (some c :: rest)
      rw [run, step_complete]
      rfl
  | _ => cases h

end Automaton

/-- The text is JSON, whatever else a reading may demand. -/
def IsText (text : String) : Prop :=
  ∃ form, Form.ofText .formOnly text = .ok form

namespace Automaton

variable {d : Demands} {text : String}

/-- **A text within brackets** is read as it is without them, up to the delimiter behind it. -/
theorem run_embedded (h : IsText text) (outer : List Frame) {c : Char} (hc : IsDelimiter c)
    (rest : List (Option Char)) :
    run d ⟨outer, .value⟩ (symbols text ++ some c :: rest)
      = (Form.of? (d.within outer.length) text).bind
          fun form => run d (complete outer form) (some c :: rest) := by
  obtain ⟨form, hform⟩ := h
  have hread := Form.of?_eq_some.mpr hform
  rw [Form.of?_eq_bind] at hread ⊢
  obtain ⟨s, hrun, hfinish⟩ := Option.bind_eq_some_iff.mp hread
  -- first the symbols of the text, one step at a time, then the delimiter
  have hwithin : run d ⟨outer, .value⟩ (symbols text)
      = (run (d.within outer.length) start (symbols text)).map (·.within outer) :=
    run_within outer (by rw [hrun]; exact Option.some_ne_none s)
  rw [run_append, hwithin]
  cases hdemands : run (d.within outer.length) start (symbols text) with
  | none => rfl
  | some s' =>
    obtain rfl : s' = s := Option.some.inj ((run_formOnly hdemands).symm.trans hrun)
    rw [Form.ofText, readSymbols, hrun] at hform
    exact run_finish hform outer hc rest

/-- The first item of an array is read as the others are. -/
theorem run_firstItem_embedded (h : IsText text) (outer : List Frame) (rest : List (Option Char)) :
    run d ⟨outer, .firstItem⟩ (symbols text ++ rest)
      = run d ⟨.array [] :: outer, .value⟩ (symbols text ++ rest) := by
  obtain ⟨form, hform⟩ := h
  rw [Form.ofText] at hform
  generalize symbols text = cs at hform ⊢
  induction cs with
  -- a text begins with something that is no blank and does not close the array
  | nil => cases hform
  | cons c? cs ih =>
    rw [readSymbols, run] at hform
    cases c? with
    | none => cases hform
    | some c =>
      by_cases hblank : IsBlank c
      -- a blank in front of the text changes neither state
      · have hvalue (d' : Demands) (stack : List Frame) :
            step d' ⟨stack, .value⟩ (some c) = some ⟨stack, .value⟩ := if_pos hblank
        have hfirst : step d ⟨outer, .firstItem⟩ (some c) = some ⟨outer, .firstItem⟩ :=
          if_pos hblank
        rw [start, hvalue] at hform
        rw [List.cons_append, run, run, hvalue, hfirst]
        exact ih hform
      -- its first character begins a value; a closing bracket would, but begins no text
      · have hvalue (d' : Demands) (stack : List Frame) :
            step d' ⟨stack, .value⟩ (some c) = beginValue d' stack c := if_neg hblank
        have hend : c ≠ ']' := by
          rintro rfl
          cases hform
        have hfirst : step d ⟨outer, .firstItem⟩ (some c)
            = beginValue d (.array [] :: outer) c := (if_neg hblank).trans (if_neg hend)
        rw [List.cons_append, run, run, hvalue, hfirst]

end Automaton

end CanonicalQuery.Json
