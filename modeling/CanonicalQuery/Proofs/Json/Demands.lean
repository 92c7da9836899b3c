import CanonicalQuery.Json.Text
import Mathlib.Tactic.SplitIfs

/-!
# What demanding readings give

A reading that demands more than the grammar of a text refuses more texts, but what it does read it
reads as every other reading would.  And where it limits how deep brackets nest, the form that it
gives nests no deeper.

The machine is followed symbol by symbol: each step of a demanding reading is a step of the reading
for the form alone, and each step keeps the forms in the open brackets within the limit.

## Main definitions

- `Form.depth`: how deep arrays and objects nest in a form.
- `Automaton.State.Within`: what a reading holds so far fits into a limit of depth.

## Main statements

- `readSymbols_formOnly`: a text that is read is read for the form alone to the same form.
- `readSymbols_depth_le`: a form nests no deeper than the reading allows.
- `Form.eq_form_of_value?`: a form that has a value is the form of this value.
- `Value.ofText_eq_ok`: what is behind the sorted value of a text.
-/

namespace CanonicalQuery.Json

/-! ## §1 Depth and values of forms -/

namespace Form

/-- The greatest number of arrays and objects around a place of the form, that place's own brackets
counted. -/
def depth : Form → Nat
  | .null => 0
  | .bool _ => 0
  | .number _ => 0
  | .string _ => 0
  | .array items => depthItems items + 1
  | .object members => depthMembers members + 1
where
  depthItems : List Form → Nat
    | [] => 0
    | f :: fs => max (depth f) (depthItems fs)
  depthMembers : List (Option String × Form) → Nat
    | [] => 0
    | (_, f) :: rest => max (depth f) (depthMembers rest)

/-- Items nest no deeper than a bound if each of them does not. -/
theorem depthItems_le {fs : List Form} {n : Nat} :
    depth.depthItems fs ≤ n ↔ ∀ f ∈ fs, f.depth ≤ n := by
  induction fs with
  | nil => simp [depth.depthItems]
  | cons f fs ih => simp [depth.depthItems, Nat.max_le, ih]

/-- The same for members. -/
theorem depthMembers_le {ms : List (Option String × Form)} {n : Nat} :
    depth.depthMembers ms ≤ n ↔ ∀ m ∈ ms, m.2.depth ≤ n := by
  induction ms with
  | nil => simp [depth.depthMembers]
  | cons m ms ih =>
    obtain ⟨key, f⟩ := m
    simp [depth.depthMembers, Nat.max_le, ih]

mutual

/-- A form that has a value is the form of this value. -/
theorem eq_form_of_value? : ∀ {f : Form} {v : Value}, f.value? = some v → f = v.form
  | .null, v, h => by
    cases h
    rfl
  | .bool b, v, h => by
    cases h
    rfl
  | .number n, v, h => by
    cases h
    rfl
  -- a string without a value has none, so the form comes from a text
  | .string text, v, h => by
    obtain ⟨s, rfl, rfl⟩ := Option.map_eq_some_iff.mp h
    rfl
  | .array items, v, h => by
    obtain ⟨vs, hvs, rfl⟩ := Option.map_eq_some_iff.mp h
    rw [Value.form, eq_itemForms_of_itemValues? hvs]
  | .object members, v, h => by
    obtain ⟨ms, hms, rfl⟩ := Option.map_eq_some_iff.mp h
    rw [Value.form, eq_memberForms_of_memberValues? hms]

/-- The companion for the items of an array. -/
theorem eq_itemForms_of_itemValues? : ∀ {fs : List Form} {vs : List Value},
    value?.itemValues? fs = some vs → fs = Value.form.itemForms vs
  | [], vs, h => by
    cases h
    rfl
  | f :: fs, vs, h => by
    rw [value?.itemValues?] at h
    split at h
    · next v vs' hv hvs =>
      cases h
      rw [Value.form.itemForms, eq_form_of_value? hv, eq_itemForms_of_itemValues? hvs]
    · cases h

/-- The companion for the members of an object; a key without a value gives none. -/
theorem eq_memberForms_of_memberValues? :
    ∀ {ms : List (Option String × Form)} {vs : List (String × Value)},
      value?.memberValues? ms = some vs → ms = Value.form.memberForms vs
  | [], vs, h => by
    cases h
    rfl
  | (none, _) :: _, vs, h => by cases h
  -- ms, vs, h => by
  | (some key, f) :: ms, vs, h => by
    cases hv : value? f with
    | none => simp [value?.memberValues?, hv] at h
    | some v =>
      cases hvs : value?.memberValues? ms with
      | none => simp [value?.memberValues?, hvs] at h
      | some vs' =>
        simp only [value?.memberValues?, hv, hvs] at h
        cases h
        rw [Value.form.memberForms, eq_form_of_value? hv, eq_memberForms_of_memberValues? hvs]

end

end Form

/-! ## §2 Strings -/

namespace Quoted

/-! A strict reading of a string refuses more, and does nothing else that is its own. -/

variable {strict : Bool} {text : Option (List Char)}

/-- The one thing a strict reading refuses between the quotes is the end of a string that has no
value. -/
theorem stepPlain_lax {c : Char} (h : stepPlain strict text c ≠ .refused) :
    stepPlain false text c = stepPlain strict text c := by
  by_cases hquote : c = '"'
  · simp only [stepPlain, if_pos hquote] at h ⊢
    cases text with
    | none =>
      cases strict with
      | false => rfl
      | true => exact absurd rfl h
    | some chars => rfl
  · simp only [stepPlain, if_neg hquote]

/-- A unit on its own is refused for being a trailing surrogate, or not at all. -/
theorem unitAlone_lax {unit : Nat} (h : unitAlone strict text unit ≠ .refused) :
    unitAlone false text unit = unitAlone strict text unit := by
  cases strict with
  | false => rfl
  | true =>
    by_cases htrailing : ¬ IsLeading unit ∧ IsTrailing unit
    · simp only [unitAlone, if_neg htrailing.1, if_pos htrailing.2, if_true] at h
      exact absurd rfl h
    · by_cases hleading : IsLeading unit
      · simp only [unitAlone, if_pos hleading]
      · simp only [unitAlone, if_neg hleading, if_neg fun h => htrailing ⟨hleading, h⟩]

/-- Behind a leading surrogate a strict reading insists on a trailing one. -/
theorem stepUnit_lax {leading : Option Nat} {unit : Nat}
    (h : stepUnit strict text leading unit ≠ .refused) :
    stepUnit false text leading unit = stepUnit strict text leading unit := by
  cases leading with
  | none => exact unitAlone_lax h
  | some first =>
    cases strict with
    | false => rfl
    | true =>
      by_cases htrailing : IsTrailing unit
      · simp only [stepUnit, if_pos htrailing]
      · simp only [stepUnit, if_neg htrailing, if_true] at h
        exact absurd rfl h

/-- Hexadecimal digits are gathered alike; only the unit that they make may be refused. -/
theorem stepHex_lax {digits : List (Option Char)} {leading : Option Nat} {c? : Option Char}
    (h : stepHex strict text digits leading c? ≠ .refused) :
    stepHex false text digits leading c? = stepHex strict text digits leading c? := by
  simp only [stepHex] at h ⊢
  by_cases hfew : octets (digits ++ [c?]) < 4
  · simp only [if_pos hfew]
  · simp only [if_neg hfew] at h ⊢
    split at h
    · exact stepUnit_lax h
    · rfl

/-- What a strict step does, a lax step does too. -/
theorem step_lax {s : State} {c? : Option Char} (h : step strict s c? ≠ .refused) :
    step false s c? = step strict s c? := by
  -- one case per phase of the string, the two phases between surrogates last
  obtain ⟨phase, text⟩ := s
  cases phase with
  | hex digits leading => exact stepHex_lax h
  | plain =>
    cases c? with
    | none => rfl
    | some c => exact stepPlain_lax h
  | escape => cases c? <;> rfl
  -- behind a leading surrogate a strict reading only goes on with another escape
  | leading unit =>
    cases c? with
    | none => rfl
    | some c =>
      unfold step at h ⊢
      by_cases hback : c = '\\'
      · simp only [if_pos hback]
      · cases strict with
        | false => rfl
        | true => exact absurd (by simp only [if_neg hback, if_true]) h
  | leadingEscape unit =>
    cases c? with
    | none => rfl
    | some c =>
      unfold step at h ⊢
      by_cases hu : c = 'u'
      · simp only [if_pos hu]
      · cases strict with
        | false => rfl
        | true => exact absurd (by simp only [if_neg hu, if_true]) h

end Quoted

namespace Automaton

variable {d : Demands} {s s' : State}

/-! ## §3 The same form without the demands -/

/-- Without a limit there is room for any bracket. -/
theorem hasRoom_formOnly (stack : List Frame) : Demands.HasRoom .formOnly stack := by
  intro limit hlimit
  cases hlimit

/-- What the first character of a value leads to. -/
inductive Begins (d : Demands) (stack : List Frame) : Char → Mode → Prop where
  | string : Begins d stack '"' (.string .value Quoted.start)
  | array : Demands.HasRoom d stack → Begins d stack '[' .firstItem
  | object : Demands.HasRoom d stack → Begins d stack '\x7b' .firstKey
  | word {c next : Char} {rest : List Char} {form : Form} : form.depth = 0 →
      (∀ d' : Demands, beginValue d' stack c = some ⟨stack, .word next rest form⟩) →
      Begins d stack c (.word next rest form)
  | number {c : Char} {phase : NumberPhase} :
      (∀ d' : Demands, beginValue d' stack c = some ⟨stack, .number phase [c]⟩) →
      Begins d stack c (.number phase [c])

/-- The state in which a value begins keeps the stack and is one of the five kinds above. -/
theorem begins_of_beginValue {stack : List Frame} {c : Char}
    (h : beginValue d stack c = some s') : s'.stack = stack ∧ Begins d stack c s'.mode := by
  -- The tests are gone through in the order of the definition.  A fixed first character decides its
  -- branch by computation, so each case below substitutes it.
  by_cases hquote : c = '"'
  · subst hquote
    cases h
    exact ⟨rfl, .string⟩
  by_cases hbracket : c = '['
  · subst hbracket
    -- brackets are the only beginnings that look at the demands
    change (if Demands.HasRoom d stack then some ⟨stack, .firstItem⟩ else none) = some s' at h
    split_ifs at h with hroom
    cases h
    exact ⟨rfl, .array hroom⟩
  by_cases hbrace : c = '\x7b'
  · subst hbrace
    change (if Demands.HasRoom d stack then some ⟨stack, .firstKey⟩ else none) = some s' at h
    split_ifs at h with hroom
    cases h
    exact ⟨rfl, .object hroom⟩
  by_cases hn : c = 'n'
  · subst hn
    cases h
    exact ⟨rfl, .word rfl fun _ => rfl⟩
  by_cases ht : c = 't'
  · subst ht
    cases h
    exact ⟨rfl, .word rfl fun _ => rfl⟩
  by_cases hf : c = 'f'
  · subst hf
    cases h
    exact ⟨rfl, .word rfl fun _ => rfl⟩
  by_cases hminus : c = '-'
  · subst hminus
    cases h
    exact ⟨rfl, .number fun _ => rfl⟩
  by_cases hzero : c = '0'
  · subst hzero
    cases h
    exact ⟨rfl, .number fun _ => rfl⟩
  -- the digits are a class of characters, so here the failed tests have to be rewritten one by one
  by_cases hdigit : c.isDigit
  · have hbegin : ∀ d' : Demands, beginValue d' stack c = some ⟨stack, .number .whole [c]⟩ := by
      intro d'
      rw [beginValue, if_neg hquote, if_neg hbracket, if_neg hbrace, if_neg hn, if_neg ht,
        if_neg hf, if_neg hminus, if_neg hzero, if_pos hdigit]
    rw [hbegin] at h
    cases h
    exact ⟨rfl, .number hbegin⟩
  · rw [beginValue, if_neg hquote, if_neg hbracket, if_neg hbrace, if_neg hn, if_neg ht,
      if_neg hf, if_neg hminus, if_neg hzero, if_neg hdigit] at h
    cases h

/-- A value that begins under some demands begins without them. -/
theorem beginValue_formOnly {stack : List Frame} {c : Char} (h : beginValue d stack c = some s') :
    beginValue .formOnly stack c = some s' := by
  obtain ⟨hstack, hmode⟩ := begins_of_beginValue h
  obtain ⟨stack', mode⟩ := s'
  cases hstack
  have hroom : Demands.HasRoom .formOnly stack' := hasRoom_formOnly stack'
  -- strings, words and numbers begin alike under all demands; brackets need room
  cases hmode with
  | string => rfl
  | array =>
    show (if Demands.HasRoom .formOnly stack' then some _ else none) = _
    exact if_pos hroom
  | object =>
    show (if Demands.HasRoom .formOnly stack' then some _ else none) = _
    exact if_pos hroom
  | word _ hbegin => exact hbegin .formOnly
  | number hbegin => exact hbegin .formOnly

/-- A number that ends under some demands ends without them. -/
theorem endNumber_formOnly {stack : List Frame} {phase : NumberPhase} {literal : List Char}
    (h : endNumber d stack phase literal = some s') :
    endNumber .formOnly stack phase literal = some s' := by
  unfold endNumber at h ⊢
  split_ifs at h with hend
  rw [if_pos ⟨hend.1, fun hstrict => by cases hstrict⟩]
  exact h

/-- A step of a string under some demands is one without them. -/
theorem stepString_formOnly {stack : List Frame} {purpose : Purpose} {q : Quoted.State}
    {c? : Option Char} (h : stepString d stack purpose q c? = some s') :
    stepString .formOnly stack purpose q c? = some s' := by
  have hread : Quoted.step d.strict q c? ≠ .refused := by
    intro hrefused
    unfold stepString at h
    rw [hrefused] at h
    cases h
  unfold stepString at h ⊢
  rw [show Demands.formOnly.strict = false from rfl, Quoted.step_lax hread]
  exact h

/-- A step under some demands is a step of the reading for the form alone. -/
theorem step_formOnly {c? : Option Char} (h : step d s c? = some s') :
    step .formOnly s c? = some s' := by
  -- the four modes that look at the demands come first
  obtain ⟨stack, mode⟩ := s
  cases mode with
  | string purpose q => cases c? <;> exact stepString_formOnly h
  | value =>
    cases c? with
    | none => cases h
    | some c =>
      simp only [step] at h ⊢
      split_ifs at h ⊢ with hblank
      · exact h
      · exact beginValue_formOnly h
  | firstItem =>
    cases c? with
    | none => cases h
    | some c =>
      simp only [step] at h ⊢
      split_ifs at h ⊢ with hblank hend
      · exact h
      · exact h
      · exact beginValue_formOnly h
  | number phase literal =>
    cases c? with
    | none => cases h
    | some c =>
      simp only [step] at h ⊢
      split at h
      · exact h
      -- the symbol ends the number and is read once more behind it
      · obtain ⟨next, hnext, hafter⟩ := Option.bind_eq_some_iff.mp h
        rw [endNumber_formOnly hnext]
        exact hafter
  -- no other step looks at the demands
  | firstKey => cases c? <;> exact h
  | key members => cases c? <;> exact h
  | colon members key => cases c? <;> exact h
  | word next rest form => cases c? <;> exact h
  | afterItem items => cases c? <;> exact h
  | afterMember members => cases c? <;> exact h
  | done form => cases c? <;> exact h

/-- A run under some demands is a run of the reading for the form alone. -/
theorem run_formOnly {symbols : List (Option Char)} (h : run d s symbols = some s') :
    run .formOnly s symbols = some s' := by
  induction symbols generalizing s with
  | nil => exact h
  | cons c? symbols ih =>
    rw [run] at h ⊢
    split at h
    · next next hstep =>
      rw [step_formOnly hstep]
      exact ih h
    · cases h

/-- A text that may end under some demands may end without them. -/
theorem finish_formOnly {form : Form} (h : finish d s = .ok form) :
    finish .formOnly s = .ok form := by
  obtain ⟨stack, mode⟩ := s
  cases mode with
  | number phase literal =>
    simp only [finish] at h ⊢
    split_ifs at h ⊢ with hend
    split at h
    · next outer form' hnumber =>
      rw [endNumber_formOnly hnumber]
      exact h
    · cases h
    · cases h
  | done form' => exact h
  -- nowhere else may a text end
  | value => cases h
  | firstItem => cases h
  | afterItem items => cases h
  | firstKey => cases h
  | key members => cases h
  | colon members key => cases h
  | afterMember members => cases h
  | word next rest form' => cases h
  | string purpose q => cases h

end Automaton

/-- What a reading gives does not depend on its demands. -/
theorem readSymbols_formOnly {d : Demands} {symbols : List (Option Char)} {form : Form}
    (h : readSymbols d symbols = .ok form) : readSymbols .formOnly symbols = .ok form := by
  rw [readSymbols] at h ⊢
  split at h
  · next s hrun =>
    rw [Automaton.run_formOnly hrun]
    exact Automaton.finish_formOnly h
  · cases h

namespace Automaton

variable {d : Demands} {s s' : State} {limit : Nat}

/-! ## §4 No deeper than the limit -/

/-- The depth of what an open bracket holds so far. -/
def Frame.depth : Frame → Nat
  | .array items => Form.depth.depthItems items
  | .member members _ => Form.depth.depthMembers members

/-- What is held in the open brackets fits into a limit, with the brackets around it counted. -/
def StackWithin (limit : Nat) : List Frame → Prop
  | [] => True
  | frame :: outer => outer.length + 1 + frame.depth ≤ limit ∧ StackWithin limit outer

/-- The depth of what is held behind the open brackets. -/
def Mode.depth : Mode → Nat
  | .value => 0
  | .firstItem => 1
  | .afterItem items => Form.depth.depthItems items + 1
  | .firstKey => 1
  | .key members => Form.depth.depthMembers members + 1
  | .colon members _ => Form.depth.depthMembers members + 1
  | .afterMember members => Form.depth.depthMembers members + 1
  | .word _ _ form => form.depth
  | .number _ _ => 0
  | .string .value _ => 0
  | .string (.key members) _ => Form.depth.depthMembers members + 1
  | .done form => form.depth

/-- All that a reading holds so far fits into a limit of depth. -/
structure State.Within (limit : Nat) (s : State) : Prop where
  stack : StackWithin limit s.stack
  mode : s.stack.length + s.mode.depth ≤ limit

/-- A completed value fits, because it was counted with the brackets around it before. -/
theorem within_complete {stack : List Frame} {form : Form} (hstack : StackWithin limit stack)
    (hform : stack.length + form.depth ≤ limit) : (complete stack form).Within limit := by
  match stack with
  | [] => exact ⟨trivial, hform⟩
  -- outer =>
  | .array items :: outer =>
    obtain ⟨hitems, houter⟩ := hstack
    refine ⟨houter, ?_⟩
    simp only [Frame.depth, List.length_cons] at hitems hform
    simp only [complete, Mode.depth, Form.depth.depthItems]
    omega
  | .member members key :: outer =>
    obtain ⟨hmembers, houter⟩ := hstack
    refine ⟨houter, ?_⟩
    simp only [Frame.depth, List.length_cons] at hmembers hform
    simp only [complete, Mode.depth, Form.depth.depthMembers]
    omega

/-- A bracket is opened only if there is room for it. -/
theorem within_beginValue (hlimit : d.depth = some limit) {stack : List Frame} {c : Char}
    (hstack : StackWithin limit stack) (hlength : stack.length ≤ limit)
    (h : beginValue d stack c = some s') : s'.Within limit := by
  obtain ⟨hsame, hmode⟩ := begins_of_beginValue h
  obtain ⟨stack', mode⟩ := s'
  cases hsame
  refine ⟨hstack, ?_⟩
  show stack'.length + mode.depth ≤ limit
  -- only the brackets ask for room; a word has no depth, nor has a string or a number
  cases hmode with
  | string => exact hlength
  | array hroom => exact hroom limit hlimit
  | object hroom => exact hroom limit hlimit
  | word hdepth _ =>
    rw [Mode.depth, hdepth]
    exact hlength
  | number _ => exact hlength

/-- A number is as deep as the place where it stands. -/
theorem within_endNumber {stack : List Frame} {phase : NumberPhase} {literal : List Char}
    (hstack : StackWithin limit stack) (hlength : stack.length ≤ limit)
    (h : endNumber d stack phase literal = some s') : s'.Within limit := by
  unfold endNumber at h
  split_ifs at h
  cases h
  exact within_complete hstack hlength

/-- Items are held newest first; turning them round does not change their depth. -/
theorem depth_reverse_items (items : List Form) :
    (Form.array items.reverse).depth ≤ Form.depth.depthItems items + 1 := by
  have hreverse : Form.depth.depthItems items.reverse ≤ Form.depth.depthItems items := by
    refine Form.depthItems_le.mpr fun f hf => ?_
    exact Form.depthItems_le.mp (Nat.le_refl _) f (List.mem_reverse.mp hf)
  simpa [Form.depth] using hreverse

/-- The same for members. -/
theorem depth_reverse_members (members : List (Option String × Form)) :
    (Form.object members.reverse).depth ≤ Form.depth.depthMembers members + 1 := by
  have hreverse : Form.depth.depthMembers members.reverse ≤ Form.depth.depthMembers members := by
    refine Form.depthMembers_le.mpr fun m hm => ?_
    exact Form.depthMembers_le.mp (Nat.le_refl _) m (List.mem_reverse.mp hm)
  simpa [Form.depth] using hreverse

/-- What follows a value stays within the limit. -/
theorem within_stepAfterValue {c : Char} (hs : s.Within limit)
    (h : stepAfterValue s c = some s') : s'.Within limit := by
  obtain ⟨stack, mode⟩ := s
  have hstack : StackWithin limit stack := hs.stack
  have hmode : stack.length + mode.depth ≤ limit := hs.mode
  by_cases hblank : IsBlank c
  · rw [stepAfterValue, if_pos hblank] at h
    cases h
    exact hs
  · rw [stepAfterValue, if_neg hblank] at h
    cases mode with
    | afterItem items =>
      have hdepth := depth_reverse_items items
      simp only [Mode.depth] at hmode h
      split_ifs at h
      -- a comma opens the array again, a bracket closes it
      · cases h
        refine ⟨⟨?_, hstack⟩, ?_⟩
        · simp only [Frame.depth]
          omega
        · simp only [List.length_cons, Mode.depth]
          omega
      · cases h
        exact within_complete hstack (by omega)
    | afterMember members =>
      have hdepth := depth_reverse_members members
      simp only [Mode.depth] at hmode h
      split_ifs at h
      -- the same for an object, whose next key does not open a frame yet
      · cases h
        exact ⟨hstack, hmode⟩
      · cases h
        exact within_complete hstack (by omega)
    | _ => cases h

/-- A string has no depth of its own, so only closing it moves anything. -/
theorem within_stepString {stack : List Frame} {purpose : Purpose} {q : Quoted.State}
    {c? : Option Char} (hs : State.Within limit ⟨stack, .string purpose q⟩)
    (h : stepString d stack purpose q c? = some s') : s'.Within limit := by
  obtain ⟨hstack, hmode⟩ := hs
  unfold stepString at h
  -- how the string goes on does not matter, but whether it goes on does
  generalize Quoted.step d.strict q c? = progress at h
  cases progress with
  | more q' =>
    cases h
    cases purpose <;> exact ⟨hstack, hmode⟩
  | closed text =>
    cases purpose with
    | value =>
      cases h
      exact within_complete hstack hmode
    | key members =>
      cases h
      exact ⟨hstack, hmode⟩
  | refused => cases purpose <;> cases h

/-- Every step stays within the limit. -/
theorem within_step (hlimit : d.depth = some limit) {c? : Option Char} (hs : s.Within limit)
    (h : step d s c? = some s') : s'.Within limit := by
  obtain ⟨stack, mode⟩ := s
  have hstack : StackWithin limit stack := hs.stack
  have hmode : stack.length + mode.depth ≤ limit := hs.mode
  -- a stray octet is read inside of strings only
  cases c? with
  | none =>
    cases mode with
    | string purpose q => exact within_stepString hs h
    | _ => cases h
  | some c =>
    cases mode with
    | string purpose q => exact within_stepString hs h
    -- `hmode` says that the brackets around this place fit; a new one is opened only if there is
    -- room
    | value =>
      simp only [step] at h
      split_ifs at h
      · cases h
        exact hs
      · exact within_beginValue hlimit hstack hmode h
    | firstItem =>
      simp only [step] at h
      split_ifs at h
      · cases h
        exact hs
      · cases h
        exact within_complete hstack hmode
      -- stack) := ⟨hmode, hstack⟩
      · have hinside : StackWithin limit (.array [] :: stack) := ⟨hmode, hstack⟩
        exact within_beginValue hlimit hinside hmode h
    | firstKey =>
      simp only [step] at h
      split_ifs at h
      · cases h
        exact hs
      · cases h
        exact ⟨hstack, hmode⟩
      · cases h
        exact within_complete hstack hmode
    | key members =>
      simp only [step] at h
      split_ifs at h
      · cases h
        exact hs
      · cases h
        exact ⟨hstack, hmode⟩
    | colon members key =>
      simp only [step] at h
      split_ifs at h
      · cases h
        exact hs
      · cases h
        simp only [Mode.depth] at hmode
        -- the members so far go onto the stack, where their bracket is counted by the length
        refine ⟨⟨?_, hstack⟩, ?_⟩
        · simp only [Frame.depth]
          omega
        · simp only [List.length_cons, Mode.depth]
          omega
    | word next rest form =>
      simp only [step] at h
      split_ifs at h
      cases rest with
      | nil =>
        cases h
        exact within_complete hstack hmode
      | cons next rest =>
        cases h
        exact ⟨hstack, hmode⟩
    | number phase literal =>
      simp only [step] at h
      split at h
      · cases h
        exact ⟨hstack, hmode⟩
      -- ending the number and reading the symbol behind it are two steps in one
      · obtain ⟨next, hnext, hafter⟩ := Option.bind_eq_some_iff.mp h
        exact within_stepAfterValue (within_endNumber hstack hmode hnext) hafter
    | afterItem items => exact within_stepAfterValue hs h
    | afterMember members => exact within_stepAfterValue hs h
    | done form => exact within_stepAfterValue hs h

/-- A run stays within the limit, since each of its steps does. -/
theorem within_run (hlimit : d.depth = some limit) {symbols : List (Option Char)}
    (hs : s.Within limit) (h : run d s symbols = some s') : s'.Within limit := by
  induction symbols generalizing s with
  | nil =>
    cases h
    exact hs
  | cons c? symbols ih =>
    rw [run] at h
    split at h
    · next next hstep => exact ih (within_step hlimit hs hstep) h
    · cases h

/-- The form that a text ends with is what was held last. -/
theorem depth_le_of_finish {form : Form} (hs : s.Within limit) (h : finish d s = .ok form) :
    form.depth ≤ limit := by
  obtain ⟨stack, mode⟩ := s
  have hstack : StackWithin limit stack := hs.stack
  have hmode : stack.length + mode.depth ≤ limit := hs.mode
  have hdone : ∀ {outer : List Frame} {form' : Form},
      State.Within limit ⟨outer, .done form'⟩ → form'.depth ≤ limit := by
    intro outer form' hwithin
    have hle : outer.length + form'.depth ≤ limit := hwithin.mode
    omega
  -- a number is completed first, which keeps the limit; all other modes are unfinished
  cases mode with
  | number phase literal =>
    simp only [finish] at h
    split_ifs at h
    split at h
    · next outer form' hnumber =>
      cases h
      exact hdone (within_endNumber hstack hmode hnumber)
    · cases h
    · cases h
  | done form' =>
    cases h
    exact hdone hs
  | _ => cases h

end Automaton

/-- A form nests no deeper than its reading allows. -/
theorem readSymbols_depth_le {d : Demands} {limit : Nat} (hlimit : d.depth = some limit)
    {symbols : List (Option Char)} {form : Form} (h : readSymbols d symbols = .ok form) :
    form.depth ≤ limit := by
  have hstart : Automaton.start.Within limit := ⟨trivial, Nat.zero_le limit⟩
  rw [readSymbols] at h
  split at h
  · next s hrun =>
    exact Automaton.depth_le_of_finish (Automaton.within_run hlimit hstart hrun) h
  · cases h

/-! ## §5 Whole texts -/

/-- A text that has a value is, for every reading of its form, the form of a value that nests at
most 127 deep; its own value is that one sorted. -/
theorem Value.ofText_eq_ok {text : String} {v : Value} (h : Value.ofText text = .ok v) :
    ∃ w : Value, v = w.sorted ∧ Form.ofText .standard text = .ok w.form ∧
      Form.ofText .formOnly text = .ok w.form ∧ w.form.depth ≤ 127 := by
  rw [Value.ofText, Value.ofSymbols] at h
  cases hread : readSymbols .standard (symbols text) with
  | error failure =>
    rw [hread] at h
    cases h
  | ok f =>
    rw [hread] at h
    change f.toValue = .ok v at h
    rw [Form.toValue] at h
    split at h
    -- a form that has a value is the form of that value, so one value stands for both
    · next w hw =>
      cases h
      obtain rfl := Form.eq_form_of_value? hw
      exact ⟨w, rfl, hread, readSymbols_formOnly hread, readSymbols_depth_le rfl hread⟩
    · cases h

end CanonicalQuery.Json
