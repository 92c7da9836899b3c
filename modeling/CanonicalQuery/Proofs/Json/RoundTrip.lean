import CanonicalQuery.Json.Text
import CanonicalQuery.Proofs.Text.Pieces
import Mathlib.Logic.Basic
import Mathlib.Tactic.SplitIfs

/-!
# Written values are read back

The reader goes over the text of a value as one value, wherever the text stands: behind it the
reader is where the complete value takes it, and what stands around the text does not matter.  The
only thing that can stop it is a limit of depth, and that happens exactly when the value nests
deeper than the brackets around it leave room for.

Numbers are left out.  Where a number ends is seen only behind it, and a value may hold a literal
that is none.

## Main definitions

- `Value.Numberless`: values without numbers.
- `Demands.Allows`: a number of brackets that may be open at once.

## Main statements

- `Automaton.run_write`: a string is read back between its quotes.
- `Automaton.run_text`: a value is read back within any text.
- `Value.ofText_text`: reading the text of a value, limit of depth included.
-/

namespace CanonicalQuery.Json

/-! ## §1 Values without numbers -/

namespace Value

mutual

/-- No number occurs in the value. -/
def Numberless : Value → Prop
  | .null => True
  | .bool _ => True
  | .number _ => False
  | .string _ => True
  | .array items => NumberlessItems items
  | .object members => NumberlessMembers members

/-- No number occurs in the items of an array. -/
def NumberlessItems : List Value → Prop
  | [] => True
  | v :: vs => Numberless v ∧ NumberlessItems vs

/-- No number occurs in the values of an object. -/
def NumberlessMembers : List (String × Value) → Prop
  | [] => True
  | (_, v) :: rest => Numberless v ∧ NumberlessMembers rest

end

end Value

/-! ## §2 Symbols of texts -/

/-- The symbols of two texts follow each other. -/
theorem symbols_append (s t : String) : symbols (s ++ t) = symbols s ++ symbols t := by
  simp [symbols]

/-- The symbols of texts with a separator in front of each. -/
theorem symbols_join (separator : String) (texts : List String) :
    symbols (String.join (texts.map (separator ++ ·)))
      = texts.flatMap fun t => symbols separator ++ symbols t := by
  induction texts with
  | nil => rfl
  | cons t texts ih =>
    rw [List.map_cons, String.join_cons, symbols_append, symbols_append, ih, List.flatMap_cons]

/-- The quotes around a string and the symbols between them. -/
theorem symbols_write (s : String) :
    symbols (Quoted.write s)
      = some '"' :: ((s.toList.flatMap Quoted.escape).map some ++ [some '"']) := by
  simp [symbols, Quoted.write]

/-- Behind the first item of an array: the others, a comma before each, and the bracket. -/
def itemSymbols (vs : List Value) : List (Option Char) :=
  vs.flatMap (fun v => some ',' :: symbols v.text) ++ [some ']']

/-- A member of an object: its key between quotes, a colon and its value. -/
def memberSymbols (m : String × Value) : List (Option Char) :=
  some '"' :: ((m.1.toList.flatMap Quoted.escape).map some
    ++ some '"' :: some ':' :: symbols m.2.text)

/-- Behind the first member of an object: the others, a comma before each, and the brace. -/
def membersSymbols (ms : List (String × Value)) : List (Option Char) :=
  ms.flatMap (fun m => some ',' :: memberSymbols m) ++ [some '\x7d']

/-- An array with items: its bracket, the first item, and the others behind commas. -/
theorem symbols_array_cons (v : Value) (vs : List Value) :
    symbols (Value.array (v :: vs)).text
      = some '[' :: (symbols v.text ++ itemSymbols vs) := by
  rw [Value.text, Value.itemTexts_eq_map, List.map_cons, intercalate_cons_eq_append,
    symbols_append, symbols_append, symbols_append, symbols_join, List.flatMap_map]
  simp [itemSymbols, symbols]

/-- An object with members: its brace, the first member, and the others behind commas. -/
theorem symbols_object_cons (m : String × Value) (ms : List (String × Value)) :
    symbols (Value.object (m :: ms)).text
      = some '\x7b' :: (memberSymbols m ++ membersSymbols ms) := by
  have hmember : ∀ n : String × Value,
      symbols (Quoted.write n.1 ++ ":" ++ n.2.text) = memberSymbols n := by
    intro n
    rw [symbols_append, symbols_append, symbols_write, memberSymbols]
    simp [symbols]
  rw [Value.text, Value.memberTexts_eq_map, List.map_cons, intercalate_cons_eq_append,
    symbols_append, symbols_append, symbols_append, symbols_join, List.flatMap_map]
  simp only [hmember]
  simp [membersSymbols, symbols]

/-! ## §3 Strings -/

namespace Quoted

/-- A character stands between quotes as a letter behind a backslash, as the digits of its code
behind `\u`, or as it is. -/
theorem escape_cases (c : Char) :
    (∃ letter, letter ≠ 'u' ∧ simpleEscape? letter = some c ∧ escape c = ['\\', letter]) ∨
    (c.toNat < 0x20 ∧ escape c =
      ['\\', 'u', '0', '0', Text.hexDigit (c.toNat / 16), Text.hexDigit (c.toNat % 16)]) ∨
    (c ≠ '"' ∧ c ≠ '\\' ∧ ¬ c.toNat < 0x20 ∧ escape c = [c]) := by
  -- seven characters have a letter of their own
  by_cases hquote : c = '"'
  · exact .inl ⟨'"', by decide, by rw [hquote]; rfl, by rw [hquote]; rfl⟩
  by_cases hback : c = '\\'
  · exact .inl ⟨'\\', by decide, by rw [hback]; rfl, by rw [hback]; rfl⟩
  by_cases hb : c = '\x08'
  · exact .inl ⟨'b', by decide, by rw [hb]; rfl, by rw [hb]; rfl⟩
  by_cases hf : c = '\x0c'
  · exact .inl ⟨'f', by decide, by rw [hf]; rfl, by rw [hf]; rfl⟩
  by_cases hn : c = '\n'
  · exact .inl ⟨'n', by decide, by rw [hn]; rfl, by rw [hn]; rfl⟩
  by_cases hr : c = '\r'
  · exact .inl ⟨'r', by decide, by rw [hr]; rfl, by rw [hr]; rfl⟩
  by_cases ht : c = '\t'
  · exact .inl ⟨'t', by decide, by rw [ht]; rfl, by rw [ht]; rfl⟩
  rw [escape, if_neg hquote, if_neg hback, if_neg hb, if_neg hf, if_neg hn, if_neg hr, if_neg ht]
  -- of the others the controls are written by their code
  by_cases hcode : c.toNat < 0x20
  · exact .inr (.inl ⟨hcode, if_pos hcode⟩)
  · exact .inr (.inr ⟨hquote, hback, hcode, if_neg hcode⟩)

/-- The four digits of a code below U+0020 give it back. -/
theorem hexUnit?_digits {code : Nat} (h : code < 0x20) :
    hexUnit? [some '0', some '0', some (Text.hexDigit (code / 16)),
      some (Text.hexDigit (code % 16))] = some code := by
  -- there are 32 codes to look at
  have hall : ∀ n < 0x20, hexUnit? [some '0', some '0', some (Text.hexDigit (n / 16)),
      some (Text.hexDigit (n % 16))] = some n := by decide
  exact hall code h

/-- A hexadecimal digit is a single octet. -/
theorem utf8Size_hexDigit {value : Nat} (h : value < 16) :
    (Text.hexDigit value).utf8Size = 1 := by
  have hall : ∀ n < 16, (Text.hexDigit n).utf8Size = 1 := by decide
  exact hall value h

/-- Fewer than four octets are no unit yet. -/
theorem stepHex_more (strict : Bool) (text : Option (List Char)) {digits : List (Option Char)}
    (leading : Option Nat) {c? : Option Char} (h : octets (digits ++ [c?]) < 4) :
    stepHex strict text digits leading c? = .more ⟨.hex (digits ++ [c?]) leading, text⟩ :=
  if_pos h

/-- With the fourth octet the digits are a unit. -/
theorem stepHex_unit (strict : Bool) (text : Option (List Char)) {digits : List (Option Char)}
    (leading : Option Nat) {c? : Option Char} {unit : Nat} (h : ¬ octets (digits ++ [c?]) < 4)
    (hunit : hexUnit? (digits ++ [c?]) = some unit) :
    stepHex strict text digits leading c? = stepUnit strict text leading unit := by
  unfold stepHex
  rw [if_neg h, hunit]

/-- A unit below U+0020 is no surrogate. -/
theorem unitAlone_of_lt (strict : Bool) (text : List Char) {c : Char} (h : c.toNat < 0x20) :
    unitAlone strict (some text) c.toNat = .more ⟨.plain, some (c :: text)⟩ := by
  -- surrogates begin far above U+0020
  have hleading : ¬ IsLeading c.toNat := by
    unfold IsLeading
    omega
  have htrailing : ¬ IsTrailing c.toNat := by
    unfold IsTrailing
    omega
  rw [unitAlone, if_neg hleading, if_neg htrailing, Char.ofNat_toNat]
  rfl

end Quoted

namespace Automaton

variable {d : Demands}

/-- Inside of a string every symbol is the string's own. -/
theorem step_string (stack : List Frame) (purpose : Purpose) (q : Quoted.State)
    (c? : Option Char) :
    step d ⟨stack, .string purpose q⟩ c? = stepString d stack purpose q c? := by
  cases c? with
  | none => rfl
  | some c => rfl

/-- A symbol that does not close the string leads to the next state of the string. -/
theorem run_string_more {stack : List Frame} {purpose : Purpose} {q q' : Quoted.State}
    {c? : Option Char} (h : Quoted.step d.strict q c? = .more q') (rest : List (Option Char)) :
    run d ⟨stack, .string purpose q⟩ (c? :: rest) = run d ⟨stack, .string purpose q'⟩ rest := by
  rw [run, step_string]
  unfold stepString
  rw [h]

/-- The letter behind a backslash stands for its character. -/
theorem run_simpleEscape (stack : List Frame) (purpose : Purpose) (text : List Char)
    {letter c : Char} (hu : letter ≠ 'u') (h : Quoted.simpleEscape? letter = some c)
    (rest : List (Option Char)) :
    run d ⟨stack, .string purpose ⟨.plain, some text⟩⟩ (some '\\' :: some letter :: rest)
      = run d ⟨stack, .string purpose ⟨.plain, some (c :: text)⟩⟩ rest := by
  have hback : Quoted.step d.strict ⟨.plain, some text⟩ (some '\\')
      = .more ⟨.escape, some text⟩ := rfl
  have hletter : Quoted.step d.strict ⟨.escape, some text⟩ (some letter)
      = .more ⟨.plain, some (c :: text)⟩ := by
    show Quoted.stepEscape (some text) letter = _
    rw [Quoted.stepEscape, if_neg hu, h]
    rfl
  rw [run_string_more hback, run_string_more hletter]

/-- The digits behind `\u` stand for the character with that code. -/
theorem run_codeEscape (stack : List Frame) (purpose : Purpose) (text : List Char) {c : Char}
    (h : c.toNat < 0x20) (rest : List (Option Char)) :
    run d ⟨stack, .string purpose ⟨.plain, some text⟩⟩
        (some '\\' :: some 'u' :: some '0' :: some '0' :: some (Text.hexDigit (c.toNat / 16))
          :: some (Text.hexDigit (c.toNat % 16)) :: rest)
      = run d ⟨stack, .string purpose ⟨.plain, some (c :: text)⟩⟩ rest := by
  -- the digits are generalized, because only their sizes and their unit matter below
  have hfirst := Quoted.utf8Size_hexDigit (show c.toNat / 16 < 16 by omega)
  have hsecond := Quoted.utf8Size_hexDigit (show c.toNat % 16 < 16 by omega)
  have hzero : '0'.utf8Size = 1 := rfl
  have hunit := Quoted.hexUnit?_digits h
  generalize Text.hexDigit (c.toNat / 16) = a at hfirst hunit ⊢
  generalize Text.hexDigit (c.toNat % 16) = b at hsecond hunit ⊢
  -- three digits take three octets, and so the fourth one ends the unit
  have hthree : Quoted.step d.strict ⟨.hex [some '0', some '0'] none, some text⟩ (some a)
      = .more ⟨.hex [some '0', some '0', some a] none, some text⟩ := by
    have hoctets : Quoted.octets [some '0', some '0', some a] = 3 := by
      simp [Quoted.octets, hzero, hfirst]
    have hfew : Quoted.octets ([some '0', some '0'] ++ [some a]) < 4 := by
      rw [List.cons_append, List.cons_append, List.nil_append, hoctets]
      decide
    exact Quoted.stepHex_more d.strict (some text) none hfew
  have hfour : Quoted.step d.strict ⟨.hex [some '0', some '0', some a] none, some text⟩ (some b)
      = .more ⟨.plain, some (c :: text)⟩ := by
    have hoctets : Quoted.octets [some '0', some '0', some a, some b] = 4 := by
      simp [Quoted.octets, hzero, hfirst, hsecond]
    have hall : ¬ Quoted.octets ([some '0', some '0', some a] ++ [some b]) < 4 := by
      rw [List.cons_append, List.cons_append, List.cons_append, List.nil_append, hoctets]
      decide
    exact (Quoted.stepHex_unit d.strict (some text) none hall hunit).trans
      (Quoted.unitAlone_of_lt d.strict text h)
  calc run d ⟨stack, .string purpose ⟨.plain, some text⟩⟩
        (some '\\' :: some 'u' :: some '0' :: some '0' :: some a :: some b :: rest)
      = run d ⟨stack, .string purpose ⟨.hex [some '0', some '0'] none, some text⟩⟩
          (some a :: some b :: rest) := rfl
    _ = run d ⟨stack, .string purpose ⟨.plain, some (c :: text)⟩⟩ rest := by
        rw [run_string_more hthree, run_string_more hfour]

/-- A written character is read as itself. -/
theorem run_escape (stack : List Frame) (purpose : Purpose) (text : List Char) (c : Char)
    (rest : List (Option Char)) :
    run d ⟨stack, .string purpose ⟨.plain, some text⟩⟩
        ((Quoted.escape c).map some ++ rest)
      = run d ⟨stack, .string purpose ⟨.plain, some (c :: text)⟩⟩ rest := by
  -- one case for each way in which characters are written
  obtain ⟨letter, hu, hletter, hescape⟩ | ⟨hcode, hescape⟩ | ⟨hquote, hback, hcode, hescape⟩ :=
    Quoted.escape_cases c
  · rw [hescape]
    exact run_simpleEscape stack purpose text hu hletter rest
  · rw [hescape]
    exact run_codeEscape stack purpose text hcode rest
  · have hplain : Quoted.step d.strict ⟨.plain, some text⟩ (some c)
        = .more ⟨.plain, some (c :: text)⟩ := by
      show Quoted.stepPlain d.strict (some text) c = _
      rw [Quoted.stepPlain, if_neg hquote, if_neg hback, if_neg hcode]
      rfl
    rw [hescape]
    exact run_string_more hplain rest

/-- Written characters are read as themselves; the text is held newest first. -/
theorem run_escapes (stack : List Frame) (purpose : Purpose) (chars text : List Char)
    (rest : List (Option Char)) :
    run d ⟨stack, .string purpose ⟨.plain, some text⟩⟩
        ((chars.flatMap Quoted.escape).map some ++ rest)
      = run d ⟨stack, .string purpose ⟨.plain, some (chars.reverse ++ text)⟩⟩ rest := by
  induction chars generalizing text with
  | nil => rfl
  | cons c chars ih =>
    rw [List.flatMap_cons, List.map_append, List.append_assoc, run_escape, ih,
      List.reverse_cons, List.append_assoc]
    rfl

/-- Where a string leads that is read for some purpose. -/
def afterString (stack : List Frame) (text : String) : Purpose → State
  | .value => complete stack (.string (some text))
  | .key members => ⟨stack, .colon members (some text)⟩

/-- Behind its opening quote, a string is read up to its closing quote. -/
theorem run_write (stack : List Frame) (purpose : Purpose) (s : String)
    (rest : List (Option Char)) :
    run d ⟨stack, .string purpose Quoted.start⟩
        ((s.toList.flatMap Quoted.escape).map some ++ some '"' :: rest)
      = run d (afterString stack s purpose) rest := by
  -- what is held newest first is turned round at the closing quote
  have htext : String.ofList (s.toList.reverse ++ []).reverse = s := by simp
  have hclose : Quoted.step d.strict ⟨.plain, some (s.toList.reverse ++ [])⟩ (some '"')
      = .closed (some s) := by
    rw [← congrArg (fun t => Quoted.Progress.closed (some t)) htext]
    rfl
  rw [Quoted.start, run_escapes]
  rw [run, step_string]
  unfold stepString
  rw [hclose]
  cases purpose with
  | value => rfl
  | key members => rfl

/-! ## §4 Values -/

end Automaton

/-- This many brackets may be open at once. -/
def Demands.Allows (d : Demands) (count : Nat) : Prop :=
  ∀ limit ∈ d.depth, count ≤ limit

instance (d : Demands) (count : Nat) : Decidable (d.Allows count) :=
  inferInstanceAs (Decidable (∀ _ ∈ d.depth, _))

namespace Demands

variable {d : Demands}

/-- Where many brackets may be open, so may few. -/
theorem Allows.mono {few many : Nat} (h : few ≤ many) (hmany : d.Allows many) : d.Allows few :=
  fun limit hlimit => Nat.le_trans h (hmany limit hlimit)

/-- There is room for the deeper of two parts exactly if there is room for both. -/
theorem allows_add_max {count a b : Nat} :
    d.Allows (count + max a b) ↔ d.Allows (count + a) ∧ d.Allows (count + b) := by
  constructor
  · intro h
    exact ⟨h.mono (by omega), h.mono (by omega)⟩
  · rintro ⟨ha, hb⟩ limit hlimit
    have hcounta := ha limit hlimit
    have hcountb := hb limit hlimit
    omega

end Demands

namespace Automaton

variable {d : Demands}

/-- The text of a value begins with a character that neither is a blank nor ends an array. -/
theorem exists_symbols_text (v : Value) (h : v.Numberless) :
    ∃ c rest, symbols v.text = some c :: rest ∧ ¬ IsBlank c ∧ c ≠ ']' := by
  -- each kind of value has a first character of its own; arrays and objects have theirs with items
  -- and without
  cases v with
  | null => exact ⟨'n', _, rfl, by decide, by decide⟩
  | bool b =>
    cases b with
    | true => exact ⟨'t', _, rfl, by decide, by decide⟩
    | false => exact ⟨'f', _, rfl, by decide, by decide⟩
  | number n => exact h.elim
  | string s => exact ⟨'"', _, symbols_write s, by decide, by decide⟩
  | array items =>
    cases items with
    | nil => exact ⟨'[', _, rfl, by decide, by decide⟩
    | cons v vs => exact ⟨'[', _, symbols_array_cons v vs, by decide, by decide⟩
  | object members =>
    cases members with
    | nil => exact ⟨'\x7b', _, rfl, by decide, by decide⟩
    | cons m ms => exact ⟨'\x7b', _, symbols_object_cons m ms, by decide, by decide⟩

/-- A value that is no end of the array is its first item. -/
theorem run_firstItem (stack : List Frame) (v : Value) (h : v.Numberless)
    (rest : List (Option Char)) :
    run d ⟨stack, .firstItem⟩ (symbols v.text ++ rest)
      = run d ⟨.array [] :: stack, .value⟩ (symbols v.text ++ rest) := by
  obtain ⟨c, cs, htext, hblank, hend⟩ := exists_symbols_text v h
  -- the first character is neither a blank nor the bracket that would close the array
  have hfirst : step d ⟨stack, .firstItem⟩ (some c) = beginValue d (.array [] :: stack) c :=
    (if_neg hblank).trans (if_neg hend)
  have hvalue : step d ⟨.array [] :: stack, .value⟩ (some c)
      = beginValue d (.array [] :: stack) c := if_neg hblank
  rw [htext, List.cons_append, run, run, hfirst, hvalue]

/-- An opening bracket or brace, behind which the first item or key is awaited. -/
theorem run_open (stack : List Frame) {bracket : Char} {mode : Mode}
    (h : bracket = '[' ∧ mode = .firstItem ∨ bracket = '\x7b' ∧ mode = .firstKey)
    (rest : List (Option Char)) :
    run d ⟨stack, .value⟩ (some bracket :: rest)
      = if d.Allows (stack.length + 1) then run d ⟨stack, mode⟩ rest else none := by
  -- brackets and braces ask for the same room
  have hbegin : beginValue d stack bracket
      = if d.Allows (stack.length + 1) then some ⟨stack, mode⟩ else none := by
    obtain ⟨rfl, rfl⟩ | ⟨rfl, rfl⟩ := h
    · rfl
    · rfl
  have hblank : ¬ IsBlank bracket := by
    obtain ⟨rfl, -⟩ | ⟨rfl, -⟩ := h
    · decide
    · decide
  have hstep : step d ⟨stack, .value⟩ (some bracket)
      = if d.Allows (stack.length + 1) then some ⟨stack, mode⟩ else none :=
    (if_neg hblank).trans hbegin
  rw [run, hstep]
  split_ifs with hroom
  · rfl
  · rfl

/-- Where a key may stand, a member is read up to its value. -/
theorem run_memberSymbols (stack : List Frame) {mode : Mode}
    {members : List (Option String × Form)}
    (h : step d ⟨stack, mode⟩ (some '"') = some ⟨stack, .string (.key members) Quoted.start⟩)
    (key : String) (v : Value) (rest : List (Option Char)) :
    run d ⟨stack, mode⟩ (memberSymbols (key, v) ++ rest)
      = run d ⟨.member members (some key) :: stack, .value⟩ (symbols v.text ++ rest) := by
  rw [memberSymbols, List.cons_append, List.append_assoc, run, h]
  show run d ⟨stack, .string (.key members) Quoted.start⟩
      ((key.toList.flatMap Quoted.escape).map some
        ++ some '"' :: some ':' :: (symbols v.text ++ rest)) = _
  -- the key is a string that is read for a key; the colon behind it opens the frame
  rw [run_write]
  rfl

/-- What lies side by side within brackets fits if each of its parts does. -/
theorem ite_allows_max {count a b : Nat} (next : Option State) :
    (if d.Allows (count + a) then (if d.Allows (count + b) then next else none) else none)
      = if d.Allows (count + max a b) then next else none := by
  rw [← ite_and]
  exact if_congr Demands.allows_add_max.symm rfl rfl

-- A value without brackets needs no room of its own; a bracket needs room for one more, and what
-- stands between the brackets is read with one more frame on the stack.
mutual

/-- A value is read back within any text: it is refused if its brackets do not fit into those around
it, and otherwise the reader goes on where the complete value takes it. -/
theorem run_text (stack : List Frame) (hstack : d.Allows stack.length) :
    ∀ (v : Value), v.Numberless → ∀ rest : List (Option Char),
      run d ⟨stack, .value⟩ (symbols v.text ++ rest)
        = if d.Allows (stack.length + v.depth) then run d (complete stack v.form) rest else none
  | .null, _, rest => (if_pos hstack).symm
  | .bool true, _, rest => (if_pos hstack).symm
  | .bool false, _, rest => (if_pos hstack).symm
  | .number _, h, _ => h.elim
  | .string s, _, rest => by
    rw [Value.text, symbols_write, List.cons_append, List.append_assoc,
      if_pos (show d.Allows (stack.length + (Value.string s).depth) from hstack)]
    exact run_write stack .value s rest
  -- between the brackets of an empty array or object there is nothing to read
  | .array [], _, rest => by
    show run d ⟨stack, .value⟩ (some '[' :: some ']' :: rest) = _
    rw [run_open stack (.inl ⟨rfl, rfl⟩)]
    rfl
  | .array (v :: vs), ⟨hv, hvs⟩, rest => by
    have hdepth : stack.length + (Value.array (v :: vs)).depth
        = stack.length + 1 + max v.depth (Value.depth.depthItems vs) := by
      simp only [Value.depth, Value.depth.depthItems]
      omega
    rw [symbols_array_cons, List.cons_append, List.append_assoc,
      run_open stack (.inl ⟨rfl, rfl⟩), hdepth]
    by_cases hroom : d.Allows (stack.length + 1)
    · -- the first item is read inside the new bracket, and the others behind it
      rw [if_pos hroom, run_firstItem stack v hv,
        run_text (.array [] :: stack) hroom v hv]
      show (if d.Allows (stack.length + 1 + v.depth) then
          run d ⟨stack, .afterItem [v.form]⟩ (itemSymbols vs ++ rest) else none) = _
      rw [run_itemSymbols stack hroom vs hvs [v.form] rest]
      exact ite_allows_max _
    -- without room for this bracket there is none for what is deeper
    · have hdeep : ¬ d.Allows (stack.length + 1 + max v.depth (Value.depth.depthItems vs)) :=
        fun h => hroom (h.mono (by omega))
      rw [if_neg hroom, if_neg hdeep]
  | .object [], _, rest => by
    show run d ⟨stack, .value⟩ (some '\x7b' :: some '\x7d' :: rest) = _
    rw [run_open stack (.inr ⟨rfl, rfl⟩)]
    rfl
  | .object ((key, v) :: ms), ⟨hv, hms⟩, rest => by
    have hdepth : stack.length + (Value.object ((key, v) :: ms)).depth
        = stack.length + 1 + max v.depth (Value.depth.depthMembers ms) := by
      simp only [Value.depth, Value.depth.depthMembers]
      omega
    rw [symbols_object_cons, List.cons_append, List.append_assoc,
      run_open stack (.inr ⟨rfl, rfl⟩), hdepth]
    by_cases hroom : d.Allows (stack.length + 1)
    -- as for arrays, with the key held in the new frame
    · rw [if_pos hroom, run_memberSymbols stack rfl key v,
        run_text (.member [] (some key) :: stack) hroom v hv]
      show (if d.Allows (stack.length + 1 + v.depth) then
          run d ⟨stack, .afterMember [(some key, v.form)]⟩ (membersSymbols ms ++ rest)
        else none) = _
      rw [run_membersSymbols stack hroom ms hms [(some key, v.form)] rest]
      exact ite_allows_max _
    · have hdeep : ¬ d.Allows (stack.length + 1 + max v.depth (Value.depth.depthMembers ms)) :=
        fun h => hroom (h.mono (by omega))
      rw [if_neg hroom, if_neg hdeep]

/-- The items behind the first one are read back one after the other. -/
theorem run_itemSymbols (stack : List Frame) (hstack : d.Allows (stack.length + 1)) :
    ∀ (vs : List Value), Value.NumberlessItems vs →
      ∀ (items : List Form) (rest : List (Option Char)),
      run d ⟨stack, .afterItem items⟩ (itemSymbols vs ++ rest)
        = if d.Allows (stack.length + 1 + Value.depth.depthItems vs) then
            run d (complete stack (.array (items.reverse ++ Value.form.itemForms vs))) rest
          else none
  | [], _, items, rest => by
    rw [Value.form.itemForms, List.append_nil]
    exact (if_pos hstack).symm
  | v :: vs, ⟨hv, hvs⟩, items, rest => by
    have hsplit : itemSymbols (v :: vs) ++ rest
        = some ',' :: (symbols v.text ++ (itemSymbols vs ++ rest)) := by
      simp [itemSymbols]
    have hforms : items.reverse ++ Value.form.itemForms (v :: vs)
        = (v.form :: items).reverse ++ Value.form.itemForms vs := by
      simp [Value.form.itemForms]
    rw [hsplit, hforms]
    -- the comma opens the array again for the next item
    show run d ⟨.array items :: stack, .value⟩ (symbols v.text ++ (itemSymbols vs ++ rest)) = _
    rw [run_text (.array items :: stack) hstack v hv]
    show (if d.Allows (stack.length + 1 + v.depth) then
        run d ⟨stack, .afterItem (v.form :: items)⟩ (itemSymbols vs ++ rest) else none) = _
    rw [run_itemSymbols stack hstack vs hvs (v.form :: items) rest]
    exact ite_allows_max _

/-- The members behind the first one are read back one after the other. -/
theorem run_membersSymbols (stack : List Frame) (hstack : d.Allows (stack.length + 1)) :
    ∀ (ms : List (String × Value)), Value.NumberlessMembers ms →
      ∀ (members : List (Option String × Form)) (rest : List (Option Char)),
      run d ⟨stack, .afterMember members⟩ (membersSymbols ms ++ rest)
        = if d.Allows (stack.length + 1 + Value.depth.depthMembers ms) then
            run d (complete stack (.object (members.reverse ++ Value.form.memberForms ms))) rest
          else none
  | [], _, members, rest => by
    rw [Value.form.memberForms, List.append_nil]
    exact (if_pos hstack).symm
  | (key, v) :: ms, ⟨hv, hms⟩, members, rest => by
    have hsplit : membersSymbols ((key, v) :: ms) ++ rest
        = some ',' :: (memberSymbols (key, v) ++ (membersSymbols ms ++ rest)) := by
      simp [membersSymbols]
    have hforms : members.reverse ++ Value.form.memberForms ((key, v) :: ms)
        = ((some key, v.form) :: members).reverse ++ Value.form.memberForms ms := by
      simp [Value.form.memberForms]
    rw [hsplit, hforms]
    -- behind the comma a key is awaited, and the frame opens behind its colon
    show run d ⟨stack, .key members⟩ (memberSymbols (key, v) ++ (membersSymbols ms ++ rest)) = _
    rw [run_memberSymbols stack rfl key v,
      run_text (.member members (some key) :: stack) hstack v hv]
    show (if d.Allows (stack.length + 1 + v.depth) then
        run d ⟨stack, .afterMember ((some key, v.form) :: members)⟩ (membersSymbols ms ++ rest)
      else none) = _
    rw [run_membersSymbols stack hstack ms hms ((some key, v.form) :: members) rest]
    exact ite_allows_max _

end

end Automaton

/-! ## §5 Whole texts -/

/-- The text of a value spells its form, if the reading allows its depth. -/
theorem readSymbols_text (d : Demands) (v : Value) (h : v.Numberless) :
    readSymbols d (symbols v.text)
      = if d.Allows v.depth then .ok v.form else .error .refused := by
  have hstart : d.Allows 0 := fun limit _ => Nat.zero_le limit
  have hrun : Automaton.run d Automaton.start (symbols v.text)
      = if d.Allows v.depth then some ⟨[], .done v.form⟩ else none := by
    have htext := Automaton.run_text [] hstart v h []
    rw [List.append_nil, List.length_nil, Nat.zero_add] at htext
    exact htext
  rw [readSymbols, hrun]
  split_ifs with hdepth
  · rfl
  · rfl

theorem Form.ofText_text (v : Value) (h : v.Numberless) :
    Form.ofText .formOnly v.text = .ok v.form := by
  have hany : Demands.formOnly.Allows v.depth := by
    intro limit hlimit
    cases hlimit
  rw [Form.ofText, readSymbols_text _ v h, if_pos hany]

/-- The text of a value is read as the value that is sorted, unless it nests too deep. -/
theorem Value.ofText_text (v : Value) (h : v.Numberless) :
    Value.ofText v.text = if v.depth ≤ 127 then .ok v.sorted else .error .refused := by
  have hallows : Demands.standard.Allows v.depth ↔ v.depth ≤ 127 := by
    simp [Demands.Allows, Demands.standard]
  rw [Value.ofText, Value.ofSymbols, readSymbols_text _ v h]
  by_cases hdepth : v.depth ≤ 127
  · rw [if_pos (hallows.mpr hdepth), if_pos hdepth]
    show v.form.toValue = _
    rw [Form.toValue, Form.value?_form]
  · rw [if_neg (hdepth ∘ hallows.mp), if_neg hdepth]
    rfl

end CanonicalQuery.Json
