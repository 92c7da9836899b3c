import CanonicalQuery.Proofs.Typed.Order

/-!
# What the parts of a typed tree denote

The parts of a typed tree that hold no others, as a relation between JSON values and what they spell
out: one rule for each spelling.  A record is an object with its members, among others that mean
nothing, or an array of its members.  An alternative is an object with one key, and one without
content may also be its bare name.

The readers of these parts find what the values denote, and nothing else.

## Main definitions

- `Only`: what an object has as its only member with a name.
- `Tags`, `Optional`, `Modified`: modifiers, what may be missing, and texts with a modifier.
- `Marks`, `Ends`: operators and the ends of ranges.

## Main statements

- `map_part?_eq_ok`: what is read of a member that is looked up.
- `term_eq_ok`, `phrase_eq_ok`, `operator_eq_ok`, `range_eq_ok`: the readers of the parts.
-/

namespace CanonicalQuery.Typed

open CanonicalQuery.Json

/-! ## §1 The rules -/

/-- This is the value of the only member with this name. -/
def Only (name : String) (v : Value) (members : List (String × Value)) : Prop :=
  members.filter (fun m => m.1 = name) = [(name, v)]

section Rules

variable {α : Type}

/-- One of two names over a text. -/
inductive Tags (first second : String) (toFirst toSecond : String → α) : Value → α → Prop where
  | first (text : String) :
      Tags first second toFirst toSecond (.object [(first, .string text)]) (toFirst text)
  | second (text : String) :
      Tags first second toFirst toSecond (.object [(second, .string text)]) (toSecond text)

/-- Null stands for nothing. -/
inductive Optional (denotes : Value → α → Prop) : Value → Option α → Prop where
  | null : Optional denotes .null none
  | given {v : Value} {a : α} : denotes v a → Optional denotes v (some a)

/-- A text and a modifier that may be missing. -/
inductive Modified (denotes : Value → α → Prop) : Value → String × Option α → Prop where
  | object {members : List (String × Value)} {text : String} :
      Only "value" (.string text) members → "modifier" ∉ Members.keys members →
      Modified denotes (.object members) (text, none)
  | modifiedObject {members : List (String × Value)} {text : String} {v : Value}
      {modifier : Option α} :
      Only "value" (.string text) members → Only "modifier" v members →
      Optional denotes v modifier → Modified denotes (.object members) (text, modifier)
  | items (text : String) : Modified denotes (.array [.string text]) (text, none)
  | modifiedItems {text : String} {v : Value} {modifier : Option α} :
      Optional denotes v modifier → Modified denotes (.array [.string text, v]) (text, modifier)

end Rules

/-- An operator is a name, or an object from this name to null. -/
inductive Marks : Value → Operator → Prop where
  | required : Marks (.string "Required") .required
  | prohibited : Marks (.string "Prohibited") .prohibited
  | requiredObject : Marks (.object [("Required", .null)]) .required
  | prohibitedObject : Marks (.object [("Prohibited", .null)]) .prohibited

/-- The ends of a range. -/
inductive Ends : Value → Range → Prop where
  | object {members : List (String × Value)} {lower upper : String} :
      Only "from" (.string lower) members → Only "to" (.string upper) members →
      Ends (.object members) ⟨lower, upper⟩
  | items (lower upper : String) : Ends (.array [.string lower, .string upper]) ⟨lower, upper⟩

/-! ## §2 Forms of values -/

section Forms

variable {v : Value}

theorem form_eq_string {s : String} : v.form = .string (some s) ↔ v = .string s := by
  cases v <;> simp [Value.form]

theorem form_eq_null : v.form = .null ↔ v = .null := by
  cases v <;> simp [Value.form]

theorem form_eq_array {items : List Form} :
    v.form = .array items ↔ ∃ vs, v = .array vs ∧ items = Value.form.itemForms vs := by
  cases v <;> simp [Value.form, eq_comm]

theorem form_eq_object {members : Members} :
    v.form = .object members ↔
      ∃ ms, v = .object ms ∧ members = Value.form.memberForms ms := by
  cases v <;> simp [Value.form, eq_comm]

/-- Objects with one member are the forms of such objects only. -/
theorem form_eq_single {name : String} {content : Form} :
    v.form = .object [(some name, content)] ↔
      ∃ w, v = .object [(name, w)] ∧ content = w.form := by
  rw [form_eq_object]
  constructor
  · rintro ⟨ms, rfl, hms⟩
    match ms, hms with
    | [(_, w)], hms =>
      cases hms
      exact ⟨w, rfl, rfl⟩
  · rintro ⟨w, rfl, rfl⟩
    exact ⟨_, rfl, rfl⟩

end Forms

/-! ## §3 Members of objects -/

section Members

variable {name : String} {names : List String} {v : Value} {ms : List (String × Value)}

/-- No two members have this name. -/
def Once (name : String) (ms : List (String × Value)) : Prop :=
  (ms.filter fun m => m.1 = name).length ≤ 1

theorem Only.once (h : Only name v ms) : Once name ms := by
  rw [Once, h]
  exact Nat.le_refl 1

/-- A name that is no key is not repeated. -/
theorem once_of_not_mem_keys (h : name ∉ Members.keys ms) : Once name ms := by
  have hnone : ms.filter (fun m => m.1 = name) = [] := by
    refine List.filter_eq_nil_iff.mpr fun m hm hname => h ?_
    rw [← of_decide_eq_true hname]
    exact List.mem_map_of_mem hm
  rw [Once, hnone]
  exact Nat.zero_le 1

/-- The keys of a value are never missing, so only repeated names are a mismatch. -/
theorem membersOnce_memberForms :
    membersOnce names (Value.form.memberForms ms) = .ok () ↔ ∀ name ∈ names, Once name ms := by
  -- values have whole keys, and members are counted as their forms are
  have hkeys : (Value.form.memberForms ms).any (fun m => m.1.isNone) = false := by
    rw [Value.memberForms_eq_map]
    simp
  have hcount (name : String) :
      (Value.form.memberForms ms).countP (fun m => m.1 = some name) =
        (ms.filter fun m => m.1 = name).length := by
    rw [Value.memberForms_eq_map, List.countP_map, ← List.countP_eq_length_filter]
    exact List.countP_congr fun m _ => by simp
  unfold membersOnce
  simp only [hkeys, hcount, Bool.false_eq_true, if_false]
  constructor
  · intro h name hname
    split at h
    · cases h
    · next hfind =>
      have hnot := List.find?_eq_none.mp hfind name hname
      simpa [Once] using hnot
  · intro h
    -- where no name is repeated, the search for one fails
    have hfind : names.find? (fun name => 1 < (ms.filter fun m => m.1 = name).length) = none := by
      refine List.find?_eq_none.mpr fun name hname => ?_
      have honce := h name hname
      simpa [Once] using honce
    rw [hfind]

/-- What is looked up is the first member with the name. -/
theorem part?_memberForms (name : String) (ms : List (String × Value)) :
    part? name (Value.form.memberForms ms) =
      (ms.filter fun m => m.1 = name).head?.map fun m => m.2.form := by
  induction ms with
  | nil => rfl
  | cons m ms ih =>
    obtain ⟨key, v⟩ := m
    rw [Value.form.memberForms, part?, ih]
    -- the first member has the name, or the search goes on
    by_cases hkey : key = name
    · simp [hkey]
    · simp [hkey]

/-- Nothing is found just if the name is no key. -/
theorem part?_eq_none :
    part? name (Value.form.memberForms ms) = none ↔ name ∉ Members.keys ms := by
  rw [part?_memberForms, Option.map_eq_none_iff, List.head?_eq_none_iff, List.filter_eq_nil_iff,
    Members.keys, List.mem_map]
  simp only [decide_eq_true_eq, not_exists, not_and]

/-- A member that is looked up is the only one with its name, unless the name is repeated. -/
theorem part?_eq_some {f : Form} (honce : Once name ms) :
    part? name (Value.form.memberForms ms) = some f ↔ ∃ v, Only name v ms ∧ v.form = f := by
  rw [part?_memberForms, Option.map_eq_some_iff]
  constructor
  · rintro ⟨⟨key, v⟩, hhead, rfl⟩
    refine ⟨v, ?_, rfl⟩
    obtain ⟨rest, hfilter⟩ := List.head?_eq_some_iff.mp hhead
    -- what the filter keeps has the name, and by the assumption it keeps no more
    have hkey : key = name := by
      have hmem : (key, v) ∈ ms.filter fun m => m.1 = name := List.mem_of_mem_head? hhead
      simpa using (List.mem_filter.mp hmem).2
    rw [Once, hfilter, List.length_cons] at honce
    obtain rfl : rest = [] := List.eq_nil_of_length_eq_zero (by omega)
    rw [Only, hfilter, hkey]
  · rintro ⟨v, honly, rfl⟩
    exact ⟨(name, v), by rw [honly, List.head?_cons], rfl⟩

/-- What is read of a member that is looked up is read of the only one with its name. -/
theorem map_part?_eq_ok {α : Type} {read : Form → Except Mismatch α} {a : α}
    (honce : Once name ms) :
    (part? name (Value.form.memberForms ms)).map read = some (.ok a) ↔
      ∃ v, Only name v ms ∧ read v.form = .ok a := by
  rw [Option.map_eq_some_iff]
  constructor
  · rintro ⟨f, hpart, hread⟩
    obtain ⟨v, honly, rfl⟩ := (part?_eq_some honce).mp hpart
    exact ⟨v, honly, hread⟩
  · rintro ⟨v, honly, hread⟩
    exact ⟨v.form, (part?_eq_some honce).mpr ⟨v, honly, rfl⟩, hread⟩

end Members

section Steps

variable {α : Type} {name : String} {x? : Option (Except Mismatch α)} {a : α} {a? : Option α}

theorem needed_eq_ok : needed name a? = .ok a ↔ a? = some a := by
  cases a? <;> simp [needed]

theorem ifPresent_eq_ok :
    ifPresent x? = .ok a? ↔ (x? = none ∧ a? = none) ∨ ∃ a, x? = some (.ok a) ∧ a? = some a := by
  cases x? with
  | none => simp [ifPresent, eq_comm]
  | some x => cases x <;> simp [ifPresent, eq_comm]

theorem ifPresent_eq_some : ifPresent x? = .ok (some a) ↔ x? = some (.ok a) := by
  simp [ifPresent_eq_ok]

end Steps

/-! ## §4 Parts without trees -/

section Parts

variable {α : Type} {v : Value}

/-- Brackets of values nest as deep as they like. -/
theorem enter_value_bind (f : Dialect → Except Mismatch α) :
    (Dialect.value.enter >>= f) = f .value :=
  rfl

/-- A text is read from a string. -/
theorem readText_eq_ok {s : String} : readText v.form = .ok s ↔ v = .string s := by
  rw [← form_eq_string]
  cases v.form with
  | string text => cases text <;> simp [readText]
  | _ => simp [readText]

/-- The reader of two alternatives with texts finds what they denote. -/
theorem readTagged_eq_ok {first second : String} {toFirst toSecond : String → α} {a : α}
    (hne : first ≠ second) :
    readTagged first second toFirst toSecond .value v.form = .ok a ↔
      Tags first second toFirst toSecond v a := by
  constructor
  · intro h
    -- only an object with one named member is read at all
    by_cases htagged : Tagged v.form
    · obtain ⟨name, content, hform⟩ := htagged
      obtain ⟨w, rfl, rfl⟩ := form_eq_single.mp hform
      rw [hform, readTagged, enter_value_bind] at h
      split at h
      -- the first name
      · next hname =>
        obtain ⟨text, htext, ha⟩ := bind_eq_ok.mp h
        obtain rfl := readText_eq_ok.mp htext
        obtain rfl := pure_eq_ok.mp ha
        rw [hname]
        exact .first text
      · split at h
        -- the second one
        · next hname =>
          obtain ⟨text, htext, ha⟩ := bind_eq_ok.mp h
          obtain rfl := readText_eq_ok.mp htext
          obtain rfl := pure_eq_ok.mp ha
          rw [hname]
          exact .second text
        · cases h
    · rw [readTagged_untagged _ _ _ _ htagged] at h
      cases h
  · intro h
    cases h with
    | first text =>
      show (if first = first then _ else _) = _
      rw [if_pos rfl]
      rfl
    | second text =>
      show (if second = first then _ else if second = second then _ else _) = _
      rw [if_neg hne.symm, if_pos rfl]
      rfl

/-- The reader of optional parts finds what they denote. -/
theorem readOptional_eq_ok {read : Form → Except Mismatch α} {denotes : Value → α → Prop}
    (hread : ∀ {v a}, read v.form = .ok a ↔ denotes v a) (hnull : ∀ a, ¬ denotes .null a)
    {a? : Option α} : readOptional read v.form = .ok a? ↔ Optional denotes v a? := by
  -- null stands for nothing, and for nothing else
  by_cases hv : v = .null
  · subst hv
    constructor
    · intro h
      obtain rfl := Except.ok.inj h
      exact .null
    · intro h
      cases h with
      | null => rfl
      | given hdenotes => exact absurd hdenotes (hnull _)
  · have hform : v.form ≠ .null := hv ∘ form_eq_null.mp
    have hsome : readOptional read v.form = (do return some (← read v.form)) := by
      rw [readOptional]
      exact hform
    rw [hsome]
    constructor
    · intro h
      obtain ⟨a, ha, hsome⟩ := bind_eq_ok.mp h
      obtain rfl := pure_eq_ok.mp hsome
      exact .given (hread.mp ha)
    · intro h
      cases h with
      | null => exact absurd rfl hv
      | given hdenotes => exact bind_eq_ok.mpr ⟨_, hread.mpr hdenotes, rfl⟩

theorem readName_string (alternatives : List (String × α)) (name : String) :
    readName alternatives .value (.string (some name)) =
      match alternatives.lookup name with
      | some a => .ok a
      | none => .error (.unknownName name (alternatives.map Prod.fst)) :=
  rfl

theorem readName_single (alternatives : List (String × α)) (name : String) (content : Form) :
    readName alternatives .value (.object [(some name, content)]) =
      match alternatives.lookup name, content with
      | some a, .null => .ok a
      | some _, content => .error (.of content .nothing)
      | none, _ => .error (.unknownName name (alternatives.map Prod.fst)) :=
  rfl

/-- An alternative without content is its name, or an object from its name to null. -/
theorem readName_eq_ok {alternatives : List (String × α)} {a : α} :
    readName alternatives .value v.form = .ok a ↔
      ∃ name, alternatives.lookup name = some a ∧
        (v = .string name ∨ v = .object [(name, .null)]) := by
  constructor
  · intro h
    -- an object with one member, a text, or something that names no alternative
    by_cases htagged : Tagged v.form
    · obtain ⟨name, content, hform⟩ := htagged
      obtain ⟨w, rfl, rfl⟩ := form_eq_single.mp hform
      rw [hform, readName_single] at h
      split at h
      · next hlookup hnull =>
        obtain rfl := form_eq_null.mp hnull
        obtain rfl := Except.ok.inj h
        exact ⟨name, hlookup, .inr rfl⟩
      · cases h
      · cases h
    · by_cases hstring : ∃ name, v = .string name
      · obtain ⟨name, rfl⟩ := hstring
        rw [Value.form, readName_string] at h
        split at h
        · next hlookup =>
          obtain rfl := Except.ok.inj h
          exact ⟨name, hlookup, .inl rfl⟩
        · cases h
      · have hname : ∀ name, v.form ≠ .string (some name) :=
          fun name hform => hstring ⟨name, form_eq_string.mp hform⟩
        rw [readName_untagged _ htagged hname] at h
        cases h
  · rintro ⟨name, hlookup, rfl | rfl⟩
    · rw [Value.form, readName_string, hlookup]
    · exact (readName_single alternatives name .null).trans (by rw [hlookup])

/-- The reader of operators. -/
theorem operator_eq_ok {o : Operator} : operator .value v.form = .ok o ↔ Marks v o := by
  constructor
  · intro h
    obtain ⟨name, hlookup, hv⟩ := readName_eq_ok.mp h
    -- the name was found in the table of the two operators
    obtain ⟨before, behind, hsplit, -⟩ := List.lookup_eq_some_iff.mp hlookup
    have hmem : (name, o) ∈ [("Required", Operator.required), ("Prohibited", .prohibited)] := by
      rw [show [("Required", Operator.required), ("Prohibited", .prohibited)] =
        before ++ (name, o) :: behind from hsplit]
      exact List.mem_append_right before List.mem_cons_self
    simp only [List.mem_cons, Prod.mk.injEq, List.not_mem_nil, or_false] at hmem
    rcases hmem with ⟨rfl, rfl⟩ | ⟨rfl, rfl⟩ <;> rcases hv with rfl | rfl
    · exact .required
    · exact .requiredObject
    · exact .prohibited
    · exact .prohibitedObject
  · intro h
    cases h <;> rfl

/-- The text of a member is read if it is a text. -/
theorem textAt_eq_ok {name text : String} {ms : List (String × Value)} (honce : Once name ms) :
    (part? name (Value.form.memberForms ms)).map readText = some (.ok text) ↔
      Only name (.string text) ms := by
  rw [map_part?_eq_ok honce]
  constructor
  · rintro ⟨v, honly, htext⟩
    obtain rfl := readText_eq_ok.mp htext
    exact honly
  · intro honly
    exact ⟨_, honly, rfl⟩

/-- What is read of a record is read of its members, each by its name. -/
theorem readModified_object {name : String} {modifier : Dialect → Form → Except Mismatch α}
    {members : Members} {text : String} {a? : Option α} :
    readModified name modifier .value (.object members) = .ok (text, a?) ↔
      membersOnce ["value", "modifier"] members = .ok () ∧
      (part? "value" members).map readText = some (.ok text) ∧
      ((part? "modifier" members = none ∧ a? = none) ∨
        ∃ f, part? "modifier" members = some f ∧ readOptional (modifier .value) f = .ok a?) := by
  rw [readModified, enter_value_bind]
  constructor
  · intro h
    obtain ⟨_, honce, h⟩ := bind_eq_ok.mp h
    obtain ⟨modifier?, hmodifier, h⟩ := bind_eq_ok.mp h
    obtain ⟨value?, hvalue, h⟩ := bind_eq_ok.mp h
    obtain ⟨value, hneeded, h⟩ := bind_eq_ok.mp h
    obtain ⟨rfl, rfl⟩ := Prod.mk.inj (pure_eq_ok.mp h)
    rw [needed_eq_ok.mp hneeded, ifPresent_eq_some] at hvalue
    refine ⟨honce, hvalue, ?_⟩
    rcases ifPresent_eq_ok.mp hmodifier with ⟨hnone, rfl⟩ | ⟨a?, hsome, rfl⟩
    · exact .inl ⟨Option.map_eq_none_iff.mp hnone, rfl⟩
    · exact .inr (Option.map_eq_some_iff.mp hsome)
  · rintro ⟨honce, hvalue, hmodifier⟩
    have hvalue' := ifPresent_eq_some.mpr hvalue
    -- without a modifier, or with one
    rcases hmodifier with ⟨hpart, rfl⟩ | ⟨f, hpart, hread⟩
    · rw [hpart, hvalue', honce]
      rfl
    · rw [hpart, Option.map_some, hread, hvalue', honce]
      rfl

/-- The reader of records of a text and a modifier. -/
theorem readModified_eq_ok {name : String} {modifier : Dialect → Form → Except Mismatch α}
    {denotes : Value → α → Prop}
    (hmodifier : ∀ {v a}, modifier .value v.form = .ok a ↔ denotes v a)
    (hnull : ∀ a, ¬ denotes .null a) {text : String} {a? : Option α} :
    readModified name modifier .value v.form = .ok (text, a?) ↔
      Modified denotes v (text, a?) := by
  have hoptional {w : Value} {a? : Option α} :
      readOptional (modifier .value) w.form = .ok a? ↔ Optional denotes w a? :=
    readOptional_eq_ok hmodifier hnull
  constructor
  · intro h
    cases v with
    | object ms =>
      obtain ⟨honce, hvalue, hmod⟩ := readModified_object.mp h
      obtain ⟨honceValue, honceModifier⟩ : Once "value" ms ∧ Once "modifier" ms := by
        simpa using membersOnce_memberForms.mp honce
      have honly := (textAt_eq_ok honceValue).mp hvalue
      -- the modifier is looked for whether it is there or not
      rcases hmod with ⟨hpart, rfl⟩ | ⟨f, hpart, hread⟩
      · exact .object honly (part?_eq_none.mp hpart)
      · obtain ⟨w, hw, rfl⟩ := (part?_eq_some honceModifier).mp hpart
        exact .modifiedObject honly hw (hoptional.mp hread)
    | array vs =>
      obtain ⟨_, henter, h⟩ := bind_eq_ok.mp h
      obtain rfl := Except.ok.inj henter
      -- in an array the parts are known by their places, and a third item is refused at the end
      match vs, h with
      | [value], h =>
        obtain ⟨text, htext, h⟩ := bind_eq_ok.mp h
        obtain ⟨rfl, rfl⟩ := Prod.mk.inj (pure_eq_ok.mp h)
        obtain rfl := readText_eq_ok.mp htext
        exact .items text
      | value :: w :: rest, h =>
        obtain ⟨text, htext, h⟩ := bind_eq_ok.mp h
        obtain ⟨modifier, hmod, h⟩ := bind_eq_ok.mp h
        obtain rfl := readText_eq_ok.mp htext
        cases rest with
        | nil =>
          obtain ⟨rfl, rfl⟩ := Prod.mk.inj (pure_eq_ok.mp h)
          exact .modifiedItems (hoptional.mp hmod)
        | cons _ _ => cases h
    | _ => cases h
  · intro h
    cases h with
    | @object ms _ hvalue habsent =>
      refine readModified_object.mpr ⟨membersOnce_memberForms.mpr ?_, ?_, .inl ⟨?_, rfl⟩⟩
      -- neither name is repeated
      · simpa using ⟨hvalue.once, once_of_not_mem_keys habsent⟩
      · exact (textAt_eq_ok hvalue.once).mpr hvalue
      · exact part?_eq_none.mpr habsent
    | @modifiedObject ms _ w _ hvalue hmod hw =>
      refine readModified_object.mpr ⟨membersOnce_memberForms.mpr ?_, ?_, .inr ⟨w.form, ?_, ?_⟩⟩
      · simpa using ⟨hvalue.once, hmod.once⟩
      · exact (textAt_eq_ok hvalue.once).mpr hvalue
      · exact (part?_eq_some hmod.once).mpr ⟨w, hmod, rfl⟩
      · exact hoptional.mpr hw
    | items => rfl
    | @modifiedItems _ w _ hw =>
      show (readOptional (modifier .value) w.form >>= _) = _
      rw [hoptional.mpr hw]
      rfl

/-- What is read of the ends of a range is read of its two members. -/
theorem range_object {members : Members} {r : Range} :
    range .value (.object members) = .ok r ↔
      membersOnce ["from", "to"] members = .ok () ∧
      (part? "from" members).map readText = some (.ok r.lower) ∧
      (part? "to" members).map readText = some (.ok r.upper) := by
  rw [range, enter_value_bind]
  constructor
  · intro h
    -- repeated members come first, then both ends, then what is missing
    obtain ⟨_, honce, h⟩ := bind_eq_ok.mp h
    obtain ⟨lower?, hlower, h⟩ := bind_eq_ok.mp h
    obtain ⟨upper?, hupper, h⟩ := bind_eq_ok.mp h
    obtain ⟨lower, hneeded, h⟩ := bind_eq_ok.mp h
    obtain ⟨upper, hneeded', h⟩ := bind_eq_ok.mp h
    obtain rfl := pure_eq_ok.mp h
    rw [needed_eq_ok.mp hneeded, ifPresent_eq_some] at hlower
    rw [needed_eq_ok.mp hneeded', ifPresent_eq_some] at hupper
    exact ⟨honce, hlower, hupper⟩
  · rintro ⟨honce, hlower, hupper⟩
    rw [ifPresent_eq_some.mpr hlower, ifPresent_eq_some.mpr hupper, honce]
    rfl

/-- The reader of the ends of a range. -/
theorem range_eq_ok {r : Range} : range .value v.form = .ok r ↔ Ends v r := by
  constructor
  · intro h
    cases v with
    | object ms =>
      obtain ⟨honce, hlower, hupper⟩ := range_object.mp h
      obtain ⟨honceLower, honceUpper⟩ : Once "from" ms ∧ Once "to" ms := by
        simpa using membersOnce_memberForms.mp honce
      exact .object ((textAt_eq_ok honceLower).mp hlower) ((textAt_eq_ok honceUpper).mp hupper)
    -- exactly two texts, the lower end first
    | array vs =>
      obtain ⟨_, -, h⟩ := bind_eq_ok.mp h
      match vs, h with
      | [lower], h =>
        obtain ⟨_, -, h⟩ := bind_eq_ok.mp h
        cases h
      | lower :: upper :: rest, h =>
        obtain ⟨lower, hlower, h⟩ := bind_eq_ok.mp h
        obtain ⟨upper, hupper, h⟩ := bind_eq_ok.mp h
        obtain rfl := readText_eq_ok.mp hlower
        obtain rfl := readText_eq_ok.mp hupper
        cases rest with
        | nil =>
          obtain rfl := pure_eq_ok.mp h
          exact .items lower upper
        | cons _ _ => cases h
    | _ => cases h
  · intro h
    cases h with
    | object hlower hupper =>
      refine range_object.mpr ⟨membersOnce_memberForms.mpr ?_, ?_, ?_⟩
      · simpa using ⟨hlower.once, hupper.once⟩
      · exact (textAt_eq_ok hlower.once).mpr hlower
      · exact (textAt_eq_ok hupper.once).mpr hupper
    | items => rfl

/-- The reader of terms. -/
theorem term_eq_ok {t : Term} :
    term .value v.form = .ok t ↔
      Modified (Tags "Similarity" "Boost" .similarity .boost) v (t.value, t.modifier) := by
  have hmodified {text : String} {modifier : Option TermModifier} :
      readModified "Term" termModifier .value v.form = .ok (text, modifier) ↔
        Modified (Tags "Similarity" "Boost" .similarity .boost) v (text, modifier) :=
    readModified_eq_ok (readTagged_eq_ok (by decide)) nofun
  rw [← hmodified, term]
  -- a term is its value with its modifier, and nothing else can fail
  constructor
  · intro h
    obtain ⟨⟨value, modifier⟩, hread, ht⟩ := bind_eq_ok.mp h
    obtain rfl := pure_eq_ok.mp ht
    exact hread
  · intro h
    rw [h]
    rfl

/-- The reader of phrases. -/
theorem phrase_eq_ok {p : Phrase} :
    phrase .value v.form = .ok p ↔
      Modified (Tags "Boost" "Distance" .boost .distance) v (p.value, p.modifier) := by
  have hmodified {text : String} {modifier : Option PhraseModifier} :
      readModified "Phrase" phraseModifier .value v.form = .ok (text, modifier) ↔
        Modified (Tags "Boost" "Distance" .boost .distance) v (text, modifier) :=
    readModified_eq_ok (readTagged_eq_ok (by decide)) nofun
  rw [← hmodified, phrase]
  -- as for terms, with the other two modifiers
  constructor
  · intro h
    obtain ⟨⟨value, modifier⟩, hread, hp⟩ := bind_eq_ok.mp h
    obtain rfl := pure_eq_ok.mp hp
    exact hread
  · intro h
    rw [h]
    rfl

end Parts

end CanonicalQuery.Typed
