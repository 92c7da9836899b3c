import CanonicalQuery.Proofs.Json.Reordered
import CanonicalQuery.Proofs.Steps
import CanonicalQuery.Typed.Reading

/-!
# The order of members does not matter to typed readers

A typed reader looks members up by their names, so it gives the same result, or the same mismatch,
for two forms that differ in the order of members only.  This holds without conditions on the keys:
where a member with meaning is repeated, the reader says so whatever the order.

## Main statements

- `Typed.part?_reordered`: looking a member up by a name that is not repeated.
- `Typed.node_reordered`, `Typed.fieldValue_reordered`, `Typed.term_reordered`,
  `Typed.phrase_reordered`, `Typed.range_reordered`: the readers.
-/

namespace CanonicalQuery.Typed

open CanonicalQuery.Json

/-! ## §1 Records -/

/-- The keys of members. -/
def keys (members : Members) : List (Option String) := members.map Prod.fst

/-- Whether a key is missing is seen from the keys. -/
theorem any_isNone_eq (members : Members) :
    members.any (fun m => m.1.isNone) = (keys members).any Option.isNone := by
  rw [keys, List.any_map]
  rfl

/-- How often a name occurs is seen from the keys. -/
theorem countP_eq_count_keys (name : String) (members : Members) :
    members.countP (fun m => m.1 = some name) = (keys members).count (some name) := by
  rw [keys, List.count_eq_countP, List.countP_map]
  exact List.countP_congr fun m _ => by simp

/-- Only the keys matter, and not their order. -/
theorem membersOnce_perm {ms ns : Members} (h : (keys ms).Perm (keys ns)) (names : List String) :
    membersOnce names ms = membersOnce names ns := by
  -- a reader of members asks the keys two things: is one missing, and which name is repeated
  have hany : ms.any (fun m => m.1.isNone) = ns.any fun m => m.1.isNone := by
    rw [any_isNone_eq, any_isNone_eq, h.any_eq]
  have hcount : ∀ name : String,
      ms.countP (fun m => m.1 = some name) = ns.countP fun m => m.1 = some name := by
    intro name
    rw [countP_eq_count_keys, countP_eq_count_keys, h.count_eq]
  unfold membersOnce
  simp only [hany, hcount]

/-- None of the names that were looked for is repeated. -/
theorem count_le_one_of_membersOnce {names : List String} {ms : Members}
    (h : membersOnce names ms = .ok ()) {name : String} (hname : name ∈ names) :
    (keys ms).count (some name) ≤ 1 := by
  unfold membersOnce at h
  split at h
  · cases h
  · split at h
    · cases h
    -- the search for a repeated name found none
    · next hfind =>
      have hnot := List.find?_eq_none.mp hfind name hname
      rw [← countP_eq_count_keys]
      simpa using hnot

/-- What is found by the first name is the first content. -/
theorem forall_part?_here {P : Form → Prop} {name : String} {f : Form} {rest : Members} (hf : P f) :
    ∀ g ∈ part? name ((some name, f) :: rest), P g := by
  intro g hg
  rw [part?, if_pos rfl] at hg
  cases hg
  exact hf

/-- Behind another name, the search goes on. -/
theorem forall_part?_below {P : Form → Prop} {name : String} {key : Option String} {f : Form}
    {rest : Members} (hkey : key ≠ some name) (hrest : ∀ g ∈ part? name rest, P g) :
    ∀ g ∈ part? name ((key, f) :: rest), P g := by
  intro g hg
  rw [part?, if_neg hkey] at hg
  exact hrest g hg

/-- Reordered contents are found by the same names. -/
theorem part?_contents {ms ns : Members} (h : ReorderedContents ms ns) (name : String) :
    Option.Rel Reordered (part? name ms) (part? name ns) := by
  induction ms generalizing ns with
  | nil =>
    cases h
    exact .none
  | cons m ms ih =>
    cases h with
    | cons key hf hms =>
      rw [part?, part?]
      split
      -- both have the name, for reordering contents leaves the keys
      · exact .some hf
      · exact ih hms

/-- A name that is not repeated is found in any order. -/
theorem part?_perm {ms ns : Members} (h : ms.Perm ns) {name : String}
    (honce : (keys ms).count (some name) ≤ 1) : part? name ms = part? name ns := by
  induction h with
  | nil => rfl
  | cons m _ ih =>
    obtain ⟨key, f⟩ := m
    rw [part?, part?]
    split
    · rfl
    -- the name is not repeated among the others either
    · exact ih (Nat.le_trans List.count_le_count_cons honce)
  | swap m m' ms =>
    -- only if both members have the name does their order count
    obtain ⟨key, f⟩ := m
    obtain ⟨key', f'⟩ := m'
    by_cases hkey : key = some name
    · by_cases hkey' : key' = some name
      · rw [hkey, hkey'] at honce
        simp [keys] at honce
      · simp [part?, hkey, hkey']
    · simp [part?, hkey]
  | trans h₁ _ ih₁ ih₂ =>
    have hcount := (h₁.map Prod.fst).count_eq (some name)
    exact (ih₁ honce).trans (ih₂ (Nat.le_trans (Nat.le_of_eq hcount.symm) honce))

section Members

variable {α : Type} {ms ns : Members}

/-- Reordered members have the same keys in another order. -/
theorem keys_perm (h : ReorderedMembers ms ns) : (keys ms).Perm (keys ns) := by
  obtain ⟨middle, hcontents, hperm⟩ := h
  have hkeys : keys ms = keys middle := hcontents.keys_eq
  rw [hkeys]
  exact hperm.map Prod.fst

/-- A member that is not repeated is found in both orders, with its content reordered. -/
theorem part?_reordered (h : ReorderedMembers ms ns) {name : String}
    (honce : (keys ms).count (some name) ≤ 1) :
    Option.Rel Reordered (part? name ms) (part? name ns) := by
  obtain ⟨middle, hcontents, hperm⟩ := h
  have hkeys : keys ms = keys middle := hcontents.keys_eq
  rw [hkeys] at honce
  rw [← part?_perm hperm honce]
  exact part?_contents hcontents name

/-- Records go on alike for both orders if they do so where no name is repeated. -/
theorem record_reordered (h : ReorderedMembers ms ns) {names : List String}
    {rest rest' : Except Mismatch α} (hrest : membersOnce names ms = .ok () → rest = rest') :
    (do membersOnce names ms; rest) = (do membersOnce names ns; rest') := by
  rw [← membersOnce_perm (keys_perm h)]
  exact bind_congr_ok fun _ honce => hrest honce

/-- What is read of a member does not depend on the order of the members, if it does not depend on
the order within the content of this member. -/
theorem map_part?_reordered (h : ReorderedMembers ms ns) {names : List String}
    (honce : membersOnce names ms = .ok ()) {name : String} (hname : name ∈ names)
    {read : Form → α}
    (hread : ∀ f ∈ part? name ms, ∀ g, Reordered f g → read f = read g) :
    (part? name ms).map read = (part? name ns).map read := by
  have hrel := part?_reordered h (count_le_one_of_membersOnce honce hname)
  revert hread
  generalize part? name ms = f? at hrel ⊢
  generalize part? name ns = g? at hrel ⊢
  intro hread
  cases hrel with
  | none => rfl
  | some hfg => exact congrArg some (hread _ rfl _ hfg)

end Members

/-! ## §2 Parts without trees -/

section Parts

variable {α : Type} {d : Dialect} {f g : Form}

/-- A mismatch tells the kind of a form, and no order. -/
theorem mismatchOf_reordered (h : Reordered f g) (expected : Expected) :
    Mismatch.of f expected = Mismatch.of g expected := by
  obtain rfl | ⟨_, _, rfl, rfl, -⟩ | ⟨_, _, rfl, rfl, -⟩ := h.eq_or_array_or_object
  · rfl
  · rfl
  · rfl

/-- A text has no order, and other forms are no texts. -/
theorem readText_reordered (h : Reordered f g) : readText f = readText g := by
  obtain rfl | ⟨_, _, rfl, rfl, -⟩ | ⟨_, _, rfl, rfl, -⟩ := h.eq_or_array_or_object
  · rfl
  · rfl
  · rfl

/-- An optional part is read alike in both orders if the part is. -/
theorem readOptional_reordered {read : Form → Except Mismatch α} (h : Reordered f g)
    (hread : read f = read g) : readOptional read f = readOptional read g := by
  -- the absent part is a form with one order
  have hnull : f = .null ↔ g = .null := by
    cases h <;> simp
  by_cases hf : f = .null
  · rw [hf, hnull.mp hf]
  · have hg : g ≠ .null := hf ∘ hnull.mpr
    have hsome : ∀ {e : Form}, e ≠ .null → readOptional read e = (return some (← read e)) := by
      intro e he
      rw [readOptional]
      exact he
    rw [hsome hf, hsome hg, hread]

/-- A form that names no alternative still names none when it is reordered. -/
theorem badChoice_reordered (h : Reordered f g) (known : List String)
    (lacking : String → Expected) : badChoice known lacking f = badChoice known lacking g := by
  obtain rfl | ⟨_, _, rfl, rfl, -⟩ | ⟨ms, ns, rfl, rfl, hms⟩ := h.eq_or_array_or_object
  · rfl
  · rfl
  · have hlength : ns.length = ms.length := by
      have hkeys := (keys_perm hms).length_eq
      rw [keys, keys, List.length_map, List.length_map] at hkeys
      exact hkeys.symm
    -- several members are told from one by their number alone
    match ms, ns, hlength with
    | [], [], _ => rfl
    | [(key, f)], [n], _ =>
      obtain ⟨f', hns, -⟩ := h.of_single
      rw [hns]
      cases key with
      | none => rfl
      | some name => rfl
    | _ :: _ :: _, _ :: _ :: _, _ => simp only [badChoice]

/-- An object with one named member. -/
def Tagged (f : Form) : Prop := ∃ name content, f = .object [(some name, content)]

/-- An object with one named member stays one when it is reordered. -/
theorem tagged_reordered (h : Reordered f g) : Tagged f ↔ Tagged g := by
  constructor
  · rintro ⟨name, content, rfl⟩
    obtain ⟨content', rfl, -⟩ := h.of_single
    exact ⟨name, content', rfl⟩
  · rintro ⟨name, content, rfl⟩
    obtain ⟨content', rfl, -⟩ := h.to_single
    exact ⟨name, content', rfl⟩

/-- Where no alternative is named, the reader says so. -/
theorem readTagged_untagged (first second : String) (toFirst toSecond : String → α)
    (hf : ¬ Tagged f) :
    readTagged first second toFirst toSecond d f
      = .error (badChoice [first, second] (fun _ => .content) f) := by
  rw [readTagged]
  intro name content heq
  exact hf ⟨name, content, heq⟩

/-- Readers of two alternatives with texts give the same for both orders. -/
theorem readTagged_reordered (first second : String) (toFirst toSecond : String → α)
    (h : Reordered f g) :
    readTagged first second toFirst toSecond d f
      = readTagged first second toFirst toSecond d g := by
  by_cases hf : Tagged f
  · obtain ⟨name, content, rfl⟩ := hf
    obtain ⟨content', rfl, hcontent⟩ := h.of_single
    rw [readTagged, readTagged, readText_reordered hcontent]
  -- the form names no alternative, in neither order
  · have hg := hf ∘ (tagged_reordered h).mpr
    rw [readTagged_untagged _ _ _ _ hf, readTagged_untagged _ _ _ _ hg, badChoice_reordered h]

/-- Where no alternative is named, neither alone nor with a content, the reader says so. -/
theorem readName_untagged (alternatives : List (String × α)) (hf : ¬ Tagged f)
    (hstring : ∀ name, f ≠ .string (some name)) :
    readName alternatives d f
      = .error (badChoice (alternatives.map Prod.fst) (fun _ => .content) f) := by
  rw [readName]
  · intro name heq
    exact hstring name heq
  · intro name content heq
    exact hf ⟨name, content, heq⟩

/-- Readers of names give the same for both orders. -/
theorem readName_reordered (alternatives : List (String × α)) (h : Reordered f g) :
    readName alternatives d f = readName alternatives d g := by
  by_cases hf : Tagged f
  · obtain ⟨name, content, rfl⟩ := hf
    obtain ⟨content', rfl, hcontent⟩ := h.of_single
    show (d.enter >>= fun _ => _) = (d.enter >>= fun _ => _)
    refine bind_congr_ok fun _ _ => ?_
    -- a name that is known may have an empty content only, and this has no order
    cases alternatives.lookup name with
    | none => rfl
    | some a =>
      obtain rfl | ⟨_, _, rfl, rfl, -⟩ | ⟨_, _, rfl, rfl, -⟩ := hcontent.eq_or_array_or_object
      · rfl
      · rfl
      · rfl
  -- the name may also stand alone, as a text
  · by_cases hstring : ∃ name, f = .string (some name)
    · obtain ⟨name, rfl⟩ := hstring
      cases h
      rfl
    · have hg := hf ∘ (tagged_reordered h).mpr
      have hstring' : ∀ name, g ≠ .string (some name) := by
        rintro name rfl
        cases h
        exact hstring ⟨name, rfl⟩
      rw [readName_untagged _ hf (fun name heq => hstring ⟨name, heq⟩),
        readName_untagged _ hg hstring', badChoice_reordered h]

/-- Readers of texts with a modifier give the same for both orders if the reader of the modifier
does. -/
theorem readModified_reordered (name : String) {modifier : Dialect → Form → Except Mismatch α}
    (hmodifier : ∀ {d f g}, Reordered f g → modifier d f = modifier d g) (h : Reordered f g) :
    readModified name modifier d f = readModified name modifier d g := by
  obtain rfl | ⟨items, items', rfl, rfl, hitems⟩ | ⟨ms, ns, rfl, rfl, hms⟩ :=
    h.eq_or_array_or_object
  · rfl
  -- in an array the members are told by their positions
  · unfold readModified
    refine bind_congr_ok fun d' _ => ?_
    cases hitems with
    | nil => rfl
    | cons hvalue hrest =>
      cases hrest with
      | nil => exact congrArg (· >>= _) (readText_reordered hvalue)
      | cons hmod hrest =>
        have hlength := hrest.length_eq
        simp only [readText_reordered hvalue, readOptional_reordered hmod (hmodifier hmod),
          List.isEmpty_iff_length_eq_zero, List.length_cons, hlength]
  -- in an object they are told by their names, and each part is found in both orders
  · unfold readModified
    refine bind_congr_ok fun d' _ => record_reordered hms fun honce => ?_
    have hmod : (part? "modifier" ms).map (readOptional (modifier d'))
        = (part? "modifier" ns).map (readOptional (modifier d')) :=
      map_part?_reordered hms honce (by simp) fun _ _ _ hfg =>
        readOptional_reordered hfg (hmodifier hfg)
    have hvalue : (part? "value" ms).map readText = (part? "value" ns).map readText :=
      map_part?_reordered hms honce (by simp) fun _ _ _ hfg => readText_reordered hfg
    rw [hmod, hvalue]

/-- The modifiers of terms are read alike in both orders. -/
theorem termModifier_reordered (h : Reordered f g) : termModifier d f = termModifier d g :=
  readTagged_reordered _ _ _ _ h

/-- The modifiers of phrases are read alike in both orders. -/
theorem phraseModifier_reordered (h : Reordered f g) : phraseModifier d f = phraseModifier d g :=
  readTagged_reordered _ _ _ _ h

/-- Operators are read alike in both orders. -/
theorem operator_reordered (h : Reordered f g) : operator d f = operator d g :=
  readName_reordered _ h

/-- Keywords are read alike in both orders. -/
theorem keyword_reordered (h : Reordered f g) : keyword d f = keyword d g :=
  readName_reordered _ h

/-- The order of members does not matter to the reader of terms. -/
theorem term_reordered (h : Reordered f g) : term d f = term d g := by
  have hmodified : readModified "Term" termModifier d f = readModified "Term" termModifier d g :=
    readModified_reordered "Term" termModifier_reordered h
  rw [term, term, hmodified]

/-- The order of members does not matter to the reader of phrases. -/
theorem phrase_reordered (h : Reordered f g) : phrase d f = phrase d g := by
  have hmodified :
      readModified "Phrase" phraseModifier d f = readModified "Phrase" phraseModifier d g :=
    readModified_reordered "Phrase" phraseModifier_reordered h
  rw [phrase, phrase, hmodified]

/-- The order of members does not matter to the reader of ranges. -/
theorem range_reordered (h : Reordered f g) : range d f = range d g := by
  obtain rfl | ⟨items, items', rfl, rfl, hitems⟩ | ⟨ms, ns, rfl, rfl, hms⟩ :=
    h.eq_or_array_or_object
  · rfl
  -- in an array the ends are told by their positions
  · unfold range
    refine bind_congr_ok fun _ _ => ?_
    cases hitems with
    | nil => rfl
    | cons hlower hrest =>
      cases hrest with
      | nil => simp only [readText_reordered hlower]
      | cons hupper hrest =>
        have hlength := hrest.length_eq
        simp only [readText_reordered hlower, readText_reordered hupper,
          List.isEmpty_iff_length_eq_zero, List.length_cons, hlength]
  -- in an object each end is found by its name in both orders
  · unfold range
    refine bind_congr_ok fun _ _ => record_reordered hms fun honce => ?_
    have hlower : (part? "from" ms).map readText = (part? "from" ns).map readText :=
      map_part?_reordered hms honce (by simp) fun _ _ _ hfg => readText_reordered hfg
    have hupper : (part? "to" ms).map readText = (part? "to" ns).map readText :=
      map_part?_reordered hms honce (by simp) fun _ _ _ hfg => readText_reordered hfg
    rw [hlower, hupper]

end Parts

/-! ## §3 Trees -/

section Trees

variable {d : Dialect}

/-- The reader gives the same for all orders of the members of the form. -/
def NodeSettled (d : Dialect) (f : Form) : Prop := ∀ g, Reordered f g → node d f = node d g

def FieldValueSettled (d : Dialect) (f : Form) : Prop :=
  ∀ g, Reordered f g → fieldValue d f = fieldValue d g

/-- A tree that is a member is read alike in both orders. -/
theorem nodeAt_reordered {ms ns : Members} (hms : ReorderedMembers ms ns) {names : List String}
    (honce : membersOnce names ms = .ok ()) {name : String} (hname : name ∈ names)
    (hread : ∀ f ∈ part? name ms, NodeSettled d f) : nodeAt d name ms = nodeAt d name ns := by
  rw [nodeAt_eq_map, nodeAt_eq_map]
  exact map_part?_reordered hms honce hname hread

/-- The value of a field that is a member is read alike in both orders. -/
theorem fieldValueAt_reordered {ms ns : Members} (hms : ReorderedMembers ms ns)
    {names : List String} (honce : membersOnce names ms = .ok ()) {name : String}
    (hname : name ∈ names) (hread : ∀ f ∈ part? name ms, FieldValueSettled d f) :
    fieldValueAt d name ms = fieldValueAt d name ns := by
  rw [fieldValueAt_eq_map, fieldValueAt_eq_map]
  exact map_part?_reordered hms honce hname hread

/-! ### Alternatives that are records -/

/-- Groups are read alike in both orders if what is inside them is. -/
theorem group_settled {ms : Members}
    (hinner : ∀ d, ∀ f ∈ part? "inner" ms, NodeSettled d f) :
    NodeSettled d (.object [(some "Group", .object ms)]) := by
  intro g h
  obtain ⟨content, rfl, hcontent⟩ := h.of_single
  obtain ⟨ns, rfl, hms⟩ := hcontent.of_object
  rw [node, node]
  refine bind_congr_ok fun d₁ _ => bind_congr_ok fun d₂ _ => record_reordered hms fun honce => ?_
  rw [nodeAt_reordered hms honce (by simp) (hinner d₂)]

/-- Operators with operands are read alike in both orders if the operands are. -/
theorem unary_settled {ms : Members}
    (hoperand : ∀ d, ∀ f ∈ part? "operand" ms, NodeSettled d f) :
    NodeSettled d (.object [(some "Unary", .object ms)]) := by
  intro g h
  obtain ⟨content, rfl, hcontent⟩ := h.of_single
  obtain ⟨ns, rfl, hms⟩ := hcontent.of_object
  rw [node, node]
  refine bind_congr_ok fun d₁ _ => bind_congr_ok fun d₂ _ => record_reordered hms fun honce => ?_
  have hoperator : (part? "operator" ms).map (operator d₂)
      = (part? "operator" ns).map (operator d₂) :=
    map_part?_reordered hms honce (by simp) fun _ _ _ hfg => operator_reordered hfg
  rw [nodeAt_reordered hms honce (by simp) (hoperand d₂), hoperator]

/-- Fields are read alike in both orders if their values are. -/
theorem field_settled {ms : Members}
    (hvalue : ∀ d, ∀ f ∈ part? "value" ms, FieldValueSettled d f) :
    NodeSettled d (.object [(some "Field", .object ms)]) := by
  intro g h
  obtain ⟨content, rfl, hcontent⟩ := h.of_single
  obtain ⟨ns, rfl, hms⟩ := hcontent.of_object
  rw [node, node]
  refine bind_congr_ok fun d₁ _ => bind_congr_ok fun d₂ _ => record_reordered hms fun honce => ?_
  have hname : (part? "field" ms).map readText = (part? "field" ns).map readText :=
    map_part?_reordered hms honce (by simp) fun _ _ _ hfg => readText_reordered hfg
  rw [fieldValueAt_reordered hms honce (by simp) (hvalue d₂), hname]

/-! ### The same alternatives with their members in an array -/

/-- Groups whose members stand in an array, where that is allowed. -/
theorem groupItems_settled {items : List Form}
    (hinner : ∀ inside, d.positional = true → ∀ inner, items = [inner] →
      NodeSettled inside inner) :
    NodeSettled d (.object [(some "Group", .array items)]) := by
  intro g h
  obtain ⟨content, rfl, hcontent⟩ := h.of_single
  obtain ⟨items', rfl, hitems⟩ := hcontent.of_array
  rw [node, node]
  refine bind_congr_ok fun d₁ _ => bind_congr_ok fun inside _ => ?_
  have hlength := hitems.length_eq
  cases hpos : d.positional with
  | false => simp only [hlength]
  | true =>
    -- another number of items is a mismatch that tells the number alone
    cases hitems with
    | nil => rfl
    | cons hf hrest =>
      cases hrest with
      | nil => simp only [hinner inside hpos _ rfl _ hf]
      | cons _ _ => simp only [hlength]

/-- Operators and operands that stand in an array, where that is allowed. -/
theorem unaryItems_settled {items : List Form}
    (hoperand : ∀ inside, d.positional = true → ∀ mark operand, items = [mark, operand] →
      NodeSettled inside operand) :
    NodeSettled d (.object [(some "Unary", .array items)]) := by
  intro g h
  obtain ⟨content, rfl, hcontent⟩ := h.of_single
  obtain ⟨items', rfl, hitems⟩ := hcontent.of_array
  rw [node, node]
  refine bind_congr_ok fun d₁ _ => bind_congr_ok fun inside _ => ?_
  have hlength := hitems.length_eq
  cases hpos : d.positional with
  | false => simp only [hlength]
  | true =>
    -- two items are read, and any other number of them is a mismatch that tells the number alone
    cases hitems with
    | nil => rfl
    | cons hmark hrest =>
      cases hrest with
      | nil => rfl
      | cons hf hrest =>
        cases hrest with
        | nil => simp only [operator_reordered hmark, hoperand inside hpos _ _ rfl _ hf]
        | cons _ _ => simp only [hlength]

/-- Names and values of fields that stand in an array, where that is allowed. -/
theorem fieldItems_settled {items : List Form}
    (hvalue : ∀ inside, d.positional = true → ∀ name value, items = [name, value] →
      FieldValueSettled inside value) :
    NodeSettled d (.object [(some "Field", .array items)]) := by
  intro g h
  obtain ⟨content, rfl, hcontent⟩ := h.of_single
  obtain ⟨items', rfl, hitems⟩ := hcontent.of_array
  rw [node, node]
  refine bind_congr_ok fun d₁ _ => bind_congr_ok fun inside _ => ?_
  have hlength := hitems.length_eq
  cases hpos : d.positional with
  | false => simp only [hlength]
  | true =>
    -- two items are read, and any other number of them is a mismatch that tells the number alone
    cases hitems with
    | nil => rfl
    | cons hname hrest =>
      cases hrest with
      | nil => rfl
      | cons hf hrest =>
        cases hrest with
        | nil => simp only [readText_reordered hname, hvalue inside hpos _ _ rfl _ hf]
        | cons _ _ => simp only [hlength]

/-! ### Other contents and other forms -/

/-- Where neither an object nor an array follows the name, there is no other order. -/
theorem leaf_settled {name : String} {content : Form}
    (hobject : ∀ members, content ≠ .object members) (harray : ∀ items, content ≠ .array items) :
    NodeSettled d (.object [(some name, content)]) := by
  intro g h
  obtain ⟨content', rfl, hcontent⟩ := h.of_single
  rw [hcontent.eq_of_leaf hobject harray]

/-- The content of a sequence that is no array is a mismatch in both orders. -/
theorem sequenceOther_settled {content : Form} (harray : ∀ items, content ≠ .array items) :
    NodeSettled d (.object [(some "Sequence", content)]) := by
  intro g h
  obtain ⟨content', rfl, hcontent⟩ := h.of_single
  have harray' : ∀ items, content' ≠ .array items := by
    rintro items rfl
    cases hcontent
    exact harray _ rfl
  rw [node, node, mismatchOf_reordered hcontent]
  · exact harray'
  · exact harray

/-- The form does not give one of the names together with a content. -/
def Lacks (names : List String) (f : Form) : Prop :=
  ∀ name ∈ names, ∀ content, f ≠ .object [(some name, content)]

/-- Reordering brings no name in. -/
theorem Lacks.reordered {names : List String} {f g : Form} (hf : Lacks names f)
    (h : Reordered f g) : Lacks names g := by
  intro name hname content hg
  subst hg
  obtain ⟨content', hf', -⟩ := h.to_single
  exact hf name hname content' hf'

/-- A form that gives none of the six names of trees lacks them. -/
theorem lacks_nodeNames {f : Form} (hterm : ∀ content, f ≠ .object [(some "Term", content)])
    (hphrase : ∀ content, f ≠ .object [(some "Phrase", content)])
    (hgroup : ∀ content, f ≠ .object [(some "Group", content)])
    (hunary : ∀ content, f ≠ .object [(some "Unary", content)])
    (hfield : ∀ content, f ≠ .object [(some "Field", content)])
    (hsequence : ∀ content, f ≠ .object [(some "Sequence", content)]) : Lacks nodeNames f := by
  intro name hname
  simp only [nodeNames, List.mem_cons, List.not_mem_nil, or_false] at hname
  -- one case for each name
  rcases hname with rfl | rfl | rfl | rfl | rfl | rfl
  · exact hterm
  · exact hphrase
  · exact hgroup
  · exact hunary
  · exact hfield
  · exact hsequence

/-- A form that gives none of the three names of values lacks them. -/
theorem lacks_fieldValueNames {f : Form}
    (hoperand : ∀ content, f ≠ .object [(some "Operand", content)])
    (hinclusive : ∀ content, f ≠ .object [(some "Inclusive", content)])
    (hexclusive : ∀ content, f ≠ .object [(some "Exclusive", content)]) :
    Lacks fieldValueNames f := by
  intro name hname
  simp only [fieldValueNames, List.mem_cons, List.not_mem_nil, or_false] at hname
  rcases hname with rfl | rfl | rfl
  · exact hoperand
  · exact hinclusive
  · exact hexclusive

/-- A form that lacks the names of trees is no tree. -/
theorem node_of_lacks {f : Form} (hf : Lacks nodeNames f) :
    node d f = .error (badChoice nodeNames nodeContent f) := by
  unfold node
  split
  -- what is left of the cases of the reader are those that name an alternative
  all_goals first
    | rfl
    | exact absurd rfl (hf _ (by decide) _)

/-- A form that lacks the names of values is no value of a field. -/
theorem fieldValue_of_lacks {f : Form} (hf : Lacks fieldValueNames f) :
    fieldValue d f = .error (badChoice fieldValueNames (fun _ => .content) f) := by
  unfold fieldValue
  split
  all_goals first
    | rfl
    | exact absurd rfl (hf _ (by decide) _)

/-- Forms that are no trees are so in both orders. -/
theorem lacks_settled {f : Form} (hf : Lacks nodeNames f) : NodeSettled d f := by
  intro g h
  rw [node_of_lacks hf, node_of_lacks (hf.reordered h), badChoice_reordered h]

/-- Forms that are no values of fields are so in both orders. -/
theorem lacks_fieldValueSettled {f : Form} (hf : Lacks fieldValueNames f) :
    FieldValueSettled d f := by
  intro g h
  rw [fieldValue_of_lacks hf, fieldValue_of_lacks (hf.reordered h), badChoice_reordered h]

/-! ### All forms -/

/-- The induction follows the reader: a member is looked at only if it is the first one with its
name, so what holds of the members is stated for the one that is found. -/
theorem settled :
    (∀ (d : Dialect) (f : Form), NodeSettled d f) ∧
    (∀ (d : Dialect) (fs gs : List Form), ReorderedItems fs gs → nodes d fs = nodes d gs) ∧
    (∀ (d : Dialect) (f : Form), FieldValueSettled d f) ∧
    (∀ (d : Dialect) (name : String) (ms : Members), ∀ f ∈ part? name ms, FieldValueSettled d f) ∧
    (∀ (d : Dialect) (name : String) (ms : Members), ∀ f ∈ part? name ms, NodeSettled d f) := by
  refine node.mutual_induct NodeSettled
    (fun d fs => ∀ gs, ReorderedItems fs gs → nodes d fs = nodes d gs)
    FieldValueSettled
    (fun d name ms => ∀ f ∈ part? name ms, FieldValueSettled d f)
    (fun d name ms => ∀ f ∈ part? name ms, NodeSettled d f)
    ?term ?phrase ?group ?groupItems ?groupOther ?unary ?unaryItems ?unaryOther ?field ?fieldItems
    ?fieldOther ?sequence ?sequenceOther ?other ?operand ?inclusive ?exclusive ?valueOther
    ?nil ?cons ?valueAtNil ?valueAtHere ?valueAtBelow ?nodeAtNil ?nodeAtHere ?nodeAtBelow
  -- the alternatives of a tree
  case term =>
    intro d content g h
    obtain ⟨content', rfl, hcontent⟩ := h.of_single
    rw [node, node]
    exact bind_congr_ok fun d' _ => by rw [term_reordered hcontent]
  case phrase =>
    intro d content g h
    obtain ⟨content', rfl, hcontent⟩ := h.of_single
    rw [node, node]
    exact bind_congr_ok fun d' _ => by rw [phrase_reordered hcontent]
  case group => exact fun d members ih => group_settled ih
  case groupItems =>
    intro d items ih
    apply groupItems_settled
    rintro inside hpos inner rfl
    simpa [hpos] using ih inside
  case groupOther => exact fun d content hobject harray => leaf_settled hobject harray
  case unary => exact fun d members ih => unary_settled ih
  case unaryItems =>
    intro d items ih
    apply unaryItems_settled
    rintro inside hpos mark operand rfl
    simpa [hpos] using ih inside
  case unaryOther => exact fun d content hobject harray => leaf_settled hobject harray
  case field => exact fun d members ih => field_settled ih
  case fieldItems =>
    intro d items ih
    apply fieldItems_settled
    rintro inside hpos name value rfl
    simpa [hpos] using ih inside
  case fieldOther => exact fun d content hobject harray => leaf_settled hobject harray
  case sequence =>
    intro d items ih g h
    obtain ⟨content, rfl, hcontent⟩ := h.of_single
    obtain ⟨items', rfl, hitems⟩ := hcontent.of_array
    rw [node, node]
    exact bind_congr_ok fun d₁ _ => bind_congr_ok fun d₂ _ => by rw [ih d₂ items' hitems]
  case sequenceOther => exact fun d content harray => sequenceOther_settled harray
  case other =>
    intro d f hterm hphrase _ _ hgroup _ _ hunary _ _ hfield _ hsequence
    exact lacks_settled (lacks_nodeNames hterm hphrase hgroup hunary hfield hsequence)
  -- the alternatives of the value of a field
  case operand =>
    intro d content ih g h
    obtain ⟨content', rfl, hcontent⟩ := h.of_single
    rw [fieldValue, fieldValue]
    exact bind_congr_ok fun d' _ => by rw [ih d' content' hcontent]
  case inclusive =>
    intro d content g h
    obtain ⟨content', rfl, hcontent⟩ := h.of_single
    rw [fieldValue, fieldValue]
    exact bind_congr_ok fun d' _ => by rw [range_reordered hcontent]
  case exclusive =>
    intro d content g h
    obtain ⟨content', rfl, hcontent⟩ := h.of_single
    rw [fieldValue, fieldValue]
    exact bind_congr_ok fun d' _ => by rw [range_reordered hcontent]
  case valueOther =>
    intro d f hoperand hinclusive hexclusive
    exact lacks_fieldValueSettled (lacks_fieldValueNames hoperand hinclusive hexclusive)
  -- the items of a sequence
  case nil =>
    intro d gs h
    cases h
    rfl
  case cons =>
    intro d f fs ihf ihfs gs h
    cases h with
    | cons hf hfs => rw [nodes, nodes, ihf _ hf, ihfs _ hfs]
  -- looking a member up: it is the first one, or it is among the others
  case valueAtNil =>
    intro d name f hf
    cases hf
  case valueAtHere => exact fun d name f rest ih => forall_part?_here ih
  case valueAtBelow => exact fun d name key f rest hkey ih => forall_part?_below hkey ih
  case nodeAtNil =>
    intro d name f hf
    cases hf
  case nodeAtHere => exact fun d name f rest ih => forall_part?_here ih
  case nodeAtBelow => exact fun d name key f rest hkey ih => forall_part?_below hkey ih

/-- The order of members does not matter to the reader of trees. -/
theorem node_reordered {f g : Form} (h : Reordered f g) : node d f = node d g :=
  settled.1 d f g h

/-- The order of members does not matter to the reader of the values of fields. -/
theorem fieldValue_reordered {f g : Form} (h : Reordered f g) : fieldValue d f = fieldValue d g :=
  settled.2.2.1 d f g h

end Trees

/-! ## §4 Sorted values -/

/-- A reader that does not mind the order of members reads a sorted value as it reads the value. -/
theorem ofValue_sorted {α : Type} {read : Dialect → Form → Except Mismatch α}
    (horder : ∀ d f g, Reordered f g → read d f = read d g) {v : Value} (hv : v.Distinct) :
    ofValue read v.sorted = ofValue read v :=
  (horder .value _ _ (Value.reordered_form_sorted v hv)).symm

end CanonicalQuery.Typed
