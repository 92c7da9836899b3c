import CanonicalQuery.Json.Form
import CanonicalQuery.Proofs.Json.Members

/-!
# Forms that differ in the order of members

An object is a map, but a form keeps its members in the order of a text.  Two forms are *reordered*
when they differ in this order only, at any depth.  Sorting a value reorders its form, unless some
object of the value repeats a key: then sorting drops a member.

## Main definitions

- `Reordered`: forms that differ in the order of members only; `ReorderedMembers`: the members of
  two such objects.
- `Value.Distinct`: no object of the value repeats a key.

## Main statements

- `Reordered.of_single`, `Reordered.to_single`: an object with one member has no other order.
- `Value.reordered_form_sorted`: sorting a value without repeated keys reorders its form.
-/

namespace CanonicalQuery.Json

/-! ## §1 Reordered forms -/

mutual

/-- The forms differ in the order of the members of objects only. -/
inductive Reordered : Form → Form → Prop where
  | null : Reordered .null .null
  | bool (b : Bool) : Reordered (.bool b) (.bool b)
  | number (literal : String) : Reordered (.number literal) (.number literal)
  | string (text : Option String) : Reordered (.string text) (.string text)
  | array {items items' : List Form} :
    ReorderedItems items items' → Reordered (.array items) (.array items')
  /-- The contents of the members are reordered, and then the members themselves. -/
  | object {members middle members' : List (Option String × Form)} :
    ReorderedContents members middle → middle.Perm members' →
      Reordered (.object members) (.object members')

/-- Items of arrays that are reordered one by one. -/
inductive ReorderedItems : List Form → List Form → Prop where
  | nil : ReorderedItems [] []
  | cons {f g : Form} {fs gs : List Form} :
    Reordered f g → ReorderedItems fs gs → ReorderedItems (f :: fs) (g :: gs)

/-- Members with the same keys in the same order whose contents are reordered. -/
inductive ReorderedContents :
    List (Option String × Form) → List (Option String × Form) → Prop where
  | nil : ReorderedContents [] []
  | cons (key : Option String) {f g : Form} {ms ns : List (Option String × Form)} :
    Reordered f g → ReorderedContents ms ns → ReorderedContents ((key, f) :: ms) ((key, g) :: ns)

end

/-- Reordering the contents leaves the keys as they are. -/
theorem ReorderedContents.keys_eq {ms ns : List (Option String × Form)}
    (h : ReorderedContents ms ns) : ms.map Prod.fst = ns.map Prod.fst := by
  induction ms generalizing ns with
  | nil =>
    cases h
    rfl
  | cons m ms ih =>
    cases h with
    | cons key _ hms => rw [List.map_cons, List.map_cons, ih hms]

/-- Reordering the items of an array leaves their number. -/
theorem ReorderedItems.length_eq {fs gs : List Form} (h : ReorderedItems fs gs) :
    fs.length = gs.length := by
  induction fs generalizing gs with
  | nil =>
    cases h
    rfl
  | cons f fs ih =>
    cases h with
    | cons _ hfs => rw [List.length_cons, List.length_cons, ih hfs]

/-- The items at one position are reordered, or there are none in both arrays. -/
theorem ReorderedItems.getElem? {fs gs : List Form} (h : ReorderedItems fs gs) (i : Nat) :
    Option.Rel Reordered fs[i]? gs[i]? := by
  -- on the items of one array, which are those of the other in turn
  induction fs generalizing gs i with
  | nil =>
    cases h
    exact .none
  | cons f fs ih =>
    cases h with
    | cons hf hfs =>
      cases i with
      | zero => exact .some hf
      | succ i => exact ih hfs i

/-- The contents of the members are reordered, and then the members themselves. -/
def ReorderedMembers (ms ns : List (Option String × Form)) : Prop :=
  ∃ middle, ReorderedContents ms middle ∧ middle.Perm ns

/-- An array is reordered by reordering its items. -/
theorem Reordered.of_array {items : List Form} {g : Form} (h : Reordered (.array items) g) :
    ∃ items', g = .array items' ∧ ReorderedItems items items' := by
  cases h with
  | array hitems => exact ⟨_, rfl, hitems⟩

/-- An object is reordered by reordering its members. -/
theorem Reordered.of_object {ms : List (Option String × Form)} {g : Form}
    (h : Reordered (.object ms) g) : ∃ ns, g = .object ns ∧ ReorderedMembers ms ns := by
  cases h with
  | object hcontents hperm => exact ⟨_, rfl, _, hcontents, hperm⟩

/-- An object with one member is reordered by reordering the content of this member. -/
theorem Reordered.of_single {key : Option String} {f g : Form}
    (h : Reordered (.object [(key, f)]) g) : ∃ f', g = .object [(key, f')] ∧ Reordered f f' := by
  cases h with
  | object hcontents hperm =>
    cases hcontents with
    | cons _ hf hrest =>
      cases hrest
      -- one member can stand in one order only
      obtain rfl := List.singleton_perm.mp hperm
      exact ⟨_, rfl, hf⟩

/-- A form that is reordered into an object with one member is such an object. -/
theorem Reordered.to_single {key : Option String} {f g : Form}
    (h : Reordered f (.object [(key, g)])) : ∃ g', f = .object [(key, g')] ∧ Reordered g' g := by
  cases h with
  | object hcontents hperm =>
    -- the middle has one member as well, and its content is reordered from the first one's
    obtain rfl := List.perm_singleton.mp hperm
    cases hcontents with
    | cons _ hg hrest =>
      cases hrest
      exact ⟨_, rfl, hg⟩

/-- Only arrays and objects are ever reordered. -/
theorem Reordered.eq_or_array_or_object {f g : Form} (h : Reordered f g) :
    f = g ∨
    (∃ items items', f = .array items ∧ g = .array items' ∧ ReorderedItems items items') ∨
    ∃ ms ns, f = .object ms ∧ g = .object ns ∧ ReorderedMembers ms ns := by
  cases h with
  | null => exact .inl rfl
  | bool b => exact .inl rfl
  | number literal => exact .inl rfl
  | string text => exact .inl rfl
  | array hitems => exact .inr (.inl ⟨_, _, rfl, rfl, hitems⟩)
  | object hcontents hperm => exact .inr (.inr ⟨_, _, rfl, rfl, _, hcontents, hperm⟩)

/-- A form that is neither an array nor an object is not reordered. -/
theorem Reordered.eq_of_leaf {f g : Form} (h : Reordered f g)
    (hobject : ∀ members, f ≠ .object members) (harray : ∀ items, f ≠ .array items) : f = g := by
  obtain heq | ⟨items, _, hf, -⟩ | ⟨members, _, hf, -⟩ := h.eq_or_array_or_object
  · exact heq
  · exact absurd hf (harray items)
  · exact absurd hf (hobject members)

/-! ## §2 Sorting reorders -/

namespace Value

mutual

/-- No object of the value repeats a key. -/
def Distinct : Value → Prop
  | .null => True
  | .bool _ => True
  | .number _ => True
  | .string _ => True
  | .array items => DistinctItems items
  | .object members => (Members.keys members).Nodup ∧ DistinctMembers members

/-- No object in the items of an array repeats a key. -/
def DistinctItems : List Value → Prop
  | [] => True
  | v :: vs => Distinct v ∧ DistinctItems vs

/-- No object in the values of an object repeats a key. -/
def DistinctMembers : List (String × Value) → Prop
  | [] => True
  | (_, v) :: rest => Distinct v ∧ DistinctMembers rest

end

/-- The forms of members are those of their values, under the same keys. -/
theorem memberForms_eq_map (ms : List (String × Value)) :
    form.memberForms ms = ms.map fun m => (some m.1, m.2.form) := by
  induction ms with
  | nil => rfl
  | cons m ms ih => simp [form.memberForms, ih]

/-- Sorting the values of members leaves the keys. -/
theorem keys_sortedMembers (ms : List (String × Value)) :
    Members.keys (sorted.sortedMembers ms) = Members.keys ms := by
  rw [sortedMembers_eq_map, Members.keys, Members.keys, List.map_map]
  rfl

mutual

/-- Sorting a value without repeated keys changes the order of members only. -/
theorem reordered_form_sorted : ∀ v : Value, v.Distinct → Reordered v.form v.sorted.form
  | .null, _ => .null
  | .bool b, _ => .bool b
  | .number n, _ => .number n
  | .string s, _ => .string (some s)
  | .array items, h => .array (reordered_itemForms_sorted items h)
  | .object members, ⟨hkeys, hmembers⟩ => by
    -- sort the values of the members first, and then the members by their keys
    have hperm : (Members.ofList (sorted.sortedMembers members)).Perm
        (sorted.sortedMembers members) :=
      Members.ofList_perm (by rwa [keys_sortedMembers])
    refine .object (reordered_memberForms_sorted members hmembers) ?_
    rw [memberForms_eq_map, memberForms_eq_map]
    exact hperm.symm.map _

theorem reordered_itemForms_sorted : ∀ vs : List Value, DistinctItems vs →
    ReorderedItems (form.itemForms vs) (form.itemForms (sorted.sortedItems vs))
  | [], _ => .nil
  | v :: vs, ⟨hv, hvs⟩ =>
    .cons (reordered_form_sorted v hv) (reordered_itemForms_sorted vs hvs)

theorem reordered_memberForms_sorted : ∀ ms : List (String × Value), DistinctMembers ms →
    ReorderedContents (form.memberForms ms) (form.memberForms (sorted.sortedMembers ms))
  | [], _ => .nil
  | (key, v) :: ms, ⟨hv, hms⟩ =>
    .cons (some key) (reordered_form_sorted v hv) (reordered_memberForms_sorted ms hms)

end

end Value

end CanonicalQuery.Json
