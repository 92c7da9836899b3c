import CanonicalQuery.Toml.Item

/-!
# Entries by key

Whatever adds to a table acts at one key, the first of its path.  What stands under other keys
stays, and what comes to stand under that key depends on nothing but what stood there.  If a table
stands there afterwards, it did so before or was missing, and what was added went into it.

## Main definitions

- `ActsAt`: a step acts at one key of a table.
- `through?`: the common shape of the steps that lead on into what stands under a key.
- `TableAt`: what stands under a key is a table with given entries, or it is missing.

## Main statements

- `actsAt_put?`, `actsAt_within?`, `actsAt_append?`, `actsAt_declare?`: each step acts at one key.
- `TableAt.put?_cons`, `TableAt.within?_cons`, `TableAt.declare?`: a step goes on inside of a table.
-/

namespace CanonicalQuery.Toml.Entries

variable {key other : String} {item : Item} {entries entries' inner inner' : Entries}
variable {step change fill : Entries → Option Entries}

/-! ## §1 Looking up -/

theorem get?_cons (entry : String × Item) :
    get? key (entry :: entries) = if key = entry.1 then some entry.2 else get? key entries := by
  rw [get?, List.lookup_cons]
  by_cases h : key = entry.1
  · simp [h]
  · rw [beq_eq_false_iff_ne.mpr h, if_neg h]
    rfl

theorem get?_append (entries others : Entries) :
    get? key (entries ++ others) = (get? key entries).or (get? key others) :=
  List.lookup_append

theorem get?_append_of_ne (h : other ≠ key) (entries : Entries) :
    get? other (entries ++ [(key, item)]) = get? other entries := by
  rw [get?_append, get?_cons, if_neg h]
  exact Option.or_none

/-- What is added under a new key is found there. -/
theorem get?_append_self (h : get? key entries = none) :
    get? key (entries ++ [(key, item)]) = some item := by
  rw [get?_append, get?_cons, if_pos rfl, h, Option.none_or]

/-- Nothing is found under just the keys that are not there. -/
theorem get?_eq_none_iff : get? key entries = none ↔ key ∉ entries.map Prod.fst := by
  induction entries with
  | nil => simp [get?]
  | cons entry rest ih =>
    rw [get?_cons, List.map_cons, List.mem_cons, not_or, ← ih]
    split
    · next heq => simp [heq]
    · next hne => simp [hne]

@[simp]
theorem get?_set_self (entries : Entries) : get? key (set key item entries) = some item := by
  induction entries with
  | nil => simp [set, get?_cons]
  | cons entry rest ih =>
    rw [set]
    split
    · rw [get?_cons, if_pos rfl]
    · next hne => rw [get?_cons, if_neg (Ne.symm hne), ih]

/-- Setting an item leaves the others. -/
theorem get?_set_of_ne (h : other ≠ key) (entries : Entries) :
    get? other (set key item entries) = get? other entries := by
  induction entries with
  | nil => simp [set, get?_cons, h]
  | cons entry rest ih =>
    rw [set]
    split
    -- the item that is replaced stands under the key, and so not under the other one
    · next heq => rw [get?_cons, get?_cons, if_neg h, if_neg (heq ▸ h)]
    · rw [get?_cons, get?_cons, ih]

/-- Setting an item under a new key adds it behind the others. -/
theorem set_of_get?_eq_none (h : get? key entries = none) :
    set key item entries = entries ++ [(key, item)] := by
  induction entries with
  | nil => rfl
  | cons entry rest ih =>
    rw [get?_cons] at h
    split at h
    · cases h
    · next hne => rw [set, if_neg (Ne.symm hne), ih h, List.cons_append]

/-- What is erased is not found any more. -/
theorem get?_erase_self (entries : Entries) : get? key (erase key entries) = none := by
  refine List.lookup_eq_none_iff.mpr fun entry hentry => ?_
  have hne : entry.1 ≠ key := by simpa using (List.mem_filter.mp hentry).2
  simpa using Ne.symm hne

/-- Erasing leaves what stands under other keys. -/
theorem get?_erase_of_ne (h : other ≠ key) (entries : Entries) :
    get? other (erase key entries) = get? other entries := by
  induction entries with
  | nil => rfl
  | cons entry rest ih =>
    -- the first entry is dropped, or it stays and is looked at
    by_cases hkey : entry.1 = key
    · have herase : erase key (entry :: rest) = erase key rest :=
        List.filter_cons_of_neg (by simp [hkey])
      rw [herase, ih, get?_cons, if_neg (hkey ▸ h)]
    · have herase : erase key (entry :: rest) = entry :: erase key rest :=
        List.filter_cons_of_pos (by simp [hkey])
      rw [herase, get?_cons, get?_cons, ih]

/-! ## §2 Steps act at one key -/

/-- A step acts at one key: it leaves what stands under other keys, and what it puts under its own
key depends only on what stood there. -/
structure ActsAt (key : String) (step : Entries → Option Entries) : Prop where
  frame : ∀ {entries entries'}, step entries = some entries' →
    ∀ other ≠ key, get? other entries' = get? other entries
  slot : ∀ {entries others}, get? key entries = get? key others →
    (step entries).map (get? key) = (step others).map (get? key)

/-- A step acts at the key where it sets what it makes of the item there. -/
theorem actsAt_of_set (next : Option Item → Option Item)
    (h : ∀ entries, step entries = (next (get? key entries)).map (set key · entries)) :
    ActsAt key step where
  frame hstep other hne := by
    rw [h] at hstep
    obtain ⟨item, -, rfl⟩ := Option.map_eq_some_iff.mp hstep
    exact get?_set_of_ne hne _
  slot hsame := by
    rw [h, h, hsame, Option.map_map, Option.map_map]
    -- what was set is found, in either table
    refine congrArg (Option.map · _) (funext fun item => ?_)
    exact (get?_set_self _).trans (get?_set_self _).symm

/-- What stands under the same key in two tables, a step at this key makes the same of it. -/
theorem ActsAt.mirrored (h : ActsAt key step) {others : Entries}
    (hsame : get? key others = get? key entries) (hstep : step entries = some entries') :
    ∃ others', step others = some others' ∧ get? key others' = get? key entries' := by
  have hslot := h.slot hsame
  rw [hstep, Option.map_some] at hslot
  exact Option.map_eq_some_iff.mp hslot

/-! ## §3 Ways into an item -/

/-- The entries to which a path leads on from an item, and the item with others in their place. -/
abbrev Passage := Entries × (Entries → Item)

/-- The way that a dotted key takes, either at its last step or before it. -/
def byKey? (last : Bool) : Option Item → Option Passage
  | none => some ([], .table .dotted)
  | some (.table .dotted inner) => some (inner, .table .dotted)
  | some (.table .implied inner) => if last then none else some (inner, .table .implied)
  | some (.elements inner earlier) => if last then none else some (inner, (.elements · earlier))
  | some _ => none

/-- The way that a header takes. -/
def byHeader? : Option Item → Option Passage
  | none => some ([], .table .implied)
  | some (.table .inline _) => none
  | some (.table definition inner) => some (inner, .table definition)
  | some (.elements inner earlier) => some (inner, (.elements · earlier))
  | some _ => none

/-- Change the entries that a way leads to from what stands under a key. -/
def through? (way : Option Item → Option Passage) (key : String)
    (change : Entries → Option Entries) (entries : Entries) : Option Entries := do
  let (inner, rebuild) ← way (get? key entries)
  return set key (rebuild (← change inner)) entries

/-- A dotted key leads on through what stands under its first part. -/
theorem put?_cons (step : String) (path : List String) (key : String) (item : Item) :
    put? (step :: path) key item = through? (byKey? path.isEmpty) step (put? path key item) := by
  funext entries
  rw [put?, through?]
  cases get? step entries with
  | none => rfl
  | some found =>
    cases found with
    | scalar => rfl
    | string => rfl
    | array => rfl
    -- how a table was defined decides whether a dotted key may enter it
    | table definition inner => cases definition <;> cases path <;> rfl
    | elements last earlier => cases path <;> rfl

/-- A header leads on through what stands under its first part. -/
theorem within?_cons (change : Entries → Option Entries) (step : String) (path : List String) :
    within? change (step :: path) = through? byHeader? step (within? change path) := by
  funext entries
  rw [within?, through?]
  cases get? step entries with
  | none => rfl
  | some found =>
    cases found with
    | scalar => rfl
    | string => rfl
    | array => rfl
    | table definition inner => cases definition <;> rfl
    | elements last earlier => rfl

/-- A step that leads on acts at the key through which it leads. -/
theorem actsAt_through? (way : Option Item → Option Passage) (key : String)
    (change : Entries → Option Entries) : ActsAt key (through? way key change) := by
  refine actsAt_of_set (fun found => do
    let (inner, rebuild) ← way found
    return rebuild (← change inner)) fun entries => ?_
  rw [through?]
  cases way (get? key entries) with
  | none => rfl
  -- nothing is set if the change inside fails
  | some passage => cases hchange : change passage.1 <;> simp [hchange]

/-- Setting a value at a path acts at the first key of the path. -/
theorem actsAt_put? (path : List String) (key : String) (item : Item) :
    ActsAt (path.headD key) (put? path key item) := by
  cases path with
  | nil =>
    refine actsAt_of_set (fun found => if found.isNone then some item else none) fun entries => ?_
    -- at the last key, a value is put only where none stands
    rw [put?, List.headD_nil]
    split
    · next hnone =>
      rw [Option.map_some, set_of_get?_eq_none (Option.isNone_iff_eq_none.mp hnone)]
    · rfl
  | cons step path =>
    rw [put?_cons]
    exact actsAt_through? _ step _

/-- A change under a header acts at the first key of its path. -/
theorem actsAt_within? (h : ActsAt key change) (path : List String) :
    ActsAt (path.headD key) (within? change path) := by
  cases path with
  | nil => exact h
  | cons step path =>
    rw [within?_cons]
    exact actsAt_through? _ step _

/-- One more element behind those that stand under a key. -/
def extended? (fill : Entries → Option Entries) : Option Item → Option Item
  | none => do return .elements (← fill []) []
  | some (.elements last earlier) => do return .elements (← fill []) (last :: earlier)
  | some _ => none

/-- Adding an element acts at the key of the elements. -/
theorem actsAt_append? (fill : Entries → Option Entries) (key : String) :
    ActsAt key (append? fill key) := by
  refine actsAt_of_set (extended? fill) fun entries => ?_
  rw [append?]
  cases h : get? key entries with
  | none => cases hfill : fill [] <;> simp [extended?, hfill, set_of_get?_eq_none h]
  | some found =>
    cases found with
    | elements last earlier => cases hfill : fill [] <;> simp [extended?, hfill]
    | _ => rfl

/-- Declaring a table acts at its key. -/
theorem actsAt_declare? (fill : Entries → Option Entries) (key : String) :
    ActsAt key (declare? fill key) where
  -- a declared table moves behind all other entries, so this step is no setting of an item
  frame := by
    intro entries entries' h other hne
    rw [declare?] at h
    split at h
    -- the table is new
    · obtain ⟨inner, -, h⟩ := Option.bind_eq_some_iff.mp h
      obtain rfl := Option.some.inj h
      exact get?_append_of_ne hne _
    -- the table was implied, and moves to the end
    · obtain ⟨inner, -, h⟩ := Option.bind_eq_some_iff.mp h
      obtain rfl := Option.some.inj h
      rw [get?_append_of_ne hne, get?_erase_of_ne hne]
    · cases h
  slot := by
    intro entries others h
    rw [declare?, declare?, h]
    split
    · next hnone =>
      cases fill [] with
      | none => rfl
      | some inner => simp [get?_append_self hnone, get?_append_self (h.trans hnone)]
    · next himplied =>
      cases fill _ with
      | none => rfl
      | some inner => simp [get?_append_self (get?_erase_self _)]
    · rfl

/-! ## §4 Tables at a key -/

/-- What stands under a key is a table with these entries; if it is missing, it has none. -/
inductive TableAt (key : String) (entries : Entries) : Entries → Prop where
  | missing : get? key entries = none → TableAt key entries []
  | table {definition : Definition} {inner : Entries} :
      get? key entries = some (.table definition inner) → TableAt key entries inner

/-- What stands under a key is seen from the item there. -/
theorem TableAt.of_get?_eq (h : TableAt key entries inner)
    (hsame : get? key entries' = get? key entries) : TableAt key entries' inner := by
  cases h with
  | missing hmissing => exact .missing (hsame.trans hmissing)
  | table htable => exact .table (hsame.trans htable)

/-- An item where a table stands is a table. -/
theorem TableAt.exists_of_some (h : TableAt key entries inner)
    (hitem : get? key entries = some item) : ∃ definition, item = .table definition inner := by
  cases h with
  | missing hmissing => cases hmissing.symm.trans hitem
  | table htable => exact ⟨_, Option.some.inj (hitem.symm.trans htable)⟩

/-- The ways into an item: tables stay tables, and elements stay elements. -/
inductive Opens : Option Item → Passage → Prop where
  | missing (definition : Definition) : Opens none ([], .table definition)
  | table (definition : Definition) (inner : Entries) :
      Opens (some (.table definition inner)) (inner, .table definition)
  | elements (last : Entries) (earlier : List Entries) :
      Opens (some (.elements last earlier)) (last, (.elements · earlier))

/-- Dotted keys keep tables and elements what they are. -/
theorem opens_byKey? {last : Bool} {found : Option Item} {passage : Passage}
    (h : byKey? last found = some passage) : Opens found passage := by
  unfold byKey? at h
  -- what is missing, what a dotted key made, what a header implied, elements, or anything else
  split at h
  · obtain rfl := Option.some.inj h
    exact .missing .dotted
  · obtain rfl := Option.some.inj h
    exact .table .dotted _
  · split at h
    · cases h
    · obtain rfl := Option.some.inj h
      exact .table .implied _
  · split at h
    · cases h
    · obtain rfl := Option.some.inj h
      exact .elements _ _
  · cases h

/-- Headers keep tables and elements what they are. -/
theorem opens_byHeader? {found : Option Item} {passage : Passage}
    (h : byHeader? found = some passage) : Opens found passage := by
  unfold byHeader? at h
  split at h
  · obtain rfl := Option.some.inj h
    exact .missing .implied
  · cases h
  · obtain rfl := Option.some.inj h
    exact .table _ _
  · obtain rfl := Option.some.inj h
    exact .elements _ _
  · cases h

/-- A step that finds a way into a table changes the entries in there. -/
theorem TableAt.through? {way : Option Item → Option Passage}
    (hway : ∀ {found passage}, way found = some passage → Opens found passage)
    (hstep : Entries.through? way key change entries = some entries')
    (h : TableAt key entries' inner') :
    ∃ inner, TableAt key entries inner ∧ change inner = some inner' := by
  obtain ⟨⟨last, rebuild⟩, hpassage, hstep⟩ := Option.bind_eq_some_iff.mp hstep
  obtain ⟨changed, hchange, hstep⟩ := Option.bind_eq_some_iff.mp hstep
  obtain rfl := Option.some.inj hstep
  obtain ⟨definition, hrebuilt⟩ := h.exists_of_some (get?_set_self _)
  -- the result is a table, so the way did not lead through elements
  have hopens := hway hpassage
  generalize hfound : get? key entries = found at hopens
  cases hopens with
  | missing =>
    cases hrebuilt
    exact ⟨[], .missing hfound, hchange⟩
  | table =>
    cases hrebuilt
    exact ⟨_, .table hfound, hchange⟩
  | elements => cases hrebuilt

/-- A value at a path goes into the table under the first key. -/
theorem TableAt.put?_cons {path : List String} {k : String}
    (hstep : put? (key :: path) k item entries = some entries') (h : TableAt key entries' inner') :
    ∃ inner, TableAt key entries inner ∧ put? path k item inner = some inner' := by
  rw [Entries.put?_cons] at hstep
  exact h.through? opens_byKey? hstep

/-- A change under a header goes into the table under the first key. -/
theorem TableAt.within?_cons {path : List String}
    (hstep : within? change (key :: path) entries = some entries')
    (h : TableAt key entries' inner') :
    ∃ inner, TableAt key entries inner ∧ within? change path inner = some inner' := by
  rw [Entries.within?_cons] at hstep
  exact h.through? opens_byHeader? hstep

/-- A value that is a table afterwards is put where nothing stood. -/
theorem TableAt.put?_nil (hstep : put? [] key item entries = some entries')
    (h : TableAt key entries' inner') :
    TableAt key entries [] ∧ ∃ definition, item = .table definition inner' := by
  rw [put?] at hstep
  split at hstep
  · next hnone =>
    have hmissing := Option.isNone_iff_eq_none.mp hnone
    obtain rfl := Option.some.inj hstep
    exact ⟨.missing hmissing, h.exists_of_some (get?_append_self hmissing)⟩
  · cases hstep

/-- A declared table is filled from what stood there before. -/
theorem TableAt.declare? (hstep : Entries.declare? fill key entries = some entries')
    (h : TableAt key entries' inner') :
    ∃ inner, TableAt key entries inner ∧ fill inner = some inner' := by
  rw [Entries.declare?] at hstep
  split at hstep
  · next hmissing =>
    obtain ⟨filled, hfill, hstep⟩ := Option.bind_eq_some_iff.mp hstep
    obtain rfl := Option.some.inj hstep
    obtain ⟨_, ⟨⟩⟩ := h.exists_of_some (get?_append_self hmissing)
    exact ⟨[], .missing hmissing, hfill⟩
  -- the implied table is erased, and its entries are in the declared one
  · next himplied =>
    obtain ⟨filled, hfill, hstep⟩ := Option.bind_eq_some_iff.mp hstep
    obtain rfl := Option.some.inj hstep
    obtain ⟨_, ⟨⟩⟩ := h.exists_of_some (get?_append_self (get?_erase_self _))
    exact ⟨_, .table himplied, hfill⟩
  · cases hstep

/-- Where one more element was added, there is no table. -/
theorem TableAt.not_append? (hstep : append? fill key entries = some entries') :
    ¬ TableAt key entries' inner' := by
  intro h
  rw [append?] at hstep
  split at hstep
  · next hmissing =>
    obtain ⟨filled, -, hstep⟩ := Option.bind_eq_some_iff.mp hstep
    obtain rfl := Option.some.inj hstep
    obtain ⟨_, ⟨⟩⟩ := h.exists_of_some (get?_append_self hmissing)
  -- elements stood there, and they stay elements
  · obtain ⟨filled, -, hstep⟩ := Option.bind_eq_some_iff.mp hstep
    obtain rfl := Option.some.inj hstep
    obtain ⟨_, ⟨⟩⟩ := h.exists_of_some (get?_set_self _)
  · cases hstep

end CanonicalQuery.Toml.Entries
