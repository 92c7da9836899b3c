import CanonicalQuery.Proofs.Tree.Faults

/-!
# All defects of a value

A value may have many defects.  Here they are all collected, without stopping at the first, and in a
fixed order: the items of an array from left to right, the parts of an object in an order that does
not depend on its keys, and of a marker its entry before its key.  Below a shape that nothing
handles, nothing is looked at.

The list is made by a function of its own, which knows nothing of the reader.  It is compared with
the grammar: it holds what is wrong with a value, and nothing else.

## Main definitions

- `partOrder`: the order in which the parts of an object are looked at.
- `defects`: all defects of a value in the place of a category.

## Main statements

- `defects_object`: the defects of an object are those of its parts, in the order of parts.
- `mem_defects_iff`: the list holds exactly the defects that the value has.
-/

namespace CanonicalQuery

open CanonicalQuery.Json

namespace Tree

/-! ## §1 Collecting defects -/

/-- The order in which the parts of an object are looked at. -/
def partOrder : List String :=
  ["similarity", "term", "phrase", "boost", "distance", "group", "unary_operator", "field",
    "operand", "inclusive_range", "exclusive_range", "from", "to"]

/-- The keys that the object of a marker may have. -/
def markerNames : List String :=
  ["unary_operator", "required", "prohibited"]

/-- What is wrong with a symbol that is given under a name. -/
def symbolFaults (name symbol : String) : List Fault :=
  match Operator.ofSymbol? symbol with
  | none => [.unknownSymbol name symbol]
  | some o =>
    if name ≠ o.name ∧ (name = "required" ∨ name = "prohibited") then [.otherSymbol name symbol]
    else []

/-- What is wrong with what a marker holds under a name. -/
def entryFaults (name : String) : Value → List Fault
  | .string symbol => symbolFaults name symbol
  | entry => [.notText name entry.kind]

/-- The faults of a marker with a single entry: those of the entry stand before that of the key. -/
def markerFaults (name : String) (entry : Value) : List Fault :=
  entryFaults name entry ++
    if name ∈ markerNames then [] else [.unhandled (.keys [name])]

/-- The shape of a category that has the keys of an object. -/
def outlineOf? (c : Category) (members : List (String × Value)) :
    Option (List (String × Category)) :=
  (shapes c).find? fun outline => Members.keys outline = Members.keys members

/-- The defects of a part, seen from the object that has it.  A text is an attribute of the object;
anything else has its own defects. -/
def partDefects (name : String) (part : Category) (v : Value) (own : List Defect) : List Defect :=
  match part, v with
  | .text, .string _ | .degree, .string _ | .degree, .null => []
  | .text, _ | .degree, _ => [.here (.notText name v.kind)]
  | _, _ => own.map (Defect.below (.key name))

mutual

/-- All defects of a value in the place of a category. -/
def defects (c : Category) : Value → List Defect
  | .array items =>
    if c = .node then itemDefects 0 items else [.here (.unhandled (.kind .array))]
  | .object members =>
    match c, members with
    | .marker, [(name, entry)] => (markerFaults name entry).map .here
    | _, _ =>
      match outlineOf? c members with
      | some outline =>
        partOrder.flatMap fun name =>
          (Members.get? name (memberDefects outline members)).getD []
      | none => [.here (.unhandled (.keys (Members.keys members)))]
  | .string symbol =>
    match c with
    | .node => []
    | .marker => (entryFaults "unary_operator" (.string symbol)).map .here
    | _ => [.here (.unhandled (.kind .string))]
  | .null => [.here (.unhandled (.kind .null))]
  | .bool _ => [.here (.unhandled (.kind .boolean))]
  | .number _ => [.here (.unhandled (.kind .number))]

/-- The defects of the items of an array, the first of which has the given position. -/
def itemDefects (position : Nat) : List Value → List Defect
  | [] => []
  | v :: rest =>
    (defects .node v).map (Defect.below (.index position)) ++ itemDefects (position + 1) rest

/-- The defects of each member of an object with a given outline. -/
def memberDefects (outline : List (String × Category)) :
    List (String × Value) → List (String × List Defect)
  | [] => []
  | (name, v) :: rest =>
    let part := (Members.get? name outline).getD .text
    (name, partDefects name part v (defects part v)) :: memberDefects outline rest

end

example : (defects .node (.object [("boost", .number "2"), ("term", .null)])) =
    [.here (.notText "term" .null), .here (.notText "boost" .number)] := by
  rfl

/-! ## §2 The defects of an object -/

theorem outlineOf?_eq_some {c : Category} {members : List (String × Value)}
    {outline : List (String × Category)} (h : outlineOf? c members = some outline) :
    outline ∈ shapes c ∧ Members.keys members = Members.keys outline := by
  unfold outlineOf? at h
  have hkeys := List.find?_some h
  exact ⟨List.mem_of_find?_eq_some h, (of_decide_eq_true hkeys).symm⟩

theorem partDefects_of_mem_places {name : String} {part : Category} {v : Value}
    {own : List Defect} (h : part ∈ places) :
    partDefects name part v own = own.map (Defect.below (.key name)) := by
  cases part with
  | text | degree | symbol => simp [places] at h
  | node | marker | range => rfl

/-- The defects of the part of an object that stands under a name. -/
def defectsUnder (outline : List (String × Category)) (members : List (String × Value))
    (name : String) : List Defect :=
  match Members.get? name outline, Members.get? name members with
  | some part, some v => partDefects name part v (defects part v)
  | _, _ => []

/-- What is collected under a name are the defects of the part there. -/
theorem get?_memberDefects {outline : List (String × Category)} {name : String}
    (members : List (String × Value)) :
    Members.get? name (memberDefects outline members) =
      (Members.get? name members).map fun v =>
        let part := (Members.get? name outline).getD .text
        partDefects name part v (defects part v) := by
  induction members with
  | nil => rfl
  | cons m rest ih =>
    obtain ⟨key, v⟩ := m
    -- the first member has the name, or another one
    by_cases hkey : key = name
    · subst hkey
      simp [memberDefects, Members.get?]
    · simp [memberDefects, Members.get?, hkey, ih]

/-- The defects of an object are those of its parts, in the order of parts. -/
theorem defects_object {c : Category} {members : List (String × Value)}
    {outline : List (String × Category)} (h : outlineOf? c members = some outline)
    (hc : c ≠ .marker) :
    defects c (.object members) = partOrder.flatMap (defectsUnder outline members) := by
  have hkeys := (outlineOf?_eq_some h).2
  have hunder : defectsUnder outline members = fun name =>
      (Members.get? name (memberDefects outline members)).getD [] := by
    -- the outline has the keys of the object, so a name is in both or in neither
    funext name
    have hsome : (Members.get? name outline).isSome ↔ (Members.get? name members).isSome := by
      rw [Members.get?_isSome_iff, Members.get?_isSome_iff, hkeys]
    rw [get?_memberDefects, defectsUnder]
    cases hpart : Members.get? name outline with
    | none =>
      have hnone : Members.get? name members = none := by simpa [hpart] using hsome
      simp [hnone]
    | some part =>
      obtain ⟨v, hv⟩ := Option.isSome_iff_exists.mp (hsome.mp (by simp [hpart]))
      simp [hv]
  rw [hunder]
  cases c with
  | marker => exact absurd rfl hc
  | _ => simp only [defects, h]

/-- Names that an object does not have can be left out of the order. -/
theorem flatMap_defectsUnder {outline : List (String × Category)}
    {members : List (String × Value)} (names : List String) :
    names.flatMap (defectsUnder outline members) =
      (names.filter (· ∈ Members.keys outline)).flatMap (defectsUnder outline members) := by
  induction names with
  | nil => rfl
  | cons name names ih =>
    rw [List.flatMap_cons, ih, List.filter_cons]
    by_cases hname : name ∈ Members.keys outline
    · simp [hname]
    -- a name that the object does not have has no defects under it
    · have hnone : Members.get? name outline = none :=
        Option.not_isSome_iff_eq_none.mp (mt Members.get?_isSome_iff.mp hname)
      simp [hname, defectsUnder, hnone]

/-! ## §3 The list holds all defects -/

/-- The name of an operator, and the name that holds for both, can stand in a marker. -/
theorem mem_markerNames {name : String} :
    name ∈ markerNames ↔ name = "unary_operator" ∨ name = "required" ∨ name = "prohibited" := by
  simp [markerNames]

/-- A shape gives one category to each of its keys. -/
theorem get?_of_mem_shapes {c : Category} :
    ∀ outline ∈ shapes c, ∀ m ∈ outline, Members.get? m.1 outline = some m.2 := by
  cases c with
  | node | range | marker => decide
  | text | degree | symbol =>
    intro outline houtline
    cases houtline

/-- All keys of shapes that are no markers have their place in the order. -/
theorem mem_partOrder {c : Category} (hc : c ≠ .marker) :
    ∀ outline ∈ shapes c, ∀ m ∈ outline, m.1 ∈ partOrder := by
  cases c with
  | node | range => decide
  | marker => exact absurd rfl hc
  | text | degree | symbol =>
    intro outline houtline
    cases houtline

/-- Shapes that are no markers have different keys. -/
theorem eq_of_keys_eq {c : Category} (hc : c ≠ .marker) :
    ∀ outline ∈ shapes c, ∀ outline' ∈ shapes c,
      Members.keys outline = Members.keys outline' → outline = outline' := by
  cases c with
  | node | range => decide
  | marker => exact absurd rfl hc
  | text | degree | symbol =>
    intro outline houtline
    cases houtline

/-- A part of an object is a text or has a place of its own. -/
theorem textual_or_mem_places {c : Category} (hc : c ≠ .marker) :
    ∀ outline ∈ shapes c, ∀ m ∈ outline,
      (m.2 = .text ∨ m.2 = .degree) ∨ m.2 ∈ places := by
  cases c with
  | node | range => decide
  | marker => exact absurd rfl hc
  | text | degree | symbol =>
    intro outline houtline
    cases houtline

/-- The reader looks for an outline where the grammar has one. -/
theorem fits_object_iff {c : Category} {members : List (String × Value)}
    (hlt : (Members.keys members).Pairwise (· < ·)) :
    c.Fits (.object members) ↔ ∃ outline, outlineOf? c members = some outline := by
  constructor
  · rintro ⟨outline, houtline, hkeys⟩
    -- keys in order are known from their set
    have heq := Members.keys_eq_of_hasKeys hkeys hlt (pairwise_keys_of_mem_shapes _ houtline)
    rw [← Option.isSome_iff_exists, outlineOf?, List.find?_isSome]
    exact ⟨outline, houtline, by simp [heq]⟩
  · rintro ⟨outline, h⟩
    obtain ⟨houtline, hkeys⟩ := outlineOf?_eq_some h
    exact ⟨outline, houtline, Members.hasKeys_of_keys_eq hkeys⟩

theorem mem_partDefects_text {name : String} {part : Category} {v : Value} {own : List Defect}
    {d : Defect} (hpart : part = .text ∨ part = .degree) :
    d ∈ partDefects name part v own ↔ ¬part.Fits v ∧ d = .here (.notText name v.kind) := by
  rcases hpart with rfl | rfl <;> cases v <;> simp [partDefects, Category.Fits, shapes]

/-- The defects of an object of a known shape are those of its parts. -/
theorem mem_defects_object {c : Category} {members : List (String × Value)}
    {outline : List (String × Category)} {d : Defect} (h : outlineOf? c members = some outline)
    (hc : c ≠ .marker) :
    d ∈ defects c (.object members) ↔ ∃ name part v, (name, part) ∈ outline ∧
      Members.get? name members = some v ∧ d ∈ partDefects name part v (defects part v) := by
  obtain ⟨houtline, hkeys⟩ := outlineOf?_eq_some h
  rw [defects_object h hc, List.mem_flatMap]
  constructor
  -- the parts are looked at in an order of their own, which does not matter for what is found
  · rintro ⟨name, -, hd⟩
    unfold defectsUnder at hd
    split at hd
    · next part v hpart hv => exact ⟨name, part, v, Members.mem_of_get? hpart, hv, hd⟩
    · cases hd
  · rintro ⟨name, part, v, hmem, hv, hd⟩
    have hpart : Members.get? name outline = some part := get?_of_mem_shapes _ houtline _ hmem
    refine ⟨name, mem_partOrder hc _ houtline _ hmem, ?_⟩
    simpa only [defectsUnder, hpart, hv] using hd

/-- The defects of the items are those of each of them, below its position. -/
theorem mem_itemDefects {d : Defect} {vs : List Value} (position : Nat) :
    d ∈ itemDefects position vs ↔ ∃ i v d', vs[i]? = some v ∧ d' ∈ defects .node v ∧
      d = d'.below (.index (position + i)) := by
  -- the count goes on along the list, so it is general
  induction vs generalizing position with
  | nil => simp [itemDefects]
  | cons v vs ih =>
    rw [itemDefects, List.mem_append, List.mem_map, ih]
    constructor
    · rintro (⟨d', hd', rfl⟩ | ⟨i, w, d', hw, hd', rfl⟩)
      -- the defect is one of the first item, or of the item behind
      · exact ⟨0, v, d', rfl, hd', rfl⟩
      · exact ⟨i + 1, w, d', hw, hd', by rw [Nat.add_right_comm, Nat.add_assoc]⟩
    · rintro ⟨_ | i, w, d', hw, hd', rfl⟩
      · obtain rfl : v = w := by simpa using hw
        exact .inl ⟨d', hd', rfl⟩
      · exact .inr ⟨i, w, d', by simpa using hw, hd', by rw [Nat.add_right_comm, Nat.add_assoc]⟩

/-- An object with one entry has the keys of a marker if its key is one of theirs. -/
theorem fits_marker_single {name : String} {entry : Value} :
    Category.Fits .marker (.object [(name, entry)]) ↔ name ∈ markerNames := by
  rw [fits_marker_object, mem_markerNames, hasKeys_singleton]
  constructor
  · rintro (h | ⟨_ | _, h⟩)
    · exact .inl h
    · exact .inr (.inl (hasKeys_singleton.mp h))
    · exact .inr (.inr (hasKeys_singleton.mp h))
  · rintro (h | h | h)
    · exact .inl h
    · exact .inr ⟨.required, hasKeys_singleton.mpr h⟩
    · exact .inr ⟨.prohibited, hasKeys_singleton.mpr h⟩

/-- A symbol is unknown, or it is that of the operator that its name does not name. -/
theorem mem_symbolFaults {name symbol : String} {fault : Fault} :
    fault ∈ symbolFaults name symbol ↔
      (Operator.ofSymbol? symbol = none ∧ fault = .unknownSymbol name symbol) ∨
      ∃ o p : Operator, o ≠ p ∧ name = o.name ∧ symbol = p.symbol ∧
        fault = .otherSymbol name symbol := by
  unfold symbolFaults
  cases hsymbol : Operator.ofSymbol? symbol with
  -- a symbol that is unknown is that of no operator
  | none =>
    have hno : ∀ p : Operator, symbol ≠ p.symbol := by
      rintro p rfl
      simp [Operator.ofSymbol?_symbol] at hsymbol
    simp [hno]
  | some p =>
    -- a known symbol is wrong only under the name of the other operator
    obtain rfl := Operator.ofSymbol?_eq_some_iff.mp hsymbol
    simp only [reduceCtorEq, false_and, false_or]
    constructor
    · intro h
      split at h
      · next hname =>
        obtain rfl := List.mem_singleton.mp h
        obtain ⟨hne, hname⟩ := hname
        rcases hname with rfl | rfl
        · exact ⟨.required, p, fun hp => hne (by rw [← hp]; rfl), rfl, rfl, rfl⟩
        · exact ⟨.prohibited, p, fun hp => hne (by rw [← hp]; rfl), rfl, rfl, rfl⟩
      · cases h
    · rintro ⟨o, q, hne, rfl, hq, rfl⟩
      cases o <;> cases q <;> cases p <;> simp_all [Operator.name, Operator.symbol]

/-- What is wrong with the object of a marker, said of its entry and of its key. -/
theorem faulty_marker_single_iff {name : String} {entry : Value} {fault : Fault} :
    Faulty .marker (.object [(name, entry)]) fault ↔ fault ∈ markerFaults name entry := by
  rw [markerFaults, List.mem_append]
  constructor
  · intro h
    cases h with
    | unhandled hfits =>
      -- the key is not one of a marker
      rw [fits_marker_single] at hfits
      exact .inr (by simp [hfits, shape, Members.keys])
    | notText houtline _ hpart htextual => exact absurd htextual (not_textual _ houtline _ hpart)
    | noSymbol hkind =>
      left
      cases entry <;> simp_all [entryFaults, Value.kind]
    | unknownNamed hunknown => exact .inl (mem_symbolFaults.mpr (.inl ⟨hunknown, rfl⟩))
    | @otherSymbol o p hne =>
      exact .inl (mem_symbolFaults.mpr (.inr ⟨o, p, hne, rfl, rfl, rfl⟩))
  · rintro (h | h)
    · cases entry with
      | string symbol =>
        rcases mem_symbolFaults.mp h with ⟨hunknown, rfl⟩ | ⟨o, p, hne, rfl, rfl, rfl⟩
        · exact .unknownNamed hunknown
        · exact .otherSymbol hne
      | _ =>
        obtain rfl := List.mem_singleton.mp h
        exact .noSymbol (by simp [Value.kind])
    -- the key alone is wrong
    · by_cases hname : name ∈ markerNames
      · simp [hname] at h
      · obtain rfl : fault = .unhandled (.keys [name]) := by simpa [hname] using h
        exact .unhandled (mt fits_marker_single.mp hname)
where
  not_textual : ∀ outline ∈ shapes .marker, ∀ m ∈ outline,
      ¬(m.2 = Category.text ∨ m.2 = .degree) := by decide

/-- A bare symbol can only be unknown. -/
theorem faulty_marker_string_iff {symbol : String} {fault : Fault} :
    Faulty .marker (.string symbol) fault ↔
      fault ∈ entryFaults "unary_operator" (.string symbol) := by
  constructor
  · intro h
    cases h with
    | unhandled hfits => simp [Category.Fits] at hfits
    | unknownSymbol hunknown => exact mem_symbolFaults.mpr (.inl ⟨hunknown, rfl⟩)
  · intro h
    rcases mem_symbolFaults.mp h with ⟨hunknown, rfl⟩ | ⟨o, p, -, hname, -⟩
    · exact .unknownSymbol hunknown
    · exact absurd hname (by cases o <;> decide)

/-- Nothing in a marker has a place of its own. -/
theorem Reaches.of_marker {v u : Value} {path : Path} {place : Category}
    (h : Reaches .marker v path place u) : path = [] ∧ place = .marker ∧ u = v := by
  have hsymbols : ∀ outline ∈ shapes .marker, ∀ m ∈ outline, m.2 ∉ places := by decide
  cases h with
  | here => exact ⟨rfl, rfl, rfl⟩
  | part houtline _ hpart hinner => exact absurd hinner (hsymbols _ houtline _ hpart)

/-- What is wrong with a marker is wrong here, and not below. -/
theorem defective_marker_iff {m : Value} {d : Defect} :
    Defective .marker m d ↔ ∃ fault, Faulty .marker m fault ∧ d = .here fault := by
  constructor
  · rintro ⟨place, u, hreach, hfault⟩
    obtain ⟨hpath, rfl, rfl⟩ := hreach.of_marker
    exact ⟨d.fault, hfault, by rw [Defect.here, ← hpath]⟩
  · rintro ⟨fault, hfault, rfl⟩
    exact .here hfault

/-- In a value that its category does not have, nothing else is wrong. -/
theorem defective_iff_of_not_fits {c : Category} {v : Value} {d : Defect} (hfits : ¬c.Fits v)
    (hsingle : c = .marker → ∀ m, v ≠ .object [m]) :
    Defective c v d ↔ d = .here (.unhandled (shape v)) := by
  constructor
  · rintro ⟨place, u, hreach, hfault⟩
    obtain ⟨path, fault⟩ := d
    -- a step into the value would need an outline, or items
    cases hreach with
    | item => simp [Category.Fits] at hfits
    | part houtline hkeys => exact absurd ⟨_, houtline, hkeys⟩ hfits
    | here =>
      cases hfault with
      | unhandled => rfl
      | notText houtline hkeys => exact absurd ⟨_, houtline, hkeys⟩ hfits
      | unknownSymbol => simp [Category.Fits] at hfits
      | noSymbol | unknownNamed | otherSymbol => exact absurd rfl (hsingle rfl _)
  · rintro rfl
    exact .here (.unhandled hfits)

/-- What is wrong with an array is wrong with one of its items. -/
theorem defective_array_iff {vs : List Value} {d : Defect} :
    Defective .node (.array vs) d ↔ ∃ i v d', vs[i]? = some v ∧ Defective .node v d' ∧
      d = d'.below (.index i) := by
  constructor
  · rintro ⟨place, u, hreach, hfault⟩
    obtain ⟨path, fault⟩ := d
    cases hreach with
    | here =>
      cases hfault with
      | unhandled hfits => simp [Category.Fits] at hfits
    | item hitem hreach => exact ⟨_, _, ⟨_, fault⟩, hitem, ⟨_, _, hreach, hfault⟩, rfl⟩
  · rintro ⟨i, v, d', hitem, hd', rfl⟩
    exact hd'.item hitem

/-- What is wrong with an object of a known shape is wrong with an attribute, or lies in one of its
parts. -/
theorem defective_object_iff {c : Category} {members : List (String × Value)} {d : Defect}
    {outline : List (String × Category)} (h : outlineOf? c members = some outline)
    (hc : c ≠ .marker) (hlt : (Members.keys members).Pairwise (· < ·)) :
    Defective c (.object members) d ↔ ∃ name part v, (name, part) ∈ outline ∧
      Members.get? name members = some v ∧
      (((part = .text ∨ part = .degree) ∧ ¬part.Fits v ∧ d = .here (.notText name v.kind)) ∨
        part ∈ places ∧ ∃ d', Defective part v d' ∧ d = d'.below (.key name)) := by
  obtain ⟨houtline, hkeys⟩ := outlineOf?_eq_some h
  -- no two shapes have the same keys, so there is one outline to talk about
  have hsame {other : List (String × Category)} (hother : other ∈ shapes c)
      (hhas : Members.HasKeys (Members.keys other) members) : other = outline := by
    have heq := Members.keys_eq_of_hasKeys hhas hlt (pairwise_keys_of_mem_shapes _ hother)
    exact eq_of_keys_eq hc _ hother _ houtline (heq.symm.trans hkeys)
  constructor
  · rintro ⟨place, u, hreach, hfault⟩
    obtain ⟨path, fault⟩ := d
    cases hreach with
    | part hother hhas hpart hinner hget hreach =>
      obtain rfl := hsame hother hhas
      exact ⟨_, _, _, hpart, hget, .inr ⟨hinner, ⟨_, fault⟩, ⟨_, _, hreach, hfault⟩, rfl⟩⟩
    | here =>
      cases hfault with
      | unhandled hfits => exact absurd ⟨_, houtline, Members.hasKeys_of_keys_eq hkeys⟩ hfits
      | notText hother hhas hpart htextual hget hfits =>
        obtain rfl := hsame hother hhas
        exact ⟨_, _, _, hpart, hget, .inl ⟨htextual, hfits, rfl⟩⟩
      | noSymbol | unknownNamed | otherSymbol => exact absurd rfl hc
  · rintro ⟨name, part, v, hpart, hget, ⟨htextual, hfits, rfl⟩ | ⟨hinner, d', hd', rfl⟩⟩
    · exact .here (.notText houtline (Members.hasKeys_of_keys_eq hkeys) hpart htextual hget hfits)
    · exact .part outline houtline hkeys hpart hinner hget hd'

/-- All that is wrong with a marker is collected. -/
theorem mem_defects_marker {m : Value} {d : Defect} (hsorted : m.Sorted) :
    d ∈ defects .marker m ↔ Defective .marker m d := by
  -- a value without the keys of a marker has one defect
  have hunhandled (hfits : ¬Category.Fits .marker m) (hsingle : ∀ n, m ≠ .object [n])
      (hdefects : defects .marker m = [.here (.unhandled (shape m))]) :
      d ∈ defects .marker m ↔ Defective .marker m d := by
    rw [hdefects, List.mem_singleton, defective_iff_of_not_fits hfits fun _ => hsingle]
  cases m with
  | string symbol =>
    rw [defective_marker_iff]
    simp only [defects, List.mem_map, faulty_marker_string_iff, eq_comm (a := d)]
  | object members =>
    -- only an object with one member is looked into
    obtain _ | ⟨⟨name, entry⟩, _ | ⟨n', rest⟩⟩ := members
    · refine hunhandled ?_ (by simp) rfl
      rw [fits_object_iff hsorted.1]
      simp [outlineOf?, shapes, Members.keys]
    · rw [defective_marker_iff]
      simp only [defects, List.mem_map, faulty_marker_single_iff, eq_comm (a := d)]
    · have houtline : outlineOf? .marker ((name, entry) :: n' :: rest) = none := by
        simp [outlineOf?, shapes, Members.keys]
      refine hunhandled ?_ (by simp) ?_
      · rw [fits_object_iff hsorted.1, houtline]
        simp
      · simp [defects, houtline, shape]
  | _ => exact hunhandled (by simp [Category.Fits]) (by simp) rfl

/-- Of a value that its category does not have, this one defect is collected. -/
theorem mem_defects_of_not_fits {c : Category} {v : Value} {d : Defect} (hfits : ¬c.Fits v)
    (hc : c ≠ .marker) (hdefects : defects c v = [.here (.unhandled (shape v))]) :
    d ∈ defects c v ↔ Defective c v d := by
  rw [hdefects, List.mem_singleton, defective_iff_of_not_fits hfits fun h => absurd h hc]

/-- If the defects of all parts are collected, those of the object are. -/
theorem mem_defects_object_iff {c : Category} {members : List (String × Value)} {d : Defect}
    (hc : c ≠ .marker) (hlt : (Members.keys members).Pairwise (· < ·))
    (hparts : ∀ m ∈ members, ∀ part ∈ places, ∀ d, d ∈ defects part m.2 ↔ Defective part m.2 d) :
    d ∈ defects c (.object members) ↔ Defective c (.object members) d := by
  cases houtline : outlineOf? c members with
  | none =>
    -- an object without an outline has one defect
    have hfits : ¬c.Fits (.object members) := by
      rw [fits_object_iff hlt, houtline]
      simp
    refine mem_defects_of_not_fits hfits hc ?_
    cases c with
    | marker => exact absurd rfl hc
    | _ => simp only [defects, houtline, shape]
  | some outline =>
    rw [mem_defects_object houtline hc, defective_object_iff houtline hc hlt]
    -- part by part, what is collected is what is wrong
    refine exists_congr fun name => exists_congr fun part => exists_congr fun v =>
      and_congr_right fun hpart => and_congr_right fun hget => ?_
    have hmember := Members.mem_of_get? hget
    rcases textual_or_mem_places hc _ (outlineOf?_eq_some houtline).1 _ hpart with htext | hplace
    -- a text is an attribute of the object
    · have hnone : part ∉ places := by
        rcases htext with rfl | rfl <;> decide
      simp [mem_partDefects_text htext, htext, hnone]
    -- anything else has its own defects, which are collected
    · have hown := hparts _ hmember part hplace
      have htext : ¬(part = .text ∨ part = .degree) := by
        rintro (rfl | rfl) <;> simp [places] at hplace
      simp [partDefects_of_mem_places hplace, htext, hplace, hown, eq_comm (a := d)]

mutual

/-- **The list holds exactly the defects that a value has.** -/
theorem mem_defects_iff : ∀ (v : Value) {c : Category}, c ∈ places → v.Sorted →
    ∀ d, d ∈ defects c v ↔ Defective c v d
  | v, .marker, _, hsorted, d => mem_defects_marker hsorted
  | .null, .node, _, _, _ | .null, .range, _, _, _ | .bool _, .node, _, _, _
  | .bool _, .range, _, _, _ | .number _, .node, _, _, _ | .number _, .range, _, _, _
  | .string _, .range, _, _, _ | .array _, .range, _, _, _ =>
    mem_defects_of_not_fits (by simp [Category.Fits]) (by simp)
      (by simp [defects, shape, Value.kind])
  | .string s, .node, _, _, d => by
    -- a text is a word, and nothing is wrong with it
    have hnone : ¬Defective .node (.string s) d := by
      rintro ⟨place, u, hreach, hfault⟩
      obtain ⟨path, fault⟩ := d
      cases hreach with
      | here =>
        cases hfault with
        | unhandled hfits => simp [Category.Fits] at hfits
    simp [defects, hnone]
  | .array vs, .node, hc, hsorted, d => by
    have hitems := mem_defects_items vs hsorted
    rw [defective_array_iff]
    simp only [defects, if_true, mem_itemDefects, Nat.zero_add]
    refine exists_congr fun i => exists_congr fun v => exists_congr fun d' =>
      and_congr_right fun hitem => and_congr_left fun _ => ?_
    exact hitems v (List.mem_of_getElem? hitem) hc d'
  | .object members, .node, _, hsorted, d =>
    mem_defects_object_iff (by simp) hsorted.1 fun m hm part hpart d =>
      mem_defects_members members hsorted.2 m hm hpart d
  | .object members, .range, _, hsorted, d =>
    mem_defects_object_iff (by simp) hsorted.1 fun m hm part hpart d =>
      mem_defects_members members hsorted.2 m hm hpart d

theorem mem_defects_items : ∀ (vs : List Value), Value.SortedItems vs → ∀ v ∈ vs,
    ∀ {c : Category}, c ∈ places → ∀ d, d ∈ defects c v ↔ Defective c v d
  | [], _, _, hv, _, _, _ => absurd hv List.not_mem_nil
  | w :: ws, hsorted, v, hv, _, hc, d => by
    rcases List.mem_cons.mp hv with heq | hv
    · rw [heq]
      exact mem_defects_iff w hc hsorted.1 d
    · exact mem_defects_items ws hsorted.2 v hv hc d

theorem mem_defects_members : ∀ (ms : List (String × Value)), Value.SortedMembers ms →
    ∀ m ∈ ms, ∀ {c : Category}, c ∈ places → ∀ d, d ∈ defects c m.2 ↔ Defective c m.2 d
  | [], _, _, hm, _, _, _ => absurd hm List.not_mem_nil
  | (name, w) :: ms, hsorted, m, hm, _, hc, d => by
    rcases List.mem_cons.mp hm with heq | hm
    · rw [heq]
      exact mem_defects_iff w hc hsorted.1 d
    · exact mem_defects_members ms hsorted.2 m hm hc d

end

end Tree

end CanonicalQuery
