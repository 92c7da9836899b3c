import CanonicalQuery.Json.Value

/-!
# Members of objects, by their keys

An object is a map: what counts is which keys it has and what they lead to.  A sorted list of
members is known by its set of keys and its values.

## Main definitions

- `Members.HasKeys`: the keys of an object are exactly those of a list.
- `Members.lastOfEach`: the last of the members of each key.

## Main statements

- `Members.keys_eq_of_hasKeys`: a set of keys stands in one sorted list only.
- `Members.eq_single`, `Members.eq_pair`: the sorted objects of one and of two keys.
- `Members.pairwise_keys_ofList`, `Members.ofList_perm`: the map of a list of members is sorted, and
  if no key is repeated it has the same members.
- `Members.ofList_eq_of_perm`, `Members.ofList_lastOfEach`: the order of members with distinct keys
  does not matter to their map, and of repeated keys the last counts.
- `Value.sorted_single`, `Value.sorted_pair`: when objects of one and of two keys are sorted.
- `Value.sorted_sorted`, `Value.sorted_eq_self`: sorting gives a sorted value, and leaves one as it
  is.
-/

namespace CanonicalQuery.Json

namespace Members

variable {α : Type} {members : List (String × α)} {names : List String}

/-! ## §1 Sets of keys -/

/-- The keys of the object are exactly these. -/
def HasKeys (names : List String) (members : List (String × α)) : Prop :=
  ∀ key, key ∈ keys members ↔ key ∈ names

theorem hasKeys_of_keys_eq (h : keys members = names) : HasKeys names members := by
  intro key
  rw [h]

/-- Sorted keys are distinct. -/
theorem nodup_of_pairwise_lt {l : List String} (h : l.Pairwise (· < ·)) : l.Nodup :=
  h.imp String.ne_of_lt

/-- In sorted objects, a set of keys stands in one order only. -/
theorem keys_eq_of_hasKeys (h : HasKeys names members)
    (hmembers : (keys members).Pairwise (· < ·)) (hnames : names.Pairwise (· < ·)) :
    keys members = names := by
  -- with the same members and none repeated, the two lists are permutations of each other
  have hperm : (keys members).Perm names :=
    (List.perm_ext_iff_of_nodup (nodup_of_pairwise_lt hmembers)
      (nodup_of_pairwise_lt hnames)).mpr h
  exact hperm.eq_of_pairwise (fun _ _ _ _ hab hba => absurd hab (String.lt_asymm hba))
    hmembers hnames

/-- What is found under a key is a member. -/
theorem mem_of_get? {key : String} {v : α} (h : get? key members = some v) :
    (key, v) ∈ members := by
  induction members with
  | nil => cases h
  | cons m rest ih =>
    rw [get?] at h
    split at h
    -- the key of the first member, whose value is then the one found
    · next hkey =>
      cases h
      rw [← hkey]
      exact List.mem_cons_self
    · exact List.mem_cons_of_mem m (ih h)

/-- Something is found under just the keys of the object. -/
theorem get?_isSome_iff {key : String} : (get? key members).isSome ↔ key ∈ keys members := by
  induction members with
  | nil => simp [get?, keys]
  | cons m rest ih =>
    have hkeys : keys (m :: rest) = m.1 :: keys rest := rfl
    rw [get?, hkeys, List.mem_cons, ← ih]
    by_cases hkey : m.1 = key
    · simp [hkey]
    · simp [hkey, Ne.symm hkey]

/-- One key, one member. -/
theorem eq_single_of_keys_eq {key : String} (h : keys members = [key]) :
    ∃ v, members = [(key, v)] := by
  match members, h with
  | [(_, v)], rfl => exact ⟨v, rfl⟩

/-- Two keys, two members in their order. -/
theorem eq_pair_of_keys_eq {key key' : String} (h : keys members = [key, key']) :
    ∃ v w, members = [(key, v), (key', w)] := by
  match members, h with
  | [(_, v), (_, w)], rfl => exact ⟨v, w, rfl⟩

/-- A sorted object with one key has one member. -/
theorem eq_single {key : String} (h : HasKeys [key] members)
    (hmembers : (keys members).Pairwise (· < ·)) : ∃ v, members = [(key, v)] :=
  eq_single_of_keys_eq (keys_eq_of_hasKeys h hmembers (List.pairwise_singleton _ _))

/-- A sorted object with two keys has the members of these keys, the smaller key first. -/
theorem eq_pair {key key' : String} (hlt : key < key') (h : HasKeys [key, key'] members)
    (hmembers : (keys members).Pairwise (· < ·)) :
    ∃ v w, members = [(key, v), (key', w)] :=
  eq_pair_of_keys_eq (keys_eq_of_hasKeys h hmembers (List.pairwise_pair.mpr hlt))

/-! ## §2 Maps -/

/-- A new member adds its key to the others. -/
theorem mem_keys_insert {key key' : String} {v : α} :
    key' ∈ keys (insert key v members) ↔ key' = key ∨ key' ∈ keys members := by
  induction members with
  | nil => simp [insert, keys]
  | cons m rest ih =>
    obtain ⟨k, w⟩ := m
    rw [insert]
    -- in front of the first member, in its place, or somewhere behind it
    split
    · simp [keys]
    · split
      -- the value of the first member is replaced, and its key stays
      · next heq =>
        simp [keys, heq]
      · have hkeys : keys ((k, w) :: insert key v rest) = k :: keys (insert key v rest) := rfl
        rw [hkeys, List.mem_cons, ih]
        simp only [keys, List.map_cons, List.mem_cons]
        exact or_left_comm

/-- A new member is put where its key belongs. -/
theorem pairwise_keys_insert {key : String} {v : α} (h : (keys members).Pairwise (· < ·)) :
    (keys (insert key v members)).Pairwise (· < ·) := by
  induction members with
  | nil => simp [insert, keys]
  | cons m rest ih =>
    obtain ⟨k, w⟩ := m
    obtain ⟨hk, hrest⟩ := List.pairwise_cons.mp h
    rw [insert]
    split
    -- the key comes in front, and so before all that the first one comes before
    · next hlt =>
      refine List.pairwise_cons.mpr ⟨?_, h⟩
      intro k' hk'
      rcases List.mem_cons.mp hk' with rfl | hmem
      · exact hlt
      · exact String.lt_trans hlt (hk k' hmem)
    · split
      -- the key is there, and the keys stay as they are
      · next heq =>
        subst heq
        exact h
      -- the key comes somewhere behind the first one, and so behind a smaller key
      · next hnlt hne =>
        have hlt : k < key :=
          Std.lt_of_le_of_ne (String.not_lt.mp hnlt) (Ne.symm hne)
        refine List.pairwise_cons.mpr ⟨?_, ih hrest⟩
        intro k' hk'
        rcases mem_keys_insert.mp hk' with rfl | hmem
        · exact hlt
        · exact hk k' hmem

/-- The map of a list is made by putting in one member after the other. -/
theorem ofList_eq_foldl (members : List (String × α)) :
    ofList members = members.foldl (fun sorted m => insert m.1 m.2 sorted) [] := rfl

/-- The map that a list of members describes is sorted. -/
theorem pairwise_keys_ofList (members : List (String × α)) :
    (keys (ofList members)).Pairwise (· < ·) := by
  -- for the induction, the map starts with members that are sorted already
  have hfold : ∀ (ms acc : List (String × α)), (keys acc).Pairwise (· < ·) →
      (keys (ms.foldl (fun sorted m => insert m.1 m.2 sorted) acc)).Pairwise (· < ·) := by
    intro ms
    induction ms with
    | nil => exact fun _ h => h
    | cons m ms ih => exact fun acc h => ih _ (pairwise_keys_insert h)
  rw [ofList_eq_foldl]
  exact hfold members [] List.Pairwise.nil

/-- What is in the map afterwards is new or was there before. -/
theorem mem_of_mem_insert {m : String × α} {key : String} {v : α} (h : m ∈ insert key v members) :
    m = (key, v) ∨ m ∈ members := by
  induction members with
  | nil => exact .inl (List.mem_singleton.mp h)
  | cons first rest ih =>
    obtain ⟨k, w⟩ := first
    rw [insert] at h
    split at h
    · exact List.mem_cons.mp h
    · split at h
      -- the first member gave way to the new one
      · exact (List.mem_cons.mp h).imp_right (List.mem_cons_of_mem _)
      · rcases List.mem_cons.mp h with hfirst | hrest
        · exact .inr (hfirst ▸ List.mem_cons_self)
        · exact (ih hrest).imp_right (List.mem_cons_of_mem _)

/-- The map that a list of members describes holds none but these. -/
theorem mem_of_mem_ofList {m : String × α} (h : m ∈ ofList members) : m ∈ members := by
  -- for the induction, the map starts with some members already
  have hfold : ∀ (ms acc : List (String × α)),
      m ∈ ms.foldl (fun sorted m => insert m.1 m.2 sorted) acc → m ∈ ms ∨ m ∈ acc := by
    intro ms
    induction ms with
    | nil => exact fun acc hm => .inr hm
    | cons first rest ih =>
      intro acc hm
      rcases ih _ hm with hrest | hacc
      · exact .inl (List.mem_cons_of_mem _ hrest)
      · rcases mem_of_mem_insert hacc with rfl | hacc
        · exact .inl List.mem_cons_self
        · exact .inr hacc
  rw [ofList_eq_foldl] at h
  simpa using hfold members [] h

/-- A new key comes between the others. -/
theorem insert_perm {key : String} {v : α} (h : key ∉ keys members) :
    (insert key v members).Perm ((key, v) :: members) := by
  induction members with
  | nil => exact List.Perm.refl _
  | cons m rest ih =>
    obtain ⟨k, w⟩ := m
    have hne : key ≠ k := List.ne_of_not_mem_cons h
    have hrest : key ∉ keys rest := List.not_mem_of_not_mem_cons h
    rw [insert]
    -- in front, or behind the first member; its place is not taken, for the key is new
    split
    · exact List.Perm.refl _
    · exact ((ih hrest).cons (k, w)).trans (List.Perm.swap _ _ _)

/-- The map of members with distinct keys has these members and no others. -/
theorem ofList_perm (h : (keys members).Nodup) : (ofList members).Perm members := by
  have hfold : ∀ (ms acc : List (String × α)), (keys ms).Nodup →
      (∀ key ∈ keys ms, key ∉ keys acc) →
      (ms.foldl (fun sorted m => insert m.1 m.2 sorted) acc).Perm (acc ++ ms) := by
    -- what has been put into the map stands in front of what is still to come
    intro ms
    induction ms with
    | nil =>
      intro acc _ _
      rw [List.append_nil]
      exact List.Perm.refl _
    | cons m ms ih =>
      obtain ⟨key, v⟩ := m
      intro acc hnodup hnew
      obtain ⟨hkey, hms⟩ := List.nodup_cons.mp hnodup
      have hnew' : ∀ key' ∈ keys ms, key' ∉ keys (insert key v acc) := by
        intro key' hmem hin
        rcases mem_keys_insert.mp hin with rfl | hacc
        · exact hkey hmem
        · exact hnew key' (List.mem_cons_of_mem key hmem) hacc
      have hinsert : (insert key v acc).Perm ((key, v) :: acc) :=
        insert_perm (hnew key List.mem_cons_self)
      exact ((ih _ hms hnew').trans (hinsert.append_right ms)).trans List.perm_middle.symm
  rw [ofList_eq_foldl]
  exact hfold members [] h (by simp [keys])

/-- Members stand in one sorted order only. -/
theorem eq_of_perm_of_pairwise {members' : List (String × α)} (h : members.Perm members')
    (hsorted : (keys members).Pairwise (· < ·)) (hsorted' : (keys members').Pairwise (· < ·)) :
    members = members' := by
  have hpairs := List.pairwise_map.mp hsorted
  have hpairs' := List.pairwise_map.mp hsorted'
  exact h.eq_of_pairwise (fun _ _ _ _ hab hba => absurd hab (String.lt_asymm hba)) hpairs hpairs'

/-- A sorted list of members is its own map. -/
theorem ofList_eq_self (h : (keys members).Pairwise (· < ·)) : ofList members = members :=
  eq_of_perm_of_pairwise (ofList_perm (nodup_of_pairwise_lt h)) (pairwise_keys_ofList members) h

/-- The order of members with distinct keys does not matter to their map. -/
theorem ofList_eq_of_perm {members' : List (String × α)} (h : members.Perm members')
    (hkeys : (keys members).Nodup) : ofList members = ofList members' := by
  have hkeys' : (keys members').Nodup := (h.map Prod.fst).nodup_iff.mp hkeys
  have hperm := (ofList_perm hkeys).trans (h.trans (ofList_perm hkeys').symm)
  exact eq_of_perm_of_pairwise hperm (pairwise_keys_ofList members) (pairwise_keys_ofList members')

/-- Of two values under one key, the second counts. -/
theorem insert_insert_self (key : String) (v w : α) :
    insert key w (insert key v members) = insert key w members := by
  induction members with
  | nil => simp [insert]
  | cons m rest ih =>
    obtain ⟨k, u⟩ := m
    simp only [insert]
    -- wherever the first value went, the second takes its place
    split
    · simp [insert]
    · next hnlt =>
      split
      · simp [insert]
      · next hne => rw [insert, if_neg hnlt, if_neg hne, ih]

/-- Where a member goes depends on how its key compares with the others, whatever came first. -/
theorem insert_insert_comm {key key' : String} (hne : key ≠ key') (v w : α) :
    insert key' w (insert key v members) = insert key v (insert key' w members) := by
  induction members with
  | nil => grind [insert]
  | cons m rest ih => grind [insert]

/-- The last of the members of each key, in the order of the list. -/
def lastOfEach {β κ : Type} [DecidableEq κ] (key : β → κ) : List β → List β
  | [] => []
  | m :: ms => if key m ∈ ms.map key then lastOfEach key ms else m :: lastOfEach key ms

/-- A member is forgotten if a later one has its key. -/
theorem foldl_insert_of_mem {key : String} {v : α} {later : List (String × α)}
    (h : key ∈ keys later) (acc : List (String × α)) :
    later.foldl (fun sorted m => insert m.1 m.2 sorted) (insert key v acc)
      = later.foldl (fun sorted m => insert m.1 m.2 sorted) acc := by
  induction later generalizing acc with
  | nil => cases h
  | cons m later ih =>
    rw [List.foldl_cons, List.foldl_cons]
    -- the next member has the key, or it does not and can be put in first
    by_cases hkey : key = m.1
    · rw [hkey, insert_insert_self]
    -- the key comes later still, and there the induction hypothesis applies
    · have hlater : key ∈ keys later := List.mem_of_ne_of_mem hkey h
      rw [insert_insert_comm hkey, ih hlater]

/-- The map of a list of members keeps the last of each key. -/
theorem ofList_lastOfEach (members : List (String × α)) :
    ofList (lastOfEach Prod.fst members) = ofList members := by
  -- for the induction, the map starts with some members already
  have hfold : ∀ (ms acc : List (String × α)),
      (lastOfEach Prod.fst ms).foldl (fun sorted m => insert m.1 m.2 sorted) acc
        = ms.foldl (fun sorted m => insert m.1 m.2 sorted) acc := by
    intro ms
    induction ms with
    | nil => exact fun _ => rfl
    | cons m ms ih =>
      intro acc
      rw [lastOfEach]
      split
      -- the member was left out, and putting it in makes no difference
      · next hlater => rw [ih, List.foldl_cons, foldl_insert_of_mem hlater]
      · rw [List.foldl_cons, List.foldl_cons, ih]
  exact hfold members []

end Members

/-! ## §3 Sorted values and their parts -/

/-- The items of a sorted array are sorted. -/
theorem Value.SortedItems.item {vs : List Value} {v : Value} (h : Value.SortedItems vs)
    (hv : v ∈ vs) : v.Sorted := by
  induction vs with
  | nil => cases hv
  | cons w vs ih =>
    rcases List.mem_cons.mp hv with rfl | hmem
    · exact h.1
    · exact ih h.2 hmem

/-- The values of a sorted object are sorted. -/
theorem Value.SortedMembers.member {members : List (String × Value)} {key : String} {v : Value}
    (h : Value.SortedMembers members) (hv : (key, v) ∈ members) : v.Sorted := by
  induction members with
  | nil => cases hv
  | cons m members ih =>
    rcases List.mem_cons.mp hv with rfl | hmem
    · exact h.1
    · exact ih h.2 hmem

/-- The values of an object are sorted just if each of them is. -/
theorem Value.sortedMembers_iff {ms : List (String × Value)} :
    Value.SortedMembers ms ↔ ∀ m ∈ ms, m.2.Sorted := by
  induction ms with
  | nil => simp [Value.SortedMembers]
  | cons m ms ih => simp [Value.SortedMembers, ih]

mutual

/-- A sorted value is sorted at every depth. -/
theorem Value.sorted_sorted : ∀ v : Value, v.sorted.Sorted
  | .null => trivial
  | .bool _ => trivial
  | .number _ => trivial
  | .string _ => trivial
  | .array items => Value.sortedItems_sorted items
  | .object members => by
    -- the map is sorted by its keys, and its values are among the sorted ones
    refine ⟨Members.pairwise_keys_ofList _, Value.sortedMembers_iff.mpr fun m hm => ?_⟩
    exact Value.sortedMembers_iff.mp (Value.sortedMembers_sorted members) m
      (Members.mem_of_mem_ofList hm)

theorem Value.sortedItems_sorted : ∀ vs : List Value,
    Value.SortedItems (Value.sorted.sortedItems vs)
  | [] => trivial
  | v :: vs => ⟨Value.sorted_sorted v, Value.sortedItems_sorted vs⟩

theorem Value.sortedMembers_sorted : ∀ ms : List (String × Value),
    Value.SortedMembers (Value.sorted.sortedMembers ms)
  | [] => trivial
  | (_, v) :: ms => ⟨Value.sorted_sorted v, Value.sortedMembers_sorted ms⟩

end

mutual

/-- Sorting leaves a sorted value as it is. -/
theorem Value.sorted_eq_self : ∀ v : Value, v.Sorted → v.sorted = v
  | .null, _ => rfl
  | .bool _, _ => rfl
  | .number _, _ => rfl
  | .string _, _ => rfl
  | .array items, h => by rw [Value.sorted, Value.sortedItems_eq_self items h]
  | .object members, ⟨hkeys, hmembers⟩ => by
    rw [Value.sorted, Value.sortedMembers_eq_self members hmembers, Members.ofList_eq_self hkeys]

theorem Value.sortedItems_eq_self :
    ∀ vs : List Value, Value.SortedItems vs → Value.sorted.sortedItems vs = vs
  | [], _ => rfl
  | v :: vs, ⟨hv, hvs⟩ => by
    rw [Value.sorted.sortedItems, Value.sorted_eq_self v hv, Value.sortedItems_eq_self vs hvs]

theorem Value.sortedMembers_eq_self :
    ∀ ms : List (String × Value), Value.SortedMembers ms → Value.sorted.sortedMembers ms = ms
  | [], _ => rfl
  | (key, v) :: ms, ⟨hv, hms⟩ => by
    rw [Value.sorted.sortedMembers, Value.sorted_eq_self v hv, Value.sortedMembers_eq_self ms hms]

end

/-! ## §4 Sorted objects of few keys -/

theorem Value.sorted_single {key : String} {v : Value} :
    (Value.object [(key, v)]).Sorted ↔ v.Sorted := by
  simp [Value.Sorted, Value.SortedMembers, Members.keys]

theorem Value.sorted_pair {key key' : String} {v w : Value} (hlt : key < key') :
    (Value.object [(key, v), (key', w)]).Sorted ↔ v.Sorted ∧ w.Sorted := by
  have hkeys : (Members.keys [(key, v), (key', w)]).Pairwise (· < ·) :=
    List.pairwise_pair.mpr hlt
  constructor
  · rintro ⟨-, hv, hw, -⟩
    exact ⟨hv, hw⟩
  · rintro ⟨hv, hw⟩
    exact ⟨hkeys, hv, hw, trivial⟩

end CanonicalQuery.Json
