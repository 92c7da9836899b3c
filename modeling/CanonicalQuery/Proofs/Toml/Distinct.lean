import CanonicalQuery.Proofs.Toml.Entries
import CanonicalQuery.Toml.Reading

/-!
# Tables that are read repeat no key

A key can be given a value only if it has none.  So no key stands twice among the entries of an
inline table, and they may be taken for assignments of their own.

## Main definitions

- `Entries.Distinct`: no key stands twice.
- `Document.Distinct`: no assignment of a document gives an inline table with a key that stands
  twice.

## Main statements

- `Entries.distinct_assign?`: assignments keep keys distinct.
- `Document.distinct_ofText?`: this holds of every document that is read.
-/

namespace CanonicalQuery.Toml

variable {key : String} {item : Item} {entries entries' : Entries}

/-! ## §1 Adding entries -/

namespace Entries

/-- No key stands twice. -/
def Distinct (entries : Entries) : Prop :=
  (entries.map Prod.fst).Nodup

theorem distinct_nil : Distinct [] :=
  List.nodup_nil

theorem distinct_cons {entry : String × Item} :
    Distinct (entry :: entries) ↔ get? entry.1 entries = none ∧ Distinct entries := by
  rw [Distinct, List.map_cons, List.nodup_cons, get?_eq_none_iff, Distinct]

/-- A key that stands behind others does not stand among them. -/
theorem missing_of_distinct {entry : String × Item} (h : Distinct (entries ++ entry :: entries')) :
    get? entry.1 entries = none := by
  rw [Distinct, List.map_append, List.map_cons] at h
  refine get?_eq_none_iff.mpr fun hmem => ?_
  exact (List.nodup_append.mp h).2.2 entry.1 hmem entry.1 List.mem_cons_self rfl

theorem distinct_set (h : Distinct entries) : Distinct (set key item entries) := by
  induction entries with
  | nil => exact distinct_cons.mpr ⟨rfl, h⟩
  | cons entry rest ih =>
    obtain ⟨hmissing, hrest⟩ := distinct_cons.mp h
    rw [set]
    split
    · next hkey => exact distinct_cons.mpr ⟨hkey ▸ hmissing, hrest⟩
    · next hne =>
      exact distinct_cons.mpr ⟨(get?_set_of_ne hne rest).trans hmissing, ih hrest⟩

/-- Putting a value in repeats no key. -/
theorem distinct_put? {path : List String} (h : Distinct entries)
    (hstep : put? path key item entries = some entries') : Distinct entries' := by
  -- at the end of a path a key is added that was not there; on the way the entry of a key is
  -- replaced
  cases path with
  | nil =>
    rw [put?] at hstep
    split at hstep
    · next hnone =>
      obtain rfl := Option.some.inj hstep
      rw [← set_of_get?_eq_none (Option.isNone_iff_eq_none.mp hnone)]
      exact distinct_set h
    · cases hstep
  | cons step path =>
    rw [put?_cons, through?] at hstep
    obtain ⟨passage, -, hstep⟩ := Option.bind_eq_some_iff.mp hstep
    obtain ⟨changed, -, hstep⟩ := Option.bind_eq_some_iff.mp hstep
    obtain rfl := Option.some.inj hstep
    exact distinct_set h

theorem distinct_assign? {assignments : List Assignment} (h : Distinct entries)
    (hassign : assign? assignments entries = some entries') : Distinct entries' := by
  induction assignments generalizing entries with
  | nil =>
    obtain rfl := Option.some.inj hassign
    exact h
  | cons a rest ih =>
    rw [assign?, List.foldlM_cons] at hassign
    obtain ⟨added, hput, hrest⟩ := Option.bind_eq_some_iff.mp hassign
    exact ih (distinct_put? h hput) hrest

end Entries

/-! ## §2 Reading -/

/-- A table as a value repeats no key. -/
def Item.Distinct (item : Item) : Prop :=
  ∀ definition entries, item = .table definition entries → Entries.Distinct entries

/-- Only braces give a table, and it holds what its assignments give. -/
theorem distinct_takeValue {fuel room : Nat} {s rest : List Char}
    (h : takeValue fuel room s = some (item, rest)) : item.Distinct := by
  rintro definition entries rfl
  cases fuel with
  | zero => cases h
  | succ fuel =>
    unfold takeValue at h
    -- braces apart, nothing that is read is a table
    split at h
    · obtain ⟨_, -, ⟨⟩⟩ := Option.map_eq_some_iff.mp h
    · obtain ⟨_, -, ⟨⟩⟩ := Option.map_eq_some_iff.mp h
    · split at h
      · cases h
      · split at h
        · cases h
        · obtain ⟨_, -, ⟨⟩⟩ := Option.map_eq_some_iff.mp h
    · split at h
      · cases h
      · -- without assignments and with some, the table is made in the same way
        dsimp only at h
        split at h
        · obtain ⟨_, -, h⟩ := Option.bind_eq_some_iff.mp h
          obtain ⟨filled, hassign, ⟨⟩⟩ := Option.bind_eq_some_iff.mp h
          exact Entries.distinct_assign? Entries.distinct_nil hassign
        · obtain ⟨_, -, h⟩ := Option.bind_eq_some_iff.mp h
          obtain ⟨filled, hassign, ⟨⟩⟩ := Option.bind_eq_some_iff.mp h
          exact Entries.distinct_assign? Entries.distinct_nil hassign
    · obtain ⟨_, -, ⟨⟩⟩ := Option.map_eq_some_iff.mp h

theorem distinct_takeAssignment {s rest : List Char} {a : Assignment}
    (h : takeAssignment s = some (a, rest)) : a.value.Distinct := by
  obtain ⟨⟨⟨path, key⟩, rest'⟩, -, h⟩ := Option.bind_eq_some_iff.mp h
  dsimp only at h
  split at h
  · obtain ⟨⟨value, rest''⟩, hvalue, h⟩ := Option.bind_eq_some_iff.mp h
    obtain ⟨_, -, ⟨⟩⟩ := Option.bind_eq_some_iff.mp h
    exact distinct_takeValue hvalue
  · cases h

/-- The assignments at the top of a document repeat no key within a value. -/
def Document.Distinct (d : Document) : Prop :=
  ∀ a ∈ d.top, a.value.Distinct

/-- The assignments at the top of a document that was read repeat no key within a value. -/
theorem Document.distinct_ofLines? {lines : Nat} {s : List Char} {d : Document}
    (h : Document.ofLines? lines s = some d) : d.Distinct := by
  -- an assignment is the only line that adds to the top, which ends at the first header
  induction lines generalizing s d with
  | zero =>
    rw [ofLines?] at h
    split at h
    · obtain rfl := Option.some.inj h
      exact nofun
    · cases h
  | succ lines ih =>
    unfold ofLines? at h
    split at h
    · obtain rfl := Option.some.inj h
      exact nofun
    · obtain ⟨⟨header, rest⟩, -, h⟩ := Option.bind_eq_some_iff.mp h
      obtain ⟨rest, -, h⟩ := Option.bind_eq_some_iff.mp h
      obtain rfl := Option.some.inj h
      exact nofun
    · split at h
      · exact ih h
      · obtain ⟨⟨a, rest⟩, ha, h⟩ := Option.bind_eq_some_iff.mp h
        obtain ⟨d', hd', h⟩ := Option.bind_eq_some_iff.mp h
        obtain rfl := Option.some.inj h
        intro b hb
        rcases List.mem_cons.mp hb with rfl | hb
        · exact distinct_takeAssignment ha
        · exact ih hd' b hb

theorem Document.distinct_ofText? {text : String} {d : Document}
    (h : Document.ofText? text = some d) : d.Distinct :=
  distinct_ofLines? h

end CanonicalQuery.Toml
