import CanonicalQuery.Proofs.Terminal.Listing
import CanonicalQuery.Proofs.Tree.Faults

/-!
# Where texts come from

The texts of a query tree are strings of the attribute tree that it was read from, and so are the
names, the symbols and the keys in an error about it.  Everything else in the message of an error is
fixed: the words around them, the names of kinds, and the path, whose keys are known.

## Main definitions

- `Value.strings`: the strings of a value, keys included.

## Main statements

- `Tree.Denotes.wovenTexts`: the texts of a tree come from its attribute tree.
- `Tree.Defective.woven_message`: the message of an error is woven from the strings of the value.
-/

namespace CanonicalQuery

open CanonicalQuery.Json
open CanonicalQuery.Terminal (Escapeless Woven escapeless_append escapeless_join woven_empty
  woven_intercalate)

/-! ## §1 The strings of a value -/

/-- The strings of a value: its texts and the keys of its objects. -/
def Json.Value.strings : Value → List String
  | .string s => [s]
  | .array items => stringsOfItems items
  | .object members => stringsOfMembers members
  | .null | .bool _ | .number _ => []
where
  stringsOfItems : List Value → List String
    | [] => []
    | v :: vs => v.strings ++ stringsOfItems vs
  stringsOfMembers : List (String × Value) → List String
    | [] => []
    | (key, v) :: rest => key :: v.strings ++ stringsOfMembers rest

theorem Json.Value.mem_stringsOfItems {vs : List Value} {v : Value} {s : String} (hv : v ∈ vs)
    (hs : s ∈ v.strings) : s ∈ strings.stringsOfItems vs := by
  induction vs with
  | nil => cases hv
  | cons w vs ih =>
    rw [strings.stringsOfItems, List.mem_append]
    rcases List.mem_cons.mp hv with rfl | hv
    · exact .inl hs
    · exact .inr (ih hv)

theorem Json.Value.mem_stringsOfMembers {members : List (String × Value)} {m : String × Value}
    {s : String} (hm : m ∈ members) (hs : s = m.1 ∨ s ∈ m.2.strings) :
    s ∈ strings.stringsOfMembers members := by
  induction members with
  | nil => cases hm
  | cons n members ih =>
    obtain ⟨key, w⟩ := n
    rw [strings.stringsOfMembers, List.cons_append, List.mem_cons, List.mem_append]
    rcases List.mem_cons.mp hm with rfl | hm
    · exact hs.imp_right .inl
    · exact .inr (.inr (ih hm))

namespace Tree

variable {given : String → Prop} {v u : Value} {n : Node} {c place : Category} {path : Path}

/-! ## §2 Texts of query trees -/

/-- The strings of a part are strings of the object. -/
theorem woven_part {members : List (String × Value)} (key : String)
    (hv : ∀ s ∈ (Value.object members).strings, Woven given s) (hm : (key, v) ∈ members) :
    ∀ s ∈ v.strings, Woven given s :=
  fun s hs => hv s (Value.mem_stringsOfMembers hm (.inr hs))

/-- The text under a key of an object. -/
theorem woven_text {members : List (String × Value)} {s : String} (key : String)
    (hv : ∀ s ∈ (Value.object members).strings, Woven given s)
    (hm : (key, .string s) ∈ members) : Woven given s :=
  woven_part key hv hm s (by simp [Value.strings])

/-- A degree is a string of the value, or empty. -/
theorem Degree.woven {degree : String} (h : Degree v degree)
    (hv : ∀ s ∈ v.strings, Woven given s) : Woven given degree := by
  cases h with
  | given => exact hv degree (by simp [Value.strings])
  | null => exact woven_empty

theorem wovenTexts_word {s : String} (h : Woven given s) : WovenTexts given (Node.word s).texts :=
  List.forall_mem_singleton.mpr h

theorem wovenTexts_pair {role role' : Role} {s t : String} (hs : Woven given s)
    (ht : Woven given t) : WovenTexts given [(role, s), (role', t)] :=
  List.forall_mem_cons.mpr ⟨hs, List.forall_mem_singleton.mpr ht⟩

/-- The name of a range and its ends. -/
theorem wovenTexts_range {members : List (String × Value)} {name lower upper : String}
    {bounds : Bounds} (key : String) (hv : ∀ s ∈ (Value.object members).strings, Woven given s)
    (hname : ("field", .string name) ∈ members)
    (hends : (key, .object [("from", .string lower), ("to", .string upper)]) ∈ members) :
    WovenTexts given (Node.range name bounds ⟨lower, upper⟩).texts := by
  have hinner := woven_part key hv hends
  exact List.forall_mem_cons.mpr ⟨woven_text "field" hv hname,
    wovenTexts_pair (woven_text "from" hinner (by simp)) (woven_text "to" hinner (by simp))⟩

mutual

/-- The texts of a query tree are woven from the strings of the attribute tree. -/
theorem Denotes.wovenTexts : ∀ {v : Value} {n : Node}, Denotes v n →
    (∀ s ∈ v.strings, Woven given s) → WovenTexts given n.texts
  -- every rule takes its texts from members of the object, and its trees from parts of it
  | _, _, .word s, hv => wovenTexts_word (hv s (by simp [Value.strings]))
  | _, _, .sequence h, hv => h.wovenTexts hv
  | _, _, .term s, hv => wovenTexts_word (woven_text "term" hv (by simp))
  | _, _, .similarTerm s h, hv =>
    wovenTexts_pair (woven_text "term" hv (by simp))
      (h.woven (woven_part "similarity" hv (by simp)))
  | _, _, .boostedTerm factor s, hv =>
    wovenTexts_pair (woven_text "term" hv (by simp)) (woven_text "boost" hv (by simp))
  | _, _, .phrase s, hv => List.forall_mem_singleton.mpr (woven_text "phrase" hv (by simp))
  | _, _, .boostedPhrase factor s, hv =>
    wovenTexts_pair (woven_text "phrase" hv (by simp)) (woven_text "boost" hv (by simp))
  | _, _, .distantPhrase words s, hv =>
    wovenTexts_pair (woven_text "phrase" hv (by simp)) (woven_text "distance" hv (by simp))
  | _, _, .group h, hv => h.wovenTexts (woven_part "group" hv (by simp))
  | _, _, .unary hm h, hv => h.wovenTexts (woven_part "operand" hv (by simp))
  | _, _, .operand h, hv => h.wovenTexts (woven_part "operand" hv (by simp))
  | _, _, .field name h, hv =>
    List.forall_mem_cons.mpr ⟨woven_text "field" hv (by simp),
      h.wovenTexts (woven_part "operand" hv (by simp))⟩
  | _, _, .inclusive name lower upper, hv =>
    wovenTexts_range "inclusive_range" hv (by simp) (by simp)
  | _, _, .exclusive name lower upper, hv =>
    wovenTexts_range "exclusive_range" hv (by simp) (by simp)

theorem DenotesAll.wovenTexts : ∀ {vs : List Value} {ns : List Node}, DenotesAll vs ns →
    (∀ s ∈ Value.strings.stringsOfItems vs, Woven given s) →
    WovenTexts given (Node.texts.textsOfAll ns)
  | _, _, .nil, _ => by simp [WovenTexts, Node.texts.textsOfAll]
  | _, _, .cons h hs, hvs => by
    obtain ⟨hv, hvs⟩ := List.forall_mem_append.mp hvs
    exact (wovenTexts_append _).mpr ⟨h.wovenTexts hv, hs.wovenTexts hvs⟩

end

/-! ## §3 Errors -/

/-- A part of a value has no strings but those of the value. -/
theorem Reaches.woven_strings (h : Reaches c v path place u)
    (hv : ∀ s ∈ v.strings, Woven given s) : ∀ s ∈ u.strings, Woven given s := by
  -- on the path: each step leads to an item or to a part
  induction h with
  | here => exact hv
  | item hitem _ ih =>
    exact ih fun s hs => hv s (Value.mem_stringsOfItems (List.mem_of_getElem? hitem) hs)
  | part _ _ _ _ hget _ ih => exact ih (woven_part _ hv (Members.mem_of_get? hget))

theorem Step.escapeless_text {step : Step} (h : step.Known) : Escapeless step.text := by
  cases step with
  | index position =>
    exact escapeless_append.mpr
      ⟨escapeless_append.mpr ⟨by decide, escapeless_toString position⟩, by decide⟩
  | key name =>
    -- the keys on a path are known ones
    have hnames : ∀ name ∈ partNames, Escapeless name := by decide
    exact escapeless_append.mpr ⟨by decide, hnames name h⟩

/-- The text of a path holds no escape. -/
theorem Path.escapeless_text (h : path.Known) : Escapeless path.text := by
  refine escapeless_append.mpr ⟨by decide, escapeless_join fun t ht => ?_⟩
  obtain ⟨step, hstep, rfl⟩ := List.mem_map.mp ht
  exact Step.escapeless_text (h step hstep)

theorem escapeless_kind (k : Kind) : Escapeless k.name := by
  cases k <;> decide

theorem woven_key {members : List (String × Value)} {m : String × Value} (hm : m ∈ members)
    (hv : ∀ s ∈ (Value.object members).strings, Woven given s) : Woven given m.1 :=
  hv m.1 (Value.mem_stringsOfMembers hm (.inl rfl))

/-- The shape of a value is woven from its keys. -/
theorem woven_shape (hv : ∀ s ∈ v.strings, Woven given s) : Woven given (shape v).text := by
  cases v with
  | object members =>
    -- only an object shows strings, and these are its keys
    have hkeys : ∀ key ∈ Members.keys members, Woven given key := by
      intro key hkey
      obtain ⟨m, hm, rfl⟩ := List.mem_map.mp hkey
      exact woven_key hm hv
    exact (woven_intercalate (by decide) hkeys).between (by decide) (by decide)
  | null => exact (escapeless_kind .null).woven
  | bool b => exact (escapeless_kind .boolean).woven
  | number n => exact (escapeless_kind .number).woven
  | string s => exact (escapeless_kind .string).woven
  | array items => exact (escapeless_kind .array).woven

/-- An error about an attribute is told by its path, its name and a detail. -/
theorem woven_invalidAttribute {name detail : String} (hpath : path.Known)
    (hname : Woven given name) (hdetail : Woven given detail) :
    Woven given (Error.invalidAttribute path.text name detail).message := by
  have hplace : Woven given path.text := (Path.escapeless_text hpath).woven
  exact ((hname.behind (by decide)).beside hplace (by decide)).beside hdetail (by decide)

theorem woven_notText (name : String) (found : Kind) :
    Woven given (Fault.notText name found).detail :=
  (escapeless_kind found).woven.behind (by decide)

theorem woven_unknownSymbol (name : String) {symbol : String} (h : Woven given symbol) :
    Woven given (Fault.unknownSymbol name symbol).detail := by
  exact h.between (by decide) (by decide)

/-- What is told of a fault is a string of the value, or fixed. -/
theorem Faulty.woven {fault : Fault} (h : Faulty c v fault)
    (hv : ∀ s ∈ v.strings, Woven given s) (hpath : path.Known) :
    Woven given (Defect.toError ⟨path, fault⟩).message := by
  cases h with
  | unhandled =>
    have hplace : Woven given path.text := (Path.escapeless_text hpath).woven
    exact (hplace.behind (by decide)).beside (woven_shape hv) (by decide)
  | notText _ _ _ _ hget =>
    exact woven_invalidAttribute hpath (woven_key (Members.mem_of_get? hget) hv)
      (woven_notText _ _)
  | noSymbol =>
    exact woven_invalidAttribute hpath (woven_key List.mem_cons_self hv) (woven_notText _ _)
  | @unknownSymbol symbol =>
    have hname : Escapeless "unary_operator" := by decide
    have hsymbol := hv symbol (by simp [Value.strings])
    exact woven_invalidAttribute hpath hname.woven (woven_unknownSymbol _ hsymbol)
  | @unknownNamed name symbol =>
    have hsymbol := woven_text name hv List.mem_cons_self
    exact woven_invalidAttribute hpath (woven_key List.mem_cons_self hv)
      (woven_unknownSymbol _ hsymbol)
  | @otherSymbol o p =>
    have hname := o.escapeless_name
    -- both symbols are known ones
    have hdetail : Escapeless (Fault.otherSymbol o.name p.symbol).detail := by
      cases o <;> cases p <;> decide
    exact woven_invalidAttribute hpath hname.woven hdetail.woven

/-- The message of an error is woven from the strings of the value. -/
theorem Defective.woven_message {d : Defect} (h : Defective c v d)
    (hv : ∀ s ∈ v.strings, Woven given s) : Woven given d.toError.message := by
  obtain ⟨place, u, hreach, hfault⟩ := h
  exact hfault.woven (hreach.woven_strings hv) hreach.known

end Tree

end CanonicalQuery
