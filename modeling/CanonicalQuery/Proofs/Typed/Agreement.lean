import CanonicalQuery.Config.Typed
import CanonicalQuery.Proofs.Json.Demands
import CanonicalQuery.Proofs.Typed.RoundTrip

/-!
# Values and texts are read alike

A typed form may come as a value or as a text.  Where the text spells the value and repeats no key,
both readings give the same, with one exception: in a text the members of an alternative may stand
in an array, and in a value they may not.

There is no other difference because a text that has a value nests no deeper than a typed reading of
it allows, and the order of members does not matter to any reader.

## Main definitions

- `NodePositional`, `FieldValuePositional`: the members of an alternative stand in an array
  somewhere in a tree or in the value of a field.
- `RepeatsNoKey`: no object of a JSON text repeats a key.
- `ReadersAgree`: a reader gives the same for values and for texts, save for such arrays.

## Main statements

- `node_alike`, `fieldValue_alike`: two dialects in which a form may be read give the same for it.
- `node_ne_ok_of_positional`: a value with such an array is refused.
- `readersAgree`: all types are read alike.
-/

namespace CanonicalQuery.Typed

open CanonicalQuery.Json

variable {α : Type} {d d' : Dialect}

/-! ## §1 Dialects that leave room for a form -/

/-- Behind a bracket that both dialects allow, the rest is compared. -/
theorem enter_congr {next next' : Dialect → Except Mismatch α} {depth : Nat}
    (hd : d.Allows (depth + 1)) (hd' : d'.Allows (depth + 1))
    (h : d.inside.Allows depth → d'.inside.Allows depth → next d.inside = next' d'.inside) :
    (d.enter >>= next) = (d'.enter >>= next') := by
  -- a bracket may be opened in both dialects, and so neither ends here
  have hone : d.Allows 1 := hd.mono (by omega)
  have hone' : d'.Allows 1 := hd'.mono (by omega)
  rw [Dialect.enter_eq, Dialect.enter_eq, if_pos hone, if_pos hone']
  exact h ((Dialect.allows_inside hone depth).mpr hd) ((Dialect.allows_inside hone' depth).mpr hd')

/-- An object with one member nests one deeper than its content. -/
theorem depth_single (key : Option String) (f : Form) :
    (Form.object [(key, f)]).depth = f.depth + 1 := by
  simp [Form.depth, Form.depth.depthMembers]

/-- What is found under a name nests no deeper than the members. -/
theorem depth_part?_le {name : String} {ms : Members} {f : Form} (h : part? name ms = some f) :
    f.depth ≤ Form.depth.depthMembers ms := by
  induction ms with
  | nil => cases h
  | cons m ms ih =>
    obtain ⟨key, g⟩ := m
    rw [part?] at h
    rw [Form.depth.depthMembers]
    split at h
    · cases h
      exact Nat.le_max_left _ _
    · exact Nat.le_trans (ih h) (Nat.le_max_right _ _)

/-- An item nests no deeper than the array. -/
theorem depth_le_of_mem {fs : List Form} {f : Form} (h : f ∈ fs) :
    f.depth ≤ Form.depth.depthItems fs :=
  Form.depthItems_le.mp (Nat.le_refl _) f h

/-- A member is read alike if its content is. -/
theorem map_part?_congr {read read' : Form → α} {name : String} {ms : Members}
    (h : ∀ f ∈ part? name ms, read f = read' f) :
    (part? name ms).map read = (part? name ms).map read' := by
  cases hpart : part? name ms with
  | none => rfl
  | some f => exact congrArg some (h f hpart)

/-- The reader gives the same in all dialects that leave room for the form. -/
def Alike (read : Dialect → Form → Except Mismatch α) : Prop :=
  ∀ (d d' : Dialect) (f : Form), d.Allows f.depth → d'.Allows f.depth → read d f = read d' f

/-! ## §2 Parts without trees -/

/-- Readers of two alternatives with texts read alike in all dialects with room. -/
theorem readTagged_alike (first second : String) (toFirst toSecond : String → α) :
    Alike (readTagged first second toFirst toSecond) := by
  intro d d' f hd hd'
  by_cases hf : Tagged f
  · obtain ⟨name, content, rfl⟩ := hf
    rw [depth_single] at hd hd'
    rw [readTagged, readTagged]
    -- behind the bracket there is a text, which every dialect reads alike
    exact enter_congr hd hd' fun _ _ => rfl
  · rw [readTagged_untagged _ _ _ _ hf, readTagged_untagged _ _ _ _ hf]

/-- Readers of names read alike in all dialects with room. -/
theorem readName_alike (alternatives : List (String × α)) : Alike (readName alternatives) := by
  intro d d' f hd hd'
  by_cases hf : Tagged f
  · obtain ⟨name, content, rfl⟩ := hf
    rw [depth_single] at hd hd'
    show (d.enter >>= fun _ => _) = (d'.enter >>= fun _ => _)
    exact enter_congr hd hd' fun _ _ => rfl
  -- the name stands alone, or there is none
  · by_cases hstring : ∃ name, f = .string (some name)
    · obtain ⟨name, rfl⟩ := hstring
      rfl
    · have hother : ∀ name, f ≠ .string (some name) := fun name heq => hstring ⟨name, heq⟩
      rw [readName_untagged _ hf hother, readName_untagged _ hf hother]

/-- The modifiers of terms are read alike. -/
theorem termModifier_alike : Alike termModifier := readTagged_alike _ _ _ _

/-- The modifiers of phrases are read alike. -/
theorem phraseModifier_alike : Alike phraseModifier := readTagged_alike _ _ _ _

/-- Operators are read alike. -/
theorem operator_alike : Alike operator := readName_alike _

/-- Keywords are read alike. -/
theorem keyword_alike : Alike keyword := readName_alike _

/-- Readers of texts with a modifier read alike if the reader of the modifier does. -/
theorem readModified_alike (name : String) {modifier : Dialect → Form → Except Mismatch α}
    (hmodifier : Alike modifier) : Alike (readModified name modifier) := by
  -- only the modifier is read in the dialect behind the bracket
  have hoptional : ∀ {d d' : Dialect} {f : Form}, d.Allows f.depth → d'.Allows f.depth →
      readOptional (modifier d) f = readOptional (modifier d') f := by
    intro d d' f hd hd'
    cases f <;> simp only [readOptional, hmodifier d d' _ hd hd']
  intro d d' f hd hd'
  cases f with
  | object ms =>
    refine enter_congr hd hd' fun hin hin' => bind_congr_ok fun _ _ => ?_
    have hmod : (part? "modifier" ms).map (readOptional (modifier d.inside))
        = (part? "modifier" ms).map (readOptional (modifier d'.inside)) :=
      map_part?_congr fun f hf =>
        hoptional (hin.mono (depth_part?_le hf)) (hin'.mono (depth_part?_le hf))
    rw [hmod]
  | array items =>
    refine enter_congr hd hd' fun hin hin' => ?_
    -- the modifier is the second item, if there is one
    obtain _ | ⟨value, _ | ⟨f, rest⟩⟩ := items
    · rfl
    · rfl
    · have hmem : f ∈ value :: f :: rest := List.mem_cons_of_mem _ List.mem_cons_self
      have hle := depth_le_of_mem hmem
      simp only [hoptional (hin.mono hle) (hin'.mono hle)]
  | null => rfl
  | bool b => rfl
  | number literal => rfl
  | string text => rfl

/-- Terms are read alike. -/
theorem term_alike : Alike term := by
  intro d d' f hd hd'
  rw [term, term, readModified_alike "Term" termModifier_alike d d' f hd hd']

/-- Phrases are read alike. -/
theorem phrase_alike : Alike phrase := by
  intro d d' f hd hd'
  rw [phrase, phrase, readModified_alike "Phrase" phraseModifier_alike d d' f hd hd']

/-- Ranges are read alike. -/
theorem range_alike : Alike range := by
  intro d d' f hd hd'
  cases f with
  | object ms => exact enter_congr hd hd' fun _ _ => rfl
  | array items => exact enter_congr hd hd' fun _ _ => rfl
  | null => rfl
  | bool b => rfl
  | number literal => rfl
  | string text => rfl

/-! ## §3 Configurations -/

/-- An item by its position is read alike if all items are. -/
theorem ifPresent_getElem_congr {read read' : Form → Except Mismatch α} {items : List Form}
    {i : Nat} (h : ∀ f ∈ items, read f = read' f) :
    ifPresent (items[i]?.map read) = ifPresent (items[i]?.map read') := by
  cases hitem : items[i]? with
  | none => rfl
  | some f => simp only [Option.map_some, h f (List.mem_of_getElem? hitem)]

/-- Formats are read alike. -/
theorem outputFormat_alike : Alike outputFormat := readName_alike _

/-- The settings of the output are read alike. -/
theorem outputConfig_alike : Alike outputConfig := by
  intro d d' f hd hd'
  cases f with
  | object ms =>
    refine enter_congr hd hd' fun hin hin' => bind_congr_ok fun _ _ => ?_
    -- of the members only the format nests, and it is inside the bracket
    have hformat : (part? "format" ms).map (outputFormat d.inside)
        = (part? "format" ms).map (outputFormat d'.inside) :=
      map_part?_congr fun f hf => outputFormat_alike _ _ f
        (hin.mono (depth_part?_le hf)) (hin'.mono (depth_part?_le hf))
    rw [hformat]
  | array items =>
    refine enter_congr hd hd' fun hin hin' => ?_
    -- as items, all of them are inside the bracket
    have hitem : ∀ f ∈ items, outputFormat d.inside f = outputFormat d'.inside f := fun f hf =>
      outputFormat_alike _ _ f (hin.mono (depth_le_of_mem hf)) (hin'.mono (depth_le_of_mem hf))
    rw [ifPresent_getElem_congr hitem]
  | null => rfl
  | bool b => rfl
  | number literal => rfl
  | string text => rfl

/-- Configurations are read alike. -/
theorem config_alike : Alike config := by
  intro d d' f hd hd'
  cases f with
  | object ms =>
    refine enter_congr hd hd' fun hin hin' => bind_congr_ok fun _ _ => ?_
    -- of the members only the settings of the output nest
    have houtput : (part? "output" ms).map (outputConfig d.inside)
        = (part? "output" ms).map (outputConfig d'.inside) :=
      map_part?_congr fun f hf => outputConfig_alike _ _ f
        (hin.mono (depth_part?_le hf)) (hin'.mono (depth_part?_le hf))
    rw [houtput]
  | array items =>
    refine enter_congr hd hd' fun hin hin' => ?_
    have hitem : ∀ f ∈ items, outputConfig d.inside f = outputConfig d'.inside f := fun f hf =>
      outputConfig_alike _ _ f (hin.mono (depth_le_of_mem hf)) (hin'.mono (depth_le_of_mem hf))
    rw [ifPresent_getElem_congr hitem]
  | null => rfl
  | bool b => rfl
  | number literal => rfl
  | string text => rfl

/-! The order of members does not matter to the readers of configurations either. -/

/-- A part that may be missing is read alike in both orders if the part is. -/
theorem ifPresent_reordered {read : Form → Except Mismatch α} {f? g? : Option Form}
    (h : Option.Rel Reordered f? g?) (hread : ∀ {f g}, Reordered f g → read f = read g) :
    ifPresent (f?.map read) = ifPresent (g?.map read) := by
  cases h with
  | none => rfl
  | some hfg => simp only [Option.map_some, hread hfg]

/-- A flag has no order, and other forms are no flags. -/
theorem readFlag_reordered {f g : Form} (h : Reordered f g) : readFlag f = readFlag g := by
  obtain rfl | ⟨_, _, rfl, rfl, -⟩ | ⟨_, _, rfl, rfl, -⟩ := h.eq_or_array_or_object
  · rfl
  · rfl
  · rfl

/-- Formats are read alike in both orders. -/
theorem outputFormat_reordered {f g : Form} (h : Reordered f g) :
    outputFormat d f = outputFormat d g :=
  readName_reordered _ h

/-- The order of members does not matter to the reader of the settings of the output. -/
theorem outputConfig_reordered {f g : Form} (h : Reordered f g) :
    outputConfig d f = outputConfig d g := by
  obtain rfl | ⟨items, items', rfl, rfl, hitems⟩ | ⟨ms, ns, rfl, rfl, hms⟩ :=
    h.eq_or_array_or_object
  · rfl
  · refine bind_congr_ok fun d' _ => ?_
    -- in an array each setting has its position
    rw [ifPresent_reordered (hitems.getElem? 0) outputFormat_reordered,
      ifPresent_reordered (hitems.getElem? 1) readFlag_reordered, hitems.length_eq]
  · refine bind_congr_ok fun d' _ => record_reordered hms fun honce => ?_
    -- in an object each setting is found by its name in both orders
    have hcolor : (part? "color" ms).map readFlag = (part? "color" ns).map readFlag :=
      map_part?_reordered hms honce (by simp) fun _ _ _ hfg => readFlag_reordered hfg
    have hformat : (part? "format" ms).map (outputFormat d')
        = (part? "format" ns).map (outputFormat d') :=
      map_part?_reordered hms honce (by simp) fun _ _ _ hfg => outputFormat_reordered hfg
    rw [hcolor, hformat]

/-- The order of members does not matter to the reader of configurations. -/
theorem config_reordered {f g : Form} (h : Reordered f g) : config d f = config d g := by
  obtain rfl | ⟨items, items', rfl, rfl, hitems⟩ | ⟨ms, ns, rfl, rfl, hms⟩ :=
    h.eq_or_array_or_object
  · rfl
  · refine bind_congr_ok fun d' _ => ?_
    rw [ifPresent_reordered (hitems.getElem? 0) outputConfig_reordered, hitems.length_eq]
  · refine bind_congr_ok fun d' _ => record_reordered hms fun honce => ?_
    have houtput : (part? "output" ms).map (outputConfig d')
        = (part? "output" ns).map (outputConfig d') :=
      map_part?_reordered hms honce (by simp) fun _ _ _ hfg => outputConfig_reordered hfg
    rw [houtput]

/-! ## §4 Trees -/

mutual

/-- Somewhere in a tree the members of an alternative stand in an array.  Only the places that are
read as trees count. -/
inductive NodePositional : Form → Prop where
  | here {name : String} {items : List Form} : name = "Group" ∨ name = "Unary" ∨ name = "Field" →
      NodePositional (.object [(some name, .array items)])
  | group {ms : Members} {f : Form} : part? "inner" ms = some f → NodePositional f →
      NodePositional (.object [(some "Group", .object ms)])
  | unary {ms : Members} {f : Form} : part? "operand" ms = some f → NodePositional f →
      NodePositional (.object [(some "Unary", .object ms)])
  | field {ms : Members} {f : Form} : part? "value" ms = some f → FieldValuePositional f →
      NodePositional (.object [(some "Field", .object ms)])
  | sequence {items : List Form} {f : Form} : f ∈ items → NodePositional f →
      NodePositional (.object [(some "Sequence", .array items)])

/-- Somewhere in the value of a field the members of an alternative stand in an array. -/
inductive FieldValuePositional : Form → Prop where
  | operand {f : Form} : NodePositional f →
      FieldValuePositional (.object [(some "Operand", f)])

end

/-- A form on which both dialects agree: both leave room for it, and if only one of them lets the
members of an alternative stand in an array, then they nowhere do. -/
structure Agreed (d d' : Dialect) (depth : Nat) (Positional : Prop) : Prop where
  room : d.Allows depth
  room' : d'.Allows depth
  positional : d.positional = d'.positional ∨ ¬ Positional

def NodeAgreed (d d' : Dialect) (f : Form) : Prop := Agreed d d' f.depth (NodePositional f)

def FieldValueAgreed (d d' : Dialect) (f : Form) : Prop :=
  Agreed d d' f.depth (FieldValuePositional f)

/-- What holds of a form holds of the forms in it. -/
theorem Agreed.inside {depth depth' : Nat} {P Q : Prop} (h : Agreed d d' depth P)
    {e e' : Dialect} (he : e.Allows depth') (he' : e'.Allows depth')
    (hpos : e.positional = d.positional) (hpos' : e'.positional = d'.positional) (hQ : Q → P) :
    Agreed e e' depth' Q := by
  refine ⟨he, he', ?_⟩
  rw [hpos, hpos']
  exact h.positional.imp id fun hP hQ' => hP (hQ hQ')

/-! ### Alternatives that are records -/

section Alternatives

variable {ms : Members} {items : List Form}

/-- One bracket stands around the alternative and one around its members. -/
theorem Agreed.twice {depth depth' : Nat} {P : Prop} (h : Agreed d d' depth' P)
    (hdepth : depth' = depth + 1 + 1) {next next' : Dialect → Except Mismatch α}
    (hnext : d.inside.inside.Allows depth → d'.inside.inside.Allows depth →
      next d.inside.inside = next' d'.inside.inside) :
    (d.enter >>= fun e => e.enter >>= next) = (d'.enter >>= fun e => e.enter >>= next') := by
  rw [hdepth] at h
  exact enter_congr h.room h.room' fun hin hin' => enter_congr hin hin' hnext

/-- Groups are read alike if what is inside them is. -/
theorem group_alike (h : NodeAgreed d d' (.object [(some "Group", .object ms)]))
    (hinner : ∀ e e' : Dialect, ∀ f ∈ part? "inner" ms, NodeAgreed e e' f → node e f = node e' f) :
    node d (.object [(some "Group", .object ms)])
      = node d' (.object [(some "Group", .object ms)]) := by
  rw [node, node]
  -- both readers open the same two brackets and look for repeated members alike
  refine h.twice (depth_single _ _) fun hin hin' => bind_congr_ok fun _ _ => ?_
  have hread : nodeAt d.inside.inside "inner" ms = nodeAt d'.inside.inside "inner" ms := by
    rw [nodeAt_eq_map, nodeAt_eq_map]
    refine map_part?_congr fun f hf => hinner _ _ f hf ?_
    have hle := depth_part?_le hf
    exact h.inside (hin.mono hle) (hin'.mono hle) rfl rfl (.group hf)
  rw [hread]

/-- Operators with operands are read alike if the operands are. -/
theorem unary_alike (h : NodeAgreed d d' (.object [(some "Unary", .object ms)]))
    (hoperand : ∀ e e' : Dialect, ∀ f ∈ part? "operand" ms,
      NodeAgreed e e' f → node e f = node e' f) :
    node d (.object [(some "Unary", .object ms)])
      = node d' (.object [(some "Unary", .object ms)]) := by
  rw [node, node]
  refine h.twice (depth_single _ _) fun hin hin' => bind_congr_ok fun _ _ => ?_
  have hread : nodeAt d.inside.inside "operand" ms = nodeAt d'.inside.inside "operand" ms := by
    rw [nodeAt_eq_map, nodeAt_eq_map]
    refine map_part?_congr fun f hf => hoperand _ _ f hf ?_
    have hle := depth_part?_le hf
    exact h.inside (hin.mono hle) (hin'.mono hle) rfl rfl (.unary hf)
  -- the operator holds no tree, and room is all it needs
  have hoperator : (part? "operator" ms).map (operator d.inside.inside)
      = (part? "operator" ms).map (operator d'.inside.inside) :=
    map_part?_congr fun f hf => operator_alike _ _ f
      (hin.mono (depth_part?_le hf)) (hin'.mono (depth_part?_le hf))
  rw [hread, hoperator]

/-- Fields are read alike if their values are. -/
theorem field_alike (h : NodeAgreed d d' (.object [(some "Field", .object ms)]))
    (hvalue : ∀ e e' : Dialect, ∀ f ∈ part? "value" ms,
      FieldValueAgreed e e' f → fieldValue e f = fieldValue e' f) :
    node d (.object [(some "Field", .object ms)])
      = node d' (.object [(some "Field", .object ms)]) := by
  rw [node, node]
  refine h.twice (depth_single _ _) fun hin hin' => bind_congr_ok fun _ _ => ?_
  have hread : fieldValueAt d.inside.inside "value" ms
      = fieldValueAt d'.inside.inside "value" ms := by
    rw [fieldValueAt_eq_map, fieldValueAt_eq_map]
    refine map_part?_congr fun f hf => hvalue _ _ f hf ?_
    -- the value lies within the brackets for which there is room
    have hle := depth_part?_le hf
    exact h.inside (hin.mono hle) (hin'.mono hle) rfl rfl (.field hf)
  rw [hread]

/-! ### The same alternatives with their members in an array -/

/-- Where the members of an alternative stand in an array, the dialects agree on whether they
may. -/
theorem positional_eq {name : String} (hname : name = "Group" ∨ name = "Unary" ∨ name = "Field")
    (h : NodeAgreed d d' (.object [(some name, .array items)])) :
    d.positional = d'.positional :=
  h.positional.resolve_right fun hnowhere => hnowhere (.here hname)

/-- What is said of a wrong number of items depends on whether items are allowed. -/
theorem badItems_congr (h : d.positional = d'.positional) (name : String) (count members : Nat) :
    badItems d name count members = badItems d' name count members := by
  rw [badItems, badItems, h]

/-- Groups whose members stand in an array. -/
theorem groupItems_alike (h : NodeAgreed d d' (.object [(some "Group", .array items)]))
    (hinner : ∀ e e' : Dialect, d.positional = true → ∀ inner, items = [inner] →
      NodeAgreed e e' inner → node e inner = node e' inner) :
    node d (.object [(some "Group", .array items)])
      = node d' (.object [(some "Group", .array items)]) := by
  have hpos : d.positional = d'.positional := positional_eq (.inl rfl) h
  rw [node, node]
  refine h.twice (depth_single _ _) fun hin hin' => ?_
  simp only [← hpos, ← badItems_congr hpos]
  -- both dialects refuse the array, or both read the one item in it
  cases hp : d.positional with
  | false => rfl
  | true =>
    obtain _ | ⟨inner, _ | ⟨other, rest⟩⟩ := items
    · rfl
    · have hle : inner.depth ≤ Form.depth.depthItems [inner] := depth_le_of_mem List.mem_cons_self
      have hagreed : NodeAgreed d.inside.inside d'.inside.inside inner :=
        ⟨hin.mono hle, hin'.mono hle, .inl hpos⟩
      simp only [hinner _ _ hp inner rfl hagreed]
    · rfl

/-- Operators and operands that stand in an array. -/
theorem unaryItems_alike (h : NodeAgreed d d' (.object [(some "Unary", .array items)]))
    (hoperand : ∀ e e' : Dialect, d.positional = true → ∀ mark operand, items = [mark, operand] →
      NodeAgreed e e' operand → node e operand = node e' operand) :
    node d (.object [(some "Unary", .array items)])
      = node d' (.object [(some "Unary", .array items)]) := by
  have hpos : d.positional = d'.positional := positional_eq (.inr (.inl rfl)) h
  rw [node, node]
  refine h.twice (depth_single _ _) fun hin hin' => ?_
  simp only [← hpos, ← badItems_congr hpos]
  -- both dialects refuse the array, or both read the two items in it
  cases hp : d.positional with
  | false => rfl
  | true =>
    obtain _ | ⟨mark, _ | ⟨operand, _ | ⟨other, rest⟩⟩⟩ := items
    · rfl
    · rfl
    · have hmark : mark.depth ≤ Form.depth.depthItems [mark, operand] :=
        depth_le_of_mem List.mem_cons_self
      have hle : operand.depth ≤ Form.depth.depthItems [mark, operand] :=
        depth_le_of_mem (List.mem_cons_of_mem _ List.mem_cons_self)
      have hagreed : NodeAgreed d.inside.inside d'.inside.inside operand :=
        ⟨hin.mono hle, hin'.mono hle, .inl hpos⟩
      simp only [hoperand _ _ hp mark operand rfl hagreed,
        operator_alike _ _ mark (hin.mono hmark) (hin'.mono hmark)]
    · rfl

/-- Names and values of fields that stand in an array. -/
theorem fieldItems_alike (h : NodeAgreed d d' (.object [(some "Field", .array items)]))
    (hvalue : ∀ e e' : Dialect, d.positional = true → ∀ name value, items = [name, value] →
      FieldValueAgreed e e' value → fieldValue e value = fieldValue e' value) :
    node d (.object [(some "Field", .array items)])
      = node d' (.object [(some "Field", .array items)]) := by
  have hpos : d.positional = d'.positional := positional_eq (.inr (.inr rfl)) h
  rw [node, node]
  refine h.twice (depth_single _ _) fun hin hin' => ?_
  simp only [← hpos, ← badItems_congr hpos]
  -- both dialects refuse the array, or both read the two items in it
  cases hp : d.positional with
  | false => rfl
  | true =>
    obtain _ | ⟨name, _ | ⟨value, _ | ⟨other, rest⟩⟩⟩ := items
    · rfl
    · rfl
    · have hle : value.depth ≤ Form.depth.depthItems [name, value] :=
        depth_le_of_mem (List.mem_cons_of_mem _ List.mem_cons_self)
      have hagreed : FieldValueAgreed d.inside.inside d'.inside.inside value :=
        ⟨hin.mono hle, hin'.mono hle, .inl hpos⟩
      simp only [hvalue _ _ hp name value rfl hagreed]
    · rfl

/-- Sequences are read alike if their items are. -/
theorem sequence_alike (h : NodeAgreed d d' (.object [(some "Sequence", .array items)]))
    (hitems : ∀ e e' : Dialect, (∀ f ∈ items, NodeAgreed e e' f) → nodes e items = nodes e' items) :
    node d (.object [(some "Sequence", .array items)])
      = node d' (.object [(some "Sequence", .array items)]) := by
  rw [node, node]
  refine h.twice (depth_single _ _) fun hin hin' => ?_
  have hread : nodes d.inside.inside items = nodes d'.inside.inside items := by
    refine hitems _ _ fun f hf => ?_
    have hle := depth_le_of_mem hf
    exact h.inside (hin.mono hle) (hin'.mono hle) rfl rfl (.sequence hf)
  rw [hread]

end Alternatives

/-- A part that is read behind the name of an alternative. -/
theorem Agreed.once {name : String} {f : Form} {P Q : Prop}
    (h : Agreed d d' (Form.object [(some name, f)]).depth P) (hQ : Q → P)
    {next next' : Dialect → Except Mismatch α}
    (hnext : Agreed d.inside d'.inside f.depth Q → next d.inside = next' d'.inside) :
    (d.enter >>= next) = (d'.enter >>= next') := by
  have hroom := h.room
  have hroom' := h.room'
  rw [depth_single] at hroom hroom'
  exact enter_congr hroom hroom' fun hin hin' => hnext (h.inside hin hin' rfl rfl hQ)

/-! ### All forms -/

/-- The induction follows the reader of `d`; what `d'` reads is compared step by step. -/
theorem alike :
    (∀ (d : Dialect) (f : Form) (d' : Dialect), NodeAgreed d d' f → node d f = node d' f) ∧
    (∀ (d : Dialect) (fs : List Form) (d' : Dialect),
      (∀ f ∈ fs, NodeAgreed d d' f) → nodes d fs = nodes d' fs) ∧
    (∀ (d : Dialect) (f : Form) (d' : Dialect),
      FieldValueAgreed d d' f → fieldValue d f = fieldValue d' f) ∧
    (∀ (d : Dialect) (name : String) (ms : Members) (d' : Dialect), ∀ f ∈ part? name ms,
      FieldValueAgreed d d' f → fieldValue d f = fieldValue d' f) ∧
    (∀ (d : Dialect) (name : String) (ms : Members) (d' : Dialect), ∀ f ∈ part? name ms,
      NodeAgreed d d' f → node d f = node d' f) := by
  refine node.mutual_induct
    (fun d f => ∀ d' : Dialect, NodeAgreed d d' f → node d f = node d' f)
    (fun d fs => ∀ d' : Dialect, (∀ f ∈ fs, NodeAgreed d d' f) → nodes d fs = nodes d' fs)
    (fun d f => ∀ d' : Dialect, FieldValueAgreed d d' f → fieldValue d f = fieldValue d' f)
    (fun d name ms => ∀ d' : Dialect, ∀ f ∈ part? name ms,
      FieldValueAgreed d d' f → fieldValue d f = fieldValue d' f)
    (fun d name ms => ∀ d' : Dialect, ∀ f ∈ part? name ms,
      NodeAgreed d d' f → node d f = node d' f)
    ?term ?phrase ?group ?groupItems ?groupOther ?unary ?unaryItems ?unaryOther ?field ?fieldItems
    ?fieldOther ?sequence ?sequenceOther ?other ?operand ?inclusive ?exclusive ?valueOther
    ?nil ?cons ?valueAtNil ?valueAtHere ?valueAtBelow ?nodeAtNil ?nodeAtHere ?nodeAtBelow
  -- the alternatives of a tree
  case term =>
    intro d content d' h
    rw [node, node]
    refine h.once False.elim fun hin => ?_
    rw [term_alike _ _ content hin.room hin.room']
  case phrase =>
    intro d content d' h
    rw [node, node]
    refine h.once False.elim fun hin => ?_
    rw [phrase_alike _ _ content hin.room hin.room']
  case group => exact fun d ms ih d' h => group_alike h ih
  case groupItems =>
    intro d items ih d' h
    refine groupItems_alike h ?_
    rintro e e' hpos inner rfl
    have hinner := ih e
    simp only [hpos] at hinner
    exact hinner e'
  case groupOther =>
    intro d content hobject harray d' h
    rw [node, node]
    all_goals assumption
  case unary => exact fun d ms ih d' h => unary_alike h ih
  case unaryItems =>
    intro d items ih d' h
    refine unaryItems_alike h ?_
    rintro e e' hpos mark operand rfl
    have hoperand := ih e
    simp only [hpos] at hoperand
    exact hoperand e'
  case unaryOther =>
    intro d content hobject harray d' h
    rw [node, node]
    all_goals assumption
  case field => exact fun d ms ih d' h => field_alike h ih
  case fieldItems =>
    intro d items ih d' h
    refine fieldItems_alike h ?_
    rintro e e' hpos name value rfl
    have hvalue := ih e
    simp only [hpos] at hvalue
    exact hvalue e'
  case fieldOther =>
    intro d content hobject harray d' h
    rw [node, node]
    all_goals assumption
  case sequence => exact fun d items ih d' h => sequence_alike h ih
  case sequenceOther =>
    intro d content harray d' h
    rw [node, node]
    all_goals assumption
  case other =>
    intro d f hterm hphrase _ _ hgroup _ _ hunary _ _ hfield _ hsequence d' h
    have hlacks : Lacks nodeNames f :=
      lacks_nodeNames hterm hphrase hgroup hunary hfield hsequence
    rw [node_of_lacks hlacks, node_of_lacks hlacks]
  -- the alternatives of the value of a field
  case operand =>
    intro d content ih d' h
    rw [fieldValue, fieldValue]
    refine h.once .operand fun hin => ?_
    rw [ih _ _ hin]
  case inclusive =>
    intro d content d' h
    rw [fieldValue, fieldValue]
    refine h.once False.elim fun hin => ?_
    rw [range_alike _ _ content hin.room hin.room']
  case exclusive =>
    intro d content d' h
    rw [fieldValue, fieldValue]
    refine h.once False.elim fun hin => ?_
    rw [range_alike _ _ content hin.room hin.room']
  case valueOther =>
    intro d f hoperand hinclusive hexclusive d' h
    have hlacks : Lacks fieldValueNames f :=
      lacks_fieldValueNames hoperand hinclusive hexclusive
    rw [fieldValue_of_lacks hlacks, fieldValue_of_lacks hlacks]
  -- the items of a sequence
  case nil => exact fun d d' _ => rfl
  case cons =>
    intro d f fs ihf ihfs d' h
    have hf : node d f = node d' f := ihf d' (h f List.mem_cons_self)
    have hfs : nodes d fs = nodes d' fs := ihfs d' fun g hg => h g (List.mem_cons_of_mem f hg)
    rw [nodes, nodes, hf, hfs]
  -- looking a member up: it is the first one, or it is among the others
  case valueAtNil =>
    intro d name d' f hf
    cases hf
  case valueAtHere =>
    intro d name f rest ih d' f' hf'
    rw [part?, if_pos rfl] at hf'
    cases hf'
    exact ih d'
  case valueAtBelow =>
    intro d name key f rest hkey ih d' f' hf'
    rw [part?, if_neg hkey] at hf'
    exact ih d' f' hf'
  case nodeAtNil =>
    intro d name d' f hf
    cases hf
  case nodeAtHere =>
    intro d name f rest ih d' f' hf'
    rw [part?, if_pos rfl] at hf'
    cases hf'
    exact ih d'
  case nodeAtBelow =>
    intro d name key f rest hkey ih d' f' hf'
    rw [part?, if_neg hkey] at hf'
    exact ih d' f' hf'

/-! ## §5 Arrays in values -/

/-- Opening a bracket does not change whether arrays are allowed. -/
theorem positional_of_enter {e : Dialect} (h : d.enter = .ok e) : e.positional = d.positional := by
  rw [Dialect.enter_eq] at h
  split_ifs at h
  cases h
  rfl

/-- Opening two brackets does not change it either. -/
theorem positional_behind {d₁ d₂ : Dialect} (h₁ : d.enter = .ok d₁) (h₂ : d₁.enter = .ok d₂)
    (hpos : d.positional = false) : d₂.positional = false := by
  rw [positional_of_enter h₂, positional_of_enter h₁, hpos]

/-- A part that is present and gives something was read. -/
theorem ifPresent_some_eq_ok {x : Except Mismatch α} {a? : Option α}
    (h : ifPresent (some x) = .ok a?) : ∃ a, x = .ok a := by
  cases x with
  | error e => cases h
  | ok a => exact ⟨a, rfl⟩

/-- All items of a sequence that is read are read. -/
theorem exists_node_of_nodes {fs : List Form} {ns : List Node} (h : nodes d fs = .ok ns) :
    ∀ f ∈ fs, ∃ n, node d f = .ok n := by
  induction fs generalizing ns with
  | nil => exact fun f hf => absurd hf List.not_mem_nil
  | cons f fs ih =>
    simp only [nodes, bind_eq_ok] at h
    -- the first item was read, and then the others
    obtain ⟨n, hn, ns', hns, -⟩ := h
    intro g hg
    rcases List.mem_cons.mp hg with rfl | hmem
    · exact ⟨n, hn⟩
    · exact ih hns g hmem

mutual

/-- A tree is refused where the members of an alternative may not stand in an array but do. -/
theorem node_ne_ok_of_positional : ∀ {f : Form}, NodePositional f →
    ∀ (d : Dialect), d.positional = false → ∀ n, node d f ≠ .ok n
  | _, .here hname, d, hpos, n, hread => by
    -- here is such an array, and the reader refuses it whatever its items
    rcases hname with rfl | rfl | rfl
    all_goals
      simp only [node, bind_eq_ok, hpos] at hread
      obtain ⟨_, _, _, _, hbad⟩ := hread
      cases hbad
  | _, .group hpart hinner, d, hpos, n, hread => by
    simp only [node, bind_eq_ok, nodeAt_eq_map, hpart, Option.map_some] at hread
    -- if the group were read, what is inside it would be
    obtain ⟨d₁, h₁, d₂, h₂, _, _, _, hpresent, -⟩ := hread
    obtain ⟨m, hm⟩ := ifPresent_some_eq_ok hpresent
    exact node_ne_ok_of_positional hinner d₂ (positional_behind h₁ h₂ hpos) m hm
  | _, .unary hpart hoperand, d, hpos, n, hread => by
    simp only [node, bind_eq_ok, nodeAt_eq_map, hpart, Option.map_some] at hread
    obtain ⟨d₁, h₁, d₂, h₂, _, _, _, hpresent, -⟩ := hread
    obtain ⟨m, hm⟩ := ifPresent_some_eq_ok hpresent
    exact node_ne_ok_of_positional hoperand d₂ (positional_behind h₁ h₂ hpos) m hm
  | _, .field hpart hvalue, d, hpos, n, hread => by
    simp only [node, bind_eq_ok, fieldValueAt_eq_map, hpart, Option.map_some] at hread
    obtain ⟨d₁, h₁, d₂, h₂, _, _, _, _, _, hpresent, -⟩ := hread
    obtain ⟨v, hv⟩ := ifPresent_some_eq_ok hpresent
    exact fieldValue_ne_ok_of_positional hvalue d₂ (positional_behind h₁ h₂ hpos) v hv
  | _, .sequence hmem hitem, d, hpos, n, hread => by
    simp only [node, bind_eq_ok] at hread
    obtain ⟨d₁, h₁, d₂, h₂, ns, hns, -⟩ := hread
    obtain ⟨m, hm⟩ := exists_node_of_nodes hns _ hmem
    exact node_ne_ok_of_positional hitem d₂ (positional_behind h₁ h₂ hpos) m hm

/-- The value of a field is refused as well. -/
theorem fieldValue_ne_ok_of_positional : ∀ {f : Form}, FieldValuePositional f →
    ∀ (d : Dialect), d.positional = false → ∀ v, fieldValue d f ≠ .ok v
  | _, .operand hoperand, d, hpos, v, hread => by
    simp only [fieldValue, bind_eq_ok] at hread
    obtain ⟨d₁, h₁, m, hm, -⟩ := hread
    exact node_ne_ok_of_positional hoperand d₁ ((positional_of_enter h₁).trans hpos) m hm

end

/-! ## §6 Values and texts -/

/-- No object of the text repeats a key. -/
def RepeatsNoKey (text : String) : Prop :=
  ∀ v : Value, Form.ofText .standard text = .ok v.form → v.Distinct

/-- A reader gives the same for a value as for any text that spells it and repeats no key; only
where members stand in arrays does the text give something and the value nothing. -/
structure ReadersAgree (read : Dialect → Form → Except Mismatch α) (Positional : Form → Prop) :
    Prop where
  text_of_value : ∀ {text : String} {v : Value} {a : α}, Value.ofText text = .ok v →
    RepeatsNoKey text → ofValue read v = .ok a → ofText read text = .ok a
  value_of_text : ∀ {text : String} {v : Value} {a : α}, Value.ofText text = .ok v →
    RepeatsNoKey text → ofText read text = .ok a → (ofValue read v = .ok a ↔ ¬ Positional v.form)

/-- Without a limit, any number of brackets may be opened. -/
theorem allows_of_room_none {d : Dialect} (h : d.room = none) (count : Nat) : d.Allows count := by
  intro room hroom
  rw [h] at hroom
  cases hroom

/-- The same as a text, without its limit of depth. -/
def Dialect.unlimited : Dialect := ⟨true, none⟩

/-- What is read from a text depends on its sorted value alone. -/
theorem ofText_eq_of_value {read : Dialect → Form → Except Mismatch α}
    (horder : ∀ d f g, Reordered f g → read d f = read d g)
    (hroom : ∀ (d d' : Dialect) (f : Form), d.Allows f.depth → d'.Allows f.depth →
      d.positional = d'.positional → read d f = read d' f)
    {text : String} {v : Value} (hv : Value.ofText text = .ok v) (honce : RepeatsNoKey text) :
    ofText read text = read .unlimited v.form := by
  -- the text spells an unsorted value, whose sorted form is the value of the text
  obtain ⟨w, rfl, hstandard, hform, hdepth⟩ := Value.ofText_eq_ok hv
  have hallows : Dialect.text.Allows w.form.depth := by
    intro room hroom
    cases hroom
    exact hdepth
  calc ofText read text
      = read .text w.form := by
        rw [ofText, hform]
    _ = read .unlimited w.form := hroom _ _ _ hallows (allows_of_room_none rfl _) rfl
    _ = read .unlimited w.sorted.form :=
        horder _ _ _ (Value.reordered_form_sorted w (honce w hstandard))

/-- A reader agrees for values and texts if it minds neither the order of members nor the dialect,
but for arrays that values refuse. -/
theorem readersAgree_of_alike {read : Dialect → Form → Except Mismatch α}
    {Positional : Form → Prop} (horder : ∀ d f g, Reordered f g → read d f = read d g)
    (halike : ∀ (d d' : Dialect) (f : Form), d.Allows f.depth → d'.Allows f.depth →
      (d.positional = d'.positional ∨ ¬ Positional f) → read d f = read d' f)
    (hrefused : ∀ {f : Form}, Positional f → ∀ (d : Dialect), d.positional = false →
      ∀ a, read d f ≠ .ok a) : ReadersAgree read Positional := by
  have htext : ∀ {text : String} {v : Value}, Value.ofText text = .ok v → RepeatsNoKey text →
      ofText read text = read .unlimited v.form :=
    ofText_eq_of_value horder fun d d' f hd hd' hpos => halike d d' f hd hd' (.inl hpos)
  -- without such arrays both dialects without a limit give the same
  have hsame : ∀ {v : Value}, ¬ Positional v.form →
      ofValue read v = read .unlimited v.form := fun hnot =>
    halike _ _ _ (allows_of_room_none rfl _) (allows_of_room_none rfl _) (.inr hnot)
  -- a value that is read has no such array, since it would have been refused
  have hnot : ∀ {v : Value} {a : α}, ofValue read v = .ok a → ¬ Positional v.form :=
    fun hvalue hpos => hrefused hpos .value rfl _ hvalue
  refine ⟨?_, ?_⟩
  · intro text v a hv honce hvalue
    rw [htext hv honce, ← hsame (hnot hvalue)]
    exact hvalue
  · intro text v a hv honce hread
    refine ⟨hnot, fun hnowhere => ?_⟩
    rw [hsame hnowhere, ← htext hv honce]
    exact hread

/-- Nothing stands in such an array. -/
def Nowhere (_ : Form) : Prop := False

/-- A reader that reads alike in all dialects agrees without exception. -/
theorem readersAgree_of_alike_nowhere {read : Dialect → Form → Except Mismatch α}
    (horder : ∀ d f g, Reordered f g → read d f = read d g) (halike : Alike read) :
    ReadersAgree read Nowhere :=
  readersAgree_of_alike horder (fun d d' f hd hd' _ => halike d d' f hd hd') fun h => h.elim

/-- **Values and texts are read alike.**  Take a JSON text that has a value and repeats no key, its
members in any order.  What the value is read as, the text is read as too.  What the text is read
as, the value is read as too, unless in a tree the members of a group, of an operator with its
operand or of a field stand in an array; a value with such an array is refused.  This holds of trees
and of the values of fields, and without exception of every other type. -/
theorem readersAgree :
    ReadersAgree node NodePositional ∧ ReadersAgree fieldValue FieldValuePositional ∧
      ReadersAgree term Nowhere ∧ ReadersAgree phrase Nowhere ∧ ReadersAgree range Nowhere ∧
      ReadersAgree termModifier Nowhere ∧ ReadersAgree phraseModifier Nowhere ∧
      ReadersAgree operator Nowhere ∧ ReadersAgree keyword Nowhere ∧
      ReadersAgree config Nowhere := by
  refine ⟨?_, ?_, ?_, ?_, ?_, ?_, ?_, ?_, ?_, ?_⟩
  -- trees and the values of fields have the exception, and a value with it is refused
  · exact readersAgree_of_alike (fun _ _ _ => node_reordered)
      (fun d d' f hd hd' hpos => alike.1 d f d' ⟨hd, hd', hpos⟩) node_ne_ok_of_positional
  · exact readersAgree_of_alike (fun _ _ _ => fieldValue_reordered)
      (fun d d' f hd hd' hpos => alike.2.2.1 d f d' ⟨hd, hd', hpos⟩)
      fieldValue_ne_ok_of_positional
  -- both readers of the other types take the same forms
  · exact readersAgree_of_alike_nowhere (fun _ _ _ => term_reordered) term_alike
  · exact readersAgree_of_alike_nowhere (fun _ _ _ => phrase_reordered) phrase_alike
  · exact readersAgree_of_alike_nowhere (fun _ _ _ => range_reordered) range_alike
  · exact readersAgree_of_alike_nowhere (fun _ _ _ => termModifier_reordered) termModifier_alike
  · exact readersAgree_of_alike_nowhere (fun _ _ _ => phraseModifier_reordered)
      phraseModifier_alike
  · exact readersAgree_of_alike_nowhere (fun _ _ _ => operator_reordered) operator_alike
  · exact readersAgree_of_alike_nowhere (fun _ _ _ => keyword_reordered) keyword_alike
  · exact readersAgree_of_alike_nowhere (fun _ _ _ => config_reordered) config_alike

/-- The text of a value repeats no key if the value does not. -/
theorem repeatsNoKey_text {v : Value} (h : v.Numberless) (hv : v.Distinct) :
    RepeatsNoKey v.text := by
  intro w hw
  rw [Form.ofText, readSymbols_text _ v h] at hw
  split at hw
  · -- a form spells one value only
    have hform : v.form = w.form := Except.ok.inj hw
    have hvalue : some v = some w := by
      rw [← Form.value?_form v, ← Form.value?_form w, hform]
    obtain rfl := Option.some.inj hvalue
    exact hv
  · cases hw

/-- A term is read alike.  In a group whose members stand in an array it is read from the text, and
refused as a value. -/
theorem readersAgree_of_group_in_array :
    let term : Value := .object [("Term", .object [("value", .string "a")])]
    let group : Value := .object [("Group", .array [term])]
    ofText node term.text = .ok (.word "a") ∧ ofText node group.text = .ok (.group (.word "a")) ∧
      ofValue node group ≠ .ok (.group (.word "a")) := by
  intro term group
  have hterm : term.Numberless := ⟨⟨trivial, trivial⟩, trivial⟩
  have hgroup : group.Numberless := ⟨⟨hterm, trivial⟩, trivial⟩
  have honceTerm : RepeatsNoKey term.text :=
    repeatsNoKey_text hterm (by simp [term, Value.Distinct, Value.DistinctMembers, Members.keys])
  have honceGroup : RepeatsNoKey group.text :=
    repeatsNoKey_text hgroup (by
      simp [group, term, Value.Distinct, Value.DistinctMembers, Value.DistinctItems, Members.keys])
  have hreadTerm : Value.ofText term.text = .ok term :=
    Value.ofText_text term hterm
  have hreadGroup : Value.ofText group.text = .ok group :=
    Value.ofText_text group hgroup
  have hread : ofText node group.text = .ok (.group (.word "a")) := by
    rw [ofText, Form.ofText_text group hgroup]
    rfl
  -- were the value read, there would be no such array in it
  refine ⟨readersAgree.1.text_of_value hreadTerm honceTerm rfl, hread, fun hvalue => ?_⟩
  have hnowhere := (readersAgree.1.value_of_text hreadGroup honceGroup hread).mp hvalue
  exact hnowhere (.here (.inl rfl))

end CanonicalQuery.Typed
