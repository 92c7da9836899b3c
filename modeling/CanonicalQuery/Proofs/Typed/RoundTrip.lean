import CanonicalQuery.Proofs.Json.RoundTrip
import CanonicalQuery.Proofs.Typed.Order

/-!
# Typed forms are read back

The typed form that is written for a tree, or for a part of one, is read as the same tree or part.
A reading of a text limits how deep brackets nest, and then the only form that is not read back is
one that nests too deep.  One level of a tree takes two to four brackets, so the limit is stated for
the written form and not for the tree.

## Main definitions

- `Dialect.Allows`, `withRoom`: a result that is there if some number of brackets may be opened.
- `RoundTrips`: a reader takes back a writer, from values and from texts.

## Main statements

- `Typed.node_typed`, `Typed.fieldValue_typed`, `Typed.term_typed`, `Typed.phrase_typed`,
  `Typed.range_typed`: the readers on written forms.
- `Typed.roundTrips`: trees and their parts are read back from values and from texts.
-/

namespace CanonicalQuery.Typed

open CanonicalQuery.Json

/-! ## §1 Room for brackets -/

namespace Dialect

/-- This many more brackets may be opened. -/
def Allows (d : Dialect) (count : Nat) : Prop :=
  ∀ room ∈ d.room, count ≤ room

instance (d : Dialect) (count : Nat) : Decidable (d.Allows count) :=
  inferInstanceAs (Decidable (∀ _ ∈ d.room, _))

/-- What is allowed behind one more bracket, where it may be opened. -/
def inside (d : Dialect) : Dialect :=
  { d with room := d.room.map (· - 1) }

/-- No bracket needs no room. -/
theorem allows_zero (d : Dialect) : d.Allows 0 :=
  fun room _ => Nat.zero_le room

/-- Where many brackets may be opened, fewer may. -/
theorem Allows.mono {d : Dialect} {few many : Nat} (h : few ≤ many) (hmany : d.Allows many) :
    d.Allows few :=
  fun room hroom => Nat.le_trans h (hmany room hroom)

/-- A bracket is opened if there is room for one, and else the form is too deep. -/
theorem enter_eq (d : Dialect) :
    d.enter = if d.Allows 1 then .ok d.inside else .error .tooDeep := by
  obtain ⟨positional, room⟩ := d
  -- without a limit there is always room, and with one if it is not used up
  cases room with
  | none => rfl
  | some room =>
    cases room with
    | zero => rfl
    | succ room =>
      rw [if_pos]
      · rfl
      · intro limit hlimit
        cases hlimit
        omega

/-- Behind a bracket there is room for one less. -/
theorem allows_inside {d : Dialect} (h : d.Allows 1) (count : Nat) :
    d.inside.Allows count ↔ d.Allows (count + 1) := by
  obtain ⟨positional, room⟩ := d
  cases room with
  | none => simp [Allows, inside]
  | some room =>
    have hroom : 1 ≤ room := h room rfl
    simp only [Allows, inside, Option.map_some, Option.mem_some_iff, forall_eq']
    omega

end Dialect

variable {α β γ : Type} {d : Dialect}

/-- A result behind this many more brackets. -/
def withRoom (d : Dialect) (count : Nat) (a : α) : Except Mismatch α :=
  if d.Allows count then .ok a else .error .tooDeep

/-- What needs no bracket is there. -/
theorem withRoom_zero (a : α) : withRoom d 0 a = .ok a :=
  if_pos d.allows_zero

/-- One bracket is opened before the rest is read. -/
theorem enter_bind {next : Dialect → Except Mismatch α} {count : Nat} {a : α}
    (h : next d.inside = withRoom d.inside count a) :
    (d.enter >>= next) = withRoom d (count + 1) a := by
  rw [Dialect.enter_eq]
  by_cases hone : d.Allows 1
  · rw [if_pos hone]
    show next d.inside = _
    rw [h, withRoom, withRoom]
    exact if_congr (Dialect.allows_inside hone count) rfl rfl
  -- where one bracket is too many, more of them are
  · have hdeep : ¬ d.Allows (count + 1) := fun hmany => hone (hmany.mono (by omega))
    rw [if_neg hone, withRoom, if_neg hdeep]
    rfl

/-- What is made of a result needs no more room. -/
theorem withRoom_bind {next : α → Except Mismatch β} {count : Nat} {a : α} {b : β}
    (h : next a = .ok b) : (withRoom d count a >>= next) = withRoom d count b := by
  rw [withRoom, withRoom]
  split_ifs with hroom
  · exact h
  · rfl

/-- A part that is present is there under the same condition. -/
theorem ifPresent_withRoom (count : Nat) (a : α) :
    ifPresent (some (withRoom d count a)) = withRoom d count (some a) := by
  rw [withRoom, withRoom]
  split_ifs with h
  · rfl
  · rfl

/-- Two parts are read one after the other, inside the same brackets. -/
theorem withRoom_both (count count' : Nat) (a : α) (b : β) (f : α → β → γ) :
    (do return f (← withRoom d count a) (← withRoom d count' b))
      = withRoom d (max count count') (f a b) := by
  -- the first part that does not fit ends the reading, and then the larger count does not fit
  by_cases ha : d.Allows count
  · by_cases hb : d.Allows count'
    · have hmax : d.Allows (max count count') := by
        intro room hroom
        exact Nat.max_le.mpr ⟨ha room hroom, hb room hroom⟩
      rw [withRoom, withRoom, withRoom, if_pos ha, if_pos hb, if_pos hmax]
      rfl
    · have hmax : ¬ d.Allows (max count count') := fun h => hb (h.mono (by omega))
      rw [withRoom, withRoom, withRoom, if_pos ha, if_neg hb, if_neg hmax]
      rfl
  · have hmax : ¬ d.Allows (max count count') := fun h => ha (h.mono (by omega))
    rw [withRoom, withRoom, withRoom, if_neg ha, if_neg hmax]
    rfl

/-! ## §2 Parts of trees -/

/-- The modifier of a term is read back behind one bracket. -/
theorem termModifier_typed (m : TermModifier) :
    termModifier d m.typed.form = withRoom d 1 m := by
  cases m with
  | similarity degree => exact enter_bind (withRoom_zero _).symm
  | boost factor => exact enter_bind (withRoom_zero _).symm

/-- The modifier of a phrase is read back behind one bracket. -/
theorem phraseModifier_typed (m : PhraseModifier) :
    phraseModifier d m.typed.form = withRoom d 1 m := by
  cases m with
  | boost factor => exact enter_bind (withRoom_zero _).symm
  | distance words => exact enter_bind (withRoom_zero _).symm

/-- The object of an alternative is not absent. -/
theorem form_tagged_ne_null (name : String) (content : Value) :
    (Value.tagged name content).form ≠ .null := by
  intro h
  cases h

/-- The modifier of a term is not absent. -/
theorem form_termModifier_ne_null (m : TermModifier) : m.typed.form ≠ .null := by
  cases m with
  | similarity degree => exact form_tagged_ne_null _ _
  | boost factor => exact form_tagged_ne_null _ _

/-- The modifier of a phrase is not absent. -/
theorem form_phraseModifier_ne_null (m : PhraseModifier) : m.typed.form ≠ .null := by
  cases m with
  | boost factor => exact form_tagged_ne_null _ _
  | distance words => exact form_tagged_ne_null _ _

/-- An operator is read back from its name. -/
theorem operator_typed (o : Operator) : operator d o.typed.form = .ok o := by
  cases o with
  | required => rfl
  | prohibited => rfl

/-- A range is read back behind one bracket. -/
theorem range_typed (r : Range) : range d r.typed.form = withRoom d 1 r :=
  enter_bind (withRoom_zero r).symm

/-- A text without a modifier is read back behind one bracket. -/
theorem readModified_unmodified (name : String)
    (modifier : Dialect → Form → Except Mismatch α) (value : String) :
    readModified name modifier d (.object [(some "value", .string (some value))])
      = withRoom d 1 (value, none) :=
  enter_bind (withRoom_zero _).symm

/-- A text with a modifier is read back behind two brackets if the modifier is behind its own. -/
theorem readModified_modified (name : String) {modifier : Dialect → Form → Except Mismatch α}
    (value : String) {f : Form} {a : α} (hnull : f ≠ .null)
    (hmodifier : modifier d.inside f = withRoom d.inside 1 a) :
    readModified name modifier d
        (.object [(some "value", .string (some value)), (some "modifier", f)])
      = withRoom d 2 (value, some a) := by
  -- the modifier is present, and the reader of optional parts passes it on
  have hoptional : readOptional (modifier d.inside) f = withRoom d.inside 1 (some a) := by
    rw [readOptional, hmodifier]
    · exact withRoom_bind rfl
    · exact hnull
  refine enter_bind ?_
  -- the members have distinct names with values, and so only the modifier can fail
  calc
    _ = (do return (value, (← ifPresent (some (readOptional (modifier d.inside) f))).join)) := rfl
    _ = withRoom d.inside 1 (value, some a) := by
      rw [hoptional, ifPresent_withRoom]
      exact withRoom_bind rfl

/-- A term is read back from its typed form. -/
theorem term_typed (t : Term) : term d t.typed.form = withRoom d t.typed.depth t := by
  obtain ⟨value, modifier⟩ := t
  cases modifier with
  -- without a modifier it is an object of one bracket
  | none =>
    have hread : readModified "Term" termModifier d (Term.typed { value }).form
        = withRoom d 1 (value, none) := readModified_unmodified "Term" termModifier value
    rw [term, hread]
    exact withRoom_bind rfl
  | some m =>
    -- a modifier adds the bracket around it
    have hdepth : (Term.typed { value, modifier := some m }).depth = 2 := by
      cases m <;> rfl
    have hread :
        readModified "Term" termModifier d (Term.typed { value, modifier := some m }).form
          = withRoom d 2 (value, some m) :=
      readModified_modified "Term" value (form_termModifier_ne_null m) (termModifier_typed m)
    rw [term, hread, hdepth]
    exact withRoom_bind rfl

/-- A phrase is read back from its typed form. -/
theorem phrase_typed (p : Phrase) : phrase d p.typed.form = withRoom d p.typed.depth p := by
  obtain ⟨value, modifier⟩ := p
  cases modifier with
  -- the brackets are as those of a term
  | none =>
    have hread : readModified "Phrase" phraseModifier d (Phrase.typed { value }).form
        = withRoom d 1 (value, none) := readModified_unmodified "Phrase" phraseModifier value
    rw [phrase, hread]
    exact withRoom_bind rfl
  | some m =>
    have hdepth : (Phrase.typed { value, modifier := some m }).depth = 2 := by
      cases m <;> rfl
    have hread :
        readModified "Phrase" phraseModifier d (Phrase.typed { value, modifier := some m }).form
          = withRoom d 2 (value, some m) :=
      readModified_modified "Phrase" value (form_phraseModifier_ne_null m) (phraseModifier_typed m)
    rw [phrase, hread, hdepth]
    exact withRoom_bind rfl

/-! ## §3 Trees -/

/-- The object of an alternative nests one deeper than its content. -/
theorem depth_tagged (name : String) (content : Value) :
    (Value.tagged name content).depth = content.depth + 1 := by
  simp [Value.tagged, Value.depth, Value.depth.depthMembers]

/-- A tree as the value of a field is read back if the tree is. -/
theorem fieldValue_operand (n : Node)
    (h : ∀ d, node d n.typed.form = withRoom d n.typed.depth n) :
    fieldValue d (FieldValue.operand n).typed.form
      = withRoom d (FieldValue.operand n).typed.depth (.operand n) := by
  rw [FieldValue.typed, depth_tagged]
  refine enter_bind ?_
  rw [h]
  exact withRoom_bind rfl

/-- A range as the value of a field is read back. -/
theorem fieldValue_range (bounds : Bounds) (ends : Range) :
    fieldValue d (FieldValue.range bounds ends).typed.form
      = withRoom d (FieldValue.range bounds ends).typed.depth (.range bounds ends) := by
  rw [FieldValue.typed, depth_tagged]
  cases bounds with
  | inclusive =>
    refine enter_bind ?_
    rw [range_typed]
    exact withRoom_bind rfl
  | exclusive =>
    refine enter_bind ?_
    rw [range_typed]
    exact withRoom_bind rfl

/-- A field is read back if its value is. -/
theorem node_ofField (name : String) (v : FieldValue)
    (h : ∀ d, fieldValue d v.typed.form = withRoom d v.typed.depth v) :
    node d (Node.ofField name v).typed.form
      = withRoom d (Node.ofField name v).typed.depth (Node.ofField name v) := by
  have hdepth : (Value.object [("field", .string name), ("value", v.typed)]).depth
      = v.typed.depth + 1 := by
    simp [Value.depth, Value.depth.depthMembers]
  rw [Node.typed_ofField, depth_tagged, hdepth]
  refine enter_bind (enter_bind ?_)
  -- both members are there, so only the value of the field can fail
  calc _ = (do
        let value? ← ifPresent (some (fieldValue d.inside.inside v.typed.form))
        return Node.ofField name (← needed "value" value?)) := rfl
    _ = withRoom d.inside.inside v.typed.depth (Node.ofField name v) := by
      rw [h, ifPresent_withRoom]
      exact withRoom_bind rfl

mutual

/-- A tree is read back from its typed form, if its brackets may be opened. -/
theorem node_typed (d : Dialect) :
    ∀ n : Node, node d n.typed.form = withRoom d n.typed.depth n
  | .term t => by
    rw [Node.typed, depth_tagged]
    refine enter_bind ?_
    rw [term_typed]
    exact withRoom_bind rfl
  | .phrase p => by
    rw [Node.typed, depth_tagged]
    refine enter_bind ?_
    rw [phrase_typed]
    exact withRoom_bind rfl
  | .group inner => by
    -- one bracket for the alternative and one for its members
    have hdepth : (Node.group inner).typed.depth = inner.typed.depth + 1 + 1 := by
      simp [Node.typed, depth_tagged, Value.depth, Value.depth.depthMembers]
    rw [hdepth]
    refine enter_bind (enter_bind ?_)
    calc _ = (do
          let inner? ← ifPresent (some (node d.inside.inside inner.typed.form))
          return Node.group (← needed "inner" inner?)) := rfl
      _ = withRoom d.inside.inside inner.typed.depth (.group inner) := by
        rw [node_typed d.inside.inside inner, ifPresent_withRoom]
        exact withRoom_bind rfl
  | .unary operator operand => by
    have hdepth : (Node.unary operator operand).typed.depth = operand.typed.depth + 1 + 1 := by
      simp [Node.typed, depth_tagged, Operator.typed, Value.depth, Value.depth.depthMembers]
    rw [hdepth]
    refine enter_bind (enter_bind ?_)
    -- the operator takes no bracket, and so only the operand can fail
    calc _ = (do
          let operand? ← ifPresent (some (node d.inside.inside operand.typed.form))
          let operator? ← ifPresent (some (Typed.operator d.inside.inside operator.typed.form))
          let operator ← needed "operator" operator?
          return Node.unary operator (← needed "operand" operand?)) := rfl
      _ = withRoom d.inside.inside operand.typed.depth (.unary operator operand) := by
        rw [node_typed d.inside.inside operand, ifPresent_withRoom, operator_typed]
        exact withRoom_bind rfl
  | .field name operand =>
    node_ofField name (.operand operand) fun _ =>
      fieldValue_operand operand fun d => node_typed d operand
  | .range name bounds ends =>
    node_ofField name (.range bounds ends) fun _ => fieldValue_range bounds ends
  | .sequence items => by
    rw [Node.typed, depth_tagged, Value.depth]
    refine enter_bind (enter_bind ?_)
    rw [nodes_typed d.inside.inside items]
    exact withRoom_bind rfl

/-- The items of a sequence are read back inside the same brackets. -/
theorem nodes_typed (d : Dialect) : ∀ ns : List Node,
    nodes d (Value.form.itemForms (Node.typed.itemForms ns))
      = withRoom d (Value.depth.depthItems (Node.typed.itemForms ns)) ns
  | [] => (withRoom_zero []).symm
  | n :: ns => by
    rw [Node.typed.itemForms, Value.form.itemForms, nodes, node_typed d n, nodes_typed d ns]
    exact withRoom_both _ _ n ns List.cons

end

/-- The value of a field is read back from its typed form. -/
theorem fieldValue_typed (d : Dialect) (v : FieldValue) :
    fieldValue d v.typed.form = withRoom d v.typed.depth v := by
  cases v with
  | operand n => exact fieldValue_operand n fun d => node_typed d n
  | range bounds ends => exact fieldValue_range bounds ends

/-! ## §4 Written forms as values and as texts -/

/-- No number occurs in the value, and no object of it repeats a key. -/
structure Regular (v : Value) : Prop where
  numberless : v.Numberless
  distinct : v.Distinct

/-- A string is regular. -/
theorem regular_string (s : String) : Regular (.string s) := ⟨trivial, trivial⟩

/-- An object with one regular member is regular. -/
theorem regular_single {key : String} {v : Value} (h : Regular v) : Regular (.object [(key, v)]) :=
  ⟨⟨h.numberless, trivial⟩, List.pairwise_singleton _ key, h.distinct, trivial⟩

/-- An object with two regular members of different keys is regular. -/
theorem regular_pair {key key' : String} {v w : Value} (hne : key ≠ key') (hv : Regular v)
    (hw : Regular w) : Regular (.object [(key, v), (key', w)]) := by
  have hkeys : (Members.keys [(key, v), (key', w)]).Nodup := by
    simpa [Members.keys] using hne
  exact ⟨⟨hv.numberless, hw.numberless, trivial⟩, hkeys, hv.distinct, hw.distinct, trivial⟩

/-- The typed form of the modifier of a term is regular. -/
theorem regular_termModifier (m : TermModifier) : Regular m.typed := by
  cases m with
  | similarity degree => exact regular_single (regular_string degree)
  | boost factor => exact regular_single (regular_string factor)

/-- The typed form of the modifier of a phrase is regular. -/
theorem regular_phraseModifier (m : PhraseModifier) : Regular m.typed := by
  cases m with
  | boost factor => exact regular_single (regular_string factor)
  | distance words => exact regular_single (regular_string words)

/-- The typed form of a term is regular. -/
theorem regular_term (t : Term) : Regular t.typed := by
  obtain ⟨value, modifier⟩ := t
  cases modifier with
  | none => exact regular_single (regular_string value)
  | some m => exact regular_pair (by decide) (regular_string value) (regular_termModifier m)

/-- The typed form of a phrase is regular. -/
theorem regular_phrase (p : Phrase) : Regular p.typed := by
  obtain ⟨value, modifier⟩ := p
  cases modifier with
  | none => exact regular_single (regular_string value)
  | some m => exact regular_pair (by decide) (regular_string value) (regular_phraseModifier m)

/-- The typed form of a range is regular. -/
theorem regular_range (r : Range) : Regular r.typed :=
  regular_pair (by decide) (regular_string r.lower) (regular_string r.upper)

mutual

/-- The typed form of a tree is regular: it is made of texts, of objects with one or two members and
of arrays. -/
theorem regular_node : ∀ n : Node, Regular n.typed
  -- an alternative is an object with one member; what it holds has one or two
  | .term t => regular_single (regular_term t)
  | .phrase p => regular_single (regular_phrase p)
  | .group inner => regular_single (regular_single (regular_node inner))
  | .unary operator operand =>
    regular_single (regular_pair (by decide) (regular_string operator.alternative)
      (regular_node operand))
  | .field name operand =>
    regular_single (regular_pair (by decide) (regular_string name)
      (regular_single (regular_node operand)))
  | .range name _ ends =>
    regular_single (regular_pair (by decide) (regular_string name)
      (regular_single (regular_range ends)))
  | .sequence items =>
    have hitems := regular_itemForms items
    regular_single ⟨hitems.1, hitems.2⟩

theorem regular_itemForms : ∀ ns : List Node,
    Value.NumberlessItems (Node.typed.itemForms ns) ∧ Value.DistinctItems (Node.typed.itemForms ns)
  | [] => ⟨trivial, trivial⟩
  | n :: ns =>
    have hn := regular_node n
    have hns := regular_itemForms ns
    ⟨⟨hn.numberless, hns.1⟩, hn.distinct, hns.2⟩

end

/-- The typed form of the value of a field is regular. -/
theorem regular_fieldValue (v : FieldValue) : Regular v.typed := by
  cases v with
  | operand n => exact regular_single (regular_node n)
  | range bounds ends => exact regular_single (regular_range ends)

/-- A reader takes back what a writer writes: from the sorted value at any depth, and from the text
exactly if its brackets nest at most 127 deep. -/
structure RoundTrips (read : Dialect → Form → Except Mismatch α) (write : α → Value) : Prop where
  value : ∀ a, ofValue read (write a).sorted = .ok a
  text : ∀ a, ofText read (write a).text = .ok a ↔ (write a).depth ≤ 127
  deep : ∀ a, 127 < (write a).depth → ofText read (write a).text = .error .tooDeep

/-- A reader takes back a writer if it minds no order, reads the written forms where there is room,
and they are regular. -/
theorem roundTrips_of_typed {read : Dialect → Form → Except Mismatch α} {write : α → Value}
    (horder : ∀ d f g, Reordered f g → read d f = read d g)
    (hread : ∀ d a, read d (write a).form = withRoom d (write a).depth a)
    (hregular : ∀ a, Regular (write a)) : RoundTrips read write := by
  have hvalue : ∀ a, ofValue read (write a).sorted = .ok a := by
    intro a
    -- values come without a limit
    have hany : Dialect.value.Allows (write a).depth := by
      intro room hroom
      cases hroom
    rw [ofValue_sorted horder (hregular a).distinct, ofValue, hread, withRoom, if_pos hany]
  -- texts come with a limit, and the form of a written text is that of the value
  have htext : ∀ a, ofText read (write a).text
      = if (write a).depth ≤ 127 then .ok a else .error .tooDeep := by
    intro a
    have hallows : Dialect.text.Allows (write a).depth ↔ (write a).depth ≤ 127 := by
      simp [Dialect.Allows, Dialect.text]
    rw [ofText, Form.ofText_text _ (hregular a).numberless]
    show read .text (write a).form = _
    rw [hread, withRoom]
    exact if_congr hallows rfl rfl
  refine ⟨hvalue, ?_, ?_⟩
  · intro a
    rw [htext]
    split_ifs with hdepth
    · exact iff_of_true rfl hdepth
    · exact iff_of_false (by intro h; cases h) hdepth
  · intro a hdeep
    rw [htext, if_neg (by omega)]

/-- **Typed forms are read back.**  The sorted value of the typed form of a tree, a term, a phrase,
the value of a field or a range is read as the same thing, however deep it is.  The text of the
typed form is read as the same thing if and only if its brackets nest at most 127 deep, and
otherwise it is refused because of its depth. -/
theorem roundTrips :
    RoundTrips node Node.typed ∧ RoundTrips term Term.typed ∧ RoundTrips phrase Phrase.typed ∧
      RoundTrips fieldValue FieldValue.typed ∧ RoundTrips range Range.typed := by
  refine ⟨?_, ?_, ?_, ?_, ?_⟩
  · exact roundTrips_of_typed (fun _ _ _ => node_reordered) node_typed regular_node
  · exact roundTrips_of_typed (fun _ _ _ => term_reordered) (fun _ => term_typed) regular_term
  · exact roundTrips_of_typed (fun _ _ _ => phrase_reordered) (fun _ => phrase_typed) regular_phrase
  · exact roundTrips_of_typed (fun _ _ _ => fieldValue_reordered) fieldValue_typed
      regular_fieldValue
  · exact roundTrips_of_typed (fun _ _ _ => range_reordered) (fun _ => range_typed) regular_range

/-- A field over a range has its own object, its members, the kind of its range and the ends. -/
example : (Node.range "year" .inclusive ⟨"1990", "1999"⟩).typed.depth = 4 := rfl

end CanonicalQuery.Typed
