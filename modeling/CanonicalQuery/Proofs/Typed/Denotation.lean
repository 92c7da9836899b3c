import CanonicalQuery.Proofs.Typed.Parts

/-!
# What typed values denote

The relation between JSON values and the query trees that they spell out in the typed form, one
rule for each alternative.  The alternatives that are records have their members in an object, never
in an array; other members of this object mean nothing.

`ofValue_node_eq_ok` says that the reader of typed values finds a query tree exactly if the value
denotes it.

## Main definitions

- `Denotes`, `DenotesAll`, `DenotesValue`: what a value, the items of an array and the value of a
  field denote.

## Main statements

- `group_eq_ok`, `unary_eq_ok`, `field_eq_ok`: what the reader does with a record.
- `sound`, `node_of_denotes`: the reader is sound and complete.
-/

namespace CanonicalQuery.Typed

open CanonicalQuery.Json

/-! ## §1 The rules -/

mutual

/-- The query tree that a typed value denotes. -/
inductive Denotes : Value → Node → Prop where
  | term {v : Value} {text : String} {modifier : Option TermModifier} :
      Modified (Tags "Similarity" "Boost" .similarity .boost) v (text, modifier) →
      Denotes (.object [("Term", v)]) (.term ⟨text, modifier⟩)
  | phrase {v : Value} {text : String} {modifier : Option PhraseModifier} :
      Modified (Tags "Boost" "Distance" .boost .distance) v (text, modifier) →
      Denotes (.object [("Phrase", v)]) (.phrase ⟨text, modifier⟩)
  | group {members : List (String × Value)} {v : Value} {n : Node} :
      Only "inner" v members → Denotes v n →
      Denotes (.object [("Group", .object members)]) (.group n)
  | unary {members : List (String × Value)} {m v : Value} {o : Operator} {n : Node} :
      Only "operator" m members → Marks m o → Only "operand" v members → Denotes v n →
      Denotes (.object [("Unary", .object members)]) (.unary o n)
  | field {members : List (String × Value)} {name : String} {v : Value} {x : FieldValue} :
      Only "field" (.string name) members → Only "value" v members → DenotesValue v x →
      Denotes (.object [("Field", .object members)]) (.ofField name x)
  | sequence {vs : List Value} {ns : List Node} :
      DenotesAll vs ns → Denotes (.object [("Sequence", .array vs)]) (.sequence ns)

/-- The query trees that the items of an array denote. -/
inductive DenotesAll : List Value → List Node → Prop where
  | nil : DenotesAll [] []
  | cons {v : Value} {n : Node} {vs : List Value} {ns : List Node} :
      Denotes v n → DenotesAll vs ns → DenotesAll (v :: vs) (n :: ns)

/-- What a typed value denotes behind the colon of a field. -/
inductive DenotesValue : Value → FieldValue → Prop where
  | operand {v : Value} {n : Node} :
      Denotes v n → DenotesValue (.object [("Operand", v)]) (.operand n)
  | inclusive {v : Value} {r : Range} :
      Ends v r → DenotesValue (.object [("Inclusive", v)]) (.range .inclusive r)
  | exclusive {v : Value} {r : Range} :
      Ends v r → DenotesValue (.object [("Exclusive", v)]) (.range .exclusive r)

end

/-! ## §2 Alternatives that are records -/

section Records

variable {ms : List (String × Value)} {n : Node}

theorem nodeAt_eq_ok {name : String} (honce : Once name ms) :
    nodeAt .value name (Value.form.memberForms ms) = some (.ok n) ↔
      ∃ v, Only name v ms ∧ node .value v.form = .ok n := by
  rw [nodeAt_eq_map, map_part?_eq_ok honce]

theorem fieldValueAt_eq_ok {name : String} {x : FieldValue} (honce : Once name ms) :
    fieldValueAt .value name (Value.form.memberForms ms) = some (.ok x) ↔
      ∃ v, Only name v ms ∧ fieldValue .value v.form = .ok x := by
  rw [fieldValueAt_eq_map, map_part?_eq_ok honce]

/-- A group is read from the value of its one member. -/
theorem group_eq_ok :
    node .value (.object [(some "Group", .object (Value.form.memberForms ms))]) = .ok n ↔
      ∃ v inner, Only "inner" v ms ∧ node .value v.form = .ok inner ∧ n = .group inner := by
  rw [node, enter_value_bind, enter_value_bind]
  constructor
  · intro h
    -- the reader looks for repeated members first, then at the parts, then at what is missing
    obtain ⟨_, honce, h⟩ := bind_eq_ok.mp h
    obtain ⟨inner?, hinner, h⟩ := bind_eq_ok.mp h
    obtain ⟨inner, hneeded, h⟩ := bind_eq_ok.mp h
    obtain rfl := pure_eq_ok.mp h
    have honceInner : Once "inner" ms := membersOnce_memberForms.mp honce "inner" (by simp)
    rw [needed_eq_ok.mp hneeded, ifPresent_eq_some, nodeAt_eq_ok honceInner] at hinner
    obtain ⟨v, honly, hv⟩ := hinner
    exact ⟨v, inner, honly, hv, rfl⟩
  · rintro ⟨v, inner, honly, hv, rfl⟩
    have honce : membersOnce ["inner"] (Value.form.memberForms ms) = .ok () :=
      membersOnce_memberForms.mpr (by simpa using honly.once)
    have hinner := ifPresent_eq_some.mpr ((nodeAt_eq_ok honly.once).mpr ⟨v, honly, hv⟩)
    rw [honce, hinner]
    rfl

/-- A mark with its operand is read from the values of both members. -/
theorem unary_eq_ok :
    node .value (.object [(some "Unary", .object (Value.form.memberForms ms))]) = .ok n ↔
      ∃ m o v operand, Only "operator" m ms ∧ Marks m o ∧ Only "operand" v ms ∧
        node .value v.form = .ok operand ∧ n = .unary o operand := by
  rw [node, enter_value_bind, enter_value_bind]
  constructor
  · intro h
    obtain ⟨_, honce, h⟩ := bind_eq_ok.mp h
    obtain ⟨operand?, hoperand, h⟩ := bind_eq_ok.mp h
    obtain ⟨operator?, hoperator, h⟩ := bind_eq_ok.mp h
    obtain ⟨o, hneeded, h⟩ := bind_eq_ok.mp h
    obtain ⟨operand, hneeded', h⟩ := bind_eq_ok.mp h
    obtain rfl := pure_eq_ok.mp h
    -- each part is looked up by its name, which must stand there once
    obtain ⟨honceOperator, honceOperand⟩ : Once "operator" ms ∧ Once "operand" ms := by
      simpa using membersOnce_memberForms.mp honce
    rw [needed_eq_ok.mp hneeded', ifPresent_eq_some, nodeAt_eq_ok honceOperand] at hoperand
    rw [needed_eq_ok.mp hneeded, ifPresent_eq_some, map_part?_eq_ok honceOperator] at hoperator
    obtain ⟨v, hv, hread⟩ := hoperand
    obtain ⟨m, hm, hmark⟩ := hoperator
    exact ⟨m, o, v, operand, hm, operator_eq_ok.mp hmark, hv, hread, rfl⟩
  · rintro ⟨m, o, v, operand, hm, hmark, hv, hread, rfl⟩
    have honce : membersOnce ["operator", "operand"] (Value.form.memberForms ms) = .ok () :=
      membersOnce_memberForms.mpr (by simpa using ⟨hm.once, hv.once⟩)
    have hoperand := ifPresent_eq_some.mpr ((nodeAt_eq_ok hv.once).mpr ⟨v, hv, hread⟩)
    have hoperator := ifPresent_eq_some.mpr
      ((map_part?_eq_ok hm.once).mpr ⟨m, hm, operator_eq_ok.mpr hmark⟩)
    rw [honce, hoperand, hoperator]
    rfl

/-- A field is read from the values of its name and of what it holds. -/
theorem field_eq_ok :
    node .value (.object [(some "Field", .object (Value.form.memberForms ms))]) = .ok n ↔
      ∃ name v x, Only "field" (.string name) ms ∧ Only "value" v ms ∧
        fieldValue .value v.form = .ok x ∧ n = .ofField name x := by
  rw [node, enter_value_bind, enter_value_bind]
  constructor
  · intro h
    obtain ⟨_, honce, h⟩ := bind_eq_ok.mp h
    obtain ⟨name?, hname, h⟩ := bind_eq_ok.mp h
    obtain ⟨value?, hvalue, h⟩ := bind_eq_ok.mp h
    obtain ⟨name, hneeded, h⟩ := bind_eq_ok.mp h
    obtain ⟨x, hneeded', h⟩ := bind_eq_ok.mp h
    obtain rfl := pure_eq_ok.mp h
    obtain ⟨honceField, honceValue⟩ : Once "field" ms ∧ Once "value" ms := by
      simpa using membersOnce_memberForms.mp honce
    rw [needed_eq_ok.mp hneeded, ifPresent_eq_some, textAt_eq_ok honceField] at hname
    rw [needed_eq_ok.mp hneeded', ifPresent_eq_some, fieldValueAt_eq_ok honceValue] at hvalue
    obtain ⟨v, hv, hread⟩ := hvalue
    exact ⟨name, v, x, hname, hv, hread, rfl⟩
  · rintro ⟨name, v, x, hname, hv, hread, rfl⟩
    have honce : membersOnce ["field", "value"] (Value.form.memberForms ms) = .ok () :=
      membersOnce_memberForms.mpr (by simpa using ⟨hname.once, hv.once⟩)
    have htext := ifPresent_eq_some.mpr ((textAt_eq_ok hname.once).mpr hname)
    have hvalue := ifPresent_eq_some.mpr ((fieldValueAt_eq_ok hv.once).mpr ⟨v, hv, hread⟩)
    rw [honce, htext, hvalue]
    rfl

end Records

/-! ## §3 Trees -/

/-- What the reader finds, the values denote whose form it reads. -/
def NodeSound (f : Form) : Prop :=
  ∀ v n, f = v.form → node .value f = .ok n → Denotes v n

def FieldValueSound (f : Form) : Prop :=
  ∀ v x, f = v.form → fieldValue .value f = .ok x → DenotesValue v x

def NodesSound (fs : List Form) : Prop :=
  ∀ vs ns, fs = Value.form.itemForms vs → nodes .value fs = .ok ns → DenotesAll vs ns

theorem group_sound {members : Members} (hinner : ∀ f ∈ part? "inner" members, NodeSound f) :
    NodeSound (.object [(some "Group", .object members)]) := by
  intro v n hform h
  obtain ⟨w, rfl, hcontent⟩ := form_eq_single.mp hform.symm
  obtain ⟨ms, rfl, rfl⟩ := form_eq_object.mp hcontent.symm
  obtain ⟨u, inner, honly, hread, rfl⟩ := group_eq_ok.mp h
  have hpart := (part?_eq_some honly.once).mpr ⟨u, honly, rfl⟩
  exact .group honly (hinner _ hpart u inner rfl hread)

theorem unary_sound {members : Members} (hoperand : ∀ f ∈ part? "operand" members, NodeSound f) :
    NodeSound (.object [(some "Unary", .object members)]) := by
  intro v n hform h
  obtain ⟨w, rfl, hcontent⟩ := form_eq_single.mp hform.symm
  obtain ⟨ms, rfl, rfl⟩ := form_eq_object.mp hcontent.symm
  obtain ⟨m, o, u, operand, hm, hmark, hu, hread, rfl⟩ := unary_eq_ok.mp h
  have hpart := (part?_eq_some hu.once).mpr ⟨u, hu, rfl⟩
  exact .unary hm hmark hu (hoperand _ hpart u operand rfl hread)

theorem field_sound {members : Members} (hvalue : ∀ f ∈ part? "value" members, FieldValueSound f) :
    NodeSound (.object [(some "Field", .object members)]) := by
  intro v n hform h
  obtain ⟨w, rfl, hcontent⟩ := form_eq_single.mp hform.symm
  obtain ⟨ms, rfl, rfl⟩ := form_eq_object.mp hcontent.symm
  obtain ⟨name, u, x, hname, hu, hread, rfl⟩ := field_eq_ok.mp h
  have hpart := (part?_eq_some hu.once).mpr ⟨u, hu, rfl⟩
  exact .field hname hu (hvalue _ hpart u x rfl hread)

/-- Members of alternatives do not stand in arrays where values are read. -/
theorem items_sound {name : String} {members : Nat} {items : List Form}
    (hread : node .value (.object [(some name, .array items)]) =
      .error (badItems .value name items.length members)) :
    NodeSound (.object [(some name, .array items)]) := by
  intro v n _ h
  rw [hread] at h
  cases h

/-- The reader is sound.  The induction follows the reader: of a member it says something if the
reader finds it, since only then its content is read. -/
theorem sound :
    (∀ (_ : Dialect) (f : Form), NodeSound f) ∧
    (∀ (_ : Dialect) (fs : List Form), NodesSound fs) ∧
    (∀ (_ : Dialect) (f : Form), FieldValueSound f) ∧
    (∀ (_ : Dialect) (name : String) (ms : Members), ∀ f ∈ part? name ms, FieldValueSound f) ∧
    (∀ (_ : Dialect) (name : String) (ms : Members), ∀ f ∈ part? name ms, NodeSound f) := by
  refine node.mutual_induct (fun _ f => NodeSound f) (fun _ fs => NodesSound fs)
    (fun _ f => FieldValueSound f)
    (fun _ name ms => ∀ f ∈ part? name ms, FieldValueSound f)
    (fun _ name ms => ∀ f ∈ part? name ms, NodeSound f)
    ?term ?phrase ?group ?groupItems ?groupOther ?unary ?unaryItems ?unaryOther ?field ?fieldItems
    ?fieldOther ?sequence ?sequenceOther ?other ?operand ?inclusive ?exclusive ?valueOther
    ?nil ?cons ?valueAtNil ?valueAtHere ?valueAtBelow ?nodeAtNil ?nodeAtHere ?nodeAtBelow
  -- the alternatives of a tree
  case term =>
    intro d content v n hform h
    obtain ⟨w, rfl, rfl⟩ := form_eq_single.mp hform.symm
    rw [node, enter_value_bind] at h
    obtain ⟨t, hterm, hn⟩ := bind_eq_ok.mp h
    obtain rfl := pure_eq_ok.mp hn
    exact .term (term_eq_ok.mp hterm)
  case phrase =>
    intro d content v n hform h
    obtain ⟨w, rfl, rfl⟩ := form_eq_single.mp hform.symm
    rw [node, enter_value_bind] at h
    obtain ⟨p, hphrase, hn⟩ := bind_eq_ok.mp h
    obtain rfl := pure_eq_ok.mp hn
    exact .phrase (phrase_eq_ok.mp hphrase)
  case group => exact fun d members ih => group_sound (ih .value)
  case groupItems =>
    intro d items _
    exact items_sound (by rw [node]; rfl)
  case groupOther =>
    intro d content hobject harray v n _ h
    rw [node] at h
    · cases h
    · exact hobject
    · exact harray
  case unary => exact fun d members ih => unary_sound (ih .value)
  case unaryItems =>
    intro d items _
    exact items_sound (by rw [node]; rfl)
  case unaryOther =>
    intro d content hobject harray v n _ h
    rw [node] at h
    · cases h
    · exact hobject
    · exact harray
  case field => exact fun d members ih => field_sound (ih .value)
  case fieldItems =>
    intro d items _
    exact items_sound (by rw [node]; rfl)
  case fieldOther =>
    intro d content hobject harray v n _ h
    rw [node] at h
    · cases h
    · exact hobject
    · exact harray
  case sequence =>
    intro d items ih v n hform h
    obtain ⟨w, rfl, hcontent⟩ := form_eq_single.mp hform.symm
    obtain ⟨vs, rfl, rfl⟩ := form_eq_array.mp hcontent.symm
    rw [node, enter_value_bind, enter_value_bind] at h
    obtain ⟨ns, hread, hn⟩ := bind_eq_ok.mp h
    obtain rfl := pure_eq_ok.mp hn
    exact .sequence (ih .value vs ns rfl hread)
  case sequenceOther =>
    intro d content harray v n _ h
    rw [node] at h
    · cases h
    · exact harray
  case other =>
    intro d f hterm hphrase _ _ hgroup _ _ hunary _ _ hfield _ hsequence v n _ h
    rw [node_of_lacks (lacks_nodeNames hterm hphrase hgroup hunary hfield hsequence)] at h
    cases h
  -- the alternatives of the value of a field
  case operand =>
    intro d content ih v x hform h
    obtain ⟨w, rfl, rfl⟩ := form_eq_single.mp hform.symm
    rw [fieldValue, enter_value_bind] at h
    obtain ⟨n, hread, hx⟩ := bind_eq_ok.mp h
    obtain rfl := pure_eq_ok.mp hx
    exact .operand (ih .value w n rfl hread)
  case inclusive =>
    intro d content v x hform h
    obtain ⟨w, rfl, rfl⟩ := form_eq_single.mp hform.symm
    rw [fieldValue, enter_value_bind] at h
    obtain ⟨r, hrange, hx⟩ := bind_eq_ok.mp h
    obtain rfl := pure_eq_ok.mp hx
    exact .inclusive (range_eq_ok.mp hrange)
  case exclusive =>
    intro d content v x hform h
    obtain ⟨w, rfl, rfl⟩ := form_eq_single.mp hform.symm
    rw [fieldValue, enter_value_bind] at h
    obtain ⟨r, hrange, hx⟩ := bind_eq_ok.mp h
    obtain rfl := pure_eq_ok.mp hx
    exact .exclusive (range_eq_ok.mp hrange)
  case valueOther =>
    intro d f hoperand hinclusive hexclusive v x _ h
    rw [fieldValue_of_lacks (lacks_fieldValueNames hoperand hinclusive hexclusive)] at h
    cases h
  -- the items of a sequence
  case nil =>
    intro d vs ns hforms h
    obtain rfl := Except.ok.inj h
    cases vs with
    | nil => exact .nil
    | cons _ _ => cases hforms
  case cons =>
    intro d f fs ihf ihfs vs ns hforms h
    cases vs with
    | nil => cases hforms
    | cons v vs =>
      obtain ⟨hf, hfs⟩ := List.cons.inj hforms
      rw [nodes] at h
      obtain ⟨n, hn, h⟩ := bind_eq_ok.mp h
      obtain ⟨ns', hns, h⟩ := bind_eq_ok.mp h
      obtain rfl := pure_eq_ok.mp h
      exact .cons (ihf v n hf hn) (ihfs vs ns' hfs hns)
  -- looking a member up: it is the first one, or it is among the others
  case valueAtNil =>
    intro d name f hf
    cases hf
  case valueAtHere => exact fun d name f rest ih => forall_part?_here ih
  case valueAtBelow => exact fun d name key f rest hkey ih => forall_part?_below hkey ih
  case nodeAtNil =>
    intro d name f hf
    cases hf
  case nodeAtHere => exact fun d name f rest ih => forall_part?_here ih
  case nodeAtBelow => exact fun d name key f rest hkey ih => forall_part?_below hkey ih

mutual

/-- The reader is complete. -/
theorem node_of_denotes : ∀ {v : Value} {n : Node}, Denotes v n → node .value v.form = .ok n
  | _, _, @Denotes.term v text modifier h => by
    have hterm : term .value v.form = .ok ⟨text, modifier⟩ := term_eq_ok.mpr h
    show node .value (.object [(some "Term", v.form)]) = _
    rw [node, enter_value_bind, hterm]
    rfl
  | _, _, @Denotes.phrase v text modifier h => by
    have hphrase : phrase .value v.form = .ok ⟨text, modifier⟩ := phrase_eq_ok.mpr h
    show node .value (.object [(some "Phrase", v.form)]) = _
    rw [node, enter_value_bind, hphrase]
    rfl
  -- the records hold trees, so these cases go on with what they hold
  | _, _, .group honly h => group_eq_ok.mpr ⟨_, _, honly, node_of_denotes h, rfl⟩
  | _, _, .unary hm hmark honly h =>
    unary_eq_ok.mpr ⟨_, _, _, _, hm, hmark, honly, node_of_denotes h, rfl⟩
  | _, _, .field hname honly h =>
    field_eq_ok.mpr ⟨_, _, _, hname, honly, fieldValue_of_denotesValue h, rfl⟩
  | _, _, @Denotes.sequence vs ns h => by
    show node .value (.object [(some "Sequence", .array (Value.form.itemForms vs))]) = _
    rw [node, enter_value_bind, enter_value_bind, nodes_of_denotesAll h]
    rfl

theorem nodes_of_denotesAll : ∀ {vs : List Value} {ns : List Node}, DenotesAll vs ns →
    nodes .value (Value.form.itemForms vs) = .ok ns
  | _, _, .nil => rfl
  | _, _, .cons h hs => by
    rw [Value.form.itemForms, nodes, node_of_denotes h, nodes_of_denotesAll hs]
    rfl

theorem fieldValue_of_denotesValue : ∀ {v : Value} {x : FieldValue}, DenotesValue v x →
    fieldValue .value v.form = .ok x
  | _, _, @DenotesValue.operand v n h => by
    show fieldValue .value (.object [(some "Operand", v.form)]) = _
    rw [fieldValue, enter_value_bind, node_of_denotes h]
    rfl
  | _, _, @DenotesValue.inclusive v r h => by
    show fieldValue .value (.object [(some "Inclusive", v.form)]) = _
    rw [fieldValue, enter_value_bind, range_eq_ok.mpr h]
    rfl
  | _, _, @DenotesValue.exclusive v r h => by
    show fieldValue .value (.object [(some "Exclusive", v.form)]) = _
    rw [fieldValue, enter_value_bind, range_eq_ok.mpr h]
    rfl

end

/-- A typed value denotes one query tree at most. -/
theorem Denotes.unique {v : Value} {n n' : Node} (h : Denotes v n) (h' : Denotes v n') : n = n' :=
  Except.ok.inj ((node_of_denotes h).symm.trans (node_of_denotes h'))

/-- **The reader of typed values accepts exactly its grammar**: it finds a query tree if and only if
the value denotes this tree. -/
theorem ofValue_node_eq_ok (v : Value) (n : Node) : ofValue node v = .ok n ↔ Denotes v n :=
  ⟨fun h => sound.1 .value v.form v n rfl h, node_of_denotes⟩

end CanonicalQuery.Typed
