import CanonicalQuery.Error
import CanonicalQuery.Proofs.Json.Composed
import CanonicalQuery.Proofs.Json.Members
import CanonicalQuery.Proofs.Json.Reordered
import Mathlib.Data.List.Nodup
import Mathlib.Logic.Relation

/-!
# Texts that are rearranged

An object is a map, so the order in which a text gives its members does not matter, unless a key is
repeated: then the last one counts.  Blanks between tokens do not matter at all.  A text is
*rearranged* when the members of its objects are put into another order, members that do not count
are left out, and blanks are put in or taken away, at any depth and any number of times.

A rearranged text has the value of the text: it is within the limit of depth if the text is, and
what is read from the value, be it a query tree or an error, is the same.

Texts may also be compared by what they spell.  If two texts are read, and what they spell differs
in the order of members only, they have the same value.

## Main definitions

- `Rearranges`: one change at one place of a text.
- `Rearranged`: any number of changes.
- `SpellAlike`: texts that spell the same but for the order of members.

## Main statements

- `Rearranges.preserves`: what one change preserves.
- `Value.ofText_rearranged`: a rearranged text has the same value.
- `Value.eq_of_spellAlike`: texts that spell alike have the same value.
- `Node.ofJson_rearranged`: and so the same query tree, or the same error.
-/

namespace CanonicalQuery.Json

/-! ## §1 Changes of a text -/

/-- One change of a text that does not change what it says. -/
inductive Rearranges : String → String → Prop where
  /-- Blanks around a text are replaced. -/
  | blanks {text : String} (before behind before' behind' : Blanks) : IsText text →
      Rearranges (before.text ++ text ++ behind.text) (before'.text ++ text ++ behind'.text)
  | emptyArray (b b' : Blanks) : Rearranges ("[" ++ b.text ++ "]") ("[" ++ b'.text ++ "]")
  | emptyObject (b b' : Blanks) :
      Rearranges ("\x7b" ++ b.text ++ "\x7d") ("\x7b" ++ b'.text ++ "\x7d")
  /-- An item of an array is changed. -/
  | item {text text' : String} (earlier later : List String) :
      (∀ t ∈ earlier ++ later, IsText t) → Rearranges text text' →
        Rearranges (arrayText (earlier ++ text :: later)) (arrayText (earlier ++ text' :: later))
  /-- Blanks around a key are replaced. -/
  | key (m : Member) (before behind : Blanks) (earlier later : List Member) :
      Rearranges (objectText (earlier ++ m :: later))
        (objectText (earlier ++ { m with before, behind } :: later))
  /-- The content of a member is changed. -/
  | content (m : Member) {content : String} (content_isText : IsText content)
      (earlier later : List Member) : Rearranges m.content content →
        Rearranges (objectText (earlier ++ m :: later))
          (objectText (earlier ++ { m with content, content_isText } :: later))
  /-- The members of an object with distinct keys are permuted. -/
  | permute {ms ns : List Member} : (ms.map Member.name).Nodup → ms.Perm ns →
      Rearranges (objectText ms) (objectText ns)
  /-- Of the members with the same key, the last one is kept. -/
  | keepLast (ms : List Member) :
      Rearranges (objectText ms) (objectText (Members.lastOfEach Member.name ms))

/-- The text is rearranged: it is changed any number of times. -/
def Rearranged : String → String → Prop :=
  Relation.ReflTransGen Rearranges

/-! ## §2 Lists of parts -/

section Parts

variable {α β : Type} {f : α → Option β}

/-- A part may be replaced by one that gives the same. -/
theorem mapM_replace {a a' : α} (h : ∀ b, f a = some b → f a' = some b) {earlier later : List α}
    {bs : List β} (hbs : (earlier ++ a :: later).mapM f = some bs) :
    (earlier ++ a' :: later).mapM f = some bs := by
  -- on the parts in front of the one that is replaced
  induction earlier generalizing bs with
  | nil =>
    obtain ⟨b, cs, hb, hcs, rfl⟩ := mapM_cons_eq_some.mp hbs
    exact mapM_cons_eq_some.mpr ⟨b, cs, h b hb, hcs, rfl⟩
  | cons first earlier ih =>
    obtain ⟨b, cs, hb, hcs, rfl⟩ := mapM_cons_eq_some.mp hbs
    exact mapM_cons_eq_some.mpr ⟨b, cs, hb, ih hcs, rfl⟩

/-- What permuted parts give is permuted. -/
theorem mapM_perm {l l' : List α} (h : l.Perm l') {bs : List β} (hbs : l.mapM f = some bs) :
    ∃ bs', l'.mapM f = some bs' ∧ bs.Perm bs' := by
  -- on how the parts are permuted: two neighbours change places, and so do the parts they give
  induction h generalizing bs with
  | nil => exact ⟨bs, hbs, .refl _⟩
  | cons a _ ih =>
    obtain ⟨b, cs, hb, hcs, rfl⟩ := mapM_cons_eq_some.mp hbs
    obtain ⟨cs', hcs', hperm⟩ := ih hcs
    exact ⟨b :: cs', mapM_cons_eq_some.mpr ⟨b, cs', hb, hcs', rfl⟩, hperm.cons b⟩
  | swap a a' l =>
    obtain ⟨b, _, hb, hrest, rfl⟩ := mapM_cons_eq_some.mp hbs
    obtain ⟨b', cs, hb', hcs, rfl⟩ := mapM_cons_eq_some.mp hrest
    have hrest' := mapM_cons_eq_some.mpr ⟨b, cs, hb, hcs, rfl⟩
    exact ⟨b' :: b :: cs, mapM_cons_eq_some.mpr ⟨b', _, hb', hrest', rfl⟩, .swap b' b cs⟩
  | trans _ _ ih ih' =>
    obtain ⟨cs, hcs, hperm⟩ := ih hbs
    obtain ⟨ds, hds, hperm'⟩ := ih' hcs
    exact ⟨ds, hds, hperm.trans hperm'⟩

end Parts

section Members

variable {d : Demands} {ms : List Member} {members : List (String × Value)}

/-- The keys of an object are the names of its members. -/
theorem names_eq_of_mapM (h : ms.mapM (Member.value? d) = some members) :
    ms.map Member.name = (Members.keys members).map some := by
  induction ms generalizing members with
  | nil =>
    cases h
    rfl
  | cons m ms ih =>
    -- a member that gives a key and a value has this key for its name
    obtain ⟨⟨key, v⟩, rest, hm, hrest, rfl⟩ := mapM_cons_eq_some.mp h
    obtain ⟨-, hname, -⟩ := Member.value?_eq_some.mp hm
    rw [List.map_cons, hname, ih hrest]
    rfl

/-- The last members of each key have the last values of each key. -/
theorem mapM_lastOfEach (h : ms.mapM (Member.value? d) = some members) :
    (Members.lastOfEach Member.name ms).mapM (Member.value? d)
      = some (Members.lastOfEach Prod.fst members) := by
  induction ms generalizing members with
  | nil =>
    cases h
    rfl
  | cons m ms ih =>
    obtain ⟨⟨key, v⟩, rest, hm, hrest, rfl⟩ := mapM_cons_eq_some.mp h
    obtain ⟨-, hname, -⟩ := Member.value?_eq_some.mp hm
    -- a later member has the name just if what is read later has the key
    have hlater : m.name ∈ ms.map Member.name ↔ key ∈ rest.map Prod.fst := by
      rw [names_eq_of_mapM hrest, hname, List.mem_map_of_injective fun _ _ => Option.some.inj]
      rfl
    rw [Members.lastOfEach, Members.lastOfEach]
    by_cases hkey : key ∈ rest.map Prod.fst
    · rw [if_pos (hlater.mpr hkey), if_pos hkey]
      exact ih hrest
    · rw [if_neg (hkey ∘ hlater.mp), if_neg hkey]
      exact mapM_cons_eq_some.mpr ⟨_, _, hm, ih hrest, rfl⟩

end Members

/-! ## §3 What changes preserve -/

section Rearranges

variable {text text' : String}

/-- A text among others. -/
theorem forall_mem_isText {earlier later : List String}
    (hothers : ∀ t ∈ earlier ++ later, IsText t) (h : IsText text) :
    ∀ t ∈ earlier ++ text :: later, IsText t := by
  obtain ⟨hearlier, hlater⟩ := List.forall_mem_append.mp hothers
  exact List.forall_mem_append.mpr ⟨hearlier, List.forall_mem_cons.mpr ⟨h, hlater⟩⟩

/-- A change leads from a text to a text. -/
theorem Rearranges.isText (h : Rearranges text text') : IsText text ∧ IsText text' := by
  induction h with
  | blanks before behind before' behind' htext =>
    exact ⟨htext.blanks before behind, htext.blanks before' behind'⟩
  | emptyArray b b' => exact ⟨isText_emptyArray b, isText_emptyArray b'⟩
  | emptyObject b b' => exact ⟨isText_emptyObject b, isText_emptyObject b'⟩
  -- only the item changes, and it stays a text by the induction hypothesis
  | item earlier later hothers _ ih =>
    exact ⟨isText_arrayText (forall_mem_isText hothers ih.1),
      isText_arrayText (forall_mem_isText hothers ih.2)⟩
  | key m before behind earlier later =>
    exact ⟨isText_objectText _, isText_objectText _⟩
  | content m hcontent earlier later _ _ => exact ⟨isText_objectText _, isText_objectText _⟩
  | permute _ _ => exact ⟨isText_objectText _, isText_objectText _⟩
  | keepLast ms => exact ⟨isText_objectText _, isText_objectText _⟩

/-- **One change** of a text that is read leaves its value as it is, whatever is demanded. -/
theorem Rearranges.preserves (h : Rearranges text text') (d : Demands) {v : Value}
    (hv : Value.of? d text = some v) : Value.of? d text' = some v := by
  -- an item is read with fewer levels left, and so the demands change in the induction
  induction h generalizing d v with
  | blanks before behind before' behind' htext =>
    rw [Value.of?_blanks htext] at hv ⊢
    exact hv
  | emptyArray b b' =>
    rw [Value.of?, Form.of?_emptyArray] at hv ⊢
    exact hv
  | emptyObject b b' =>
    rw [Value.of?, Form.of?_emptyObject] at hv ⊢
    exact hv
  | item earlier later hothers hitem ih =>
    obtain ⟨htext, htext'⟩ := hitem.isText
    obtain ⟨hroom, vs, hvs, rfl⟩ :=
      (Value.of?_arrayText_eq_some (forall_mem_isText hothers htext)).mp hv
    exact (Value.of?_arrayText_eq_some (forall_mem_isText hothers htext')).mpr
      ⟨hroom, vs, mapM_replace (fun _ h => ih _ h) hvs, rfl⟩
  -- the blanks around a key take no part in what the member gives
  | key m before behind earlier later =>
    obtain ⟨hroom, members, hmembers, rfl⟩ := Value.of?_objectText_eq_some.mp hv
    refine Value.of?_objectText_eq_some.mpr ⟨hroom, members, mapM_replace ?_ hmembers, rfl⟩
    exact fun _ hm => hm
  | content m hcontent earlier later _ ih =>
    obtain ⟨hroom, members, hmembers, rfl⟩ := Value.of?_objectText_eq_some.mp hv
    refine Value.of?_objectText_eq_some.mpr ⟨hroom, members, mapM_replace ?_ hmembers, rfl⟩
    rintro ⟨key, w⟩ hm
    obtain ⟨hliteral, hname, hw⟩ := Member.value?_eq_some.mp hm
    exact Member.value?_eq_some.mpr ⟨hliteral, hname, ih _ hw⟩
  | permute hdistinct hperm =>
    obtain ⟨hroom, members, hmembers, rfl⟩ := Value.of?_objectText_eq_some.mp hv
    obtain ⟨members', hmembers', hperm'⟩ := mapM_perm hperm hmembers
    -- the names are distinct, and so are the keys that they give
    have hkeys : (Members.keys members).Nodup := by
      rw [names_eq_of_mapM hmembers] at hdistinct
      exact hdistinct.of_map
    refine Value.of?_objectText_eq_some.mpr ⟨hroom, members', hmembers', ?_⟩
    rw [Members.ofList_eq_of_perm hperm' hkeys]
  | keepLast ms =>
    obtain ⟨hroom, members, hmembers, rfl⟩ := Value.of?_objectText_eq_some.mp hv
    refine Value.of?_objectText_eq_some.mpr ⟨hroom, _, mapM_lastOfEach hmembers, ?_⟩
    rw [Members.ofList_lastOfEach]

/-- A rearranged text has the value of the text. -/
theorem Value.ofText_rearranged (h : Rearranged text text') {v : Value}
    (hv : Value.ofText text = .ok v) : Value.ofText text' = .ok v := by
  rw [← Value.of?_standard] at hv ⊢
  induction h with
  | refl => exact hv
  -- each change preserves the value
  | tail _ hstep ih => exact hstep.preserves .standard ih

end Rearranges

/-! ## §4 Texts that spell the same up to the order of members -/

/-- The texts spell the same, but for the order of members in objects with distinct keys. -/
def SpellAlike (text text' : String) : Prop :=
  ∃ (w : Value) (form : Form), Form.ofText .formOnly text = .ok w.form ∧ w.Distinct ∧
    Form.ofText .formOnly text' = .ok form ∧ Reordered w.form form

mutual

/-- A form in which members are reordered has the same sorted value, if no key is repeated. -/
theorem Reordered.sortedValue? : ∀ {w : Value} {form : Form}, w.Distinct → Reordered w.form form →
    form.sortedValue? = some w.sorted
  | .null, _, _, .null => rfl
  | .bool _, _, _, .bool _ => rfl
  | .number _, _, _, .number _ => rfl
  | .string _, _, _, .string _ => rfl
  | .array items, _, hdistinct, .array hitems => by
    rw [Form.sortedValue?_array, hitems.mapM_sortedValue? hdistinct]
    rfl
  | .object members, _, ⟨hkeys, hdistinct⟩, .object hcontents hperm => by
    -- the members give the sorted values in another order, and with distinct keys one map
    obtain ⟨members', hmembers', hperm'⟩ := mapM_perm hperm (hcontents.mapM_sortedMember? hdistinct)
    rw [← Value.keys_sortedMembers] at hkeys
    rw [Form.sortedValue?_object, hmembers', Value.sorted, Members.ofList_eq_of_perm hperm' hkeys]
    rfl

theorem ReorderedItems.mapM_sortedValue? : ∀ {ws : List Value} {forms : List Form},
    Value.DistinctItems ws → ReorderedItems (Value.form.itemForms ws) forms →
      forms.mapM Form.sortedValue? = some (Value.sorted.sortedItems ws)
  | [], _, _, .nil => rfl
  | w :: ws, _, ⟨hw, hws⟩, .cons hform hforms =>
    mapM_cons_eq_some.mpr
      ⟨_, _, hform.sortedValue? hw, hforms.mapM_sortedValue? hws, rfl⟩

theorem ReorderedContents.mapM_sortedMember? : ∀ {ws : List (String × Value)}
    {members : List (Option String × Form)}, Value.DistinctMembers ws →
      ReorderedContents (Value.form.memberForms ws) members →
        members.mapM Form.sortedMember? = some (Value.sorted.sortedMembers ws)
  | [], _, _, .nil => rfl
  | (key, w) :: ws, _, ⟨hw, hws⟩, .cons _ hform hmembers => by
    refine mapM_cons_eq_some.mpr ⟨(key, w.sorted), _, ?_, hmembers.mapM_sortedMember? hws, rfl⟩
    rw [Form.sortedMember?, hform.sortedValue? hw]
    rfl

end

/-- Two texts that are read and spell the same, but for the order of members, have the same
value. -/
theorem Value.eq_of_spellAlike {text text' : String} (h : SpellAlike text text') {v v' : Value}
    (hv : Value.ofText text = .ok v) (hv' : Value.ofText text' = .ok v') : v' = v := by
  obtain ⟨w, form, hw, hdistinct, hform, hreordered⟩ := h
  obtain ⟨u, rfl, -, hu, -⟩ := Value.ofText_eq_ok hv
  obtain ⟨u', rfl, -, hu', -⟩ := Value.ofText_eq_ok hv'
  -- the form of a text is the form of its value
  have hsame : u.form = w.form := Except.ok.inj (hu.symm.trans hw)
  obtain rfl : u = w := by
    have hvalue := congrArg Form.value? hsame
    rw [Form.value?_form, Form.value?_form] at hvalue
    exact Option.some.inj hvalue
  -- the other text has a reordered form, and its value is then the sorted one
  obtain rfl : u'.form = form := Except.ok.inj (hu'.symm.trans hform)
  have hsorted := hreordered.sortedValue? hdistinct
  rw [Form.sortedValue?, Form.value?_form] at hsorted
  exact Option.some.inj hsorted

end CanonicalQuery.Json

namespace CanonicalQuery

open CanonicalQuery.Json

/-- **The order of members never matters.**  A text may be rearranged: the members of objects with
distinct keys in another order, only the last of repeated members, other blanks.  If it has a value,
it has the same value afterwards, and what is read from it is the same query tree or the same error.
So it is with any two texts that have values and spell the same but for the order of members in
objects with distinct keys. -/
theorem Node.ofJson_rearranged {text text' : String} {v : Value} (hv : Value.ofText text = .ok v) :
    (Rearranged text text' →
      Value.ofText text' = .ok v ∧ Node.ofJson text' = Node.ofJson text) ∧
    ∀ v', SpellAlike text text' → Value.ofText text' = .ok v' →
      v' = v ∧ Node.ofJson text' = Node.ofJson text := by
  -- the query tree depends on the value only
  have hnode : Value.ofText text' = .ok v → Node.ofJson text' = Node.ofJson text := by
    intro hv'
    rw [Node.ofJson, Node.ofJson, hv, hv']
  constructor
  · intro h
    have hv' := Value.ofText_rearranged h hv
    exact ⟨hv', hnode hv'⟩
  · intro v' h hv'
    obtain rfl := Value.eq_of_spellAlike h hv hv'
    exact ⟨rfl, hnode hv'⟩

/-- Of two operands the last is kept, it is put before the operator, and a blank before it. -/
theorem Node.ofJson_rearranged_of_repeated_operand :
    let text := "\x7b\"unary_operator\":\"+\",\"operand\":\"b\",\"operand\":[\"a\"]\x7d"
    let text' := "\x7b\"operand\": [\"a\"],\"unary_operator\":\"+\"\x7d"
    let v : Value := .object [("operand", .array [.string "a"]), ("unary_operator", .string "+")]
    let n : Node := .unary .required (.sequence [.word "a"])
    Rearranged text text' ∧ Value.ofText text = .ok v ∧ Node.ofJson text = .ok n ∧
      Value.ofText text' = .ok v ∧ Node.ofJson text' = .ok n := by
  intro text text' v n
  let marker : Member :=
    ⟨.none, "\"unary_operator\"", .none, "\"+\"", some "unary_operator", rfl, rfl, ⟨_, rfl⟩⟩
  let first : Member := ⟨.none, "\"operand\"", .none, "\"b\"", some "operand", rfl, rfl, ⟨_, rfl⟩⟩
  let last : Member := ⟨.none, "\"operand\"", .none, "[\"a\"]", some "operand", rfl, rfl, ⟨_, rfl⟩⟩
  have hrearranged : Rearranged text text' := by
    -- drop the first of the operands, change the order, and put a blank in
    have hkeep : Rearranges (objectText [marker, first, last]) (objectText [marker, last]) :=
      .keepLast [marker, first, last]
    have hpermute : Rearranges (objectText [marker, last]) (objectText [last, marker]) :=
      .permute (by decide) (.swap last marker [])
    have hblank : Rearranges last.content " [\"a\"]" :=
      .blanks .none .none ⟨" ", by simp [Automaton.IsBlank]⟩ .none last.content_isText
    have hcontent : Rearranges (objectText [last, marker]) text' :=
      .content last hblank.isText.2 [] [marker] hblank
    exact .head hkeep (.head hpermute (.single hcontent))
  have hv : Value.ofText text = .ok v := by
    let spelled : Value := .object [("unary_operator", .string "+"), ("operand", .string "b"),
      ("operand", .array [.string "a"])]
    have hnumberless : spelled.Numberless := ⟨trivial, trivial, ⟨trivial, trivial⟩, trivial⟩
    have htext : spelled.text = text := by decide
    rw [← htext, Value.ofText_text spelled hnumberless, if_pos (by decide)]
    -- the members of the map stand in the order of their keys
    have hlt : "operand" < "unary_operator" := by decide
    simp only [spelled, v, Value.sorted, Value.sorted.sortedMembers, Value.sorted.sortedItems,
      Members.ofList, List.foldl_cons, List.foldl_nil, Members.insert, if_pos hlt, String.lt_irrefl,
      if_false, if_true]
  have hn : Node.ofJson text = .ok n := by
    rw [Node.ofJson, hv]
    rfl
  obtain ⟨hv', hn'⟩ := (Node.ofJson_rearranged hv).1 hrearranged
  exact ⟨hrearranged, hv, hn, hv', hn'.trans hn⟩

end CanonicalQuery
