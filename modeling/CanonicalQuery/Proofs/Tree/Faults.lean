import CanonicalQuery.Error
import CanonicalQuery.Proofs.Tree.Grammar
import CanonicalQuery.Proofs.Tree.Paths

/-!
# Reported defects are there

When a value is no attribute tree, the reader names a path and a fault.  The path leads to a part of
the value, and the grammar says what has to stand there; the fault says how that part differs.

The reader goes down a value as the grammar does.  So a defect is described by where the grammar
arrives along its path, `Reaches`, and by what is wrong with the value found there, `Faulty`; each
reader of a part is shown to report such defects only.

## Main definitions

- `Category.Fits`: values whose kind or set of keys a category has.
- `Reaches`: the parts of a value and the categories in whose place they stand.
- `Faulty`: the faults of a value in the place of a category.
- `Defective`: the defects of a value.

## Main statements

- `Tree.defective_of_ofTree`: every defect that is reported is one that the value has.
- `Node.ofRead_error_at_fault`: the same of the error that is made of it, put into words.
-/

namespace CanonicalQuery

open CanonicalQuery.Json

namespace Tree

/-! ## §1 Defects of values -/

/-- Values of the category have this kind or, if it is an object, these keys. -/
def Category.Fits (c : Category) : Value → Prop
  | .null => c = .degree
  | .string _ => c ≠ .range
  | .array _ => c = .node
  | .object members => ∃ outline ∈ shapes c, Members.HasKeys (Members.keys outline) members
  | _ => False

/-- The categories of values that are more than texts. -/
def places : List Category := [.node, .marker, .range]

/-- A part of a value at the end of a path, and the category in whose place it stands.  A step leads
to an item of a sequence or to a part of an object that has the keys of its category. -/
inductive Reaches : Category → Value → Path → Category → Value → Prop where
  | here (c : Category) (v : Value) : Reaches c v [] c v
  | item {vs : List Value} {v u : Value} {position : Nat} {path : Path} {c : Category} :
      vs[position]? = some v → Reaches .node v path c u →
      Reaches .node (.array vs) (.index position :: path) c u
  | part {outline : List (String × Category)} {members : List (String × Value)} {name : String}
      {v u : Value} {path : Path} {c inner place : Category} :
      outline ∈ shapes c → Members.HasKeys (Members.keys outline) members →
      (name, inner) ∈ outline → inner ∈ places → Members.get? name members = some v →
      Reaches inner v path place u → Reaches c (.object members) (.key name :: path) place u

/-- What may be wrong with a value in the place of a category. -/
inductive Faulty : Category → Value → Fault → Prop where
  | unhandled {c : Category} {v : Value} : ¬c.Fits v → Faulty c v (.unhandled (shape v))
  /-- A textual attribute of the object does not lead to a text. -/
  | notText {outline : List (String × Category)} {members : List (String × Value)}
      {name : String} {c part : Category} {w : Value} :
      outline ∈ shapes c → Members.HasKeys (Members.keys outline) members →
      (name, part) ∈ outline → part = .text ∨ part = .degree →
      Members.get? name members = some w → ¬part.Fits w →
      Faulty c (.object members) (.notText name w.kind)
  /-- A marker does not lead to a symbol, whatever its key. -/
  | noSymbol {name : String} {w : Value} : w.kind ≠ .string →
      Faulty .marker (.object [(name, w)]) (.notText name w.kind)
  | unknownSymbol {symbol : String} : Operator.ofSymbol? symbol = none →
      Faulty .marker (.string symbol) (.unknownSymbol "unary_operator" symbol)
  | unknownNamed {name symbol : String} : Operator.ofSymbol? symbol = none →
      Faulty .marker (.object [(name, .string symbol)]) (.unknownSymbol name symbol)
  /-- The name of one operator leads to the symbol of the other. -/
  | otherSymbol {o p : Operator} : o ≠ p →
      Faulty .marker (.object [(o.name, .string p.symbol)]) (.otherSymbol o.name p.symbol)

/-- The defects of a value in the place of a category. -/
def Defective (c : Category) (v : Value) (d : Defect) : Prop :=
  ∃ place u, Reaches c v d.path place u ∧ Faulty place u d.fault

theorem Defective.here {c : Category} {v : Value} {fault : Fault} (h : Faulty c v fault) :
    Defective c v (.here fault) :=
  ⟨c, v, .here c v, h⟩

/-- The defect of an item is a defect of the sequence. -/
theorem Defective.item {vs : List Value} {v : Value} {position : Nat} {d : Defect}
    (hitem : vs[position]? = some v) (h : Defective .node v d) :
    Defective .node (.array vs) (d.below (.index position)) := by
  obtain ⟨place, u, hreach, hfault⟩ := h
  exact ⟨place, u, .item hitem hreach, hfault⟩

section Object

variable {c inner : Category} {members : List (String × Value)} {name : String} {v : Value}
variable {d : Defect} (outline : List (String × Category))

/-- The defect of a part is a defect of the object. -/
theorem Defective.part (houtline : outline ∈ shapes c)
    (hkeys : Members.keys members = Members.keys outline) (hpart : (name, inner) ∈ outline)
    (hinner : inner ∈ places) (hget : Members.get? name members = some v)
    (h : Defective inner v d) : Defective c (.object members) (d.below (.key name)) := by
  obtain ⟨place, u, hreach, hfault⟩ := h
  exact ⟨place, u,
    .part houtline (Members.hasKeys_of_keys_eq hkeys) hpart hinner hget hreach, hfault⟩

/-- An attribute is refused if it is no text, and for nothing else. -/
theorem readText_eq_error : readText name v = .error d ↔
    v.kind ≠ .string ∧ d = .here (.notText name v.kind) := by
  cases v <;> simp [readText, Value.kind, eq_comm]

/-- A similarity is refused if it is neither a text nor null. -/
theorem readSimilarity_eq_error : readSimilarity v = .error d ↔
    v.kind ≠ .string ∧ v.kind ≠ .null ∧ d = .here (.notText "similarity" v.kind) := by
  cases v <;> simp [readSimilarity, readText, Value.kind, eq_comm]

/-- An attribute that is no text is a defect of the object. -/
theorem Defective.text (houtline : outline ∈ shapes c)
    (hkeys : Members.keys members = Members.keys outline) (hpart : (name, .text) ∈ outline)
    (hget : Members.get? name members = some v) (h : readText name v = .error d) :
    Defective c (.object members) d := by
  obtain ⟨hkind, rfl⟩ := readText_eq_error.mp h
  -- the category of texts has strings only
  have hfits : ¬Category.Fits .text v := by
    cases v <;> simp [Category.Fits, shapes, Value.kind] at hkind ⊢
  exact .here (.notText houtline (Members.hasKeys_of_keys_eq hkeys) hpart (Or.inl rfl) hget hfits)

/-- A similarity that is neither a text nor null is a defect of the object. -/
theorem Defective.degree (houtline : outline ∈ shapes c)
    (hkeys : Members.keys members = Members.keys outline)
    (hpart : ("similarity", .degree) ∈ outline)
    (hget : Members.get? "similarity" members = some v) (h : readSimilarity v = .error d) :
    Defective c (.object members) d := by
  obtain ⟨hkind, hnull, rfl⟩ := readSimilarity_eq_error.mp h
  have hfits : ¬Category.Fits .degree v := by
    cases v <;> simp [Category.Fits, shapes, Value.kind] at hkind hnull ⊢
  exact .here (.notText houtline (Members.hasKeys_of_keys_eq hkeys) hpart (Or.inr rfl) hget hfits)

end Object

/-! ## §2 Defects of markers and ranges -/

/-- A part fails if what is made of it does. -/
theorem map_eq_error {ε α β : Type} {x : Except ε α} {f : α → β} {e : ε} :
    (do return f (← x)) = Except.error e ↔ x = .error e := by
  cases x with
  | error e' => simp [bind, Except.bind]
  | ok a => simp [bind, Except.bind, pure, Except.pure]

/-- Two parts fail if the first one does, or if the second one does behind it. -/
theorem both_eq_error {ε α β γ : Type} {x : Except ε α} {y : Except ε β} {f : α → β → γ} {e : ε} :
    (do return f (← x) (← y)) = Except.error e ↔
      x = .error e ∨ ∃ a, x = .ok a ∧ y = .error e := by
  cases x with
  | error e' => simp [bind, Except.bind]
  | ok a =>
    have hsecond : (do return f a (← y)) = Except.error e ↔ y = .error e := map_eq_error
    constructor
    · exact fun h => Or.inr ⟨a, rfl, hsecond.mp h⟩
    · rintro (h | ⟨_, -, h⟩)
      · cases h
      · exact hsecond.mpr h

/-- A part fails below a step with its own defect. -/
theorem below_eq_error {α : Type} {step : Step} {x : Except Defect α} {d : Defect} :
    below step x = .error d ↔ ∃ d', x = .error d' ∧ d = d'.below step := by
  cases x with
  | error d' => simp [eq_comm]
  | ok a => simp

/-- A symbol is unknown, or it is that of the operator that its key does not name, or its key names
nothing. -/
theorem readSymbol_eq_error {name symbol : String} {d : Defect}
    (h : readSymbol name symbol = .error d) :
    (Operator.ofSymbol? symbol = none ∧ d = .here (.unknownSymbol name symbol)) ∨
    (∃ o p : Operator, o ≠ p ∧ name = o.name ∧ symbol = p.symbol ∧
      d = .here (.otherSymbol name symbol)) ∨
    (name ≠ "unary_operator" ∧ (∀ o : Operator, name ≠ o.name) ∧
      d = .here (.unhandled (.keys [name]))) := by
  unfold readSymbol at h
  cases hsymbol : Operator.ofSymbol? symbol with
  | none =>
    rw [hsymbol] at h
    cases h
    exact Or.inl ⟨rfl, rfl⟩
  | some p =>
    obtain rfl := Operator.ofSymbol?_eq_some_iff.mp hsymbol
    rw [hsymbol] at h
    dsimp only at h
    split at h
    · cases h
    · rename_i hname
      obtain ⟨hcommon, hown⟩ := not_or.mp hname
      split at h
      -- the name is that of an operator, and not of the one that the symbol stands for
      · rename_i hother
        cases h
        obtain ⟨o, ho⟩ : ∃ o : Operator, name = o.name :=
          hother.elim (fun h => ⟨.required, h⟩) (fun h => ⟨.prohibited, h⟩)
        have hne : o ≠ p := by
          rintro rfl
          exact hown ho
        exact Or.inr (Or.inl ⟨o, p, hne, ho, rfl, rfl⟩)
      -- the name is none that a marker may have
      · rename_i hnone
        cases h
        obtain ⟨hrequired, hprohibited⟩ := not_or.mp hnone
        have hnames : ∀ o : Operator, name ≠ o.name := by
          rintro (_ | _)
          · exact hrequired
          · exact hprohibited
        exact Or.inr (Or.inr ⟨hcommon, hnames, rfl⟩)

/-- Which keys a marker may have. -/
theorem fits_marker_object {members : List (String × Value)} :
    Category.Fits .marker (.object members) ↔
      Members.HasKeys ["unary_operator"] members ∨
        ∃ o : Operator, Members.HasKeys [o.name] members := by
  constructor
  · rintro ⟨outline, houtline, hkeys⟩
    simp only [shapes, List.mem_cons, List.not_mem_nil, or_false] at houtline
    -- the common key stands over either symbol, and each name over its own
    rcases houtline with rfl | rfl | rfl | rfl
    · exact Or.inl hkeys
    · exact Or.inl hkeys
    · exact Or.inr ⟨.required, hkeys⟩
    · exact Or.inr ⟨.prohibited, hkeys⟩
  · rintro (hkeys | ⟨_ | _, hkeys⟩)
    · exact ⟨[("unary_operator", .symbol .required)], by decide, hkeys⟩
    · exact ⟨[("required", .symbol .required)], by decide, hkeys⟩
    · exact ⟨[("prohibited", .symbol .prohibited)], by decide, hkeys⟩

/-- An object with one member has just its key. -/
theorem hasKeys_singleton {key name : String} {v : Value} :
    Members.HasKeys [key] [(name, v)] ↔ name = key := by
  constructor
  · intro h
    simpa [Members.keys] using (h name).mp (by simp [Members.keys])
  · rintro rfl
    exact Members.hasKeys_of_keys_eq rfl

/-- What is reported of a marker is wrong with it. -/
theorem defective_of_readMarker {m : Value} {d : Defect} (hsorted : m.Sorted)
    (h : readMarker m = .error d) : Defective .marker m d := by
  unfold readMarker at h
  split at h
  · rename_i symbol
    -- `unary_operator` fits every symbol, so a bare symbol can only be unknown
    rcases readSymbol_eq_error h with
      ⟨hunknown, rfl⟩ | ⟨o, p, -, hname, -⟩ | ⟨hne, -⟩
    · exact .here (.unknownSymbol hunknown)
    · exact absurd hname (by cases o <;> decide)
    · exact absurd rfl hne
  · rename_i name symbol
    rcases readSymbol_eq_error h with
      ⟨hunknown, rfl⟩ | ⟨o, p, hne, rfl, rfl, rfl⟩ | ⟨hcommon, hnames, rfl⟩
    · exact .here (.unknownNamed hunknown)
    · exact .here (.otherSymbol hne)
    · have hfits : ¬Category.Fits .marker (.object [(name, .string symbol)]) := by
        rw [fits_marker_object]
        rintro (hkeys | ⟨o, hkeys⟩)
        · exact hcommon (hasKeys_singleton.mp hkeys)
        · exact hnames o (hasKeys_singleton.mp hkeys)
      exact .here (.unhandled hfits)
  -- an entry that is no text, whatever its key
  · rename_i name v hstring
    cases h
    have hkind : v.kind ≠ .string := by
      cases v <;> simp_all [Value.kind]
    exact .here (.noSymbol hkind)
  · rename_i hstring hsymbol hsingle
    cases h
    refine .here (.unhandled ?_)
    -- a sorted object with the keys of a marker has one member, and that was read above
    cases m with
    | string symbol => exact absurd rfl (hstring symbol)
    | object members =>
      rw [fits_marker_object]
      rintro (hkeys | ⟨o, hkeys⟩)
      · obtain ⟨v, rfl⟩ := Members.eq_single hkeys hsorted.1
        exact hsingle _ _ rfl
      · obtain ⟨v, rfl⟩ := Members.eq_single hkeys hsorted.1
        exact hsingle _ _ rfl
    | _ => simp [Category.Fits]

/-- What is reported of a range is wrong with it. -/
theorem defective_of_readRange {v : Value} {d : Defect} (hsorted : v.Sorted)
    (h : readRange v = .error d) : Defective .range v d := by
  unfold readRange at h
  split at h
  · rename_i lower upper
    rw [both_eq_error] at h
    -- the lower end is read first
    rcases h with hlower | ⟨_, -, hupper⟩
    · exact .text [("from", .text), ("to", .text)] (by decide) rfl (by decide) rfl hlower
    · exact .text [("from", .text), ("to", .text)] (by decide) rfl (by decide) rfl hupper
  · rename_i hends
    cases h
    refine .here (.unhandled ?_)
    cases v with
    | object members =>
      rintro ⟨outline, houtline, hkeys⟩
      -- an object with the keys of both ends is what was read above
      obtain rfl := List.mem_singleton.mp houtline
      obtain ⟨lower, upper, rfl⟩ := Members.eq_pair (by decide) hkeys hsorted.1
      exact hends lower upper rfl
    | _ => simp [Category.Fits]

/-! ## §3 Defects of nodes -/

/-- What is reported of a node is wrong with it. -/
theorem defective_of_ofTree {v : Value} {d : Defect} (hsorted : v.Sorted)
    (h : ofTree v = .error d) : Defective .node v d := by
  -- items are read from a position on, so the induction carries the items in front of it along
  induction v using Tree.ofTree.induct _
    (fun position vs => ∀ before, before.length = position → Value.SortedItems vs → ∀ d,
      ofTrees position vs = .error d → Defective .node (.array (before ++ vs)) d)
    generalizing d with
  | case1 s => cases h
  | case2 items ih =>
    rw [ofTree, map_eq_error] at h
    exact ih [] rfl hsorted d h
  | case3 value =>
    rw [ofTree, map_eq_error] at h
    exact .text [("term", .text)] (by decide) rfl (by decide) rfl h
  | case4 degree value =>
    rw [ofTree, both_eq_error] at h
    rcases h with hdegree | ⟨_, -, hvalue⟩
    · exact .degree [("similarity", .degree), ("term", .text)] (by decide) rfl (by decide) rfl
        hdegree
    · exact .text [("similarity", .degree), ("term", .text)] (by decide) rfl (by decide) rfl hvalue
  | case5 factor value =>
    rw [ofTree, both_eq_error] at h
    rcases h with hvalue | ⟨_, -, hfactor⟩
    · exact .text [("boost", .text), ("term", .text)] (by decide) rfl (by decide) rfl hvalue
    · exact .text [("boost", .text), ("term", .text)] (by decide) rfl (by decide) rfl hfactor
  | case6 value =>
    rw [ofTree, map_eq_error] at h
    exact .text [("phrase", .text)] (by decide) rfl (by decide) rfl h
  | case7 factor value =>
    rw [ofTree, both_eq_error] at h
    rcases h with hvalue | ⟨_, -, hfactor⟩
    · exact .text [("boost", .text), ("phrase", .text)] (by decide) rfl (by decide) rfl hvalue
    · exact .text [("boost", .text), ("phrase", .text)] (by decide) rfl (by decide) rfl hfactor
  | case8 words value =>
    rw [ofTree, both_eq_error] at h
    rcases h with hvalue | ⟨_, -, hwords⟩
    · exact .text [("distance", .text), ("phrase", .text)] (by decide) rfl (by decide) rfl hvalue
    · exact .text [("distance", .text), ("phrase", .text)] (by decide) rfl (by decide) rfl hwords
  | case9 inner ih =>
    rw [ofTree, map_eq_error, below_eq_error] at h
    obtain ⟨d', hinner, rfl⟩ := h
    exact .part [("group", .node)] (by decide) rfl (by decide) (by decide) rfl
      (ih (Value.sorted_single.mp hsorted) hinner)
  -- the marker is read before the operand
  | case10 operand marker ih =>
    rw [ofTree, both_eq_error, below_eq_error, below_eq_error] at h
    obtain ⟨hoperand, hmarker⟩ := (Value.sorted_pair (by decide)).mp hsorted
    rcases h with ⟨d', hd, rfl⟩ | ⟨_, -, d', hd, rfl⟩
    · exact .part [("operand", .node), ("unary_operator", .marker)] (by decide) rfl (by decide)
        (by decide) rfl (defective_of_readMarker hmarker hd)
    · exact .part [("operand", .node), ("unary_operator", .marker)] (by decide) rfl (by decide)
        (by decide) rfl (ih hoperand hd)
  | case11 operand ih =>
    rw [ofTree, below_eq_error] at h
    obtain ⟨d', hoperand, rfl⟩ := h
    exact .part [("operand", .node)] (by decide) rfl (by decide) (by decide) rfl
      (ih (Value.sorted_single.mp hsorted) hoperand)
  | case12 name operand ih =>
    rw [ofTree, both_eq_error, below_eq_error] at h
    obtain ⟨-, hoperand⟩ := (Value.sorted_pair (by decide)).mp hsorted
    rcases h with hname | ⟨_, -, d', hd, rfl⟩
    · exact .text [("field", .text), ("operand", .node)] (by decide) rfl (by decide) rfl hname
    · exact .part [("field", .text), ("operand", .node)] (by decide) rfl (by decide) (by decide)
        rfl (ih hoperand hd)
  | case13 name ends =>
    rw [ofTree, both_eq_error, below_eq_error] at h
    obtain ⟨-, hends⟩ := (Value.sorted_pair (by decide)).mp hsorted
    rcases h with hname | ⟨_, -, d', hd, rfl⟩
    · exact .text [("field", .text), ("inclusive_range", .range)] (by decide) rfl (by decide) rfl
        hname
    · exact .part [("field", .text), ("inclusive_range", .range)] (by decide) rfl (by decide)
        (by decide) rfl (defective_of_readRange hends hd)
  | case14 ends name =>
    rw [ofTree, both_eq_error, below_eq_error] at h
    obtain ⟨hends, -⟩ := (Value.sorted_pair (by decide)).mp hsorted
    rcases h with hname | ⟨_, -, d', hd, rfl⟩
    · exact .text [("exclusive_range", .range), ("field", .text)] (by decide) rfl (by decide) rfl
        hname
    · exact .part [("exclusive_range", .range), ("field", .text)] (by decide) rfl (by decide)
        (by decide) rfl (defective_of_readRange hends hd)
  | case15 v hs ha h1 h2 h3 h4 h5 h6 h7 h8 h9 h10 h11 h12 =>
    have hd : d = .here (.unhandled (shape v)) := by simp_all [ofTree]
    rw [hd]
    refine .here (.unhandled ?_)
    cases v with
    | string s => exact absurd rfl (hs s)
    | array vs => exact absurd rfl (ha vs)
    | object members =>
      rintro ⟨outline, houtline, hkeys⟩
      have hlt := hsorted.1
      -- a sorted object with the keys of an outline is what one of the rules is about
      simp only [shapes, List.mem_cons, List.not_mem_nil, or_false] at houtline
      rcases houtline with rfl | rfl | rfl | rfl | rfl | rfl | rfl | rfl | rfl | rfl | rfl | rfl
      · obtain ⟨w, rfl⟩ := Members.eq_single hkeys hlt
        exact h1 w rfl
      · obtain ⟨w, w', rfl⟩ := Members.eq_pair (by decide) hkeys hlt
        exact h2 w w' rfl
      · obtain ⟨w, w', rfl⟩ := Members.eq_pair (by decide) hkeys hlt
        exact h3 w w' rfl
      · obtain ⟨w, rfl⟩ := Members.eq_single hkeys hlt
        exact h4 w rfl
      · obtain ⟨w, w', rfl⟩ := Members.eq_pair (by decide) hkeys hlt
        exact h5 w w' rfl
      · obtain ⟨w, w', rfl⟩ := Members.eq_pair (by decide) hkeys hlt
        exact h6 w w' rfl
      · obtain ⟨w, rfl⟩ := Members.eq_single hkeys hlt
        exact h7 w rfl
      · obtain ⟨w, w', rfl⟩ := Members.eq_pair (by decide) hkeys hlt
        exact h8 w w' rfl
      · obtain ⟨w, rfl⟩ := Members.eq_single hkeys hlt
        exact h9 w rfl
      · obtain ⟨w, w', rfl⟩ := Members.eq_pair (by decide) hkeys hlt
        exact h10 w w' rfl
      · obtain ⟨w, w', rfl⟩ := Members.eq_pair (by decide) hkeys hlt
        exact h11 w w' rfl
      · obtain ⟨w, w', rfl⟩ := Members.eq_pair (by decide) hkeys hlt
        exact h12 w w' rfl
    | _ => simp [Category.Fits]
  | case16 position before hlength _ d h => cases h
  | case17 position v rest ih ihs before hlength hitems d h =>
    -- the item at this position fails, or one behind it
    rw [ofTrees, both_eq_error, below_eq_error] at h
    rcases h with ⟨d', hd, rfl⟩ | ⟨_, -, hrest⟩
    · exact .item (by simp [← hlength]) (ih hitems.1 hd)
    · have hrest' := ihs (before ++ [v]) (by simp [hlength]) hitems.2 d hrest
      simpa using hrest'

/-! ## §4 Where the path of a defect leads -/

/-- Nodes, markers and ranges stand under a few keys only. -/
theorem mem_partNames_of_mem_places {c : Category} : ∀ outline ∈ shapes c, ∀ m ∈ outline,
    m.2 ∈ places → m.1 ∈ partNames := by
  cases c with
  | node | range | marker => decide
  | text | degree | symbol =>
    intro outline houtline
    cases houtline

/-- What stands at the end of a path is a node, a marker or a range. -/
theorem Reaches.mem_places {c place : Category} {v u : Value} {path : Path}
    (h : Reaches c v path place u) (hc : c ∈ places) : place ∈ places := by
  induction h with
  | here => exact hc
  | item _ _ ih => exact ih hc
  | part _ _ _ hinner _ _ ih => exact ih hinner

/-- A path goes through positions and known keys only. -/
theorem Reaches.known {c place : Category} {v u : Value} {path : Path}
    (h : Reaches c v path place u) : path.Known := by
  induction h with
  | here => exact Path.known_nil
  | item _ _ ih => exact Path.known_cons trivial ih
  | part houtline _ hpart hinner _ _ ih =>
    exact Path.known_cons (mem_partNames_of_mem_places _ houtline _ hpart hinner) ih

/-- A path leads to the part that stands at its end. -/
theorem Reaches.follow? {c place : Category} {v u : Value} {path : Path}
    (h : Reaches c v path place u) : path.follow? v = some u := by
  induction h with
  | here => rfl
  | item hitem _ ih => rw [Path.follow?, hitem, Option.bind_some, ih]
  | part _ _ _ _ hget _ ih => rw [Path.follow?, hget, Option.bind_some, ih]

/-- The parts of a sorted value are sorted. -/
theorem Reaches.sorted {c place : Category} {v u : Value} {path : Path}
    (h : Reaches c v path place u) (hsorted : v.Sorted) : u.Sorted := by
  induction h with
  | here => exact hsorted
  | item hitem _ ih => exact ih (hsorted.item (List.mem_of_getElem? hitem))
  | part _ _ _ _ hget _ ih => exact ih (hsorted.2.member (Members.mem_of_get? hget))

/-! ## §5 What an error says -/

/-- The text gives the kind of a value or, if it is an object, its keys in their order. -/
def Outlined : Value → String → Prop
  | .object members, text => (Members.keys members).Pairwise (· < ·) ∧
      text = "\x7b" ++ ", ".intercalate (Members.keys members) ++ "\x7d"
  | v, text => text = v.kind.name

/-- A marker holds a symbol under a name; a bare symbol counts as held under `unary_operator`. -/
def Holds (marker : Value) (name symbol : String) : Prop :=
  marker = .string symbol ∧ name = "unary_operator" ∨ marker = .object [(name, .string symbol)]

/-- What an error says of the value `u`, which stands in the place of a category at the end of a
path. -/
inductive Explained (place : Category) (u : Value) (path : String) : Error → Prop where
  /-- In this place there may be nothing of this kind or with these keys. -/
  | outline {text : String} : ¬place.Fits u → Outlined u text →
      Explained place u path (.unhandledShape path text)
  /-- An attribute is there and no text, nor null if it is the similarity of a term. -/
  | notText {members : List (String × Value)} {name : String} {w : Value} :
      u = .object members → Members.get? name members = some w → w.kind ≠ .string →
      (place = .marker → members = [(name, w)]) → (place ≠ .marker → place.Fits u) →
      (place = .node → name = "similarity" → w ≠ .null) →
      Explained place u path
        (.invalidAttribute path name ("expected a string, found " ++ w.kind.name))
  | unknownSymbol {name symbol : String} :
      place = .marker → Holds u name symbol → symbol ≠ "+" ∧ symbol ≠ "-" →
      Explained place u path
        (.invalidAttribute path name ("unknown unary operator '" ++ symbol ++ "'"))
  /-- The symbol is that of the other operator. -/
  | otherSymbol {name symbol : String} :
      place = .marker → u = .object [(name, .string symbol)] →
      name = "required" ∧ symbol = "-" ∨ name = "prohibited" ∧ symbol = "+" →
      Explained place u path
        (.invalidAttribute path name ("'" ++ symbol ++ "' does not mark a " ++ name ++ " operand"))

/-- The shape of a value gives its kind, or its keys in order. -/
theorem outlined_shape {u : Value} (hsorted : u.Sorted) : Outlined u (shape u).text := by
  cases u with
  | object members => exact ⟨hsorted.1, rfl⟩
  | _ => rfl

theorem ne_of_ofSymbol?_eq_none {symbol : String} (h : Operator.ofSymbol? symbol = none) :
    symbol ≠ "+" ∧ symbol ≠ "-" := by
  constructor
  · rintro rfl
    exact absurd h (by decide)
  · rintro rfl
    exact absurd h (by decide)

/-- The error that is made of a fault says what is wrong. -/
theorem Faulty.explained {place : Category} {u : Value} {path : Path} {fault : Fault}
    (h : Faulty place u fault) (hsorted : u.Sorted) :
    Explained place u path.text (Defect.toError ⟨path, fault⟩) := by
  cases h with
  | unhandled hfits => exact .outline hfits (outlined_shape hsorted)
  | @notText outline members name _ inner w houtline hkeys hpart htextual hget hfits =>
    -- a text would fit the category of the attribute
    have hkind : w.kind ≠ .string := by
      rintro hstring
      cases w <;> simp [Value.kind] at hstring
      rcases htextual with rfl | rfl <;> exact hfits (by simp [Category.Fits])
    -- markers have no textual attributes, and the similarity of a term may be null
    have hmarker : place ≠ .marker := by
      rintro rfl
      have hsymbols : ∀ outline ∈ shapes .marker, ∀ m ∈ outline,
          ¬(m.2 = Category.text ∨ m.2 = .degree) := by decide
      exact hsymbols outline houtline _ hpart htextual
    have hnull : place = .node → name = "similarity" → w ≠ .null := by
      rintro rfl rfl rfl
      have hdegree : ∀ outline ∈ shapes .node, ∀ m ∈ outline,
          m.1 = "similarity" → m.2 = .degree := by decide
      exact hfits (hdegree outline houtline _ hpart rfl)
    exact .notText rfl hget hkind (fun h => absurd h hmarker)
      (fun _ => ⟨outline, houtline, hkeys⟩) hnull
  | noSymbol hkind =>
    exact .notText rfl (by simp [Members.get?]) hkind (fun _ => rfl) (fun h => absurd rfl h)
      (fun h => absurd h (by decide))
  | unknownSymbol hunknown =>
    exact .unknownSymbol rfl (Or.inl ⟨rfl, rfl⟩) (ne_of_ofSymbol?_eq_none hunknown)
  | unknownNamed hunknown =>
    exact .unknownSymbol rfl (Or.inr rfl) (ne_of_ofSymbol?_eq_none hunknown)
  | @otherSymbol o p hne =>
    refine .otherSymbol rfl rfl ?_
    cases o <;> cases p <;> simp_all [Operator.name, Operator.symbol]

/-- No detail says that an attribute is missing. -/
theorem Explained.ne_missing {place : Category} {u : Value} {path : String} {e : Error}
    (h : Explained place u path e) (name : String) : e ≠ .invalidAttribute path name "missing" := by
  rintro rfl
  -- the details begin with other letters
  have hfirst : ∀ text : String, text.toList.head? ≠ some 'm' → text ≠ "missing" := by
    rintro text hne rfl
    exact hne (by simp)
  generalize hdetail : "missing" = detail at h
  cases h with
  | notText => exact hfirst _ (by simp) hdetail.symm
  | unknownSymbol => exact hfirst _ (by simp) hdetail.symm
  | otherSymbol => exact hfirst _ (by simp) hdetail.symm

end Tree

/-- **Every error of the reader points at a defect.**  The path of the error is the text of one path
only, that path leads to a part of the value, and what the error says is true of this part in the
place where it stands. -/
theorem Node.ofRead_error_at_fault {v : Value} {e : Error} (hsorted : v.Sorted)
    (h : Node.ofRead (.ok v) = .error e) :
    ∃ path place u,
      (Tree.Path.Known path ∧
        ∀ other, Tree.Path.Known other → other.text = path.text → other = path) ∧
      path.follow? v = some u ∧
      Tree.Reaches .node v path place u ∧ place ∈ Tree.places ∧
      Tree.Explained place u path.text e ∧
      (∀ name, e ≠ .invalidAttribute path.text name "missing") := by
  cases hread : Node.ofTree v with
  | ok n =>
    rw [Node.ofRead, hread] at h
    cases h
  | error d =>
    rw [Node.ofRead, hread] at h
    have he : e = d.toError := (Except.error.inj h).symm
    -- the defect was found at a part, and its path leads there from the root
    obtain ⟨place, u, hreach, hfault⟩ := Tree.defective_of_ofTree hsorted hread
    have hexplained : Tree.Explained place u d.path.text e :=
      he ▸ hfault.explained (hreach.sorted hsorted)
    -- the steps of such a path are known ones, so no other path has its text
    exact ⟨d.path, place, u,
      ⟨hreach.known, fun other hother htext => Tree.Path.text_injective hother hreach.known htext⟩,
      hreach.follow?, hreach, hreach.mem_places (by decide), hexplained, hexplained.ne_missing⟩

/-- The end of a range is a number, three levels down. -/
theorem Node.ofRead_error_at_end_of_range :
    let ends : Value := .object [("from", .string "1"), ("to", .number "2")]
    let v : Value := .array [.string "a", .object [("group",
      .array [.object [("field", .string "year"), ("inclusive_range", ends)]])]]
    let e : Error :=
      .invalidAttribute "$[1].group[0].inclusive_range" "to" "expected a string, found number"
    v.Sorted ∧ Node.ofRead (.ok v) = .error e ∧
      ∃ (path : Tree.Path) (place : Tree.Category) (u : Value),
        path.follow? v = some u ∧ Tree.Explained place u path.text e := by
  intro ends v e
  have hends : ends.Sorted := (Value.sorted_pair (by decide)).mpr ⟨trivial, trivial⟩
  have hfield := (Value.sorted_pair (v := .string "year") (w := ends)
    (show "field" < "inclusive_range" by decide)).mpr ⟨trivial, hends⟩
  -- the members stand in the order of their keys, on each level
  have hsorted : v.Sorted := ⟨trivial, Value.sorted_single.mpr ⟨hfield, trivial⟩, trivial⟩
  have hread : Node.ofRead (.ok v) = .error e := by rfl
  obtain ⟨path, place, u, -, hfollow, -, -, hexplained, -⟩ :=
    Node.ofRead_error_at_fault hsorted hread
  exact ⟨hsorted, hread, path, place, u, hfollow, hexplained⟩

end CanonicalQuery
