import CanonicalQuery.Proofs.Tree.AllDefects
import Mathlib.Data.List.Basic

/-!
# The first defect is reported

The reader of attribute trees stops at the first defect that it meets, and its order is hidden in
the order in which it reads the parts of a node.  Every reader of a part is compared with the list
of all defects of the part: it fails with the first of them, or there are none.

So what comes behind the first defect has no influence on what is reported.  Items of an array may
change or vanish behind an item that has a defect, and parts of an object may change behind such a
part, as long as the object keeps its keys.

## Main definitions

- `Reports`: a reading fails with the first of some defects, or there are none.
- `ChangedBehind`: a value is changed only behind the place of a defect.

## Main statements

- `reports_ofTree`: the reader reports the first of all defects.
- `ChangedBehind.head?_defects`: the first defect stays the first if parts behind it change.
- `Node.ofRead_reports_first`: what both say about the errors of the library.
-/

namespace CanonicalQuery

open CanonicalQuery.Json

namespace Tree

/-! ## §1 Reading reports the first defect -/

/-- A reading fails with the first of some defects, or succeeds if there are none. -/
def Reports {α : Type} (reading : Except Defect α) (ds : List Defect) : Prop :=
  match reading with
  | .ok _ => ds = []
  | .error d => ds.head? = some d

section Reports

variable {α β γ : Type} {x : Except Defect α} {y : Except Defect β} {ds es : List Defect}

/-- A reading fails with a defect just if it is the first one. -/
theorem Reports.error_iff (h : Reports x ds) {d : Defect} :
    x = .error d ↔ ds.head? = some d := by
  cases x with
  | ok a => simp [show ds = [] from h]
  | error d' => simp [show ds.head? = some d' from h]

/-- A reading succeeds just if there is no defect. -/
theorem Reports.ok_iff (h : Reports x ds) : (∃ a, x = .ok a) ↔ ds = [] := by
  cases x with
  | ok a => simp [show ds = [] from h]
  | error d =>
    have hhead : ds.head? = some d := h
    simp only [reduceCtorEq, exists_false, false_iff]
    rintro rfl
    cases hhead

/-- What is made of a part has the defects of the part. -/
theorem Reports.map (f : α → β) (h : Reports x ds) : Reports (do return f (← x)) ds := by
  cases x with
  | ok a => exact h
  | error d => exact h

/-- Of two parts, the first one is read first. -/
theorem Reports.both (f : α → β → γ) (hx : Reports x ds) (hy : Reports y es) :
    Reports (do return f (← x) (← y)) (ds ++ es) := by
  cases x with
  | ok a =>
    obtain rfl : ds = [] := hx
    exact hy.map (f a)
  | error d =>
    have hhead : ds.head? = some d := hx
    -- the second part is not read any more
    have happend : (ds ++ es).head? = some d := by
      rw [List.head?_append, hhead]
      rfl
    exact happend

/-- Below a step, the defects are below it too. -/
theorem Reports.below (step : Step) (h : Reports x ds) :
    Reports (below step x) (ds.map (Defect.below step)) := by
  cases x with
  | ok a =>
    obtain rfl : ds = [] := h
    rfl
  | error d =>
    have hhead : ds.head? = some d := h
    have hmap : (ds.map (Defect.below step)).head? = some (d.below step) := by
      rw [List.head?_map, hhead]
      rfl
    exact hmap

end Reports

/-! ## §2 The readers -/

/-- The text of an attribute is missing, or it has no defect. -/
theorem reports_readText (name : String) (v : Value) (own : List Defect) :
    Reports (readText name v) (partDefects name .text v own) := by
  cases v <;> rfl

/-- The degree of a similarity may be null, and else it is a text. -/
theorem reports_readSimilarity (v : Value) (own : List Defect) :
    Reports (readSimilarity v) (partDefects "similarity" .degree v own) := by
  cases v <;> rfl

/-- A symbol is read under a name: the name has to fit, and then the symbol. -/
theorem reports_readSymbol (name symbol : String) :
    Reports (readSymbol name symbol) ((markerFaults name (.string symbol)).map .here) := by
  rw [markerFaults, entryFaults, readSymbol, symbolFaults]
  -- an unknown symbol is all that is reported, under any name
  cases Operator.ofSymbol? symbol with
  | none => rfl
  | some o =>
    dsimp only
    by_cases hname : name = "unary_operator" ∨ name = o.name
    · -- the name fits the symbol: nothing is wrong
      have hmem : name ∈ markerNames := by
        rcases hname with rfl | rfl
        · decide
        · cases o <;> decide
      have hother : ¬(name ≠ o.name ∧ (name = "required" ∨ name = "prohibited")) := by
        rintro ⟨hne, hother⟩
        rcases hname with rfl | rfl
        · simp at hother
        · exact hne rfl
      rw [if_pos hname, if_neg hother, if_pos hmem]
      rfl
    · obtain ⟨hcommon, hne⟩ := not_or.mp hname
      rw [if_neg hname]
      by_cases hother : name = "required" ∨ name = "prohibited"
      · -- the name is that of the other operator
        rw [if_pos hother, if_pos (And.intro hne hother)]
        rfl
      · -- no marker has such a name, whatever the symbol is
        have hmem : name ∉ markerNames := by simp [mem_markerNames, hcommon, hother]
        rw [if_neg hother, if_neg fun h => hother h.2, if_neg hmem]
        rfl

/-- The reader of markers fails with the first defect of the marker. -/
theorem reports_readMarker (m : Value) : Reports (readMarker m) (defects .marker m) := by
  -- a symbol, one entry with a symbol, one entry with anything else, and what is left
  unfold readMarker
  split
  · rename_i symbol
    have hbare : defects .marker (.string symbol) =
        (markerFaults "unary_operator" (.string symbol)).map .here := by
      simp [defects, markerFaults, markerNames]
    rw [hbare]
    exact reports_readSymbol "unary_operator" symbol
  · rename_i name symbol
    simpa only [defects] using reports_readSymbol name symbol
  · rename_i name v hstring
    cases v with
    | string symbol => exact absurd rfl (hstring symbol)
    | _ => simp [Reports, defects, markerFaults, entryFaults, Value.kind]
  · rename_i hstring _ hsingle
    cases m with
    | string symbol => exact absurd rfl (hstring symbol)
    | object members =>
      -- an object with no entry or with several has no outline
      obtain _ | ⟨m, _ | ⟨m', rest⟩⟩ := members
      · rfl
      · exact absurd rfl (hsingle m.1 m.2)
      · have houtline : outlineOf? .marker (m :: m' :: rest) = none := by
          simp [outlineOf?, shapes, Members.keys]
        simp [Reports, defects, houtline, shape]
    | _ => rfl

/-- The reader of the ends of a range fails with their first defect. -/
theorem reports_readRange (v : Value) : Reports (readRange v) (defects .range v) := by
  unfold readRange
  split
  · rename_i lower upper
    have hlower := reports_readText "from" lower (defects .text lower)
    have hupper := reports_readText "to" upper (defects .text upper)
    -- the lower end comes first
    have hdefects : defects .range (.object [("from", lower), ("to", upper)]) =
        partDefects "from" .text lower (defects .text lower) ++
          partDefects "to" .text upper (defects .text upper) := by
      simp [defects, outlineOf?, shapes, Members.keys, partOrder, memberDefects, Members.get?]
    rw [hdefects]
    exact hlower.both Range.mk hupper
  · rename_i hends
    cases v with
    | object members =>
      -- no outline but that of the two ends, which it does not have
      have houtline : outlineOf? .range members = none := by
        cases hfound : outlineOf? .range members with
        | none => rfl
        | some outline =>
          obtain ⟨hmem, hkeys⟩ := outlineOf?_eq_some hfound
          obtain rfl := List.mem_singleton.mp hmem
          obtain ⟨lower, upper, rfl⟩ := Members.eq_pair_of_keys_eq hkeys
          exact absurd rfl (hends lower upper)
      simp [Reports, defects, houtline, shape]
    | _ => rfl

/-- A part that has defects of its own is read one step below the object. -/
theorem Reports.part {α : Type} {reading : Except Defect α} {c : Category} {v : Value}
    (name : String) (h : Reports reading (defects c v)) (hc : c ∈ places) :
    Reports (Tree.below (.key name) reading) (partDefects name c v (defects c v)) := by
  rw [partDefects_of_mem_places hc]
  exact h.below (.key name)

section Object

variable {α β γ : Type} {x : Except Defect α} {y : Except Defect β} {c part part' : Category}
variable {members : List (String × Value)} {outline : List (String × Category)}
variable {first second : String} {v w : Value}

/-- An object with a single part is read by reading the part. -/
theorem Reports.single (hx : Reports x (partDefects first part v (defects part v)))
    (houtline : outlineOf? c members = some outline) (hc : c ≠ .marker)
    (horder : partOrder.filter (· ∈ Members.keys outline) = [first])
    (hfirst : Members.get? first outline = some part ∧ Members.get? first members = some v) :
    Reports x (defects c (.object members)) := by
  rw [defects_object houtline hc, flatMap_defectsUnder, horder]
  simpa [defectsUnder, hfirst] using hx

/-- An object with two parts is read by reading them in the order of parts. -/
theorem Reports.pair (f : α → β → γ) (hx : Reports x (partDefects first part v (defects part v)))
    (hy : Reports y (partDefects second part' w (defects part' w)))
    (houtline : outlineOf? c members = some outline) (hc : c ≠ .marker)
    (horder : partOrder.filter (· ∈ Members.keys outline) = [first, second])
    (hfirst : Members.get? first outline = some part ∧ Members.get? first members = some v)
    (hsecond : Members.get? second outline = some part' ∧ Members.get? second members = some w) :
    Reports (do return f (← x) (← y)) (defects c (.object members)) := by
  have hboth := hx.both f hy
  rw [defects_object houtline hc, flatMap_defectsUnder, horder]
  simpa only [List.flatMap_cons, List.flatMap_nil, List.append_nil, defectsUnder, hfirst, hsecond]
    using hboth

end Object

/-- The reader of attribute trees fails with the first of all the defects. -/
theorem reports_ofTree (v : Value) : Reports (ofTree v) (defects .node v) := by
  -- one case for each rule of the reader, which has its parts in the order of reading
  induction v using Tree.ofTree.induct _
    (fun position vs => Reports (ofTrees position vs) (itemDefects position vs)) with
  | case1 s => rfl
  | case2 items ih =>
    rw [ofTree]
    simpa [defects] using ih.map Node.sequence
  | case3 value =>
    rw [ofTree]
    exact ((reports_readText "term" value _).map Node.word).single rfl (by decide) rfl ⟨rfl, rfl⟩
  | case4 degree value =>
    rw [ofTree]
    exact .pair _ (reports_readSimilarity degree _)
      (reports_readText "term" value _) rfl (by decide) rfl ⟨rfl, rfl⟩ ⟨rfl, rfl⟩
  | case5 factor value =>
    rw [ofTree]
    exact .pair _ (reports_readText "term" value _)
      (reports_readText "boost" factor _) rfl (by decide) rfl ⟨rfl, rfl⟩ ⟨rfl, rfl⟩
  | case6 value =>
    rw [ofTree]
    exact ((reports_readText "phrase" value _).map _).single rfl (by decide) rfl ⟨rfl, rfl⟩
  | case7 factor value =>
    rw [ofTree]
    exact .pair _ (reports_readText "phrase" value _)
      (reports_readText "boost" factor _) rfl (by decide) rfl ⟨rfl, rfl⟩ ⟨rfl, rfl⟩
  | case8 words value =>
    rw [ofTree]
    exact .pair _ (reports_readText "phrase" value _)
      (reports_readText "distance" words _) rfl (by decide) rfl ⟨rfl, rfl⟩ ⟨rfl, rfl⟩
  | case9 inner ih =>
    rw [ofTree]
    exact ((ih.part "group" (by decide)).map Node.group).single rfl (by decide) rfl ⟨rfl, rfl⟩
  | case10 operand marker ih =>
    rw [ofTree]
    exact .pair _ ((reports_readMarker marker).part "unary_operator" (by decide))
      (ih.part "operand" (by decide)) rfl (by decide) rfl ⟨rfl, rfl⟩ ⟨rfl, rfl⟩
  | case11 operand ih =>
    rw [ofTree]
    exact (ih.part "operand" (by decide)).single rfl (by decide) rfl ⟨rfl, rfl⟩
  | case12 name operand ih =>
    rw [ofTree]
    exact .pair _ (reports_readText "field" name _)
      (ih.part "operand" (by decide)) rfl (by decide) rfl ⟨rfl, rfl⟩ ⟨rfl, rfl⟩
  | case13 name ends =>
    rw [ofTree]
    exact .pair _ (reports_readText "field" name _)
      ((reports_readRange ends).part "inclusive_range" (by decide)) rfl (by decide) rfl
      ⟨rfl, rfl⟩ ⟨rfl, rfl⟩
  | case14 ends name =>
    rw [ofTree]
    exact .pair _ (reports_readText "field" name _)
      ((reports_readRange ends).part "exclusive_range" (by decide)) rfl (by decide) rfl
      ⟨rfl, rfl⟩ ⟨rfl, rfl⟩
  | case15 v hs ha h1 h2 h3 h4 h5 h6 h7 h8 h9 h10 h11 h12 =>
    cases v with
    | string s => exact absurd rfl (hs s)
    | array vs => exact absurd rfl (ha vs)
    | object members =>
      have houtline : outlineOf? .node members = none := by
        cases hfound : outlineOf? .node members with
        | none => rfl
        | some outline =>
          obtain ⟨hmem, hkeys⟩ := outlineOf?_eq_some hfound
          -- an object with the keys of an outline is what one of the rules is about
          simp only [shapes, List.mem_cons, List.not_mem_nil, or_false] at hmem
          rcases hmem with rfl | rfl | rfl | rfl | rfl | rfl | rfl | rfl | rfl | rfl | rfl | rfl
          · obtain ⟨w, rfl⟩ := Members.eq_single_of_keys_eq hkeys
            exact absurd rfl (h1 w)
          · obtain ⟨w, w', rfl⟩ := Members.eq_pair_of_keys_eq hkeys
            exact absurd rfl (h2 w w')
          · obtain ⟨w, w', rfl⟩ := Members.eq_pair_of_keys_eq hkeys
            exact absurd rfl (h3 w w')
          · obtain ⟨w, rfl⟩ := Members.eq_single_of_keys_eq hkeys
            exact absurd rfl (h4 w)
          · obtain ⟨w, w', rfl⟩ := Members.eq_pair_of_keys_eq hkeys
            exact absurd rfl (h5 w w')
          · obtain ⟨w, w', rfl⟩ := Members.eq_pair_of_keys_eq hkeys
            exact absurd rfl (h6 w w')
          · obtain ⟨w, rfl⟩ := Members.eq_single_of_keys_eq hkeys
            exact absurd rfl (h7 w)
          · obtain ⟨w, w', rfl⟩ := Members.eq_pair_of_keys_eq hkeys
            exact absurd rfl (h8 w w')
          · obtain ⟨w, rfl⟩ := Members.eq_single_of_keys_eq hkeys
            exact absurd rfl (h9 w)
          · obtain ⟨w, w', rfl⟩ := Members.eq_pair_of_keys_eq hkeys
            exact absurd rfl (h10 w w')
          · obtain ⟨w, w', rfl⟩ := Members.eq_pair_of_keys_eq hkeys
            exact absurd rfl (h11 w w')
          · obtain ⟨w, w', rfl⟩ := Members.eq_pair_of_keys_eq hkeys
            exact absurd rfl (h12 w w')
      have hread : ofTree (.object members) =
          .error (.here (.unhandled (.keys (Members.keys members)))) := by
        simp_all [ofTree, shape]
      rw [hread]
      simp [Reports, defects, houtline]
    | null | bool | number =>
      rw [ofTree]
      rfl
      all_goals simp
  | case16 position => rfl
  | case17 position v rest ih ihs =>
    -- the first item is read before the others, one position further each time
    rw [ofTrees, itemDefects]
    exact (ih.below (.index position)).both List.cons ihs

/-! ## §3 Changes behind the first defect -/

/-- The part of a value that is to blame for a defect: an item or a part of an object, also when it
is an attribute that is no text and the defect is one of the object. -/
def Defect.part? : Defect → Option Step
  | ⟨step :: _, _⟩ => some step
  | ⟨[], .notText name _⟩ => some (.key name)
  | ⟨[], _⟩ => none

/-- A value is changed only behind the place of a defect, and objects keep their keys. -/
inductive ChangedBehind : Category → Defect → Value → Value → Prop where
  | refl (c : Category) (d : Defect) (v : Value) : ChangedBehind c d v v
  /-- Nothing is looked at below a shape that no rule handles. -/
  | inside {c : Category} {v v' : Value} : c ≠ .marker → shape v' = shape v →
      ChangedBehind c (.here (.unhandled (shape v))) v v'
  /-- The items behind the one that has the defect may be others, more, or fewer. -/
  | item {d : Defect} {v v' : Value} (front behind behind' : List Value) :
      ChangedBehind .node d v v' →
      ChangedBehind .node (d.below (.index front.length)) (.array (front ++ v :: behind))
        (.array (front ++ v' :: behind'))
  /-- Parts that are looked at before the one that has the defect stay as they are. -/
  | part {c inner : Category} {d : Defect} {outline : List (String × Category)}
      {members members' : List (String × Value)} {name : String} {v v' : Value} :
      outlineOf? c members = some outline → Members.keys members' = Members.keys members →
      (∀ earlier ∈ partOrder.takeWhile (· ≠ name),
        Members.get? earlier members' = Members.get? earlier members) →
      (name, inner) ∈ outline → inner ∈ places →
      Members.get? name members = some v → Members.get? name members' = some v' →
      ChangedBehind inner d v v' →
      ChangedBehind c (d.below (.key name)) (.object members) (.object members')
  /-- The attribute that is no text stays as it is. -/
  | text {c : Category} {outline : List (String × Category)}
      {members members' : List (String × Value)} {name : String} {found : Kind} :
      c ≠ .marker → outlineOf? c members = some outline →
      Members.keys members' = Members.keys members →
      (∀ earlier ∈ partOrder.takeWhile (· ≠ name),
        Members.get? earlier members' = Members.get? earlier members) →
      Members.get? name members' = Members.get? name members →
      ChangedBehind c (.here (.notText name found)) (.object members) (.object members')

/-- The head of a list stays if what stands behind the part that has it is replaced. -/
theorem head?_append_congr {α : Type} {front part part' behind behind' : List α} {a : α}
    (h : (front ++ (part ++ behind)).head? = some a) (hfront : a ∉ front) (hbehind : a ∉ behind)
    (hpart : part.head? = some a → part'.head? = some a) :
    (front ++ (part' ++ behind')).head? = some a := by
  cases front with
  | cons b front =>
    -- what stands in front would be the head itself
    obtain rfl : b = a := by simpa using h
    exact absurd List.mem_cons_self hfront
  | nil =>
    cases part with
    -- an empty part leaves the head to what is behind
    | nil => exact absurd (List.mem_of_head? h) hbehind
    | cons b part => simp [List.head?_append, hpart h]

/-- The defects of items side by side, with their positions. -/
theorem itemDefects_append (vs ws : List Value) (position : Nat) :
    itemDefects position (vs ++ ws) =
      itemDefects position vs ++ itemDefects (position + vs.length) ws := by
  induction vs generalizing position with
  | nil => rfl
  | cons v vs ih =>
    simp [itemDefects, ih, Nat.add_assoc, Nat.add_comm 1]

/-- A defect of an item names the item. -/
theorem part?_of_mem_itemDefects {d : Defect} {vs : List Value} {position : Nat}
    (h : d ∈ itemDefects position vs) :
    ∃ i, i < vs.length ∧ d.part? = some (.index (position + i)) := by
  obtain ⟨i, v, d', hitem, -, rfl⟩ := (mem_itemDefects position).mp h
  exact ⟨i, (List.getElem?_eq_some_iff.mp hitem).1, rfl⟩

/-- A defect of a part names the part. -/
theorem part?_of_mem_partDefects {name : String} {part : Category} {v : Value}
    {own : List Defect} {d : Defect} (h : d ∈ partDefects name part v own) :
    d.part? = some (.key name) := by
  unfold partDefects at h
  split at h
  · cases h
  · cases h
  · cases h
  -- an attribute that is no text is named by the fault
  · obtain rfl := List.mem_singleton.mp h
    rfl
  · obtain rfl := List.mem_singleton.mp h
    rfl
  · obtain ⟨d', -, rfl⟩ := List.mem_map.mp h
    rfl

/-- A defect under some names names one of them. -/
theorem part?_of_mem_defectsUnder {outline : List (String × Category)}
    {members : List (String × Value)} {names : List String} {d : Defect}
    (h : d ∈ names.flatMap (defectsUnder outline members)) :
    ∃ name ∈ names, d.part? = some (.key name) := by
  obtain ⟨name, hname, hd⟩ := List.mem_flatMap.mp h
  unfold defectsUnder at hd
  split at hd
  · exact ⟨name, hname, part?_of_mem_partDefects hd⟩
  · cases hd

/-- The order, cut at one of its names. -/
theorem partOrder_eq {name : String} (h : name ∈ partOrder) :
    ∃ behind, partOrder = partOrder.takeWhile (· ≠ name) ++ name :: behind ∧
      name ∉ partOrder.takeWhile (· ≠ name) ∧ name ∉ behind := by
  have hcut : ∀ name ∈ partOrder,
      partOrder = partOrder.takeWhile (· ≠ name) ++
        name :: (partOrder.dropWhile (· ≠ name)).tail ∧
      name ∉ partOrder.takeWhile (· ≠ name) ∧
      name ∉ (partOrder.dropWhile (· ≠ name)).tail := by
    decide
  exact ⟨_, hcut name h⟩

/-- If the first defect of an object lies in a part, it stays the first when this part keeps it and
the parts before it do not change. -/
theorem head?_defects_object {c : Category} {members members' : List (String × Value)}
    {outline : List (String × Category)} {name : String} {d : Defect}
    (houtline : outlineOf? c members = some outline) (hc : c ≠ .marker)
    (hkeys : Members.keys members' = Members.keys members) (hname : d.part? = some (.key name))
    (hbefore : ∀ earlier ∈ partOrder.takeWhile (· ≠ name),
      Members.get? earlier members' = Members.get? earlier members)
    (hpart : (defectsUnder outline members name).head? = some d →
      (defectsUnder outline members' name).head? = some d)
    (h : (defects c (.object members)).head? = some d) :
    (defects c (.object members')).head? = some d := by
  -- the outline depends on the keys only
  have houtline' : outlineOf? c members' = some outline := by
    rw [← houtline, outlineOf?, outlineOf?, hkeys]
  rw [defects_object houtline hc] at h
  rw [defects_object houtline' hc]
  -- the first defect is under some name, and this is the one
  have hmem : name ∈ partOrder := by
    obtain ⟨name', hname', hpart'⟩ := part?_of_mem_defectsUnder (List.mem_of_head? h)
    obtain rfl : name = name' := by simpa [hname] using hpart'
    exact hname'
  obtain ⟨behind, hcut, hfront, hbehind⟩ := partOrder_eq hmem
  -- the defects of another part begin with another step
  have hother (names : List String) (hnames : name ∉ names) :
      d ∉ names.flatMap (defectsUnder outline members) := by
    intro hd
    obtain ⟨name', hname', hpart'⟩ := part?_of_mem_defectsUnder hd
    obtain rfl : name = name' := by simpa [hname] using hpart'
    exact hnames hname'
  -- what comes before the part is the same in both objects
  have hsame : (partOrder.takeWhile (· ≠ name)).flatMap (defectsUnder outline members') =
      (partOrder.takeWhile (· ≠ name)).flatMap (defectsUnder outline members) :=
    List.flatMap_congr fun earlier hearlier => by
      rw [defectsUnder, defectsUnder, hbefore earlier hearlier]
  rw [hcut, List.flatMap_append, List.flatMap_cons] at h ⊢
  rw [hsame]
  exact head?_append_congr h (hother _ hfront) (hother _ hbehind) hpart

/-- An object with an outline is not of a shape that no rule handles. -/
theorem not_unhandled_mem_object {outline : List (String × Category)}
    {members : List (String × Value)} {names : List String} {found : Shape} :
    .here (.unhandled found) ∉ names.flatMap (defectsUnder outline members) := by
  intro h
  obtain ⟨name, -, hpart⟩ := part?_of_mem_defectsUnder h
  cases hpart

/-- A shape that no rule handles has one defect, whatever is inside. -/
theorem defects_eq_of_shape_eq {c : Category} {v v' : Value} (hc : c ≠ .marker)
    (hshape : shape v' = shape v) (h : .here (.unhandled (shape v)) ∈ defects c v) :
    defects c v' = [.here (.unhandled (shape v))] := by
  cases v with
  | object members =>
    cases v' with
    | object members' =>
      -- the shape of an object is its keys
      have hkeys : Members.keys members' = Members.keys members := by simpa [shape] using hshape
      cases houtline : outlineOf? c members with
      | some outline =>
        rw [defects_object houtline hc] at h
        exact absurd h not_unhandled_mem_object
      | none =>
        have houtline' : outlineOf? c members' = none := by
          rw [← houtline, outlineOf?, outlineOf?, hkeys]
        simp [defects, hc, houtline', hkeys, shape]
    | _ => simp [shape] at hshape
  | array vs =>
    -- in the place of a node, an array has no defects but those of its items
    have hnode : c ≠ .node := by
      rintro rfl
      simp only [defects, if_true] at h
      obtain ⟨i, -, hpart⟩ := part?_of_mem_itemDefects h
      cases hpart
    cases v' <;> simp_all [shape, Value.kind, defects]
  | string s =>
    cases v' <;> cases c <;> simp_all [shape, Value.kind, defects]
  | null | bool | number =>
    cases v' <;> simp_all [shape, Value.kind, defects]

/-- The first defect stays the first one below a step. -/
theorem head?_map_below {ds : List Defect} {d : Defect} {step : Step} :
    (ds.map (Defect.below step)).head? = some (d.below step) ↔ ds.head? = some d := by
  have hinj : Function.Injective (Defect.below step) := by
    rintro ⟨path, fault⟩ ⟨path', fault'⟩ h
    simpa [Defect.below] using h
  rw [List.head?_map, ← Option.map_some, (Option.map_injective hinj).eq_iff]

/-- **The first defect stays the first if only parts behind it change.** -/
theorem ChangedBehind.head?_defects {c : Category} {d : Defect} {v v' : Value}
    (hchange : ChangedBehind c d v v') (h : (defects c v).head? = some d) :
    (defects c v').head? = some d := by
  -- on the place of the defect: inside a part, the first defect is that of the part
  induction hchange with
  | refl => exact h
  | inside hc hshape =>
    rw [defects_eq_of_shape_eq hc hshape (List.mem_of_head? h)]
    rfl
  | @item d v v' front behind behind' _ ih =>
    simp only [defects, if_true, itemDefects_append, itemDefects, Nat.zero_add] at h ⊢
    -- a defect in front of the item or behind it would name another position
    refine head?_append_congr h (fun hd => ?_) (fun hd => ?_) fun hhead =>
      head?_map_below.mpr (ih (head?_map_below.mp hhead))
    · obtain ⟨i, hlt, hi⟩ := part?_of_mem_itemDefects hd
      simp only [Defect.below, Defect.part?, Option.some.injEq, Step.index.injEq] at hi
      omega
    · obtain ⟨i, hlt, hi⟩ := part?_of_mem_itemDefects hd
      simp only [Defect.below, Defect.part?, Option.some.injEq, Step.index.injEq] at hi
      omega
  | part houtline hkeys hbefore hpart hinner hv hv' _ ih =>
    have hmem := (outlineOf?_eq_some houtline).1
    refine head?_defects_object houtline (ne_marker _ hmem _ hpart hinner) hkeys rfl hbefore ?_ h
    have hget := get?_of_mem_shapes _ hmem _ hpart
    simp only [defectsUnder, hget, hv, hv', partDefects_of_mem_places hinner]
    exact fun hhead => head?_map_below.mpr (ih (head?_map_below.mp hhead))
  | text hc houtline hkeys hbefore hsame =>
    -- the attribute itself stays as it is
    refine head?_defects_object houtline hc hkeys rfl hbefore (fun hhead => ?_) h
    rwa [defectsUnder, hsame]
where
  ne_marker {c : Category} : ∀ outline ∈ shapes c, ∀ m ∈ outline, m.2 ∈ places → c ≠ .marker := by
    cases c with
    | marker => decide
    | _ =>
      rintro _ - _ - -
      simp

/-! ## §4 The reported error -/

/-- What the reader says of a value that may have many defects. -/
structure ReportsFirst (v : Value) : Prop where
  /-- The error is that of the first defect. -/
  rejects : ∀ e, Node.ofRead (.ok v) = .error e ↔
    ((defects .node v).map Defect.toError).head? = some e
  accepts : (∃ n, Node.ofRead (.ok v) = .ok n) ↔ defects .node v = []
  /-- No defect is missing from the list, and nothing else is in it. -/
  collects : v.Sorted → ∀ d, d ∈ defects .node v ↔ Defective .node v d
  /-- A value that is changed behind its first defect is rejected as before. -/
  unmoved : ∀ d v', (defects .node v).head? = some d → ChangedBehind .node d v v' →
    Node.ofRead (.ok v) = .error d.toError ∧ Node.ofRead (.ok v') = .error d.toError

/-- The error of the library is that of the first defect. -/
theorem ofRead_eq_error_iff {v : Value} {e : Error} :
    Node.ofRead (.ok v) = .error e ↔ ((defects .node v).map Defect.toError).head? = some e := by
  have hreports : Reports (Node.ofTree v) (defects .node v) := reports_ofTree v
  rw [List.head?_map, Option.map_eq_some_iff, Node.ofRead, mapError_eq_error]
  simp only [hreports.error_iff]

/-- The library reads just the values without defects. -/
theorem ofRead_eq_ok_iff {v : Value} :
    (∃ n, Node.ofRead (.ok v) = .ok n) ↔ defects .node v = [] := by
  have hreports : Reports (Node.ofTree v) (defects .node v) := reports_ofTree v
  rw [← hreports.ok_iff]
  simp only [Node.ofRead, mapError_eq_ok]

end Tree

open CanonicalQuery.Tree

/-- **The reader reports the first of all defects**, in a fixed order, and what comes behind it is
of no account. -/
theorem Node.ofRead_reports_first (v : Value) : ReportsFirst v where
  rejects _ := ofRead_eq_error_iff
  accepts := ofRead_eq_ok_iff
  collects := mem_defects_iff v (by decide)
  unmoved _ _ hfirst hchange := by
    have hfirst' := hchange.head?_defects hfirst
    exact ⟨ofRead_eq_error_iff.mpr (by simp [List.head?_map, hfirst]),
      ofRead_eq_error_iff.mpr (by simp [List.head?_map, hfirst'])⟩

/-- A boost and the marker behind it are wrong, and the operand of the marker too.  Without the last
item the reader says the same. -/
theorem Node.ofRead_reports_first_of_three :
    let boosted : Value := .object [("boost", .number "2"), ("term", .string "a")]
    let marked : Value := .object [("operand", .null), ("unary_operator", .string "?")]
    let v : Value := .array [boosted, marked]
    (defects .node v).length = 3 ∧
    Node.ofRead (.ok v) =
      .error (.invalidAttribute "$[0]" "boost" "expected a string, found number") ∧
    Node.ofRead (.ok (.array [boosted])) = Node.ofRead (.ok v) := by
  intro boosted marked v
  let d : Defect := (Defect.here (.notText "boost" .number)).below (.index 0)
  -- what stands behind the first defect is taken away
  have hchange : ChangedBehind .node d v (.array [boosted]) :=
    .item [] [marked] [] (.refl .node (.here (.notText "boost" .number)) boosted)
  obtain ⟨hread, hread'⟩ := (Node.ofRead_reports_first v).unmoved d _ rfl hchange
  exact ⟨rfl, hread, hread'.trans hread.symm⟩

/-- A marker with one entry that is no text is an attribute of the wrong form, whatever its key.  So
the shape of the marker, which no rule handles, is not reported. -/
theorem Node.ofRead_names_entry_of_marker :
    let marker : Value := .object [("foo", .number "5")]
    let v : Value := .object [("operand", .string "a"), ("unary_operator", marker)]
    v.Sorted ∧ ¬Category.Fits .marker marker ∧
    (∀ name symbol, marker ≠ .object [(name, .string symbol)]) ∧
    Node.ofRead (.ok v) =
      .error (.invalidAttribute "$.unary_operator" "foo" "expected a string, found number") ∧
    Node.ofRead (.ok v) ≠ .error (.unhandledShape "$.unary_operator" (shape marker).text) := by
  intro marker v
  have hread : Node.ofRead (.ok v) =
      .error (.invalidAttribute "$.unary_operator" "foo" "expected a string, found number") := rfl
  have hmarker : marker.Sorted := Value.sorted_single.mpr trivial
  have hsorted : v.Sorted := (Value.sorted_pair (by decide)).mpr ⟨trivial, hmarker⟩
  -- the shape has no rule, and still the entry is what is reported
  refine ⟨hsorted, mt fits_marker_single.mp (by decide), by simp [marker], hread, ?_⟩
  rw [hread]
  simp

end CanonicalQuery
