import CanonicalQuery.Proofs.Json.Members
import CanonicalQuery.Proofs.Steps
import CanonicalQuery.Tree.Reading

/-!
# What attribute trees denote

The relation between attribute trees and the query trees that they denote, one rule for each shape
of an object.  It leaves out in which order the parts of a node are read and what is wrong with a
value that denotes nothing; what an attribute tree means is all that is left.

`ofTree_eq_ok_iff` says that the reader of attribute trees finds a query tree exactly if the value
denotes it.  What follows of accepted attribute trees is proved by induction on the relation.

## Main definitions

- `Marks`, `Degree`: what a marker and a degree of similarity denote.
- `Denotes`, `DenotesAll`: what an attribute tree and the items of an array denote.
-/

namespace CanonicalQuery.Tree

open CanonicalQuery.Json

/-! ## §1 The rules -/

/-- The operator that a marker denotes. -/
inductive Marks : Value → Operator → Prop where
  | symbol (o : Operator) : Marks (.string o.symbol) o
  /-- A symbol under the name that holds for both operators. -/
  | common (o : Operator) : Marks (.object [("unary_operator", .string o.symbol)]) o
  | named (o : Operator) : Marks (.object [(o.name, .string o.symbol)]) o

/-- The degree of similarity that a value denotes. -/
inductive Degree : Value → String → Prop where
  | given (degree : String) : Degree (.string degree) degree
  /-- No degree is the empty one. -/
  | null : Degree .null ""

mutual

/-- The query tree that an attribute tree denotes. -/
inductive Denotes : Value → Node → Prop where
  | word (s : String) : Denotes (.string s) (.word s)
  | sequence {vs : List Value} {ns : List Node} :
      DenotesAll vs ns → Denotes (.array vs) (.sequence ns)
  | term (s : String) : Denotes (.object [("term", .string s)]) (.word s)
  | similarTerm {v : Value} {degree : String} (s : String) : Degree v degree →
      Denotes (.object [("similarity", v), ("term", .string s)])
        (.term ⟨s, some (.similarity degree)⟩)
  | boostedTerm (factor s : String) :
      Denotes (.object [("boost", .string factor), ("term", .string s)])
        (.term ⟨s, some (.boost factor)⟩)
  | phrase (s : String) : Denotes (.object [("phrase", .string s)]) (.phrase ⟨s, none⟩)
  | boostedPhrase (factor s : String) :
      Denotes (.object [("boost", .string factor), ("phrase", .string s)])
        (.phrase ⟨s, some (.boost factor)⟩)
  | distantPhrase (words s : String) :
      Denotes (.object [("distance", .string words), ("phrase", .string s)])
        (.phrase ⟨s, some (.distance words)⟩)
  | group {v : Value} {n : Node} : Denotes v n → Denotes (.object [("group", v)]) (.group n)
  | unary {m v : Value} {o : Operator} {n : Node} : Marks m o → Denotes v n →
      Denotes (.object [("operand", v), ("unary_operator", m)]) (.unary o n)
  /-- A bare operand is the node that it holds. -/
  | operand {v : Value} {n : Node} : Denotes v n → Denotes (.object [("operand", v)]) n
  | field {v : Value} {n : Node} (name : String) : Denotes v n →
      Denotes (.object [("field", .string name), ("operand", v)]) (.field name n)
  | inclusive (name lower upper : String) :
      Denotes
        (.object [("field", .string name),
          ("inclusive_range", .object [("from", .string lower), ("to", .string upper)])])
        (.range name .inclusive ⟨lower, upper⟩)
  | exclusive (name lower upper : String) :
      Denotes
        (.object [("exclusive_range", .object [("from", .string lower), ("to", .string upper)]),
          ("field", .string name)])
        (.range name .exclusive ⟨lower, upper⟩)

/-- The query trees that the items of an array denote. -/
inductive DenotesAll : List Value → List Node → Prop where
  | nil : DenotesAll [] []
  | cons {v : Value} {n : Node} {vs : List Value} {ns : List Node} :
      Denotes v n → DenotesAll vs ns → DenotesAll (v :: vs) (n :: ns)

end

/-! ## §2 What the readers of parts find -/

theorem below_eq_ok {α : Type} {step : Step} {x : Except Defect α} {a : α} :
    below step x = .ok a ↔ x = .ok a := by
  cases x with
  | error d => simp
  | ok b => simp

theorem readText_eq_ok {name : String} {v : Value} {s : String} :
    readText name v = .ok s ↔ v = .string s := by
  cases v <;> simp [readText]

theorem readSimilarity_eq_ok {v : Value} {degree : String} :
    readSimilarity v = .ok degree ↔ Degree v degree := by
  constructor
  · intro h
    cases v with
    | null => cases h; exact .null
    | string s => cases h; exact .given _
    | _ => simp [readSimilarity, readText] at h
  · intro h
    cases h with
    | given => rfl
    | null => rfl

theorem readSymbol_eq_ok {name symbol : String} {o : Operator} :
    readSymbol name symbol = .ok o ↔
      symbol = o.symbol ∧ (name = "unary_operator" ∨ name = o.name) := by
  unfold readSymbol
  cases hsymbol : Operator.ofSymbol? symbol with
  | none =>
    have hne : symbol ≠ o.symbol := by
      rintro rfl
      simp [Operator.ofSymbol?_symbol] at hsymbol
    simp [hne]
  | some p =>
    -- the symbol is that of `p`, so the name has to be common or the one of `p`
    obtain rfl := Operator.ofSymbol?_eq_some_iff.mp hsymbol
    have hop : p.symbol = o.symbol ↔ p = o := by cases p <;> cases o <;> decide
    rw [hop]
    constructor
    · intro h
      by_cases hname : name = "unary_operator" ∨ name = p.name
      · simp only [hname, if_true, Except.ok.injEq] at h
        exact ⟨h, h ▸ hname⟩
      · dsimp only at h
        split at h
        · contradiction
        · split at h <;> cases h
    · rintro ⟨rfl, hname⟩
      simp [hname]

theorem readMarker_eq_ok {v : Value} {o : Operator} : readMarker v = .ok o ↔ Marks v o := by
  constructor
  · intro h
    -- a bare symbol, an object with one member, and what is refused
    unfold readMarker at h
    split at h
    · obtain ⟨rfl, -⟩ := readSymbol_eq_ok.mp h
      exact .symbol o
    · obtain ⟨rfl, rfl | rfl⟩ := readSymbol_eq_ok.mp h
      · exact .common o
      · exact .named o
    · cases h
    · cases h
  · intro h
    cases h with
    | symbol => exact readSymbol_eq_ok.mpr ⟨rfl, Or.inl rfl⟩
    | common => exact readSymbol_eq_ok.mpr ⟨rfl, Or.inl rfl⟩
    | named => exact readSymbol_eq_ok.mpr ⟨rfl, Or.inr rfl⟩

theorem readRange_eq_ok {v : Value} {r : Range} :
    readRange v = .ok r ↔ v = .object [("from", .string r.lower), ("to", .string r.upper)] := by
  constructor
  · intro h
    unfold readRange at h
    split at h
    · simp only [bind_eq_ok, readText_eq_ok] at h
      obtain ⟨lower, rfl, upper, rfl, hr⟩ := h
      cases hr
      rfl
    · cases h
  · rintro rfl
    rfl

/-! ## §3 What the reader finds -/

mutual

/-- The reader finds what an attribute tree denotes. -/
theorem ofTree_of_denotes : ∀ {v : Value} {n : Node}, Denotes v n → ofTree v = .ok n
  | _, _, .word s => by rw [ofTree]
  | _, _, .sequence h => by rw [ofTree, ofTrees_of_denotesAll 0 h]; rfl
  | _, _, .term s => by rw [ofTree]; rfl
  | _, _, .similarTerm s h => by rw [ofTree, readSimilarity_eq_ok.mpr h]; rfl
  | _, _, .boostedTerm factor s => by rw [ofTree]; rfl
  | _, _, .phrase s => by rw [ofTree]; rfl
  | _, _, .boostedPhrase factor s => by rw [ofTree]; rfl
  | _, _, .distantPhrase words s => by rw [ofTree]; rfl
  | _, _, .group h => by rw [ofTree, ofTree_of_denotes h]; rfl
  | _, _, .unary hm h => by rw [ofTree, readMarker_eq_ok.mpr hm, ofTree_of_denotes h]; rfl
  | _, _, .operand h => by rw [ofTree, ofTree_of_denotes h]; rfl
  | _, _, .field name h => by rw [ofTree, ofTree_of_denotes h]; rfl
  | _, _, .inclusive name lower upper => by rw [ofTree]; rfl
  | _, _, .exclusive name lower upper => by rw [ofTree]; rfl

theorem ofTrees_of_denotesAll : ∀ {vs : List Value} {ns : List Node} (position : Nat),
    DenotesAll vs ns → ofTrees position vs = .ok ns
  | _, _, _, .nil => rfl
  | _, _, position, .cons h hs => by
    rw [ofTrees, ofTree_of_denotes h, ofTrees_of_denotesAll (position + 1) hs]
    rfl

end

theorem denotes_of_ofTree {v : Value} {n : Node} (h : ofTree v = .ok n) : Denotes v n := by
  induction v using Tree.ofTree.induct _
    (fun position vs => ∀ ns, ofTrees position vs = .ok ns → DenotesAll vs ns) generalizing n with
  | case1 s =>
    cases h
    exact .word s
  | case2 items ih =>
    simp only [ofTree, bind_eq_ok, pure_eq_ok] at h
    obtain ⟨ns, hitems, rfl⟩ := h
    exact .sequence (ih ns hitems)
  | case3 value =>
    simp only [ofTree, bind_eq_ok, pure_eq_ok, readText_eq_ok] at h
    obtain ⟨s, rfl, rfl⟩ := h
    exact .term s
  | case4 degree value =>
    simp only [ofTree, bind_eq_ok, pure_eq_ok, readText_eq_ok, readSimilarity_eq_ok] at h
    obtain ⟨d, hdegree, s, rfl, rfl⟩ := h
    exact .similarTerm s hdegree
  | case5 factor value =>
    simp only [ofTree, bind_eq_ok, pure_eq_ok, readText_eq_ok] at h
    obtain ⟨s, rfl, f, rfl, rfl⟩ := h
    exact .boostedTerm f s
  | case6 value =>
    simp only [ofTree, bind_eq_ok, pure_eq_ok, readText_eq_ok] at h
    obtain ⟨s, rfl, rfl⟩ := h
    exact .phrase s
  | case7 factor value =>
    simp only [ofTree, bind_eq_ok, pure_eq_ok, readText_eq_ok] at h
    obtain ⟨s, rfl, f, rfl, rfl⟩ := h
    exact .boostedPhrase f s
  | case8 words value =>
    simp only [ofTree, bind_eq_ok, pure_eq_ok, readText_eq_ok] at h
    obtain ⟨s, rfl, w, rfl, rfl⟩ := h
    exact .distantPhrase w s
  | case9 inner ih =>
    simp only [ofTree, bind_eq_ok, pure_eq_ok, below_eq_ok] at h
    obtain ⟨m, hinner, rfl⟩ := h
    exact .group (ih hinner)
  | case10 operand marker ih =>
    simp only [ofTree, bind_eq_ok, pure_eq_ok, below_eq_ok, readMarker_eq_ok] at h
    obtain ⟨o, hmarker, m, hoperand, rfl⟩ := h
    exact .unary hmarker (ih hoperand)
  | case11 operand ih =>
    rw [ofTree, below_eq_ok] at h
    exact .operand (ih h)
  | case12 name operand ih =>
    simp only [ofTree, bind_eq_ok, pure_eq_ok, below_eq_ok, readText_eq_ok] at h
    obtain ⟨f, rfl, m, hoperand, rfl⟩ := h
    exact .field f (ih hoperand)
  | case13 name ends =>
    simp only [ofTree, bind_eq_ok, pure_eq_ok, below_eq_ok, readText_eq_ok, readRange_eq_ok] at h
    obtain ⟨f, rfl, r, rfl, rfl⟩ := h
    exact .inclusive f r.lower r.upper
  | case14 ends name =>
    simp only [ofTree, bind_eq_ok, pure_eq_ok, below_eq_ok, readText_eq_ok, readRange_eq_ok] at h
    obtain ⟨f, rfl, r, rfl, rfl⟩ := h
    exact .exclusive f r.lower r.upper
  | case15 v =>
    -- no other shape is read
    simp_all [ofTree]
  | case16 position ns h =>
    cases h
    exact .nil
  | case17 position v rest ih ihs ns h =>
    simp only [ofTrees, bind_eq_ok, pure_eq_ok, below_eq_ok] at h
    obtain ⟨m, hv, ms, hrest, rfl⟩ := h
    exact .cons (ih hv) (ihs ms hrest)

/-- The reader finds exactly what an attribute tree denotes. -/
theorem ofTree_eq_ok_iff {v : Value} {n : Node} : ofTree v = .ok n ↔ Denotes v n :=
  ⟨denotes_of_ofTree, ofTree_of_denotes⟩

/-! ## §4 What denotes something is sorted -/

theorem sorted_string (s : String) : (Value.string s).Sorted := trivial

theorem Marks.sorted {m : Value} {o : Operator} (h : Marks m o) : m.Sorted := by
  cases h with
  | symbol => exact sorted_string _
  | common => exact Value.sorted_single.mpr (sorted_string _)
  | named => exact Value.sorted_single.mpr (sorted_string _)

theorem Degree.sorted {v : Value} {degree : String} (h : Degree v degree) : v.Sorted := by
  cases h <;> trivial

mutual

/-- The members of the objects of an attribute tree stand in the order of their keys. -/
theorem Denotes.sorted : ∀ {v : Value} {n : Node}, Denotes v n → v.Sorted
  | _, _, .word s => sorted_string s
  | _, _, .sequence h => h.sortedItems
  | _, _, .term s | _, _, .phrase s => Value.sorted_single.mpr (sorted_string s)
  | _, _, .similarTerm s h => (Value.sorted_pair (by decide)).mpr ⟨h.sorted, sorted_string s⟩
  | _, _, .boostedTerm t s | _, _, .boostedPhrase t s | _, _, .distantPhrase t s =>
    (Value.sorted_pair (by decide)).mpr ⟨sorted_string t, sorted_string s⟩
  | _, _, .group h | _, _, .operand h => Value.sorted_single.mpr h.sorted
  | _, _, .unary hm h => (Value.sorted_pair (by decide)).mpr ⟨h.sorted, hm.sorted⟩
  | _, _, .field name h => (Value.sorted_pair (by decide)).mpr ⟨sorted_string name, h.sorted⟩
  | _, _, .inclusive name lower upper =>
    (Value.sorted_pair (by decide)).mpr ⟨sorted_string name,
      (Value.sorted_pair (by decide)).mpr ⟨sorted_string lower, sorted_string upper⟩⟩
  | _, _, .exclusive name lower upper =>
    (Value.sorted_pair (by decide)).mpr
      ⟨(Value.sorted_pair (by decide)).mpr ⟨sorted_string lower, sorted_string upper⟩,
        sorted_string name⟩

theorem DenotesAll.sortedItems : ∀ {vs : List Value} {ns : List Node}, DenotesAll vs ns →
    Value.SortedItems vs
  | _, _, .nil => trivial
  | _, _, .cons h hs => ⟨h.sorted, hs.sortedItems⟩

end

end CanonicalQuery.Tree
