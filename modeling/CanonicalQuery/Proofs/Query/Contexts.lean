import CanonicalQuery.Proofs.Query.Plain

/-!
# Query trees with a hole

A context is a query tree with a hole in it.  Whatever is put into the hole, the text of the whole
is what the context writes in front, the text of what was put in, and what the context writes
behind: the text of a part is substituted as it is, and the separators beside the hole of a sequence
are there whether or not the hole is filled with something that has a text.

So the text of a tree is made of the texts that the tree holds, in the order of the tree, and of the
marks of the syntax around them.

## Main definitions

- `Node.Layer`, `Node.Context`: the layers around a hole.
- `Node.Context.fill`: the tree with something in its hole.
- `Node.Context.front`, `Node.Context.back`: what a context writes before and behind its hole.
- `InOrder`: some texts stand in a text one behind the other, with marks of the syntax around them.

## Main statements

- `Node.query_context_fill`: what the text of a filled context is.
-/

namespace CanonicalQuery

/-! ## §1 Contexts -/

namespace Node

/-- One layer of a query tree around a hole. -/
inductive Layer where
  | group
  | unary (operator : Operator)
  | field (name : String)
  /-- A sequence: the items in front of the hole and those behind it. -/
  | item (earlier later : List Node)
  deriving Repr

/-- The layers around a hole, the outermost first. -/
abbrev Context := List Layer

def Layer.fill : Layer → Node → Node
  | .group, n => .group n
  | .unary operator, n => .unary operator n
  | .field name, n => .field name n
  | .item earlier later, n => .sequence (earlier ++ n :: later)

/-- The tree that has something in place of the hole. -/
def Context.fill : Context → Node → Node
  | [], n => n
  | l :: C, n => l.fill (fill C n)

theorem Layer.mem_texts_fill {l : Layer} {n : Node} {t : Role × String} (h : t ∈ n.texts) :
    t ∈ (l.fill n).texts := by
  cases l with
  | group => exact h
  | unary operator => exact h
  | field name => exact List.mem_cons_of_mem _ h
  | item earlier later =>
    induction earlier with
    | nil => exact List.mem_append_left _ h
    | cons m ms ih => exact List.mem_append_right _ ih

/-- The whole tree holds the texts of what is in the hole. -/
theorem Context.mem_texts_fill (C : Context) {n : Node} {t : Role × String} (h : t ∈ n.texts) :
    t ∈ (C.fill n).texts := by
  induction C with
  | nil => exact h
  | cons l C ih => exact Layer.mem_texts_fill ih

/-! ## §2 What a context writes -/

/-- What a layer writes before its hole: of a sequence, the earlier items and a separator behind
each. -/
def Layer.front : Layer → String
  | .group => "("
  | .unary operator => operator.symbol
  | .field name => name ++ ":"
  | .item earlier _ => String.join (earlier.map fun n => n.query ++ " ")

/-- What a layer writes behind its hole: of a sequence, the later items and a separator before
each. -/
def Layer.back : Layer → String
  | .group => ")"
  | .unary _ | .field _ => ""
  | .item _ later => String.join (later.map fun n => " " ++ n.query)

def Context.front : Context → String
  | [] => ""
  | l :: C => l.front ++ front C

def Context.back : Context → String
  | [] => ""
  | l :: C => back C ++ l.back

theorem Layer.query_fill (l : Layer) (n : Node) :
    (l.fill n).query = l.front ++ n.query ++ l.back := by
  cases l with
  | group => rfl
  | unary operator => exact (String.append_empty).symm
  | field name => exact (String.append_empty).symm
  | item earlier later =>
    have hitems := intercalate_append_cons " " n.query (earlier.map query) (later.map query)
    rw [List.map_map, List.map_map] at hitems
    rw [Layer.fill, query_sequence, List.map_append, List.map_cons, hitems]
    rfl

/-- The text in the hole is written as it is. -/
theorem Context.query_fill (C : Context) (n : Node) :
    (C.fill n).query = C.front ++ n.query ++ C.back := by
  induction C with
  | nil => simp [fill, front, back]
  | cons l C ih =>
    rw [fill, Layer.query_fill, ih, front, back]
    simp only [String.append_assoc]

end Node

/-! ## §3 Texts in order -/

/-- The characters of the marks that the syntax puts around texts. -/
def marks : List Char :=
  reserved ++ ['+', '-', 'T', 'O']

/-- The text holds marks only; it may be empty. -/
def IsGap (text : String) : Prop :=
  ∀ c ∈ text.toList, c ∈ marks

instance (text : String) : Decidable (IsGap text) :=
  List.decidableBAll (· ∈ marks) text.toList

theorem IsGap.append {gap gap' : String} (h : IsGap gap) (h' : IsGap gap') :
    IsGap (gap ++ gap') := by
  rw [IsGap, String.toList_append]
  exact List.forall_mem_append.mpr ⟨h, h'⟩

/-- The texts stand in the whole one behind the other, and around them are marks only. -/
inductive InOrder : List String → String → Prop where
  | nil {gap : String} : IsGap gap → InOrder [] gap
  | cons {gap text rest : String} {texts : List String} : IsGap gap → InOrder texts rest →
      InOrder (text :: texts) (gap ++ text ++ rest)

theorem InOrder.single (text : String) : InOrder [text] text := by
  have h : InOrder [text] ("" ++ text ++ "") := .cons (by decide) (.nil (by decide))
  simpa using h

theorem InOrder.append {texts texts' : List String} {whole whole' : String}
    (h : InOrder texts whole) (h' : InOrder texts' whole') :
    InOrder (texts ++ texts') (whole ++ whole') := by
  induction h with
  | nil hgap =>
    -- the marks in front come before those in front of the first text
    cases h' with
    | nil hgap' => exact .nil (hgap.append hgap')
    | cons hgap' hrest =>
      rw [← String.append_assoc, ← String.append_assoc]
      exact .cons (hgap.append hgap') hrest
  | cons hgap _ ih =>
    rw [String.append_assoc]
    exact .cons hgap ih

/-- Marks may stand on either side. -/
theorem InOrder.between {before behind whole : String} {texts : List String}
    (hbefore : IsGap before) (h : InOrder texts whole) (hbehind : IsGap behind) :
    InOrder texts (before ++ whole ++ behind) := by
  have hall := ((InOrder.nil hbefore).append h).append (.nil hbehind)
  rwa [List.nil_append, List.append_nil] at hall

/-- A text behind others, with marks between. -/
theorem InOrder.beside {gap whole text : String} {texts : List String} (h : InOrder texts whole)
    (hgap : IsGap gap) : InOrder (texts ++ [text]) (whole ++ (gap ++ text)) := by
  have hall := h.append ((InOrder.nil hgap).append (.single text))
  rwa [List.nil_append] at hall

theorem InOrder.name {name whole : String} {texts : List String} (h : InOrder texts whole) :
    InOrder (name :: texts) (name ++ ":" ++ whole) := by
  rw [String.append_assoc]
  exact (InOrder.single name).append ((InOrder.nil (by decide)).append h)

theorem Term.inOrder (t : Term) : InOrder (t.texts.map Prod.snd) t.query := by
  obtain ⟨value, modifier⟩ := t
  rcases modifier with _ | (degree | factor)
  · simpa [Term.query, Term.texts] using InOrder.single value
  · exact (InOrder.single value).beside (by decide)
  · exact (InOrder.single value).beside (by decide)

theorem Phrase.inOrder (p : Phrase) : InOrder (p.texts.map Prod.snd) p.query := by
  obtain ⟨value, modifier⟩ := p
  have hquoted : InOrder [value] ("\"" ++ value ++ "\"") :=
    (InOrder.single value).between (by decide) (by decide)
  rcases modifier with _ | (factor | words)
  · simpa [Phrase.query, Phrase.texts] using hquoted
  · exact hquoted.beside (by decide)
  · exact hquoted.beside (by decide)

theorem Range.inOrder (r : Range) (bounds : Bounds) :
    InOrder (r.texts.map Prod.snd) (bounds.enclose r.query) := by
  have hends : InOrder [r.lower, r.upper] r.query := by
    rw [Range.query, String.append_assoc]
    exact (InOrder.single r.lower).beside (by decide)
  cases bounds with
  | inclusive => exact hends.between (by decide) (by decide)
  | exclusive => exact hends.between (by decide) (by decide)

mutual

/-- The text of a tree is made of the texts that it holds, in order. -/
theorem Node.inOrder : ∀ n : Node, InOrder (n.texts.map Prod.snd) n.query
  | .term t => t.inOrder
  | .phrase p => p.inOrder
  | .group inner => inner.inOrder.between (by decide) (by decide)
  | .unary operator operand => by
    have hsymbol : IsGap operator.symbol := by cases operator <;> decide
    exact (InOrder.nil hsymbol).append operand.inOrder
  | .field name operand => operand.inOrder.name
  | .range name bounds ends => (ends.inOrder bounds).name
  | .sequence [] => .nil (by decide)
  | .sequence (n :: ns) => by
    have hitems := n.inOrder.append (Node.inOrderBehind ns)
    rwa [← intercalate_cons_eq_append, ← List.map_append] at hitems

/-- The items behind the first one of a sequence, a separator before each. -/
theorem Node.inOrderBehind : ∀ ns : List Node,
    InOrder ((Node.texts.textsOfAll ns).map Prod.snd)
      (String.join ((Node.query.queryList ns).map (" " ++ ·)))
  | [] => .nil (by decide)
  | n :: ns => by
    have hitem : InOrder (n.texts.map Prod.snd) (" " ++ n.query) :=
      (InOrder.nil (by decide)).append n.inOrder
    rw [Node.texts.textsOfAll, List.map_append, Node.query.queryList, List.map_cons,
      String.join_cons]
    exact hitem.append (Node.inOrderBehind ns)

end

/-! ## §4 Substitution -/

/-- **The text of a tree is substituted into the text of its context.**  What is written around a
hole depends on the context only, so what is put into the hole counts by its text alone, and it
counts with no more and no less than that.  All texts that a tree holds are written as they are, in
the order of the tree. -/
theorem Node.query_context_fill (C : Node.Context) :
    (∀ n, (C.fill n).query = C.front ++ n.query ++ C.back) ∧
    (∀ n m, (C.fill n).query = (C.fill m).query ↔ n.query = m.query) ∧
    ∀ n, InOrder ((C.fill n).texts.map Prod.snd) (C.fill n).query := by
  refine ⟨C.query_fill, fun n m => ?_, fun n => (C.fill n).inOrder⟩
  rw [C.query_fill, C.query_fill, String.append_assoc, String.append_assoc,
    String.append_right_inj, String.append_left_inj]

/-- The hole stands behind an empty item, between separators. -/
example : Node.Context.front [.field "f", .group, .item [.sequence []] [.word "b"]] = "f:( " ∧
    Node.Context.back [.field "f", .group, .item [.sequence []] [.word "b"]] = " b)" := by
  decide

end CanonicalQuery
