import CanonicalQuery.Proofs.Query.Contexts
import CanonicalQuery.Proofs.Query.Preorder
import CanonicalQuery.Proofs.Text.Brackets

/-!
# Brackets of a query text

A query text holds brackets of three kinds, around groups and around ranges of either kind, and the
quotes of phrases.  If no text of the tree holds such a character, all of them are written by the
syntax.  Then the brackets match and nest, no bracket stands between the quotes of a phrase, and the
characters tell how many nodes of each kind there are and how deep groups nest.

The delimiters that a tree writes are built like the tree, so they nest; and they are the delimiters
of its text.

## Main definitions

- `Node.frame`: the delimiters that a tree writes.
- `Node.groupDepth`: how deep the groups of a tree nest.
- `Node.Undelimited`: no text of the tree holds a delimiter.
- `Node.WellBracketed`: what the brackets and quotes of a query text are like.

## Main statements

- `Node.nested_frame`: the delimiters of a tree nest as deep as its groups.
- `Node.frameOf_query`: they are the delimiters of its text.
- `Node.query_wellBracketed`: so the text is well bracketed.
-/

namespace CanonicalQuery

/-! ## §1 The delimiters of a tree -/

/-- The brackets around a range. -/
def Bounds.bracket : Bounds → Bracket
  | .inclusive => .square
  | .exclusive => .curly

namespace Node

/-- The delimiters that a tree writes, in their order. -/
def frame : Node → List Char
  | .term _ => []
  | .phrase _ => ['"', '"']
  | .group inner => '(' :: (inner.frame ++ [')'])
  | .unary _ operand => operand.frame
  | .field _ operand => operand.frame
  | .range _ bounds _ => [bounds.bracket.opening, bounds.bracket.closing]
  | .sequence items => framesOf items
where
  framesOf : List Node → List Char
    | [] => []
    | n :: ns => n.frame ++ framesOf ns

/-- How deep the groups of a tree nest. -/
def groupDepth : Node → Nat
  | .term _ => 0
  | .phrase _ => 0
  | .group inner => inner.groupDepth + 1
  | .unary _ operand => operand.groupDepth
  | .field _ operand => operand.groupDepth
  | .range _ _ _ => 0
  | .sequence items => groupDepthOf items
where
  groupDepthOf : List Node → Nat
    | [] => 0
    | n :: ns => max n.groupDepth (groupDepthOf ns)

mutual

/-- The delimiters of a tree nest as deep as its groups. -/
theorem nested_frame : ∀ n : Node, Nested n.frame n.groupDepth
  | .term _ => .nil
  | .phrase _ => .quotes
  | .group inner => .enclose .round (nested_frame inner)
  | .unary _ operand | .field _ operand => nested_frame operand
  | .range _ .inclusive _ => .enclose .square .nil
  | .range _ .exclusive _ => .enclose .curly .nil
  | .sequence items => nested_framesOf items

theorem nested_framesOf : ∀ ns : List Node, Nested (frame.framesOf ns) (groupDepth.groupDepthOf ns)
  | [] => .nil
  | n :: ns => .append (nested_frame n) (nested_framesOf ns)

end

/-- The delimiters that a node writes itself. -/
def ownFrame : Node → List Char
  | .phrase _ => ['"', '"']
  | .group _ => ['(', ')']
  | .range _ bounds _ => [bounds.bracket.opening, bounds.bracket.closing]
  | _ => []

mutual

/-- The delimiters of a tree are those of its nodes. -/
theorem frame_perm : ∀ n : Node, n.frame.Perm (n.subtrees.flatMap ownFrame)
  | .term _ | .phrase _ | .range _ _ _ => by simp [frame, subtrees, ownFrame]
  | .group inner =>
    -- the closing parenthesis is the second one that the group writes
    have hback : (inner.frame ++ [')']).Perm ([')'] ++ inner.subtrees.flatMap ownFrame) :=
      List.perm_append_comm.trans ((frame_perm inner).append_left [')'])
    hback.cons '('
  | .unary _ operand | .field _ operand => frame_perm operand
  | .sequence items => framesOf_perm items

theorem framesOf_perm : ∀ ns : List Node,
    (frame.framesOf ns).Perm ((subtrees.subtreesOfAll ns).flatMap ownFrame)
  | [] => .nil
  | n :: ns => by
    rw [frame.framesOf, subtrees.subtreesOfAll, List.flatMap_append]
    exact (frame_perm n).append (framesOf_perm ns)

end

theorem count_quote_ownFrame (n : Node) :
    n.ownFrame.count '"' = if n.IsPhrase then 2 else 0 := by
  cases n with
  | range name bounds ends => cases bounds <;> rfl
  | _ => rfl

theorem count_parenthesis_ownFrame (n : Node) :
    n.ownFrame.count '(' = if n.IsGroup then 1 else 0 := by
  cases n with
  | range name bounds ends => cases bounds <;> rfl
  | _ => rfl

theorem count_bracket_ownFrame (bounds : Bounds) (n : Node) :
    n.ownFrame.count bounds.bracket.opening = if n.IsRange bounds then 1 else 0 := by
  cases n with
  | range name bounds' ends => cases bounds <;> cases bounds' <;> rfl
  | _ => cases bounds <;> rfl

/-- A delimiter occurs as often as the nodes that write it, times what each of them writes. -/
theorem count_frame {c : Char} {times : Nat} {writes : Node → Bool}
    (h : ∀ n, (ownFrame n).count c = if writes n then times else 0) (n : Node) :
    n.frame.count c = times * n.subtrees.countP writes := by
  -- count node by node, in any order
  rw [n.frame_perm.count_eq, List.count_flatMap]
  induction n.subtrees with
  | nil => rfl
  | cons m ms ih =>
    rw [List.map_cons, List.sum_cons, ih, Function.comp_apply, h, List.countP_cons]
    split
    · rw [Nat.mul_add, Nat.mul_one, Nat.add_comm]
    · rw [Nat.zero_add, Nat.add_zero]

end Node

/-! ## §2 Texts without delimiters -/

/-- The delimiters of a text. -/
def frameOf (text : String) : List Char :=
  text.toList.filter (· ∈ delimiters)

/-- The delimiters of two texts side by side stand side by side. -/
theorem frameOf_append (text text' : String) :
    frameOf (text ++ text') = frameOf text ++ frameOf text' := by
  rw [frameOf, String.toList_append, List.filter_append]
  rfl

/-- The text holds no delimiter. -/
def FreeOfDelimiters (text : String) : Prop :=
  ∀ c ∈ text.toList, c ∉ delimiters

instance (text : String) : Decidable (FreeOfDelimiters text) :=
  List.decidableBAll (· ∉ delimiters) text.toList

theorem FreeOfDelimiters.frameOf {text : String} (h : FreeOfDelimiters text) :
    frameOf text = [] := by
  refine List.filter_eq_nil_iff.mpr fun c hc => ?_
  simpa using h c hc

/-- None of the texts of a tree holds a delimiter. -/
def Node.Undelimited (n : Node) : Prop :=
  ∀ t ∈ n.texts, FreeOfDelimiters t.2

instance (n : Node) : Decidable n.Undelimited :=
  List.decidableBAll (fun t : Role × String => FreeOfDelimiters t.2) n.texts

theorem Operator.frameOf_symbol (o : Operator) : frameOf o.symbol = [] := by
  cases o <;> rfl

/-- Terms write no delimiters. -/
theorem Term.frameOf_query {t : Term} (h : ∀ text ∈ t.texts, FreeOfDelimiters text.2) :
    frameOf t.query = [] := by
  obtain ⟨value, modifier⟩ := t
  obtain ⟨hvalue, hmodifier⟩ := List.forall_mem_cons.mp h
  rw [Term.query, frameOf_append, hvalue.frameOf]
  cases modifier with
  | none => rfl
  | some m =>
    have hheld := (hmodifier m.held List.mem_cons_self).frameOf
    cases m <;> exact (frameOf_append _ _).trans hheld

/-- Phrases write their quotes. -/
theorem Phrase.frameOf_query {p : Phrase} (h : ∀ text ∈ p.texts, FreeOfDelimiters text.2) :
    frameOf p.query = ['"', '"'] := by
  obtain ⟨value, modifier⟩ := p
  obtain ⟨hvalue, hmodifier⟩ := List.forall_mem_cons.mp h
  rw [Phrase.query, frameOf_append, frameOf_append, frameOf_append, hvalue.frameOf]
  cases modifier with
  | none => rfl
  | some m =>
    have hheld := (hmodifier m.held List.mem_cons_self).frameOf
    cases m <;> exact congrArg (['"', '"'] ++ ·) ((frameOf_append _ _).trans hheld)

/-- Ranges write the brackets of their kind. -/
theorem Range.frameOf_query {r : Range} (bounds : Bounds)
    (h : ∀ text ∈ r.texts, FreeOfDelimiters text.2) :
    frameOf (bounds.enclose r.query) = [bounds.bracket.opening, bounds.bracket.closing] := by
  have hlower : frameOf r.lower = [] := (h (.endpoint, r.lower) (by simp [Range.texts])).frameOf
  have hupper : frameOf r.upper = [] := (h (.endpoint, r.upper) (by simp [Range.texts])).frameOf
  -- the word between the ends is no delimiter
  have hends : frameOf r.query = [] := by
    rw [Range.query, frameOf_append, frameOf_append, hlower, hupper]
    rfl
  cases bounds with
  | inclusive =>
    rw [Bounds.enclose, frameOf_append, frameOf_append, hends]
    rfl
  | exclusive =>
    rw [Bounds.enclose, frameOf_append, frameOf_append, hends]
    rfl

/-- The name of a field and its colon hold no delimiters. -/
theorem frameOf_name {name : String} (h : FreeOfDelimiters name) (text : String) :
    frameOf (name ++ ":" ++ text) = frameOf text := by
  rw [frameOf_append, frameOf_append, h.frameOf]
  rfl

mutual

/-- The delimiters of a query text are those that its tree writes. -/
theorem Node.frameOf_query : ∀ n : Node, n.Undelimited → frameOf n.query = n.frame
  | .term _, h => Term.frameOf_query h
  | .phrase _, h => Phrase.frameOf_query h
  -- only parentheses and the brackets of a range are written by the tree itself
  | .group inner, h => by
    rw [query, frameOf_append, frameOf_append, inner.frameOf_query h]
    rfl
  | .unary operator operand, h => by
    rw [query, frameOf_append, operator.frameOf_symbol, operand.frameOf_query h]
    rfl
  | .field name operand, h => by
    obtain ⟨hname, hoperand⟩ := List.forall_mem_cons.mp h
    rw [query, frameOf_name hname, operand.frameOf_query hoperand]
    rfl
  | .range name bounds ends, h => by
    obtain ⟨hname, hends⟩ := List.forall_mem_cons.mp h
    rw [query, frameOf_name hname, Range.frameOf_query bounds hends]
    rfl
  | .sequence [], _ => rfl
  | .sequence (n :: ns), h => by
    obtain ⟨hn, hns⟩ := List.forall_mem_append.mp h
    -- the first item has no separator before it, and the others are left to the companion
    rw [query, query.queryList, intercalate_cons_eq_append, frameOf_append, n.frameOf_query hn,
      Node.frameOf_queriesBehind ns hns]
    rfl

/-- The separators before the other items of a sequence are no delimiters. -/
theorem Node.frameOf_queriesBehind : ∀ ns : List Node,
    (∀ t ∈ Node.texts.textsOfAll ns, FreeOfDelimiters t.2) →
    frameOf (String.join ((Node.query.queryList ns).map (" " ++ ·))) = Node.frame.framesOf ns
  | [], _ => rfl
  | n :: ns, h => by
    obtain ⟨hn, hns⟩ := List.forall_mem_append.mp h
    rw [query.queryList, List.map_cons, String.join_cons, frameOf_append, frameOf_append,
      n.frameOf_query hn, Node.frameOf_queriesBehind ns hns]
    rfl

end

/-! ## §3 Well-bracketed texts -/

open Node (Layer Context)

/-- What one layer writes in front holds its quotes in pairs. -/
theorem Node.Layer.even_quotes {l : Layer} {n : Node} (h : (l.fill n).Undelimited) :
    Even ((frameOf l.front).count '"') := by
  cases l with
  | group => exact Even.zero
  | unary operator =>
    rw [Node.Layer.front, operator.frameOf_symbol]
    exact Even.zero
  | field name =>
    obtain ⟨hname, -⟩ := List.forall_mem_cons.mp h
    have hfront : frameOf (name ++ ":") = [] := by
      rw [frameOf_append, hname.frameOf]
      rfl
    rw [Node.Layer.front, hfront]
    exact Even.zero
  | item earlier later =>
    rw [Node.Layer.front]
    induction earlier with
    | nil => exact Even.zero
    | cons m ms ih =>
      obtain ⟨hm, hms⟩ := List.forall_mem_append.mp h
      -- the items in front are whole trees
      have heven : Even (m.frame.count '"') := m.nested_frame.quotesApart.even
      rw [List.map_cons, String.join_cons, frameOf_append, frameOf_append, m.frameOf_query hm,
        List.count_append, List.count_append]
      exact (heven.add Even.zero).add (ih hms)

/-- The quotes in front of a part of a tree come in pairs. -/
theorem Node.Context.even_quotes (C : Context) {n : Node} (h : (C.fill n).Undelimited) :
    Even (C.front.toList.count '"') := by
  have hquote : C.front.toList.count '"' = (frameOf C.front).count '"' :=
    (List.count_filter (by decide)).symm
  rw [hquote]
  clear hquote
  induction C with
  | nil => exact Even.zero
  | cons l C ih =>
    -- what is not in the texts of the whole is not in those of the part
    have hrest : (Context.fill C n).Undelimited := fun t ht => h t (Layer.mem_texts_fill ht)
    rw [Node.Context.front, frameOf_append, List.count_append]
    exact (Layer.even_quotes h).add (ih hrest)

/-- How the brackets and quotes of a query text stand. -/
structure Node.WellBracketed (n : Node) : Prop where
  /-- Every closing bracket matches the bracket that was opened last, and none is left open. -/
  matched : openBehind [] n.query.toList = some []
  /-- Nowhere were more brackets of a kind closed than opened. -/
  opened : ∀ front, front <+: n.query.toList →
    ∀ b : Bracket, front.count b.closing ≤ front.count b.opening
  quotes : n.query.toList.count '"' = 2 * n.subtrees.countP IsPhrase
  /-- The quotes of a phrase are a pair: with no bracket between them, and pairs before them. -/
  phrases : ∀ (C : Context) (p : Phrase), n = Context.fill C (.phrase p) →
    (∃ back, n.query = Context.front C ++ "\"" ++ p.value ++ "\"" ++ back) ∧
      Even ((Context.front C).toList.count '"') ∧ ∀ c ∈ p.value.toList, c ∉ delimiters
  /-- Every bracket stands behind pairs of quotes. -/
  outside : ∀ front c back, n.query.toList = front ++ c :: back → c ∈ brackets →
    Even (front.count '"')
  groups : n.query.toList.count '(' = n.subtrees.countP IsGroup
  inclusive : n.query.toList.count '[' = n.subtrees.countP (IsRange .inclusive)
  exclusive : n.query.toList.count '\x7b' = n.subtrees.countP (IsRange .exclusive)
  /-- Parentheses nest as deep as groups. -/
  deepest : Deepest n.query.toList n.groupDepth

/-- **Query texts are well bracketed** if no text of the tree holds a bracket or a quote. -/
theorem Node.query_wellBracketed (n : Node) (h : n.Undelimited) : n.WellBracketed := by
  -- only the delimiters of the text matter, and they are the frame of the tree
  have hframe : n.query.toList.filter (· ∈ delimiters) = n.frame := n.frameOf_query h
  have hmatched : openBehind [] n.query.toList = some [] := by
    rw [← openBehind_filter, hframe]
    exact n.nested_frame.openBehind []
  have hquotes : QuotesApart n.query.toList := .of_filter (hframe ▸ n.nested_frame.quotesApart)
  have hwritten {c : Char} (hc : c ∈ delimiters) {times : Nat} {writes : Node → Bool}
      (hown : ∀ m, (ownFrame m).count c = if writes m then times else 0) :
      n.query.toList.count c = times * n.subtrees.countP writes := by
    rw [← count_delimiters hc, hframe]
    exact Node.count_frame hown n
  constructor
  case matched => exact hmatched
  case opened =>
    rintro front ⟨back, htext⟩ b
    rw [← htext, openBehind_append] at hmatched
    obtain ⟨stack, hfront, -⟩ := Option.bind_eq_some_iff.mp hmatched
    -- what is opened in front is closed there or still on the stack
    have hcount := count_openBehind hfront b
    simp only [List.count_nil] at hcount
    omega
  case quotes => exact hwritten (by decide) count_quote_ownFrame
  case phrases =>
    rintro C p rfl
    -- in front of the phrase stands what its context writes, with all quotes in pairs
    have hvalue : FreeOfDelimiters p.value :=
      h (.quoted, p.value) (C.mem_texts_fill List.mem_cons_self)
    refine ⟨⟨(p.modifier.map PhraseModifier.query).getD "" ++ C.back, ?_⟩,
      Context.even_quotes C h, hvalue⟩
    rw [C.query_fill, Node.query, Phrase.query]
    simp only [String.append_assoc]
  case outside => exact hquotes.outside
  case groups =>
    rw [hwritten (by decide) count_parenthesis_ownFrame, Nat.one_mul]
  case inclusive =>
    have hcount := hwritten (by decide) (count_bracket_ownFrame .inclusive)
    rwa [Nat.one_mul] at hcount
  case exclusive =>
    have hcount := hwritten (by decide) (count_bracket_ownFrame .exclusive)
    rwa [Nat.one_mul] at hcount
  case deepest => exact .of_filter (hframe ▸ n.nested_frame.deepest)

/-- Groups within groups, with quotes and both kinds of ranges. -/
theorem Node.query_wellBracketed_of_nested_groups :
    (Node.sequence [.group (.sequence [.phrase ⟨"a b", some (.boost "2")⟩, .group (.word "c")]),
        .unary .prohibited (.range "year" .inclusive ⟨"1990", "1999"⟩),
        .range "day" .exclusive ⟨"*", "10"⟩]).query =
      "(\"a b\"^2 (c)) -year:[1990 TO 1999] day:\x7b* TO 10\x7d" ∧
    (Node.sequence [.group (.sequence [.phrase ⟨"a b", some (.boost "2")⟩, .group (.word "c")]),
        .unary .prohibited (.range "year" .inclusive ⟨"1990", "1999"⟩),
        .range "day" .exclusive ⟨"*", "10"⟩]).WellBracketed :=
  ⟨by decide, Node.query_wellBracketed _ (by decide)⟩

end CanonicalQuery
