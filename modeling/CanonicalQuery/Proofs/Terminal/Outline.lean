import CanonicalQuery.Proofs.Query.Preorder
import CanonicalQuery.Proofs.Terminal.Labels

/-!
# A listing determines its tree

A listing has one line for each node of a tree, in pre-order, and a line is indented by the level of
its node.  Behind the indentation stands the label of the node.

The labels in pre-order determine the tree, for a label tells how many parts its node has.  So no
two trees have the same listing, although they may have the same query.  Indentation is not needed
for this.

## Main definitions

- `Node.Legible`: the texts of a tree can be told apart in its listing.
- `Node.Outlined`: how a listing stands on its lines.

## Main statements

- `Node.listing_eq_map`: the lines of a listing are those of the nodes.
- `Node.eq_of_labels_append`: labels in pre-order tell the tree.
- `Node.outlined`, `Node.eq_of_listing_eq`: the lines of a listing, and what they determine.
-/

namespace CanonicalQuery

open CanonicalQuery.Terminal

/-! ## §1 The lines of a listing -/

@[simp] theorem text_colored (color : Color) (text : String) :
    (Piece.colored color text).text = text :=
  rfl

@[simp] theorem text_plain (text : String) : (Piece.plain text).text = text :=
  rfl

theorem writeLine_styled (style : Style) (text : String) :
    writeLine false [.styled style text] = text := by
  simp [writeLine, Piece.write, Piece.styled]

theorem writeLine_append (front back : Line) :
    writeLine false (front ++ back) = writeLine false front ++ writeLine false back := by
  rw [writeLine, List.map_append, String.join_append]
  rfl

/-- A line is its indentation, its name, and each detail behind a space. -/
theorem writeLine_nodeLine (depth : Nat) (name : String) (details : List Piece) :
    writeLine false (nodeLine depth name details) =
      (indentation depth).text ++ (name ++ String.join (details.map fun p => " " ++ p.text)) := by
  have hdetails : writeLine false (details.flatMap fun detail => [.plain " ", detail]) =
      String.join (details.map fun p => " " ++ p.text) := by
    induction details with
    | nil => rfl
    | cons detail details ih =>
      rw [List.flatMap_cons, writeLine_append, ih, List.map_cons, String.join_cons]
      simp [writeLine, Piece.write, Piece.plain]
  rw [nodeLine, writeLine, List.map_cons, List.map_cons, String.join_cons, String.join_cons,
    ← writeLine, hdetails]
  rfl

/-- The line of a node at some depth. -/
def Label.line (depth : Nat) : Label → Line
  | .term t =>
    nodeLine depth "term" [.colored .yellow t.value]
      ++ [.styled .dimmed (TermModifier.remark t.modifier)]
  | .phrase p =>
    nodeLine depth "phrase" [.colored .yellow (Text.Shown.write p.value)]
      ++ [.styled .dimmed (PhraseModifier.remark p.modifier)]
  | .group => nodeLine depth "group" []
  | .unary operator => nodeLine depth operator.name [.colored .white operator.symbol]
  | .field name => nodeLine depth "field" [.colored .white name]
  | .range name bounds ends =>
    nodeLine depth "field" [.colored .white name, .colored .yellow (bounds.enclose ends.query)]
  | .sequence count => nodeLine depth "sequence" [.plain ("(" ++ toString count ++ " items)")]

mutual

/-- A listing has one line for each node, in pre-order. -/
theorem Node.listing_eq_map (depth : Nat) : ∀ n : Node,
    n.listing depth = (n.preorder depth).map fun m => m.2.label.line m.1
  | .term _ | .phrase _ | .range _ _ _ => rfl
  | .group inner | .unary _ inner | .field _ inner =>
    congrArg (_ :: ·) (listing_eq_map (depth + 1) inner)
  | .sequence items => congrArg (_ :: ·) (listings_eq_map depth items)

theorem Node.listings_eq_map (depth : Nat) : ∀ ns : List Node,
    Node.listing.listings depth ns =
      (Node.preorder.preorderOfAll depth ns).map fun m => m.2.label.line m.1
  | [] => rfl
  | n :: ns => by
    rw [listing.listings, preorder.preorderOfAll, List.map_append, listing_eq_map (depth + 1) n,
      listings_eq_map depth ns]

end

/-- Without colors, a line is its indentation and what it says of the node. -/
theorem Label.writeLine_line (depth : Nat) (l : Label) :
    writeLine false (l.line depth) = (indentation depth).text ++ l.text := by
  have hassoc := @String.append_assoc
  -- each kind of node has its own line, and the pieces of each are written one after the other
  cases l with
  | term t =>
    simp [line, writeLine_append, writeLine_nodeLine, writeLine_styled, text, name, details, hassoc]
  | phrase p =>
    simp [line, writeLine_append, writeLine_nodeLine, writeLine_styled, text, name, details, hassoc]
  | group => simp [line, writeLine_nodeLine, text, name, details]
  | unary operator => simp [line, writeLine_nodeLine, text, name, details]
  | field fieldName => simp [line, writeLine_nodeLine, text, name, details]
  | range fieldName bounds ends =>
    simp [line, writeLine_nodeLine, text, name, details, hassoc]
  | sequence count => simp [line, writeLine_nodeLine, text, name, details, hassoc]

theorem toList_indentation (depth : Nat) :
    (indentation depth).text.toList = List.replicate (2 * depth) ' ' := by
  rw [indentation, text_plain, String.toList_ofList]

/-- Behind the indentation, lines that are alike say the same. -/
theorem Label.text_eq_of_line_eq {depth depth' : Nat} {l l' : Label}
    (h : (indentation depth).text ++ l.text = (indentation depth').text ++ l'.text) :
    l.text = l'.text := by
  obtain ⟨c, hc, hne⟩ := l.head?_text
  obtain ⟨c', hc', hne'⟩ := l'.head?_text
  -- neither text begins with a space, so both indentations end at the same place
  have hspaces (depth : Nat) : ∀ d ∈ List.replicate (2 * depth) ' ', d ∉ [c, c'] := by
    intro d hd
    rw [List.eq_of_mem_replicate hd]
    simp [hne.symm, hne'.symm]
  have htext := congrArg String.toList h
  rw [String.toList_append, String.toList_append, toList_indentation, toList_indentation] at htext
  obtain ⟨-, hback⟩ := append_inj_of_stopsAt (hspaces depth) (hspaces depth')
    (by simp [StopsAt, hc]) (by simp [StopsAt, hc']) htext
  exact String.toList_inj.mp hback

/-! ## §2 The labels of a tree -/

mutual

/-- The labels of a tree in pre-order determine it, whatever stands behind them: the number of items
tells where a sequence ends. -/
theorem Node.eq_of_labels_append : ∀ {a b : Node} {r s : List Label},
    a.subtrees.map label ++ r = b.subtrees.map label ++ s → a = b ∧ r = s
  | .term t, b, r, s, h => by
    cases b with
    | term t' =>
      obtain ⟨hlabel, hrest⟩ := List.cons.inj h
      cases hlabel
      exact ⟨rfl, hrest⟩
    | _ => cases (List.cons.inj h).1
  | .phrase p, b, r, s, h => by
    cases b with
    | phrase p' =>
      obtain ⟨hlabel, hrest⟩ := List.cons.inj h
      cases hlabel
      exact ⟨rfl, hrest⟩
    | _ => cases (List.cons.inj h).1
  | .group inner, b, r, s, h => by
    cases b with
    | group inner' =>
      obtain ⟨rfl, hrest⟩ := Node.eq_of_labels_append (List.cons.inj h).2
      exact ⟨rfl, hrest⟩
    | _ => cases (List.cons.inj h).1
  | .unary operator operand, b, r, s, h => by
    cases b with
    | unary operator' operand' =>
      obtain ⟨hlabel, hrest⟩ := List.cons.inj h
      cases hlabel
      obtain ⟨rfl, hbehind⟩ := Node.eq_of_labels_append hrest
      exact ⟨rfl, hbehind⟩
    | _ => cases (List.cons.inj h).1
  | .field name operand, b, r, s, h => by
    cases b with
    | field name' operand' =>
      obtain ⟨hlabel, hrest⟩ := List.cons.inj h
      cases hlabel
      obtain ⟨rfl, hbehind⟩ := Node.eq_of_labels_append hrest
      exact ⟨rfl, hbehind⟩
    | _ => cases (List.cons.inj h).1
  | .range name bounds ends, b, r, s, h => by
    cases b with
    | range name' bounds' ends' =>
      obtain ⟨hlabel, hrest⟩ := List.cons.inj h
      cases hlabel
      exact ⟨rfl, hrest⟩
    | _ => cases (List.cons.inj h).1
  | .sequence items, b, r, s, h => by
    cases b with
    | sequence items' =>
      obtain ⟨hlabel, hrest⟩ := List.cons.inj h
      -- the label holds the number of items, so both sequences end at the same place
      have hlength : items.length = items'.length := Label.sequence.inj hlabel
      obtain ⟨rfl, hbehind⟩ := Node.eq_of_allLabels_append hlength hrest
      exact ⟨rfl, hbehind⟩
    | _ => cases (List.cons.inj h).1

theorem Node.eq_of_allLabels_append : ∀ {as bs : List Node} {r s : List Label},
    as.length = bs.length →
    (Node.subtrees.subtreesOfAll as).map label ++ r =
      (Node.subtrees.subtreesOfAll bs).map label ++ s → as = bs ∧ r = s
  | [], [], _, _, _, h => ⟨rfl, h⟩
  | a :: as, b :: bs, r, s, hlength, h => by
    rw [Node.subtrees.subtreesOfAll, Node.subtrees.subtreesOfAll, List.map_append, List.map_append,
      List.append_assoc, List.append_assoc] at h
    obtain ⟨rfl, hrest⟩ := Node.eq_of_labels_append h
    obtain ⟨rfl, hbehind⟩ := Node.eq_of_allLabels_append (Nat.succ.inj hlength) hrest
    exact ⟨rfl, hbehind⟩

end

mutual

/-- The texts of a tree are those of its nodes. -/
theorem Node.texts_eq_flatMap : ∀ n : Node, n.texts = n.subtrees.flatMap fun m => m.label.texts
  | .term _ | .phrase _ | .range _ _ _ => (List.append_nil _).symm
  | .group inner | .unary _ inner => inner.texts_eq_flatMap
  | .field _ operand => congrArg (_ :: ·) operand.texts_eq_flatMap
  | .sequence items => Node.textsOfAll_eq_flatMap items

theorem Node.textsOfAll_eq_flatMap : ∀ ns : List Node, Node.texts.textsOfAll ns =
    (Node.subtrees.subtreesOfAll ns).flatMap fun m => m.label.texts
  | [] => rfl
  | n :: ns => by
    rw [texts.textsOfAll, subtrees.subtreesOfAll, List.flatMap_append, n.texts_eq_flatMap,
      Node.textsOfAll_eq_flatMap ns]

end

/-- All texts of a tree can be read in its listing. -/
def Node.Legible (n : Node) : Prop :=
  ∀ t ∈ n.texts, t.1.Legible t.2

instance (n : Node) : Decidable n.Legible :=
  List.decidableBAll (fun t : Role × String => t.1.Legible t.2) n.texts

theorem Node.Legible.label {n : Node} (h : n.Legible) {depth : Nat} {m : Nat × Node}
    (hm : m ∈ n.preorder depth) : m.2.label.Legible := by
  intro t ht
  have hsubtree : m.2 ∈ n.subtrees := by
    rw [← n.map_snd_preorder depth]
    exact List.mem_map_of_mem hm
  apply h
  rw [n.texts_eq_flatMap]
  exact List.mem_flatMap.mpr ⟨m.2, hsubtree, ht⟩

/-! ## §3 What a listing tells -/

theorem map_eq_map_of_forall {α β γ : Type} {f : α → β} {g : α → γ} : ∀ {xs ys : List α},
    (∀ x ∈ xs, ∀ y ∈ ys, f x = f y → g x = g y) → xs.map f = ys.map f → xs.map g = ys.map g
  | [], [], _, _ => rfl
  | x :: xs, y :: ys, hfg, h => by
    obtain ⟨hfirst, hrest⟩ := List.cons.inj h
    have hg := hfg x List.mem_cons_self y List.mem_cons_self hfirst
    have hgs := map_eq_map_of_forall
      (fun x hx y hy => hfg x (List.mem_cons_of_mem _ hx) y (List.mem_cons_of_mem _ hy)) hrest
    rw [List.map_cons, List.map_cons, hg, hgs]

/-- How the listing of a tree stands on its lines. -/
structure Node.Outlined (n : Node) (depth : Nat) : Prop where
  /-- One line for each node in pre-order, indented by two spaces for each level. -/
  lines : (n.listing depth).map (writeLine false) =
    (n.preorder depth).map fun m =>
      String.ofList (List.replicate (2 * m.1) ' ') ++ m.2.label.text
  /-- Behind the indentation no further space follows. -/
  indented : ∀ m ∈ n.preorder depth, m.2.label.text.toList.head? ≠ some ' '
  count : (n.listing depth).length = n.size
  /-- If its texts are legible, no other lines end in what is written. -/
  ends : n.Legible → (writeLines false (n.listing depth)).toList.count '\n' = n.size

theorem Node.writeLine_listing (n : Node) (depth : Nat) :
    (n.listing depth).map (writeLine false) =
      (n.preorder depth).map fun m => (indentation m.1).text ++ m.2.label.text := by
  rw [n.listing_eq_map, List.map_map]
  exact List.map_congr_left fun m _ => m.2.label.writeLine_line m.1

theorem Node.Legible.singleLine {n : Node} (h : n.Legible) (depth : Nat) :
    ∀ line ∈ (n.listing depth).map (writeLine false), SingleLine line := by
  rw [n.writeLine_listing]
  intro line hline
  obtain ⟨m, hm, rfl⟩ := List.mem_map.mp hline
  refine singleLine_append.mpr ⟨?_, Label.singleLine_text (h.label hm)⟩
  rw [SingleLine, toList_indentation]
  exact fun h => absurd (List.eq_of_mem_replicate h) (by decide)

theorem Node.length_listing (n : Node) (depth : Nat) : (n.listing depth).length = n.size := by
  rw [n.listing_eq_map, List.length_map, ← n.length_subtrees, ← n.map_snd_preorder depth,
    List.length_map]

theorem writeLines_eq_join (lines : List Line) :
    writeLines false lines = String.join ((lines.map (writeLine false)).map (· ++ "\n")) := by
  rw [writeLines, List.map_map]
  rfl

theorem Node.outlined (n : Node) (depth : Nat) : n.Outlined depth where
  lines := n.writeLine_listing depth
  indented m _ := by
    obtain ⟨c, hc, hne⟩ := m.2.label.head?_text
    rw [hc]
    exact fun h => hne (Option.some.inj h)
  count := n.length_listing depth
  ends h := by
    rw [writeLines_eq_join, count_lines (h.singleLine depth), List.length_map, n.length_listing]

/-- Trees with legible texts that are listed alike are equal: lines are read one by one, a line
tells the label of its node, and the labels in pre-order tell the tree. -/
theorem Node.eq_of_listing_eq {a b : Node} {depth : Nat} (ha : a.Legible) (hb : b.Legible)
    (h : writeLines false (a.listing depth) = writeLines false (b.listing depth)) : a = b := by
  rw [writeLines_eq_join, writeLines_eq_join] at h
  have hlines := lines_inj (ha.singleLine depth) (hb.singleLine depth) h
  rw [a.writeLine_listing, b.writeLine_listing] at hlines
  -- a line tells its label behind the indentation
  have hlabels : ((a.preorder depth).map fun m => m.2.label) =
      (b.preorder depth).map fun m => m.2.label :=
    map_eq_map_of_forall (fun m hm m' hm' hline => Label.text_inj (ha.label hm) (hb.label hm')
      (Label.text_eq_of_line_eq hline)) hlines
  -- labels do not depend on how far a node is indented
  have hsubtrees (n : Node) :
      ((n.preorder depth).map fun m => m.2.label) = n.subtrees.map Node.label := by
    rw [← n.map_snd_preorder depth, List.map_map]
    rfl
  rw [hsubtrees, hsubtrees, ← List.append_nil (a.subtrees.map Node.label),
    ← List.append_nil (b.subtrees.map Node.label)] at hlabels
  exact (Node.eq_of_labels_append hlabels).1

/-- **A listing without colors determines its tree**, if the texts of the tree are legible; and
every listing has one line for each node, in pre-order, indented by its level. -/
theorem Node.listing_determines :
    (∀ (a b : Node) (depth : Nat), a.Legible → b.Legible →
      (writeLines false (a.listing depth) = writeLines false (b.listing depth) ↔ a = b)) ∧
    ∀ (n : Node) (depth : Nat), n.Outlined depth :=
  ⟨fun _ _ _ ha hb => ⟨Node.eq_of_listing_eq ha hb, fun h => by rw [h]⟩, Node.outlined⟩

/-- Two trees with one query text, listed apart. -/
theorem Node.listing_determines_nesting :
    (Node.sequence [.word "a", .sequence [.phrase ⟨"b\n\"", some (.boost "2 3")⟩]]).query =
      (Node.sequence [.sequence [.word "a"], .phrase ⟨"b\n\"", some (.boost "2 3")⟩]).query ∧
    writeLines false (Node.listing 1
        (.sequence [.word "a", .sequence [.phrase ⟨"b\n\"", some (.boost "2 3")⟩]])) ≠
      writeLines false (Node.listing 1
        (.sequence [.sequence [.word "a"], .phrase ⟨"b\n\"", some (.boost "2 3")⟩])) :=
  ⟨by decide, fun h => absurd
    ((Node.listing_determines.1 _ _ 1 (by decide) (by decide)).mp h) (by decide)⟩

end CanonicalQuery
