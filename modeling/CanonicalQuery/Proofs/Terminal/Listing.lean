import CanonicalQuery.Proofs.Query.Texts
import CanonicalQuery.Proofs.Terminal.Sequences
import CanonicalQuery.Proofs.Text.Shown
import CanonicalQuery.Terminal.Listing

/-!
# What listings are made of

The query of a tree is woven from the texts of the tree, and so is every piece of its listing:
marks, names and indentations hold no escapes, and the texts stand between them unchanged.  Where a
text is shown in quotes, its escapes are spelled out.

## Main statements

- `Text.Shown.escapeless_write`: a text in quotes holds no escape.
- `Node.woven_query`, `Node.woven_listing`: queries and listings are woven from texts.
- `woven_explanation`, `escapeless_rules`, `escapeless_hint`: what is printed line by line.
-/

namespace CanonicalQuery

open CanonicalQuery.Terminal

/-! ## §1 Texts in quotes -/

namespace Text.Shown

/-- A text that is shown in quotes holds no escape: its escapes are spelled out. -/
theorem escapeless_write (s : String) : Escapeless (write s) :=
  not_mem_write (by decide) (by decide) (by decide) s

end Text.Shown

/-! ## §2 Queries -/

variable {given : String → Prop} {texts : List (Role × String)}

/-- Every text of the list is woven from what is given. -/
def WovenTexts (given : String → Prop) (texts : List (Role × String)) : Prop :=
  ∀ t ∈ texts, Woven given t.2

@[simp] theorem wovenTexts_cons (t : Role × String) :
    WovenTexts given (t :: texts) ↔ Woven given t.2 ∧ WovenTexts given texts := by
  simp [WovenTexts]

@[simp] theorem wovenTexts_append (texts' : List (Role × String)) :
    WovenTexts given (texts ++ texts') ↔ WovenTexts given texts ∧ WovenTexts given texts' := by
  simp only [WovenTexts, List.forall_mem_append]

theorem Operator.escapeless_symbol (o : Operator) : Escapeless o.symbol := by
  cases o <;> decide

theorem Operator.escapeless_name (o : Operator) : Escapeless o.name := by
  cases o <;> decide

/-- The text of a term is woven from its word and its modifier. -/
theorem Term.woven_query {t : Term} (h : WovenTexts given t.texts) : Woven given t.query := by
  obtain ⟨value, modifier⟩ := t
  obtain ⟨hvalue, hmodifier⟩ := (wovenTexts_cons _).mp h
  -- behind the word, a sign and the text of the modifier
  refine hvalue.append ?_
  cases modifier with
  | none => exact woven_empty
  | some m =>
    have hheld := hmodifier m.held List.mem_cons_self
    cases m with
    | similarity degree => exact hheld.behind (by decide)
    | boost factor => exact hheld.behind (by decide)

/-- The text of a phrase is woven from what stands in its quotes and its modifier. -/
theorem Phrase.woven_query {p : Phrase} (h : WovenTexts given p.texts) : Woven given p.query := by
  obtain ⟨value, modifier⟩ := p
  obtain ⟨hvalue, hmodifier⟩ := (wovenTexts_cons _).mp h
  have hquote : Escapeless "\"" := by decide
  refine (hvalue.between hquote hquote).append ?_
  cases modifier with
  | none => exact woven_empty
  | some m =>
    have hheld := hmodifier m.held List.mem_cons_self
    cases m with
    | boost factor => exact hheld.behind (by decide)
    | distance words => exact hheld.behind (by decide)

/-- A range in its brackets is woven from its ends. -/
theorem Bounds.woven_enclose (bounds : Bounds) {ends : Range} (h : WovenTexts given ends.texts) :
    Woven given (bounds.enclose ends.query) := by
  have hlower : Woven given ends.lower := h (.endpoint, ends.lower) (by simp [Range.texts])
  have hupper : Woven given ends.upper := h (.endpoint, ends.upper) (by simp [Range.texts])
  have hends : Woven given ends.query := hlower.beside hupper (by decide)
  cases bounds with
  | inclusive => exact hends.between (by decide) (by decide)
  | exclusive => exact hends.between (by decide) (by decide)

mutual

/-- The query of a tree is woven from its texts. -/
theorem Node.woven_query (n : Node) (h : WovenTexts given n.texts) : Woven given n.query := by
  cases n with
  | term t => exact Term.woven_query h
  | phrase p => exact Phrase.woven_query h
  | group inner => exact (inner.woven_query h).between (by decide) (by decide)
  | unary operator operand => exact (operand.woven_query h).behind operator.escapeless_symbol
  | field name operand =>
    obtain ⟨hname, hoperand⟩ := (wovenTexts_cons _).mp h
    exact hname.beside (operand.woven_query hoperand) (by decide)
  | range name bounds ends =>
    obtain ⟨hname, hends⟩ := (wovenTexts_cons _).mp h
    exact hname.beside (bounds.woven_enclose hends) (by decide)
  | sequence items => exact woven_intercalate (by decide) (Node.woven_queries items h)

theorem Node.woven_queries (items : List Node)
    (h : WovenTexts given (Node.texts.textsOfAll items)) :
    ∀ t ∈ Node.query.queryList items, Woven given t := by
  cases items with
  | nil => simp [Node.query.queryList]
  | cons n ns =>
    obtain ⟨hn, hns⟩ := (wovenTexts_append _).mp h
    exact List.forall_mem_cons.mpr ⟨n.woven_query hn, Node.woven_queries ns hns⟩

end

/-! ## §3 Listings -/

/-- Every piece of the lines is woven from what is given. -/
def WovenLines (given : String → Prop) (lines : List Line) : Prop :=
  ∀ line ∈ lines, ∀ p ∈ line, Woven given p.text

theorem wovenLines_cons {line : Line} {lines : List Line} :
    WovenLines given (line :: lines) ↔
      (∀ p ∈ line, Woven given p.text) ∧ WovenLines given lines := by
  simp only [WovenLines, List.forall_mem_cons]

theorem wovenLines_append {front behind : List Line} :
    WovenLines given (front ++ behind) ↔ WovenLines given front ∧ WovenLines given behind := by
  simp only [WovenLines, List.forall_mem_append]

/-- One character repeated holds no escape, unless it is one. -/
theorem escapeless_replicate {c : Char} (hc : c ≠ Terminal.escape) (count : Nat) :
    Escapeless (String.ofList (List.replicate count c)) := by
  rw [Escapeless, String.toList_ofList]
  exact fun h => hc (List.eq_of_mem_replicate h).symm

/-- A number in decimal digits holds no escape. -/
theorem escapeless_toString (n : Nat) : Escapeless (toString n) := by
  intro h
  have hdigit : Terminal.escape ∈ Nat.toDigits 10 n := by simpa using h
  exact absurd (Nat.isDigit_of_mem_toDigits (by decide) (by decide) hdigit) (by decide)

/-- The line of a node is woven if its name and its details are. -/
theorem woven_nodeLine (depth : Nat) {name : String} {details : List Piece}
    (hname : Escapeless name) (hdetails : ∀ p ∈ details, Woven given p.text) :
    ∀ p ∈ nodeLine depth name details, Woven given p.text := by
  have hspace : Escapeless " " := by decide
  -- the indentation, the name, and each detail behind a space
  refine List.forall_mem_cons.mpr ⟨(escapeless_replicate (by decide) (2 * depth)).woven,
    List.forall_mem_cons.mpr ⟨hname.woven, fun p hp => ?_⟩⟩
  obtain ⟨detail, hdetail, hp⟩ := List.mem_flatMap.mp hp
  rcases List.mem_cons.mp hp with rfl | hp
  · exact hspace.woven
  · rw [List.mem_singleton.mp hp]
    exact hdetails detail hdetail

/-- What is remarked of the modifier of a term is woven from its text. -/
theorem TermModifier.woven_remark {modifier : Option TermModifier}
    (h : WovenTexts given (modifier.map TermModifier.held).toList) :
    Woven given (TermModifier.remark modifier) := by
  cases modifier with
  | none => exact woven_empty
  | some m =>
    cases m with
    | similarity degree =>
      -- the degree is shown in quotes, and there its escapes are spelled out
      have hdegree : Woven given (Text.Shown.write degree) :=
        (Text.Shown.escapeless_write degree).woven
      exact hdegree.behind (by decide)
    | boost factor =>
      have hfactor : Woven given factor := h (.boost, factor) List.mem_cons_self
      exact hfactor.behind (by decide)

/-- What is remarked of the modifier of a phrase is woven from its text. -/
theorem PhraseModifier.woven_remark {modifier : Option PhraseModifier}
    (h : WovenTexts given (modifier.map PhraseModifier.held).toList) :
    Woven given (PhraseModifier.remark modifier) := by
  cases modifier with
  | none => exact woven_empty
  | some m =>
    cases m with
    | boost factor =>
      have hfactor : Woven given factor := h (.boost, factor) List.mem_cons_self
      exact hfactor.behind (by decide)
    | distance words =>
      have hwords : Woven given words := h (.distance, words) List.mem_cons_self
      exact hwords.behind (by decide)

mutual

/-- Every piece of the listing of a tree is woven from the texts of the tree. -/
theorem Node.woven_listing (n : Node) (depth : Nat) (h : WovenTexts given n.texts) :
    WovenLines given (n.listing depth) := by
  cases n with
  | term t =>
    obtain ⟨hvalue, hmodifier⟩ := (wovenTexts_cons _).mp h
    exact List.forall_mem_singleton.mpr <| List.forall_mem_append.mpr
      ⟨woven_nodeLine depth (by decide) (List.forall_mem_singleton.mpr hvalue),
        List.forall_mem_singleton.mpr (TermModifier.woven_remark hmodifier)⟩
  | phrase p =>
    obtain ⟨-, hmodifier⟩ := (wovenTexts_cons _).mp h
    -- a phrase is shown in quotes
    have hvalue : Woven given (Text.Shown.write p.value) :=
      (Text.Shown.escapeless_write p.value).woven
    exact List.forall_mem_singleton.mpr <| List.forall_mem_append.mpr
      ⟨woven_nodeLine depth (by decide) (List.forall_mem_singleton.mpr hvalue),
        List.forall_mem_singleton.mpr (PhraseModifier.woven_remark hmodifier)⟩
  | group inner =>
    exact wovenLines_cons.mpr ⟨woven_nodeLine depth (by decide) (by simp),
      inner.woven_listing (depth + 1) h⟩
  | unary operator operand =>
    have hsymbol : Woven given operator.symbol := operator.escapeless_symbol.woven
    exact wovenLines_cons.mpr ⟨woven_nodeLine depth operator.escapeless_name
      (List.forall_mem_singleton.mpr hsymbol), operand.woven_listing (depth + 1) h⟩
  | field name operand =>
    obtain ⟨hname, hoperand⟩ := (wovenTexts_cons _).mp h
    exact wovenLines_cons.mpr ⟨woven_nodeLine depth (by decide)
      (List.forall_mem_singleton.mpr hname), operand.woven_listing (depth + 1) hoperand⟩
  | range name bounds ends =>
    obtain ⟨hname, hends⟩ := (wovenTexts_cons _).mp h
    -- the range stands in its brackets, as in the query
    have henclosed := bounds.woven_enclose hends
    exact List.forall_mem_singleton.mpr <| woven_nodeLine depth (by decide) <|
      List.forall_mem_cons.mpr ⟨hname, List.forall_mem_singleton.mpr henclosed⟩
  | sequence items =>
    have hlength : Woven given (toString items.length) := (escapeless_toString _).woven
    -- only the number of items is shown, and that has digits
    have hcount : Woven given ("(" ++ toString items.length ++ " items)") :=
      hlength.between (by decide) (by decide)
    exact wovenLines_cons.mpr ⟨woven_nodeLine depth (by decide)
      (List.forall_mem_singleton.mpr hcount), Node.woven_listings items depth h⟩

theorem Node.woven_listings (items : List Node) (depth : Nat)
    (h : WovenTexts given (Node.texts.textsOfAll items)) :
    WovenLines given (Node.listing.listings depth items) := by
  cases items with
  | nil => simp [Node.listing.listings, WovenLines]
  | cons n ns =>
    obtain ⟨hn, hns⟩ := (wovenTexts_append _).mp h
    exact wovenLines_append.mpr ⟨n.woven_listing (depth + 1) hn, Node.woven_listings ns depth hns⟩

end

/-- What is shown of a tree and its query is woven from the texts of the tree. -/
theorem woven_explanation (n : Node) (h : WovenTexts given n.texts) :
    WovenLines given (explanation n) := by
  have hquery := n.woven_query h
  have hblanks : Woven given "  " := (show Escapeless "  " by decide).woven
  have htitle (title : String) (ht : Escapeless title) :
      ∀ p ∈ [Piece.styled (.bold .green) title], Woven given p.text :=
    List.forall_mem_singleton.mpr ht.woven
  -- the listing under its title, and the query under another
  refine wovenLines_append.mpr
    ⟨wovenLines_cons.mpr ⟨htitle _ (by decide), n.woven_listing 1 h⟩, ?_⟩
  exact wovenLines_cons.mpr ⟨by simp, wovenLines_cons.mpr ⟨htitle _ (by decide),
    List.forall_mem_singleton.mpr
      (List.forall_mem_cons.mpr ⟨hblanks, List.forall_mem_singleton.mpr hquery⟩)⟩⟩

/-- A row of the table holds no escape if its texts do not. -/
theorem escapeless_row {left right : Style} {texts : String × String}
    (hleft : Escapeless texts.1) (hright : Escapeless texts.2) :
    ∀ p ∈ row left right texts, Escapeless p.text := by
  have hpadded : Escapeless (padded texts.1) :=
    escapeless_append.mpr ⟨hleft, escapeless_replicate (by decide) _⟩
  have hspace : Escapeless " " := by decide
  exact List.forall_mem_cons.mpr ⟨hpadded,
    List.forall_mem_cons.mpr ⟨hspace, List.forall_mem_singleton.mpr hright⟩⟩

/-- The table of rules and the hint hold no escapes of their own. -/
theorem escapeless_rules : ∀ line ∈ rules, ∀ p ∈ line, Escapeless p.text := by
  have htitle : Escapeless "Serialization Rules" := by decide
  have htexts : ∀ texts ∈ ruleTexts, Escapeless texts.1 ∧ Escapeless texts.2 := by decide
  -- the head of the table is fixed, and each row is padded from a fixed text
  refine List.forall_mem_append.mpr ⟨?_, fun line hline => ?_⟩
  · exact List.forall_mem_cons.mpr ⟨List.forall_mem_singleton.mpr htitle,
      List.forall_mem_cons.mpr ⟨by simp,
        List.forall_mem_cons.mpr ⟨escapeless_row (by decide) (by decide),
          List.forall_mem_singleton.mpr
            (List.forall_mem_singleton.mpr (escapeless_replicate (by decide) 50))⟩⟩⟩
  · obtain ⟨texts, hmem, rfl⟩ := List.mem_map.mp hline
    exact escapeless_row (htexts texts hmem).1 (htexts texts hmem).2

theorem escapeless_hint : ∀ line ∈ hint, ∀ p ∈ line, Escapeless p.text := by
  decide

end CanonicalQuery
