import CanonicalQuery.Proofs.Query.Texts
import CanonicalQuery.Proofs.Text.Pieces
import CanonicalQuery.Proofs.Text.Shown
import CanonicalQuery.Terminal.Listing

/-!
# Labels of nodes

The label of a node is everything about it but its parts; it is what a line of a listing says of the
node.  If words, names and the ends of ranges hold no spaces, a label is known from its text: a
piece of the text ends at the next space, or at the quote that closes it.

## Main definitions

- `Label`, `Label.text`: a node without its parts, and what its line says of it.
- `Role.Legible`, `Label.Legible`: texts that can be told apart in a line.

## Main statements

- `Label.text_inj`: a label is known from its text.
- `Label.singleLine_text`: the text stands on one line.
-/

namespace CanonicalQuery

/-! ## §1 Labels -/

/-- A node without its parts; of the items of a sequence only their number is left. -/
inductive Label where
  | term (term : Term)
  | phrase (phrase : Phrase)
  | group
  | unary (operator : Operator)
  | field (name : String)
  | range (name : String) (bounds : Bounds) (ends : Range)
  | sequence (count : Nat)
  deriving DecidableEq, Repr, Inhabited

def Node.label : Node → Label
  | .term t => .term t
  | .phrase p => .phrase p
  | .group _ => .group
  | .unary operator _ => .unary operator
  | .field name _ => .field name
  | .range name bounds ends => .range name bounds ends
  | .sequence items => .sequence items.length

namespace Label

/-- The first word of the line of a node. -/
def name : Label → String
  | .term _ => "term"
  | .phrase _ => "phrase"
  | .group => "group"
  | .unary operator => operator.name
  | .field _ => "field"
  | .range _ _ _ => "field"
  | .sequence _ => "sequence"

/-- What stands behind the first word. -/
def details : Label → String
  | .term t => " " ++ (t.value ++ TermModifier.remark t.modifier)
  | .phrase p => " " ++ (Text.Shown.write p.value ++ PhraseModifier.remark p.modifier)
  | .group => ""
  | .unary operator => " " ++ operator.symbol
  | .field name => " " ++ name
  | .range name bounds ends => " " ++ (name ++ (" " ++ bounds.enclose ends.query))
  | .sequence count => " " ++ ("(" ++ (toString count ++ " items)"))

/-- The line of a node without its indentation. -/
def text (l : Label) : String :=
  l.name ++ l.details

/-- The texts of a node alone. -/
def texts : Label → List (Role × String)
  | .term t => t.texts
  | .phrase p => p.texts
  | .field name => [(.name, name)]
  | .range name _ ends => (.name, name) :: ends.texts
  | _ => []

end Label

/-! ## §2 Labels are known from their texts -/

/-- A text that can be read in a line: words, names and ends of ranges hold no space, and nothing
but what is shown in quotes holds a line end. -/
def Role.Legible : Role → String → Prop
  | .word, text | .name, text | .endpoint, text => ' ' ∉ text.toList ∧ SingleLine text
  | .boost, text | .distance, text => SingleLine text
  | .quoted, _ | .similarity, _ => True

instance (role : Role) (text : String) : Decidable (role.Legible text) :=
  match role with
  | .word | .name | .endpoint => inferInstanceAs (Decidable (_ ∧ _))
  | .boost | .distance => inferInstanceAs (Decidable (SingleLine text))
  | .quoted | .similarity => inferInstanceAs (Decidable True)

def Label.Legible (l : Label) : Prop :=
  ∀ t ∈ l.texts, t.1.Legible t.2

theorem TermModifier.stopsAt_remark (modifier : Option TermModifier) :
    StopsAt [' '] (TermModifier.remark modifier).toList := by
  cases modifier with
  | none => exact stopsAt_nil _
  | some m => cases m <;> simp [StopsAt, TermModifier.remark]

theorem TermModifier.remark_inj {m m' : Option TermModifier}
    (h : TermModifier.remark m = TermModifier.remark m') : m = m' := by
  -- unless both are absent or both of one kind, the texts differ in their first two characters
  have htext := congrArg String.toList h
  rcases m with _ | (degree | factor) <;> rcases m' with _ | (degree' | factor') <;>
    simp only [TermModifier.remark, String.append_right_inj] at h
  case none.none => rfl
  case some.similarity.some.similarity =>
    have hwrite :
        (Text.Shown.write degree).toList ++ [] = (Text.Shown.write degree').toList ++ [] := by
      rw [h]
    rw [(Text.Shown.write_append_inj hwrite).1]
  case some.boost.some.boost => rw [h]
  all_goals simp [TermModifier.remark] at htext

theorem PhraseModifier.remark_inj {m m' : Option PhraseModifier}
    (h : PhraseModifier.remark m = PhraseModifier.remark m') : m = m' := by
  have htext := congrArg String.toList h
  rcases m with _ | (factor | words) <;> rcases m' with _ | (factor' | words') <;>
    simp only [PhraseModifier.remark, String.append_right_inj] at h
  case none.none => rfl
  case some.boost.some.boost => rw [h]
  case some.distance.some.distance => rw [h]
  all_goals simp [PhraseModifier.remark] at htext

/-- A text without spaces is known from what it stands before, if that is nothing or begins with a
space. -/
theorem append_inj_of_no_space {s s' r r' : String} (hs : ' ' ∉ s.toList) (hs' : ' ' ∉ s'.toList)
    (hr : StopsAt [' '] r.toList) (hr' : StopsAt [' '] r'.toList) (h : s ++ r = s' ++ r') :
    s = s' ∧ r = r' := by
  have hword {s : String} (hs : ' ' ∉ s.toList) : ∀ c ∈ s.toList, c ∉ [' '] := by
    intro c hc hspace
    exact hs (List.mem_singleton.mp hspace ▸ hc)
  have htext := congrArg String.toList h
  rw [String.toList_append, String.toList_append] at htext
  obtain ⟨hfront, hback⟩ := append_inj_of_stopsAt (hword hs) (hword hs') hr hr' htext
  exact ⟨String.toList_inj.mp hfront, String.toList_inj.mp hback⟩

/-- The ends of a range are known from its text, and so is whether they belong to it. -/
theorem Bounds.enclose_inj {bounds bounds' : Bounds} {ends ends' : Range}
    (hlower : ' ' ∉ ends.lower.toList) (hlower' : ' ' ∉ ends'.lower.toList)
    (h : bounds.enclose ends.query = bounds'.enclose ends'.query) :
    bounds = bounds' ∧ ends = ends' := by
  -- the opening bracket tells them apart, whatever stands within
  have hbounds : bounds = bounds' := by
    have htext := congrArg String.toList h
    cases bounds <;> cases bounds' <;> simp [Bounds.enclose] at htext <;> rfl
  subst hbounds
  refine ⟨rfl, ?_⟩
  -- between the brackets, the first space ends the lower text
  have hends : ends.query = ends'.query := by
    cases bounds <;> simpa [Bounds.enclose] using h
  obtain ⟨lower, upper⟩ := ends
  obtain ⟨lower', upper'⟩ := ends'
  rw [Range.query, Range.query, String.append_assoc, String.append_assoc] at hends
  obtain ⟨rfl, hback⟩ := append_inj_of_no_space hlower hlower' (by simp [StopsAt])
    (by simp [StopsAt]) hends
  obtain rfl : upper = upper' := (String.append_right_inj _).mp hback
  rfl

namespace Label

/-- The first words of lines. -/
def names : List String :=
  ["term", "phrase", "group", "required", "prohibited", "field", "sequence"]

theorem name_mem (l : Label) : l.name ∈ names := by
  cases l with
  | unary operator => cases operator <;> decide
  | _ => simp [name, names]

theorem stopsAt_details (l : Label) : StopsAt [' '] l.details.toList := by
  cases l <;> simp [StopsAt, details]

/-- The first word of a line ends at a space, or with the line. -/
theorem name_eq_and_details_eq {l l' : Label} (h : l.text = l'.text) :
    l.name = l'.name ∧ l.details = l'.details := by
  have hword : ∀ word ∈ names, ' ' ∉ word.toList := by decide
  exact append_inj_of_no_space (hword _ l.name_mem) (hword _ l'.name_mem) l.stopsAt_details
    l'.stopsAt_details h

theorem term_inj {t t' : Term} (h : (term t).Legible) (h' : (term t').Legible)
    (hdetails : (term t).details = (term t').details) : t = t' := by
  obtain ⟨value, modifier⟩ := t
  obtain ⟨value', modifier'⟩ := t'
  have hvalue : ' ' ∉ value.toList := (h (.word, value) List.mem_cons_self).1
  have hvalue' : ' ' ∉ value'.toList := (h' (.word, value') List.mem_cons_self).1
  obtain ⟨rfl, hremark⟩ := append_inj_of_no_space hvalue hvalue'
    (TermModifier.stopsAt_remark _) (TermModifier.stopsAt_remark _)
    ((String.append_right_inj _).mp hdetails)
  obtain rfl : modifier = modifier' := TermModifier.remark_inj hremark
  rfl

/-- Where the text of a phrase ends, its quotes tell. -/
theorem phrase_inj {p p' : Phrase} (hdetails : (phrase p).details = (phrase p').details) :
    p = p' := by
  obtain ⟨value, modifier⟩ := p
  obtain ⟨value', modifier'⟩ := p'
  have htext := congrArg String.toList ((String.append_right_inj _).mp hdetails)
  rw [String.toList_append, String.toList_append] at htext
  obtain ⟨rfl, hremark⟩ := Text.Shown.write_append_inj htext
  obtain rfl : modifier = modifier' := PhraseModifier.remark_inj (String.toList_inj.mp hremark)
  rfl

/-- A range is known from its details, since neither its name nor its lower end holds a space. -/
theorem range_inj {fieldName fieldName' : String} {bounds bounds' : Bounds} {ends ends' : Range}
    (h : (range fieldName bounds ends).Legible) (h' : (range fieldName' bounds' ends').Legible)
    (hdetails : (range fieldName bounds ends).details = (range fieldName' bounds' ends').details) :
    range fieldName bounds ends = range fieldName' bounds' ends' := by
  have hname : ' ' ∉ fieldName.toList := (h (.name, fieldName) List.mem_cons_self).1
  have hname' : ' ' ∉ fieldName'.toList := (h' (.name, fieldName') List.mem_cons_self).1
  have hlower : ' ' ∉ ends.lower.toList :=
    (h (.endpoint, ends.lower) (by simp [texts, Range.texts])).1
  have hlower' : ' ' ∉ ends'.lower.toList :=
    (h' (.endpoint, ends'.lower) (by simp [texts, Range.texts])).1
  obtain ⟨rfl, hback⟩ := append_inj_of_no_space hname hname' (by simp [StopsAt])
    (by simp [StopsAt]) ((String.append_right_inj _).mp hdetails)
  obtain ⟨rfl, rfl⟩ := Bounds.enclose_inj hlower hlower' ((String.append_right_inj _).mp hback)
  rfl

/-- A field over a range has more behind its name than a field over a tree. -/
theorem field_ne_range {fieldName fieldName' : String} {bounds : Bounds} {ends : Range}
    (h : (field fieldName).Legible) (h' : (range fieldName' bounds ends).Legible) :
    (field fieldName).details ≠ (range fieldName' bounds ends).details := by
  intro hdetails
  have hname : ' ' ∉ fieldName.toList := (h (.name, fieldName) List.mem_cons_self).1
  have hname' : ' ' ∉ fieldName'.toList := (h' (.name, fieldName') List.mem_cons_self).1
  have htext : fieldName ++ "" = fieldName' ++ (" " ++ bounds.enclose ends.query) := by
    rw [String.append_empty]
    exact (String.append_right_inj _).mp hdetails
  obtain ⟨-, hback⟩ := append_inj_of_no_space hname hname' (stopsAt_nil _)
    (by simp [StopsAt]) htext
  simpa using congrArg String.toList hback

theorem sequence_inj {count count' : Nat}
    (hdetails : (sequence count).details = (sequence count').details) : count = count' := by
  have htext := congrArg String.toList hdetails
  have hdigits : Nat.toDigits 10 count = Nat.toDigits 10 count' := by simpa [details] using htext
  exact eq_of_toDigits_eq hdigits

/-- A line tells what its node is, its parts aside. -/
theorem text_inj {l l' : Label} (h : l.Legible) (h' : l'.Legible) (htext : l.text = l'.text) :
    l = l' := by
  obtain ⟨hname, hdetails⟩ := name_eq_and_details_eq htext
  cases l <;> cases l'
  case term.term => rw [term_inj h h' hdetails]
  case phrase.phrase => rw [phrase_inj hdetails]
  case group.group => rfl
  case unary.unary o o' =>
    cases o <;> cases o' <;> first | rfl | exact absurd hname (by decide)
  case field.field => rw [(String.append_right_inj _).mp hdetails]
  case field.range => exact absurd hdetails (field_ne_range h h')
  case range.field => exact absurd hdetails.symm (field_ne_range h' h)
  case range.range => exact range_inj h h' hdetails
  case sequence.sequence => rw [sequence_inj hdetails]
  -- all others differ in their first words
  all_goals first
    | simp [name] at hname; done
    | simp only [name, Operator.name] at hname
      split at hname <;> simp at hname

end Label

/-! ## §3 The text of a label is one line -/

/-- What is said of the modifier of a term stands on one line. -/
theorem TermModifier.singleLine_remark {modifier : Option TermModifier}
    (h : ∀ t ∈ (modifier.map TermModifier.held).toList, t.1.Legible t.2) :
    SingleLine (TermModifier.remark modifier) := by
  cases modifier with
  | none => decide
  | some m =>
    cases m with
    | similarity degree =>
      have hdegree : SingleLine (Text.Shown.write degree) :=
        Text.Shown.not_mem_write (by decide) (by decide) (by decide) degree
      exact singleLine_append.mpr ⟨by decide, hdegree⟩
    | boost factor =>
      have hfactor : SingleLine factor := h (.boost, factor) List.mem_cons_self
      exact singleLine_append.mpr ⟨by decide, hfactor⟩

/-- What is said of the modifier of a phrase stands on one line. -/
theorem PhraseModifier.singleLine_remark {modifier : Option PhraseModifier}
    (h : ∀ t ∈ (modifier.map PhraseModifier.held).toList, t.1.Legible t.2) :
    SingleLine (PhraseModifier.remark modifier) := by
  cases modifier with
  | none => decide
  | some m =>
    cases m with
    | boost factor =>
      have hfactor : SingleLine factor := h (.boost, factor) List.mem_cons_self
      exact singleLine_append.mpr ⟨by decide, hfactor⟩
    | distance words =>
      have hwords : SingleLine words := h (.distance, words) List.mem_cons_self
      exact singleLine_append.mpr ⟨by decide, hwords⟩

/-- A range stands on one line if its ends do. -/
theorem Bounds.singleLine_enclose (bounds : Bounds) {ends : Range} (hlower : SingleLine ends.lower)
    (hupper : SingleLine ends.upper) : SingleLine (bounds.enclose ends.query) := by
  have hto : SingleLine " TO " := by decide
  have hends : SingleLine ends.query :=
    singleLine_append.mpr ⟨singleLine_append.mpr ⟨hlower, hto⟩, hupper⟩
  cases bounds with
  | inclusive =>
    exact singleLine_append.mpr ⟨singleLine_append.mpr ⟨by decide, hends⟩, by decide⟩
  | exclusive =>
    exact singleLine_append.mpr ⟨singleLine_append.mpr ⟨by decide, hends⟩, by decide⟩

theorem singleLine_toString (n : Nat) : SingleLine (toString n) := by
  intro h
  have hdigit : '\n' ∈ Nat.toDigits 10 n := by simpa using h
  exact absurd (Nat.isDigit_of_mem_toDigits (by decide) (by decide) hdigit) (by decide)

/-- What a line says of its node stands on one line. -/
theorem Label.singleLine_text {l : Label} (h : l.Legible) : SingleLine l.text := by
  have hspace : SingleLine " " := by decide
  have hname : ∀ word ∈ names, SingleLine word := by decide
  refine singleLine_append.mpr ⟨hname _ l.name_mem, ?_⟩
  -- shown texts escape their line breaks, and legible ones have none
  cases l with
  | term t =>
    obtain ⟨hvalue, hmodifier⟩ := List.forall_mem_cons.mp h
    exact singleLine_append.mpr ⟨hspace,
      singleLine_append.mpr ⟨hvalue.2, TermModifier.singleLine_remark hmodifier⟩⟩
  | phrase p =>
    obtain ⟨-, hmodifier⟩ := List.forall_mem_cons.mp h
    have hvalue : SingleLine (Text.Shown.write p.value) :=
      Text.Shown.not_mem_write (by decide) (by decide) (by decide) p.value
    exact singleLine_append.mpr ⟨hspace,
      singleLine_append.mpr ⟨hvalue, PhraseModifier.singleLine_remark hmodifier⟩⟩
  | group => decide
  | unary operator => cases operator <;> decide
  | field fieldName =>
    obtain ⟨hfield, -⟩ := List.forall_mem_cons.mp h
    exact singleLine_append.mpr ⟨hspace, hfield.2⟩
  | range fieldName bounds ends =>
    obtain ⟨hfield, hends⟩ := List.forall_mem_cons.mp h
    have hlower : SingleLine ends.lower := (hends (.endpoint, ends.lower) (by simp [Range.texts])).2
    have hupper : SingleLine ends.upper := (hends (.endpoint, ends.upper) (by simp [Range.texts])).2
    exact singleLine_append.mpr ⟨hspace, singleLine_append.mpr ⟨hfield.2,
      singleLine_append.mpr ⟨hspace, bounds.singleLine_enclose hlower hupper⟩⟩⟩
  | sequence count =>
    exact singleLine_append.mpr ⟨hspace, singleLine_append.mpr ⟨by decide,
      singleLine_append.mpr ⟨singleLine_toString count, by decide⟩⟩⟩

/-- The indentation of a line ends at the first character of a name. -/
theorem Label.head?_text (l : Label) : ∃ c, l.text.toList.head? = some c ∧ c ≠ ' ' := by
  have hfirst : ∀ word ∈ names, ∃ c, word.toList.head? = some c ∧ c ≠ ' ' := by
    simp [names]
  obtain ⟨c, hc, hne⟩ := hfirst _ l.name_mem
  refine ⟨c, ?_, hne⟩
  rw [text, String.toList_append, List.head?_append, hc, Option.some_or]

end CanonicalQuery
