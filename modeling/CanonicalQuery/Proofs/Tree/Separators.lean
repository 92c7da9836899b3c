import CanonicalQuery.Proofs.Query.Contexts
import CanonicalQuery.Proofs.Query.Spine
import CanonicalQuery.Proofs.Tree.RoundTrip
import Mathlib.Data.List.Chain
import Mathlib.Data.List.Infix

/-!
# No stray separators

Separators are written by sequences only, one between each two neighbours.  If the texts of a tree
hold no separator themselves and are not empty, every separator of the canonical text stands between
two texts or marks: none at an end of the text, none beside another one, and none within a
parenthesis at its edge.

There are two conditions.  An empty sequence writes nothing, so the separators beside it have
nothing to separate; it may only stand alone.  And query text escapes nothing, so a parenthesis at
the edge of a text looks like any other.

## Main definitions

- `Care`: beside which characters a separator is stray.
- `Trim`: texts in which no separator is stray.
- `Spine.LoneBlanks`, `Node.GroupsLone`: spines and groups in which blanks stand alone.
- `Tidy`, `TidyGroups`: what is said about canonical texts.

## Main statements

- `Spine.trim_query`: the text of a spine is trim.
- `Node.query_tidy`: the canonical text of an attribute tree has no stray separators.
- `Node.query_has_stray_separators`: what becomes of trees that do not meet the conditions.
-/

namespace CanonicalQuery

open CanonicalQuery.Json (Value)

/-! ## §1 Trim texts -/

/-- Beside which characters a separator is stray: beside other separators, or also behind an opening
and before a closing parenthesis. -/
inductive Care where
  | separators
  | parentheses

/-- The characters behind which no separator may stand. -/
def Care.openers : Care → List Char
  | .separators => [' ']
  | .parentheses => [' ', '(']

/-- The characters before which no separator may stand. -/
def Care.closers : Care → List Char
  | .separators => [' ']
  | .parentheses => [' ', ')']

/-- No separator stands at an end of the text or where it would be stray, and none would be stray
where a separator was put behind or before the text. -/
structure Trim (care : Care) (text : List Char) : Prop where
  first : ∀ c ∈ text.head?, c ∉ care.closers
  last : ∀ c ∈ text.getLast?, c ∉ care.openers
  inside : text.IsChain fun a b => (a ∈ care.openers → b ≠ ' ') ∧ (b ∈ care.closers → a ≠ ' ')

namespace Trim

variable {care : Care} {s t : List Char}

theorem space_mem_openers : ' ' ∈ care.openers := by
  cases care <;> decide

theorem space_mem_closers : ' ' ∈ care.closers := by
  cases care <;> decide

theorem nil : Trim care [] := ⟨by simp, by simp, .nil⟩

/-- No trim text begins with a separator. -/
theorem first_ne_space (h : Trim care s) : ∀ c ∈ s.head?, c ≠ ' ' := by
  rintro c hc rfl
  exact h.first _ hc space_mem_closers

/-- No trim text ends with a separator. -/
theorem last_ne_space (h : Trim care s) : ∀ c ∈ s.getLast?, c ≠ ' ' := by
  rintro c hc rfl
  exact h.last _ hc space_mem_openers

/-- Where two trim texts meet there is no separator. -/
theorem append (hs : Trim care s) (ht : Trim care t) : Trim care (s ++ t) where
  first c hc := by
    rw [List.head?_append] at hc
    rcases Option.or_eq_some_iff.mp hc with hc | ⟨-, hc⟩
    · exact hs.first c hc
    · exact ht.first c hc
  last c hc := by
    rw [List.getLast?_append] at hc
    rcases Option.or_eq_some_iff.mp hc with hc | ⟨-, hc⟩
    · exact ht.last c hc
    · exact hs.last c hc
  inside := hs.inside.append ht.inside fun a ha b hb =>
    ⟨fun _ => ht.first_ne_space b hb, fun _ => hs.last_ne_space a ha⟩

/-- A separator may stand between two texts that are there. -/
theorem join (hs : Trim care s) (ht : Trim care t) (hsne : s ≠ []) (htne : t ≠ []) :
    Trim care (s ++ ' ' :: t) where
  first c hc := by
    rw [List.head?_append_of_ne_nil s hsne] at hc
    exact hs.first c hc
  last c hc := by
    rw [List.getLast?_append_of_ne_nil s (List.cons_ne_nil ' ' t),
      List.getLast?_cons_of_ne_nil htne] at hc
    exact ht.last c hc
  -- the separator has text on both sides, and neither side is one beside which it is stray
  inside := by
    have hbehind : (' ' :: t).IsChain
        fun a b => (a ∈ care.openers → b ≠ ' ') ∧ (b ∈ care.closers → a ≠ ' ') :=
      ht.inside.cons fun b hb => ⟨fun _ => ht.first_ne_space b hb, fun hclose => absurd hclose
        (ht.first b hb)⟩
    refine hs.inside.append hbehind fun a ha b hb => ?_
    obtain rfl : ' ' = b := by simpa using hb
    exact ⟨fun hopen => absurd hopen (hs.last a ha), fun _ => hs.last_ne_space a ha⟩

/-- Marks around a text, which need not be there. -/
theorem enclose (hs : Trim care s) (opening closing : Char)
    (hopening : opening ∉ care.closers ∧ opening ≠ ' ')
    (hclosing : closing ∉ care.openers ∧ closing ≠ ' ') :
    Trim care (opening :: (s ++ [closing])) where
  first c hc := by
    obtain rfl : opening = c := by simpa using hc
    exact hopening.1
  last c hc := by
    obtain rfl : closing = c := by simpa [List.getLast?_cons, List.getLast?_append] using hc
    exact hclosing.1
  inside := by
    have hbehind : (s ++ [closing]).IsChain
        fun a b => (a ∈ care.openers → b ≠ ' ') ∧ (b ∈ care.closers → a ≠ ' ') :=
      hs.inside.append (.singleton closing) fun a ha b hb => by
        obtain rfl : closing = b := by simpa using hb
        exact ⟨fun _ => hclosing.2, fun _ => hs.last_ne_space a ha⟩
    -- what follows the opening mark is the text, or the closing mark if there is none
    refine hbehind.cons fun b hb => ⟨fun _ => ?_, fun _ => hopening.2⟩
    rw [List.head?_append] at hb
    rcases Option.or_eq_some_iff.mp hb with hb | ⟨-, hb⟩
    · exact hs.first_ne_space b hb
    · obtain rfl : closing = b := by simpa using hb
      exact hclosing.2

/-- In a text without separators, only the edges count. -/
theorem of_not_mem (hspace : ' ' ∉ s) (hfirst : ∀ c ∈ s.head?, c ∉ care.closers)
    (hlast : ∀ c ∈ s.getLast?, c ∉ care.openers) : Trim care s where
  first := hfirst
  last := hlast
  -- a separator beside another character would be one of the text
  inside := (List.pairwise_of_forall_mem_list fun _ ha _ hb =>
    ⟨fun _ h => hspace (h ▸ hb), fun _ h => hspace (h ▸ ha)⟩).isChain

end Trim

/-! ## §2 Texts without separators -/

/-- The text has no separator, and is not empty unless it is the degree of a similarity. -/
structure Solid (t : Role × String) : Prop where
  nonempty : t.1 ≠ .similarity → t.2 ≠ ""
  spaceless : ' ' ∉ t.2.toList

/-- The text does not end with an opening or begin with a closing parenthesis. -/
structure Detached (text : String) : Prop where
  first : text.toList.head? ≠ some ')'
  last : text.toList.getLast? ≠ some '('

instance (t : Role × String) : Decidable (Solid t) :=
  decidable_of_iff ((t.1 ≠ .similarity → t.2 ≠ "") ∧ ' ' ∉ t.2.toList)
    ⟨fun ⟨h, h'⟩ => ⟨h, h'⟩, fun h => ⟨h.nonempty, h.spaceless⟩⟩

instance (text : String) : Decidable (Detached text) :=
  decidable_of_iff (text.toList.head? ≠ some ')' ∧ text.toList.getLast? ≠ some '(')
    ⟨fun ⟨h, h'⟩ => ⟨h, h'⟩, fun h => ⟨h.first, h.last⟩⟩

/-- The text may stand where its neighbours are looked at with this care. -/
def Fits (care : Care) (t : Role × String) : Prop :=
  Solid t ∧ (care = .parentheses → Detached t.2)

section Fits

variable {care : Care} {role : Role} {text : String}

/-- A text that fits is trim. -/
theorem Fits.trim (h : Fits care (role, text)) : Trim care text.toList := by
  obtain ⟨hsolid, hdetached⟩ := h
  -- no character of it is a separator, so only parentheses at its edges could matter
  have hspace : ∀ c ∈ text.toList, c ≠ ' ' := fun c hc h => hsolid.spaceless (h ▸ hc)
  refine .of_not_mem hsolid.spaceless (fun c hc => ?_) fun c hc => ?_
  · have hne := hspace c (List.mem_of_head? hc)
    cases care with
    | separators => simpa [Care.closers] using hne
    | parentheses =>
      have hparen : c ≠ ')' := fun h => (hdetached rfl).first (h ▸ hc)
      simp [Care.closers, hne, hparen]
  · have hne := hspace c (List.mem_of_getLast? hc)
    cases care with
    | separators => simpa [Care.openers] using hne
    | parentheses =>
      have hparen : c ≠ '(' := fun h => (hdetached rfl).last (h ▸ hc)
      simp [Care.openers, hne, hparen]

/-- A text that fits is there, unless it is the degree of a similarity. -/
theorem Fits.ne_nil (h : Fits care (role, text)) (hrole : role ≠ .similarity) :
    text.toList ≠ [] := by
  simpa using h.1.nonempty hrole

end Fits

/-! ## §3 Spines in which blanks stand alone -/

/-- A blank among these elements is the only one of them. -/
def Alone (first : Element) (rest : List Element) : Prop :=
  rest = [] ∨ ∀ e ∈ first :: rest, e ≠ .blank

/-- In every group of the element, blanks stand alone. -/
def Element.LoneBlanks : Element → Prop
  | .blank | .term _ | .phrase _ | .range _ _ _ => True
  | .group first rest => Alone first rest ∧ first.LoneBlanks ∧ loneBlanksOfAll rest
  | .marked _ e | .named _ e => e.LoneBlanks
where
  loneBlanksOfAll : List Element → Prop
    | [] => True
    | e :: es => e.LoneBlanks ∧ loneBlanksOfAll es

/-- Blanks stand alone in the spine and in every group of it. -/
def Spine.LoneBlanks (s : Spine) : Prop :=
  Alone s.first s.rest ∧ s.first.LoneBlanks ∧ Element.LoneBlanks.loneBlanksOfAll s.rest

/-! ## §4 The text of a spine is trim -/

section Trim

variable {care : Care}

/-- Marks that are neither separators nor parentheses. -/
theorem trim_mark {mark : String} (h : mark = ":" ∨ mark = "~" ∨ mark = "^" ∨ mark = "TO" ∨
    mark = "+" ∨ mark = "-") : Trim care mark.toList := by
  rcases h with rfl | rfl | rfl | rfl | rfl | rfl <;>
    exact .of_not_mem (by decide) (by cases care <;> simp [Care.closers])
      (by cases care <;> simp [Care.openers])

/-- A trim text behind a mark behind a trim text. -/
theorem Trim.behind {s : List Char} {mark text : String} (hs : Trim care s)
    (hmark : Trim care mark.toList) (htext : Trim care text.toList) :
    Trim care (s ++ (mark ++ text).toList) := by
  rw [String.toList_append]
  exact hs.append (hmark.append htext)

/-- The text of a term is trim if its parts fit. -/
theorem Term.trim_query (t : Term) (h : ∀ text ∈ t.texts, Fits care text) :
    Trim care t.query.toList := by
  obtain ⟨value, modifier⟩ := t
  have hvalue : Trim care value.toList := (h (.word, value) (by simp [Term.texts])).trim
  rw [Term.query, String.toList_append]
  rcases modifier with _ | (degree | factor)
  · simpa using hvalue
  -- the modifier stands behind its sign, and may have no text
  · have hdegree := (h (.similarity, degree) (by simp [Term.texts, TermModifier.held])).trim
    exact hvalue.behind (trim_mark (by simp)) hdegree
  · have hfactor := (h (.boost, factor) (by simp [Term.texts, TermModifier.held])).trim
    exact hvalue.behind (trim_mark (by simp)) hfactor

/-- The text of a phrase is trim if its parts fit. -/
theorem Phrase.trim_query (p : Phrase) (h : ∀ text ∈ p.texts, Fits care text) :
    Trim care p.query.toList := by
  obtain ⟨value, modifier⟩ := p
  have hvalue : Trim care value.toList := (h (.quoted, value) (by simp [Phrase.texts])).trim
  -- the quotes are no separators, and so the text may stand between them
  have hquoted : Trim care ("\"" ++ value ++ "\"").toList := by
    have hquotes := hvalue.enclose '"' '"'
      (by cases care <;> decide) (by cases care <;> decide)
    simpa using hquotes
  rw [Phrase.query, String.toList_append]
  rcases modifier with _ | (factor | words)
  · simpa using hquoted
  · have hfactor := (h (.boost, factor) (by simp [Phrase.texts, PhraseModifier.held])).trim
    exact hquoted.behind (trim_mark (by simp)) hfactor
  · have hwords := (h (.distance, words) (by simp [Phrase.texts, PhraseModifier.held])).trim
    exact hquoted.behind (trim_mark (by simp)) hwords

/-- The ends of a range are joined by a word between separators. -/
theorem Range.trim_query (r : Range) (bounds : Bounds) (h : ∀ text ∈ r.texts, Fits care text) :
    Trim care (bounds.enclose r.query).toList := by
  have hlower := h (.endpoint, r.lower) (by simp [Range.texts])
  have hupper := h (.endpoint, r.upper) (by simp [Range.texts])
  have hto : Trim care "TO".toList := trim_mark (by simp)
  -- two separators, and each has text on both sides
  have hends : Trim care r.query.toList := by
    have hjoin := hlower.trim.join (hto.join hupper.trim (by decide) (hupper.ne_nil (by decide)))
      (hlower.ne_nil (by decide)) (by simp)
    simpa [Range.query] using hjoin
  cases bounds with
  | inclusive =>
    have henclosed := hends.enclose '[' ']'
      (by cases care <;> decide) (by cases care <;> decide)
    simpa [Bounds.enclose] using henclosed
  | exclusive =>
    have henclosed := hends.enclose '\x7b' '\x7d'
      (by cases care <;> decide) (by cases care <;> decide)
    simpa [Bounds.enclose] using henclosed

/-- The name of a field and its colon in front of a trim text. -/
theorem trim_named {name : String} {text : List Char} (hname : Fits care (.name, name))
    (htext : Trim care text) : Trim care ((name ++ ":").toList ++ text) := by
  rw [String.toList_append]
  exact (hname.trim.append (trim_mark (by simp))).append htext

/-- Elements side by side, a blank only if it is alone, if the first is trim and the others are
behind any text. -/
theorem Alone.trim {first : Element} {rest : List Element} (halone : Alone first rest)
    (hfirst : Trim care first.query.toList ∧ (first ≠ .blank → first.query.toList ≠ []))
    (hrest : (∀ e ∈ rest, e ≠ .blank) → ∀ {front : List Char}, Trim care front → front ≠ [] →
      Trim care (front ++ (Element.query.queryBehind rest).toList)) :
    Trim care (first.query.toList ++ (Element.query.queryBehind rest).toList) := by
  obtain ⟨htrim, hne⟩ := hfirst
  -- the first element is alone, or none of them is a blank
  rcases halone with rfl | hnone
  · simpa [Element.query.queryBehind] using htrim
  · obtain ⟨hfirstne, hrestne⟩ := List.forall_mem_cons.mp hnone
    exact hrest hrestne htrim (hne hfirstne)

mutual

/-- The text of an element is trim, and there is one unless the element is a blank. -/
theorem Element.trim_query : ∀ e : Element, e.LoneBlanks → (∀ t ∈ e.texts, Fits care t) →
    Trim care e.query.toList ∧ (e ≠ .blank → e.query.toList ≠ [])
  | .blank, _, _ => ⟨.nil, fun h => absurd rfl h⟩
  | .term t, _, ht => by
    have hvalue := (ht (.word, t.value) (by simp [texts, Term.texts])).ne_nil (by decide)
    exact ⟨t.trim_query ht, fun _ => by simp_all [query, Term.query]⟩
  | .phrase p, _, ht => ⟨p.trim_query ht, fun _ => by simp [query, Phrase.query]⟩
  | .range name bounds ends, _, ht => by
    obtain ⟨hname, hends⟩ := List.forall_mem_cons.mp ht
    refine ⟨?_, fun _ => by simp [query]⟩
    rw [query, String.toList_append]
    exact trim_named hname (ends.trim_query bounds hends)
  | .group first rest, ⟨halone, hfirst, hrest⟩, ht => by
    obtain ⟨htfirst, htrest⟩ := List.forall_mem_append.mp ht
    -- what stands within the parentheses is the text of a spine
    have hinner : Trim care (first.query.toList ++ (query.queryBehind rest).toList) :=
      halone.trim (first.trim_query hfirst htfirst) (trim_queryBehind rest hrest htrest)
    have hgroup := hinner.enclose '(' ')' (by cases care <;> decide) (by cases care <;> decide)
    refine ⟨?_, fun _ => by simp [query]⟩
    simpa [query] using hgroup
  | .marked operator e, hblanks, ht => by
    have hsymbol : Trim care operator.symbol.toList := by
      cases operator <;> exact trim_mark (by simp [Operator.symbol])
    have hne : operator.symbol.toList ≠ [] := by cases operator <;> decide
    refine ⟨?_, fun _ => by simp_all [query]⟩
    rw [query, String.toList_append]
    exact hsymbol.append (e.trim_query hblanks ht).1
  | .named name e, hblanks, ht => by
    obtain ⟨hname, hte⟩ := List.forall_mem_cons.mp ht
    refine ⟨?_, fun _ => by simp [query]⟩
    rw [query, String.toList_append]
    exact trim_named hname (e.trim_query hblanks hte).1

/-- Elements behind a text, a separator before each. -/
theorem Element.trim_queryBehind : ∀ es : List Element,
    LoneBlanks.loneBlanksOfAll es → (∀ t ∈ texts.textsOfAll es, Fits care t) →
    (∀ e ∈ es, e ≠ .blank) → ∀ {front : List Char}, Trim care front → front ≠ [] →
    Trim care (front ++ (query.queryBehind es).toList)
  | [], _, _, _, _, hfront, _ => by simpa [query.queryBehind] using hfront
  | e :: es, ⟨hblanks, hblanksBehind⟩, ht, hne, front, hfront, hfrontne => by
    obtain ⟨hte, htes⟩ := List.forall_mem_append.mp ht
    obtain ⟨hene, hesne⟩ := List.forall_mem_cons.mp hne
    obtain ⟨htrim, hquery⟩ := e.trim_query hblanks hte
    -- the separator stands between the text in front and the element, and both are there
    have hnext : Trim care (front ++ ' ' :: e.query.toList) :=
      hfront.join htrim hfrontne (hquery hene)
    have hall := trim_queryBehind es hblanksBehind htes hesne hnext (by simp)
    simpa [query.queryBehind] using hall

end

/-- **The text of a spine is trim** if its texts are and blanks stand alone. -/
theorem Spine.trim_query (s : Spine) (hblanks : s.LoneBlanks) (ht : ∀ t ∈ s.texts, Fits care t) :
    Trim care s.query.toList := by
  obtain ⟨halone, hfirst, hrest⟩ := hblanks
  obtain ⟨htfirst, htrest⟩ := List.forall_mem_append.mp ht
  rw [Spine.query, String.toList_append]
  exact halone.trim (s.first.trim_query hfirst htfirst)
    (Element.trim_queryBehind s.rest hrest htrest)

/-- The text of a tree is trim if its spine has lone blanks and its texts fit. -/
theorem Node.trim_query {n : Node} (hblanks : n.spine.LoneBlanks)
    (ht : ∀ t ∈ n.texts, Fits care t) : Trim care n.query.toList := by
  rw [← Node.query_spine]
  exact n.spine.trim_query hblanks fun t h => ht t (Node.texts_spine n ▸ h)

end Trim

/-! ## §5 The groups of a tree -/

section Groups

/-- Blanks stand alone in all elements just if they do in each. -/
theorem Element.loneBlanksOfAll_iff {es : List Element} :
    LoneBlanks.loneBlanksOfAll es ↔ ∀ e ∈ es, e.LoneBlanks := by
  induction es with
  | nil => simp [LoneBlanks.loneBlanksOfAll]
  | cons e es ih => simp [LoneBlanks.loneBlanksOfAll, ih]

/-- Blanks stand alone in a spine just if they do on its first level and in each element. -/
theorem Spine.loneBlanks_iff {s : Spine} :
    s.LoneBlanks ↔ Alone s.first s.rest ∧ ∀ e ∈ s.elements, e.LoneBlanks := by
  rw [LoneBlanks, Element.loneBlanksOfAll_iff, elements, List.forall_mem_cons]

/-- In every group of the tree, blanks stand alone.  They may stand anywhere outside of groups. -/
def Node.GroupsLone (n : Node) : Prop :=
  ∀ e ∈ n.spine.elements, e.LoneBlanks

/-- The elements of an item are elements of the sequence. -/
theorem Node.mem_elements_sequence {n : Node} {ns : List Node} (hn : n ∈ ns) {e : Element}
    (he : e ∈ n.spine.elements) : e ∈ (Node.sequence ns).spine.elements := by
  cases ns with
  | nil => cases hn
  | cons m ms =>
    rw [Node.elements_spine_sequence]
    exact List.mem_flatMap.mpr ⟨n, hn, he⟩

/-- If blanks stand alone in the groups around a tree, they do in its own. -/
theorem Node.GroupsLone.of_fill {l : Layer} {n : Node} (h : (l.fill n).GroupsLone) :
    n.GroupsLone := by
  cases l with
  | group =>
    obtain ⟨-, hfirst, hrest⟩ := h _ (List.mem_singleton.mpr rfl)
    exact List.forall_mem_cons.mpr ⟨hfirst, Element.loneBlanksOfAll_iff.mp hrest⟩
  -- the mark stands before the first element, and the others are the same
  | unary operator =>
    obtain ⟨hfirst, hrest⟩ := List.forall_mem_cons.mp h
    exact List.forall_mem_cons.mpr ⟨hfirst, hrest⟩
  | field name =>
    obtain ⟨hfirst, hrest⟩ := List.forall_mem_cons.mp h
    exact List.forall_mem_cons.mpr ⟨hfirst, hrest⟩
  | item earlier later =>
    exact fun e he => h e (Node.mem_elements_sequence (by simp) he)

/-- What is said about all groups and texts of a tree holds of its parts. -/
theorem Node.lone_of_fill (C : Context) {n : Node} (hgroups : (C.fill n).GroupsLone) :
    n.GroupsLone ∧ ∀ t ∈ n.texts, t ∈ (C.fill n).texts := by
  refine ⟨?_, fun t ht => C.mem_texts_fill ht⟩
  -- on the layers of the context, from the outside
  induction C with
  | nil => exact hgroups
  | cons l C ih => exact ih hgroups.of_fill

/-- The text of a group is trim within its parentheses. -/
theorem Node.trim_query_of_group {care : Care} (C : Context) {inner : Node}
    (hgroups : (C.fill (.group inner)).GroupsLone)
    (ht : ∀ t ∈ (C.fill (.group inner)).texts, Fits care t) : Trim care inner.query.toList := by
  obtain ⟨hlone, htexts⟩ := Node.lone_of_fill C hgroups
  have hinner : inner.spine.LoneBlanks := hlone _ (List.mem_singleton.mpr rfl)
  exact Node.trim_query hinner fun t h => ht t (htexts t h)

end Groups

/-! ## §6 Canonical texts -/

/-- No separator at an end of the text, and no two side by side. -/
structure Tidy (text : String) : Prop where
  first : ¬[' '] <+: text.toList
  last : ¬[' '] <:+ text.toList
  single : ¬[' ', ' '] <:+: text.toList

/-- No separator directly within a parenthesis. -/
structure TidyGroups (text : String) : Prop where
  opened : ¬['(', ' '] <:+: text.toList
  closed : ¬[' ', ')'] <:+: text.toList

instance (text : String) : Decidable (Tidy text) :=
  decidable_of_iff (¬[' '] <+: text.toList ∧ ¬[' '] <:+ text.toList ∧ ¬[' ', ' '] <:+: text.toList)
    ⟨fun ⟨h, h', h''⟩ => ⟨h, h', h''⟩, fun h => ⟨h.first, h.last, h.single⟩⟩

instance (text : String) : Decidable (TidyGroups text) :=
  decidable_of_iff (¬['(', ' '] <:+: text.toList ∧ ¬[' ', ')'] <:+: text.toList)
    ⟨fun ⟨h, h'⟩ => ⟨h, h'⟩, fun h => ⟨h.opened, h.closed⟩⟩

/-- In a trim text, two characters side by side are as they should be. -/
theorem Trim.pair {care : Care} {s : List Char} (h : Trim care s) {a b : Char}
    (hab : [a, b] <:+: s) : (a ∈ care.openers → b ≠ ' ') ∧ (b ∈ care.closers → a ≠ ' ') := by
  have hpair : [a, b].IsChain _ := List.IsChain.infix h.inside hab
  exact hpair.rel

/-- A trim text is tidy. -/
theorem Trim.tidy {care : Care} {text : String} (h : Trim care text.toList) : Tidy text where
  first := by
    rintro ⟨rest, hrest⟩
    exact h.first_ne_space ' ' (by simp [← hrest]) rfl
  last := by
    rintro ⟨rest, hrest⟩
    exact h.last_ne_space ' ' (by simp [← hrest]) rfl
  single hab := (h.pair hab).1 Trim.space_mem_openers rfl

/-- A text that is trim beside parentheses too has tidy groups. -/
theorem Trim.tidyGroups {text : String} (h : Trim .parentheses text.toList) : TidyGroups text where
  opened hab := (h.pair hab).1 (by decide) rfl
  closed hab := (h.pair hab).2 (by decide) rfl

/-- **Canonical texts have no stray separators.**  Let the texts of a tree be free of separators and
let blanks stand alone.  Then no separator of the canonical text is at an end of it or beside
another one, none is at an end of what stands between the parentheses of a group, and, if no text of
the tree passes for one, none is directly behind an opening or before a closing parenthesis. -/
theorem Node.query_tidy {v : Value} {n : Node} (hv : Node.ofTree v = .ok n)
    (htexts : ∀ t ∈ n.texts, Solid t) (hblanks : n.spine.LoneBlanks) :
    v.canonicalQuery = .ok n.query ∧ Tidy n.query ∧
    (∀ (C : Node.Context) (inner : Node), C.fill (.group inner) = n →
      n.query = C.front ++ "(" ++ inner.query ++ ")" ++ C.back ∧ Tidy inner.query) ∧
    ((∀ t ∈ n.texts, Detached t.2) → TidyGroups n.query) := by
  have hfits : ∀ t ∈ n.texts, Fits .separators t := fun t ht => ⟨htexts t ht, nofun⟩
  refine ⟨(Tree.denotes_of_ofTree hv).canonicalQuery, (Node.trim_query hblanks hfits).tidy, ?_, ?_⟩
  · rintro C inner rfl
    -- the group is an element of the spine, and its own spine has lone blanks
    have hgroups := (Spine.loneBlanks_iff.mp hblanks).2
    refine ⟨?_, (Node.trim_query_of_group C hgroups hfits).tidy⟩
    rw [C.query_fill, Node.query]
    simp only [String.append_assoc]
  · intro hdetached
    have hfits' : ∀ t ∈ n.texts, Fits .parentheses t :=
      fun t ht => ⟨htexts t ht, fun _ => hdetached t ht⟩
    exact (Node.trim_query hblanks hfits').tidyGroups

/-- A group without text is no blank, nor is it a stray separator. -/
theorem Node.query_tidy_of_empty_group :
    let v : Value := .array [.string "a", .object [("group", .array [])],
      .object [("field", .string "f"), ("operand", .object [("group",
        .array [.string "b", .string "c"])])]]
    v.canonicalQuery = .ok "a () f:(b c)" ∧ Tidy "a () f:(b c)" ∧ TidyGroups "a () f:(b c)" := by
  intro v
  let n : Node := .sequence [.word "a", .group (.sequence []),
    .field "f" (.group (.sequence [.word "b", .word "c"]))]
  -- no text holds a blank or a parenthesis
  have htexts : ∀ t ∈ n.texts, Solid t ∧ Detached t.2 := by decide
  have hblanks : n.spine.LoneBlanks := by
    simp [n, Node.spine, Node.spine.elementsOfAll, Spine.LoneBlanks, Spine.single, Spine.ofElements,
      Spine.elements, Spine.grouped, Spine.mapFirst, Alone, Element.LoneBlanks,
      Element.LoneBlanks.loneBlanksOfAll, Node.word]
  obtain ⟨hquery, htidy, -, hgroups⟩ :=
    Node.query_tidy (show Node.ofTree v = .ok n from rfl) (fun t ht => (htexts t ht).1) hblanks
  exact ⟨hquery, htidy, hgroups fun t ht => (htexts t ht).2⟩

/-- A text that ends with a parenthesis, and an empty sequence beside another item. -/
theorem Node.query_has_stray_separators :
    (∃ n, Node.ofTree (.array [.string "(", .string "a"]) = .ok n ∧ (∀ t ∈ n.texts, Solid t) ∧
      ¬TidyGroups n.query) ∧
    ∃ n, Node.ofTree (.array [.string "a", .array []]) = .ok n ∧ (∀ t ∈ n.texts, Solid t) ∧
      ¬Tidy n.query :=
  ⟨⟨.sequence [.word "(", .word "a"], rfl, by decide, by decide⟩,
    ⟨.sequence [.word "a", .sequence []], rfl, by decide, by decide⟩⟩

end CanonicalQuery
