import CanonicalQuery.Proofs.Query.Flat
import CanonicalQuery.Proofs.Query.Plain
import CanonicalQuery.Proofs.Text.Pieces

/-!
# Query text is unambiguous up to spines

Two trees with the same spine have the same text, and two plain trees with the same text have the
same spine.  So a spine is exactly what a reader can tell from the text of a plain tree.

The second half reads two texts side by side.  An element is read from a text together with what
stands behind it, and what stands behind it is known only by its first character: an element ends
at a space, at a closing parenthesis or at the end of the text, a spine at a closing parenthesis or
at the end.  The first character of an element, and for a word the characters right behind it, tell
which of the seven kinds of elements it is (`Element.opening_of_query`); after that both texts are
taken apart piece by piece.

## Main statements

- `Element.query_append_inj`: a text determines the plain element that it begins with, and where
  that ends.
- `Node.query_eq_of_spine_eq`, `Node.spine_eq_of_query_eq`: the two halves.
- `Node.query_ambiguity_exact`: both of them, and what follows for trees that differ in how they
  nest sequences and for trees that are flat.
-/

namespace CanonicalQuery

/-! ## §1 Where an element ends -/

/-- The characters at which an element ends. -/
def elementEnds : List Char := [' ', ')']

/-- The characters at which a spine ends. -/
def spineEnds : List Char := [')']

theorem elementEnds_subset_reserved : ∀ c ∈ elementEnds, c ∈ reserved := by
  simp [elementEnds, reserved]

theorem spineEnds_subset_elementEnds : ∀ c ∈ spineEnds, c ∈ elementEnds := by
  simp [spineEnds, elementEnds]

/-- The elements behind another one begin with a separator. -/
theorem Element.stopsAt_queryBehind (es : List Element) {r : List Char}
    (hr : StopsAt spineEnds r) :
    StopsAt elementEnds ((Element.query.queryBehind es).toList ++ r) := by
  cases es with
  | nil =>
    simpa [Element.query.queryBehind] using hr.mono spineEnds_subset_elementEnds
  | cons e es =>
    simpa [Element.query.queryBehind] using stopsAt_cons (by decide) _

/-! ## §2 What stands behind a word or a quoted text -/

/-- The text of a modifier, or no text: a sign and what it says. -/
def IsSuffix (text : String) : Prop :=
  text = "" ∨ ∃ sign argument, (sign = "~" ∨ sign = "^") ∧ Unreserved argument ∧
    text = sign ++ argument

/-- What stands behind the word of a term. -/
def Term.suffix (t : Term) : String :=
  (t.modifier.map TermModifier.query).getD ""

/-- What stands behind the closing quote of a phrase. -/
def Phrase.suffix (p : Phrase) : String :=
  (p.modifier.map PhraseModifier.query).getD ""

/-- The modifier of a plain term is written as a suffix. -/
theorem Term.isSuffix_suffix {t : Term} (h : PlainTexts t.texts) : IsSuffix t.suffix := by
  obtain ⟨value, modifier⟩ := t
  -- without a modifier nothing is written, and a modifier begins with its sign
  cases modifier with
  | none => exact Or.inl rfl
  | some m =>
    cases m with
    | similarity degree =>
      have hdegree : Unreserved degree := h (.similarity, degree) (by simp [Term.texts,
        TermModifier.held])
      exact Or.inr ⟨"~", degree, Or.inl rfl, hdegree, rfl⟩
    | boost factor =>
      have hfactor : Unreserved factor := h (.boost, factor) (by simp [Term.texts,
        TermModifier.held])
      exact Or.inr ⟨"^", factor, Or.inr rfl, hfactor, rfl⟩

/-- The modifier of a plain phrase is written as a suffix. -/
theorem Phrase.isSuffix_suffix {p : Phrase} (h : PlainTexts p.texts) : IsSuffix p.suffix := by
  obtain ⟨value, modifier⟩ := p
  cases modifier with
  | none => exact Or.inl rfl
  | some m =>
    cases m with
    -- the signs are those of terms, and a distance takes that of a similarity
    | boost factor =>
      have hfactor : Unreserved factor := h (.boost, factor) (by simp [Phrase.texts,
        PhraseModifier.held])
      exact Or.inr ⟨"^", factor, Or.inr rfl, hfactor, rfl⟩
    | distance words =>
      have hwords : Unreserved words := h (.distance, words) (by simp [Phrase.texts,
        PhraseModifier.held])
      exact Or.inr ⟨"~", words, Or.inl rfl, hwords, rfl⟩

/-- A term is known by its word and what stands behind it. -/
theorem Term.eq_of_suffix_eq {t u : Term} (hvalue : t.value = u.value)
    (hsuffix : t.suffix = u.suffix) : t = u := by
  obtain ⟨value, modifier⟩ := t
  obtain ⟨value', modifier'⟩ := u
  cases hvalue
  replace hsuffix := congrArg String.toList hsuffix
  -- the signs differ, so equal suffixes are of the same modifier
  rcases modifier with _ | (degree | factor) <;> rcases modifier' with _ | (degree' | factor') <;>
    simp_all [Term.suffix, TermModifier.query, String.toList_inj]

/-- A phrase is known by its text and what stands behind it. -/
theorem Phrase.eq_of_suffix_eq {p q : Phrase} (hvalue : p.value = q.value)
    (hsuffix : p.suffix = q.suffix) : p = q := by
  obtain ⟨value, modifier⟩ := p
  obtain ⟨value', modifier'⟩ := q
  cases hvalue
  replace hsuffix := congrArg String.toList hsuffix
  rcases modifier with _ | (factor | words) <;> rcases modifier' with _ | (factor' | words') <;>
    simp_all [Phrase.suffix, PhraseModifier.query, String.toList_inj]

namespace IsSuffix

/-- No element ends within a suffix. -/
theorem not_mem_elementEnds {text : String} (h : IsSuffix text) :
    ∀ c ∈ text.toList, c ∉ elementEnds := by
  rcases h with rfl | ⟨sign, argument, hsign, hargument, rfl⟩
  · simp
  · have hrest : ∀ c ∈ argument.toList, c ∉ elementEnds :=
      fun c hc hend => hargument c hc (elementEnds_subset_reserved c hend)
    rcases hsign with rfl | rfl <;>
      simpa [String.toList_append] using ⟨by decide, hrest⟩

/-- A word ends where a suffix begins, and where none stands it ends with the element. -/
theorem stopsAt {text : String} (h : IsSuffix text) {r : List Char} (hr : StopsAt elementEnds r) :
    StopsAt reserved (text.toList ++ r) := by
  rcases h with rfl | ⟨sign, argument, hsign, -, rfl⟩
  · simpa using hr.mono elementEnds_subset_reserved
  -- a sign is reserved
  · rcases hsign with rfl | rfl <;>
      simpa [String.toList_append] using stopsAt_cons (by decide) _

/-- A suffix ends where the element ends. -/
theorem append_inj {a b : String} (ha : IsSuffix a) (hb : IsSuffix b) {r s : List Char}
    (hr : StopsAt elementEnds r) (hs : StopsAt elementEnds s)
    (h : a.toList ++ r = b.toList ++ s) : a = b ∧ r = s := by
  obtain ⟨hab, hrs⟩ :=
    append_inj_of_stopsAt ha.not_mem_elementEnds hb.not_mem_elementEnds hr hs h
  exact ⟨String.toList_inj.mp hab, hrs⟩

end IsSuffix

/-! ## §3 The characters of an element -/

/-- The bracket that opens a range. -/
def Bounds.left : Bounds → Char
  | .inclusive => '['
  | .exclusive => '\x7b'

/-- The bracket that closes a range. -/
def Bounds.right : Bounds → Char
  | .inclusive => ']'
  | .exclusive => '\x7d'

theorem Bounds.left_injective {a b : Bounds} (h : a.left = b.left) : a = b := by
  cases a <;> cases b <;> first | rfl | exact absurd h (by decide)

theorem Operator.symbol_cons_injective {o p : Operator} {l m : List Char}
    (h : o.symbol.toList ++ l = p.symbol.toList ++ m) : o = p ∧ l = m := by
  cases o <;> cases p <;> simp_all [Operator.symbol]

namespace Element

theorem toList_query_term (t : Term) :
    (Element.term t).query.toList = t.value.toList ++ t.suffix.toList := by
  rw [Element.query, ← String.toList_append]
  rfl

theorem toList_query_phrase (p : Phrase) :
    (Element.phrase p).query.toList = '"' :: (p.value.toList ++ '"' :: p.suffix.toList) := by
  have hquery : p.query = "\"" ++ p.value ++ "\"" ++ p.suffix := rfl
  simp [Element.query, hquery]

theorem toList_query_range (name : String) (bounds : Bounds) (ends : Range) :
    (Element.range name bounds ends).query.toList
      = name.toList ++ ':' :: bounds.left :: (ends.lower.toList ++
          ' ' :: 'T' :: 'O' :: ' ' :: (ends.upper.toList ++ [bounds.right])) := by
  cases bounds <;> simp [Element.query, Bounds.enclose, Bounds.left, Bounds.right, Range.query]

theorem toList_query_group (first : Element) (rest : List Element) :
    (Element.group first rest).query.toList
      = '(' :: (first.query.toList ++ ((query.queryBehind rest).toList ++ [')'])) := by
  simp [Element.query]

theorem toList_query_marked (operator : Operator) (e : Element) :
    (Element.marked operator e).query.toList = operator.symbol.toList ++ e.query.toList := by
  simp [Element.query]

theorem toList_query_named (name : String) (e : Element) :
    (Element.named name e).query.toList = name.toList ++ ':' :: e.query.toList := by
  simp [Element.query]

theorem toList_queryBehind_cons (e : Element) (es : List Element) :
    (query.queryBehind (e :: es)).toList
      = ' ' :: (e.query.toList ++ (query.queryBehind es).toList) := by
  simp [query.queryBehind]

end Element

/-! ## §4 Which kind of element a text begins with -/

/-- What a text begins with, as a reader tells it: one of the seven kinds of elements, or a
character with which no element begins. -/
inductive Opening where
  | blank
  | quote
  | parenthesis
  | stray
  | mark
  | word
  | name
  | range
  deriving DecidableEq, Repr

/-- What the characters behind a word make of it. -/
def openingBehindWord : List Char → Opening
  | ':' :: c :: _ => if c = '[' ∨ c = '\x7b' then .range else .name
  | [':'] => .name
  | _ => .word

/-- What a text begins with. -/
def opening : List Char → Opening
  | [] => .blank
  | c :: text =>
    if c ∈ elementEnds then .blank
    else if c = '"' then .quote
    else if c = '(' then .parenthesis
    else if c ∈ reserved then .stray
    else if c = '+' ∨ c = '-' then .mark
    else openingBehindWord (text.dropWhile fun d => d ∉ reserved)

/-- The kind of an element. -/
def Element.opening : Element → Opening
  | .blank => .blank
  | .term _ => .word
  | .phrase _ => .quote
  | .range _ _ _ => .range
  | .group _ _ => .parenthesis
  | .marked _ _ => .mark
  | .named _ _ => .name

theorem dropWhile_eq_self_of_stopsAt {text : List Char} (h : StopsAt reserved text) :
    text.dropWhile (fun d => d ∉ reserved) = text := by
  cases text with
  | nil => rfl
  | cons c text => simp [h c (by simp)]

/-- Behind a word, the characters that follow it decide. -/
theorem opening_of_wordlike {word : String} (hword : Wordlike word) {text : List Char}
    (htext : StopsAt reserved text) :
    opening (word.toList ++ text) = openingBehindWord text := by
  obtain ⟨hne, hres, hmark⟩ := hword
  rw [Unreserved] at hres
  rw [Ne, ← String.toList_eq_nil_iff] at hne
  cases hchars : word.toList with
  | nil => exact absurd hchars hne
  | cons c cs =>
    rw [hchars] at hres hmark
    have hc : c ∉ reserved := hres c (by simp)
    have hsigns := hmark c (by simp)
    -- so all tests on the first character fail, and the rest of the word is passed over
    have hends : c ∉ elementEnds := fun h => hc (elementEnds_subset_reserved c h)
    have hquote : c ≠ '"' := by rintro rfl; exact hc (by decide)
    have hopen : c ≠ '(' := by rintro rfl; exact hc (by decide)
    have hdrop : (cs ++ text).dropWhile (fun d => d ∉ reserved) = text := by
      rw [List.dropWhile_append_of_pos (by simpa using fun d hd => hres d (by simp [hd]))]
      exact dropWhile_eq_self_of_stopsAt htext
    simp only [List.cons_append, opening, hends, hc, hsigns, hquote, hopen, hdrop, or_self,
      if_false]

theorem openingBehindWord_eq_word {text : List Char} (h : ∀ c ∈ text.head?, c ≠ ':') :
    openingBehindWord text = .word := by
  unfold openingBehindWord
  split
  · exact absurd rfl (h ':' (by simp))
  · exact absurd rfl (h ':' (by simp))
  · rfl

theorem openingBehindWord_of_isSuffix {suffix : String} (h : IsSuffix suffix) {r : List Char}
    (hr : StopsAt elementEnds r) : openingBehindWord (suffix.toList ++ r) = .word := by
  apply openingBehindWord_eq_word
  rcases h with rfl | ⟨sign, argument, hsign, -, rfl⟩
  -- no modifier: the element ends here, and no element ends at a colon
  · rintro c hc rfl
    exact absurd (hr ':' (by simpa using hc)) (by decide)
  · rcases hsign with rfl | rfl <;> simp [String.toList_append]

/-- A colon and no bracket behind it make the name of a field of a word. -/
theorem openingBehindWord_colon {text : List Char} (h : opening text ≠ .stray) :
    openingBehindWord (':' :: text) = .name := by
  cases text with
  | nil => rfl
  | cons c text =>
    -- a bracket is reserved, and no element begins with it
    have hbracket : ¬(c = '[' ∨ c = '\x7b') := by
      rintro (rfl | rfl) <;> exact h (by simp [opening, elementEnds, reserved])
    simp [openingBehindWord, hbracket]

theorem Element.opening_ne_stray (e : Element) : e.opening ≠ .stray := by
  cases e <;> simp [Element.opening]

/-- The text of a plain element begins as its kind does, whatever stands behind the element. -/
theorem Element.opening_of_query : ∀ (e : Element) {r : List Char}, e.Plain →
    StopsAt elementEnds r → CanonicalQuery.opening (e.query.toList ++ r) = e.opening
  | .blank, r, _, hr => by
    cases r with
    | nil => rfl
    | cons c r => simp [Element.query, CanonicalQuery.opening, Element.opening, hr c (by simp)]
  | .term t, r, hplain, hr => by
    have hword : Wordlike t.value := hplain (.word, t.value) (by simp [Element.texts, Term.texts])
    have hsuffix : IsSuffix t.suffix := Term.isSuffix_suffix hplain
    rw [Element.toList_query_term, List.append_assoc,
      opening_of_wordlike hword (hsuffix.stopsAt hr), openingBehindWord_of_isSuffix hsuffix hr,
      Element.opening]
  | .phrase p, r, _, _ => by
    simp [Element.toList_query_phrase, CanonicalQuery.opening, Element.opening, elementEnds]
  | .range name bounds ends, r, hplain, _ => by
    -- behind the name and its colon stands the bracket of the range
    have hname : Wordlike name := hplain (.name, name) (by simp [Element.texts])
    rw [Element.toList_query_range, List.append_assoc, List.cons_append,
      opening_of_wordlike hname (stopsAt_cons (by decide) _)]
    cases bounds <;> simp [Bounds.left, openingBehindWord, Element.opening]
  | .group first rest, r, _, _ => by
    simp [Element.toList_query_group, CanonicalQuery.opening, Element.opening, elementEnds]
  | .marked operator e, r, _, _ => by
    cases operator <;>
      simp [Element.toList_query_marked, Operator.symbol, CanonicalQuery.opening,
        Element.opening, elementEnds, reserved]
  | .named name e, r, hplain, hr => by
    have hname : Wordlike name := hplain (.name, name) (by simp [Element.texts])
    have he : e.Plain := ((plainTexts_cons _ _).mp hplain).2
    -- what stands behind the colon is an element, and so no bracket
    have hstray : CanonicalQuery.opening (e.query.toList ++ r) ≠ .stray := by
      rw [Element.opening_of_query e he hr]
      exact e.opening_ne_stray
    rw [Element.toList_query_named, List.append_assoc, List.cons_append,
      opening_of_wordlike hname (stopsAt_cons (by decide) _)]
    exact openingBehindWord_colon hstray

/-- Elements whose texts begin alike are of one kind. -/
theorem Element.opening_eq_of_append_eq {e f : Element} {r s : List Char} (he : e.Plain)
    (hf : f.Plain) (hr : StopsAt elementEnds r) (hs : StopsAt elementEnds s)
    (h : e.query.toList ++ r = f.query.toList ++ s) : e.opening = f.opening := by
  rw [← Element.opening_of_query e he hr, ← Element.opening_of_query f hf hs, h]

/-! ## §5 A text determines the spine that it begins with -/

/-- A word ends at the first reserved character. -/
theorem Wordlike.append_inj {v w : String} (hv : Wordlike v) (hw : Wordlike w) {r s : List Char}
    (hr : StopsAt reserved r) (hs : StopsAt reserved s)
    (h : v.toList ++ r = w.toList ++ s) : v = w ∧ r = s := by
  obtain ⟨hvw, hrs⟩ := append_inj_of_stopsAt hv.unreserved hw.unreserved hr hs h
  exact ⟨String.toList_inj.mp hvw, hrs⟩

/-- A name ends at its colon. -/
theorem Wordlike.append_colon_inj {v w : String} (hv : Wordlike v) (hw : Wordlike w)
    {r s : List Char} (h : v.toList ++ ':' :: r = w.toList ++ ':' :: s) : v = w ∧ r = s := by
  obtain ⟨hvw, hrs⟩ := hv.append_inj hw (stopsAt_cons (by decide) r)
    (stopsAt_cons (by decide) s) h
  exact ⟨hvw, (List.cons.inj hrs).2⟩

/-- A text determines the term that it begins with. -/
theorem Term.query_append_inj {t u : Term} (ht : PlainTexts t.texts) (hu : PlainTexts u.texts)
    {r s : List Char} (hr : StopsAt elementEnds r) (hs : StopsAt elementEnds s)
    (h : t.value.toList ++ (t.suffix.toList ++ r) = u.value.toList ++ (u.suffix.toList ++ s)) :
    t = u ∧ r = s := by
  have htword : Wordlike t.value := ht (.word, t.value) (by simp [Term.texts])
  have huword : Wordlike u.value := hu (.word, u.value) (by simp [Term.texts])
  have htsuffix := Term.isSuffix_suffix ht
  have husuffix := Term.isSuffix_suffix hu
  -- the word ends where its modifier begins, and the modifier where the element ends
  obtain ⟨hvalue, hrest⟩ := htword.append_inj huword (htsuffix.stopsAt hr) (husuffix.stopsAt hs) h
  obtain ⟨hsuffix, hrs⟩ := htsuffix.append_inj husuffix hr hs hrest
  exact ⟨Term.eq_of_suffix_eq hvalue hsuffix, hrs⟩

/-- A text determines the phrase that it begins with. -/
theorem Phrase.query_append_inj {p q : Phrase} (hp : PlainTexts p.texts) (hq : PlainTexts q.texts)
    {r s : List Char} (hr : StopsAt elementEnds r) (hs : StopsAt elementEnds s)
    (h : p.value.toList ++ '"' :: (p.suffix.toList ++ r)
      = q.value.toList ++ '"' :: (q.suffix.toList ++ s)) :
    p = q ∧ r = s := by
  have hpquoted : '"' ∉ p.value.toList := hp (.quoted, p.value) (by simp [Phrase.texts])
  have hqquoted : '"' ∉ q.value.toList := hq (.quoted, q.value) (by simp [Phrase.texts])
  -- the text of a phrase may hold anything but the quote that ends it
  have hpstop : ∀ c ∈ p.value.toList, c ∉ ['"'] := by
    rintro c hc hquote
    exact hpquoted (List.mem_singleton.mp hquote ▸ hc)
  have hqstop : ∀ c ∈ q.value.toList, c ∉ ['"'] := by
    rintro c hc hquote
    exact hqquoted (List.mem_singleton.mp hquote ▸ hc)
  obtain ⟨hvalue, hrest⟩ := append_inj_of_stopsAt hpstop hqstop
    (stopsAt_cons (by simp) _) (stopsAt_cons (by simp) _) h
  obtain ⟨hsuffix, hrs⟩ := (Phrase.isSuffix_suffix hp).append_inj (Phrase.isSuffix_suffix hq)
    hr hs (List.cons.inj hrest).2
  exact ⟨Phrase.eq_of_suffix_eq (String.toList_inj.mp hvalue) hsuffix, hrs⟩

/-- A text determines the range within its brackets. -/
theorem Range.query_append_inj {a b : Range} (ha : PlainTexts a.texts) (hb : PlainTexts b.texts)
    {bounds : Bounds} {r s : List Char}
    (h : a.lower.toList ++ ' ' :: 'T' :: 'O' :: ' ' :: (a.upper.toList ++ bounds.right :: r)
      = b.lower.toList ++ ' ' :: 'T' :: 'O' :: ' ' :: (b.upper.toList ++ bounds.right :: s)) :
    a = b ∧ r = s := by
  have hright : bounds.right ∈ reserved := by cases bounds <;> decide
  have halower : Unreserved a.lower := ha (.endpoint, a.lower) (by simp [Range.texts])
  have hblower : Unreserved b.lower := hb (.endpoint, b.lower) (by simp [Range.texts])
  have haupper : Unreserved a.upper := ha (.endpoint, a.upper) (by simp [Range.texts])
  have hbupper : Unreserved b.upper := hb (.endpoint, b.upper) (by simp [Range.texts])
  -- the lower end stops at the blank, and the upper one at the bracket
  obtain ⟨hlower, hrest⟩ := append_inj_of_stopsAt halower hblower
    (stopsAt_cons (by decide) _) (stopsAt_cons (by decide) _) h
  simp only [List.cons.injEq, true_and] at hrest
  obtain ⟨hupper, hrs⟩ := append_inj_of_stopsAt haupper hbupper
    (stopsAt_cons hright _) (stopsAt_cons hright _) hrest
  obtain ⟨lower, upper⟩ := a
  obtain ⟨lower', upper'⟩ := b
  rw [String.toList_inj] at hlower hupper
  exact ⟨by simp_all, (List.cons.inj hrs).2⟩

/-- A spine that goes on does so with a space, and no spine ends at one. -/
theorem Element.not_stopsAt_queryBehind_cons (e : Element) (es : List Element) (r : List Char) :
    ¬StopsAt spineEnds ((Element.query.queryBehind (e :: es)).toList ++ r) := by
  intro h
  rw [Element.toList_queryBehind_cons] at h
  have hspace : ' ' ∈ spineEnds := h ' ' rfl
  simp [spineEnds] at hspace

mutual

/-- A text determines the plain element that it begins with and the place where that ends. -/
theorem Element.query_append_inj : ∀ (e f : Element) {r s : List Char}, e.Plain → f.Plain →
    StopsAt elementEnds r → StopsAt elementEnds s →
    e.query.toList ++ r = f.query.toList ++ s → e = f ∧ r = s
  -- by induction on the first element; in each case the second is of the same kind, because the
  -- texts begin alike
  | .blank, f, r, s, he, hf, hr, hs, h => by
    have hkind := Element.opening_eq_of_append_eq he hf hr hs h
    cases f with
    | blank => exact ⟨rfl, by simpa [Element.query] using h⟩
    | _ => simp [Element.opening] at hkind
  | .term t, f, r, s, he, hf, hr, hs, h => by
    have hkind := Element.opening_eq_of_append_eq he hf hr hs h
    cases f with
    | term u =>
      simp only [Element.toList_query_term, List.append_assoc] at h
      obtain ⟨rfl, hrs⟩ := Term.query_append_inj he hf hr hs h
      exact ⟨rfl, hrs⟩
    | _ => simp [Element.opening] at hkind
  | .phrase p, f, r, s, he, hf, hr, hs, h => by
    have hkind := Element.opening_eq_of_append_eq he hf hr hs h
    cases f with
    | phrase q =>
      simp only [Element.toList_query_phrase, List.cons_append, List.append_assoc,
        List.cons.injEq, true_and] at h
      obtain ⟨rfl, hrs⟩ := Phrase.query_append_inj he hf hr hs h
      exact ⟨rfl, hrs⟩
    | _ => simp [Element.opening] at hkind
  | .range name bounds ends, f, r, s, he, hf, hr, hs, h => by
    have hkind := Element.opening_eq_of_append_eq he hf hr hs h
    cases f with
    | range name' bounds' ends' =>
      obtain ⟨hname, hends⟩ := (plainTexts_cons _ _).mp he
      obtain ⟨hname', hends'⟩ := (plainTexts_cons _ _).mp hf
      simp only [Element.toList_query_range, List.cons_append, List.append_assoc] at h
      obtain ⟨rfl, hvalue⟩ := Wordlike.append_colon_inj hname hname' h
      -- the opening bracket tells which of the two closes the range
      obtain ⟨hbounds, hinside⟩ := List.cons.inj hvalue
      obtain rfl := Bounds.left_injective hbounds
      obtain ⟨rfl, hrs⟩ := Range.query_append_inj hends hends' hinside
      exact ⟨rfl, hrs⟩
    | _ => simp [Element.opening] at hkind
  | .group first rest, f, r, s, he, hf, hr, hs, h => by
    have hkind := Element.opening_eq_of_append_eq he hf hr hs h
    cases f with
    | group first' rest' =>
      obtain ⟨hfirst, hrest⟩ := (plainTexts_append _ _).mp he
      obtain ⟨hfirst', hrest'⟩ := (plainTexts_append _ _).mp hf
      simp only [Element.toList_query_group, List.cons_append, List.append_assoc,
        List.cons.injEq, true_and, List.nil_append] at h
      -- the spine within ends at the parenthesis that closes the group
      have hclose : ∀ t : List Char, StopsAt spineEnds (')' :: t) := stopsAt_cons (by decide)
      obtain ⟨rfl, hbehind⟩ := Element.query_append_inj first first' hfirst hfirst'
        (Element.stopsAt_queryBehind rest (hclose r))
        (Element.stopsAt_queryBehind rest' (hclose s)) h
      obtain ⟨rfl, hend⟩ := Element.queryBehind_append_inj rest rest' hrest hrest'
        (hclose r) (hclose s) hbehind
      exact ⟨rfl, (List.cons.inj hend).2⟩
    | _ => simp [Element.opening] at hkind
  | .marked operator e, f, r, s, he, hf, hr, hs, h => by
    have hkind := Element.opening_eq_of_append_eq he hf hr hs h
    cases f with
    | marked operator' e' =>
      simp only [Element.toList_query_marked, List.append_assoc] at h
      -- the symbol is the first character, and the operand follows at once
      obtain ⟨rfl, hbehind⟩ := Operator.symbol_cons_injective h
      obtain ⟨rfl, hrs⟩ := Element.query_append_inj e e' he hf hr hs hbehind
      exact ⟨rfl, hrs⟩
    | _ => simp [Element.opening] at hkind
  | .named name e, f, r, s, he, hf, hr, hs, h => by
    have hkind := Element.opening_eq_of_append_eq he hf hr hs h
    cases f with
    | named name' e' =>
      obtain ⟨hname, hinner⟩ := (plainTexts_cons _ _).mp he
      obtain ⟨hname', hinner'⟩ := (plainTexts_cons _ _).mp hf
      simp only [Element.toList_query_named, List.cons_append, List.append_assoc] at h
      obtain ⟨rfl, hbehind⟩ := Wordlike.append_colon_inj hname hname' h
      obtain ⟨rfl, hrs⟩ := Element.query_append_inj e e' hinner hinner' hr hs hbehind
      exact ⟨rfl, hrs⟩
    | _ => simp [Element.opening] at hkind

/-- Where a spine has begun, a text determines the other elements of the spine and where it ends. -/
theorem Element.queryBehind_append_inj : ∀ (es fs : List Element) {r s : List Char},
    PlainTexts (Element.texts.textsOfAll es) → PlainTexts (Element.texts.textsOfAll fs) →
    StopsAt spineEnds r → StopsAt spineEnds s →
    (Element.query.queryBehind es).toList ++ r = (Element.query.queryBehind fs).toList ++ s →
    es = fs ∧ r = s
  | [], [], r, s, _, _, _, _, h => ⟨rfl, by simpa [Element.query.queryBehind] using h⟩
  | [], f :: fs, r, s, _, _, hr, _, h => by
    -- one spine goes on where the other ends
    rw [Element.query.queryBehind, String.toList_empty, List.nil_append] at h
    exact absurd (h ▸ hr) (Element.not_stopsAt_queryBehind_cons f fs s)
  | e :: es, [], r, s, _, _, _, hs, h => by
    rw [Element.query.queryBehind.eq_1, String.toList_empty, List.nil_append] at h
    exact absurd (h ▸ hs) (Element.not_stopsAt_queryBehind_cons e es r)
  | e :: es, f :: fs, r, s, hes, hfs, hr, hs, h => by
    -- both spines go on, with the same element
    obtain ⟨he, hes'⟩ := (plainTexts_append _ _).mp hes
    obtain ⟨hf, hfs'⟩ := (plainTexts_append _ _).mp hfs
    simp only [Element.toList_queryBehind_cons, List.cons_append, List.append_assoc,
      List.cons.injEq, true_and] at h
    obtain ⟨rfl, hbehind⟩ := Element.query_append_inj e f he hf
      (Element.stopsAt_queryBehind es hr) (Element.stopsAt_queryBehind fs hs) h
    obtain ⟨rfl, hrs⟩ := Element.queryBehind_append_inj es fs hes' hfs' hr hs hbehind
    exact ⟨rfl, hrs⟩

end

/-- Plain spines with the same text are the same. -/
theorem Spine.eq_of_query_eq {s t : Spine} (hs : s.Plain) (ht : t.Plain)
    (h : s.query = t.query) : s = t := by
  obtain ⟨first, rest⟩ := s
  obtain ⟨first', rest'⟩ := t
  obtain ⟨hfirst, hrest⟩ := (plainTexts_append _ _).mp hs
  obtain ⟨hfirst', hrest'⟩ := (plainTexts_append _ _).mp ht
  have hchars := congrArg String.toList h
  simp only [Spine.query, String.toList_append] at hchars
  -- the first element ends at a separator or with the whole text
  have hend : ∀ es, StopsAt elementEnds (Element.query.queryBehind es).toList := fun es => by
    simpa using Element.stopsAt_queryBehind es (stopsAt_nil spineEnds)
  obtain ⟨rfl, hbehind⟩ := Element.query_append_inj first first' hfirst hfirst'
    (hend rest) (hend rest') hchars
  obtain ⟨rfl, -⟩ := Element.queryBehind_append_inj rest rest' hrest hrest'
    (stopsAt_nil spineEnds) (stopsAt_nil spineEnds) (by simpa using hbehind)
  rfl

/-! ## §6 Which trees share a text -/

/-- Trees with the same spine have the same text, whatever texts they hold. -/
theorem Node.query_eq_of_spine_eq {a b : Node} (h : a.spine = b.spine) : a.query = b.query := by
  rw [← Node.query_spine a, ← Node.query_spine b, h]

/-- Plain trees with the same text have the same spine. -/
theorem Node.spine_eq_of_query_eq {a b : Node} (ha : a.Plain) (hb : b.Plain)
    (h : a.query = b.query) : a.spine = b.spine := by
  apply Spine.eq_of_query_eq ha.spine hb.spine
  rw [Node.query_spine, Node.query_spine, h]

/-- A mark before a sequence stands before its first item. -/
theorem Node.spine_unary_sequence (operator : Operator) (n : Node) (ns : List Node) :
    (Node.unary operator (.sequence (n :: ns))).spine
      = (Node.sequence (.unary operator n :: ns)).spine := rfl

/-- The name of a field before a sequence stands before its first item. -/
theorem Node.spine_field_sequence (name : String) (n : Node) (ns : List Node) :
    (Node.field name (.sequence (n :: ns))).spine
      = (Node.sequence (.field name n :: ns)).spine := rfl

/-- The items of a sequence within a sequence are items of the outer one. -/
theorem Node.spine_sequence_splice (before behind : List Node) (n : Node) (ns : List Node) :
    (Node.sequence (before ++ .sequence (n :: ns) :: behind)).spine
      = (Node.sequence (before ++ (n :: ns) ++ behind)).spine := by
  have helements : Node.spine.elementsOfAll (before ++ .sequence (n :: ns) :: behind)
      = Node.spine.elementsOfAll (before ++ (n :: ns) ++ behind) := by
    simp only [Node.elementsOfAll_eq_flatMap, List.flatMap_append, List.flatMap_cons,
      Node.elements_spine_sequence, List.append_assoc]
  rw [Node.spine, Node.spine, helements]

/-- **The exact ambiguity of query text.**  A spine determines the text of the trees that have it,
and the text of a plain tree determines its spine.  So flat plain trees are told apart by their
texts; but a mark or a field before a sequence cannot be told from one before its first item, nor a
sequence within a sequence from its items. -/
theorem Node.query_ambiguity_exact :
    (∀ a b : Node, a.spine = b.spine → a.query = b.query) ∧
    (∀ a b : Node, a.Plain → b.Plain → a.query = b.query → a.spine = b.spine) ∧
    (∀ a b : Node, a.Plain → b.Plain → a.Flat → b.Flat → a.query = b.query → a = b) ∧
    (∀ operator n ns, (Node.unary operator (.sequence (n :: ns))).query
      = (Node.sequence (.unary operator n :: ns)).query) ∧
    (∀ name n ns, (Node.field name (.sequence (n :: ns))).query
      = (Node.sequence (.field name n :: ns)).query) ∧
    (∀ before behind n ns, (Node.sequence (before ++ .sequence (n :: ns) :: behind)).query
      = (Node.sequence (before ++ (n :: ns) ++ behind)).query) := by
  refine ⟨fun _ _ h => Node.query_eq_of_spine_eq h,
    fun _ _ ha hb h => Node.spine_eq_of_query_eq ha hb h, ?_, ?_, ?_, ?_⟩
  -- a flat tree is the only flat one of its spine
  · intro a b ha hb hflat hflat' h
    exact hflat.eq_of_spine_eq hflat' (Node.spine_eq_of_query_eq ha hb h)
  -- the last three are trees of one spine
  · intro operator n ns
    exact Node.query_eq_of_spine_eq (Node.spine_unary_sequence operator n ns)
  · intro name n ns
    exact Node.query_eq_of_spine_eq (Node.spine_field_sequence name n ns)
  · intro before behind n ns
    exact Node.query_eq_of_spine_eq (Node.spine_sequence_splice before behind n ns)

/-- Two readings of `+title:(a "b c"^2) year:[1 TO *]` differ, but have the same spine. -/
theorem Node.query_ambiguity_of_marked_sequence :
    let title : Node :=
      .field "title" (.group (.sequence [.word "a", .phrase ⟨"b c", some (.boost "2")⟩]))
    let year : Node := .range "year" .inclusive ⟨"1", "*"⟩
    let whole : Node := .unary .required (.sequence [title, year])
    let first : Node := .sequence [.unary .required title, year]
    whole ≠ first ∧ whole.Plain ∧ first.Plain ∧ whole.query = first.query ∧
      whole.spine = first.spine ∧ first.Flat ∧ ¬whole.Flat := by
  intro title year whole first
  have hwhole : whole.Plain := by decide
  have hfirst : first.Plain := by decide
  have hquery : whole.query = first.query := by decide
  have hne : whole ≠ first := by decide
  have hflat : first.Flat := by
    simp [first, title, year, Node.Flat, Node.Flat.flatItems, Node.isSequence, Node.word]
  have hspine := Node.query_ambiguity_exact.2.1 whole first hwhole hfirst hquery
  refine ⟨hne, hwhole, hfirst, hquery, hspine, hflat, ?_⟩
  -- flat plain trees with the same text are the same
  intro hflat'
  exact hne (Node.query_ambiguity_exact.2.2.1 whole first hwhole hfirst hflat' hflat hquery)

end CanonicalQuery
