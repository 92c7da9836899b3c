import CanonicalQuery.Proofs.Query.Spine

/-!
# Plain texts

Query text escapes nothing.  A tree is *plain* if none of its texts can be taken for a part of the
syntax around it: words and names hold no reserved character and do not look marked, quoted texts
hold no quote, and all other texts hold no reserved character.

## Main definitions

- `reserved`: the characters with a meaning of their own.
- `Wordlike`, `Unreserved`: texts that read as a word, and texts that may follow one.
- `Role.Plain`, `Node.Plain`: which texts are plain in which role, and trees of plain texts.

Plainness is decidable, and a plain tree has a plain spine.
-/

namespace CanonicalQuery

/-! ## §1 Plain texts -/

/-- The characters that have a meaning of their own in a query text. -/
def reserved : List Char :=
  [' ', '"', '(', ')', ':', '~', '^', '[', ']', '\x7b', '\x7d']

/-- No character of the text is reserved; the text may be empty. -/
def Unreserved (text : String) : Prop :=
  ∀ c ∈ text.toList, c ∉ reserved

instance (text : String) : Decidable (Unreserved text) :=
  List.decidableBAll (· ∉ reserved) text.toList

/-- A text that reads as one word. -/
structure Wordlike (text : String) : Prop where
  nonempty : text ≠ ""
  unreserved : Unreserved text
  /-- The text does not begin with the symbol of an operator. -/
  unmarked : ∀ c ∈ text.toList.head?, c ≠ '+' ∧ c ≠ '-'

instance (text : String) : Decidable (Wordlike text) :=
  decidable_of_iff
    (text ≠ "" ∧ Unreserved text ∧ text.toList.head? ≠ some '+' ∧ text.toList.head? ≠ some '-')
    ⟨fun ⟨hne, hres, hplus, hminus⟩ =>
      ⟨hne, hres, fun _ hc => ⟨fun h => hplus (h ▸ hc), fun h => hminus (h ▸ hc)⟩⟩,
      fun h => ⟨h.nonempty, h.unreserved, fun hc => (h.unmarked _ hc).1 rfl,
        fun hc => (h.unmarked _ hc).2 rfl⟩⟩

/-- Whether a text cannot be taken for syntax where it stands. -/
def Role.Plain : Role → String → Prop
  | .word, text | .name, text => Wordlike text
  | .quoted, text => '"' ∉ text.toList
  | .similarity, text | .boost, text | .distance, text | .endpoint, text => Unreserved text

instance : ∀ (role : Role) (text : String), Decidable (role.Plain text)
  | .word, text | .name, text => inferInstanceAs (Decidable (Wordlike text))
  | .quoted, text => inferInstanceAs (Decidable ('"' ∉ text.toList))
  | .similarity, text | .boost, text | .distance, text | .endpoint, text =>
    inferInstanceAs (Decidable (Unreserved text))

/-! ## §2 Plain trees, elements and spines -/

/-- Every text of the list is plain in its role. -/
def PlainTexts (texts : List (Role × String)) : Prop :=
  ∀ t ∈ texts, t.1.Plain t.2

instance (texts : List (Role × String)) : Decidable (PlainTexts texts) :=
  List.decidableBAll (fun t : Role × String => t.1.Plain t.2) texts

@[simp] theorem plainTexts_cons (t : Role × String) (ts : List (Role × String)) :
    PlainTexts (t :: ts) ↔ t.1.Plain t.2 ∧ PlainTexts ts := by
  simp [PlainTexts]

@[simp] theorem plainTexts_append (ts us : List (Role × String)) :
    PlainTexts (ts ++ us) ↔ PlainTexts ts ∧ PlainTexts us := by
  simp only [PlainTexts, List.forall_mem_append]

/-- A tree all of whose texts are plain. -/
def Node.Plain (n : Node) : Prop := PlainTexts n.texts

instance (n : Node) : Decidable n.Plain := inferInstanceAs (Decidable (PlainTexts n.texts))

def Element.Plain (e : Element) : Prop := PlainTexts e.texts

def Spine.Plain (s : Spine) : Prop := PlainTexts s.texts

theorem Node.Plain.spine {n : Node} (h : n.Plain) : n.spine.Plain := by
  rw [Spine.Plain, Node.texts_spine]
  exact h

end CanonicalQuery
