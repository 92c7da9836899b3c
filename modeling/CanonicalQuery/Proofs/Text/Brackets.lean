import Mathlib.Algebra.Group.Nat.Even
import Mathlib.Data.List.Infix

/-!
# Brackets and quotes in a text

A text may hold brackets of three kinds and quotes.  A stack of open brackets tells whether they
match: a closing bracket has to match the one that was opened last.

Only these delimiters of a text matter, in their order.  Where they *nest*, all brackets match, no
bracket stands between two quotes, and it is known how many parentheses are open where most of them
are.

## Main definitions

- `Bracket`, `openBehind`: the kinds of brackets, and which of them are open behind a text.
- `Nested`: delimiters that nest, and how deep the parentheses among them do.
- `QuotesApart`, `Deepest`: no bracket between two quotes, and how many parentheses are open.

## Main statements

- `count_openBehind`: what was opened is closed or still open.
- `Nested.openBehind`, `Nested.quotesApart`, `Nested.deepest`: what delimiters that nest are like.
- `openBehind_filter`, `QuotesApart.of_filter`, `Deepest.of_filter`: texts are like their
  delimiters.
-/

namespace CanonicalQuery

/-! ## §1 Brackets and delimiters -/

/-- The kinds of brackets. -/
inductive Bracket where
  | round
  | square
  | curly
  deriving DecidableEq, Repr, Inhabited

namespace Bracket

def opening : Bracket → Char
  | round => '('
  | square => '['
  | curly => '\x7b'

def closing : Bracket → Char
  | round => ')'
  | square => ']'
  | curly => '\x7d'

/-- The bracket that a character opens, if it opens one. -/
def opened? (c : Char) : Option Bracket :=
  [round, square, curly].find? fun b => b.opening = c

/-- The bracket that a character closes, if it closes one. -/
def closed? (c : Char) : Option Bracket :=
  [round, square, curly].find? fun b => b.closing = c

end Bracket

/-- The characters that open or close a bracket. -/
def brackets : List Char :=
  ['(', ')', '[', ']', '\x7b', '\x7d']

/-- The brackets and the quote. -/
def delimiters : List Char :=
  '"' :: brackets

/-- The open brackets behind one more character, the most recent one first.  Only the most recent
one may be closed. -/
def openBehindOne (stack : List Bracket) (c : Char) : Option (List Bracket) :=
  match Bracket.opened? c, Bracket.closed? c with
  | some b, _ => some (b :: stack)
  | none, some b => if stack.head? = some b then some stack.tail else none
  | none, none => some stack

/-- The brackets that are open behind a text, if each of its closing brackets matches the bracket
that was opened last. -/
def openBehind (stack : List Bracket) (text : List Char) : Option (List Bracket) :=
  text.foldlM openBehindOne stack

theorem Bracket.opened?_eq_some {c : Char} {b : Bracket} : opened? c = some b ↔ c = b.opening := by
  constructor
  · intro h
    simpa [eq_comm] using List.find?_some h
  · rintro rfl
    cases b <;> decide

theorem Bracket.closed?_eq_some {c : Char} {b : Bracket} : closed? c = some b ↔ c = b.closing := by
  constructor
  · intro h
    simpa [eq_comm] using List.find?_some h
  · rintro rfl
    cases b <;> decide

theorem Bracket.opening_mem (b : Bracket) : b.opening ∈ brackets := by
  cases b <;> decide

theorem Bracket.closing_mem (b : Bracket) : b.closing ∈ brackets := by
  cases b <;> decide

/-! ## §2 What is open behind a text -/

variable {stack stack' : List Bracket} {c : Char} {text : List Char}

theorem openBehindOne_opening (stack : List Bracket) (b : Bracket) :
    openBehindOne stack b.opening = some (b :: stack) := by
  cases b <;> rfl

theorem openBehindOne_closing (stack : List Bracket) (b : Bracket) :
    openBehindOne (b :: stack) b.closing = some stack := by
  cases b <;> rfl

/-- A character that is no bracket opens and closes nothing. -/
theorem openBehindOne_other (hc : c ∉ brackets) (stack : List Bracket) :
    openBehindOne stack c = some stack := by
  -- a character that opens or closes a bracket is one
  have hopened : Bracket.opened? c = none := by
    refine Option.eq_none_iff_forall_ne_some.mpr fun b hb => hc ?_
    rw [Bracket.opened?_eq_some.mp hb]
    exact b.opening_mem
  have hclosed : Bracket.closed? c = none := by
    refine Option.eq_none_iff_forall_ne_some.mpr fun b hb => hc ?_
    rw [Bracket.closed?_eq_some.mp hb]
    exact b.closing_mem
  rw [openBehindOne, hopened, hclosed]

/-- What one more character can do to the open brackets. -/
theorem openBehindOne_cases (h : openBehindOne stack c = some stack') :
    (∃ b : Bracket, c = b.opening ∧ stack' = b :: stack) ∨
      (∃ b : Bracket, c = b.closing ∧ stack = b :: stack') ∨ (c ∉ brackets ∧ stack' = stack) := by
  unfold openBehindOne at h
  split at h
  · next b hopened =>
    cases h
    exact .inl ⟨b, Bracket.opened?_eq_some.mp hopened, rfl⟩
  · next b _ hclosed =>
    split at h
    · next hhead =>
      cases h
      exact .inr (.inl ⟨b, Bracket.closed?_eq_some.mp hclosed, (List.cons_head?_tail hhead).symm⟩)
    · cases h
  · next hopened hclosed =>
    cases h
    refine .inr (.inr ⟨fun hc => ?_, rfl⟩)
    -- every bracket opens or closes, and this character does neither
    have hall : brackets.all fun c => (Bracket.opened? c).isSome || (Bracket.closed? c).isSome := by
      decide
    have hone := List.all_eq_true.mp hall c hc
    rw [hopened, hclosed] at hone
    cases hone

/-- What a character opens is open behind it, and what it closes was open before. -/
theorem count_openBehindOne (h : openBehindOne stack c = some stack') (b : Bracket) :
    [c].count b.opening + stack.count b = [c].count b.closing + stack'.count b := by
  -- one kind is opened, or one is closed, or nothing happens
  rcases openBehindOne_cases h with ⟨b', rfl, rfl⟩ | ⟨b', rfl, rfl⟩ | ⟨hc, rfl⟩
  · have hopening : [b'.opening].count b.opening = [b'].count b := by cases b' <;> cases b <;> rfl
    have hclosing : [b'.opening].count b.closing = 0 := by cases b' <;> cases b <;> rfl
    rw [hopening, hclosing, Nat.zero_add, ← List.count_append, List.singleton_append]
  · have hopening : [b'.closing].count b.opening = 0 := by cases b' <;> cases b <;> rfl
    have hclosing : [b'.closing].count b.closing = [b'].count b := by cases b' <;> cases b <;> rfl
    rw [hopening, hclosing, Nat.zero_add, ← List.count_append, List.singleton_append]
  · have hother {d : Char} (hd : d ∈ brackets) : [c].count d = 0 := by
      refine List.count_eq_zero.mpr fun h => hc ?_
      rwa [← List.mem_singleton.mp h]
    rw [hother b.opening_mem, hother b.closing_mem]

theorem openBehind_cons (stack : List Bracket) (c : Char) (text : List Char) :
    openBehind stack (c :: text) =
      (openBehindOne stack c).bind fun stack => openBehind stack text :=
  List.foldlM_cons

theorem openBehind_append (stack : List Bracket) (front back : List Char) :
    openBehind stack (front ++ back) =
      (openBehind stack front).bind fun stack => openBehind stack back :=
  List.foldlM_append

/-- At each place as many brackets were opened as were closed or are still open. -/
theorem count_openBehind (h : openBehind stack text = some stack') (b : Bracket) :
    text.count b.opening + stack.count b = text.count b.closing + stack'.count b := by
  induction text generalizing stack with
  | nil =>
    cases h
    rfl
  | cons c text ih =>
    rw [openBehind_cons] at h
    obtain ⟨middle, hone, hrest⟩ := Option.bind_eq_some_iff.mp h
    -- what the first character adds on one side, it takes from the other
    have hc := count_openBehindOne hone b
    have htext := ih hrest
    rw [← List.singleton_append, List.count_append, List.count_append]
    omega

/-! ## §3 Delimiters that nest -/

/-- How deep parentheses nest with one more pair of brackets around them. -/
def Bracket.around : Bracket → Nat → Nat
  | round, depth => depth + 1
  | square, depth => depth
  | curly, depth => depth

/-- Delimiters that nest, and how deep the parentheses among them do. -/
inductive Nested : List Char → Nat → Prop where
  | nil : Nested [] 0
  | quotes : Nested ['"', '"'] 0
  | enclose {ds : List Char} {depth : Nat} (b : Bracket) : Nested ds depth →
      Nested (b.opening :: (ds ++ [b.closing])) (b.around depth)
  | append {ds es : List Char} {depth depth' : Nat} : Nested ds depth → Nested es depth' →
      Nested (ds ++ es) (max depth depth')

variable {ds es : List Char} {depth depth' : Nat}

/-- Delimiters that nest leave open what was open before. -/
theorem Nested.openBehind (h : Nested ds depth) (stack : List Bracket) :
    openBehind stack ds = some stack := by
  induction h generalizing stack with
  | nil => rfl
  | quotes =>
    have hquote : openBehindOne stack '"' = some stack := openBehindOne_other (by decide) stack
    rw [openBehind_cons, hquote, Option.bind_some, openBehind_cons, hquote]
    rfl
  -- the bracket is opened on top of the stack, and closed there again
  | enclose b _ ih =>
    rw [openBehind_cons, openBehindOne_opening, Option.bind_some, openBehind_append, ih,
      Option.bind_some, openBehind_cons, openBehindOne_closing]
    rfl
  | append _ _ ih ih' => rw [openBehind_append, ih, Option.bind_some, ih']

/-- As many brackets of a kind are closed as are opened. -/
theorem Nested.count_eq (h : Nested ds depth) (b : Bracket) :
    ds.count b.opening = ds.count b.closing := by
  simpa using count_openBehind (h.openBehind []) b

/-! ### Quotes -/

/-- Quotes come in pairs, and no bracket stands between the two of a pair. -/
structure QuotesApart (text : List Char) : Prop where
  even : Even (text.count '"')
  outside : ∀ front c back, text = front ++ c :: back → c ∈ brackets → Even (front.count '"')

/-- Behind whole pairs of quotes, counting begins anew. -/
theorem QuotesApart.append (h : QuotesApart ds) (h' : QuotesApart es) : QuotesApart (ds ++ es) where
  even := by
    rw [List.count_append]
    exact h.even.add h'.even
  outside front c back htext hc := by
    -- the bracket stands in the second part, or in the first
    rcases List.append_eq_append_iff.mp htext with ⟨as, rfl, hes⟩ | ⟨bs, rfl, hback⟩
    · rw [List.count_append]
      exact h.even.add (h'.outside as c back hes hc)
    · cases bs with
      | nil =>
        -- the bracket is the first one of the second part
        have heven := h.even
        rwa [List.append_nil] at heven
      | cons d bs =>
        obtain ⟨rfl, -⟩ := List.cons.inj hback
        exact h.outside front c bs rfl hc

/-- A bracket alone stands between no quotes. -/
theorem QuotesApart.bracket {c : Char} (hc : c ∈ brackets) : QuotesApart [c] where
  even := by
    have hnone : brackets.all fun c => [c].count '"' == 0 := by decide
    have hcount : [c].count '"' = 0 := by simpa using List.all_eq_true.mp hnone c hc
    rw [hcount]
    exact Even.zero
  outside front d back htext _ := by
    cases front with
    | nil => exact Even.zero
    | cons _ front => simp at htext

/-- In delimiters that nest, no bracket stands between two quotes. -/
theorem Nested.quotesApart (h : Nested ds depth) : QuotesApart ds := by
  induction h with
  | nil => exact ⟨Even.zero, fun front c back htext => by simp at htext⟩
  | quotes =>
    refine ⟨by decide, fun front c back htext hc => ?_⟩
    -- between the two quotes there is nothing
    have hmem : c ∈ ['"', '"'] := htext ▸ (by simp)
    have hquote : c = '"' := by simpa using hmem
    subst hquote
    exact absurd hc (by decide)
  | enclose b _ ih =>
    exact (QuotesApart.bracket b.opening_mem).append (ih.append (.bracket b.closing_mem))
  | append _ _ ih ih' => exact ih.append ih'

/-! ### Parentheses -/

/-- How many parentheses are open where most of them are. -/
structure Deepest (text : List Char) (depth : Nat) : Prop where
  le : ∀ front, front <+: text → front.count '(' ≤ front.count ')' + depth
  attained : ∃ front, front <+: text ∧ front.count '(' = front.count ')' + depth

/-- Behind balanced parentheses, counting begins anew. -/
theorem Deepest.append (hbalanced : ds.count '(' = ds.count ')') (h : Deepest ds depth)
    (h' : Deepest es depth') : Deepest (ds ++ es) (max depth depth') where
  le front hfront := by
    obtain ⟨back, htext⟩ := hfront
    -- the beginning ends within the first part, or in the second
    rcases List.append_eq_append_iff.mp htext with ⟨bs, rfl, -⟩ | ⟨as, rfl, hes⟩
    · have hle := h.le front (List.prefix_append front bs)
      omega
    · have hle := h'.le as ⟨back, hes.symm⟩
      rw [List.count_append, List.count_append]
      omega
  attained := by
    obtain ⟨front, hfront, hcount⟩ := h.attained
    obtain ⟨front', hfront', hcount'⟩ := h'.attained
    -- the deeper part attains the depth
    rcases Nat.le_total depth' depth with hle | hle
    · refine ⟨front, hfront.trans (List.prefix_append ds es), ?_⟩
      rw [hcount, Nat.max_eq_left hle]
    · refine ⟨ds ++ front', List.prefix_append_right_inj ds |>.mpr hfront', ?_⟩
      rw [List.count_append, List.count_append, hcount', Nat.max_eq_right hle]
      omega

/-- A character that is no parenthesis opens none. -/
theorem Deepest.other {c : Char} (hopening : c ≠ '(') : Deepest [c] 0 where
  le front hfront := by
    rcases List.prefix_cons_iff.mp hfront with rfl | ⟨t, rfl, ht⟩
    · exact Nat.zero_le _
    · obtain rfl := List.prefix_nil.mp ht
      simp [hopening]
  attained := ⟨[], List.nil_prefix, rfl⟩

/-- One more parenthesis is open everywhere between two of them. -/
theorem Deepest.enclose (h : Deepest ds depth) (hbalanced : ds.count '(' = ds.count ')') :
    Deepest ('(' :: (ds ++ [')'])) (depth + 1) where
  le front hfront := by
    rcases List.prefix_cons_iff.mp hfront with rfl | ⟨t, rfl, ht⟩
    · exact Nat.zero_le _
    -- the beginning is the whole text, or it ends between the parentheses
    · rcases List.prefix_concat_iff.mp ht with rfl | ht
      · simp [hbalanced]
      · have hle := h.le t ht
        simp
        omega
  attained := by
    obtain ⟨front, hfront, hcount⟩ := h.attained
    refine ⟨'(' :: front, ?_, ?_⟩
    · exact List.cons_prefix_cons.mpr ⟨rfl, hfront.trans (List.prefix_append ds _)⟩
    · simp [hcount, Nat.add_assoc]

/-- Delimiters that nest are as deep as they are said to be. -/
theorem Nested.deepest (h : Nested ds depth) : Deepest ds depth := by
  induction h with
  | nil => exact ⟨fun front hfront => by simp [List.prefix_nil.mp hfront], [], List.nil_prefix, rfl⟩
  | quotes =>
    have hquote : Deepest ['"'] 0 := .other (by decide)
    exact hquote.append rfl hquote
  | @enclose ds depth b h ih =>
    have hbalanced : ds.count '(' = ds.count ')' := h.count_eq .round
    -- other brackets count for nothing, before and behind
    have hclosed {c : Char} (hc : c ≠ '(') : Deepest (ds ++ [c]) depth := by
      have happend := ih.append hbalanced (.other hc)
      rwa [Nat.max_zero] at happend
    have hboth {c d : Char} (hc : c ≠ '(') (hc' : c ≠ ')') (hd : d ≠ '(') :
        Deepest (c :: (ds ++ [d])) depth := by
      have happend := Deepest.append (by simp [hc, hc']) (.other hc) (hclosed hd)
      rwa [Nat.zero_max] at happend
    cases b with
    | round => exact ih.enclose hbalanced
    | square => exact hboth (by decide) (by decide) (by decide)
    | curly => exact hboth (by decide) (by decide) (by decide)
  | append h _ ih ih' => exact ih.append (h.count_eq .round) ih'

/-! ## §4 The delimiters of a text -/

/-- Only the delimiters of a text count. -/
theorem openBehind_filter (stack : List Bracket) (text : List Char) :
    openBehind stack (text.filter (· ∈ delimiters)) = openBehind stack text := by
  induction text generalizing stack with
  | nil => rfl
  | cons c text ih =>
    -- a delimiter stays, and another character does nothing to the stack
    by_cases hc : c ∈ delimiters
    · rw [List.filter_cons_of_pos (by simpa using hc), openBehind_cons, openBehind_cons]
      exact congrArg _ (funext fun stack => ih stack)
    · have hother : c ∉ brackets := fun h => hc (List.mem_cons_of_mem _ h)
      rw [List.filter_cons_of_neg (by simpa using hc), ih, openBehind_cons,
        openBehindOne_other hother]
      rfl

theorem count_delimiters (hc : c ∈ delimiters) (text : List Char) :
    (text.filter (· ∈ delimiters)).count c = text.count c :=
  List.count_filter (by simpa using hc)

theorem QuotesApart.of_filter (h : QuotesApart (text.filter (· ∈ delimiters))) :
    QuotesApart text where
  even := by
    have heven := h.even
    rwa [count_delimiters (by decide)] at heven
  outside front c back htext hc := by
    have hmem : c ∈ delimiters := List.mem_cons_of_mem _ hc
    have hfilter : text.filter (· ∈ delimiters) =
        front.filter (· ∈ delimiters) ++ c :: back.filter (· ∈ delimiters) := by
      rw [htext, List.filter_append, List.filter_cons_of_pos (by simpa using hmem)]
    have heven := h.outside _ c _ hfilter hc
    rwa [count_delimiters (by decide)] at heven

theorem Deepest.of_filter {depth : Nat} (h : Deepest (text.filter (· ∈ delimiters)) depth) :
    Deepest text depth where
  le front hfront := by
    have hle := h.le _ (hfront.filter _)
    rwa [count_delimiters (by decide), count_delimiters (by decide)] at hle
  attained := by
    obtain ⟨front, ⟨back, htext⟩, hcount⟩ := h.attained
    obtain ⟨front', back', rfl, rfl, -⟩ := List.filter_eq_append_iff.mp htext.symm
    rw [count_delimiters (by decide), count_delimiters (by decide)] at hcount
    exact ⟨front', List.prefix_append front' back', hcount⟩

end CanonicalQuery
