/-!
# Texts put together from pieces

Pieces of text are put side by side with a separator between them.  They are taken apart again by
looking for the characters that end a piece: a piece that holds none of these characters is known
from any text that begins with it, if one of them, or nothing, stands behind it.

## Main definitions

- `StopsAt`: the text is at its end or goes on with one of certain characters.
- `SingleLine`: no line ends in the text.

## Main statements

- `append_inj_of_stopsAt`: such pieces are known from the whole text.
- `lines_inj`, `count_lines`: lines are known from their text, and so is their number.
-/

namespace CanonicalQuery

/-! ## §1 Pieces side by side -/

theorem intercalate_cons_eq_append (separator text : String) (texts : List String) :
    separator.intercalate (text :: texts)
      = text ++ String.join (texts.map (separator ++ ·)) := by
  induction texts generalizing text with
  | nil => simp
  | cons next texts ih => simp [String.intercalate_cons_cons, ih, String.append_assoc]

/-- A text in the middle of others has a separator beside it for each of them. -/
theorem intercalate_append_cons (separator text : String) (earlier later : List String) :
    separator.intercalate (earlier ++ text :: later)
      = String.join (earlier.map (· ++ separator)) ++ text
        ++ String.join (later.map (separator ++ ·)) := by
  induction earlier with
  | nil => simpa using intercalate_cons_eq_append separator text later
  | cons first earlier ih =>
    have hne : earlier ++ text :: later ≠ [] := by simp
    rw [List.cons_append, String.intercalate_cons_of_ne_nil hne, ih, List.map_cons,
      String.join_cons]
    simp only [String.append_assoc]

/-! ## §2 Where a piece ends -/

/-- The text is at its end or goes on with one of these characters. -/
def StopsAt (stops : List Char) (text : List Char) : Prop :=
  ∀ c ∈ text.head?, c ∈ stops

theorem stopsAt_nil (stops : List Char) : StopsAt stops [] := by
  simp [StopsAt]

theorem stopsAt_cons {stops : List Char} {c : Char} (hc : c ∈ stops) (text : List Char) :
    StopsAt stops (c :: text) := by
  simpa [StopsAt] using hc

theorem StopsAt.mono {stops stops' text : List Char} (hsub : ∀ c ∈ stops, c ∈ stops')
    (h : StopsAt stops text) : StopsAt stops' text :=
  fun c hc => hsub c (h c hc)

/-- A piece of text without certain characters ends where the first of them stands, so it is known
from any text that begins with it. -/
theorem append_inj_of_stopsAt {stops : List Char} :
    ∀ {l m r s : List Char}, (∀ c ∈ l, c ∉ stops) → (∀ c ∈ m, c ∉ stops) →
      StopsAt stops r → StopsAt stops s → l ++ r = m ++ s → l = m ∧ r = s
  | [], [], _, _, _, _, _, _, h => ⟨rfl, h⟩
  -- if one piece ends before the other, the other one holds the character that ends it
  | [], c :: m, r, s, _, hm, hr, _, h => by
    have hc : c ∈ stops := hr c (by rw [List.nil_append] at h; simp [h])
    exact absurd hc (hm c (by simp))
  | c :: l, [], r, s, hl, _, _, hs, h => by
    have hc : c ∈ stops := hs c (by rw [List.nil_append] at h; simp [← h])
    exact absurd hc (hl c (by simp))
  | c :: l, d :: m, r, s, hl, hm, hr, hs, h => by
    obtain ⟨hcd, htail⟩ := List.cons.inj h
    obtain ⟨hlm, hrs⟩ := append_inj_of_stopsAt (fun x hx => hl x (by simp [hx]))
      (fun x hx => hm x (by simp [hx])) hr hs htail
    exact ⟨by rw [hcd, hlm], hrs⟩

/-! ## §3 Lines and numbers -/

/-- No line ends in the text. -/
def SingleLine (text : String) : Prop :=
  '\n' ∉ text.toList

instance (text : String) : Decidable (SingleLine text) :=
  inferInstanceAs (Decidable (¬ _))

theorem singleLine_append {s t : String} : SingleLine (s ++ t) ↔ SingleLine s ∧ SingleLine t := by
  simp only [SingleLine, String.toList_append, List.mem_append, not_or]

/-- Lines are known from the text that they make up. -/
theorem lines_inj : ∀ {texts texts' : List String},
    (∀ t ∈ texts, SingleLine t) → (∀ t ∈ texts', SingleLine t) →
    String.join (texts.map (· ++ "\n")) = String.join (texts'.map (· ++ "\n")) → texts = texts'
  | [], [], _, _, _ => rfl
  | [], t :: texts, _, _, h => by simpa using congrArg String.toList h
  | t :: texts, [], _, _, h => by simpa using congrArg String.toList h
  | t :: texts, t' :: texts', ht, ht', h => by
    obtain ⟨hfirst, hrest⟩ := List.forall_mem_cons.mp ht
    obtain ⟨hfirst', hrest'⟩ := List.forall_mem_cons.mp ht'
    have hline {t : String} (h : SingleLine t) : ∀ c ∈ t.toList, c ∉ ['\n'] := by
      intro c hc hend
      exact h (List.mem_singleton.mp hend ▸ hc)
    have htext := congrArg String.toList h
    simp only [List.map_cons, String.join_cons, String.toList_append, List.append_assoc] at htext
    obtain ⟨hlines, hbehind⟩ := append_inj_of_stopsAt (hline hfirst) (hline hfirst')
      (stopsAt_cons (List.mem_singleton_self _) _) (stopsAt_cons (List.mem_singleton_self _) _)
      htext
    obtain rfl := String.toList_inj.mp hlines
    rw [lines_inj hrest hrest' (String.toList_inj.mp (List.cons.inj hbehind).2)]

/-- As many lines end in a text as it was put together from. -/
theorem count_lines : ∀ {texts : List String}, (∀ t ∈ texts, SingleLine t) →
    (String.join (texts.map (· ++ "\n"))).toList.count '\n' = texts.length
  | [], _ => rfl
  | t :: texts, h => by
    obtain ⟨hfirst, hrest⟩ := List.forall_mem_cons.mp h
    rw [List.map_cons, String.join_cons, String.toList_append, String.toList_append,
      List.count_append, List.count_append, List.count_eq_zero.mpr hfirst, count_lines hrest,
      List.length_cons, Nat.zero_add, Nat.add_comm]
    rfl

theorem eq_of_toDigits_eq {i j : Nat} (h : Nat.toDigits 10 i = Nat.toDigits 10 j) : i = j := by
  calc i = Nat.ofDigitChars 10 (Nat.toDigits 10 i) 0 := Nat.ofDigitChars_ten_toDigits.symm
    _ = Nat.ofDigitChars 10 (Nat.toDigits 10 j) 0 := by rw [h]
    _ = j := Nat.ofDigitChars_ten_toDigits

end CanonicalQuery
