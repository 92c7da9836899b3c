import CanonicalQuery.Text.Hex
import CanonicalQuery.Text.Shown
import Mathlib.Tactic.SplitIfs

/-!
# Texts shown in quotes can be read back

No two texts are shown alike, and where a shown text ends is known from the text itself: whatever
stands behind its closing quote, the text between the quotes can be told.  A reader of one shown
character is all that is needed for this.

Escapes are made of a few signs and of hexadecimal digits; all other characters of a shown text are
shown as they are.

## Main definitions

- `Shown.readEscape`: the character that is shown at the beginning of a text, and what is left.
- `Shown.signs`: the characters of escapes, digits aside.

## Main statements

- `Shown.readEscape_escape`: a shown character is read back.
- `Shown.write_append_inj`: a text in quotes is known from every text that begins with it.
- `Shown.not_mem_escape`: a character that is spelled out does not occur in a shown text.
-/

namespace CanonicalQuery.Text.Shown

/-! ## §1 Hexadecimal digits -/

theorem hexValue?_digitChar : ∀ d < 16, hexValue? (Nat.digitChar d) = some d := by
  decide

theorem isSome_hexValue?_of_mem (n : Nat) : ∀ c ∈ Nat.toDigits 16 n, (hexValue? c).isSome := by
  induction n using Nat.strongRecOn with
  | ind n ih =>
    intro c hc
    -- one digit, or the digits of a quotient and one more
    rw [Nat.toDigits_eq_if (by decide)] at hc
    split at hc
    · next hlt =>
      rw [List.mem_singleton.mp hc, hexValue?_digitChar n hlt]
      rfl
    · -- the last digit is a remainder; the others are those of a smaller number
      rcases List.mem_append.mp hc with hfront | hlast
      · exact ih (n / 16) (by omega) c hfront
      · rw [List.mem_singleton.mp hlast, hexValue?_digitChar _ (Nat.mod_lt n (by decide))]
        rfl

/-- The number that digits spell. -/
def digitsValue (digits : List Char) : Nat :=
  digits.foldl (fun value c => 16 * value + (hexValue? c).getD 0) 0

theorem digitsValue_toDigits (n : Nat) : digitsValue (Nat.toDigits 16 n) = n := by
  induction n using Nat.strongRecOn with
  | ind n ih =>
    rw [Nat.toDigits_eq_if (by decide)]
    split
    · next hlt =>
      rw [digitsValue, List.foldl_cons, List.foldl_nil, hexValue?_digitChar n hlt, Option.getD_some]
      omega
    -- the front digits spell the quotient, and the last one the remainder
    · have hlast := hexValue?_digitChar (n % 16) (Nat.mod_lt n (by decide))
      have hfront := ih (n / 16) (by omega)
      rw [digitsValue] at hfront
      rw [digitsValue, List.foldl_append, hfront, List.foldl_cons, List.foldl_nil, hlast,
        Option.getD_some]
      omega

/-! ## §2 Reading a character -/

/-- The character that is shown at the beginning of a text, and what is left of the text. -/
def readEscape : List Char → Option (Char × List Char)
  | '\\' :: '0' :: rest => some ('\x00', rest)
  | '\\' :: 't' :: rest => some ('\t', rest)
  | '\\' :: 'r' :: rest => some ('\r', rest)
  | '\\' :: 'n' :: rest => some ('\n', rest)
  | '\\' :: '\\' :: rest => some ('\\', rest)
  | '\\' :: '"' :: rest => some ('"', rest)
  | '\\' :: 'u' :: '\x7b' :: rest =>
    some (Char.ofNat (digitsValue (rest.takeWhile (· ≠ '\x7d'))),
      (rest.dropWhile (· ≠ '\x7d')).tail)
  | c :: rest => some (c, rest)
  | [] => none

/-- A character that begins no escape stands for itself. -/
theorem readEscape_cons {c : Char} (hc : c ≠ '\\') (rest : List Char) :
    readEscape (c :: rest) = some (c, rest) := by
  unfold readEscape
  split
  all_goals first
    | exact absurd (List.cons.inj ‹_›).1 hc
    | skip
  · next h =>
    obtain ⟨rfl, rfl⟩ := List.cons.inj h
    rfl
  · next h => cases h

theorem readEscape_codePoint (c : Char) (rest : List Char) :
    readEscape (codePoint c ++ rest) = some (c, rest) := by
  have hdigits : ∀ d ∈ Nat.toDigits 16 c.toNat, decide (d ≠ '\x7d') = true := by
    intro d hd
    have hsome := isSome_hexValue?_of_mem _ d hd
    refine decide_eq_true fun hbrace => ?_
    rw [hbrace] at hsome
    exact absurd hsome (by decide)
  -- no digit is the brace, so the digits are cut off at it
  have htake : (Nat.toDigits 16 c.toNat ++ '\x7d' :: rest).takeWhile (· ≠ '\x7d') =
      Nat.toDigits 16 c.toNat := by
    rw [List.takeWhile_append_of_pos hdigits, List.takeWhile_cons_of_neg (by decide),
      List.append_nil]
  have hdrop : (Nat.toDigits 16 c.toNat ++ '\x7d' :: rest).dropWhile (· ≠ '\x7d') =
      '\x7d' :: rest := by
    rw [List.dropWhile_append_of_pos hdigits, List.dropWhile_cons_of_neg (by decide)]
  have hread : readEscape (codePoint c ++ rest) =
      some (Char.ofNat (digitsValue
          ((Nat.toDigits 16 c.toNat ++ '\x7d' :: rest).takeWhile (· ≠ '\x7d'))),
        ((Nat.toDigits 16 c.toNat ++ '\x7d' :: rest).dropWhile (· ≠ '\x7d')).tail) := by
    rw [codePoint, List.append_assoc, List.append_assoc]
    rfl
  rw [hread, htake, hdrop, digitsValue_toDigits, Char.ofNat_toNat, List.tail_cons]

/-- A shown character is read back, whatever stands behind it. -/
theorem readEscape_escape (c : Char) (rest : List Char) :
    readEscape (escape c ++ rest) = some (c, rest) := by
  unfold escape
  split_ifs with h0 ht hr hn hb hq hu
  · rw [h0]; rfl
  · rw [ht]; rfl
  · rw [hr]; rfl
  · rw [hn]; rfl
  · rw [hb]; rfl
  · rw [hq]; rfl
  · exact readEscape_codePoint c rest
  · exact readEscape_cons hb rest

/-! ## §3 Reading a text -/

/-- No character is shown as a quote, so the first bare quote ends the text. -/
theorem escape_append_ne_quote (c : Char) (rest behind : List Char) :
    escape c ++ rest ≠ '"' :: behind := by
  intro h
  have hread := readEscape_escape c rest
  rw [h, readEscape_cons (by decide)] at hread
  obtain ⟨rfl, -⟩ := Prod.mk.inj (Option.some.inj hread)
  have hescape : escape '"' = ['\\', '"'] := by decide
  rw [hescape] at h
  exact absurd (List.cons.inj h).1 (by decide)

theorem flatMap_escape_append_inj : ∀ {cs ds r s : List Char},
    cs.flatMap escape ++ '"' :: r = ds.flatMap escape ++ '"' :: s → cs = ds ∧ r = s
  | [], [], _, _, h => ⟨rfl, (List.cons.inj h).2⟩
  | [], d :: ds, r, s, h => by
    rw [List.flatMap_cons, List.append_assoc] at h
    exact absurd h.symm (escape_append_ne_quote d _ r)
  | c :: cs, [], r, s, h => by
    rw [List.flatMap_cons, List.append_assoc] at h
    exact absurd h (escape_append_ne_quote c _ s)
  | c :: cs, d :: ds, r, s, h => by
    rw [List.flatMap_cons, List.flatMap_cons, List.append_assoc, List.append_assoc] at h
    -- reading one character from either side gives the first of each
    have hread := congrArg readEscape h
    rw [readEscape_escape, readEscape_escape] at hread
    obtain ⟨rfl, hrest⟩ := Prod.mk.inj (Option.some.inj hread)
    obtain ⟨rfl, hbehind⟩ := flatMap_escape_append_inj hrest
    exact ⟨rfl, hbehind⟩

theorem toList_write (s : String) :
    (write s).toList = '"' :: (s.toList.flatMap escape ++ ['"']) := by
  simp [write]

/-- A text in quotes is known from every text that begins with it. -/
theorem write_append_inj {s s' : String} {r r' : List Char}
    (h : (write s).toList ++ r = (write s').toList ++ r') : s = s' ∧ r = r' := by
  rw [toList_write, toList_write, List.cons_append, List.cons_append, List.append_assoc,
    List.append_assoc] at h
  obtain ⟨htext, hbehind⟩ := flatMap_escape_append_inj (List.cons.inj h).2
  exact ⟨String.toList_inj.mp htext, hbehind⟩

/-! ## §4 What does not occur in a shown text -/

/-- The characters of escapes that are no digits. -/
def signs : List Char :=
  ['\\', '"', '0', 't', 'r', 'n', 'u', '\x7b', '\x7d']

theorem mem_signs_of_all {text : List Char} {d : Char} (h : text.all (signs.contains ·))
    (hd : d ∈ text) : d ∈ signs :=
  List.contains_iff_mem.mp (List.all_eq_true.mp h d hd)

/-- Escapes are made of signs and digits. -/
theorem mem_escape {c d : Char} (h : d ∈ escape c) :
    escape d = [d] ∨ d ∈ signs ∨ (hexValue? d).isSome := by
  by_cases hc : escape c = [c]
  · rw [hc, List.mem_singleton] at h
    exact .inl (h ▸ hc)
  · refine .inr ?_
    unfold escape at h hc
    -- either one sign behind a backslash, or digits between signs
    split_ifs at h hc
    iterate 6 exact .inl (mem_signs_of_all (by decide) h)
    · rw [codePoint, List.mem_append, List.mem_append] at h
      rcases h with (hfront | hdigits) | hback
      · exact .inl (mem_signs_of_all (by decide) hfront)
      · exact .inr (isSome_hexValue?_of_mem _ d hdigits)
      · exact .inl (mem_signs_of_all (by decide) hback)
    · exact absurd rfl hc

/-- A character that is spelled out, and by which nothing is spelled, is never shown. -/
theorem not_mem_escape {d : Char} (hspelled : escape d ≠ [d]) (hsign : d ∉ signs)
    (hdigit : hexValue? d = none) (c : Char) : d ∉ escape c := by
  intro h
  rcases mem_escape h with hself | hmem | hsome
  · exact hspelled hself
  · exact hsign hmem
  · rw [hdigit] at hsome
    cases hsome

theorem not_mem_write {d : Char} (hspelled : escape d ≠ [d]) (hsign : d ∉ signs)
    (hdigit : hexValue? d = none) (s : String) : d ∉ (write s).toList := by
  have hquote : d ≠ '"' := fun h => hsign (h ▸ by decide)
  have hescape : d ∉ s.toList.flatMap escape := by
    intro h
    obtain ⟨c, -, hc⟩ := List.mem_flatMap.mp h
    exact not_mem_escape hspelled hsign hdigit c hc
  rw [toList_write]
  simp [hquote, hescape]

end CanonicalQuery.Text.Shown
