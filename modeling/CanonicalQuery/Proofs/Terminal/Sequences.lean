import CanonicalQuery.Proofs.Text.Pieces
import CanonicalQuery.Terminal.Style

/-!
# Escape sequences in output

Colored output holds escape sequences: an escape, a bracket, some codes, and the letter `m`.  Taking
all of them out of colored lines leaves the lines as they are written without color, as long as no
piece of the lines holds an escape of its own.  A text that looks like the rest of a sequence, such
as `[0m`, is not touched.

Output without color holds no escape but those of the texts that it shows.  Such output is woven
from the texts that are given and from texts without escapes.

## Main definitions

- `Escapeless`: a text without escapes.
- `Woven`: a text put together from texts without escapes and from given ones.
- `removeSequences`, `stripped`: a text with all escape sequences taken out.

## Main statements

- `stripped_of_escapeless`: where there is no escape, nothing is taken out.
- `stripped_writeLines`: colored lines without their sequences are plain lines.
- `woven_writeLines`: plain lines are woven from what their pieces are.
-/

namespace CanonicalQuery.Terminal

/-! ## §1 Texts without escapes -/

/-- The character that begins an escape sequence. -/
def escape : Char := '\x1b'

/-- A text without escapes. -/
def Escapeless (text : String) : Prop :=
  escape ∉ text.toList

instance (text : String) : Decidable (Escapeless text) :=
  inferInstanceAs (Decidable (escape ∉ text.toList))

/-- A written-out text is checked at its characters. -/
theorem escapeless_ofList {chars : List Char} (h : escape ∉ chars) :
    Escapeless (String.ofList chars) := by
  rwa [Escapeless, String.toList_ofList]

theorem escapeless_empty : Escapeless "" := by
  decide

/-- Two texts side by side hold no escape just if neither does. -/
theorem escapeless_append {s t : String} :
    Escapeless (s ++ t) ↔ Escapeless s ∧ Escapeless t := by
  simp [Escapeless]

/-- Texts without escapes hold none when they are put together. -/
theorem escapeless_join {texts : List String} (h : ∀ t ∈ texts, Escapeless t) :
    Escapeless (String.join texts) := by
  induction texts with
  | nil => decide
  | cons t texts ih =>
    rw [String.join_cons]
    exact escapeless_append.mpr
      ⟨h t List.mem_cons_self, ih fun t' ht' => h t' (List.mem_cons_of_mem _ ht')⟩

/-! ## §2 Woven texts -/

variable {given : String → Prop} {s t : String}

/-- A text that is put together from texts without escapes and from given ones.  So every escape in
it comes from a given text, as it stands there. -/
def Woven (given : String → Prop) (text : String) : Prop :=
  ∃ pieces : List String, text = String.join pieces ∧ ∀ p ∈ pieces, Escapeless p ∨ given p

/-- A text without escapes is woven from nothing that is given. -/
theorem Escapeless.woven (h : Escapeless t) : Woven given t :=
  ⟨[t], by simp [String.join], by simp [h]⟩

/-- A given text is woven from itself. -/
theorem woven_of_given (h : given t) : Woven given t :=
  ⟨[t], by simp [String.join], by simp [h]⟩

theorem woven_empty : Woven given "" :=
  ⟨[], by simp, by simp⟩

/-- Woven texts side by side are woven. -/
theorem Woven.append (hs : Woven given s) (ht : Woven given t) : Woven given (s ++ t) := by
  obtain ⟨pieces, rfl, hpieces⟩ := hs
  obtain ⟨pieces', rfl, hpieces'⟩ := ht
  -- the pieces of the one, and behind them those of the other
  refine ⟨pieces ++ pieces', by simp, fun p hp => ?_⟩
  rcases List.mem_append.mp hp with hp | hp
  · exact hpieces p hp
  · exact hpieces' p hp

/-- A text behind a mark. -/
theorem Woven.behind {mark : String} (h : Woven given t) (hmark : Escapeless mark) :
    Woven given (mark ++ t) :=
  hmark.woven.append h

/-- A text between two marks. -/
theorem Woven.between {front back : String} (h : Woven given t) (hfront : Escapeless front)
    (hback : Escapeless back) : Woven given (front ++ t ++ back) :=
  (h.behind hfront).append hback.woven

/-- Two texts on the sides of a mark. -/
theorem Woven.beside {mark : String} (hs : Woven given s) (ht : Woven given t)
    (hmark : Escapeless mark) : Woven given (s ++ mark ++ t) :=
  (hs.append hmark.woven).append ht

/-- Woven texts put together are woven. -/
theorem woven_join {texts : List String} (h : ∀ t ∈ texts, Woven given t) :
    Woven given (String.join texts) := by
  induction texts with
  | nil => exact woven_empty
  | cons t texts ih =>
    rw [String.join_cons]
    exact (h t List.mem_cons_self).append (ih fun t' ht' => h t' (List.mem_cons_of_mem _ ht'))

/-- Woven texts put together with a separator are woven, if the separator holds no escape. -/
theorem woven_intercalate {separator : String} {texts : List String}
    (hs : Escapeless separator) (h : ∀ t ∈ texts, Woven given t) :
    Woven given (separator.intercalate texts) := by
  cases texts with
  | nil => exact woven_empty
  | cons t texts =>
    rw [intercalate_cons_eq_append]
    refine (h t List.mem_cons_self).append (woven_join fun t' ht' => ?_)
    obtain ⟨u, hu, rfl⟩ := List.mem_map.mp ht'
    exact (h u (List.mem_cons_of_mem _ hu)).behind hs

/-- If nothing that is given holds an escape, nothing woven from it does. -/
theorem Woven.escapeless (h : Woven given t) (hgiven : ∀ s, given s → Escapeless s) :
    Escapeless t := by
  obtain ⟨pieces, rfl, hpieces⟩ := h
  exact escapeless_join fun p hp => (hpieces p hp).elim id (hgiven p)

/-! ## §3 Taking sequences out -/

/-- A character that may stand between the bracket and the letter of a sequence. -/
def IsCode (c : Char) : Bool :=
  c.isDigit || c == ';'

/-- The length of the sequence with which a text begins, or zero: an escape, a bracket, codes and
the letter `m`. -/
def sequenceLength : List Char → Nat
  | '\x1b' :: '[' :: rest =>
    if (rest.dropWhile IsCode).head? = some 'm' then (rest.takeWhile IsCode).length + 3 else 0
  | _ => 0

/-- A text without its sequences, behind a number of characters that belong to one. -/
def removeFrom : Nat → List Char → List Char
  | _, [] => []
  | inside + 1, _ :: rest => removeFrom inside rest
  | 0, c :: rest =>
    match sequenceLength (c :: rest) with
    | 0 => c :: removeFrom 0 rest
    | inside + 1 => removeFrom inside rest

/-- A text with every sequence taken out. -/
def removeSequences (text : List Char) : List Char :=
  removeFrom 0 text

/-- A text with all sequences taken out. -/
def stripped (text : String) : String :=
  String.ofList (removeSequences text.toList)

example : stripped "\x1b[1;31mError:\x1b[0m [0m" = "Error: [0m" := by
  decide

/-- No sequence begins with another character than an escape. -/
theorem sequenceLength_of_ne {c : Char} (h : c ≠ escape) (rest : List Char) :
    sequenceLength (c :: rest) = 0 := by
  unfold sequenceLength
  split
  · next heq => exact absurd (List.cons.inj heq).1 h
  · rfl

/-- A text without escapes stays in front of whatever follows. -/
theorem removeSequences_append {text : List Char} (h : escape ∉ text) (rest : List Char) :
    removeSequences (text ++ rest) = text ++ removeSequences rest := by
  induction text with
  | nil => rfl
  | cons c text ih =>
    obtain ⟨hc, htext⟩ := not_or.mp (mt List.mem_cons.mpr h)
    -- no character of the text begins a sequence
    have hlength := sequenceLength_of_ne (Ne.symm hc) (text ++ rest)
    rw [List.cons_append, removeSequences, removeFrom, hlength]
    exact congrArg (c :: ·) (ih htext)

/-- The characters of a sequence are passed over. -/
theorem removeFrom_append (inside rest : List Char) :
    removeFrom inside.length (inside ++ rest) = removeFrom 0 rest := by
  induction inside with
  | nil => rfl
  | cons c inside ih => exact ih

/-- A sequence is taken out, whatever follows it. -/
theorem removeSequences_sequence {codes : List Char} (h : ∀ c ∈ codes, IsCode c = true)
    (rest : List Char) :
    removeSequences ('\x1b' :: '[' :: codes ++ 'm' :: rest) = removeSequences rest := by
  -- the codes end at the letter, which is no code
  have hdrop : (codes ++ 'm' :: rest).dropWhile IsCode = 'm' :: rest := by
    rw [List.dropWhile_append_of_pos h]
    rfl
  have htake : (codes ++ 'm' :: rest).takeWhile IsCode = codes := by
    rw [List.takeWhile_append_of_pos h]
    simp [IsCode]
  have hlength : sequenceLength ('\x1b' :: '[' :: (codes ++ 'm' :: rest)) = codes.length + 3 := by
    rw [sequenceLength, hdrop, htake]
    rfl
  rw [List.cons_append, List.cons_append, removeSequences, removeFrom, hlength]
  -- what is skipped is the bracket, the codes and the letter
  have hskip := removeFrom_append ('[' :: codes ++ ['m']) rest
  simpa [removeSequences] using hskip

/-- Where there is no escape, nothing is taken out. -/
theorem stripped_of_escapeless (h : Escapeless t) : stripped t = t := by
  have hremove := removeSequences_append h []
  rw [List.append_nil] at hremove
  have hnil : removeSequences [] = [] := rfl
  rw [stripped, hremove, hnil, List.append_nil, String.ofList_toList]

/-! ## §4 Colored lines -/

/-- The codes of a style are codes. -/
theorem Style.codes_isCode (style : Style) : ∀ c ∈ style.codes.toList, IsCode c = true := by
  rw [← List.all_eq_true]
  cases style with
  | colored color => cases color <;> decide
  | bold color => cases color <;> decide
  | dimmed => decide

/-- In a text without escapes there is nothing to begin again. -/
theorem restart_of_escapeless (start : List Char) {text : List Char} (h : escape ∉ text) :
    restart start text = text := by
  induction text with
  | nil => rfl
  | cons c text ih =>
    obtain ⟨hc, htext⟩ := not_or.mp (mt List.mem_cons.mpr h)
    rw [restart.eq_2, ih htext]
    -- only an escape could begin what is replaced
    rintro rest rfl
    exact absurd rfl hc

/-- What begins a style is taken out. -/
theorem removeSequences_start (style : Style) (rest : List Char) :
    removeSequences (style.start ++ rest) = removeSequences rest := by
  have hsequence := removeSequences_sequence style.codes_isCode rest
  simpa [Style.start] using hsequence

/-- What ends a style is taken out. -/
theorem removeSequences_reset (rest : List Char) :
    removeSequences (reset ++ rest) = removeSequences rest := by
  have hcodes : ∀ c ∈ ['0'], IsCode c = true := List.forall_mem_singleton.mpr rfl
  exact removeSequences_sequence hcodes rest

/-- A piece that is written in color is its text, once the sequences are taken out. -/
theorem removeSequences_piece (colors : Bool) {p : Piece} (h : Escapeless p.text)
    (rest : List Char) :
    removeSequences ((p.write colors).toList ++ rest) = p.text.toList ++ removeSequences rest := by
  obtain ⟨text, style⟩ := p
  have hplain : removeSequences (text.toList ++ rest) = text.toList ++ removeSequences rest :=
    removeSequences_append h rest
  cases colors with
  | false => exact hplain
  | true =>
    cases style with
    | none => exact hplain
    -- what begins the style, the text, and what ends it
    | some style =>
      have hwrite : Piece.write true ⟨text, some style⟩ =
          String.ofList (style.start ++ restart style.start text.toList ++ reset) := rfl
      calc removeSequences ((Piece.write true ⟨text, some style⟩).toList ++ rest)
          = removeSequences (style.start ++ (text.toList ++ (reset ++ rest))) := by
            rw [hwrite, String.toList_ofList, restart_of_escapeless style.start h]
            simp only [List.append_assoc]
        _ = text.toList ++ removeSequences rest := by
            rw [removeSequences_start, removeSequences_append h, removeSequences_reset]

theorem writeLine_cons (colors : Bool) (p : Piece) (line : Line) :
    (writeLine colors (p :: line)).toList =
      (p.write colors).toList ++ (writeLine colors line).toList := by
  rw [writeLine, List.map_cons, String.join_cons, String.toList_append, writeLine]

/-- A line that is written in color is the plain line, once the sequences are taken out. -/
theorem removeSequences_line (colors : Bool) {line : Line} (h : ∀ p ∈ line, Escapeless p.text)
    (rest : List Char) :
    removeSequences ((writeLine colors line).toList ++ rest) =
      (writeLine false line).toList ++ removeSequences rest := by
  induction line with
  | nil => rfl
  | cons p line ih =>
    obtain ⟨hp, hline⟩ := List.forall_mem_cons.mp h
    have hfalse : (p.write false).toList = p.text.toList := rfl
    rw [writeLine_cons, writeLine_cons, List.append_assoc, List.append_assoc,
      removeSequences_piece colors hp, ih hline, hfalse]

/-- **Colored lines without their sequences are plain lines.** -/
theorem stripped_writeLines (colors : Bool) {lines : List Line}
    (h : ∀ line ∈ lines, ∀ p ∈ line, Escapeless p.text) :
    stripped (writeLines colors lines) = writeLines false lines := by
  have hlines : removeSequences (writeLines colors lines).toList =
      (writeLines false lines).toList := by
    induction lines with
    | nil => rfl
    | cons line lines ih =>
      obtain ⟨hline, hlines⟩ := List.forall_mem_cons.mp h
      -- each line ends with a line feed, which is no escape
      have hcons (colors : Bool) : (writeLines colors (line :: lines)).toList =
          (writeLine colors line).toList ++ (['\n'] ++ (writeLines colors lines).toList) := by
        simp [writeLines]
      rw [hcons, hcons, removeSequences_line colors hline,
        removeSequences_append (by decide : escape ∉ ['\n']), ih hlines]
  rw [stripped, hlines, String.ofList_toList]

/-! ## §5 Plain lines -/

/-- A plain line is woven from what its pieces are. -/
theorem woven_writeLine {line : Line} (h : ∀ p ∈ line, Woven given p.text) :
    Woven given (writeLine false line) := by
  refine woven_join fun t ht => ?_
  obtain ⟨p, hp, rfl⟩ := List.mem_map.mp ht
  exact h p hp

theorem woven_writeLines {lines : List Line}
    (h : ∀ line ∈ lines, ∀ p ∈ line, Woven given p.text) :
    Woven given (writeLines false lines) := by
  refine woven_join fun t ht => ?_
  obtain ⟨line, hline, rfl⟩ := List.mem_map.mp ht
  have hend : Escapeless "\n" := by decide
  exact (woven_writeLine (h line hline)).append hend.woven

end CanonicalQuery.Terminal
