import CanonicalQuery.Proofs.Json.Embedded

/-!
# Texts put together from texts

A text may have blanks around it, it may be an item of an array, and it may be the content of a
member of an object.  What the whole spells is put together from what the parts spell: an array is
read if and only if there is room for its bracket and each of its items is read with one bracket
less at its disposal, and an object likewise.  Blanks do not matter.

## Main definitions

- `Blanks`, `Member`: blanks and members of objects, as they are written.
- `arrayText`, `objectText`: the texts of arrays and objects.
- `Value.of?`: the sorted value of a text, if it is read.

## Main statements

- `run_parts`: parts with commas between them are read one after the other.
- `Form.of?_blanks`, `Form.of?_arrayText`, `Form.of?_objectText`: what such texts spell.
- `Value.of?_arrayText`, `Value.of?_objectText`: what their values are.
-/

namespace CanonicalQuery.Json

/-! ## §1 Lists of parts -/

section Parts

variable {α β γ : Type} {f : α → Option β}

/-- A row of parts is read if its first part and the row behind it are. -/
theorem mapM_cons_eq_some {a : α} {l : List α} {bs : List β} :
    (a :: l).mapM f = some bs ↔ ∃ b cs, f a = some b ∧ l.mapM f = some cs ∧ b :: cs = bs := by
  simp [List.mapM_cons, Option.bind_eq_some_iff]

/-- A row is read as a whole if each of its parts is. -/
theorem mapM_isSome {l : List α} (h : ∀ a ∈ l, (f a).isSome) : (l.mapM f).isSome := by
  induction l with
  | nil => rfl
  | cons a l ih =>
    obtain ⟨ha, hl⟩ := List.forall_mem_cons.mp h
    obtain ⟨b, hb⟩ := Option.isSome_iff_exists.mp ha
    obtain ⟨bs, hbs⟩ := Option.isSome_iff_exists.mp (ih hl)
    exact Option.isSome_iff_exists.mpr ⟨_, mapM_cons_eq_some.mpr ⟨b, bs, hb, hbs, rfl⟩⟩

/-- Parts that are read one after the other and then looked at one after the other. -/
theorem mapM_bind_mapM (g : β → Option γ) (l : List α) :
    (l.mapM f).bind (·.mapM g) = l.mapM fun a => (f a).bind g := by
  induction l with
  | nil => rfl
  | cons a l ih =>
    rw [List.mapM_cons, List.mapM_cons, ← ih]
    -- a part that is not read ends both sides, whether it is this one or a later one
    cases f a with
    | none => rfl
    | some b =>
      cases l.mapM f with
      | none => cases g b <;> simp
      | some bs => simp [List.mapM_cons]

end Parts

namespace Automaton

section Parts

variable {d : Demands} {α β : Type} {part : α → List (Option Char)} {read : α → Option β}
  {awaiting after : List β → State} {closing : Char}

/-- In the state a part is read up to the comma or closing character behind it, and then stands
behind some others. -/
def ReadsPart (d : Demands) (part : α → List (Option Char)) (read : α → Option β)
    (after : List β → State) (closing : Char) (s : State) (bs : List β) (a : α) : Prop :=
  ∀ (c : Char) (rest : List (Option Char)), c = ',' ∨ c = closing →
    run d s (part a ++ some c :: rest)
      = (read a).bind fun b => run d (after (b :: bs)) (some c :: rest)

/-- Parts with commas between them, from one of them to the closing character behind the last. -/
theorem run_parts (closed : List β → State)
    (hcomma : ∀ bs, step d (after bs) (some ',') = some (awaiting bs))
    (hclosing : ∀ bs, step d (after bs) (some closing) = some (closed bs.reverse))
    (as : List α) (hparts : ∀ a ∈ as, ∀ bs, ReadsPart d part read after closing (awaiting bs) bs a)
    {s : State} {bs : List β} {a : α} (ha : ReadsPart d part read after closing s bs a)
    (rest : List (Option Char)) :
    run d s (part a ++ (as.flatMap (fun a => some ',' :: part a) ++ some closing :: rest))
      = ((a :: as).mapM read).bind fun cs => run d (closed (bs.reverse ++ cs)) rest := by
  -- on the parts behind the first one; `bs` holds what has been read so far, newest first
  induction as generalizing s bs a with
  | nil =>
    -- the last part is closed, and what was held newest first is turned round
    rw [List.flatMap_nil, List.nil_append, ha closing rest (.inr rfl), List.mapM_cons]
    cases read a with
    | none => rfl
    | some b =>
      show run d (after (b :: bs)) (some closing :: rest) = run d (closed (bs.reverse ++ [b])) rest
      rw [run, hclosing, List.reverse_cons]
  | cons next as ih =>
    obtain ⟨hnext, has⟩ := List.forall_mem_cons.mp hparts
    rw [List.flatMap_cons, List.cons_append, List.cons_append, List.append_assoc,
      ha ',' _ (.inl rfl), List.mapM_cons]
    cases read a with
    | none => rfl
    | some b =>
      show run d (after (b :: bs)) (some ',' :: _) = _
      -- the comma leads to the state in which the next part is awaited
      rw [run, hcomma]
      show run d (awaiting (b :: bs)) _ = _
      rw [ih has (hnext (b :: bs))]
      cases (next :: as).mapM read with
      | none => rfl
      | some cs => simp

end Parts

end Automaton

/-! ## §2 Blanks -/

/-- Blanks, which may stand between the tokens of a text. -/
structure Blanks where
  text : String
  blank : ∀ c ∈ text.toList, Automaton.IsBlank c

def Blanks.none : Blanks := ⟨"", by simp⟩

namespace Automaton

variable {d : Demands}

/-- The symbols are blanks and nothing else. -/
def AllBlank (cs : List (Option Char)) : Prop :=
  ∀ c? ∈ cs, ∃ c, c? = some c ∧ IsBlank c

/-- Where one blank changes nothing, any number of them changes nothing. -/
theorem run_allBlank {s : State} (hskips : ∀ c, IsBlank c → step d s (some c) = some s)
    {cs : List (Option Char)} (hcs : AllBlank cs) (rest : List (Option Char)) :
    run d s (cs ++ rest) = run d s rest := by
  -- each blank leads back to the same state
  induction cs with
  | nil => rfl
  | cons c? cs ih =>
    obtain ⟨⟨c, rfl, hc⟩, hrest⟩ := List.forall_mem_cons.mp hcs
    rw [List.cons_append, run, hskips c hc]
    exact ih hrest

/-- The same for blanks as they are written. -/
theorem run_blanks {s : State} (hskips : ∀ c, IsBlank c → step d s (some c) = some s) (b : Blanks)
    (rest : List (Option Char)) : run d s (symbols b.text ++ rest) = run d s rest := by
  refine run_allBlank hskips (fun c? hc => ?_) rest
  obtain ⟨c, hmem, rfl⟩ := List.mem_map.mp hc
  exact ⟨c, rfl, b.blank c hmem⟩

/-- Blanks in front of a value change nothing. -/
theorem step_blank_value (stack : List Frame) (c : Char) (hc : IsBlank c) :
    step d ⟨stack, .value⟩ (some c) = some ⟨stack, .value⟩ := if_pos hc

/-- Nor do blanks behind one. -/
theorem step_blank_complete (stack : List Frame) (form : Form) (c : Char) (hc : IsBlank c) :
    step d (complete stack form) (some c) = some (complete stack form) := by
  rw [step_complete, stepAfterValue, if_pos hc]

/-- Nor do blanks between a key and its colon. -/
theorem step_blank_colon (stack : List Frame) (members : List (Option String × Form))
    (key : Option String) (c : Char) (hc : IsBlank c) :
    step d ⟨stack, .colon members key⟩ (some c) = some ⟨stack, .colon members key⟩ := if_pos hc

end Automaton

section Blanks

variable {d : Demands} {text : String}

/-- Blanks around a text do not matter. -/
theorem Form.of?_blanks (h : IsText text) (before behind : Blanks) :
    Form.of? d (before.text ++ text ++ behind.text) = Form.of? d text := by
  rw [Form.of?_eq_bind, String.append_assoc, symbols_append, symbols_append,
    Automaton.start, Automaton.run_blanks (Automaton.step_blank_value [])]
  -- without blanks behind it the text ends by itself; otherwise the first of them is the delimiter
  -- that ends it
  cases hbehind : behind.text.toList with
  | nil =>
    have hnone : symbols behind.text = [] := by simp [symbols, hbehind]
    rw [hnone, List.append_nil, Form.of?_eq_bind, Automaton.start]
  | cons c cs =>
    have hc : Automaton.IsDelimiter c := .inl (behind.blank c (by simp [hbehind]))
    have hsymbols : symbols behind.text = some c :: cs.map some := by simp [symbols, hbehind]
    -- behind the value no blank changes anything
    have hskip (form : Form) : Automaton.run d (Automaton.complete [] form) (symbols behind.text)
        = some ⟨[], .done form⟩ := by
      have hrun := Automaton.run_blanks
        (Automaton.step_blank_complete (d := d) [] form) behind []
      rwa [List.append_nil] at hrun
    have hembedded := Automaton.run_embedded (d := d) h [] hc (cs.map some)
    rw [← hsymbols] at hembedded
    rw [hembedded]
    simp only [hskip, List.length_nil, Demands.within_zero]
    cases Form.of? d text with
    | none => rfl
    | some form => rfl

end Blanks

/-! ## §3 Brackets without content -/

section Empty

variable {d : Demands}

/-- Blanks between two brackets, where the second closes what the first has opened. -/
theorem Form.of?_closed (b : Blanks) {opening closing : String} {bracket next : Char}
    {mode : Automaton.Mode} {form : Form} (hopening : symbols opening = [some bracket])
    (hclosing : symbols closing = [some next])
    (hopen : bracket = '[' ∧ mode = .firstItem ∨ bracket = '\x7b' ∧ mode = .firstKey)
    (hclose : Automaton.step d ⟨[], mode⟩ (some next) = some ⟨[], .done form⟩) :
    Form.of? d (opening ++ b.text ++ closing) = if d.Allows 1 then some form else none := by
  -- neither of the two modes behind an opening bracket minds blanks
  have hskips : ∀ c, Automaton.IsBlank c →
      Automaton.step d ⟨[], mode⟩ (some c) = some ⟨[], mode⟩ := by
    obtain ⟨-, rfl⟩ | ⟨-, rfl⟩ := hopen <;> exact fun c hc => if_pos hc
  rw [Form.of?_eq_bind, Automaton.start, symbols_append, symbols_append, hopening, hclosing,
    List.append_assoc, List.singleton_append, Automaton.run_open [] hopen,
    Automaton.run_blanks hskips, Automaton.run, hclose]
  simp only [List.length_nil, Nat.zero_add]
  split_ifs <;> rfl

/-- An array without items needs room for its bracket. -/
theorem Form.of?_emptyArray (b : Blanks) :
    Form.of? d ("[" ++ b.text ++ "]") = if d.Allows 1 then some (.array []) else none :=
  Form.of?_closed b rfl rfl (.inl ⟨rfl, rfl⟩) rfl

/-- So does an object without members. -/
theorem Form.of?_emptyObject (b : Blanks) :
    Form.of? d ("\x7b" ++ b.text ++ "\x7d") = if d.Allows 1 then some (.object []) else none :=
  Form.of?_closed b rfl rfl (.inr ⟨rfl, rfl⟩) rfl

end Empty

/-! ## §4 Arrays -/

/-- An array with these texts for items. -/
def arrayText (texts : List String) : String :=
  "[" ++ ",".intercalate texts ++ "]"

/-- The symbols of texts with commas between them. -/
theorem symbols_commas (text : String) (texts : List String) :
    symbols (",".intercalate (text :: texts))
      = symbols text ++ texts.flatMap fun t => some ',' :: symbols t := by
  rw [intercalate_cons_eq_append, symbols_append, symbols_join]
  rfl

/-- The symbols of an array with at least one item. -/
theorem symbols_arrayText (text : String) (texts : List String) :
    symbols (arrayText (text :: texts))
      = some '[' :: (symbols text
          ++ (texts.flatMap (fun t => some ',' :: symbols t) ++ [some ']'])) := by
  rw [arrayText, symbols_append, symbols_append, symbols_commas, List.append_assoc,
    List.append_assoc]
  rfl

/-- **An array** is read if there is room for its bracket and its items are read. -/
theorem Form.of?_arrayText {d : Demands} {texts : List String} (h : ∀ t ∈ texts, IsText t) :
    Form.of? d (arrayText texts)
      = if d.Allows 1 then (texts.mapM (Form.of? (d.within 1))).map .array else none := by
  cases texts with
  | nil => exact Form.of?_emptyArray .none
  | cons text texts =>
    obtain ⟨htext, htexts⟩ := List.forall_mem_cons.mp h
    -- an item is read with the array around it, and goes into the array
    have hitem (t : String) (ht : IsText t) (items : List Form) :
        Automaton.ReadsPart d symbols (Form.of? (d.within 1)) (fun items => ⟨[], .afterItem items⟩)
          ']' ⟨[.array items], .value⟩ items t := by
      intro c rest hc
      have hdelimiter : Automaton.IsDelimiter c := .inr (hc.imp_right .inl)
      exact Automaton.run_embedded ht [.array items] hdelimiter rest
    -- the items follow each other as parts, closed by the bracket
    have hrun := Automaton.run_parts (fun forms => ⟨[], .done (.array forms)⟩)
      (fun _ => rfl) (fun _ => rfl) texts (fun t ht => hitem t (htexts t ht))
      (hitem text htext []) []
    -- behind the opening bracket the first item is read like the others
    rw [Form.of?_eq_bind, Automaton.start, symbols_arrayText,
      Automaton.run_open [] (.inl ⟨rfl, rfl⟩), Automaton.run_firstItem_embedded htext, hrun]
    simp only [List.length_nil, Nat.zero_add]
    split_ifs
    · cases (text :: texts).mapM (Form.of? (d.within 1)) <;> rfl
    · rfl

/-! ## §5 Objects -/

/-- A member of an object as it is written: a string between blanks, a colon and a text. -/
structure Member where
  before : Blanks
  literal : String
  behind : Blanks
  content : String
  name : Option String
  quoted : literal.toList.head? = some '"'
  named : Form.ofText .formOnly literal = .ok (.string name)
  content_isText : IsText content

namespace Member

def text (m : Member) : String :=
  m.before.text ++ m.literal ++ m.behind.text ++ ":" ++ m.content

/-- The key and the form of a member, if both are read. -/
def of? (d : Demands) (m : Member) : Option (Option String × Form) :=
  (Form.of? d m.literal).bind fun _ => (Form.of? d m.content).map (m.name, ·)

end Member

/-- An object with these members. -/
def objectText (members : List Member) : String :=
  "\x7b" ++ ",".intercalate (members.map Member.text) ++ "\x7d"

namespace Automaton

variable {d : Demands}

/-- Where nothing but blanks may follow, nothing changes. -/
theorem run_done {form : Form} {cs : List (Option Char)} {s : State}
    (h : run d ⟨[], .done form⟩ cs = some s) :
    s = ⟨[], .done form⟩ ∧ AllBlank cs := by
  -- anything but a blank ends the run, so it cannot have led to `s`
  induction cs with
  | nil =>
    cases h
    exact ⟨rfl, by simp [AllBlank]⟩
  | cons c? cs ih =>
    cases c? with
    | none => cases h
    | some c =>
      by_cases hblank : IsBlank c
      · have hstep : step d ⟨[], .done form⟩ (some c) = some ⟨[], .done form⟩ := if_pos hblank
        rw [run, hstep] at h
        obtain ⟨hs, hcs⟩ := ih h
        exact ⟨hs, List.forall_mem_cons.mpr ⟨⟨c, rfl, hblank⟩, hcs⟩⟩
      · have hstep : step d ⟨[], .done form⟩ (some c) = none := if_neg hblank
        rw [run, hstep] at h
        cases h

/-- A string behind its opening quote is read as a key as it is read as a value. -/
theorem run_keyString (d' : Demands) (hstrict : d'.strict = d.strict) (outer : List Frame)
    (members : List (Option String × Form)) {name : Option String} {cs : List (Option Char)}
    {q : Quoted.State} {s : State} (hrun : run .formOnly ⟨[], .string .value q⟩ cs = some s)
    (hfinish : finish .formOnly s = .ok (.string name)) :
    run d ⟨outer, .string (.key members) q⟩ cs
      = ((run d' ⟨[], .string .value q⟩ cs).bind fun s => (finish d' s).toOption).map
          fun _ => ⟨outer, .colon members name⟩ := by
  -- the two readings of the string go through the same states until it closes; `hrun` says that it
  -- is a string and nothing else
  induction cs generalizing q with
  | nil =>
    cases hrun
    cases hfinish
  | cons c? cs ih =>
    rw [run, step_string] at hrun ⊢
    rw [run, step_string]
    unfold stepString at hrun ⊢
    rw [hstrict]
    have hlax : Quoted.step d.strict q c? ≠ .refused →
        Quoted.step Demands.formOnly.strict q c? = Quoted.step d.strict q c? := Quoted.step_lax
    cases hstep : Quoted.step d.strict q c? with
    -- both refuse the symbol
    | refused => rfl
    | more q' =>
      rw [hlax (by simp [hstep]), hstep] at hrun
      exact ih hrun
    | closed text =>
      rw [hlax (by simp [hstep]), hstep] at hrun
      -- the closing quote is the end of the string, and nothing but blanks is behind it
      obtain ⟨rfl, hblanks⟩ := run_done hrun
      cases hfinish
      have hkey := run_allBlank (step_blank_colon (d := d) outer members name) hblanks []
      have hvalue := run_allBlank (step_blank_complete (d := d') [] (.string name)) hblanks []
      rw [List.append_nil] at hkey hvalue
      show run d ⟨outer, .colon members name⟩ cs
        = ((run d' (complete [] (.string name)) cs).bind fun s => (finish d' s).toOption).map
            fun _ => ⟨outer, .colon members name⟩
      rw [hkey, hvalue]
      rfl

/-- A key may come next, behind these members. -/
inductive AwaitsKey : List (Option String × Form) → Mode → Prop where
  | first : AwaitsKey [] .firstKey
  | next (members : List (Option String × Form)) : AwaitsKey members (.key members)

section AwaitsKey

variable {members : List (Option String × Form)} {mode : Mode}

/-- Where a key may come next, blanks change nothing. -/
theorem AwaitsKey.step_blank (h : AwaitsKey members mode) (outer : List Frame) (c : Char)
    (hc : IsBlank c) : step d ⟨outer, mode⟩ (some c) = some ⟨outer, mode⟩ := by
  cases h <;> exact if_pos hc

/-- And a quote begins the key. -/
theorem AwaitsKey.step_quote (h : AwaitsKey members mode) (outer : List Frame) :
    step d ⟨outer, mode⟩ (some '"') = some ⟨outer, .string (.key members) Quoted.start⟩ := by
  cases h <;> rfl

/-- A key, from its opening quote to the end of its text. -/
theorem run_literal (m : Member) (h : AwaitsKey members mode) (outer : List Frame)
    (count : Nat) : run d ⟨outer, mode⟩ (symbols m.literal)
      = (Form.of? (d.within count) m.literal).map fun _ => ⟨outer, .colon members m.name⟩ := by
  obtain ⟨cs, hcs⟩ : ∃ cs, symbols m.literal = some '"' :: cs := by
    obtain ⟨cs, hcs⟩ := List.head?_eq_some_iff.mp m.quoted
    exact ⟨cs.map some, by rw [symbols, hcs, List.map_cons]⟩
  -- behind its quote the key is a text of its own
  obtain ⟨s, hrun, hfinish⟩ : ∃ s, run .formOnly ⟨[], .string .value Quoted.start⟩ cs = some s ∧
      finish .formOnly s = .ok (.string m.name) := by
    have hnamed := m.named
    rw [Form.ofText, readSymbols, hcs] at hnamed
    split at hnamed
    · next s hs => exact ⟨s, hs, hnamed⟩
    · cases hnamed
  have hstrict : (d.within count).strict = d.strict := rfl
  rw [Form.of?_eq_bind, hcs, run, h.step_quote]
  exact run_keyString (d.within count) hstrict outer members hrun hfinish

/-- A member, from the blanks before its key to the delimiter behind its content. -/
theorem run_member (m : Member) (h : AwaitsKey members mode) (outer : List Frame) {c : Char}
    (hc : IsDelimiter c) (rest : List (Option Char)) :
    run d ⟨outer, mode⟩ (symbols m.text ++ some c :: rest)
      = (m.of? (d.within (outer.length + 1))).bind
          fun member => run d ⟨outer, .afterMember (member :: members)⟩ (some c :: rest) := by
  -- blanks, key, blanks, colon and content, each to be read on its own
  have hsymbols : symbols m.text ++ some c :: rest
      = symbols m.before.text ++ (symbols m.literal ++ (symbols m.behind.text
          ++ (some ':' :: (symbols m.content ++ some c :: rest)))) := by
    simp only [Member.text, symbols_append, List.append_assoc]
    rfl
  rw [hsymbols, run_blanks (h.step_blank outer), run_append,
    run_literal m h outer (outer.length + 1), Member.of?]
  cases Form.of? (d.within (outer.length + 1)) m.literal with
  | none => rfl
  | some key =>
    show run d ⟨outer, .colon members m.name⟩ _ = _
    rw [run_blanks (step_blank_colon outer members m.name)]
    show run d ⟨.member members m.name :: outer, .value⟩ _ = _
    -- the content stands within one more frame, which holds the key
    rw [run_embedded m.content_isText (.member members m.name :: outer) hc]
    simp only [List.length_cons]
    cases Form.of? (d.within (outer.length + 1)) m.content with
    | none => rfl
    | some form => rfl

end AwaitsKey

end Automaton

/-- The symbols of an object with at least one member. -/
theorem symbols_objectText (m : Member) (ms : List Member) :
    symbols (objectText (m :: ms))
      = some '\x7b' :: (symbols m.text
          ++ (ms.flatMap (fun n => some ',' :: symbols n.text) ++ [some '\x7d'])) := by
  rw [objectText, List.map_cons, symbols_append, symbols_append, symbols_commas, List.flatMap_map,
    List.append_assoc, List.append_assoc]
  rfl

/-- **An object** is read if there is room for its brace and its members are read. -/
theorem Form.of?_objectText (d : Demands) (members : List Member) :
    Form.of? d (objectText members)
      = if d.Allows 1 then (members.mapM (Member.of? (d.within 1))).map .object else none := by
  cases members with
  | nil => exact Form.of?_emptyObject .none
  | cons m ms =>
    -- members are read with the object around them, whether they are its first or follow others
    have hmember (n : Member) {mode : Automaton.Mode} {before : List (Option String × Form)}
        (hmode : Automaton.AwaitsKey before mode) :
        Automaton.ReadsPart d (fun m => symbols m.text) (Member.of? (d.within 1))
          (fun members => ⟨[], .afterMember members⟩) '\x7d' ⟨[], mode⟩ before n := by
      intro c rest hc
      have hdelimiter : Automaton.IsDelimiter c := .inr (hc.imp_right .inr)
      exact Automaton.run_member n hmode [] hdelimiter rest
    -- they follow each other as parts, closed by the brace
    have hrun := Automaton.run_parts (fun contents => ⟨[], .done (.object contents)⟩)
      (fun _ => rfl) (fun _ => rfl) ms (fun n _ before => hmember n (.next before))
      (hmember m .first) []
    rw [Form.of?_eq_bind, Automaton.start, symbols_objectText,
      Automaton.run_open [] (.inr ⟨rfl, rfl⟩), hrun]
    simp only [List.length_nil, Nat.zero_add]
    split_ifs
    · cases (m :: ms).mapM (Member.of? (d.within 1)) <;> rfl
    · rfl

/-! ## §6 Which texts are JSON -/

/-- A text is JSON if it is read for its form alone. -/
theorem isText_iff {text : String} : IsText text ↔ (Form.of? .formOnly text).isSome := by
  simp only [Option.isSome_iff_exists, Form.of?_eq_some]
  rfl

/-- For the form alone there is always room. -/
theorem allows_formOnly (count : Nat) : Demands.formOnly.Allows count := by
  intro limit hlimit
  cases hlimit

/-- Blanks around a JSON text leave it one. -/
theorem IsText.blanks {text : String} (h : IsText text) (before behind : Blanks) :
    IsText (before.text ++ text ++ behind.text) := by
  rw [isText_iff, Form.of?_blanks h]
  exact isText_iff.mp h

/-- An array of JSON texts is one. -/
theorem isText_arrayText {texts : List String} (h : ∀ t ∈ texts, IsText t) :
    IsText (arrayText texts) := by
  rw [isText_iff, Form.of?_arrayText h, if_pos (allows_formOnly 1), Option.isSome_map]
  exact mapM_isSome fun t ht => isText_iff.mp (h t ht)

/-- So is an object, whose members hold JSON texts. -/
theorem isText_objectText (members : List Member) : IsText (objectText members) := by
  rw [isText_iff, Form.of?_objectText, if_pos (allows_formOnly 1), Option.isSome_map]
  refine mapM_isSome fun m _ => ?_
  obtain ⟨form, hform⟩ := m.content_isText
  rw [Member.of?, show Demands.formOnly.within 1 = .formOnly from rfl,
    Form.of?_eq_some.mpr m.named, Form.of?_eq_some.mpr hform]
  rfl

/-- So is an array without items. -/
theorem isText_emptyArray (b : Blanks) : IsText ("[" ++ b.text ++ "]") := by
  rw [isText_iff, Form.of?_emptyArray, if_pos (allows_formOnly 1)]
  rfl

/-- And so is an object without members. -/
theorem isText_emptyObject (b : Blanks) : IsText ("\x7b" ++ b.text ++ "\x7d") := by
  rw [isText_iff, Form.of?_emptyObject, if_pos (allows_formOnly 1)]
  rfl

/-! ## §7 Values -/

namespace Form

/-- The sorted value of a form, if it has one. -/
def sortedValue? (f : Form) : Option Value :=
  f.value?.map Value.sorted

/-- A member of an object with the sorted value of its content, if its key and content have one. -/
def sortedMember? (m : Option String × Form) : Option (String × Value) :=
  m.1.bind fun key => (sortedValue? m.2).map (key, ·)

/-- The items of an array have sorted values if they have values, and these are sorted one by
one. -/
theorem mapM_sortedValue? (fs : List Form) :
    fs.mapM sortedValue? = (value?.itemValues? fs).map Value.sorted.sortedItems := by
  induction fs with
  | nil => rfl
  | cons f fs ih =>
    rw [List.mapM_cons, ih, sortedValue?, value?.itemValues?]
    cases value? f with
    | none => rfl
    | some v => cases value?.itemValues? fs <;> rfl

/-- The same for the members of an object; a key without a value counts as a member without one. -/
theorem mapM_sortedMember? (ms : List (Option String × Form)) :
    ms.mapM sortedMember? = (value?.memberValues? ms).map Value.sorted.sortedMembers := by
  induction ms with
  | nil => rfl
  | cons m ms ih =>
    obtain ⟨key, f⟩ := m
    rw [List.mapM_cons, ih, sortedMember?, sortedValue?]
    -- a member fails for its key or for its content, and the row for any of its members
    cases key with
    | none => rfl
    | some key =>
      cases hv : value? f with
      | none => simp [value?.memberValues?, hv]
      | some v =>
        cases hms : value?.memberValues? ms with
        | none => simp [value?.memberValues?, hv, hms]
        | some vs => simp [value?.memberValues?, hv, hms, Value.sorted.sortedMembers]

/-- The sorted value of an array holds those of its items. -/
theorem sortedValue?_array (fs : List Form) :
    (Form.array fs).sortedValue? = (fs.mapM sortedValue?).map .array := by
  rw [mapM_sortedValue?, sortedValue?, value?, Option.map_map, Option.map_map]
  rfl

/-- The sorted value of an object is the map of its sorted members. -/
theorem sortedValue?_object (ms : List (Option String × Form)) :
    (Form.object ms).sortedValue?
      = (ms.mapM sortedMember?).map fun members => .object (Members.ofList members) := by
  rw [mapM_sortedMember?, sortedValue?, value?, Option.map_map, Option.map_map]
  rfl

end Form

/-- The sorted value of a text, if it is read. -/
def Value.of? (d : Demands) (text : String) : Option Value :=
  (Form.of? d text).bind Form.sortedValue?

/-- The key and the sorted value of a member, if both are read. -/
def Member.value? (d : Demands) (m : Member) : Option (String × Value) :=
  (m.of? d).bind Form.sortedMember?

/-- Under the standard demands this is the value that a text is read as. -/
theorem Value.of?_standard {text : String} {v : Value} :
    Value.of? .standard text = some v ↔ Value.ofText text = .ok v := by
  rw [Value.of?, Form.of?, Form.ofText, Value.ofText, Value.ofSymbols]
  cases readSymbols .standard (symbols text) with
  | error failure => simp [Except.toOption, bind, Except.bind]
  | ok f =>
    show f.sortedValue? = some v ↔ f.toValue = .ok v
    rw [Form.sortedValue?, Form.toValue]
    cases f.value? with
    | none => simp
    | some w => simp

section Values

variable {d : Demands}

/-- Blanks around a text leave its value as it is. -/
theorem Value.of?_blanks {text : String} (h : IsText text) (before behind : Blanks) :
    Value.of? d (before.text ++ text ++ behind.text) = Value.of? d text := by
  rw [Value.of?, Form.of?_blanks h, Value.of?]

/-- The value of an array is put together from the values of its items. -/
theorem Value.of?_arrayText {texts : List String} (h : ∀ t ∈ texts, IsText t) :
    Value.of? d (arrayText texts)
      = if d.Allows 1 then (texts.mapM (Value.of? (d.within 1))).map .array else none := by
  have hitems := mapM_bind_mapM (f := Form.of? (d.within 1)) Form.sortedValue? texts
  -- forms first and values afterwards come to the same as both for each item
  rw [Value.of?, Form.of?_arrayText h]
  split_ifs
  · rw [show Value.of? (d.within 1) = fun t => (Form.of? (d.within 1) t).bind Form.sortedValue?
      from rfl, ← hitems]
    cases texts.mapM (Form.of? (d.within 1)) with
    | none => rfl
    | some forms => exact Form.sortedValue?_array forms
  · rfl

/-- The value of an object is the map of what its members are. -/
theorem Value.of?_objectText (members : List Member) :
    Value.of? d (objectText members)
      = if d.Allows 1 then (members.mapM (Member.value? (d.within 1))).map
          fun ms => .object (Members.ofList ms) else none := by
  have hmembers := mapM_bind_mapM (f := Member.of? (d.within 1)) Form.sortedMember? members
  -- as for arrays, with the map in place of the list
  rw [Value.of?, Form.of?_objectText]
  split_ifs
  · rw [show Member.value? (d.within 1) = fun m => (m.of? (d.within 1)).bind Form.sortedMember?
      from rfl, ← hmembers]
    cases members.mapM (Member.of? (d.within 1)) with
    | none => rfl
    | some contents => exact Form.sortedValue?_object contents
  · rfl

/-- The same as an equivalence, for taking an array apart. -/
theorem Value.of?_arrayText_eq_some {texts : List String} (h : ∀ t ∈ texts, IsText t) {v : Value} :
    Value.of? d (arrayText texts) = some v
      ↔ d.Allows 1 ∧ ∃ vs, texts.mapM (Value.of? (d.within 1)) = some vs ∧ .array vs = v := by
  rw [Value.of?_arrayText h, Option.ite_none_right_eq_some, Option.map_eq_some_iff]

/-- The same as an equivalence, for taking an object apart. -/
theorem Value.of?_objectText_eq_some {members : List Member} {v : Value} :
    Value.of? d (objectText members) = some v
      ↔ d.Allows 1 ∧ ∃ ms, members.mapM (Member.value? (d.within 1)) = some ms ∧
        .object (Members.ofList ms) = v := by
  rw [Value.of?_objectText, Option.ite_none_right_eq_some, Option.map_eq_some_iff]

/-- A member is read if its key is read and spells a string that has a value, and its content has a
value. -/
theorem Member.value?_eq_some {m : Member} {key : String} {v : Value} :
    m.value? d = some (key, v)
      ↔ (Form.of? d m.literal).isSome ∧ m.name = some key ∧ Value.of? d m.content = some v := by
  rw [Member.value?, Member.of?, Value.of?]
  -- the key has to be read although only its name is kept
  cases Form.of? d m.literal with
  | none => simp
  | some literal =>
    cases Form.of? d m.content with
    | none => simp
    | some form =>
      simp only [Option.bind_some, Option.map_some, Form.sortedMember?, Option.isSome_some,
        true_and, Option.bind_eq_some_iff, Option.map_eq_some_iff, Prod.mk.injEq]
      constructor
      · rintro ⟨_, hname, _, hv, rfl, rfl⟩
        exact ⟨hname, hv⟩
      · rintro ⟨hname, hv⟩
        exact ⟨key, hname, v, hv, rfl, rfl⟩

end Values

end CanonicalQuery.Json
