import CanonicalQuery.CommandLine.Arguments
import CanonicalQuery.Proofs.Steps

/-!
# Words read one behind the other

A command line is read from the left.  Where some words alone would have been accepted, reading goes
on behind them from a level that holds their options, so more words may be added: a source behind a
subcommand, a tree among the options, or a subcommand behind them.

Words behind two dashes are read in another way; they are left out here.

## Main definitions

- `Level.word`: what one word adds to the options of a side.
- `GoesOn`: how a line is read behind words that were read.
- `Reads`: words are read as the parts of a command line, and more may follow.

## Main statements

- `readBefore_append`: how reading goes on.
- `Reads.withInput`: a source behind a subcommand that has none.
- `Reads.withTree`: a tree among options.
- `Reads.withSubcommand`: a subcommand behind options.
-/

namespace CanonicalQuery.CommandLine

variable {level : Level} {o : Options} {tree : Option String} {words : List String} {s : Subcommand}

/-! ## §1 Single words -/

theorem Word.of_eq_dashes {word : String} (h : Word.of word = .dashes) : word = "--" := by
  unfold Word.of at h
  split at h
  · next hw => exact String.toList_inj.mp hw
  all_goals simp at h

theorem Word.short_ne_nil {word : String} {text : List Char} (h : Word.of word = .short text) :
    text ≠ [] := by
  rintro rfl
  unfold Word.of at h
  split at h <;> simp_all

/-- A word without a dash at its front is plain. -/
theorem Word.of_eq_plain {word : String} (h : word.toList.head? ≠ some '-') :
    Word.of word = .plain := by
  unfold Word.of
  split <;> simp_all

/-- A name of a subcommand names it. -/
theorem Subcommand.ofName?_name (s : Subcommand) : Subcommand.ofName? s.name = some s := by
  cases s <;> decide

theorem Subcommand.word_name (s : Subcommand) : Word.of s.name = .plain := by
  cases s <;> decide

/-! ## §2 Levels -/

namespace Level

/-- A level that can be settled awaits nothing. -/
theorem awaits_of_settled (h : level.settled = .ok o) : level.Awaits = false := by
  unfold settled at h
  unfold Awaits
  split at h <;> simp_all

/-- What a word adds to the options of a side, be it an option or the word that one awaits. -/
def word (side : Side) (level : Level) (word : String) : Except Stop Level :=
  match Word.of word with
  | .dashes => .error .misused
  | .long text => level.long side text
  | .short text => level.short side text
  | .plain => if level.Awaits then .ok (level.answer word) else .error .misused

/-- Where nothing is awaited, what a word adds depends on the settled options only. -/
theorem word_of_settled (h : level.settled = .ok o) (side : Side) (w : String) :
    level.word side w = word side ⟨o, none⟩ w := by
  -- every option settles the one before it first, and a plain word is no value on either level
  have hsettled : level.settled = settled ⟨o, none⟩ := h
  have hawaits : level.Awaits = Awaits ⟨o, none⟩ := awaits_of_settled h
  unfold word
  cases hw : Word.of w with
  | dashes => rfl
  | long text => simp only [long, await, raise, give, hsettled]
  | short text =>
    cases text with
    | nil => exact absurd rfl (Word.short_ne_nil hw)
    | cons letter rest => simp only [short, await, raise, give, hsettled]
  | plain =>
    rw [hawaits]
    rfl

/-- A plain word that no option awaits. -/
def Frees (level : Level) (w : String) : Prop :=
  Word.of w = .plain ∧ level.Awaits = false

end Level

/-! ## §3 The words behind a subcommand -/

theorem noDashes_cons {w : String} : "--" ∉ w :: words ↔ w ≠ "--" ∧ "--" ∉ words := by
  rw [List.mem_cons, not_or, ne_comm]

theorem readBehind_dashes : readBehind s level ("--" :: words) =
    if words.isEmpty then level.settled else .error .misused := by
  rfl

theorem readBehind_cons {w : String} (hw : w ≠ "--") :
    readBehind s level (w :: words) =
      level.word (some s) w >>= fun next => readBehind s next words := by
  rw [readBehind, Level.word]
  cases hof : Word.of w with
  | dashes => exact absurd (Word.of_eq_dashes hof) hw
  | long text => rfl
  | short text => rfl
  | plain => cases level.Awaits <;> rfl

/-- Behind accepted words reading goes on from a level with their options. -/
theorem readBehind_append {b : Options} (h : readBehind s level words = .ok b)
    (hd : "--" ∉ words) :
    ∃ l : Level, l.settled = .ok b ∧
      ∀ rest, readBehind s level (words ++ rest) = readBehind s l rest := by
  -- the level behind all the words is the one behind the last of them
  induction words generalizing level with
  | nil => exact ⟨level, h, fun rest => rfl⟩
  | cons w words ih =>
    obtain ⟨hw, hwords⟩ := noDashes_cons.mp hd
    rw [readBehind_cons hw] at h
    obtain ⟨next, hnext, h⟩ := bind_eq_ok.mp h
    obtain ⟨l, hl, hrest⟩ := ih h hwords
    refine ⟨l, hl, fun rest => ?_⟩
    rw [List.cons_append, readBehind_cons hw, hnext]
    exact hrest rest

/-- A source behind options that name none. -/
theorem readBehind_input {path : String} (hl : level.settled = .ok o) (hs : s ≠ .rules)
    (hinput : o.input = none) (hpath : path ≠ "") (hplain : Word.of path = .plain) :
    readBehind s level ["--input", path] = .ok { o with input := some path } := by
  have hpath' : path ≠ "--" := by
    rintro rfl
    simp [Word.of] at hplain
  have hword : level.word (some s) "--input" = .ok ⟨o, some (.input, none)⟩ := by
    rw [Level.word_of_settled hl]
    cases s with
    | rules => exact absurd rfl hs
    | serialize => rfl
    | explain => rfl
  have hanswer : Level.word (some s) ⟨o, some (.input, none)⟩ path =
      .ok ⟨o, some (.input, some path)⟩ := by
    rw [Level.word, hplain]
    rfl
  -- the path is the word that the option awaits, and the end of the line settles it
  calc readBehind s level ["--input", path]
      = readBehind s ⟨o, some (.input, none)⟩ [path] := by
        rw [readBehind_cons (by decide), hword]
        rfl
    _ = readBehind s ⟨o, some (.input, some path)⟩ [] := by
        rw [readBehind_cons hpath', hanswer]
        rfl
    _ = .ok { o with input := some path } := by
        simp [readBehind, Level.settled, Level.put, hinput, hpath]

/-! ## §4 The words before a subcommand -/

theorem readBefore_dashes : readBefore level tree ("--" :: words) =
    if level.Awaits then .error .misused else readPlain level tree words := by
  conv => lhs; rw [readBefore.eq_def]
  rfl

/-- An option, or a word that an option awaits, leaves the tree as it is. -/
theorem readBefore_cons {w : String} (hw : w ≠ "--") (hf : ¬level.Frees w) :
    readBefore level tree (w :: words) =
      level.word none w >>= fun next => readBefore next tree words := by
  conv => lhs; rw [readBefore.eq_def]
  rw [Level.word]
  -- a long or a short word is an option, and a plain one is awaited, for else it were free
  cases hof : Word.of w with
  | dashes => exact absurd (Word.of_eq_dashes hof) hw
  | long text => simp only [hof]
  | short text => simp only [hof]
  | plain =>
    cases ha : level.Awaits with
    | false => exact absurd ⟨hof, ha⟩ hf
    | true =>
      simp only [hof, if_true]
      rfl

/-- A free word is a subcommand or the tree. -/
theorem readBefore_cons_free {w : String} (hf : level.Frees w) :
    readBefore level tree (w :: words) =
      match Subcommand.ofName? w with
      | some s => do
        let behind ← (readBehind s {} words).mapError (Stop.behind s)
        return ⟨← level.settled, tree, some (s, behind)⟩
      | none =>
        if w = "help" then .error ((Topic.ofWords? words).elim .misused .help)
        else
          match tree with
          | some _ => .error .misused
          | none => level.settled >>= fun o => readBefore ⟨o, none⟩ (some w) words := by
  conv => lhs; rw [readBefore.eq_def]
  simp only [hf.1, hf.2]
  rfl

theorem readBefore_nil_eq_ok {p : Parts} :
    readBefore level tree [] = .ok p ↔ ∃ o, level.settled = .ok o ∧ p = ⟨o, tree, none⟩ := by
  have hreturn (tree : Option String) :
      (do return ⟨← level.settled, tree, none⟩ : Except Stop Parts) = .ok p ↔
        ∃ o, level.settled = .ok o ∧ p = ⟨o, tree, none⟩ := by
    rw [bind_eq_ok]
    simp only [pure_eq_ok, eq_comm (b := p)]
  rw [readBefore, readPlain]
  cases tree with
  | none => exact hreturn none
  | some t => exact hreturn (some t)

/-- The first word of a line that is accepted adds to the options, is the tree, or is the
subcommand. -/
theorem readBefore_cons_eq_ok {w : String} {p : Parts} (hw : w ≠ "--")
    (h : readBefore level tree (w :: words) = .ok p) :
    (∃ next, ∀ tree rest, readBefore level tree (w :: rest) = readBefore next tree rest) ∨
      (tree = none ∧ ∃ next, ∀ rest,
        readBefore level none (w :: rest) = readBefore next (some w) rest) ∨
      ∃ s o b, p = ⟨o, tree, some (s, b)⟩ ∧ readBehind s {} words = .ok b ∧
        ∀ rest, readBefore level tree (w :: rest) =
          ((readBehind s {} rest).mapError (Stop.behind s)).map fun behind =>
            ⟨o, tree, some (s, behind)⟩ := by
  by_cases hf : level.Frees w
  · right
    rw [readBefore_cons_free hf] at h
    cases hs : Subcommand.ofName? w with
    | some s =>
      -- the words behind the subcommand are read first, the options before it settled last
      right
      simp only [hs] at h
      obtain ⟨b, hb, h⟩ := bind_eq_ok.mp h
      obtain ⟨o, ho, h⟩ := bind_eq_ok.mp h
      refine ⟨s, o, b, (pure_eq_ok.mp h).symm, mapError_eq_ok.mp hb, fun rest => ?_⟩
      rw [readBefore_cons_free hf]
      simp only [hs, ho]
      cases readBehind s {} rest <;> rfl
    | none =>
      left
      simp only [hs] at h
      split at h
      · simp at h
      · next hhelp =>
        cases tree with
        | some t => simp at h
        | none =>
          obtain ⟨o, ho, h⟩ := bind_eq_ok.mp h
          refine ⟨rfl, ⟨o, none⟩, fun rest => ?_⟩
          rw [readBefore_cons_free hf]
          simp only [hs, if_neg hhelp, ho]
          rfl
  · -- neither the tree nor a subcommand
    left
    rw [readBefore_cons hw hf] at h
    obtain ⟨next, hnext, -⟩ := bind_eq_ok.mp h
    refine ⟨next, fun tree rest => ?_⟩
    rw [readBefore_cons hw hf, hnext]
    rfl

/-- How a line is read behind words that are read as parts. -/
inductive GoesOn (p : Parts) (behind : List String → Except Stop Parts) : Prop where
  /-- Behind options and a tree. -/
  | options {l : Level} (command : p.command = none) (settled : l.settled = .ok p.before)
      (goesOn : ∀ rest, behind rest = readBefore l p.tree rest)
  /-- Behind a subcommand and options of it. -/
  | command {s : Subcommand} {b : Options} {l : Level} (command : p.command = some (s, b))
      (settled : l.settled = .ok b)
      (goesOn : ∀ rest, behind rest =
        ((readBehind s l rest).mapError (Stop.behind s)).map fun b =>
          { p with command := some (s, b) })

/-- The reader goes on from words that it has read, on the side that they lead to. -/
theorem readBefore_append {p : Parts} (h : readBefore level tree words = .ok p)
    (hd : "--" ∉ words) : GoesOn p fun rest => readBefore level tree (words ++ rest) := by
  induction words generalizing level tree with
  | nil =>
    obtain ⟨o, hl, rfl⟩ := readBefore_nil_eq_ok.mp h
    exact .options rfl hl fun rest => rfl
  | cons w words ih =>
    obtain ⟨hw, hwords⟩ := noDashes_cons.mp hd
    simp only [List.cons_append]
    -- an option or the tree leaves the reader before a subcommand; a subcommand hands over to its
    -- own
    rcases readBefore_cons_eq_ok hw h with
      ⟨next, hrest⟩ | ⟨rfl, next, hrest⟩ | ⟨s, o, b, rfl, hb, hrest⟩
    · simp only [hrest]
      exact ih (by rw [← hrest]; exact h) hwords
    · simp only [hrest]
      exact ih (by rw [← hrest]; exact h) hwords
    · obtain ⟨l, hl, hbehind⟩ := readBehind_append hb hwords
      exact .command rfl hl fun rest => by rw [hrest, hbehind]

/-- A tree that was given stays the tree. -/
theorem tree_of_readBefore {t : String} {p : Parts}
    (h : readBefore level (some t) words = .ok p) (hd : "--" ∉ words) : p.tree = some t := by
  induction words generalizing level with
  | nil =>
    obtain ⟨o, -, rfl⟩ := readBefore_nil_eq_ok.mp h
    rfl
  | cons w words ih =>
    obtain ⟨hw, hwords⟩ := noDashes_cons.mp hd
    rcases readBefore_cons_eq_ok hw h with
      ⟨next, hrest⟩ | ⟨htree, -⟩ | ⟨s, o, b, rfl, -⟩
    · exact ih (by rw [← hrest]; exact h) hwords
    · simp at htree
    · rfl

/-- Options are read behind a tree as they are read without one. -/
theorem readBefore_some_tree {t : String}
    (h : readBefore level none words = .ok ⟨o, none, none⟩) (hd : "--" ∉ words) :
    readBefore level (some t) words = .ok ⟨o, some t, none⟩ := by
  -- by the words, each of which is an option here: a free one would be a second tree or a
  -- subcommand
  induction words generalizing level with
  | nil =>
    obtain ⟨o', hl, hp⟩ := readBefore_nil_eq_ok.mp h
    exact readBefore_nil_eq_ok.mpr ⟨o, by simp_all, rfl⟩
  | cons w words ih =>
    obtain ⟨hw, hwords⟩ := noDashes_cons.mp hd
    rcases readBefore_cons_eq_ok hw h with
      ⟨next, hrest⟩ | ⟨-, next, hrest⟩ | ⟨s, o', b, hp, -⟩
    · rw [hrest]
      exact ih (by rw [← hrest]; exact h) hwords
    · -- `w` would be the tree
      rw [hrest] at h
      simpa using tree_of_readBefore h hwords
    · simp at hp

/-- What can be settled at all may be settled before the next word is read. -/
theorem readBefore_of_settled (h : level.settled = .ok o) (hd : "--" ∉ words) :
    readBefore level tree words = readBefore ⟨o, none⟩ tree words := by
  cases words with
  | nil =>
    rw [readBefore, readBefore, readPlain, readPlain, h]
    rfl
  | cons w words =>
    have hw : w ≠ "--" := (noDashes_cons.mp hd).1
    -- a level that can be settled awaits no value, so both take the word in the same way
    have hawaits : level.Awaits = Level.Awaits ⟨o, none⟩ := Level.awaits_of_settled h
    have hfrees : level.Frees w ↔ Level.Frees ⟨o, none⟩ w := by
      rw [Level.Frees, Level.Frees, hawaits]
    by_cases hf : level.Frees w
    · rw [readBefore_cons_free hf, readBefore_cons_free (hfrees.mp hf), h]
      rfl
    · rw [readBefore_cons hw hf, readBefore_cons hw (mt hfrees.mpr hf),
        Level.word_of_settled h]

/-! ## §5 Whole lines -/

/-- Words are read as the parts of a command line, and more words may follow. -/
structure Reads (words : List String) (p : Parts) : Prop where
  read : readBefore {} none words = .ok p
  noDashes : "--" ∉ words

/-- The parts of a line with a source behind the subcommand. -/
def Parts.withInput (p : Parts) (path : String) : Parts :=
  { p with command := p.command.map fun (s, b) => (s, { b with input := some path }) }

/-- Options of a subcommand leave a line open for more. -/
example : Reads ["-vfjson", "explain", "-c", "a.toml"]
    ⟨{ format := some .json, verbose := true }, none,
      some (.explain, { config := some "a.toml" })⟩ :=
  ⟨rfl, by decide⟩

/-- A source may be added behind a subcommand that needs one and has none. -/
theorem Reads.withInput {p : Parts} {b : Options} (h : Reads words p)
    (hc : p.command = some (s, b)) (hs : s ≠ .rules) (hinput : b.input = none) (path : String)
    (hpath : path ≠ "") (hplain : Word.of path = .plain) :
    readBefore {} none (words ++ ["--input", path]) = .ok (p.withInput path) := by
  -- the reader has passed the subcommand, so the words are its own
  cases readBefore_append h.read h.noDashes with
  | options hnone => simp [hc] at hnone
  | @command s' b' l hc' hl hrest =>
    obtain ⟨rfl, rfl⟩ : s' = s ∧ b' = b := by simpa [hc'] using hc
    rw [hrest, readBehind_input hl hs hinput hpath hplain, Parts.withInput, hc]
    rfl

/-- A tree may stand anywhere among options. -/
theorem Reads.withTree {before behind : List String} {o' : Options} {t : String}
    (h : Reads before ⟨o, none, none⟩) (h' : Reads (before ++ behind) ⟨o', none, none⟩)
    (hdash : t.toList.head? ≠ some '-') (hname : Subcommand.ofName? t = none)
    (hhelp : t ≠ "help") :
    readBefore {} none (before ++ t :: behind) = .ok ⟨o', some t, none⟩ := by
  -- no subcommand was read, so the tree is a free word among options
  cases readBefore_append h.read h.noDashes with
  | command hc => simp at hc
  | @options l hc hl hrest =>
    have hbehind : "--" ∉ behind := fun hb => h'.noDashes (by simp [hb])
    have hread : readBefore ⟨o, none⟩ none behind = .ok ⟨o', none, none⟩ := by
      rw [← readBefore_of_settled hl hbehind, ← h'.read, hrest]
    have hfree : l.Frees t := ⟨Word.of_eq_plain hdash, Level.awaits_of_settled hl⟩
    rw [hrest, readBefore_cons_free hfree]
    simp only [hname, if_neg hhelp, hl]
    exact readBefore_some_tree hread hbehind

/-- A subcommand may stand behind options. -/
theorem Reads.withSubcommand (h : Reads words ⟨o, none, none⟩) (s : Subcommand) :
    Reads (words ++ [s.name]) ⟨o, none, some (s, {})⟩ := by
  cases readBefore_append h.read h.noDashes with
  | command hc => simp at hc
  | @options l hc hl hrest =>
    have hfree : l.Frees s.name := ⟨s.word_name, Level.awaits_of_settled hl⟩
    have hname : "--" ≠ s.name := by cases s <;> decide
    refine ⟨?_, by simp [h.noDashes, hname]⟩
    rw [hrest, readBefore_cons_free hfree, s.ofName?_name, hl]
    rfl

end CanonicalQuery.CommandLine
