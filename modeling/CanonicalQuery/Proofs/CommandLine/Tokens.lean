import CanonicalQuery.Proofs.CommandLine.Words

/-!
# What the words of a side say

The words of one side of a command line say options, one after the other, and what they say can be
told without looking at any value: a word is a long option, some letters, a value of the option in
front of it, or nothing that can be understood.  Reading a side is then taking these options into
account in their order, and the first that is refused ends the reading.

## Main definitions

- `Token`: one thing that is said.
- `Heard`, `scan`: what words say, and the option whose value may still follow.
- `Options.take`, `Options.takeAll`: options with what is said.

## Main statements

- `readBehind_eq_takeAll`: reading the words behind a subcommand is taking what they say.
- `readBefore_append_of_scan`: so is reading options before one.
- `scan_append`: words are heard one behind the other.
- `flags_of_tokens`: words say only options of their side.
-/

namespace CanonicalQuery.CommandLine

variable {level : Level} {o : Options} {tree : Option String} {words rest : List String}
variable {s : Subcommand} {side : Side} {w : String} {text : List Char} {stop : Stop}

/-! ## §1 Tokens -/

/-- One thing that the words of a side say. -/
inductive Token where
  /-- An option, with its value if it has one. -/
  | option (flag : Flag) (value : Option String)
  /-- Two dashes with nothing behind them. -/
  | dashes
  /-- What cannot be understood. -/
  | bad
  deriving DecidableEq, Repr

/-- The option that is said. -/
def Token.flag? : Token → Option Flag
  | option flag _ => some flag
  | dashes | bad => none

/-- The options that are said. -/
def flagsOf (tokens : List Token) : List Flag :=
  tokens.filterMap Token.flag?

/-- The option that came last, with its value if that was a word of its own. -/
abbrev Pending := Option (Flag × Option String)

/-- What the option that came last says if nothing follows; it may miss its value. -/
def owed : Pending → List Token
  | none => []
  | some (flag, some value) => [.option flag (some value)]
  | some (_, none) => [.bad]

/-- What was heard. -/
structure Heard where
  tokens : List Token
  pending : Pending
  deriving DecidableEq, Repr

namespace Heard

/-- All that was heard, also of the option that came last. -/
def all (h : Heard) : List Token :=
  h.tokens ++ owed h.pending

/-- Something else was heard before. -/
def after (h : Heard) (earlier : List Token) : Heard :=
  { h with tokens := earlier ++ h.tokens }

@[simp]
theorem after_tokens (h : Heard) (earlier : List Token) :
    (h.after earlier).tokens = earlier ++ h.tokens := rfl

@[simp]
theorem after_pending (h : Heard) (earlier : List Token) :
    (h.after earlier).pending = h.pending := rfl

@[simp]
theorem after_all (h : Heard) (earlier : List Token) :
    (h.after earlier).all = earlier ++ h.all :=
  List.append_assoc ..

end Heard

/-- What a long option says without its dashes. -/
def hearLong (side : Side) (text : List Char) : Heard :=
  match side.long? (String.ofList (text.takeWhile (· ≠ '='))), text.dropWhile (· ≠ '=') with
  | none, _ => ⟨[.bad], none⟩
  | some flag, [] =>
    if flag.HasValue then ⟨[], some (flag, none)⟩ else ⟨[.option flag none], none⟩
  | some flag, _ :: value =>
    if flag.HasValue then ⟨[.option flag (some (String.ofList value))], none⟩ else ⟨[.bad], none⟩

/-- The value behind a letter, with an equals sign or without. -/
def valueBehind : List Char → String
  | '=' :: value => String.ofList value
  | value => String.ofList value

/-- What short options say without their dash. -/
def hearShort (side : Side) : List Char → Heard
  | [] => ⟨[], none⟩
  | letter :: rest =>
    match side.short? letter with
    | none => ⟨[.bad], none⟩
    | some flag =>
      if flag.HasValue then
        if rest.isEmpty then ⟨[], some (flag, none)⟩
        else ⟨[.option flag (some (valueBehind rest))], none⟩
      else (hearShort side rest).after [.option flag none]

/-- What a word says behind an option. -/
def hear (side : Side) (pending : Pending) (word : String) : Heard :=
  match Word.of word with
  | .dashes => ⟨owed pending ++ [.bad], none⟩
  | .long text => (hearLong side text).after (owed pending)
  | .short text => (hearShort side text).after (owed pending)
  | .plain =>
    match pending with
    | some (flag, none) => ⟨[], some (flag, some word)⟩
    | _ => ⟨owed pending ++ [.bad], none⟩

/-- What words say behind an option. -/
def scan (side : Side) (pending : Pending) : List String → Heard
  | [] => ⟨[], pending⟩
  | word :: rest =>
    if word = "--" then ⟨owed pending ++ [if rest.isEmpty then .dashes else .bad], none⟩
    else (scan side (hear side pending word).pending rest).after (hear side pending word).tokens

/-- All that the words of a side say. -/
def tokens (side : Side) (words : List String) : List Token :=
  (scan side none words).all

/-! ## §2 Options that are told -/

namespace Options

/-- Options with one thing more that is said. -/
def take (o : Options) : Token → Except Stop Options
  | .option flag (some value) => Level.put o flag value
  | .option flag none => (Level.raise ⟨o, none⟩ flag).map Level.options
  | .dashes => .ok o
  | .bad => .error .misused

/-- Options with all that is said. -/
def takeAll (o : Options) (tokens : List Token) : Except Stop Options :=
  tokens.foldlM take o

/-- The level of options that were told what was heard. -/
def hearing (o : Options) (h : Heard) : Except Stop Level :=
  (o.takeAll h.tokens).map fun o => ⟨o, h.pending⟩

theorem takeAll_cons (t : Token) (ts : List Token) :
    o.takeAll (t :: ts) = o.take t >>= fun o => o.takeAll ts :=
  List.foldlM_cons

theorem takeAll_append (ts us : List Token) :
    o.takeAll (ts ++ us) = o.takeAll ts >>= fun o => o.takeAll us :=
  List.foldlM_append

theorem takeAll_singleton (t : Token) : o.takeAll [t] = o.take t := by
  rw [takeAll_cons]
  cases o.take t <;> rfl

/-- What was said before is taken first. -/
theorem hearing_after (h : Heard) (earlier : List Token) :
    o.hearing (h.after earlier) = o.takeAll earlier >>= fun o => o.hearing h := by
  rw [hearing, Heard.after_tokens, takeAll_append, bind_map]
  rfl

end Options

namespace Level

/-- A value that is not accepted is a misuse. -/
theorem put_eq_error {flag : Flag} {value : String} (h : put o flag value = .error stop) :
    stop = .misused := by
  unfold put at h
  split at h
  · split at h <;> simp_all
  · split at h <;> simp_all
  · split at h <;> simp_all
  · simp_all

/-- Settling the option that came last is taking what it says. -/
theorem settled_eq_takeAll (level : Level) :
    level.settled = level.options.takeAll (owed level.pending) := by
  obtain ⟨o, _ | ⟨flag, _ | value⟩⟩ := level
  · rfl
  · rfl
  · exact (Options.takeAll_singleton (.option flag (some value))).symm

/-- An option that cannot be settled is a misuse. -/
theorem settled_eq_error (h : level.settled = .error stop) : stop = .misused := by
  obtain ⟨o, _ | ⟨flag, _ | value⟩⟩ := level
  · cases h
  -- its value is missing
  · exact (Except.error.inj h).symm
  · exact put_eq_error h

/-- The two options without value that do not end the reading. -/
theorem raise_noColor : raise ⟨o, none⟩ .noColor =
    if o.noColor then .error .misused else .ok ⟨{ o with noColor := true }, none⟩ := rfl

theorem raise_verbose : raise ⟨o, none⟩ .verbose =
    if o.verbose then .error .misused else .ok ⟨{ o with verbose := true }, none⟩ := rfl

/-- An option without value says so and leaves nothing open. -/
theorem raise_eq_take (flag : Flag) :
    raise ⟨o, none⟩ flag = (o.take (.option flag none)).map fun o => ⟨o, none⟩ := by
  rw [Options.take]
  cases flag with
  -- of the options without value two may come once only, and two end the reading
  | noColor =>
    rw [raise_noColor]
    split <;> rfl
  | verbose =>
    rw [raise_verbose]
    split <;> rfl
  | format | config | input | version | help => rfl

/-- An option without value is heard, and nothing is pending. -/
theorem raise_eq_hearing (flag : Flag) :
    raise ⟨o, none⟩ flag = o.hearing ⟨[.option flag none], none⟩ := by
  rw [Options.hearing, Options.takeAll_singleton]
  exact raise_eq_take flag

/-- An option with its value in the same word is heard, and nothing is pending. -/
theorem give_eq_hearing (flag : Flag) (value : String) :
    give ⟨o, none⟩ flag value = o.hearing ⟨[.option flag (some value)], none⟩ := by
  have hgive : give ⟨o, none⟩ flag value = (put o flag value).map fun o => ⟨o, none⟩ :=
    bind_return_eq_map ..
  rw [Options.hearing, Options.takeAll_singleton]
  exact hgive

/-- A long option is read as what it says. -/
theorem long_eq_hearing :
    long side ⟨o, none⟩ text = o.hearing (hearLong side text) := by
  rw [long, hearLong]
  cases side.long? (String.ofList (text.takeWhile (· ≠ '='))) with
  | none => rfl
  | some flag =>
    cases text.dropWhile (· ≠ '=') with
    -- no equals sign: the value follows, or there is none
    | nil =>
      dsimp only
      split
      · rfl
      · exact raise_eq_hearing flag
    -- an equals sign, and a value behind it
    | cons c value =>
      dsimp only
      split
      · exact give_eq_hearing flag _
      · rfl

/-- Letters are read as what they say. -/
theorem short_eq_hearing :
    short side ⟨o, none⟩ text = o.hearing (hearShort side text) := by
  -- on the letters; those with a value end the word
  induction text generalizing o with
  | nil => rfl
  | cons letter rest ih =>
    rw [short, hearShort]
    cases side.short? letter with
    | none => rfl
    | some flag =>
      dsimp only
      split
      -- a letter with a value: it follows, or stands behind an equals sign, or behind the letter
      · split
        · rfl
        · exact give_eq_hearing flag _
        · next hnil hequals =>
          -- neither empty nor behind an equals sign
          have hempty : rest.isEmpty = false := by simpa using hnil
          have hvalue : valueBehind rest = String.ofList rest := by
            rw [valueBehind]
            exact hequals
          rw [hempty, hvalue]
          exact give_eq_hearing flag _
      · -- the letters behind it are read with the option in force
        rw [Options.hearing_after, Options.takeAll_singleton, raise_eq_take]
        cases o.take (.option flag none) with
        | error stop => rfl
        | ok o' => exact ih

end Level

/-! ## §3 Words that are read -/

/-- A plain word is the value of an option that awaits it. -/
theorem hear_awaiting {flag : Flag} (h : Word.of w = .plain) :
    hear side (some (flag, none)) w = ⟨[], some (flag, some w)⟩ := by
  rw [hear, h]

/-- Any other word settles the option in front of it first. -/
theorem hear_eq_after {pending : Pending}
    (h : Word.of w = .plain → ∀ flag, pending ≠ some (flag, none)) :
    hear side pending w = (hear side none w).after (owed pending) := by
  unfold hear
  cases hw : Word.of w with
  | dashes | long text | short text => rfl
  | plain =>
    obtain _ | ⟨flag, _ | value⟩ := pending
    · rfl
    · exact absurd rfl (h hw flag)
    · rfl

namespace Level

theorem awaits_iff : level.Awaits = true ↔ ∃ flag, level.pending = some (flag, none) := by
  obtain ⟨o, _ | ⟨flag, _ | value⟩⟩ := level <;> simp [Awaits]

/-- Where nothing is awaited and nothing came before, a word is read as what it says. -/
theorem word_settled (side : Side) (w : String) :
    word side ⟨o, none⟩ w = o.hearing (hear side none w) := by
  unfold word hear
  cases hw : Word.of w with
  | dashes => rfl
  | long text => exact long_eq_hearing
  | short text => exact short_eq_hearing
  | plain => rfl

/-- A word that settles the option in front of it is refused where that one is. -/
theorem word_of_unsettled (h : level.settled = .error stop)
    (hw : Word.of w = .plain → level.Awaits = false) :
    level.word side w = .error .misused := by
  obtain rfl := settled_eq_error h
  rw [word]
  cases hof : Word.of w with
  | dashes => rfl
  | long text =>
    -- an option that is not known is refused before anything is settled, and alike
    dsimp only
    rw [long]
    split
    · rfl
    · split
      · rw [await, h]
        rfl
      · rw [raise, h]
        rfl
    · split
      · rw [give, h]
        rfl
      · rfl
  | short text =>
    cases text with
    | nil => exact absurd rfl (Word.short_ne_nil hof)
    | cons letter rest =>
      dsimp only
      rw [short]
      split
      · rfl
      -- every option first settles the one in front
      · simp only [await, give, raise, h]
        split
        · split <;> rfl
        · rfl
  | plain => rw [hw hof]; rfl

/-- A word is read as what it says. -/
theorem word_eq_hearing (side : Side) (level : Level) (w : String) :
    level.word side w = level.options.hearing (hear side level.pending w) := by
  by_cases hawaited : Word.of w = .plain ∧ level.Awaits = true
  · -- the word is a value
    obtain ⟨hplain, hawaits⟩ := hawaited
    obtain ⟨flag, hpending⟩ := awaits_iff.mp hawaits
    have hanswer : level.answer w = ⟨level.options, some (flag, some w)⟩ := by
      rw [answer, hpending]
      rfl
    rw [word, hplain, hpending, hear_awaiting hplain]
    simp only [hawaits, if_true]
    rw [hanswer]
    rfl
  -- otherwise the word settles what is in front of it, and is then read by itself
  · have hfree (hplain : Word.of w = .plain) : level.Awaits = false :=
      Bool.eq_false_iff.mpr fun hawaits => hawaited ⟨hplain, hawaits⟩
    have hafter : hear side level.pending w = (hear side none w).after (owed level.pending) := by
      refine hear_eq_after fun hplain flag hpending => ?_
      have hawaits : level.Awaits = true := awaits_iff.mpr ⟨flag, hpending⟩
      exact absurd hawaits (Bool.eq_false_iff.mp (hfree hplain))
    rw [hafter, Options.hearing_after, ← settled_eq_takeAll]
    cases hsettled : level.settled with
    | error stop =>
      obtain rfl := settled_eq_error hsettled
      rw [word_of_unsettled hsettled hfree]
      rfl
    | ok o =>
      rw [word_of_settled hsettled, word_settled]
      rfl

end Level

theorem scan_dashes {pending : Pending} : scan side pending ("--" :: words) =
    ⟨owed pending ++ [if words.isEmpty then .dashes else .bad], none⟩ := by
  rw [scan, if_pos rfl]

theorem scan_cons {pending : Pending} (hw : w ≠ "--") : scan side pending (w :: words) =
    (scan side (hear side pending w).pending words).after (hear side pending w).tokens := by
  rw [scan, if_neg hw]

/-- Reading the words behind a subcommand is taking what they say. -/
theorem readBehind_eq_takeAll (s : Subcommand) (level : Level) (words : List String) :
    readBehind s level words =
      level.options.takeAll (scan (some s) level.pending words).all := by
  induction words generalizing level with
  | nil => exact level.settled_eq_takeAll
  | cons w words ih =>
    by_cases hw : w = "--"
    · subst hw
      -- behind two dashes nothing is pending, and what stands there is plain
      rw [readBehind_dashes, scan_dashes, Heard.all, owed, List.append_nil,
        Options.takeAll_append, ← level.settled_eq_takeAll]
      cases hsettled : level.settled with
      | error stop =>
        obtain rfl := Level.settled_eq_error hsettled
        split <;> rfl
      | ok o => split <;> rfl
    -- the word is heard, and the others behind what it leaves pending
    · rw [readBehind_cons hw, scan_cons hw, Heard.after_all, Options.takeAll_append,
        level.word_eq_hearing, Options.hearing, map_bind]
      exact bind_congr_ok fun o _ => ih ⟨o, _⟩

/-- Only options are said. -/
def OptionsOnly (tokens : List Token) : Prop :=
  ∀ t ∈ tokens, t.flag?.isSome

theorem OptionsOnly.append {ts us : List Token} :
    OptionsOnly (ts ++ us) ↔ OptionsOnly ts ∧ OptionsOnly us :=
  List.forall_mem_append

/-- A word that cannot be understood says no option. -/
theorem frees_of_hear (h : level.Frees w) (side : Side) :
    .bad ∈ (hear side level.pending w).tokens := by
  obtain ⟨hplain, hfree⟩ := h
  have hpending (flag : Flag) : level.pending ≠ some (flag, none) := fun hpending =>
    Bool.eq_false_iff.mp hfree (Level.awaits_iff.mpr ⟨flag, hpending⟩)
  have hbad : hear side none w = ⟨[.bad], none⟩ := by
    unfold hear
    rw [hplain]
    rfl
  rw [hear_eq_after fun _ => hpending, hbad]
  exact List.mem_append_right _ (List.mem_singleton_self _)

/-- Words that say options only hold no two dashes. -/
theorem noDashes_of_optionsOnly {pending : Pending}
    (h : OptionsOnly (scan side pending words).all) : "--" ∉ words := by
  induction words generalizing pending with
  | nil => exact List.not_mem_nil
  | cons w words ih =>
    -- two dashes say something that is no option, wherever they stand
    have hw : w ≠ "--" := by
      rintro rfl
      rw [scan_dashes, Heard.all, owed, List.append_nil] at h
      have hlast := (OptionsOnly.append.mp h).2 _ (List.mem_singleton_self _)
      split at hlast <;> cases hlast
    rw [scan_cons hw, Heard.after_all, OptionsOnly.append] at h
    exact noDashes_cons.mpr ⟨hw, ih h.2⟩

/-- Reading options before a subcommand is taking what they say. -/
theorem readBefore_append_of_scan (rest : List String)
    (h : OptionsOnly (scan none level.pending words).all) :
    readBefore level tree (words ++ rest) =
      level.options.hearing (scan none level.pending words) >>= fun next =>
        readBefore next tree rest := by
  induction words generalizing level with
  | nil => rfl
  | cons w words ih =>
    obtain ⟨hw, -⟩ := noDashes_cons.mp (noDashes_of_optionsOnly h)
    rw [scan_cons hw, Heard.after_all, OptionsOnly.append] at h
    -- a word that cannot be understood would say no option
    have hf : ¬level.Frees w := fun hf => by
      simpa [Token.flag?] using h.1 .bad (frees_of_hear hf none)
    -- so the word belongs to the options in front of the tree and the subcommand
    rw [List.cons_append, readBefore_cons hw hf, level.word_eq_hearing, Options.hearing, map_bind,
      scan_cons hw, Options.hearing_after, bind_assoc]
    exact bind_congr_ok fun o _ => @ih ⟨o, _⟩ h.2

/-- Words are heard one behind the other. -/
theorem scan_append {pending : Pending} (h : "--" ∉ words) :
    scan side pending (words ++ rest) =
      (scan side (scan side pending words).pending rest).after
        (scan side pending words).tokens := by
  induction words generalizing pending with
  | nil => rfl
  | cons w words ih =>
    obtain ⟨hw, hwords⟩ := noDashes_cons.mp h
    rw [List.cons_append, scan_cons hw, scan_cons hw, ih hwords]
    simp [Heard.after]

/-! ## §4 Values in words of their own -/

/-- An option that a word ends in has no value yet. -/
theorem pending_hearLong (side : Side) (text : List Char) (flag : Flag) (value : String) :
    (hearLong side text).pending ≠ some (flag, some value) := by
  unfold hearLong
  split
  · exact nofun
  · split <;> exact nofun
  · split <;> exact nofun

/-- A word of letters ends without a value. -/
theorem pending_hearShort (side : Side) (text : List Char) (flag : Flag) (value : String) :
    (hearShort side text).pending ≠ some (flag, some value) := by
  induction text with
  | nil => exact nofun
  | cons letter rest ih =>
    rw [hearShort]
    split
    · exact nofun
    · split
      · split <;> exact nofun
      · exact ih

/-- A value that is pending is the word itself. -/
theorem pending_hear {pending : Pending} {flag : Flag} {value : String}
    (h : (hear side pending w).pending = some (flag, some value)) : value = w := by
  unfold hear at h
  split at h
  · cases h
  · exact absurd h (pending_hearLong side _ flag value)
  · exact absurd h (pending_hearShort side _ flag value)
  -- only a plain word is ever left pending as a value
  · split at h
    · cases h
      rfl
    · cases h

/-- A value that may still be refused is the last word. -/
theorem getLast?_of_pending {pending : Pending} {flag : Flag} {value : String}
    (hne : words ≠ []) (h : (scan side pending words).pending = some (flag, some value)) :
    words.getLast? = some value := by
  induction words generalizing pending with
  | nil => exact absurd rfl hne
  | cons w words ih =>
    by_cases hw : w = "--"
    · subst hw
      rw [scan_dashes] at h
      cases h
    · rw [scan_cons hw, Heard.after_pending] at h
      cases words with
      | nil =>
        -- the word is the last one, and so the value
        obtain rfl : value = w := pending_hear h
        rfl
      | cons w' words =>
        rw [List.getLast?_cons_cons]
        exact ih (List.cons_ne_nil w' words) h

/-! ## §5 The options of a side -/

theorem flagsOf_append (ts us : List Token) : flagsOf (ts ++ us) = flagsOf ts ++ flagsOf us :=
  List.filterMap_append

/-- What was heard is about options of a side. -/
structure Heard.On (h : Heard) (side : Side) : Prop where
  tokens : ∀ flag ∈ flagsOf h.tokens, flag ∈ side.flags
  pending : ∀ p ∈ h.pending, p.1 ∈ side.flags

/-- An option that came last and may miss its value. -/
theorem on_awaiting {flag : Flag} {value : Option String} (h : flag ∈ side.flags) :
    Heard.On ⟨[], some (flag, value)⟩ side := by
  refine ⟨fun _ hsaid => absurd hsaid List.not_mem_nil, fun p hp => ?_⟩
  obtain rfl := Option.some.inj hp
  exact h

/-- An option of the side is heard. -/
theorem on_option {flag : Flag} {value : Option String} (h : flag ∈ side.flags) :
    Heard.On ⟨[.option flag value], none⟩ side := by
  refine ⟨fun f hf => ?_, fun p hp => absurd hp (Option.not_mem_none p)⟩
  obtain rfl := List.mem_singleton.mp hf
  exact h

theorem on_nothing : Heard.On ⟨[], none⟩ side := by
  refine ⟨fun _ hsaid => ?_, fun p hp => ?_⟩
  · exact absurd hsaid List.not_mem_nil
  · exact absurd hp (Option.not_mem_none p)

theorem on_bad : Heard.On ⟨[.bad], none⟩ side :=
  ⟨on_nothing.tokens, on_nothing.pending⟩

/-- What was heard before is about options of the side as well. -/
theorem Heard.On.after {h : Heard} {ts : List Token} (hon : h.On side)
    (hts : ∀ flag ∈ flagsOf ts, flag ∈ side.flags) : (h.after ts).On side := by
  refine ⟨fun flag hflag => ?_, hon.pending⟩
  rw [Heard.after_tokens, flagsOf_append] at hflag
  exact (List.mem_append.mp hflag).elim (hts flag) (hon.tokens flag)

/-- A long option is one of the side, or cannot be understood. -/
theorem on_hearLong (side : Side) (text : List Char) : (hearLong side text).On side := by
  unfold hearLong
  split
  · exact on_bad
  · next flag hflag hvalue =>
    have hmem : flag ∈ side.flags := List.mem_of_find?_eq_some hflag
    split
    · exact on_awaiting hmem
    · exact on_option hmem
  · next flag c value hflag hvalue =>
    split
    · exact on_option (List.mem_of_find?_eq_some hflag)
    · exact on_bad

/-- Letters say options of the side. -/
theorem on_hearShort (side : Side) (text : List Char) : (hearShort side text).On side := by
  induction text with
  | nil => exact on_nothing
  | cons letter rest ih =>
    rw [hearShort]
    split
    · exact on_bad
    · next flag hflag =>
      have hmem : flag ∈ side.flags := List.mem_of_find?_eq_some hflag
      split
      · split
        · exact on_awaiting hmem
        · exact on_option hmem
      -- the letter has no value, and the others are heard behind it
      · refine ih.after fun f hf => ?_
        obtain rfl := List.mem_singleton.mp hf
        exact hmem

/-- What is owed is about the option that is pending. -/
theorem flags_of_owed {pending : Pending} (h : ∀ p ∈ pending, p.1 ∈ side.flags) :
    ∀ flag ∈ flagsOf (owed pending), flag ∈ side.flags := by
  intro flag hflag
  obtain _ | ⟨f, _ | value⟩ := pending
  · cases hflag
  · cases hflag
  · obtain rfl := List.mem_singleton.mp hflag
    exact h _ rfl

/-- A word says options of the side. -/
theorem on_hear {pending : Pending} (h : ∀ p ∈ pending, p.1 ∈ side.flags) (w : String) :
    (hear side pending w).On side := by
  -- the word is the value of a pending option, or settles it
  by_cases hvalue : Word.of w = .plain ∧ ∃ flag, pending = some (flag, none)
  · obtain ⟨hplain, flag, rfl⟩ := hvalue
    rw [hear_awaiting hplain]
    exact on_awaiting (h _ rfl)
  · rw [hear_eq_after fun hplain flag hpending => hvalue ⟨hplain, flag, hpending⟩]
    refine Heard.On.after ?_ (flags_of_owed h)
    unfold hear
    cases Word.of w with
    | long text => exact on_hearLong side text
    | short text => exact on_hearShort side text
    | dashes | plain => exact on_bad

/-- Words say only options of their side. -/
theorem flags_of_scan {pending : Pending} (h : ∀ p ∈ pending, p.1 ∈ side.flags)
    (words : List String) : ∀ flag ∈ flagsOf (scan side pending words).all, flag ∈ side.flags := by
  induction words generalizing pending with
  | nil => exact flags_of_owed h
  | cons w words ih =>
    intro flag hflag
    by_cases hw : w = "--"
    · subst hw
      -- two dashes say no option
      have hlast : flagsOf [if words.isEmpty then Token.dashes else .bad] = [] := by
        split <;> rfl
      rw [scan_dashes, Heard.all, owed, List.append_nil, flagsOf_append, hlast,
        List.append_nil] at hflag
      exact flags_of_owed h flag hflag
    -- an option of the first word, or of the others behind it
    · have hheard := on_hear h w
      rw [scan_cons hw, Heard.after_all, flagsOf_append] at hflag
      rcases List.mem_append.mp hflag with hflag | hflag
      · exact hheard.tokens flag hflag
      · exact ih hheard.pending flag hflag

/-- Words say only options of their side, where nothing came before. -/
theorem flags_of_tokens (side : Side) (words : List String) :
    ∀ flag ∈ flagsOf (tokens side words), flag ∈ side.flags :=
  flags_of_scan on_nothing.pending words

end CanonicalQuery.CommandLine
