import CanonicalQuery.Proofs.CommandLine.Told
import CanonicalQuery.Proofs.CommandLine.Routes

/-!
# Global options

Some options set something wherever they stand, before a subcommand or behind it.  Words that say
such options alone say the same on every side, and they leave nothing open, so whatever follows them
says what it would say without them.  They are refused only as a misuse.

## Main definitions

- `Flag.globals`: the options that may stand on every side and set something.
- `AllGlobal`: words that say nothing but complete global options.

## Main statements

- `tokens_append`: global options and what stands behind them, on any side.
- `readBefore_globals`: a line with global options in front of a subcommand.
- `readBefore_globals_eq_ok`, `readBefore_globals_stop`, `readBefore_globals_misused`: the three
  ways in which it is read.
-/

namespace CanonicalQuery.CommandLine

variable {o o' : Options} {words rest : List String} {ts us : List Token} {pending : Pending}
variable {s : Subcommand} {side : Side} {w : String} {flag : Flag} {stop : Stop}

/-! ## §1 Global options -/

/-- The options that may stand on every side, apart from the request for help, which sets
nothing. -/
def Flag.globals : List Flag :=
  [.format, .config, .noColor, .verbose]

/-- A token says a global option. -/
def Token.IsGlobal (t : Token) : Prop :=
  ∃ flag ∈ Flag.globals, t.flag? = some flag

instance : DecidablePred Token.IsGlobal := fun t =>
  inferInstanceAs (Decidable (∃ flag ∈ Flag.globals, t.flag? = some flag))

/-- Words that say global options, each of them with its value, and nothing else. -/
def AllGlobal (words : List String) : Prop :=
  ∀ t ∈ tokens none words, t.IsGlobal

instance : DecidablePred AllGlobal := fun words =>
  inferInstanceAs (Decidable (∀ t ∈ tokens none words, t.IsGlobal))

/-- Global options may be joined and may have their values in words of their own, and two dashes are
no value. -/
example : AllGlobal ["-vfjson", "--config", "-", "--no-color"] ∧ ¬AllGlobal ["-c", "--"] := by
  decide

theorem allGlobal_nil : AllGlobal [] :=
  List.forall_mem_nil _

theorem optionsOnly_of_global (h : ∀ t ∈ ts, t.IsGlobal) : OptionsOnly ts := by
  intro t ht
  obtain ⟨flag, -, hflag⟩ := h t ht
  rw [hflag]
  rfl

theorem AllGlobal.optionsOnly (h : AllGlobal words) : OptionsOnly (tokens none words) :=
  optionsOnly_of_global h

theorem AllGlobal.noDashes (h : AllGlobal words) : "--" ∉ words :=
  noDashes_of_optionsOnly h.optionsOnly

/-- Tokens that are global say global options only. -/
theorem mem_globals_of_mem_flagsOf (h : ∀ t ∈ ts, t.IsGlobal) (hflag : flag ∈ flagsOf ts) :
    flag ∈ Flag.globals := by
  obtain ⟨t, ht, hsaid⟩ := List.mem_filterMap.mp hflag
  obtain ⟨g, hg, hglobal⟩ := h t ht
  obtain rfl : flag = g := Option.some.inj (hsaid.symm.trans hglobal)
  exact hg

/-! ## §2 Global options on other sides -/

/-- Every side knows the global options by their names. -/
theorem Side.long?_of_global (side : Side) (h : flag ∈ Flag.globals) :
    side.long? flag.long = some flag := by
  revert h
  rcases side with _ | _ | _ | _ <;> cases flag <;> decide

/-- Every side knows the global options by their letters. -/
theorem Side.short?_of_global (side : Side) {letter : Char} (h : flag ∈ Flag.globals)
    (hletter : flag.short? = some letter) : side.short? letter = some flag := by
  revert h
  cases flag <;> cases hletter <;> rcases side with _ | _ | _ | _ <;> decide

/-- What was heard is about global options. -/
structure Heard.IsGlobal (h : Heard) : Prop where
  tokens : ∀ t ∈ h.tokens, t.IsGlobal
  pending : ∀ p ∈ h.pending, p.1 ∈ Flag.globals

theorem Heard.IsGlobal.of_after {h : Heard} (hglobal : (h.after ts).IsGlobal) : h.IsGlobal where
  tokens t ht := hglobal.tokens t (List.mem_append_right _ ht)
  pending := hglobal.pending

theorem not_isGlobal_bad : ¬Token.IsGlobal .bad := by
  rintro ⟨flag, -, hflag⟩
  cases hflag

/-- A global option is known by its name on every side. -/
theorem hearLong_of_global {text : List Char} (h : (hearLong none text).IsGlobal) :
    hearLong side text = hearLong none text := by
  -- a name that is not known could not be understood
  have hknown : ∃ flag ∈ Flag.globals,
      Side.long? none (String.ofList (text.takeWhile (· ≠ '='))) = some flag := by
    unfold hearLong at h
    split at h
    · exact absurd (h.tokens .bad (List.mem_singleton_self _)) not_isGlobal_bad
    · next flag hflag hvalue =>
      refine ⟨flag, ?_, hflag⟩
      split at h
      · exact h.pending _ rfl
      · exact mem_globals_of_mem_flagsOf h.tokens (List.mem_singleton_self _)
    · next flag c value hflag hvalue =>
      refine ⟨flag, ?_, hflag⟩
      split at h
      · exact mem_globals_of_mem_flagsOf h.tokens (List.mem_singleton_self _)
      · exact absurd (h.tokens .bad (List.mem_singleton_self _)) not_isGlobal_bad
  obtain ⟨flag, hglobal, hflag⟩ := hknown
  -- names tell options apart, and every side has this one
  have hname : flag.long = String.ofList (text.takeWhile (· ≠ '=')) := by
    simpa using List.find?_some hflag
  have hside : side.long? (String.ofList (text.takeWhile (· ≠ '='))) = some flag := by
    rw [← hname]
    exact side.long?_of_global hglobal
  rw [hearLong, hearLong, hflag, hside]

/-- Global options are known by their letters on every side. -/
theorem hearShort_of_global {text : List Char} (h : (hearShort none text).IsGlobal) :
    hearShort side text = hearShort none text := by
  induction text with
  | nil => rfl
  | cons letter rest ih =>
    rw [hearShort] at h ⊢
    cases hflag : Side.short? none letter with
    | none =>
      rw [hflag] at h
      exact absurd (h.tokens .bad (List.mem_singleton_self _)) not_isGlobal_bad
    | some flag =>
      rw [hflag] at h
      dsimp only at h
      have hglobal : flag ∈ Flag.globals := by
        -- the option is pending, or it is the first thing that is said
        split at h
        · split at h
          · exact h.pending _ rfl
          · exact mem_globals_of_mem_flagsOf h.tokens (List.mem_singleton_self _)
        · exact mem_globals_of_mem_flagsOf h.tokens (List.mem_cons_self ..)
      have hletter : flag.short? = some letter := by simpa using List.find?_some hflag
      rw [side.short?_of_global hglobal hletter, hearShort, hflag]
      dsimp only
      split
      · rfl
      · next hvalue =>
        rw [if_neg hvalue] at h
        rw [ih h.of_after]

/-- A word that says global options says the same on every side. -/
theorem hear_of_global (h : (hear none pending w).IsGlobal) :
    hear side pending w = hear none pending w := by
  unfold hear at h ⊢
  cases hw : Word.of w with
  | dashes => rfl
  | plain => rfl
  -- what was pending is owed first, whatever the side
  | long text =>
    rw [hw] at h
    dsimp only
    rw [hearLong_of_global h.of_after]
  | short text =>
    rw [hw] at h
    dsimp only
    rw [hearShort_of_global h.of_after]

/-- An option that came last says so, unless it misses its value. -/
theorem mem_globals_of_owed {value : Option String}
    (h : ∀ t ∈ owed (some (flag, value)), t.IsGlobal) : flag ∈ Flag.globals := by
  cases value with
  | none => exact absurd (h .bad (List.mem_singleton_self _)) not_isGlobal_bad
  | some value => exact mem_globals_of_mem_flagsOf h (List.mem_singleton_self _)

/-- It does so too when more words follow. -/
theorem mem_globals_of_scan {value : Option String}
    (h : ∀ t ∈ (scan side (some (flag, value)) words).all, t.IsGlobal) : flag ∈ Flag.globals := by
  induction words generalizing value with
  | nil => exact mem_globals_of_owed h
  | cons w words ih =>
    by_cases hw : w = "--"
    · subst hw
      rw [scan_dashes, Heard.all, owed, List.append_nil] at h
      exact mem_globals_of_owed fun t ht => h t (List.mem_append_left _ ht)
    · rw [scan_cons hw, Heard.after_all] at h
      by_cases hvalue : Word.of w = .plain ∧ value = none
      · -- the word is the value
        obtain ⟨hplain, rfl⟩ := hvalue
        rw [hear_awaiting hplain] at h
        exact ih h
      -- the word settles the option, which then says itself
      · have hsettles (hplain : Word.of w = .plain) (f : Flag) :
            (some (flag, value) : Pending) ≠ some (f, none) := by
          rintro ⟨⟩
          exact hvalue ⟨hplain, rfl⟩
        rw [hear_eq_after hsettles] at h
        have howed (t : Token) (ht : t ∈ owed (some (flag, value))) : t.IsGlobal :=
          h t (List.mem_append_left _ (List.mem_append_left _ ht))
        exact mem_globals_of_owed howed

/-- Global options say the same on every side. -/
theorem scan_of_global (side : Side) (h : ∀ t ∈ (scan none pending words).all, t.IsGlobal) :
    scan side pending words = scan none pending words := by
  induction words generalizing pending with
  | nil => rfl
  | cons w words ih =>
    have hw : w ≠ "--" :=
      (noDashes_cons.mp (noDashes_of_optionsOnly (optionsOnly_of_global h))).1
    rw [scan_cons hw, Heard.after_all] at h
    obtain ⟨hhead, htail⟩ := List.forall_mem_append.mp h
    have hheard : (hear none pending w).IsGlobal := by
      refine ⟨hhead, fun p hp => ?_⟩
      -- what is pending behind the word is said by the words that follow
      rw [Option.mem_def.mp hp] at htail
      exact mem_globals_of_scan htail
    rw [scan_cons hw, scan_cons hw, hear_of_global hheard, ih htail]

/-! ## §3 What follows global options -/

/-- Words behind an option that misses no value say it and then what they say alone. -/
theorem scan_settled (h : ∀ flag, pending ≠ some (flag, none)) (hrest : rest ≠ []) :
    scan side pending rest = (scan side none rest).after (owed pending) := by
  obtain ⟨w, words, rfl⟩ := List.exists_cons_of_ne_nil hrest
  -- two dashes settle the option too
  by_cases hw : w = "--"
  · subst hw
    rw [scan_dashes, scan_dashes]
    rfl
  · rw [scan_cons hw, scan_cons hw, hear_eq_after fun _ => h]
    simp [Heard.after]

/-- What is pending is said, and then what stands behind it. -/
theorem all_scan_settled (h : ∀ flag, pending ≠ some (flag, none)) :
    (scan side pending rest).all = owed pending ++ tokens side rest := by
  by_cases hrest : rest = []
  · subst hrest
    rw [tokens, scan, scan, Heard.all, Heard.all, owed]
    simp
  · rw [scan_settled h hrest, Heard.after_all, tokens]

/-- Global options leave nothing open. -/
theorem AllGlobal.settled (h : AllGlobal words) (flag : Flag) :
    (scan none none words).pending ≠ some (flag, none) := by
  intro hpending
  -- a value that is missing is something that cannot be understood
  have hbad : Token.bad ∈ tokens none words := by
    rw [tokens, Heard.all, hpending]
    exact List.mem_append_right _ (List.mem_singleton_self _)
  exact not_isGlobal_bad (h .bad hbad)

/-- Global options and what stands behind them, on any side. -/
theorem tokens_append (h : AllGlobal words) (side : Side) (rest : List String) :
    tokens side (words ++ rest) = tokens none words ++ tokens side rest := by
  rw [tokens, scan_append h.noDashes, Heard.after_all, scan_of_global side h,
    all_scan_settled h.settled, ← List.append_assoc]
  rfl

/-- Words behind global options settle the last of these. -/
theorem scan_append_of_global (h : AllGlobal words) (hrest : rest ≠ []) :
    scan none none (words ++ rest) = (scan none none rest).after (tokens none words) := by
  rw [scan_append h.noDashes, scan_settled h.settled hrest, tokens, Heard.all]
  simp [Heard.after]

/-- Global options side by side are global options. -/
theorem AllGlobal.append (h : AllGlobal words) (hrest : AllGlobal rest) :
    AllGlobal (words ++ rest) := by
  intro t ht
  rw [tokens_append h none rest] at ht
  rcases List.mem_append.mp ht with ht | ht
  · exact h t ht
  · exact hrest t ht

/-- Global options are refused as a misuse. -/
theorem takeAll_eq_error_of_global (h : ∀ t ∈ ts, t.IsGlobal)
    (herror : o.takeAll ts = .error stop) : stop = .misused := by
  rcases Options.takeAll_eq_error herror with hstop | ⟨-, hsaid⟩ | ⟨-, hsaid⟩
  · exact hstop
  -- neither the version nor help is a global option
  · exact absurd (mem_globals_of_mem_flagsOf h hsaid) (by decide)
  · exact absurd (mem_globals_of_mem_flagsOf h hsaid) (by decide)

/-- No subcommand tells the version. -/
theorem takeAll_behind_eq_error (herror : o.takeAll (tokens (some s) words) = .error stop) :
    stop = .misused ∨ stop = .help .program := by
  rcases Options.takeAll_eq_error herror with hstop | ⟨-, hsaid⟩ | ⟨hstop, -⟩
  · exact .inl hstop
  -- a subcommand does not have this option
  · have hside : Flag.version ∉ Side.flags (some s) := by cases s <;> decide
    exact absurd (flags_of_tokens (some s) words _ hsaid) hside
  · exact .inr hstop

/-! ## §4 Lines with a subcommand -/

/-- How a line with global options in front of a subcommand is read.  All words are heard before the
last of these options is settled. -/
theorem readBefore_globals (h : AllGlobal words) (s : Subcommand) (rest : List String) :
    readBefore {} none (words ++ s.name :: rest) = do
      let o ← Options.takeAll {} (scan none none words).tokens
      let behind ← (Options.takeAll {} (tokens (some s) rest)).mapError (Stop.behind s)
      let before ← o.takeAll (owed (scan none none words).pending)
      return ⟨before, none, some (s, behind)⟩ := by
  have hglobals : readBefore {} none (words ++ s.name :: rest) =
      Options.hearing {} (scan none none words) >>= fun next =>
        readBefore next none (s.name :: rest) :=
    readBefore_append_of_scan (s.name :: rest) h.optionsOnly
  rw [hglobals, Options.hearing, map_bind]
  refine bind_congr_ok fun o _ => ?_
  -- the subcommand is a free word, since no option misses its value
  have hfree : Level.Frees ⟨o, (scan none none words).pending⟩ s.name := by
    refine ⟨s.word_name, Bool.eq_false_iff.mpr fun hawaits => ?_⟩
    obtain ⟨flag, hpending⟩ := Level.awaits_iff.mp hawaits
    exact h.settled flag hpending
  rw [readBefore_cons_free hfree, s.ofName?_name]
  dsimp only
  rw [readBehind_eq_takeAll, Level.settled_eq_takeAll]
  rfl

theorem tokens_eq_append (side : Side) (words : List String) :
    tokens side words = (scan side none words).tokens ++ owed (scan side none words).pending :=
  rfl

/-- A line is accepted if the options on both sides are. -/
theorem readBefore_globals_eq_ok {p : Parts} (h : AllGlobal words) :
    readBefore {} none (words ++ s.name :: rest) = .ok p ↔
      ∃ o b, Options.takeAll {} (tokens none words) = .ok o ∧
        Options.takeAll {} (tokens (some s) rest) = .ok b ∧ p = ⟨o, none, some (s, b)⟩ := by
  rw [readBefore_globals h, tokens_eq_append none, Options.takeAll_append]
  simp only [bind_eq_ok, pure_eq_ok, mapError_eq_ok]
  constructor
  · rintro ⟨early, hearly, b, hb, o, ho, rfl⟩
    exact ⟨o, b, ⟨early, hearly, ho⟩, hb, rfl⟩
  · rintro ⟨o, b, ⟨early, hearly, ho⟩, hb, rfl⟩
    exact ⟨early, hearly, b, hb, o, ho, rfl⟩

/-- What is refused behind the subcommand counts if nothing was refused before it, the last option
left aside. -/
theorem readBefore_globals_stop (h : AllGlobal words)
    (hsure : Consistent (scan none none words).tokens)
    (hstop : Options.takeAll {} (tokens (some s) rest) = .error stop) :
    readBefore {} none (words ++ s.name :: rest) = .error (stop.behind s) := by
  obtain ⟨o, ho⟩ := hsure
  rw [readBefore_globals h, ho, hstop]
  rfl

/-- Everything else that is refused is a misuse. -/
theorem readBefore_globals_misused (h : AllGlobal words)
    (hrefused : ¬Consistent (scan none none words).tokens ∨
      Options.takeAll {} (tokens (some s) rest) = .error .misused ∨
      Consistent (tokens (some s) rest) ∧ ¬Consistent (tokens none words)) :
    readBefore {} none (words ++ s.name :: rest) = .error .misused := by
  rw [readBefore_globals h]
  cases hsure : Options.takeAll {} (scan none none words).tokens with
  | error stop =>
    have hglobal (t : Token) (ht : t ∈ (scan none none words).tokens) : t.IsGlobal :=
      h t (List.mem_append_left _ ht)
    -- the options in front are refused before the subcommand is reached
    obtain rfl := takeAll_eq_error_of_global hglobal hsure
    rfl
  | ok o =>
    rcases hrefused with hno | hmisused | ⟨⟨b, hb⟩, hno⟩
    · exact absurd ⟨o, hsure⟩ hno
    · rw [hmisused]
      rfl
    · -- the last option in front of the subcommand is refused
      have hall : Options.takeAll {} (tokens none words) =
          o.takeAll (owed (scan none none words).pending) := by
        rw [tokens_eq_append, Options.takeAll_append, hsure]
        rfl
      cases hlast : o.takeAll (owed (scan none none words).pending) with
      | ok o' => exact absurd ⟨o', hall.trans hlast⟩ hno
      | error stop =>
        obtain rfl := takeAll_eq_error_of_global h (hall.trans hlast)
        rw [hb]
        change (o.takeAll (owed (scan none none words).pending) >>= fun _ => _) = _
        rw [hlast]
        rfl

end CanonicalQuery.CommandLine
