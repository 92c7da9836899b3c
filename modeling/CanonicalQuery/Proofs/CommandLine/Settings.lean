import CanonicalQuery.Proofs.CommandLine.Routes

/-!
# Settings on a command line

A format, a configuration file and the absence of color are settings: they hold on either side of a
subcommand and leave what is to be done as it is.  A setting may be added at the end of a line
whose last side does not have it yet, and then it wins over what was said before and over the
environment.

The option against color is one word that has no other spelling and no value.  So it is in force
exactly if this word stands among the options, and it may be added in front of any line that does
not have it.

## Main definitions

- `Setting`: an option that sets something, with its value.
- `Options.withNoColor`, `Level.withNoColor`, `Parts.withNoColor`: the option against color, as a
  value that can be set.
- `SaysNoColor`: the option against color stands among the options.

## Main statements

- `ofWords_append_setting`: a setting at the end of a line.
- `readBefore_withNoColor`: a line without this option is read alike with it in force.
- `ofWords_noColor_iff`: the option is in force exactly if it is said.
-/

namespace CanonicalQuery.CommandLine

variable {level next : Level} {o : Options} {tree : Option String} {words : List String}
variable {s : Subcommand} {side : Side} {w : String} {p : Parts} {i : Invocation}

/-! ## §1 Settings -/

/-- An option that sets something on either side of a subcommand. -/
inductive Setting where
  | format (f : OutputFormat)
  | config (path : String)
  | noColor
  deriving DecidableEq, Repr, Inhabited

namespace Setting

/-- A setting as one word. -/
def word : Setting → String
  | format f => "--format=" ++ f.name
  | config path => "--config=" ++ path
  | noColor => "--no-color"

/-- Options with a setting. -/
def add (o : Options) : Setting → Options
  | format f => { o with format := some f }
  | config path => { o with config := some path }
  | noColor => { o with noColor := true }

/-- An invocation with a setting. -/
def apply (i : Invocation) : Setting → Invocation
  | format f => { i with format := some f }
  | config path => { i with config := some path }
  | noColor => { i with noColor := true }

/-- Options do not have a setting yet, and its value can stand. -/
def Fits (o : Options) : Setting → Prop
  | format _ => o.format = none
  | config path => o.config = none ∧ path ≠ ""
  | noColor => o.noColor = false

/-- Settings are options of every side. -/
theorem long?_eq_some (side : Side) : side.long? "format" = some .format ∧
    side.long? "config" = some .config ∧ side.long? "no-color" = some .noColor := by
  rcases side with _ | _ | _ | _ <;> decide

/-- What an option without value, or one with its value, adds to settled options. -/
theorem raise_of_settled (hl : level.settled = .ok o) (hfree : o.noColor = false) :
    level.raise .noColor = .ok ⟨{ o with noColor := true }, none⟩ := by
  simp [Level.raise, hl, hfree, bind, Except.bind, pure, Except.pure]

/-- An option with its value adds what the value puts. -/
theorem give_of_settled {flag : Flag} {value : String} {o' : Options}
    (hl : level.settled = .ok o) (hput : Level.put o flag value = .ok o') :
    level.give flag value = .ok ⟨o', none⟩ := by
  simp [Level.give, hl, hput, bind, Except.bind, pure, Except.pure]

/-- The word against color raises its option. -/
theorem word_noColor : level.word side "--no-color" = level.raise .noColor := by
  obtain ⟨-, -, hnoColor⟩ := long?_eq_some side
  simp [Level.word, Word.of, Level.long, hnoColor, Flag.HasValue]

/-- Where nothing is awaited, a setting adds itself. -/
theorem word_eq_ok {setting : Setting} (hl : level.settled = .ok o) (hfit : setting.Fits o) :
    level.word side setting.word = .ok ⟨setting.add o, none⟩ := by
  obtain ⟨hformat, hconfig, -⟩ := long?_eq_some side
  cases setting with
  | noColor =>
    rw [word, word_noColor]
    exact raise_of_settled hl hfit
  | format f =>
    -- one word says the option and its value
    have hword : level.word side ("--format=" ++ f.name) = level.give .format f.name := by
      simp [Level.word, Word.of, Level.long, hformat, Flag.HasValue]
    have hfree : o.format = none := hfit
    rw [word, hword]
    exact give_of_settled hl (by simp [Level.put, hfree, OutputFormat.ofName?_name, add])
  | config path =>
    have hword : level.word side ("--config=" ++ path) = level.give .config path := by
      simp [Level.word, Word.of, Level.long, hconfig, Flag.HasValue]
    obtain ⟨hfree, hpath⟩ : o.config = none ∧ path ≠ "" := hfit
    rw [word, hword]
    exact give_of_settled hl (by simp [Level.put, hfree, hpath, add])

theorem word_ne_dashes (setting : Setting) : setting.word ≠ "--" := by
  intro h
  have hlist := congrArg String.toList h
  cases setting <;> simp [word] at hlist

/-- A setting is no plain word. -/
theorem not_frees (setting : Setting) : ¬level.Frees setting.word := by
  rintro ⟨hplain, -⟩
  cases setting <;> simp [word, Word.of] at hplain

end Setting

/-! ## §2 Settings at the end of a line -/

variable {setting : Setting}

/-- The options of the last side of a line. -/
def Parts.last (p : Parts) : Options :=
  (p.command.map Prod.snd).getD p.before

/-- The parts of a line with a setting on its last side. -/
def Parts.withSetting (p : Parts) (setting : Setting) : Parts :=
  match p.command with
  | some (s, b) => { p with command := some (s, setting.add b) }
  | none => { p with before := setting.add p.before }

/-- A line that is read is read with one setting more, on its last side. -/
theorem Reads.withSetting (h : Reads words p) (hfit : setting.Fits p.last) :
    readBefore {} none (words ++ [setting.word]) = .ok (p.withSetting setting) := by
  -- the setting is read where the line has stopped, before a subcommand or behind it
  cases readBefore_append h.read h.noDashes with
  | options hc hl hrest =>
    have hlast : p.last = p.before := by simp [Parts.last, hc]
    rw [hlast] at hfit
    rw [hrest, readBefore_cons setting.word_ne_dashes setting.not_frees,
      Setting.word_eq_ok hl hfit, Parts.withSetting, hc]
    exact readBefore_nil_eq_ok.mpr ⟨_, rfl, by simp [← hc]⟩
  | @command s b l hc hl hrest =>
    have hlast : p.last = b := by simp [Parts.last, hc]
    rw [hlast] at hfit
    rw [hrest, readBehind_cons setting.word_ne_dashes, Setting.word_eq_ok hl hfit,
      Parts.withSetting, hc]
    rfl

/-- A line with one setting more is accepted in the same environments, if not in more. -/
theorem Parts.withSetting_accepts {given : Option String} (h : p.Accepts given = true) :
    (p.withSetting setting).Accepts given = true := by
  obtain ⟨before, tree, command⟩ := p
  -- no setting takes a configuration away
  have hadd (o : Options) (hconfig : o.config.isSome = true) :
      (setting.add o).config.isSome = true := by
    cases setting <;> first | exact hconfig | rfl
  cases command with
  | none =>
    simp only [Accepts, withSetting, Option.all_none, Bool.and_true, Bool.or_eq_true] at h ⊢
    exact h.imp_right (hadd before)
  | some m =>
    obtain ⟨s, b⟩ := m
    simp only [Accepts, withSetting, Option.all_some, Bool.or_eq_true, Bool.and_eq_true] at h ⊢
    exact h.imp_right (And.imp_right (hadd b))

/-- A setting at the end wins over what was said before it. -/
theorem Parts.withSetting_invocation (given : Option String) :
    (p.withSetting setting).invocation given = setting.apply (p.invocation given) := by
  obtain ⟨before, tree, _ | ⟨s, b⟩⟩ := p
  · cases setting <;>
      simp [withSetting, invocation, Setting.add, Setting.apply, toCommand]
  · cases s <;> cases setting <;>
      simp [withSetting, invocation, Setting.add, Setting.apply, toCommand, Options.source]

/-- What a line asks for is told by its parts. -/
theorem ofWords_eq_ok {environment : String → Option String}
    (h : readBefore {} none words = .ok p) :
    Invocation.ofWords environment words = .ok i ↔
      p.Accepts (environment configVariable) = true ∧
        p.invocation (environment configVariable) = i := by
  rw [ofWords_of_readBefore environment h]
  split <;> simp_all

/-- A setting may be added to a line whose last side does not have it. -/
theorem ofWords_append_setting {environment : String → Option String} (h : Reads words p)
    (hfit : setting.Fits p.last) (hi : Invocation.ofWords environment words = .ok i) :
    Invocation.ofWords environment (words ++ [setting.word]) = .ok (setting.apply i) := by
  obtain ⟨haccepts, rfl⟩ := (ofWords_eq_ok h.read).mp hi
  exact (ofWords_eq_ok (h.withSetting hfit)).mpr
    ⟨Parts.withSetting_accepts haccepts, Parts.withSetting_invocation _⟩

/-! ## §3 The option against color -/

variable {off : Bool}

theorem Word.of_eq_long {text : List Char} (h : Word.of w = .long text) :
    w.toList = '-' :: '-' :: text := by
  unfold Word.of at h
  split at h <;> simp_all

/-- Options with the option against color set or not. -/
def Options.withNoColor (off : Bool) (o : Options) : Options :=
  { o with noColor := off }

def Level.withNoColor (off : Bool) (level : Level) : Level :=
  { level with options := level.options.withNoColor off }

def Parts.withNoColor (off : Bool) (p : Parts) : Parts :=
  { p with before := p.before.withNoColor off }

namespace Level

/-- Putting a value leaves the option against color alone. -/
theorem put_withNoColor (o : Options) (flag : Flag) (value : String) :
    put (o.withNoColor off) flag value = (put o flag value).map (Options.withNoColor off) := by
  cases flag with
  | format =>
    simp only [put, Options.withNoColor]
    split <;> rfl
  | config | input =>
    simp only [put, apply_ite (Except.map (Options.withNoColor off))]
    rfl
  | noColor | verbose | version | help => rfl

/-- So does settling the option that came last. -/
theorem settled_withNoColor (level : Level) :
    (level.withNoColor off).settled = level.settled.map (Options.withNoColor off) := by
  obtain ⟨o, _ | ⟨flag, _ | value⟩⟩ := level
  · rfl
  · rfl
  · exact put_withNoColor o flag value

theorem awaits_withNoColor (level : Level) : (level.withNoColor off).Awaits = level.Awaits :=
  rfl

/-- So does raising any other option. -/
theorem raise_withNoColor {flag : Flag} (h : flag ≠ .noColor) :
    (level.withNoColor off).raise flag = (level.raise flag).map (Level.withNoColor off) := by
  rw [raise, raise, settled_withNoColor]
  cases level.settled with
  | error stop => rfl
  | ok o =>
    cases flag with
    | noColor => exact absurd rfl h
    | verbose =>
      change (if o.verbose = true then _ else _) = Except.map _ (if o.verbose = true then _ else _)
      rw [apply_ite (Except.map (Level.withNoColor off))]
      rfl
    | format | config | input | version | help => rfl

/-- So does giving a value. -/
theorem give_withNoColor (flag : Flag) (value : String) :
    (level.withNoColor off).give flag value =
      (level.give flag value).map (Level.withNoColor off) := by
  rw [give, give, settled_withNoColor]
  cases level.settled with
  | error stop => rfl
  | ok o =>
    change (do return ⟨← put (o.withNoColor off) flag value, none⟩ : Except Stop Level) =
      (do return ⟨← put o flag value, none⟩ : Except Stop Level).map (Level.withNoColor off)
    rw [put_withNoColor]
    cases put o flag value <;> rfl

theorem await_withNoColor (flag : Flag) :
    (level.withNoColor off).await flag = (level.await flag).map (Level.withNoColor off) := by
  rw [await, await, settled_withNoColor]
  cases level.settled <;> rfl

/-- So does any other long option. -/
theorem long_withNoColor {text : List Char} (h : text ≠ "no-color".toList) :
    (level.withNoColor off).long side text =
      (level.long side text).map (Level.withNoColor off) := by
  rw [long, long]
  cases hflag : side.long? (String.ofList (text.takeWhile (· ≠ '='))) with
  | none => rfl
  | some flag =>
    cases hvalue : text.dropWhile (· ≠ '=') with
    -- an option with a value, which the one against color does not have
    | cons c value =>
      dsimp only
      rw [give_withNoColor, apply_ite (Except.map (Level.withNoColor off))]
      rfl
    | nil =>
      -- only the whole text can be the name of the option
      have hother : flag ≠ .noColor := by
        rintro rfl
        -- the name that was found stands before the equals sign, and there is none
        have hname : "no-color" = String.ofList (text.takeWhile (· ≠ '=')) := by
          simpa [Flag.long] using List.find?_some hflag
        have htext : text.takeWhile (· ≠ '=') ++ text.dropWhile (· ≠ '=') = text :=
          List.takeWhile_append_dropWhile
        rw [hvalue, List.append_nil] at htext
        refine h ?_
        rw [hname, htext, String.toList_ofList]
      dsimp only
      rw [await_withNoColor, raise_withNoColor hother,
        apply_ite (Except.map (Level.withNoColor off))]

/-- The option has no letter. -/
theorem short_withNoColor (text : List Char) :
    (level.withNoColor off).short side text =
      (level.short side text).map (Level.withNoColor off) := by
  induction text generalizing level with
  | nil => rfl
  | cons letter rest ih =>
    rw [short, short]
    cases hflag : side.short? letter with
    | none => rfl
    | some flag =>
      -- an option that was found by a letter has one
      have hother : flag ≠ .noColor := by
        rintro rfl
        simpa [Flag.short?] using List.find?_some hflag
      dsimp only
      split
      · split
        · exact await_withNoColor flag
        · exact give_withNoColor flag _
        · exact give_withNoColor flag _
      -- the letters behind it are read in turn
      · rw [raise_withNoColor hother]
        cases level.raise flag with
        | error stop => rfl
        | ok next => exact ih

/-- Every other word leaves the option against color alone, and does not ask for it. -/
theorem word_withNoColor (h : w ≠ "--no-color") :
    (level.withNoColor off).word side w = (level.word side w).map (Level.withNoColor off) := by
  rw [word, word]
  cases hof : Word.of w with
  | dashes => rfl
  | short text => exact short_withNoColor text
  | plain =>
    rw [awaits_withNoColor, apply_ite (Except.map (Level.withNoColor off))]
    rfl
  | long text =>
    refine long_withNoColor fun htext => h ?_
    rw [← String.toList_inj, Word.of_eq_long hof, htext]
    rfl

end Level

/-! ## §4 Lines with and without it -/

/-- The option against color stands among the options; behind two dashes it would be a plain
word. -/
def SaysNoColor (words : List String) : Prop :=
  "--no-color" ∈ words.takeWhile (· ≠ "--")

theorem not_saysNoColor_nil : ¬SaysNoColor [] := by
  simp [SaysNoColor]

theorem not_saysNoColor_dashes : ¬SaysNoColor ("--" :: words) := by
  simp [SaysNoColor]

/-- A word that is not two dashes says the option, or leaves it to the others. -/
theorem saysNoColor_cons (hw : w ≠ "--") :
    SaysNoColor (w :: words) ↔ w = "--no-color" ∨ SaysNoColor words := by
  simp [SaysNoColor, hw, eq_comm]

theorem readPlain_withNoColor (words : List String) :
    readPlain (level.withNoColor off) tree words =
      (readPlain level tree words).map (Parts.withNoColor off) := by
  rw [readPlain, readPlain, level.settled_withNoColor]
  cases level.settled <;> split <;> rfl

/-- A line that does not say the option is read alike with it in force. -/
theorem readBefore_withNoColor (h : ¬SaysNoColor words) :
    readBefore (level.withNoColor off) tree words =
      (readBefore level tree words).map (Parts.withNoColor off) := by
  induction words generalizing level tree with
  | nil => exact readPlain_withNoColor []
  | cons w words ih =>
    by_cases hw : w = "--"
    · subst hw
      rw [readBefore_dashes, readBefore_dashes, level.awaits_withNoColor, readPlain_withNoColor,
        apply_ite (Except.map (Parts.withNoColor off))]
      rfl
    -- by what the word is: a free one names a subcommand or is the tree, and any other belongs to
    -- the options
    · obtain ⟨hother, hwords⟩ := not_or.mp (mt (saysNoColor_cons hw).mpr h)
      by_cases hf : level.Frees w
      · have hf' : (level.withNoColor off).Frees w := hf
        rw [readBefore_cons_free hf, readBefore_cons_free hf', level.settled_withNoColor]
        cases Subcommand.ofName? w with
        | some s =>
          -- the options before the subcommand have no part in those behind it
          dsimp only
          cases readBehind s {} words with
          | error stop => rfl
          | ok b => cases level.settled <;> rfl
        | none =>
          dsimp only
          split
          · rfl
          · cases tree with
            | some t => rfl
            | none =>
              dsimp only
              rw [map_bind, bind_map]
              exact bind_congr_ok fun o _ => @ih ⟨o, none⟩ (some w) hwords
      -- the word belongs to the options, and it is another one
      · have hf' : ¬(level.withNoColor off).Frees w := hf
        rw [readBefore_cons hw hf, readBefore_cons hw hf', Level.word_withNoColor hother, map_bind,
          bind_map]
        exact bind_congr_ok fun next _ => ih hwords

/-- The option in front of a line that does not say it. -/
theorem ofWords_cons_noColor (environment : String → Option String) (h : ¬SaysNoColor words) :
    Invocation.ofWords environment ("--no-color" :: words) =
      (Invocation.ofWords environment words).map Setting.noColor.apply := by
  have hword : ({} : Level).word none Setting.noColor.word = .ok (({} : Level).withNoColor true) :=
    Setting.word_eq_ok (o := {}) rfl rfl
  -- reading goes on with the option in force, and nothing else is different
  have hread : readBefore {} none ("--no-color" :: words) =
      (readBefore {} none words).map (Parts.withNoColor true) := by
    rw [← readBefore_withNoColor h]
    calc readBefore {} none ("--no-color" :: words)
        = ({} : Level).word none Setting.noColor.word >>= fun next => readBefore next none words :=
          readBefore_cons Setting.noColor.word_ne_dashes Setting.noColor.not_frees
      _ = readBefore (({} : Level).withNoColor true) none words := by rw [hword]; rfl
  rw [Invocation.ofWords, Invocation.ofWords, hread, map_bind, bind_map]
  refine bind_congr_ok fun p _ => ?_
  rw [apply_ite (Except.map _)]
  rfl

/-- Settling does not change whether the option is in force. -/
theorem Level.noColor_of_settled (h : level.settled = .ok o) :
    o.noColor = level.options.noColor := by
  have hsame : (level.withNoColor level.options.noColor).settled =
      level.settled.map (Options.withNoColor level.options.noColor) := level.settled_withNoColor
  -- set to what it is, the option stays so
  have hlevel : level.withNoColor level.options.noColor = level := rfl
  rw [hlevel, h] at hsame
  have heq : o = o.withNoColor level.options.noColor := Except.ok.inj hsame
  rw [heq]
  rfl

/-- A side has the option exactly if it had it or a word says so. -/
theorem Level.noColor_of_word (h : level.word side w = .ok next) :
    next.options.noColor = true ↔ level.options.noColor = true ∨ w = "--no-color" := by
  by_cases hw : w = "--no-color"
  -- saying the option puts it in force, if it may still be said
  · subst hw
    have hraise : level.word side "--no-color" = level.raise .noColor :=
      Setting.word_noColor
    rw [hraise, Level.raise] at h
    obtain ⟨o, -, h⟩ := bind_eq_ok.mp h
    dsimp only at h
    split at h
    · cases h
    · obtain rfl := pure_eq_ok.mp h
      simp
  · -- set to what it is, the option stays so
    have hsame : (level.withNoColor level.options.noColor).word side w =
        (level.word side w).map (Level.withNoColor level.options.noColor) :=
      level.word_withNoColor hw
    have hlevel : level.withNoColor level.options.noColor = level := rfl
    rw [hlevel, h] at hsame
    have heq : next = next.withNoColor level.options.noColor := Except.ok.inj hsame
    have hnext : next.options.noColor = level.options.noColor := by
      rw [heq]
      rfl
    simp [hnext, hw]

/-- Behind a subcommand, the option is in force if it was or if it is said. -/
theorem noColor_of_readBehind {b : Options} (h : readBehind s level words = .ok b) :
    b.noColor = true ↔ level.options.noColor = true ∨ SaysNoColor words := by
  induction words generalizing level with
  | nil =>
    rw [Level.noColor_of_settled h]
    simp [not_saysNoColor_nil]
  | cons w words ih =>
    by_cases hw : w = "--"
    · subst hw
      rw [readBehind_dashes] at h
      split at h
      · rw [Level.noColor_of_settled h]
        simp [not_saysNoColor_dashes]
      · cases h
    -- the word says it, or one of the others
    · rw [readBehind_cons hw] at h
      obtain ⟨next, hnext, h⟩ := bind_eq_ok.mp h
      rw [ih h, Level.noColor_of_word hnext, saysNoColor_cons hw, or_assoc]

/-- The option is in force on one of the sides. -/
def Parts.NoColor (p : Parts) : Prop :=
  p.before.noColor = true ∨ ((p.command.map Prod.snd).getD {}).noColor = true

/-- Behind two dashes nothing says the option. -/
theorem noColor_of_readPlain (h : readPlain level tree words = .ok p) :
    p.NoColor ↔ level.options.noColor = true := by
  have hreturn (tree : Option String)
      (h : (do return ⟨← level.settled, tree, none⟩ : Except Stop Parts) = .ok p) :
      p.NoColor ↔ level.options.noColor = true := by
    obtain ⟨o, ho, h⟩ := bind_eq_ok.mp h
    obtain rfl := pure_eq_ok.mp h
    rw [← Level.noColor_of_settled ho]
    simp [Parts.NoColor]
  -- nothing, the tree, or too many words
  unfold readPlain at h
  split at h
  · exact hreturn none h
  · exact hreturn _ h
  · cases h

/-- The option is in force on a side if it was or if it is said on the line. -/
theorem noColor_of_readBefore (h : readBefore level tree words = .ok p) :
    p.NoColor ↔ level.options.noColor = true ∨ SaysNoColor words := by
  induction words generalizing level tree with
  | nil => rw [noColor_of_readPlain h]; simp [not_saysNoColor_nil]
  | cons w words ih =>
    by_cases hw : w = "--"
    · subst hw
      rw [readBefore_dashes] at h
      split at h
      · cases h
      · rw [noColor_of_readPlain h]
        simp [not_saysNoColor_dashes]
    · rw [saysNoColor_cons hw]
      by_cases hf : level.Frees w
      -- the option itself is no plain word
      · have hother : w ≠ "--no-color" := by
          rintro rfl
          exact Setting.noColor.not_frees hf
        rw [readBefore_cons_free hf] at h
        split at h
        · -- the words behind the subcommand may say it, and so may the options before it
          next s _ =>
          obtain ⟨b, hb, h⟩ := bind_eq_ok.mp h
          obtain ⟨o, ho, h⟩ := bind_eq_ok.mp h
          obtain rfl := pure_eq_ok.mp h
          have hbehind := noColor_of_readBehind (mapError_eq_ok.mp hb)
          simp [Parts.NoColor, hbehind, hother, Level.noColor_of_settled ho]
        · split at h
          · cases h
          · cases tree with
            | some t => cases h
            | none =>
              -- the word is the tree, and the options in front of it are settled
              obtain ⟨o, ho, h⟩ := bind_eq_ok.mp h
              rw [ih h, ← Level.noColor_of_settled ho]
              simp [hother]
      · rw [readBefore_cons hw hf] at h
        obtain ⟨next, hnext, h⟩ := bind_eq_ok.mp h
        rw [ih h, Level.noColor_of_word hnext, or_assoc]

/-- The option is in force exactly if it is said. -/
theorem ofWords_noColor_iff {environment : String → Option String}
    (h : Invocation.ofWords environment words = .ok i) :
    i.noColor = true ↔ SaysNoColor words := by
  rw [Invocation.ofWords] at h
  obtain ⟨p, hp, h⟩ := bind_eq_ok.mp h
  dsimp only at h
  split at h
  · obtain rfl := pure_eq_ok.mp h
    have hparts := noColor_of_readBefore hp
    -- an invocation is without color if either side is
    have hsides : (p.invocation (environment configVariable)).noColor = true ↔ p.NoColor := by
      simp [Parts.invocation, Parts.NoColor]
    rw [hsides, hparts]
    simp
  · cases h

end CanonicalQuery.CommandLine
