import CanonicalQuery.Proofs.CommandLine.Globals
import CanonicalQuery.Proofs.CommandLine.Configured

/-!
# Global options on either side of a subcommand

A global option may be moved from one side of a subcommand to the other.  If none is given twice,
the line is read as the same invocation, or refused in the same way.

There is one exception.  A value in a word of its own is looked at only when the next option or the
end of its side is reached, and a request for help ends the reading before that, if it stands on the
other side.  So the last option of a side may hide that its value is refused.

## Main definitions

- `earlyLine`, `lateLine`: global options in front of a subcommand and behind it.
- `Once`: no global option is said twice.
- `EndsRefused`: the last word is a value that its option refuses.
- `SidesAgree`: what the two lines have in common.

## Main statements

- `sidesAgree`: they do have it.
- `helpHidesRefusal`: the exception.
-/

namespace CanonicalQuery.CommandLine

variable {s : Subcommand} {before globals behind words : List String} {ts us : List Token}
variable {o b : Options} {p : Parts} {flag : Flag} {environment : String → Option String}

/-! ## §1 Two lines -/

/-- A line with global options in front of its subcommand. -/
def earlyLine (s : Subcommand) (before globals behind : List String) : List String :=
  before ++ globals ++ s.name :: behind

/-- The line with these options behind its subcommand. -/
def lateLine (s : Subcommand) (before globals behind : List String) : List String :=
  before ++ s.name :: (globals ++ behind)

/-- All that is said on both of them. -/
def saidOn (s : Subcommand) (before globals behind : List String) : List Token :=
  tokens none before ++ tokens none globals ++ tokens (some s) behind

/-- No global option is said twice. -/
def Once (ts : List Token) : Prop :=
  ((flagsOf ts).filter (· ∈ Flag.globals)).Nodup

instance : DecidablePred Once := fun ts =>
  inferInstanceAs (Decidable ((flagsOf ts).filter (· ∈ Flag.globals)).Nodup)

theorem once_append (h : Once (ts ++ us)) : Once ts ∧ Once us ∧
    ∀ flag ∈ Flag.globals, flag ∈ flagsOf ts → flag ∉ flagsOf us := by
  rw [Once, flagsOf_append, List.filter_append] at h
  obtain ⟨hts, hus, hapart⟩ := List.nodup_append.mp h
  refine ⟨hts, hus, fun flag hglobal hmem hmem' => ?_⟩
  have hleft : flag ∈ (flagsOf ts).filter (· ∈ Flag.globals) :=
    List.mem_filter.mpr ⟨hmem, by simpa using hglobal⟩
  have hright : flag ∈ (flagsOf us).filter (· ∈ Flag.globals) :=
    List.mem_filter.mpr ⟨hmem', by simpa using hglobal⟩
  exact hapart flag hleft flag hright rfl

/-- What is said behind global options says nothing of them. -/
theorem Once.apart (h : Once (ts ++ us)) (hts : ∀ t ∈ ts, t.IsGlobal) :
    ∀ flag ∈ flagsOf us, flag ∉ flagsOf ts := fun flag hus hmem =>
  (once_append h).2.2 flag (mem_globals_of_mem_flagsOf hts hmem) hmem hus

/-! ## §2 Values that are refused late -/

/-- The last word is the value of the option in front of it, and it is refused. -/
def EndsRefused (words : List String) : Prop :=
  ∃ flag value, words.getLast? = some value ∧
    (scan none none words).pending = some (flag, some value) ∧
    ¬Consistent [.option flag (some value)]

/-- Global options that are consistent but for the last of them. -/
theorem endsRefused_of_inconsistent (h : AllGlobal words) (honce : Once (tokens none words))
    (hsure : Consistent (scan none none words).tokens) (hall : ¬Consistent (tokens none words)) :
    EndsRefused words := by
  rw [tokens_eq_append] at honce hall
  have hsureGlobal (t : Token) (ht : t ∈ (scan none none words).tokens) : t.IsGlobal :=
    h t (List.mem_append_left _ ht)
  have hlast : ¬Consistent (owed (scan none none words).pending) := fun hlast =>
    hall ((consistent_append (honce.apart hsureGlobal)).mpr ⟨hsure, hlast⟩)
  -- what is refused is what the words leave open, and that has its value
  match hpending : (scan none none words).pending with
  | none =>
    rw [hpending] at hlast
    exact absurd ⟨{}, rfl⟩ hlast
  | some (flag, none) => exact absurd hpending (h.settled flag)
  | some (flag, some value) =>
    rw [hpending] at hlast
    have hne : words ≠ [] := by
      rintro rfl
      cases hpending
    exact ⟨flag, value, getLast?_of_pending hne hpending, hpending, hlast⟩

/-! ## §3 Invocations -/

/-- What is said once is said on one side only. -/
theorem lacks_of_once (h : Once (ts ++ us)) (flag : Flag) (hflag : flag ∈ Flag.globals)
    (ho : Options.takeAll {} ts = .ok o) (hb : Options.takeAll {} us = .ok b) :
    o.Lacks flag ∨ b.Lacks flag := by
  by_cases hmem : flag ∈ flagsOf ts
  · have hother : flag ∉ flagsOf us := (once_append h).2.2 flag hflag hmem
    exact .inr (Options.lacks_of_takeAll hb hother (Options.lacks_empty flag))
  · exact .inl (Options.lacks_of_takeAll ho hmem (Options.lacks_empty flag))

/-- A line on which a configuration is named once at most; an empty path in the environment is
refused on it. -/
theorem ofWords_of_once (h : Once (ts ++ us)) (ho : Options.takeAll {} ts = .ok o)
    (hb : Options.takeAll {} us = .ok b)
    (hread : readBefore {} none words = .ok ⟨o, none, some (s, b)⟩) :
    Invocation.ofWords environment words =
      if environment configVariable = some "" then .error .misused
      else .ok (Parts.invocation ⟨o, none, some (s, b)⟩ (environment configVariable)) := by
  have hconfig : (o.config.isSome && b.config.isSome) = false := by
    rcases lacks_of_once h .config (by decide) ho hb with hnone | hnone
    · have hnone : o.config = none := hnone
      rw [hnone]
      rfl
    · have hnone : b.config = none := hnone
      rw [hnone, Option.isSome_none, Bool.and_false]
  rw [ofWords_of_readBefore environment hread]
  simp only [Parts.Accepts, Option.all_some, hconfig, Bool.or_false, bne_iff_ne, ne_eq, ite_not]

/-- Options without a source ask for the same on both sides. -/
theorem invocation_beside {m : Options} (hinput : m.input = none) (given : Option String) :
    Parts.invocation ⟨m.or o, none, some (s, b)⟩ given =
      Parts.invocation ⟨o, none, some (s, b.or m)⟩ given := by
  have hsource : (b.or m).source = b.source := by
    simp [Options.source, Options.or, hinput]
  have hcommand : Parts.toCommand ⟨m.or o, none, some (s, b)⟩ =
      Parts.toCommand ⟨o, none, some (s, b.or m)⟩ := by
    -- only the source of a tree is in the command, and that is the same
    cases s <;> simp [Parts.toCommand, hsource]
  rw [Parts.invocation, Parts.invocation, hcommand]
  simp [Options.or, Option.or_assoc, Bool.or_comm, Bool.or_left_comm]

/-- What is said once holds on the whole line. -/
theorem said_of_once {α : Type} (option : Options → Option α) (Means : α → Prop) (flag : Flag)
    (t : Token) (h : Once (ts ++ us)) (ho : Options.takeAll {} ts = .ok o)
    (hb : Options.takeAll {} us = .ok b) (hflag : flag ∈ Flag.globals) (ht : t.flag? = some flag)
    (hlacks : ∀ o : Options, o.Lacks flag → option o = none)
    (hhas : ∀ o : Options, o.Has t → ∃ a, Means a ∧ option o = some a) (hmem : t ∈ ts ++ us) :
    ∃ a, Means a ∧ (option b <|> option o) = some a := by
  rcases List.mem_append.mp hmem with hmem | hmem
  · -- then it is not said behind the subcommand
    have hsaid : flag ∈ flagsOf ts := List.mem_filterMap.mpr ⟨t, hmem, ht⟩
    have hother : flag ∉ flagsOf us := (once_append h).2.2 flag hflag hsaid
    have hnone : option b = none :=
      hlacks b (Options.lacks_of_takeAll hb hother (Options.lacks_empty flag))
    obtain ⟨a, hmeans, ha⟩ := hhas o (Options.has_of_takeAll ho hmem)
    exact ⟨a, hmeans, by simp [hnone, ha]⟩
  · obtain ⟨a, hmeans, ha⟩ := hhas b (Options.has_of_takeAll hb hmem)
    exact ⟨a, hmeans, by simp [ha]⟩

/-- A configuration file that is named on either side is the one that is loaded, and a format that
is named on either side is the one that holds. -/
theorem wins_of_once {i : Invocation} (h : Once (ts ++ us)) (ho : Options.takeAll {} ts = .ok o)
    (hb : Options.takeAll {} us = .ok b)
    (hread : readBefore {} none words = .ok ⟨o, none, some (s, b)⟩)
    (hi : Invocation.ofWords environment words = .ok i) :
    (∀ path, .option .config (some path) ∈ ts ++ us → i.config = some path) ∧
      ∀ name, .option .format (some name) ∈ ts ++ us →
        ∃ f, OutputFormat.ofName? name false = some f ∧ ∀ config, i.formatUnder config = f := by
  obtain ⟨p, hp, hconfig, hformat⟩ := said_of_ofWords hi
  -- an option behind the subcommand wins over one before it, but there is only one
  obtain rfl : p = ⟨o, none, some (s, b)⟩ := Except.ok.inj (hp.symm.trans hread)
  constructor
  · intro path hmem
    obtain ⟨a, rfl, ha⟩ := said_of_once Options.config (fun a => a = path) .config
      (.option .config (some path)) h ho hb (by decide) rfl (fun _ hlacks => hlacks)
      (fun _ hhas => ⟨path, rfl, hhas⟩) hmem
    have hsaid : Parts.said? ⟨o, none, some (s, b)⟩ Options.config = some a := ha
    rw [hconfig, hsaid]
    rfl
  · intro name hmem
    obtain ⟨f, hname, hf⟩ := said_of_once Options.format
      (fun f => OutputFormat.ofName? name false = some f) .format (.option .format (some name))
      h ho hb (by decide) rfl (fun _ hlacks => hlacks) (fun _ hhas => hhas) hmem
    have hsaid : Parts.said? ⟨o, none, some (s, b)⟩ Options.format = some f := hf
    refine ⟨f, hname, fun config => ?_⟩
    rw [Invocation.formatUnder, hformat, hsaid]
    rfl

/-! ## §4 How the lines are read -/

theorem ofWords_of_stop {stop : Stop} (h : readBefore {} none words = .error stop) :
    Invocation.ofWords environment words = .error stop := by
  rw [Invocation.ofWords, h]
  rfl

/-- Global options that may be moved from one side of a subcommand to the other. -/
structure Movable (s : Subcommand) (before globals behind : List String) : Prop where
  before_global : AllGlobal before
  globals_global : AllGlobal globals
  once : Once (saidOn s before globals behind)

namespace Movable

variable (h : Movable s before globals behind)

include h

theorem apart_before :
    ∀ flag ∈ flagsOf (tokens none globals), flag ∉ flagsOf (tokens none before) :=
  (once_append h.once).1.apart h.before_global

/-- All that is said on the early line. -/
theorem said_early :
    tokens none (before ++ globals) ++ tokens (some s) behind = saidOn s before globals behind := by
  rw [tokens_append h.before_global, saidOn]

/-- All that is said on the late line. -/
theorem said_late :
    tokens none before ++ tokens (some s) (globals ++ behind) = saidOn s before globals behind := by
  rw [tokens_append h.globals_global, saidOn, List.append_assoc]

theorem once_early : Once (tokens none (before ++ globals) ++ tokens (some s) behind) := by
  rw [h.said_early]
  exact h.once

theorem once_late : Once (tokens none before ++ tokens (some s) (globals ++ behind)) := by
  rw [h.said_late]
  exact h.once

theorem apart_globals :
    ∀ flag ∈ flagsOf (tokens (some s) behind), flag ∉ flagsOf (tokens none globals) := by
  have hbehind : Once (tokens none globals ++ tokens (some s) behind) := by
    rw [← tokens_append h.globals_global]
    exact (once_append h.once_late).2.1
  exact hbehind.apart h.globals_global

theorem early_global : AllGlobal (before ++ globals) :=
  h.before_global.append h.globals_global

/-- In front of the subcommand the moved options are told behind those that stay. -/
theorem takeAll_before : Options.takeAll {} (tokens none (before ++ globals)) =
    Options.takeAll {} (tokens none before) >>= fun o =>
      (Options.takeAll {} (tokens none globals)).map fun m => m.or o := by
  rw [tokens_append h.before_global, Options.takeAll_append_apart h.apart_before]

/-- Behind the subcommand they are told before those that stay. -/
theorem takeAll_behind : Options.takeAll {} (tokens (some s) (globals ++ behind)) =
    Options.takeAll {} (tokens none globals) >>= fun m =>
      (Options.takeAll {} (tokens (some s) behind)).map fun b => b.or m := by
  rw [tokens_append h.globals_global, Options.takeAll_append_apart h.apart_globals]

/-- Options that are consistent on their sides ask for the same on both lines. -/
theorem ofWords_eq_of_consistent (hbefore : Consistent (tokens none before))
    (hglobals : Consistent (tokens none globals)) (hbehind : Consistent (tokens (some s) behind)) :
    Invocation.ofWords environment (earlyLine s before globals behind) =
      Invocation.ofWords environment (lateLine s before globals behind) := by
  obtain ⟨o, ho⟩ := hbefore
  obtain ⟨m, hm⟩ := hglobals
  obtain ⟨b, hb⟩ := hbehind
  have hearly : Options.takeAll {} (tokens none (before ++ globals)) = .ok (m.or o) := by
    rw [h.takeAll_before, ho, hm]
    rfl
  have hlate : Options.takeAll {} (tokens (some s) (globals ++ behind)) = .ok (b.or m) := by
    rw [h.takeAll_behind, hm, hb]
    rfl
  -- what is done depends on the source alone, and that is no global option
  have hinput : m.input = none := by
    have hother : Flag.input ∉ flagsOf (tokens none globals) := fun hmem =>
      absurd (mem_globals_of_mem_flagsOf h.globals_global hmem) (by decide)
    exact Options.lacks_of_takeAll hm hother (Options.lacks_empty .input)
  have hreadEarly : readBefore {} none (earlyLine s before globals behind) =
      .ok ⟨m.or o, none, some (s, b)⟩ :=
    (readBefore_globals_eq_ok h.early_global).mpr ⟨_, _, hearly, hb, rfl⟩
  have hreadLate : readBefore {} none (lateLine s before globals behind) =
      .ok ⟨o, none, some (s, b.or m)⟩ :=
    (readBefore_globals_eq_ok h.before_global).mpr ⟨_, _, ho, hlate, rfl⟩
  rw [ofWords_of_once h.once_early hearly hb hreadEarly,
    ofWords_of_once h.once_late ho hlate hreadLate,
    invocation_beside hinput]

/-- Where help is asked for behind the subcommand, the early line is help unless something is
refused in front of the subcommand before its last option. -/
theorem readBefore_early_of_help (hne : globals ≠ [])
    (hhelp : Options.takeAll {} (tokens (some s) behind) = .error (.help .program)) :
    (Consistent (tokens none before) ∧ Consistent (scan none none globals).tokens ∧
        readBefore {} none (earlyLine s before globals behind) =
          .error (.help (.subcommand s))) ∨
      (¬(Consistent (tokens none before) ∧ Consistent (scan none none globals).tokens) ∧
        readBefore {} none (earlyLine s before globals behind) = .error .misused) := by
  have hsure : Consistent (scan none none (before ++ globals)).tokens ↔
      Consistent (tokens none before) ∧ Consistent (scan none none globals).tokens := by
    rw [scan_append_of_global h.before_global hne, Heard.after_tokens]
    refine consistent_append fun flag hflag => h.apart_before flag ?_
    rw [tokens_eq_append, flagsOf_append]
    exact List.mem_append_left _ hflag
  -- the last option before the subcommand is not looked at before the help is found
  by_cases hboth : Consistent (tokens none before) ∧ Consistent (scan none none globals).tokens
  · exact .inl ⟨hboth.1, hboth.2, readBefore_globals_stop h.early_global (hsure.mpr hboth) hhelp⟩
  · exact .inr ⟨hboth, readBefore_globals_misused h.early_global (.inl (mt hsure.mp hboth))⟩

/-- The late line is help unless something is refused in front of the help behind the subcommand, or
in front of the subcommand before its last option. -/
theorem readBefore_late_of_help
    (hhelp : Options.takeAll {} (tokens (some s) behind) = .error (.help .program)) :
    (Consistent (scan none none before).tokens ∧ Consistent (tokens none globals) ∧
        readBefore {} none (lateLine s before globals behind) =
          .error (.help (.subcommand s))) ∨
      (¬(Consistent (scan none none before).tokens ∧ Consistent (tokens none globals)) ∧
        readBefore {} none (lateLine s before globals behind) = .error .misused) := by
  -- behind the subcommand the globals are looked at before the help
  cases hglobals : Options.takeAll {} (tokens none globals) with
  | error stop =>
    obtain rfl := takeAll_eq_error_of_global h.globals_global hglobals
    have hno : ¬Consistent (tokens none globals) := not_consistent_iff.mpr ⟨_, hglobals⟩
    have hbehind : Options.takeAll {} (tokens (some s) (globals ++ behind)) = .error .misused := by
      rw [h.takeAll_behind, hglobals]
      rfl
    refine .inr ⟨fun hboth => hno hboth.2, ?_⟩
    exact readBefore_globals_misused h.before_global (.inr (.inl hbehind))
  | ok m =>
    have hbehind : Options.takeAll {} (tokens (some s) (globals ++ behind)) =
        .error (.help .program) := by
      rw [h.takeAll_behind, hglobals, hhelp]
      rfl
    by_cases hsure : Consistent (scan none none before).tokens
    · exact .inl ⟨hsure, ⟨m, hglobals⟩, readBefore_globals_stop h.before_global hsure hbehind⟩
    · refine .inr ⟨fun hboth => hsure hboth.1, ?_⟩
      exact readBefore_globals_misused h.before_global (.inl hsure)

/-- Where no help is asked for, options that are refused anywhere make a misuse of both lines. -/
theorem readBefore_of_inconsistent
    (hhelp : Options.takeAll {} (tokens (some s) behind) ≠ .error (.help .program))
    (hno : ¬(Consistent (tokens none before) ∧ Consistent (tokens none globals) ∧
      Consistent (tokens (some s) behind))) :
    readBefore {} none (earlyLine s before globals behind) = .error .misused ∧
      readBefore {} none (lateLine s before globals behind) = .error .misused := by
  cases hbehind : Options.takeAll {} (tokens (some s) behind) with
  | error stop =>
    obtain rfl : stop = .misused := (takeAll_behind_eq_error hbehind).resolve_right fun hstop =>
      hhelp (hstop ▸ hbehind)
    -- the moved options are told first, but they are refused in no other way
    have hlate : Options.takeAll {} (tokens (some s) (globals ++ behind)) = .error .misused := by
      rw [h.takeAll_behind, hbehind]
      cases hglobals : Options.takeAll {} (tokens none globals) with
      | error stop =>
        obtain rfl := takeAll_eq_error_of_global h.globals_global hglobals
        rfl
      | ok m => rfl
    exact ⟨readBefore_globals_misused h.early_global (.inr (.inl hbehind)),
      readBefore_globals_misused h.before_global (.inr (.inl hlate))⟩
  | ok b =>
    have hno : ¬(Consistent (tokens none before) ∧ Consistent (tokens none globals)) := fun hboth =>
      hno ⟨hboth.1, hboth.2, b, hbehind⟩
    constructor
    · refine readBefore_globals_misused h.early_global (.inr (.inr ⟨⟨b, hbehind⟩, ?_⟩))
      rw [tokens_append h.before_global, consistent_append h.apart_before]
      exact hno
    · cases hglobals : Options.takeAll {} (tokens none globals) with
      | error stop =>
        obtain rfl := takeAll_eq_error_of_global h.globals_global hglobals
        have hlate : Options.takeAll {} (tokens (some s) (globals ++ behind)) =
            .error .misused := by
          rw [h.takeAll_behind, hglobals]
          rfl
        exact readBefore_globals_misused h.before_global (.inr (.inl hlate))
      | ok m =>
        have hlate : Options.takeAll {} (tokens (some s) (globals ++ behind)) = .ok (b.or m) := by
          rw [h.takeAll_behind, hglobals, hbehind]
          rfl
        refine readBefore_globals_misused h.before_global (.inr (.inr ⟨⟨b.or m, hlate⟩, ?_⟩))
        exact fun hbefore => hno ⟨hbefore, m, hglobals⟩

/-- Both lines are read alike, unless one is help and the other misused because a value in a word of
its own is refused. -/
theorem ofWords_alike (environment : String → Option String) :
    Invocation.ofWords environment (earlyLine s before globals behind) =
        Invocation.ofWords environment (lateLine s before globals behind) ∨
      Invocation.ofWords environment (s.name :: behind) =
          .error (.help (.subcommand s)) ∧
        (EndsRefused before ∧
            Invocation.ofWords environment (earlyLine s before globals behind) = .error .misused ∧
            Invocation.ofWords environment (lateLine s before globals behind) =
              .error (.help (.subcommand s)) ∨
          EndsRefused globals ∧
            Invocation.ofWords environment (earlyLine s before globals behind) =
              .error (.help (.subcommand s)) ∧
            Invocation.ofWords environment (lateLine s before globals behind) =
              .error .misused) := by
  -- the last option before the subcommand is settled by the moved ones, if there are any
  by_cases hne : globals = []
  · left
    rw [hne, earlyLine, lateLine, List.append_nil, List.nil_append]
  by_cases hhelp : Options.takeAll {} (tokens (some s) behind) = .error (.help .program)
  · have halone : readBefore {} none (s.name :: behind) =
          .error (.help (.subcommand s)) :=
      readBefore_globals_stop allGlobal_nil ⟨{}, rfl⟩ hhelp
    have honce : Once (tokens none before) ∧ Once (tokens none globals) := by
      have hearly := (once_append h.once_early).1
      rw [tokens_append h.before_global] at hearly
      exact ⟨(once_append hearly).1, (once_append hearly).2.1⟩
    rcases h.readBefore_early_of_help hne hhelp with ⟨hbefore, hsure', hearly⟩ | ⟨hno, hearly⟩
    · rcases h.readBefore_late_of_help hhelp with ⟨-, -, hlate⟩ | ⟨hno, hlate⟩
      · left
        rw [ofWords_of_stop hearly, ofWords_of_stop hlate]
      · -- the moved options end in a value that is refused
        have hglobals : ¬Consistent (tokens none globals) := fun hglobals =>
          hno ⟨hbefore.of_append, hglobals⟩
        have hends : EndsRefused globals :=
          endsRefused_of_inconsistent h.globals_global honce.2 hsure' hglobals
        exact .inr ⟨ofWords_of_stop halone,
          .inr ⟨hends, ofWords_of_stop hearly, ofWords_of_stop hlate⟩⟩
    · rcases h.readBefore_late_of_help hhelp with ⟨hsure, hglobals, hlate⟩ | ⟨-, hlate⟩
      · -- those that stay do
        have hbefore : ¬Consistent (tokens none before) := fun hbefore =>
          hno ⟨hbefore, hglobals.of_append⟩
        have hends : EndsRefused before :=
          endsRefused_of_inconsistent h.before_global honce.1 hsure hbefore
        exact .inr ⟨ofWords_of_stop halone,
          .inl ⟨hends, ofWords_of_stop hearly, ofWords_of_stop hlate⟩⟩
      · left
        rw [ofWords_of_stop hearly, ofWords_of_stop hlate]
  · left
    by_cases hall : Consistent (tokens none before) ∧ Consistent (tokens none globals) ∧
        Consistent (tokens (some s) behind)
    · obtain ⟨hbefore, hglobals, hbehind⟩ := hall
      exact h.ofWords_eq_of_consistent hbefore hglobals hbehind
    · obtain ⟨hearly, hlate⟩ := h.readBefore_of_inconsistent hhelp hall
      rw [ofWords_of_stop hearly, ofWords_of_stop hlate]

end Movable

/-! ## §5 Runs -/

/-- What two lines have in common that differ in the side of some global options. -/
structure SidesAgree (world : World) (s : Subcommand) (before globals behind : List String) :
    Prop where
  /-- They run alike, unless help is asked for and hides that a value in a word of its own is
  refused on the other side. -/
  same : run world (earlyLine s before globals behind) =
      run world (lateLine s before globals behind) ∨
    Invocation.ofWords world.environment (s.name :: behind) =
          .error (.help (.subcommand s)) ∧
      (EndsRefused before ∧ run world (earlyLine s before globals behind) = .misused ∧
          run world (lateLine s before globals behind) =
            .printed (world.help (.subcommand s)) ∨
        EndsRefused globals ∧ run world (earlyLine s before globals behind) =
            .printed (world.help (.subcommand s)) ∧
          run world (lateLine s before globals behind) = .misused)
  /-- A configuration file that is named on either side is the one that is loaded, whatever the
  environment says. -/
  config : ∀ words ∈ [earlyLine s before globals behind, lateLine s before globals behind], ∀ i,
    Invocation.ofWords world.environment words = .ok i →
      ∀ path, .option .config (some path) ∈ saidOn s before globals behind → i.config = some path
  /-- A format that is named on either side is the one that holds, whatever the configuration
  says. -/
  format : ∀ words ∈ [earlyLine s before globals behind, lateLine s before globals behind], ∀ i,
    Invocation.ofWords world.environment words = .ok i →
      ∀ name, .option .format (some name) ∈ saidOn s before globals behind →
        ∃ f, OutputFormat.ofName? name false = some f ∧ ∀ config, i.formatUnder config = f

/-- How a line ends that leads to no run. -/
def Stop.outcome (world : World) : Stop → Outcome
  | .misused => .misused
  | .version => .printed versionText
  | .help topic => .printed (world.help topic)

theorem run_of_stop {world : World} {stop : Stop}
    (h : Invocation.ofWords world.environment words = .error stop) :
    run world words = stop.outcome world := by
  rw [run, h]
  cases stop <;> rfl

/-- What an accepted line says on either side holds for it. -/
theorem Movable.wins (h : Movable s before globals behind) {i : Invocation}
    (hwords : words ∈ [earlyLine s before globals behind, lateLine s before globals behind])
    (hi : Invocation.ofWords environment words = .ok i) :
    (∀ path, .option .config (some path) ∈ saidOn s before globals behind →
        i.config = some path) ∧
      ∀ name, .option .format (some name) ∈ saidOn s before globals behind →
        ∃ f, OutputFormat.ofName? name false = some f ∧ ∀ config, i.formatUnder config = f := by
  obtain ⟨p, hp, -⟩ := said_of_ofWords hi
  simp only [List.mem_cons, List.not_mem_nil, or_false] at hwords
  -- both lines say the same things, each of them once
  rcases hwords with rfl | rfl
  · obtain ⟨o, b, ho, hb, rfl⟩ := (readBefore_globals_eq_ok h.early_global).mp hp
    rw [← h.said_early]
    exact wins_of_once h.once_early ho hb hp hi
  · obtain ⟨o, b, ho, hb, rfl⟩ := (readBefore_globals_eq_ok h.before_global).mp hp
    rw [← h.said_late]
    exact wins_of_once h.once_late ho hb hp hi

/-- Global options do the same on either side of a subcommand. -/
theorem sidesAgree (world : World) (h : Movable s before globals behind) :
    SidesAgree world s before globals behind where
  same := by
    rcases h.ofWords_alike world.environment with
      halike | ⟨halone, ⟨hends, hearly, hlate⟩ | ⟨hends, hearly, hlate⟩⟩
    · left
      rw [run, run, halike]
    · exact .inr ⟨halone, .inl ⟨hends, run_of_stop hearly, run_of_stop hlate⟩⟩
    · exact .inr ⟨halone, .inr ⟨hends, run_of_stop hearly, run_of_stop hlate⟩⟩
  config words hwords i hi := (h.wins hwords hi).1
  format words hwords i hi := (h.wins hwords hi).2

/-- Options in several spellings, moved behind a subcommand that has one of its own. -/
theorem sidesAgree_of_spellings :
    Movable .serialize ["-v"] ["--format=json", "-c", "a.toml"] ["-i", "t.json", "--no-color"] ∧
      run World.bare
          (earlyLine .serialize ["-v"] ["--format=json", "-c", "a.toml"]
            ["-i", "t.json", "--no-color"]) =
        run World.bare
          (lateLine .serialize ["-v"] ["--format=json", "-c", "a.toml"]
            ["-i", "t.json", "--no-color"]) ∧
      ∀ i, Invocation.ofWords World.bare.environment
          (lateLine .serialize ["-v"] ["--format=json", "-c", "a.toml"]
            ["-i", "t.json", "--no-color"]) = .ok i → i.config = some "a.toml" := by
  have hmovable :
      Movable .serialize ["-v"] ["--format=json", "-c", "a.toml"] ["-i", "t.json", "--no-color"] :=
    ⟨by decide, by decide, by decide⟩
  refine ⟨hmovable, (sidesAgree World.bare hmovable).same.resolve_right ?_, fun i hi => ?_⟩
  · rintro ⟨hhelp, -⟩
    cases hhelp
  · exact (sidesAgree World.bare hmovable).config _ (by simp) i hi "a.toml" (by decide)

/-- A format that is refused behind the subcommand is not noticed in front of it, where help is
asked for behind it. -/
theorem helpHidesRefusal :
    Movable .serialize [] ["--format", "xml"] ["--help"] ∧
      (run World.bare (earlyLine .serialize [] ["--format", "xml"] ["--help"])).exitCode = 0 ∧
      (run World.bare (lateLine .serialize [] ["--format", "xml"] ["--help"])).exitCode = 2 :=
  ⟨⟨by decide, by decide, by decide⟩, rfl, rfl⟩

end CanonicalQuery.CommandLine
