import CanonicalQuery.Proofs.CommandLine.Tokens

/-!
# What options say

Options say what they were told and nothing else, and what they say is never taken back, for an
option that was told already is refused.  So options that are told apart from each other may be put
beside each other: it makes no difference which of them were told first.

## Main definitions

- `Options.Takes`: a token that options can take, and what they say then.
- `Options.Has`, `Options.Lacks`: what options say.
- `Options.or`: options with others beside them.
- `Consistent`: what options can be told from the start on.

## Main statements

- `Options.has_of_takeAll`, `Options.lacks_of_takeAll`: options say what they were told, and nothing
  else.
- `Options.takeAll_or`: options taken beside others that say nothing of them.
- `Options.takeAll_eq_error`: how options are refused.
- `consistent_append`: options that are told apart are consistent together if they are so alone.
-/

namespace CanonicalQuery.CommandLine

variable {o o' m : Options} {t : Token} {ts us : List Token} {flag : Flag} {stop : Stop}

namespace Options

/-! ## §1 One token -/

/-- A token that options can take, and what they say then. -/
inductive Takes (o : Options) : Token → Options → Prop where
  | format {name : String} {f : OutputFormat} :
      OutputFormat.ofName? name false = some f → o.format = none →
      Takes o (.option .format (some name)) { o with format := some f }
  | config {path : String} :
      path ≠ "" → o.config = none →
      Takes o (.option .config (some path)) { o with config := some path }
  | input {path : String} :
      path ≠ "" → o.input = none →
      Takes o (.option .input (some path)) { o with input := some path }
  | noColor : o.noColor = false → Takes o (.option .noColor none) { o with noColor := true }
  | verbose : o.verbose = false → Takes o (.option .verbose none) { o with verbose := true }
  | dashes : Takes o .dashes o

/-- A token that is taken is one that options can take. -/
theorem takes_of_take (h : o.take t = .ok o') : o.Takes t o' := by
  cases t with
  | dashes =>
    obtain rfl := Except.ok.inj h
    exact .dashes
  | bad => cases h
  | option flag value =>
    -- only three options take a value, and two others are taken without one
    cases value with
    | some value =>
      cases flag with
      | format =>
        rw [take, Level.put] at h
        split at h
        · next hfree hname =>
          obtain rfl := Except.ok.inj h
          exact .format hname hfree
        · cases h
      | config =>
        rw [take, Level.put] at h
        split at h
        · next hfree =>
          obtain rfl := Except.ok.inj h
          exact .config hfree.2 (Option.isNone_iff_eq_none.mp hfree.1)
        · cases h
      | input =>
        rw [take, Level.put] at h
        split at h
        · next hfree =>
          obtain rfl := Except.ok.inj h
          exact .input hfree.2 (Option.isNone_iff_eq_none.mp hfree.1)
        · cases h
      | noColor | verbose | version | help => cases h
    | none =>
      obtain ⟨next, hnext, rfl⟩ := map_eq_ok.mp h
      cases flag with
      | noColor =>
        rw [Level.raise_noColor] at hnext
        split at hnext
        · cases hnext
        · next hfree =>
          obtain rfl := Except.ok.inj hnext
          exact .noColor (Bool.eq_false_iff.mpr hfree)
      | verbose =>
        rw [Level.raise_verbose] at hnext
        split at hnext
        · cases hnext
        · next hfree =>
          obtain rfl := Except.ok.inj hnext
          exact .verbose (Bool.eq_false_iff.mpr hfree)
      | format | config | input | version | help => cases hnext

/-- Options say nothing of an option. -/
def Lacks (o : Options) : Flag → Prop
  | .format => o.format = none
  | .config => o.config = none
  | .input => o.input = none
  | .noColor => o.noColor = false
  | .verbose => o.verbose = false
  | .version | .help => True

theorem lacks_empty (flag : Flag) : Lacks {} flag := by
  cases flag <;> trivial

/-- Options say what a token says. -/
def Has (o : Options) : Token → Prop
  | .option .format (some name) =>
    ∃ f, OutputFormat.ofName? name false = some f ∧ o.format = some f
  | .option .config (some path) => o.config = some path
  | .option .input (some path) => o.input = some path
  | .option .noColor none => o.noColor = true
  | .option .verbose none => o.verbose = true
  | .dashes => True
  | _ => False

/-- What options took, they say. -/
theorem Takes.has (h : o.Takes t o') : o'.Has t := by
  cases h with
  | format hname => exact ⟨_, hname, rfl⟩
  | config | input | noColor | verbose => rfl
  | dashes => trivial

/-- What options say is not taken back. -/
theorem Takes.keeps {u : Token} (h : o.Takes t o') (hu : o.Has u) : o'.Has u := by
  -- every field that was set stays as it was
  have hkeeps : (∀ f, o.format = some f → o'.format = some f) ∧
      (∀ path, o.config = some path → o'.config = some path) ∧
      (∀ path, o.input = some path → o'.input = some path) ∧
      (o.noColor = true → o'.noColor = true) ∧ (o.verbose = true → o'.verbose = true) := by
    cases h <;> simp_all
  obtain ⟨hformat, hconfig, hinput, hnoColor, hverbose⟩ := hkeeps
  unfold Has at hu ⊢
  split at hu
  · obtain ⟨f, hname, hf⟩ := hu
    exact ⟨f, hname, hformat f hf⟩
  · exact hconfig _ hu
  · exact hinput _ hu
  · exact hnoColor hu
  · exact hverbose hu
  · trivial
  · exact hu.elim

/-- A token says nothing of other options. -/
theorem Takes.lacks (h : o.Takes t o') (hother : t.flag? ≠ some flag) (ho : o.Lacks flag) :
    o'.Lacks flag := by
  cases h <;> cases flag <;> simp_all [Lacks, Token.flag?]

/-! ## §2 All tokens -/

theorem takeAll_cons_eq_ok : o.takeAll (t :: ts) = .ok o' ↔
    ∃ next, o.take t = .ok next ∧ next.takeAll ts = .ok o' := by
  rw [takeAll_cons, bind_eq_ok]

/-- What options say is not taken back by more tokens. -/
theorem has_of_has {u : Token} (h : o.takeAll ts = .ok o') (hu : o.Has u) : o'.Has u := by
  induction ts generalizing o with
  | nil =>
    obtain rfl := Except.ok.inj h
    exact hu
  | cons t ts ih =>
    obtain ⟨next, hnext, h⟩ := takeAll_cons_eq_ok.mp h
    exact ih h ((takes_of_take hnext).keeps hu)

/-- Options say all that they were told. -/
theorem has_of_takeAll (h : o.takeAll ts = .ok o') (ht : t ∈ ts) : o'.Has t := by
  induction ts generalizing o with
  | nil => cases ht
  | cons u ts ih =>
    obtain ⟨next, hnext, hrest⟩ := takeAll_cons_eq_ok.mp h
    rcases List.mem_cons.mp ht with rfl | ht
    -- the token is said once it is taken, and the others keep it
    · exact has_of_has hrest (takes_of_take hnext).has
    · exact ih hrest ht

theorem mem_flagsOf_cons : flag ∈ flagsOf (t :: ts) ↔ t.flag? = some flag ∨ flag ∈ flagsOf ts := by
  simp [flagsOf]

/-- They say nothing else. -/
theorem lacks_of_takeAll (h : o.takeAll ts = .ok o') (hother : flag ∉ flagsOf ts)
    (ho : o.Lacks flag) : o'.Lacks flag := by
  induction ts generalizing o with
  | nil =>
    obtain rfl := Except.ok.inj h
    exact ho
  | cons t ts ih =>
    obtain ⟨next, hnext, h⟩ := takeAll_cons_eq_ok.mp h
    obtain ⟨ht, hts⟩ := not_or.mp (mt mem_flagsOf_cons.mpr hother)
    exact ih h hts ((takes_of_take hnext).lacks ht ho)

/-! ## §3 Options beside others -/

/-- Options with others beside them, which count where these say nothing. -/
def or (o m : Options) : Options where
  format := o.format <|> m.format
  config := o.config <|> m.config
  input := o.input <|> m.input
  noColor := o.noColor || m.noColor
  verbose := o.verbose || m.verbose

theorem empty_or (m : Options) : or {} m = m := by
  simp [or]

/-- Other options do not matter to a token that they say nothing of. -/
theorem take_or (h : ∀ flag, t.flag? = some flag → m.Lacks flag) :
    (o.or m).take t = (o.take t).map fun o => o.or m := by
  obtain ⟨format, config, input, noColor, verbose⟩ := o
  obtain ⟨format', config', input', noColor', verbose'⟩ := m
  cases t with
  | dashes | bad => rfl
  | option flag value =>
    have hm : Lacks ⟨format', config', input', noColor', verbose'⟩ flag := h flag rfl
    cases value with
    | some value =>
      cases flag with
      -- the field in question is empty in `m`, the others are not looked at
      | format =>
        obtain rfl : format' = none := hm
        cases format with
        | some f => rfl
        | none =>
          rw [take, take, Level.put, Level.put]
          cases OutputFormat.ofName? value false <;> rfl
      | config =>
        obtain rfl : config' = none := hm
        by_cases hvalue : value = "" <;> cases config <;> simp [take, Level.put, or, hvalue] <;> rfl
      | input =>
        obtain rfl : input' = none := hm
        by_cases hvalue : value = "" <;> cases input <;> simp [take, Level.put, or, hvalue] <;> rfl
      | noColor | verbose | version | help => rfl
    | none =>
      cases flag with
      | noColor =>
        obtain rfl : noColor' = false := hm
        cases noColor <;> rfl
      | verbose =>
        obtain rfl : verbose' = false := hm
        cases verbose <;> rfl
      | format | config | input | version | help => rfl

/-- Options that are told beside others that say nothing of it. -/
theorem takeAll_or (h : ∀ flag ∈ flagsOf ts, m.Lacks flag) :
    (o.or m).takeAll ts = (o.takeAll ts).map fun o => o.or m := by
  induction ts generalizing o with
  | nil => rfl
  | cons t ts ih =>
    have ht : (o.or m).take t = (o.take t).map fun o => o.or m :=
      take_or fun flag hflag => h flag (mem_flagsOf_cons.mpr (.inl hflag))
    have hts (flag : Flag) (hflag : flag ∈ flagsOf ts) : m.Lacks flag :=
      h flag (mem_flagsOf_cons.mpr (.inr hflag))
    rw [takeAll_cons, takeAll_cons, ht, map_bind, bind_map]
    exact bind_congr_ok fun next _ => ih hts

/-- What is told apart is taken one beside the other. -/
theorem takeAll_append_apart (h : ∀ flag ∈ flagsOf us, flag ∉ flagsOf ts) :
    takeAll {} (ts ++ us) = takeAll {} ts >>= fun m => (takeAll {} us).map fun o => o.or m := by
  rw [takeAll_append]
  refine bind_congr_ok fun m hm => ?_
  -- the first tokens say nothing of the options that follow
  have hlacks (flag : Flag) (hflag : flag ∈ flagsOf us) : m.Lacks flag :=
    lacks_of_takeAll hm (h flag hflag) (lacks_empty flag)
  calc m.takeAll us = (or {} m).takeAll us := by rw [empty_or]
    _ = (takeAll {} us).map fun o => o.or m := takeAll_or hlacks

/-! ## §4 What is refused -/

/-- An option is refused as a misuse, unless it asks for the version or for help. -/
theorem take_eq_error (h : o.take t = .error stop) :
    stop = .misused ∨ stop = .version ∧ t.flag? = some .version ∨
      stop = .help .program ∧ t.flag? = some .help := by
  cases t with
  | dashes => cases h
  | bad => exact .inl (Except.error.inj h).symm
  | option flag value =>
    cases value with
    | some value => exact .inl (Level.put_eq_error h)
    | none =>
      -- of the options without value two end the reading
      have hraise : Level.raise ⟨o, none⟩ flag = .error stop := map_eq_error.mp h
      cases flag with
      | format | config | input => exact .inl (Except.error.inj hraise).symm
      | version => exact .inr (.inl ⟨(Except.error.inj hraise).symm, rfl⟩)
      | help => exact .inr (.inr ⟨(Except.error.inj hraise).symm, rfl⟩)
      | noColor =>
        rw [Level.raise_noColor] at hraise
        split at hraise
        · exact .inl (Except.error.inj hraise).symm
        · cases hraise
      | verbose =>
        rw [Level.raise_verbose] at hraise
        split at hraise
        · exact .inl (Except.error.inj hraise).symm
        · cases hraise

/-- Tokens are refused as a misuse, unless one of them asks for the version or for help. -/
theorem takeAll_eq_error (h : o.takeAll ts = .error stop) :
    stop = .misused ∨ stop = .version ∧ .version ∈ flagsOf ts ∨
      stop = .help .program ∧ .help ∈ flagsOf ts := by
  induction ts generalizing o with
  | nil => cases h
  | cons t ts ih =>
    rw [takeAll_cons] at h
    cases ht : o.take t with
    -- the first token is refused
    | error stop' =>
      rw [ht] at h
      obtain rfl : stop' = stop := Except.error.inj h
      refine (take_eq_error ht).imp_right (Or.imp ?_ ?_)
      · exact And.imp_right fun hflag => mem_flagsOf_cons.mpr (.inl hflag)
      · exact And.imp_right fun hflag => mem_flagsOf_cons.mpr (.inl hflag)
    -- the first token is taken, and another one is refused
    | ok next =>
      rw [ht] at h
      refine (ih h).imp_right (Or.imp ?_ ?_)
      · exact And.imp_right fun hflag => mem_flagsOf_cons.mpr (.inr hflag)
      · exact And.imp_right fun hflag => mem_flagsOf_cons.mpr (.inr hflag)

end Options

/-- What options can be told from the start on. -/
def Consistent (ts : List Token) : Prop :=
  ∃ o, Options.takeAll {} ts = .ok o

/-- What is consistent together is so in front. -/
theorem Consistent.of_append (h : Consistent (ts ++ us)) : Consistent ts := by
  obtain ⟨o, ho⟩ := h
  rw [Options.takeAll_append] at ho
  obtain ⟨m, hm, -⟩ := bind_eq_ok.mp ho
  exact ⟨m, hm⟩

theorem not_consistent_iff : ¬Consistent ts ↔ ∃ stop, Options.takeAll {} ts = .error stop := by
  rw [Consistent]
  cases Options.takeAll {} ts with
  | error stop => simp
  | ok o => simp

/-- Tokens that say different options are consistent together just if they are apart. -/
theorem consistent_append (h : ∀ flag ∈ flagsOf us, flag ∉ flagsOf ts) :
    Consistent (ts ++ us) ↔ Consistent ts ∧ Consistent us := by
  rw [Consistent, Options.takeAll_append_apart h]
  constructor
  · rintro ⟨o, ho⟩
    obtain ⟨m, hm, ho⟩ := bind_eq_ok.mp ho
    obtain ⟨o', ho', -⟩ := map_eq_ok.mp ho
    exact ⟨⟨m, hm⟩, ⟨o', ho'⟩⟩
  · rintro ⟨⟨m, hm⟩, ⟨o', ho'⟩⟩
    exact ⟨_, bind_eq_ok.mpr ⟨m, hm, map_eq_ok.mpr ⟨o', ho', rfl⟩⟩⟩

end CanonicalQuery.CommandLine
