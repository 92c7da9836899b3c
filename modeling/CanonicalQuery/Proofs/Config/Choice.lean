import CanonicalQuery.Config.Loading
import CanonicalQuery.Proofs.Text.Utf8

/-!
# One file decides

Which file is used, and what it gives, are relations on the files and on the directory for
configurations.  The file is the one that was asked for, whatever stands there, or else the first
candidate that is a regular file.  What this file gives is what holds: where it cannot be opened or
read, or is refused, loading fails, and neither another candidate nor the defaults come in its
place.

A candidate that is no regular file is passed over, even if it could be read; and a regular file is
not, even if it cannot be.  So loading looks at two things only: which candidates up to the used one
are regular files, and what opening the used one gives.

## Main definitions

- `Uses`: the file that is used, or none.
- `Gives`: what a used file gives.
- `Broken`: what stands at a path gives no configuration.
- `AgreeUpTo`: two states do not differ in what loading looks at.
- `Decides`: all this of loading.

## Main statements

- `uses_iff`: there is always exactly one answer to which file is used.
- `load_eq_iff`: loading gives what the used file gives.
- `AgreeUpTo.load_eq`: whatever every other file holds.
-/

namespace CanonicalQuery.Config

open CanonicalQuery.Files (Entry Failure Stream)

variable {words : String → String} {entry entry' : String → Entry}
variable {directory directory' explicit used : Option String} {path text : String} {e : Error}

/-! ## §1 The file that is used -/

/-- The file that is used, or none if the defaults hold. -/
inductive Uses (entry : String → Entry) (directory : Option String) :
    Option String → Option String → Prop where
  /-- A file that was asked for is used, whatever stands there. -/
  | explicit (path : String) : Uses entry directory (some path) (some path)
  | candidate {path : String} {front behind : List String} :
      candidates directory = front ++ path :: behind →
      (∀ earlier ∈ front, (entry earlier).isFile = false) → (entry path).isFile = true →
      Uses entry directory none (some path)
  | defaults : (∀ candidate ∈ candidates directory, (entry candidate).isFile = false) →
      Uses entry directory none none

theorem uses_iff : Uses entry directory explicit used ↔
    choose? entry directory explicit = used := by
  cases explicit with
  | some path =>
    constructor
    · rintro ⟨⟩
      rfl
    · rintro rfl
      exact .explicit path
  | none =>
    constructor
    · intro h
      cases h with
      | candidate hcandidates hfront hfile =>
        refine List.find?_eq_some_iff_append.mpr ⟨hfile, _, _, hcandidates, fun p hp => ?_⟩
        simp [hfront p hp]
      | defaults hnone => exact List.find?_eq_none.mpr fun p hp => by simp [hnone p hp]
    · rintro rfl
      rw [choose?]
      -- the search stops at the first regular file, so all in front of it are none
      cases hfound : (candidates directory).find? fun path => (entry path).isFile with
      | some path =>
        obtain ⟨hfile, front, behind, hcandidates, hfront⟩ :=
          List.find?_eq_some_iff_append.mp hfound
        exact .candidate hcandidates (fun p hp => by simpa using hfront p hp) hfile
      | none => exact .defaults fun p hp => by simpa using List.find?_eq_none.mp hfound p hp

/-! ## §2 What a used file gives -/

/-- What a used file gives; without a file it is the default. -/
inductive Gives (words : String → String) (entry : String → Entry) :
    Option String → Except Error Config → Prop where
  | defaults : Gives words entry none (.ok .default)
  /-- Nothing stands there, or it may not be opened. -/
  | closed {path : String} {cause : Failure} :
      (entry path).opened = .error cause → Gives words entry (some path) (.error (.io cause))
  /-- Reading fails, as it does at once for a directory. -/
  | unread {path : String} {octets : ByteArray} {cause : Failure} :
      (entry path).opened = .ok ⟨octets, some cause⟩ →
      Gives words entry (some path) (.error (.io cause))
  | notText {path : String} {octets : ByteArray} :
      (entry path).opened = .ok (.ended octets) → (∀ text : String, octets ≠ text.toUTF8) →
      Gives words entry (some path) (.error (.io .notText))
  /-- The text of the file is read as a configuration, or refused. -/
  | text {path text : String} :
      (entry path).opened = .ok (.ended text.toUTF8) →
      Gives words entry (some path) (ofToml words text)

/-- An open file gives the configuration of its text, or the cause that it has none. -/
theorem ofEntry_of_text {found : Entry} {stream : Stream} {r : Except Failure String}
    (h : found.opened = .ok stream) (htext : stream.text = r) :
    ofEntry words found =
      match r with
      | .error cause => .error (.io cause)
      | .ok text => ofToml words text := by
  have hfound : found.text = r := by
    rw [Entry.text, h]
    exact htext
  rw [ofEntry, hfound]
  cases r <;> rfl

/-- What does not open gives the cause of it. -/
theorem ofEntry_of_closed {found : Entry} {cause : Failure} (h : found.opened = .error cause) :
    ofEntry words found = .error (.io cause) := by
  have hfound : found.text = .error cause := by
    rw [Entry.text, h]
    rfl
  rw [ofEntry, hfound]

/-- A file that is used gives one thing. -/
theorem gives_iff {r : Except Error Config} :
    Gives words entry (some path) r ↔ ofEntry words (entry path) = r := by
  constructor
  · intro h
    cases h with
    | closed hopened => exact ofEntry_of_closed hopened
    | unread hopened => exact ofEntry_of_text hopened rfl
    | notText hopened hnone => exact ofEntry_of_text hopened (Stream.text_of_ne_toUTF8 hnone)
    | text hopened => exact ofEntry_of_text hopened (Stream.text_of_toUTF8 _)
  · rintro rfl
    -- the file opens or not, is read to its end or not, and holds a text or not
    cases hopened : (entry path).opened with
    | error cause =>
      rw [ofEntry_of_closed hopened]
      exact .closed hopened
    | ok stream =>
      rcases stream.cases with ⟨octets, cause, rfl⟩ | ⟨text, rfl⟩ | ⟨octets, rfl, hnone⟩
      · rw [ofEntry_of_text hopened rfl]
        exact .unread hopened
      · rw [ofEntry_of_text hopened (Stream.text_of_toUTF8 text)]
        exact .text hopened
      · rw [ofEntry_of_text hopened (Stream.text_of_ne_toUTF8 hnone)]
        exact .notText hopened hnone

/-- Loading gives what the used file gives, and nothing else. -/
theorem load_eq_iff {r : Except Error Config} (h : Uses entry directory explicit used) :
    load words entry directory explicit = r ↔ Gives words entry used r := by
  rw [load, uses_iff.mp h]
  cases used with
  | some path => exact gives_iff.symm
  | none =>
    constructor
    · rintro rfl
      exact .defaults
    · rintro ⟨⟩
      rfl

/-! ## §3 Broken files -/

/-- An error of a file that cannot be read, or of a text that is no configuration. -/
inductive IoOrConfig : Error → Prop where
  | io (cause : Failure) : IoOrConfig (.io cause)
  | config (detail : String) : IoOrConfig (.config detail)

/-- What stands at a path gives no configuration. -/
inductive Broken (words : String → String) (found : Entry) : Prop where
  | closed {cause : Failure} : found.opened = .error cause → Broken words found
  | unread {octets : ByteArray} {cause : Failure} :
      found.opened = .ok ⟨octets, some cause⟩ → Broken words found
  | notText {octets : ByteArray} : found.opened = .ok (.ended octets) →
      (∀ text : String, octets ≠ text.toUTF8) → Broken words found
  | refused {text : String} {e : Error} : found.opened = .ok (.ended text.toUTF8) →
      ofToml words text = .error e → Broken words found

/-- A text that gives no configuration is told of in the words of its reader. -/
theorem ofToml_eq_error (h : ofToml words text = .error e) : e = .config (words text) := by
  rw [ofToml] at h
  split at h
  · cases h
  · exact (Except.error.inj h).symm

/-- A used file fails to load exactly if it is broken. -/
theorem broken_iff (h : Uses entry directory explicit (some path)) :
    Broken words (entry path) ↔
      ∃ e, IoOrConfig e ∧ load words entry directory explicit = .error e := by
  constructor
  · intro hbroken
    cases hbroken with
    | closed hopened => exact ⟨_, .io _, (load_eq_iff h).mpr (.closed hopened)⟩
    | unread hopened => exact ⟨_, .io _, (load_eq_iff h).mpr (.unread hopened)⟩
    | notText hopened hnone => exact ⟨_, .io .notText, (load_eq_iff h).mpr (.notText hopened hnone)⟩
    | @refused text e hopened hread =>
      obtain rfl := ofToml_eq_error hread
      have hgives : Gives words entry (some path) (ofToml words text) := .text hopened
      rw [hread] at hgives
      exact ⟨_, .config _, (load_eq_iff h).mpr hgives⟩
  · rintro ⟨e, -, hload⟩
    have hgives := (load_eq_iff h).mp hload
    generalize hr : (Except.error e : Except Error Config) = r at hgives
    -- each way to give an error is a way to be broken
    cases hgives with
    | closed hopened => exact .closed hopened
    | unread hopened => exact .unread hopened
    | notText hopened hnone => exact .notText hopened hnone
    | text hopened => exact .refused hopened hr.symm

/-! ## §4 States that do not differ in what decides -/

/-- Two states agree on which candidates are regular files up to the used one, and on what opening
that gives.  Of a file that was asked for nothing else matters. -/
inductive AgreeUpTo (entry entry' : String → Entry) (directory directory' : Option String) :
    Option String → Option String → Prop where
  | explicit {path : String} : (entry' path).opened = (entry path).opened →
      AgreeUpTo entry entry' directory directory' (some path) (some path)
  | candidate {path : String} {front behind behind' : List String} :
      candidates directory = front ++ path :: behind →
      candidates directory' = front ++ path :: behind' →
      (∀ earlier ∈ front, (entry' earlier).isFile = (entry earlier).isFile) →
      (entry' path).isFile = (entry path).isFile →
      (entry' path).opened = (entry path).opened →
      AgreeUpTo entry entry' directory directory' none (some path)
  | defaults : candidates directory' = candidates directory →
      (∀ candidate ∈ candidates directory,
        (entry' candidate).isFile = (entry candidate).isFile) →
      AgreeUpTo entry entry' directory directory' none none

theorem AgreeUpTo.uses (ha : AgreeUpTo entry entry' directory directory' explicit used)
    (h : Uses entry directory explicit used) : Uses entry' directory' explicit used := by
  cases ha with
  | explicit => exact .explicit _
  | @candidate path front behind behind' hcandidates hcandidates' hfront hsameFile =>
    have hfile : (entry path).isFile = true := by
      cases h
      assumption
    -- up to the used path, both searches get the same answers
    have hsame : front.find? (fun p => (entry' p).isFile) =
        front.find? (fun p => (entry p).isFile) := by
      rw [← List.head?_filter, ← List.head?_filter, List.filter_congr hfront]
    rw [uses_iff, choose?, hcandidates, List.find?_append, List.find?_cons, hfile] at h
    rw [uses_iff, choose?, hcandidates', List.find?_append, List.find?_cons, hsameFile, hfile,
      hsame]
    exact h
  | defaults hcandidates hsame =>
    cases h with
    | defaults hnone =>
      refine .defaults fun p hp => ?_
      rw [hcandidates] at hp
      rw [hsame p hp, hnone p hp]

/-- What an entry gives depends on what opening it gives. -/
theorem ofEntry_congr {found found' : Entry} (h : found'.opened = found.opened) :
    ofEntry words found' = ofEntry words found := by
  rw [ofEntry, ofEntry, Entry.text, Entry.text, h]

/-- Whatever every other file holds, loading gives the same. -/
theorem AgreeUpTo.load_eq (ha : AgreeUpTo entry entry' directory directory' explicit used)
    (h : Uses entry directory explicit used) :
    load words entry' directory' explicit = load words entry directory explicit := by
  rw [load, load, uses_iff.mp h, uses_iff.mp (ha.uses h)]
  cases ha with
  | explicit hopened => exact ofEntry_congr hopened
  | candidate _ _ _ _ hopened => exact ofEntry_congr hopened
  | defaults => rfl

/-- What loading depends on, and what it gives. -/
structure Decides (words : String → String) (entry : String → Entry)
    (directory explicit : Option String) : Prop where
  /-- One file is used, or none. -/
  unique : ∃ used, Uses entry directory explicit used ∧
    ∀ other, Uses entry directory explicit other → other = used
  /-- What that file gives is what holds. -/
  gives : ∀ {used}, Uses entry directory explicit used →
    ∀ r, load words entry directory explicit = r ↔ Gives words entry used r
  /-- A broken file is not passed over. -/
  fails : ∀ {path}, Uses entry directory explicit (some path) →
    (Broken words (entry path) ↔
      ∃ e, IoOrConfig e ∧ load words entry directory explicit = .error e)
  /-- No other file has a part in it. -/
  agrees : ∀ {entry' directory' used}, Uses entry directory explicit used →
    AgreeUpTo entry entry' directory directory' explicit used →
    Uses entry' directory' explicit used ∧
      load words entry' directory' explicit = load words entry directory explicit

theorem decides (words : String → String) (entry : String → Entry)
    (directory explicit : Option String) : Decides words entry directory explicit where
  unique := ⟨choose? entry directory explicit, uses_iff.mpr rfl,
    fun _ h => (uses_iff.mp h).symm⟩
  gives h _ := load_eq_iff h
  fails := broken_iff
  agrees h ha := ⟨ha.uses h, ha.load_eq h⟩

end CanonicalQuery.Config
