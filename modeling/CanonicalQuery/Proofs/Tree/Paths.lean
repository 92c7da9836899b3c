import CanonicalQuery.Proofs.Text.Pieces
import CanonicalQuery.Tree.Defect

/-!
# Paths are known from their texts

The text of a path puts a point before each key and brackets around each index.  Keys in general may
hold points and brackets themselves; the keys on the path of a defect do not, since a defect only
lies below the keys of a few attributes.  Among the paths with such keys, each text stands for one
path.

## Main definitions

- `partNames`: the attributes under which other parts of an attribute tree stand.
- `Path.Known`: paths whose keys are all among these.

`Path.text_injective` says that no two of these paths have the same text.
-/

namespace CanonicalQuery.Tree

open CanonicalQuery.Json

/-! ## §1 Keys on a path -/

/-- The attributes under which nodes, markers and ranges stand. -/
def partNames : List String :=
  ["group", "operand", "unary_operator", "inclusive_range", "exclusive_range"]

/-- The step goes to an item, or to the value of one of these attributes. -/
def Step.Known : Step → Prop
  | .index _ => True
  | .key name => name ∈ partNames

def Path.Known (path : Path) : Prop :=
  ∀ step ∈ path, step.Known

theorem Path.known_nil : Path.Known [] := by
  simp [Path.Known]

theorem Path.known_cons {step : Step} {path : Path} (hstep : step.Known) (hpath : path.Known) :
    Path.Known (step :: path) := by
  simpa [Path.Known] using ⟨hstep, hpath⟩

/-! ## §2 Steps are known from their texts -/

/-- The characters with which steps begin. -/
def stepStarts : List Char := ['.', '[']

def Step.start : Step → Char
  | .index _ => '['
  | .key _ => '.'

/-- What a step writes behind its first character. -/
def Step.body : Step → List Char
  | .index position => Nat.toDigits 10 position ++ [']']
  | .key name => name.toList

theorem Step.toList_text (step : Step) : step.text.toList = step.start :: step.body := by
  cases step with
  | index position => simp [Step.text, Step.start, Step.body]
  | key name => simp [Step.text, Step.start, Step.body]

theorem Step.start_mem (step : Step) : step.start ∈ stepStarts := by
  cases step <;> simp [Step.start, stepStarts]

/-- No step begins within another one. -/
theorem Step.not_mem_stepStarts {step : Step} (h : step.Known) :
    ∀ c ∈ step.body, c ∉ stepStarts := by
  -- an index is written in digits, and the names of parts are a closed list
  cases step with
  | index position =>
    intro c hc
    rcases List.mem_append.mp hc with hdigit | hbracket
    · have hc : c.isDigit := Nat.isDigit_of_mem_toDigits (by decide) (by decide) hdigit
      simp only [stepStarts, List.mem_cons, List.not_mem_nil, or_false]
      rintro (rfl | rfl)
      · exact absurd hc (by decide)
      · exact absurd hc (by decide)
    · obtain rfl := List.mem_singleton.mp hbracket
      decide
  | key name =>
    have hnames : ∀ name ∈ partNames, ∀ c ∈ name.toList, c ∉ stepStarts := by
      simp [partNames, stepStarts]
    exact hnames name h

theorem Step.eq_of_body_eq {s t : Step} (hstart : s.start = t.start) (hbody : s.body = t.body) :
    s = t := by
  cases s with
  | index i =>
    cases t with
    | index j =>
      have hdigits : Nat.toDigits 10 i = Nat.toDigits 10 j := List.append_cancel_right hbody
      rw [eq_of_toDigits_eq hdigits]
    | key name => simp [Step.start] at hstart
  | key name =>
    cases t with
    | index j => simp [Step.start] at hstart
    | key name' => rw [String.toList_inj.mp hbody]

/-! ## §3 Paths are known from their texts -/

/-- The text of the steps of a path. -/
def Path.stepTexts (path : Path) : List Char :=
  path.flatMap fun step => step.text.toList

theorem Path.toList_text (path : Path) : path.text.toList = '$' :: path.stepTexts := by
  simp [Path.text, Path.stepTexts, List.flatMap_map]

theorem Path.stopsAt_stepTexts (path : Path) : StopsAt stepStarts path.stepTexts := by
  cases path with
  | nil => exact stopsAt_nil stepStarts
  | cons step path =>
    rw [Path.stepTexts, List.flatMap_cons, Step.toList_text]
    exact stopsAt_cons step.start_mem _

theorem Path.eq_of_stepTexts_eq : ∀ {p q : Path}, p.Known → q.Known →
    p.stepTexts = q.stepTexts → p = q
  | [], [], _, _, _ => rfl
  | [], step :: q, _, _, h => by simp [Path.stepTexts, Step.toList_text] at h
  | step :: p, [], _, _, h => by simp [Path.stepTexts, Step.toList_text] at h
  | s :: p, t :: q, hp, hq, h => by
    obtain ⟨hs, hp'⟩ := List.forall_mem_cons.mp hp
    obtain ⟨ht, hq'⟩ := List.forall_mem_cons.mp hq
    -- the first step ends where the second one starts
    have hchars : s.start :: (s.body ++ Path.stepTexts p)
        = t.start :: (t.body ++ Path.stepTexts q) := by
      simpa [Path.stepTexts, Step.toList_text] using h
    obtain ⟨hstart, htail⟩ := List.cons.inj hchars
    obtain ⟨hbody, hrest⟩ := append_inj_of_stopsAt (Step.not_mem_stepStarts hs)
      (Step.not_mem_stepStarts ht) (Path.stopsAt_stepTexts p) (Path.stopsAt_stepTexts q) htail
    rw [Step.eq_of_body_eq hstart hbody, Path.eq_of_stepTexts_eq hp' hq' hrest]

/-- Paths with known keys and the same text are the same. -/
theorem Path.text_injective {p q : Path} (hp : p.Known) (hq : q.Known) (h : p.text = q.text) :
    p = q := by
  apply Path.eq_of_stepTexts_eq hp hq
  have hchars := congrArg String.toList h
  rw [Path.toList_text, Path.toList_text] at hchars
  exact (List.cons.inj hchars).2

end CanonicalQuery.Tree
