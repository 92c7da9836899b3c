import CanonicalQuery.Proofs.Toml.Distinct

/-!
# What a document says

A document is a row of statements, the assignments at its top and its sections, and each of them
adds to the table of the document.  What comes to stand under a key is decided by the statements
about this key alone, whatever stands between them.  If it is a table, these statements are at the
same time a row of statements on the entries of that table, however they are spelled: as lines
below its header, with dotted keys, or within braces.

## Main definitions

- `Statement`, `Document.statements`: the statements of a document.
- `Statement.about`: the statements about a key.
- `Statement.inside`: what a statement says inside of the table that it is about.
- `Document.told`: what a document tells about a key inside of a table.

## Main statements

- `Document.get?_eq_of_about`: documents that say the same about a key have the same under it.
- `Document.get?_eq_of_told`: so do documents that tell the same about a key inside of a table.
-/

namespace CanonicalQuery.Toml

/-- A part of a document that adds to its table: an assignment, or a section. -/
inductive Statement where
  | line (a : Assignment)
  | block (s : Section)
  deriving Repr, Inhabited

namespace Statement

variable {key : String} {s : Statement} {statements : List Statement}
variable {entries entries' inner' : Entries}

/-! ## §1 Statements -/

/-- The key that a statement is about: the first one of its path. -/
def first : Statement → String
  | .line a => a.path.headD a.key
  | .block ⟨.table path key, _⟩ => path.headD key
  | .block ⟨.element path key, _⟩ => path.headD key

/-- Add what a statement says to a table. -/
def addTo? : Statement → Entries → Option Entries
  | .line a => Entries.put? a.path a.key a.value
  | .block s => s.addTo?

/-- The table that statements make of a table, one after the other. -/
def run? (statements : List Statement) (entries : Entries) : Option Entries :=
  statements.foldlM (fun entries s => s.addTo? entries) entries

theorem run?_cons_eq_some : run? (s :: statements) entries = some entries' ↔
    ∃ added, s.addTo? entries = some added ∧ run? statements added = some entries' :=
  Option.bind_eq_some_iff

theorem run?_append (earlier later : List Statement) (entries : Entries) :
    run? (earlier ++ later) entries = (run? earlier entries).bind (run? later) :=
  List.foldlM_append

theorem run?_lines (assignments : List Assignment) (entries : Entries) :
    run? (assignments.map .line) entries = Entries.assign? assignments entries :=
  List.foldlM_map

theorem run?_blocks (sections : List Section) (entries : Entries) :
    run? (sections.map .block) entries =
      sections.foldlM (fun entries s => s.addTo? entries) entries :=
  List.foldlM_map

theorem actsAt_addTo? (s : Statement) : Entries.ActsAt s.first s.addTo? := by
  cases s with
  | line a => exact Entries.actsAt_put? a.path a.key a.value
  | block s =>
    obtain ⟨header, assignments⟩ := s
    cases header with
    | table path key => exact Entries.actsAt_within? (Entries.actsAt_declare? _ key) path
    | element path key => exact Entries.actsAt_within? (Entries.actsAt_append? _ key) path

/-! ## §2 Statements about a key -/

/-- The statements about a key. -/
def about (key : String) (statements : List Statement) : List Statement :=
  statements.filter fun s => s.first = key

theorem about_cons_self (h : s.first = key) (statements : List Statement) :
    about key (s :: statements) = s :: about key statements :=
  List.filter_cons_of_pos (by simpa using h)

theorem about_cons_of_ne (h : s.first ≠ key) (statements : List Statement) :
    about key (s :: statements) = about key statements :=
  List.filter_cons_of_neg (by simpa using h)

/-- What stands under a key after all statements, stands there after those about the key. -/
theorem run?_about {others : Entries} (hsame : Entries.get? key others = Entries.get? key entries)
    (h : run? statements entries = some entries') :
    ∃ others', run? (about key statements) others = some others' ∧
      Entries.get? key others' = Entries.get? key entries' := by
  -- both tables stay alike under the key, though they differ elsewhere
  induction statements generalizing entries others with
  | nil =>
    obtain rfl := Option.some.inj h
    exact ⟨others, rfl, hsame⟩
  | cons s rest ih =>
    obtain ⟨added, hadd, hrest⟩ := run?_cons_eq_some.mp h
    by_cases hfirst : s.first = key
    · subst hfirst
      obtain ⟨added', hadd', hsame'⟩ := s.actsAt_addTo?.mirrored hsame hadd
      obtain ⟨others', hrun, hlast⟩ := ih hsame' hrest
      refine ⟨others', ?_, hlast⟩
      rw [about_cons_self rfl]
      exact run?_cons_eq_some.mpr ⟨added', hadd', hrun⟩
    · have hframe := s.actsAt_addTo?.frame hadd key (Ne.symm hfirst)
      rw [about_cons_of_ne hfirst]
      exact ih (hsame.trans hframe.symm) hrest

/-! ## §3 Statements inside of a table -/

/-- The assignments that give a table these entries. -/
def linesOf (entries : Entries) : List Statement :=
  entries.map fun (key, value) => .line { path := [], key, value }

/-- What a statement says inside of the table that it is about.  One that gives no table says
nothing. -/
def inside : Statement → List Statement
  | .line ⟨[], _, .table _ entries⟩ => linesOf entries
  | .line ⟨[], _, _⟩ => []
  | .line ⟨_ :: path, key, value⟩ => [.line ⟨path, key, value⟩]
  | .block ⟨.table [] _, assignments⟩ => assignments.map .line
  | .block ⟨.table (_ :: path) key, assignments⟩ => [.block ⟨.table path key, assignments⟩]
  | .block ⟨.element [] _, _⟩ => []
  | .block ⟨.element (_ :: path) key, assignments⟩ => [.block ⟨.element path key, assignments⟩]

/-- A table that repeats no key is made by assignments of its entries. -/
theorem run?_linesOf {front : Entries} (h : Entries.Distinct (front ++ entries)) :
    run? (linesOf entries) front = some (front ++ entries) := by
  induction entries generalizing front with
  | nil =>
    rw [List.append_nil]
    rfl
  | cons entry rest ih =>
    have hmissing : Entries.get? entry.1 front = none := Entries.missing_of_distinct h
    have hput : addTo? (.line ⟨[], entry.1, entry.2⟩) front = some (front ++ [entry]) := by
      rw [addTo?, Entries.put?, hmissing]
      rfl
    rw [List.append_cons] at h ⊢
    exact run?_cons_eq_some.mpr ⟨front ++ [entry], hput, ih h⟩

/-- A statement with a value that repeats no key. -/
def Distinct : Statement → Prop
  | .line a => a.value.Distinct
  | .block _ => True

theorem run?_singleton : run? [s] entries = s.addTo? entries := by
  rw [run?, List.foldlM_cons]
  cases s.addTo? entries <;> rfl

/-- A statement about a table is a row of statements inside of it. -/
theorem inside_step (hs : s.Distinct) (hadd : s.addTo? entries = some entries')
    (h : Entries.TableAt s.first entries' inner') :
    ∃ inner, Entries.TableAt s.first entries inner ∧ run? s.inside inner = some inner' := by
  -- a statement at the table itself says what it holds; one with a longer path is a statement
  -- inside of it, a step shorter
  cases s with
  | line a =>
    obtain ⟨path, key, value⟩ := a
    cases path with
    | nil =>
      obtain ⟨hmissing, definition, rfl⟩ := h.put?_nil hadd
      exact ⟨[], hmissing, run?_linesOf (hs _ _ rfl)⟩
    | cons step path =>
      obtain ⟨inner, hinner, hput⟩ := h.put?_cons hadd
      exact ⟨inner, hinner, run?_singleton.trans hput⟩
  | block s =>
    obtain ⟨header, assignments⟩ := s
    cases header with
    | table path key =>
      cases path with
      | nil =>
        obtain ⟨inner, hinner, hfill⟩ := h.declare? hadd
        exact ⟨inner, hinner, (run?_lines _ _).trans hfill⟩
      | cons step path =>
        obtain ⟨inner, hinner, hput⟩ := h.within?_cons hadd
        exact ⟨inner, hinner, run?_singleton.trans hput⟩
    -- an element of an array is no table, so only a longer path leads into one
    | element path key =>
      cases path with
      | nil => exact absurd h (Entries.TableAt.not_append? hadd)
      | cons step path =>
        obtain ⟨inner, hinner, hput⟩ := h.within?_cons hadd
        exact ⟨inner, hinner, run?_singleton.trans hput⟩

/-- Statements about a table are a row of statements inside of it. -/
theorem run?_inside (hdistinct : ∀ s ∈ statements, s.Distinct)
    (hfirst : ∀ s ∈ statements, s.first = key) (hrun : run? statements entries = some entries')
    (h : Entries.TableAt key entries' inner') :
    ∃ inner, Entries.TableAt key entries inner ∧
      run? (statements.flatMap inside) inner = some inner' := by
  induction statements generalizing entries with
  | nil =>
    obtain rfl := Option.some.inj hrun
    exact ⟨inner', h, rfl⟩
  | cons s rest ih =>
    obtain ⟨added, hadd, hrest⟩ := run?_cons_eq_some.mp hrun
    -- the last table tells what stood there before: no step turns another item into a table
    obtain ⟨middle, hmiddle, hrest⟩ := ih (fun t ht => hdistinct t (List.mem_cons_of_mem s ht))
      (fun t ht => hfirst t (List.mem_cons_of_mem s ht)) hrest
    obtain rfl := hfirst s List.mem_cons_self
    obtain ⟨inner, hinner, hs⟩ := inside_step (hdistinct s List.mem_cons_self) hadd hmiddle
    refine ⟨inner, hinner, ?_⟩
    rw [List.flatMap_cons, run?_append, hs, Option.bind_some, hrest]

end Statement

/-! ## §4 Documents -/

namespace Document

open Statement (run?)

variable {d d' : Document} {table key : String} {entries entries' inner inner' : Entries}

/-- The statements of a document. -/
def statements (d : Document) : List Statement :=
  d.top.map .line ++ d.sections.map .block

theorem entries?_eq_run? (d : Document) : d.entries? = run? d.statements [] := by
  rw [statements, Statement.run?_append, Statement.run?_lines, entries?]
  exact congrArg (Option.bind _) (funext fun entries => (Statement.run?_blocks _ entries).symm)

theorem Distinct.statement (h : d.Distinct) : ∀ s ∈ d.statements, s.Distinct := by
  intro s hs
  rcases List.mem_append.mp hs with hs | hs
  · obtain ⟨a, ha, rfl⟩ := List.mem_map.mp hs
    exact h a ha
  · obtain ⟨_, -, rfl⟩ := List.mem_map.mp hs
    trivial

/-- What a document says about a key. -/
def about (key : String) (d : Document) : List Statement :=
  Statement.about key d.statements

/-- What a document tells about a key inside of a table. -/
def told (table key : String) (d : Document) : List Statement :=
  Statement.about key ((d.about table).flatMap Statement.inside)

/-- What stands under a key is made by the statements about it alone. -/
theorem exists_run?_about (h : d.entries? = some entries) (key : String) :
    ∃ alone, run? (d.about key) [] = some alone ∧
      Entries.get? key alone = Entries.get? key entries := by
  rw [entries?_eq_run?] at h
  exact Statement.run?_about rfl h

/-- Documents that say the same about a key have the same under it. -/
theorem get?_eq_of_about (h : d.entries? = some entries) (h' : d'.entries? = some entries')
    (hsame : d'.about key = d.about key) :
    Entries.get? key entries' = Entries.get? key entries := by
  obtain ⟨alone, hrun, hget⟩ := exists_run?_about h key
  obtain ⟨alone', hrun', hget'⟩ := exists_run?_about h' key
  rw [hsame, hrun] at hrun'
  obtain rfl := Option.some.inj hrun'
  exact hget'.symm.trans hget

/-- What stands under a key inside of a table is made by what is told about it alone. -/
theorem exists_run?_told (hd : d.Distinct) (h : d.entries? = some entries)
    (ht : Entries.TableAt table entries inner) (key : String) :
    ∃ alone, run? (d.told table key) [] = some alone ∧
      Entries.get? key alone = Entries.get? key inner := by
  obtain ⟨alone, hrun, hget⟩ := exists_run?_about h table
  have hdistinct : ∀ s ∈ d.about table, s.Distinct :=
    fun s hs => hd.statement s (List.mem_filter.mp hs).1
  have hfirst : ∀ s ∈ d.about table, s.first = table :=
    fun s hs => by simpa using (List.mem_filter.mp hs).2
  obtain ⟨start, hstart, hinside⟩ :=
    Statement.run?_inside hdistinct hfirst hrun (ht.of_get?_eq hget)
  -- the table is not there before the first statement about it
  cases hstart with
  | missing => exact Statement.run?_about rfl hinside
  | table hfound => cases hfound

/-- Documents that tell the same about a key inside of a table have the same under it. -/
theorem get?_eq_of_told (hd : d.Distinct) (hd' : d'.Distinct)
    (h : d.entries? = some entries) (h' : d'.entries? = some entries')
    (ht : Entries.TableAt table entries inner) (ht' : Entries.TableAt table entries' inner')
    (hsame : d'.told table key = d.told table key) :
    Entries.get? key inner' = Entries.get? key inner := by
  obtain ⟨alone, hrun, hget⟩ := exists_run?_told hd h ht key
  obtain ⟨alone', hrun', hget'⟩ := exists_run?_told hd' h' ht' key
  rw [hsame, hrun] at hrun'
  obtain rfl := Option.some.inj hrun'
  exact hget'.symm.trans hget

-- whatever else is said: dotted keys, lines below a header and entries within braces tell the same
example (value other : Item) :
    told "t" "k" ⟨[⟨["t"], "k", value⟩, ⟨["t"], "x", other⟩],
        [⟨.element [] "z", [⟨[], "k", other⟩]⟩]⟩ = [.line ⟨[], "k", value⟩] ∧
      told "t" "k" ⟨[⟨[], "z", other⟩], [⟨.table ["t"] "x", [⟨[], "k", other⟩]⟩,
        ⟨.table [] "t", [⟨["x"], "y", other⟩, ⟨[], "k", value⟩]⟩]⟩ = [.line ⟨[], "k", value⟩] ∧
      told "t" "k" ⟨[⟨[], "t", .table .inline [("x", other), ("k", value)]⟩], []⟩ =
        [.line ⟨[], "k", value⟩] :=
  ⟨rfl, rfl, rfl⟩

end Document

end CanonicalQuery.Toml
