import CanonicalQuery.Config.Reading
import CanonicalQuery.Proofs.Toml.Statements

/-!
# The section on output

A configuration is read from the entry on output of a document, and if this is a table, from its
format and its color.  Each of the two has the value that is given for it and else its default,
whatever the other one is.  Nothing else in the document counts, wherever it stands and however it
is spelled.

Two things are as one would not expect.  A date in the place of the section is not refused: it
passes for a section that says nothing.  And in an array of tables every key counts, because its
first element stands in the place of the format.

## Main definitions

- `NamesFormat`: the format that a section names, or leaves to the default.
- `HasSection`: a text with a section on output, and what that says of its two fields.
- `SaysAlike`: two documents differ in other keys and tables only.
- `OutputAlone`: what a configuration is read from.

## Main statements

- `ofEntries?_of_tableAt`: the two fields of a section are all that counts.
- `outputAlone`: this holds of every document.
-/

namespace CanonicalQuery.Config

open CanonicalQuery.Toml
open CanonicalQuery.Toml.Entries (get? TableAt)

variable {words : String → String} {text text' : String} {d d' : Document}
variable {entries entries' inner inner' : Entries}
variable {format? color? : Option Item} {item : Item}

/-! ## §1 From the table to the configuration -/

/-- A text is refused as a configuration, in the words of its reader. -/
def Refused (words : String → String) (text : String) : Prop :=
  ofToml words text = .error (.config (words text))

/-- Two texts give the same configuration, or both are refused.  What is said of them then may
differ, since it tells a place in the text. -/
def ReadsAlike (words : String → String) (text text' : String) : Prop :=
  (∃ config, ofToml words text = .ok config ∧ ofToml words text' = .ok config) ∨
    Refused words text ∧ Refused words text'

theorem ofText?_of_document (htext : Document.ofText? text = some d)
    (hentries : d.entries? = some entries) : Entries.ofText? text = some entries := by
  rw [Entries.ofText?, htext]
  exact hentries

theorem ofToml_of_some {config : Config} (h : Entries.ofText? text = some entries)
    (hread : ofEntries? entries = some config) : ofToml words text = .ok config := by
  rw [ofToml, h, Option.bind_some, hread]

theorem refused_of_none (h : Entries.ofText? text = some entries)
    (hread : ofEntries? entries = none) : Refused words text := by
  rw [Refused, ofToml, h, Option.bind_some, hread]

/-- Texts with the same configuration are read alike, and refused alike but for the words. -/
theorem ofToml_congr (h : Entries.ofText? text = some entries)
    (h' : Entries.ofText? text' = some entries')
    (hread : ofEntries? entries' = ofEntries? entries) : ReadsAlike words text text' := by
  cases hconfig : ofEntries? entries with
  | none => exact .inr ⟨refused_of_none h hconfig, refused_of_none h' (hread.trans hconfig)⟩
  | some config =>
    exact .inl ⟨config, ofToml_of_some h hconfig, ofToml_of_some h' (hread.trans hconfig)⟩

/-- The entry on output is all that counts. -/
theorem ofEntries?_congr (h : get? "output" entries' = get? "output" entries) :
    ofEntries? entries' = ofEntries? entries := by
  rw [ofEntries?, ofEntries?, h]

/-- If the entry on output is a table or missing, its two fields are all that counts. -/
theorem ofEntries?_of_tableAt (h : TableAt "output" entries inner) :
    ofEntries? entries =
      (OutputConfig.ofParts? (get? "format" inner) (get? "color" inner)).map Config.mk := by
  cases h with
  | missing hmissing =>
    rw [ofEntries?, hmissing]
    rfl
  | table htable =>
    rw [ofEntries?, htable]
    exact Option.map_eq_bind.symm

/-! ## §2 The fields of a section -/

/-- A text with a section on output, and what stands there for the format and for the color. -/
inductive HasSection (text : String) (format? color? : Option Item) : Prop where
  | intro {entries inner : Entries} {definition : Definition} :
      Entries.ofText? text = some entries →
      get? "output" entries = some (.table definition inner) →
      get? "format" inner = format? → get? "color" inner = color? →
      HasSection text format? color?

/-- The format that a section names; without a name it is plain. -/
inductive NamesFormat : Option String → OutputFormat → Prop where
  | default : NamesFormat none .plain
  | plain : NamesFormat (some "plain") .plain
  | json : NamesFormat (some "json") .json

theorem HasSection.refused (h : HasSection text format? color?)
    (hparts : OutputConfig.ofParts? format? color? = none) : Refused words text := by
  obtain ⟨htext, htable, rfl, rfl⟩ := h
  refine refused_of_none htext ?_
  rw [ofEntries?_of_tableAt (.table htable), hparts]
  rfl

/-- What a document with a section means is what its two parts mean. -/
theorem HasSection.ofToml_eq_ok_iff (h : HasSection text format? color?) {config : Config} :
    ofToml words text = .ok config ↔ OutputConfig.ofParts? format? color? = some config.output := by
  cases hparts : OutputConfig.ofParts? format? color? with
  | none =>
    have hrefused : Refused words text := h.refused hparts
    rw [hrefused]
    exact ⟨nofun, nofun⟩
  | some output =>
    obtain ⟨htext, htable, rfl, rfl⟩ := h
    have hread : ofToml words text = .ok { output } := by
      refine ofToml_of_some htext ?_
      rw [ofEntries?_of_tableAt (.table htable), hparts]
      rfl
    rw [hread]
    constructor
    · rintro ⟨⟩
      rfl
    · rintro ⟨⟩
      rfl

/-- Names are compared letter by letter. -/
theorem ofName?_eq_some_iff {name : String} {format : OutputFormat} :
    OutputFormat.ofName? name false = some format ↔ name = format.name := by
  constructor
  · intro h
    have hname : format.name = name := by simpa using List.find?_some h
    exact hname.symm
  · rintro rfl
    exact OutputFormat.ofName?_name format false

/-- The two names of a format are accepted and no other one; without a name the plain one holds. -/
theorem namesFormat_iff {name? : Option String} {format : OutputFormat} :
    orDefault .plain OutputFormat.ofItem? (name?.map .string) = some format ↔
      NamesFormat name? format := by
  cases name? with
  | none =>
    constructor
    · rintro ⟨⟩
      exact .default
    · rintro ⟨⟩
      rfl
  | some name =>
    change OutputFormat.ofName? name false = some format ↔ _
    -- the names are those of the two formats
    rw [ofName?_eq_some_iff]
    constructor
    · rintro rfl
      cases format
      · exact .plain
      · exact .json
    · rintro ⟨⟩
      · rfl
      · rfl

theorem flagOfItem?_eq_some_iff {flag : Bool} :
    flagOfItem? item = some flag ↔ item = .scalar (.boolean flag) := by
  constructor
  · intro h
    unfold flagOfItem? at h
    split at h
    · rw [Option.some.inj h]
    · cases h
  · rintro rfl
    rfl

theorem flag_eq_some (flag? : Option Bool) :
    orDefault true flagOfItem? (flag?.map fun flag => .scalar (.boolean flag)) =
      some (flag?.getD true) := by
  cases flag? <;> rfl

theorem ofParts?_eq_some_iff {output : OutputConfig} :
    OutputConfig.ofParts? format? color? = some output ↔
      orDefault .plain OutputFormat.ofItem? format? = some output.format ∧
        orDefault true flagOfItem? color? = some output.color := by
  constructor
  · intro h
    obtain ⟨format, hformat, h⟩ := Option.bind_eq_some_iff.mp h
    obtain ⟨color, hcolor, h⟩ := Option.bind_eq_some_iff.mp h
    obtain rfl := Option.some.inj h
    exact ⟨hformat, hcolor⟩
  · rintro ⟨hformat, hcolor⟩
    rw [OutputConfig.ofParts?, hformat, hcolor]
    rfl

/-- A section whose fields are of the right kinds gives each of them its value or its default. -/
theorem HasSection.gives_iff {name? : Option String} {flag? : Option Bool}
    (h : HasSection text (name?.map .string) (flag?.map fun flag => .scalar (.boolean flag)))
    {config : Config} : ofToml words text = .ok config ↔
      NamesFormat name? config.output.format ∧ config.output.color = flag?.getD true := by
  rw [h.ofToml_eq_ok_iff, ofParts?_eq_some_iff, namesFormat_iff, flag_eq_some, Option.some_inj]
  exact and_congr_right fun _ => eq_comm

/-! ## §3 Other keys -/

/-- Two documents differ in other keys and tables only. -/
inductive SaysAlike (d d' : Document) (entries entries' : Entries) : Prop where
  /-- Whatever the entry on output is, other keys may differ at the top. -/
  | outside : d'.about "output" = d.about "output" → SaysAlike d d' entries entries'
  /-- If it is a table or missing, other keys may differ inside of it as well. -/
  | inside {inner inner' : Entries} :
      TableAt "output" entries inner → TableAt "output" entries' inner' →
      d'.told "output" "format" = d.told "output" "format" →
      d'.told "output" "color" = d.told "output" "color" → SaysAlike d d' entries entries'

/-- Documents that differ in other keys only are read alike. -/
theorem SaysAlike.readsAlike (h : SaysAlike d d' entries entries')
    (htext : Document.ofText? text = some d) (hentries : d.entries? = some entries)
    (htext' : Document.ofText? text' = some d') (hentries' : d'.entries? = some entries') :
    ReadsAlike words text text' := by
  refine ofToml_congr (ofText?_of_document htext hentries)
    (ofText?_of_document htext' hentries') ?_
  cases h with
  | outside habout => exact ofEntries?_congr (Document.get?_eq_of_about hentries hentries' habout)
  | inside ht ht' hformat hcolor =>
    -- the statements on the two fields may stand inside of braces, where no key is repeated
    have hd := Document.distinct_ofText? htext
    have hd' := Document.distinct_ofText? htext'
    rw [ofEntries?_of_tableAt ht, ofEntries?_of_tableAt ht',
      Document.get?_eq_of_told hd hd' hentries hentries' ht ht' hformat,
      Document.get?_eq_of_told hd hd' hentries hentries' ht ht' hcolor]

/-! ## §4 Output alone -/

/-- An item that is no format: a number, a boolean, a date, or an array of any kind. -/
inductive NoFormat : Item → Prop where
  | scalar (value : Scalar) : NoFormat (.scalar value)
  | array (items : List Item) : NoFormat (.array items)
  | elements (last : Entries) (earlier : List Entries) : NoFormat (.elements last earlier)

/-- An item that is no section on output: a string, a boolean or a number. -/
inductive NoSection : Item → Prop where
  | string (text : String) : NoSection (.string text)
  | boolean (value : Bool) : NoSection (.scalar (.boolean value))
  | integer (value : Int) : NoSection (.scalar (.integer value))
  | float (literal : String) : NoSection (.scalar (.float literal))

/-- What a configuration is read from, whatever is said of texts that give none. -/
structure OutputAlone (words : String → String) : Prop where
  /-- Without an entry on output the defaults hold. -/
  absent : ∀ {text entries}, Entries.ofText? text = some entries →
    get? "output" entries = none → ofToml words text = .ok .default
  /-- Each field has its value, or its default, whatever the other one is. -/
  given : ∀ {text} {name? : Option String} {flag? : Option Bool},
    HasSection text (name?.map .string) (flag?.map fun flag => .scalar (.boolean flag)) →
      ∀ config, ofToml words text = .ok config ↔
        NamesFormat name? config.output.format ∧ config.output.color = flag?.getD true
  /-- Of these sections, only those are refused that name another format. -/
  accepted : ∀ {text} {name? : Option String} {flag? : Option Bool},
    HasSection text (name?.map .string) (flag?.map fun flag => .scalar (.boolean flag)) →
      (name? ∈ [none, some "plain", some "json"] ∧ (∃ config, ofToml words text = .ok config) ∨
        name? ∉ [none, some "plain", some "json"] ∧ Refused words text)
  /-- A color that is no boolean is refused, whatever the format is. -/
  color : ∀ {text format? item}, HasSection text format? (some item) →
    (∀ flag, item ≠ .scalar (.boolean flag)) → Refused words text
  /-- A format of another kind is refused, whatever the color is. -/
  format : ∀ {text item color?}, HasSection text (some item) color? → NoFormat item →
    Refused words text
  /-- An entry on output of another kind is refused. -/
  output : ∀ {text entries item}, Entries.ofText? text = some entries →
    get? "output" entries = some item → NoSection item → Refused words text
  /-- A date or a time passes for a section that says nothing. -/
  date : ∀ {text entries literal}, Entries.ofText? text = some entries →
    get? "output" entries = some (.scalar (.moment literal)) → ofToml words text = .ok .default
  /-- Other keys and tables do not count, wherever they stand and however they are spelled. -/
  elsewhere : ∀ {text text' d d' entries entries'},
    Document.ofText? text = some d → d.entries? = some entries →
    Document.ofText? text' = some d' → d'.entries? = some entries' →
    SaysAlike d d' entries entries' → ReadsAlike words text text'

/-- A section whose color is a flag is accepted if its format is named plain or json or not at all,
and refused otherwise. -/
theorem HasSection.accepted {name? : Option String} {flag? : Option Bool}
    (h : HasSection text (name?.map .string) (flag?.map fun flag => .scalar (.boolean flag))) :
    name? ∈ [none, some "plain", some "json"] ∧ (∃ config, ofToml words text = .ok config) ∨
      name? ∉ [none, some "plain", some "json"] ∧ Refused words text := by
  by_cases hname : ∃ format, NamesFormat name? format
  · obtain ⟨format, hnames⟩ := hname
    refine .inl ⟨by cases hnames <;> simp, ⟨⟨format, flag?.getD true⟩⟩, ?_⟩
    exact h.gives_iff.mpr ⟨hnames, rfl⟩
  · refine .inr ⟨fun hmem => hname ?_, h.refused ?_⟩
    · simp only [List.mem_cons, List.not_mem_nil, or_false] at hmem
      rcases hmem with rfl | rfl | rfl
      · exact ⟨.plain, .default⟩
      · exact ⟨.plain, .plain⟩
      · exact ⟨.json, .json⟩
    -- had the section a meaning, its format would be one of the two
    · refine Option.eq_none_iff_forall_ne_some.mpr fun output houtput => hname ?_
      exact ⟨output.format, namesFormat_iff.mp (ofParts?_eq_some_iff.mp houtput).1⟩

/-- **Output alone** decides a configuration, in every document. -/
theorem outputAlone (words : String → String) : OutputAlone words where
  absent htext hmissing := by
    refine ofToml_of_some htext ?_
    rw [ofEntries?_of_tableAt (.missing hmissing)]
    rfl
  given h _ := h.gives_iff
  accepted h := h.accepted
  color h hitem := by
    refine h.refused (Option.eq_none_iff_forall_ne_some.mpr fun output houtput => ?_)
    exact hitem output.color (flagOfItem?_eq_some_iff.mp (ofParts?_eq_some_iff.mp houtput).2)
  format h hitem := by
    refine h.refused (Option.eq_none_iff_forall_ne_some.mpr fun output houtput => ?_)
    have hformat := (ofParts?_eq_some_iff.mp houtput).1
    -- what is no text names no format
    cases hitem <;> cases hformat
  output htext hget hitem := by
    refine refused_of_none htext ?_
    rw [ofEntries?, hget]
    cases hitem <;> rfl
  date htext hget := by
    refine ofToml_of_some htext ?_
    rw [ofEntries?, hget]
    rfl
  elsewhere htext hentries htext' hentries' h := h.readsAlike htext hentries htext' hentries'

/-- A format below a header, and in the same document with other keys and tables within braces; a
date is refused as a format. -/
theorem outputAlone_of_spellings :
    ofToml id "[output]\nformat = \"json\"" = .ok { output := { format := .json } } ∧
      ReadsAlike id "[output]\nformat = \"json\""
        "x.y = true\noutput = \x7b note = [true], 'format' = 'json' \x7d\n[[z]]" ∧
      Refused id "[output]\nformat = 1979-05-27" := by
  have hheader : Document.ofText? "[output]\nformat = \"json\"" = some
      { top := [], sections := [⟨.table [] "output", [⟨[], "format", .string "json"⟩]⟩] } := by
    decide +kernel
  have hbraces : Document.ofText?
      "x.y = true\noutput = \x7b note = [true], 'format' = 'json' \x7d\n[[z]]" = some
        { top := [⟨["x"], "y", .scalar (.boolean true)⟩, ⟨[], "output", .table .inline
            [("note", .array [.scalar (.boolean true)]), ("format", .string "json")]⟩]
          sections := [⟨.element [] "z", []⟩] } := by
    decide +kernel
  have hdate : Entries.ofText? "[output]\nformat = 1979-05-27" = some
      [("output", .table .declared [("format", .scalar (.moment "1979-05-27"))])] := by
    decide +kernel
  have hsection : HasSection "[output]\nformat = \"json\"" ((some "json").map .string)
      ((none : Option Bool).map fun flag => .scalar (.boolean flag)) :=
    .intro (ofText?_of_document hheader rfl) rfl rfl rfl
  refine ⟨?_, ?_, ?_⟩
  · exact ((outputAlone id).given hsection _).mpr ⟨.json, rfl⟩
  · exact (outputAlone id).elsewhere hheader rfl hbraces rfl
      (.inside (.table rfl) (.table rfl) rfl rfl)
  · exact (outputAlone id).format (.intro hdate rfl rfl rfl) (.scalar _)

/-- A date passes for a section on output, and in an array of tables a key counts that has no
meaning. -/
theorem date_passes_for_section :
    Entries.ofText? "output = 1979-05-27" =
        some [("output", .scalar (.moment "1979-05-27"))] ∧
      ofToml id "output = 1979-05-27" = .ok .default ∧
      ofToml id "[[output]]\njson = \x7b\x7d" = .ok { output := { format := .json } } ∧
      Refused id "[[output]]\njson = \x7b\x7d\nx = true" := by
  have hdate : Entries.ofText? "output = 1979-05-27" =
      some [("output", .scalar (.moment "1979-05-27"))] := by
    decide +kernel
  have helement : Entries.ofText? "[[output]]\njson = \x7b\x7d" =
      some [("output", .elements [("json", .table .inline [])] [])] := by
    decide +kernel
  have hbeside : Entries.ofText? "[[output]]\njson = \x7b\x7d\nx = true" = some [("output",
      .elements [("json", .table .inline []), ("x", .scalar (.boolean true))] [])] := by
    decide +kernel
  exact ⟨hdate, ofToml_of_some hdate rfl, ofToml_of_some helement rfl, refused_of_none hbeside rfl⟩

end CanonicalQuery.Config
