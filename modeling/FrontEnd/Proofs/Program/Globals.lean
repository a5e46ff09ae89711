import FrontEnd.Proofs.Program.Readings

/-!
# Global names

What a program makes of a file is told by the file's reading and by the readings of the files before
it, one behind another: the **first** definition of a name binds it, whichever file it stands in. A
definition is kept if it is the first of its name and no two of its tags share a name; a definition
that is dropped for its tags has bound its name all the same.

While definitions are read one after another, the tables of the program are those of the entries so
far (`Program.Records`). That is shown for one entry (`Build.records_addDefinition`), and by
induction for the definitions of a file (`Build.outcome_definitionsTo`) and for files one after
another. A failure needs no argument of its own. It ends the list of entries, and what was read of
the definition it struck has left symbols behind, and reports of its tags, but nothing in the
tables.
-/

namespace FrontEnd

/-! ### Bindings -/

namespace Bindings

theorem find?_cons (m n : String) (i : Nat) (b : Bindings) :
    find? ((m, i) :: b) n = if n = m then some i else find? b n := by
  rw [find?, List.lookup_cons]
  by_cases h : n = m
  · simp [h]
  · rw [if_neg h, beq_eq_false_iff_ne.2 h]
    rfl

theorem find?_eq_none_iff {b : Bindings} {n : String} : find? b n = none ↔ n ∉ b.map (·.1) := by
  rw [find?, List.lookup_eq_none_iff]
  grind

/-- Where each name is bound once, to be bound is to be found. -/
theorem mem_iff_find? {b : Bindings} (hb : (b.map (·.1)).Nodup) {n : String} {i : Nat} :
    (n, i) ∈ b ↔ find? b n = some i := by
  induction b with
  | nil => simp [find?]
  | cons x b ih =>
    obtain ⟨m, j⟩ := x
    rw [List.map_cons, List.nodup_cons] at hb
    rw [List.mem_cons, find?_cons, ih hb.2]
    by_cases h : n = m
    · subst h
      have hnone : find? b n = none := find?_eq_none_iff.2 hb.1
      simp [hnone, eq_comm]
    · simp [h]

end Bindings

/-! ### Entries one after another -/

namespace Entry

/-- An entry is **new** behind others if none of them has its name. -/
def New (before : List Entry) (e : Entry) : Prop :=
  ∀ f ∈ before, f.word ≠ e.word

instance (before : List Entry) (e : Entry) : Decidable (e.New before) :=
  inferInstanceAs (Decidable (∀ f ∈ before, f.word ≠ e.word))

/-- An entry is **tidy** if no two of its tags share a name. -/
def Tidy (e : Entry) : Prop :=
  (e.tags.map (·.name)).Nodup

instance (e : Entry) : Decidable e.Tidy :=
  inferInstanceAs (Decidable (e.tags.map (·.name)).Nodup)

/-- The entries whose definitions are kept, behind others. -/
def kept (before : List Entry) : List Entry → List Entry
  | [] => []
  | e :: es =>
    if e.New before ∧ e.Tidy then e :: kept (before ++ [e]) es else kept (before ++ [e]) es

/-- The report of an entry whose name is taken. -/
def nameReport (moduleName : String) (source : SourceFile) (e : Entry) : Diagnostic :=
  .ofFile moduleName source .name
    ("multiple symbols with name '" ++ e.word ++ "' defined in same scope") e.name.span

/-- **What is reported of the entries of a file**, behind others: each repeated tag, and each name
that is taken. -/
def reports (moduleName : String) (source : SourceFile) (before : List Entry) :
    List Entry → List Diagnostic
  | [] => []
  | e :: es =>
    (Tag.repeats [] e.tags).map (Tag.repeatReport moduleName source) ++
      (if e.New before then [] else [e.nameReport moduleName source]) ++
        reports moduleName source (before ++ [e]) es

theorem tidy_iff {e : Entry} : e.Tidy ↔ (Tag.repeats [] e.tags).isEmpty = true := by
  rw [List.isEmpty_iff, Tag.repeats_eq_nil_iff, Tidy]
  simp

theorem new_iff {before : List Entry} {e : Entry} :
    e.New before ↔ before.find? (·.word = e.word) = none := by
  simp [New, List.find?_eq_none]

theorem kept_append (before es fs : List Entry) :
    kept before (es ++ fs) = kept before es ++ kept (before ++ es) fs := by
  induction es generalizing before with
  | nil => rw [List.nil_append, kept, List.nil_append, List.append_nil]
  | cons e es ih =>
    rw [List.cons_append, kept, kept, ih, List.append_assoc, List.singleton_append]
    split <;> rfl

theorem kept_sublist (before es : List Entry) : (kept before es).Sublist es := by
  induction es generalizing before with
  | nil => exact .slnil
  | cons e es ih =>
    rw [kept]
    split
    · exact (ih _).cons_cons e
    · exact (ih _).cons e

end Entry

/-! ### The tables of a program -/

/-- **The tables of a program are those of some entries.** -/
structure Program.Records (es : List Entry) (p : Program) : Prop where
  find?_globals : ∀ n, p.globals.find? n = (es.find? (·.word = n)).map (·.definition.symbol)
  nodup : (p.globals.map (·.1)).Nodup
  definitions_eq : p.definitions = (Entry.kept [] es).map (·.definition)

namespace Program.Records

variable {es : List Entry} {p p' : Program}

theorem congr (h : p.Records es) (hdefinitions : p'.definitions = p.definitions)
    (hglobals : p'.globals = p.globals) : p'.Records es where
  find?_globals := hglobals ▸ h.find?_globals
  nodup := hglobals ▸ h.nodup
  definitions_eq := hdefinitions.trans h.definitions_eq

theorem new_iff (h : p.Records es) {e : Entry} : e.New es ↔ p.globals.find? e.word = none := by
  rw [Entry.new_iff, h.find?_globals, Option.map_eq_none_iff]

/-- An entry whose name is taken changes nothing. -/
theorem taken (h : p.Records es) {e : Entry} (he : ¬ e.New es) : p.Records (es ++ [e]) where
  find?_globals n := by
    rw [h.find?_globals, List.find?_append]
    by_cases hn : e.word = n
    · have hsome : es.find? (·.word = n) ≠ none := fun hnone ↦
        he (Entry.new_iff.2 (by rw [hn]; exact hnone))
      obtain ⟨f, hf⟩ := Option.ne_none_iff_exists'.1 hsome
      rw [hf, Option.some_or]
    · rw [List.find?_singleton, if_neg (by simpa using hn), Option.or_none]
  nodup := h.nodup
  definitions_eq := by
    rw [h.definitions_eq, Entry.kept_append, List.nil_append, Entry.kept, if_neg fun hk ↦ he hk.1,
      Entry.kept, List.append_nil]

/-- A new entry binds its name, and its definition is kept if it is tidy. -/
theorem free (h : p.Records es) {e : Entry} (he : e.New es)
    (hglobals : p'.globals = (e.word, e.definition.symbol) :: p.globals)
    (hdefinitions : p'.definitions =
      p.definitions ++ if e.Tidy then [e.definition] else []) : p'.Records (es ++ [e]) where
  find?_globals n := by
    rw [hglobals, Bindings.find?_cons, h.find?_globals, List.find?_append, List.find?_singleton]
    by_cases hn : n = e.word
    · subst hn
      rw [Entry.new_iff.1 he]
      simp
    · rw [if_neg hn, if_neg (by simpa [eq_comm] using hn), Option.or_none]
  nodup := by
    rw [hglobals, List.map_cons, List.nodup_cons]
    exact ⟨Bindings.find?_eq_none_iff.1 (h.new_iff.1 he), h.nodup⟩
  definitions_eq := by
    rw [hdefinitions, h.definitions_eq, Entry.kept_append, List.nil_append, List.map_append,
      Entry.kept, Entry.kept]
    by_cases htidy : e.Tidy
    · rw [if_pos htidy, if_pos ⟨he, htidy⟩]
      rfl
    · rw [if_neg htidy, if_neg fun hk ↦ htidy hk.2]
      rfl

end Program.Records

/-! ### One definition -/

/-- **What has become of a draft** when a reading is through: the tables are those of all entries,
and the reports are theirs. -/
structure Draft.Outcome (es : List Entry) (r : Reading) (d d' : Draft) : Prop where
  records : d'.program.Records (es ++ r.entries)
  symbols_eq : d'.program.symbols = r.symbols
  files_eq : d'.program.files = d.program.files
  name_eq : d'.program.name = d.program.name
  source_eq : d'.source = d.source
  diagnostics_eq : d'.diagnostics = d.diagnostics ++
    (Entry.reports d.program.name d.source es r.entries ++
      (Tag.repeats [] r.loose).map (Tag.repeatReport d.program.name d.source))

namespace Build

variable {source : SourceFile} {file : Nat} {es : List Entry} {d d' : Draft}

/-- **One entry joins the program.** Beside the tables only the reports change. -/
theorem records_addDefinition {e : Entry} (hd : d.program.Records es)
    (he : ∃ s, d.program.symbols[e.definition.symbol]? = some s ∧ s.Names e.name) :
    ∃ p : Program, p.Records (es ++ [e]) ∧ p.symbols = d.program.symbols ∧
      p.files = d.program.files ∧ p.name = d.program.name ∧
      addDefinition e.definition (Tag.repeats [] e.tags).isEmpty d = (.ok (), { d with
        program := p
        diagnostics := d.diagnostics ++
          if e.New es then [] else [e.nameReport d.program.name d.source] }) := by
  obtain ⟨s, hs, hname, hspan⟩ := he
  rw [addDefinition, bind_apply, bindGlobal, hs]
  have hword : s.name = e.word := hname
  dsimp only
  rw [hword, hspan]
  by_cases hnew : e.New es
  · rw [if_pos hnew, List.append_nil, hd.new_iff.1 hnew]
    by_cases htidy : e.Tidy
    · rw [Entry.tidy_iff.1 htidy]
      refine ⟨((d.bind e.word e.definition.symbol).addDefinition e.definition).program, ?_, rfl,
        rfl, rfl, rfl⟩
      exact hd.free hnew rfl (by rw [if_pos htidy]; rfl)
    · rw [Bool.eq_false_iff.2 fun h ↦ htidy (Entry.tidy_iff.2 h)]
      refine ⟨(d.bind e.word e.definition.symbol).program, ?_, rfl, rfl, rfl, rfl⟩
      exact hd.free hnew rfl (by rw [if_neg htidy, List.append_nil]; rfl)
  · rw [if_neg hnew]
    obtain ⟨i, hi⟩ := Option.ne_none_iff_exists'.1 fun h ↦ hnew (hd.new_iff.2 h)
    rw [hi]
    exact ⟨d.program, hd.taken hnew, rfl, rfl, rfl, rfl⟩

end Build

/-! ### The definitions of a file -/

/-- The draft behind an entry that has been read and has joined the program. -/
def Draft.behind (es : List Entry) (e : Entry) (d : Draft) (c : Cursor) (p : Program) : Draft :=
  { d with
    cursor := c
    program := p
    diagnostics := d.diagnostics ++
      (Tag.repeats [] e.tags).map (Tag.repeatReport d.program.name d.source) ++
        if e.New es then [] else [e.nameReport d.program.name d.source] }

namespace Draft.Outcome

variable {es : List Entry} {r : Reading} {d d' : Draft}

/-- A reading without entries, which may have been cut short behind some tags. -/
theorem none (hd : d.program.Records es) (c : Cursor) (symbols : List Symbol) (loose : List Tag)
    (error? : Option ParseError) : d.Outcome es ⟨[], loose, error?, symbols⟩
      { d.moved c symbols with
        diagnostics := d.diagnostics ++
          (Tag.repeats [] loose).map (Tag.repeatReport d.program.name d.source) } where
  records := by
    rw [List.append_nil]
    exact hd.congr rfl rfl
  symbols_eq := rfl
  files_eq := rfl
  name_eq := rfl
  source_eq := rfl
  diagnostics_eq := rfl

/-- A reading that ends at once. -/
theorem ended (hd : d.program.Records es) (error? : Option ParseError) :
    d.Outcome es ⟨[], [], error?, d.program.symbols⟩ d := by
  have h := none hd d.cursor d.program.symbols [] error?
  rwa [Tag.repeats, List.map_nil, List.append_nil] at h

/-- An entry in front, whose reports come first. -/
theorem cons {e : Entry} {c : Cursor} {p : Program} (hfiles : p.files = d.program.files)
    (hname : p.name = d.program.name)
    (h : (Draft.behind es e d c p).Outcome (es ++ [e]) r d') : d.Outcome es (r.cons e) d' where
  records := by
    rw [Reading.cons, ← List.singleton_append, ← List.append_assoc]
    exact h.records
  symbols_eq := h.symbols_eq
  files_eq := h.files_eq.trans hfiles
  name_eq := h.name_eq.trans hname
  source_eq := h.source_eq
  diagnostics_eq := by
    rw [h.diagnostics_eq, Draft.behind, Reading.cons, Entry.reports, hname]
    simp only [List.append_assoc]

end Draft.Outcome

namespace Build

variable {source : SourceFile} {file : Nat} {es : List Entry} {d d' : Draft}

/-- **What one definition does.** It is cut short, or it is the next entry of the reading and joins
the program; the rest of the reading does not depend on how. -/
theorem definition_step (n : Nat) (hd : d.Stands source file) (hes : d.program.Records es)
    (hfinish : d.cursor.current.kind ≠ .finish) :
    (∃ c σ tags e, readTo (n + 1) d = ⟨[], tags, some e, σ⟩ ∧
      definition d = (.error e, { d.moved c σ with
        diagnostics := d.diagnostics ++
          (Tag.repeats [] tags).map (Tag.repeatReport d.program.name d.source) })) ∨
    ∃ e c p, readTo (n + 1) d = (readTo n (Draft.behind es e d c p)).cons e ∧
      definition d = (.ok (), Draft.behind es e d c p) ∧
      (Draft.behind es e d c p).Stands source file ∧ p.Records (es ++ [e]) ∧
        p.files = d.program.files ∧ p.name = d.program.name := by
  rw [definition_eq, bind_apply, readTo, if_neg hfinish]
  obtain ⟨c, hmetadata, hc⟩ := tagsDone_metadata d
  obtain ⟨-, hbehind, -⟩ := Tag.readIn_read hd.placed
  have hempty : Metadata.empty.tags.map (·.name) = [] := rfl
  rw [hmetadata, hempty]
  generalize Tag.read d.cursor = read at hc hbehind ⊢
  rcases read with ⟨tags, e | c'⟩
  · exact .inl ⟨c, d.program.symbols, tags, e, rfl, rfl⟩
  · obtain rfl := hc c' rfl
    -- the reports of the tags have been made by now, and the parsers behind do not see them
    have halike : Draft.Alike { d with cursor := c } { d with
        cursor := c
        diagnostics := d.diagnostics ++
          (Tag.repeats [] tags).map (Tag.repeatReport d.program.name d.source) } :=
      ⟨rfl, rfl, rfl⟩
    have hd₀ : Draft.Stands source file { d with cursor := c } :=
      ⟨hd.source_eq, hd.file_eq, (hbehind c rfl).1⟩
    have hreaches := (staysIn_content (Metadata.empty.addAll tags) hd₀).1
    have hentry := sound_content (Metadata.empty.addAll tags) tags hd₀
    have hplain := plain_content (Metadata.empty.addAll tags) halike
    dsimp only [Except.map]
    rw [Bool.true_and, bind_apply, hplain]
    generalize content (Metadata.empty.addAll tags) { d with cursor := c } = r at hreaches hentry ⊢
    rcases r with ⟨e | x, d₁⟩
    · exact .inl ⟨d₁.cursor, d₁.program.symbols, tags, e, rfl, rfl⟩
    · obtain ⟨p, hp, hsymbols, hfiles, hname, hadd⟩ := records_addDefinition
        (d := Draft.moved { d with
          cursor := c
          diagnostics := d.diagnostics ++
            (Tag.repeats [] tags).map (Tag.repeatReport d.program.name d.source) }
          d₁.cursor d₁.program.symbols)
        (e := ⟨tags, c.next.current, x⟩) (hes.congr rfl rfl) (hentry x rfl).named
      have hfile : p.files.length = file := (congrArg List.length hfiles).trans hd.file_eq
      refine .inr ⟨⟨tags, c.next.current, x⟩, d₁.cursor, p, ?_, hadd,
        ⟨hd.source_eq, hfile, hreaches.placed⟩, hp, hfiles, hname⟩
      have halike' : d₁.Alike (Draft.behind es ⟨tags, c.next.current, x⟩ d d₁.cursor p) :=
        ⟨hfile.trans hreaches.file_eq.symm, rfl, hsymbols⟩
      exact congrArg (Reading.cons _) (readTo_congr n halike').symm

/-- **The definitions of a file do what their reading says**, however it ends. -/
theorem outcome_definitionsTo (n : Nat) (hd : d.Stands source file) (hes : d.program.Records es) :
    (definitionsTo n d).1 = (readTo n d).result ∧
      d.Outcome es (readTo n d) (definitionsTo n d).2 := by
  induction n generalizing es d with
  | zero => exact ⟨rfl, .ended hes _⟩
  | succ n ih =>
    rw [definitionsTo_succ]
    by_cases hfinish : d.cursor.current.kind = .finish
    · rw [if_pos hfinish, readTo, if_pos hfinish]
      exact ⟨rfl, .ended hes _⟩
    · rw [if_neg hfinish, bind_apply]
      rcases definition_step n hd hes hfinish with
        ⟨c, σ, tags, e, hread, hrun⟩ | ⟨e, c, p, hread, hrun, hstands, hp, hfiles, hname⟩
      · rw [hread, hrun]
        exact ⟨rfl, .none hes c σ tags (some e)⟩
      · rw [hread, hrun]
        obtain ⟨hresult, houtcome⟩ := ih hstands hp
        exact ⟨hresult, .cons hfiles hname houtcome⟩

end Build

/-! ### Files -/

namespace Program

variable {es : List Entry} {p : Program}

/-- What a file holds when it is read into a program. -/
def reading (p : Program) (source : SourceFile) : Reading :=
  Build.readTo (p.draft source).cursor.rest.length (p.draft source)

/-- The entries of files, in the order of the files and of their texts. -/
def entries (p : Program) : List SourceFile → List Entry
  | [] => []
  | source :: sources => (p.reading source).entries ++ (p.parseFile source).program.entries sources

/-- The report of what ended a file early. -/
def errorReport (moduleName : String) (source : SourceFile) (e : ParseError) : Diagnostic :=
  .ofFile moduleName source e.category e.message e.span

theorem stands_draft (p : Program) (source : SourceFile) :
    (p.draft source).Stands source p.files.length :=
  ⟨rfl, rfl, Cursor.placed_start _⟩

/-- **What has become of a program** when one more file has been read into it. -/
structure FileOutcome (es : List Entry) (p : Program) (source : SourceFile) (q : Parsed) :
    Prop where
  records : q.program.Records (es ++ (p.reading source).entries)
  symbols_eq : q.program.symbols = (p.reading source).symbols
  files_eq : q.program.files = p.files ++ [source]
  name_eq : q.program.name = p.name
  error?_eq : q.error? = (p.reading source).error?
  diagnostics_eq : q.diagnostics =
    Entry.reports p.name source es (p.reading source).entries ++
      (Tag.repeats [] (p.reading source).loose).map (Tag.repeatReport p.name source) ++
        (p.reading source).error?.toList.map (errorReport p.name source)

theorem outcome_parseFile (hp : p.Records es) (source : SourceFile) :
    p.FileOutcome es source (p.parseFile source) := by
  obtain ⟨hresult, hrecords, hsymbols, hfiles, hname, hsource, hdiagnostics⟩ :=
    Build.outcome_definitionsTo (d := p.draft source) (p.draft source).cursor.rest.length
      (p.stands_draft source) hp
  rw [parseFile]
  have hreading : Build.readTo (p.draft source).cursor.rest.length (p.draft source) =
    p.reading source := rfl
  rw [hreading] at hresult hrecords hsymbols hdiagnostics
  generalize Build.definitionsTo (p.draft source).cursor.rest.length (p.draft source) = r
    at hresult hrecords hsymbols hfiles hname hsource hdiagnostics ⊢
  obtain ⟨result, d⟩ := r
  have hfiles' : d.program.files ++ [source] = p.files ++ [source] := by
    rw [hfiles]
    rfl
  cases herror : (p.reading source).error? with
  | none =>
    rw [Reading.result, herror] at hresult
    obtain rfl : result = .ok () := hresult
    refine ⟨hrecords.congr rfl rfl, hsymbols, hfiles', hname, herror.symm, ?_⟩
    rw [herror, Option.toList_none, List.map_nil, List.append_nil]
    exact hdiagnostics
  | some e =>
    rw [Reading.result, herror] at hresult
    obtain rfl : result = .error e := hresult
    refine ⟨hrecords.congr rfl rfl, hsymbols, hfiles', hname, herror.symm, ?_⟩
    rw [herror, Option.toList_some, List.map_singleton]
    show d.diagnostics ++ [errorReport d.program.name d.source e] = _
    rw [hname, hsource, hdiagnostics]
    rfl

/-- **The tables of a program are those of entries** which were read in its files, with symbols of
their own. -/
structure Traces (es : List Entry) (p : Program) : Prop where
  records : p.Records es
  file_lt : ∀ e ∈ es, e.definition.file < p.files.length
  sound : ∀ e ∈ es, e.Sound e.definition.file 0 p.symbols
  pairwise : es.Pairwise fun e f ↦ e.definition.symbol < f.definition.symbol

theorem traces_empty (name : String) : (empty name).Traces [] where
  records := ⟨fun _ ↦ rfl, List.nodup_nil, rfl⟩
  file_lt _ he := absurd he List.not_mem_nil
  sound _ he := absurd he List.not_mem_nil
  pairwise := .nil

/-- One more file. -/
theorem Traces.parseFile (h : p.Traces es) (source : SourceFile) :
    (p.parseFile source).program.Traces (es ++ (p.reading source).entries) := by
  have houtcome := outcome_parseFile h.records source
  obtain ⟨hsymbols, hentries, hpairwise⟩ :=
    Build.sound_readTo (p.draft source).cursor.rest.length (p.stands_draft source)
  have hlength : (p.parseFile source).program.files.length = p.files.length + 1 := by
    rw [houtcome.files_eq, List.length_append, List.length_singleton]
  refine ⟨houtcome.records, ?_, ?_, List.pairwise_append.2 ⟨h.pairwise, hpairwise, ?_⟩⟩
  · rw [hlength]
    refine List.forall_mem_append.2 ⟨fun e he ↦ Nat.lt_succ_of_lt (h.file_lt e he), fun e he ↦ ?_⟩
    rw [(hentries e he).file_eq]
    exact Nat.lt_succ_self _
  · rw [houtcome.symbols_eq]
    refine List.forall_mem_append.2 ⟨fun e he ↦ (h.sound e he).mono (Nat.le_refl _) hsymbols,
      fun e he ↦ ?_⟩
    have hsound := (hentries e he).mono (Nat.zero_le _) (List.prefix_refl _)
    rw [(hentries e he).file_eq]
    exact hsound
  · intro e he f hf
    exact Nat.lt_of_lt_of_le ((h.sound e he).owned _ e.definition.symbol_mem_owned).2
      ((hentries f hf).owned _ f.definition.symbol_mem_owned).1

/-- **Files one after another.** -/
theorem Traces.parseFiles (h : p.Traces es) (sources : List SourceFile) :
    (p.parseFiles sources).1.Traces (es ++ p.entries sources) ∧
      (p.parseFiles sources).1.name = p.name := by
  induction sources generalizing es p with
  | nil =>
    rw [entries, List.append_nil]
    exact ⟨h, rfl⟩
  | cons source sources ih =>
    obtain ⟨htraces, hname⟩ := ih (h.parseFile source)
    rw [entries, ← List.append_assoc]
    exact ⟨htraces, hname.trans (outcome_parseFile h.records source).name_eq⟩

/-! ### Integrity -/

/-- **The global table is sound for some entries.** Names are bound once, each to the first entry of
that name. The definitions are entries in their order, each bound by its name; an entry is missing
if its name was taken or two of its tags share one, and only then. Whatever a definition refers to
by number is there. -/
structure Tabulates (es : List Entry) (p : Program) : Prop where
  nodup_names : (p.globals.map (·.1)).Nodup
  mem_globals_iff : ∀ n i, (n, i) ∈ p.globals ↔ ∃ before e after,
    es = before ++ e :: after ∧ e.New before ∧ e.word = n ∧ e.definition.symbol = i
  named : ∀ n i, (n, i) ∈ p.globals → ∃ s, p.symbols[i]? = some s ∧ s.name = n
  sublist : p.definitions.Sublist (es.map (·.definition))
  mem_definitions_iff : ∀ before e after, es = before ++ e :: after →
    (e.definition ∈ p.definitions ↔ e.New before ∧ e.Tidy)
  bound : ∀ x ∈ p.definitions,
    ∃ s, p.symbols[x.symbol]? = some s ∧ p.globals.find? s.name = some x.symbol
  distinct : p.definitions.Pairwise fun x y ↦ x.symbol ≠ y.symbol ∧
    ∀ s t, p.symbols[x.symbol]? = some s → p.symbols[y.symbol]? = some t → s.name ≠ t.name
  file_lt : ∀ x ∈ p.definitions, x.file < p.files.length
  symbol_lt : ∀ x ∈ p.definitions, ∀ i ∈ x.owned, i < p.symbols.length
  unresolved : ∀ x ∈ p.definitions, ∀ e ∈ x.exprs, e.Unresolved

namespace Traces

theorem mem_globals_iff (h : p.Traces es) (n : String) (i : Nat) : (n, i) ∈ p.globals ↔
    ∃ before e after, es = before ++ e :: after ∧ e.New before ∧ e.word = n ∧
      e.definition.symbol = i := by
  rw [Bindings.mem_iff_find? h.records.nodup, h.records.find?_globals, Option.map_eq_some_iff]
  constructor
  · rintro ⟨e, he, hi⟩
    obtain ⟨hword, before, after, hes, hbefore⟩ := List.find?_eq_some_iff_append.1 he
    have hn : e.word = n := by simpa using hword
    refine ⟨before, e, after, hes, fun f hf ↦ ?_, hn, hi⟩
    rw [hn]
    simpa using hbefore f hf
  · rintro ⟨before, e, after, hes, hnew, hn, hi⟩
    refine ⟨e, List.find?_eq_some_iff_append.2 ⟨by simpa using hn, before, after, hes, ?_⟩, hi⟩
    intro f hf
    rw [← hn]
    simpa using hnew f hf

theorem exists_entry (h : p.Traces es) {x : Definition} (hx : x ∈ p.definitions) :
    ∃ e ∈ es, e.definition = x := by
  rw [h.records.definitions_eq] at hx
  obtain ⟨e, he, rfl⟩ := List.mem_map.1 hx
  exact ⟨e, (Entry.kept_sublist _ _).subset he, rfl⟩

/-- A definition tells its entry by its symbol, so an entry that is not kept has not left its
definition behind under another. -/
theorem mem_definitions_iff (h : p.Traces es) {before after : List Entry} {e : Entry}
    (hes : es = before ++ e :: after) : e.definition ∈ p.definitions ↔ e.New before ∧ e.Tidy := by
  have hpairwise := h.pairwise
  rw [hes, List.pairwise_append, List.pairwise_cons] at hpairwise
  obtain ⟨-, ⟨hafter, -⟩, hbefore⟩ := hpairwise
  rw [h.records.definitions_eq, hes, Entry.kept_append, List.nil_append, List.map_append,
    List.mem_append, Entry.kept]
  constructor
  · rintro (hmem | hmem)
    · obtain ⟨f, hf, heq⟩ := List.mem_map.1 hmem
      have hlt := hbefore f ((Entry.kept_sublist _ _).subset hf) e List.mem_cons_self
      exact absurd (congrArg Definition.symbol heq) (Nat.ne_of_lt hlt)
    · by_contra hkept
      rw [if_neg hkept] at hmem
      obtain ⟨f, hf, heq⟩ := List.mem_map.1 hmem
      have hlt := hafter f ((Entry.kept_sublist _ _).subset hf)
      exact absurd (congrArg Definition.symbol heq) (Nat.ne_of_gt hlt)
  · intro hkept
    rw [if_pos hkept]
    exact .inr List.mem_cons_self

theorem bound (h : p.Traces es) {x : Definition} (hx : x ∈ p.definitions) :
    ∃ s, p.symbols[x.symbol]? = some s ∧ p.globals.find? s.name = some x.symbol := by
  obtain ⟨e, he, rfl⟩ := h.exists_entry hx
  obtain ⟨before, after, hes⟩ := List.append_of_mem he
  obtain ⟨s, hs, hname, -⟩ := (h.sound e he).named
  refine ⟨s, hs, (Bindings.mem_iff_find? h.records.nodup).1 ((h.mem_globals_iff _ _).2 ?_)⟩
  exact ⟨before, e, after, hes, ((h.mem_definitions_iff hes).1 hx).1, hname.symm, rfl⟩

theorem tabulates (h : p.Traces es) : p.Tabulates es where
  nodup_names := h.records.nodup
  mem_globals_iff := h.mem_globals_iff
  named n i hni := by
    obtain ⟨before, e, after, rfl, -, rfl, rfl⟩ := (h.mem_globals_iff n i).1 hni
    obtain ⟨s, hs, hname, -⟩ := (h.sound e (by simp)).named
    exact ⟨s, hs, hname⟩
  sublist := by
    rw [h.records.definitions_eq]
    exact (Entry.kept_sublist _ _).map _
  mem_definitions_iff _ _ _ hes := h.mem_definitions_iff hes
  bound _ hx := h.bound hx
  distinct := by
    have hsymbols : p.definitions.Pairwise fun x y ↦ x.symbol < y.symbol := by
      rw [h.records.definitions_eq, List.pairwise_map]
      exact h.pairwise.sublist (Entry.kept_sublist _ _)
    refine hsymbols.imp_of_mem fun {x y} hx hy hlt ↦ ⟨Nat.ne_of_lt hlt, fun s t hs ht hst ↦ ?_⟩
    obtain ⟨s', hs', hboundx⟩ := h.bound hx
    obtain ⟨t', ht', hboundy⟩ := h.bound hy
    obtain rfl := Option.some.inj (hs.symm.trans hs')
    obtain rfl := Option.some.inj (ht.symm.trans ht')
    rw [hst, hboundy] at hboundx
    exact absurd (Option.some.inj hboundx) (Nat.ne_of_gt hlt)
  file_lt x hx := by
    obtain ⟨e, he, rfl⟩ := h.exists_entry hx
    exact h.file_lt e he
  symbol_lt x hx i hi := by
    obtain ⟨e, he, rfl⟩ := h.exists_entry hx
    exact ((h.sound e he).owned i hi).2
  unresolved x hx := by
    obtain ⟨e, he, rfl⟩ := h.exists_entry hx
    exact (h.sound e he).unresolved

end Traces

/-- **Integrity of the global table.** Whatever files have been read, and however they ended, the
tables of the program are those of the definitions that could be read to their end. One more file
adds those which it holds and no more: it is read to its end or fails as its reading says, and its
reports are those of repeated tags, of names that are taken, and of the failure. -/
theorem tabulates_parseFile (name : String) (sources : List SourceFile) (source : SourceFile) :
    let p := ((empty name).parseFiles sources).1
    let es := (empty name).entries sources
    let r := p.reading source
    p.Tabulates es ∧ (p.parseFile source).program.Tabulates (es ++ r.entries) ∧
      (p.parseFile source).program.files = p.files ++ [source] ∧
      (p.parseFile source).error? = r.error? ∧
      (p.parseFile source).diagnostics = Entry.reports name source es r.entries ++
        (Tag.repeats [] r.loose).map (Tag.repeatReport name source) ++
          r.error?.toList.map (errorReport name source) := by
  obtain ⟨htraces, hname⟩ := (traces_empty name).parseFiles sources
  have houtcome := outcome_parseFile htraces.records source
  have hdiagnostics := houtcome.diagnostics_eq
  rw [hname] at hdiagnostics
  exact ⟨htraces.tabulates, (htraces.parseFile source).tabulates, houtcome.files_eq,
    houtcome.error?_eq, hdiagnostics⟩

end Program

end FrontEnd
