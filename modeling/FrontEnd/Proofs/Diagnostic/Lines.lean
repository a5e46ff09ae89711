import FrontEnd.Command.Check
import FrontEnd.Proofs.Check.Accounting
import FrontEnd.Proofs.Program.Legibility

/-!
# One line for each diagnostic

A diagnostic on one plain line is made of the name of the module, a place, and a message. Neither
the name nor a path has a line feed, and a message has one only if it quotes one. There are three
ways to that: the two of a text that cannot be read (`ParseError.Cause.breaksLine`), and a tag whose
text has an escaped line feed and is not on the list of its tag (`CheckError.breaksLine`). Where
none of them occurs there is one line for each diagnostic, and where one does there is not
(`Program.oneLine_plain_iff`).
-/

namespace FrontEnd

/-! ### Types -/

theorem oneLine_intercalate {sep : String} {ss : List String} (hsep : OneLine sep)
    (hss : ∀ s ∈ ss, OneLine s) : OneLine (sep.intercalate ss) := by
  induction ss with
  | nil =>
    rw [String.intercalate_nil]
    decide
  | cons s ss ih =>
    obtain ⟨hs, hss⟩ := List.forall_mem_cons.1 hss
    cases ss with
    | nil =>
      rw [String.intercalate_singleton]
      exact hs
    | cons u ss =>
      rw [String.intercalate_cons_cons]
      exact oneLine_append.2 ⟨oneLine_append.2 ⟨hs, hsep⟩, ih hss⟩

namespace Ty

theorem oneLine_renderParams {ss : List String} (h : ∀ s ∈ ss, OneLine s) :
    OneLine (renderParams ss) := by
  rw [renderParams.eq_def]
  split
  · exact h _ List.mem_cons_self
  · exact oneLine_append.2
      ⟨oneLine_append.2 ⟨by decide, oneLine_intercalate (by decide) h⟩, by decide⟩

mutual

theorem oneLine_render {name : Nat → String} (hname : ∀ i, OneLine (name i)) :
    ∀ a : Ty, OneLine (a.render name)
  | scalar s => s.oneLine_name
  | unit => (by decide : OneLine "()")
  | pointer true a => oneLine_append.2 ⟨by decide, oneLine_render hname a⟩
  | pointer false a => oneLine_append.2 ⟨by decide, oneLine_render hname a⟩
  | func ps r => oneLine_append.2 ⟨oneLine_append.2
      ⟨oneLine_renderParams (oneLine_renderAll hname ps), by decide⟩, oneLine_render hname r⟩
  | hole i => hname i

theorem oneLine_renderAll {name : Nat → String} (hname : ∀ i, OneLine (name i)) :
    ∀ as : List Ty, ∀ s ∈ renderAll name as, OneLine s
  | [] => fun _ h ↦ absurd h List.not_mem_nil
  | a :: as => List.forall_mem_cons.2 ⟨oneLine_render hname a, oneLine_renderAll hname as⟩

end

theorem oneLine_text (a : Ty) : OneLine a.text := by
  rw [text_eq_render]
  exact oneLine_render (fun i ↦ oneLine_append.2 ⟨by decide, oneLine_toString i⟩) a

end Ty

namespace Table

theorem oneLine_holeName (t : Table) (n i : Nat) : OneLine (t.holeName n i) := by
  have hkind : ∀ k : HoleKind, OneLine k.name := by
    intro k
    cases k <;> decide
  induction n generalizing i with
  | zero => exact hkind _
  | succ n ih =>
    rw [holeName]
    split
    · exact hkind _
    · exact Ty.oneLine_render ih _

/-- The text of a type is on one line. -/
theorem oneLine_describe (t : Table) (a : Ty) : OneLine (t.describe a) :=
  Ty.oneLine_render (t.oneLine_holeName t.size) a

end Table

/-! ### Errors -/

/-- The names that are on one line, at any place. -/
def lineSources : Sources where
  names := { name | OneLine name }
  places := Set.univ

namespace TagError

/-- Whether a broken rule on tags **breaks its line**: it quotes a line feed out of the text of a
tag. -/
def breaksLine : TagError → Bool
  | invalidValue _ value => ¬ OneLine value
  | _ => false

/-- A broken rule is **legible** if it is worded on one line whenever it does not break it. -/
def Legible (e : TagError) : Prop :=
  OneLine e.message ↔ e.breaksLine = false

end TagError

theorem Tag.legible_error? {t : Tag} (ht : OneLine t.name) {e : TagError} {span : Span}
    (h : t.error? = some (e, span)) : e.Legible := by
  rw [error?] at h
  split at h
  · obtain ⟨rfl, -⟩ := Prod.mk.inj (Option.some.inj h)
    exact iff_of_true (oneLine_append.2 ⟨oneLine_append.2 ⟨by decide, ht⟩, by decide⟩) rfl
  · obtain ⟨rfl, -⟩ := Prod.mk.inj (Option.some.inj h)
    exact iff_of_true (oneLine_append.2 ⟨oneLine_append.2 ⟨by decide, ht⟩, by decide⟩) rfl
  · cases h
  · obtain ⟨rfl, -⟩ := Prod.mk.inj (Option.some.inj h)
    exact iff_of_true (oneLine_append.2 ⟨oneLine_append.2 ⟨by decide, ht⟩, by decide⟩) rfl
  · rename_i value _ _
    split at h
    · cases h
    · obtain ⟨rfl, -⟩ := Prod.mk.inj (Option.some.inj h)
      have hvalue : OneLine ("'" ++ value.text) ↔ OneLine value.text :=
        oneLine_append.trans (and_iff_right (by decide))
      have hmessage : OneLine (TagError.invalidValue t.name value.text).message ↔
          OneLine value.text := by
        refine oneLine_append.trans ((and_iff_left (by decide)).trans ?_)
        refine oneLine_append.trans ((and_iff_left ht).trans ?_)
        exact oneLine_append.trans ((and_iff_left (by decide)).trans hvalue)
      exact hmessage.trans (decide_eq_false_iff_not.trans not_not).symm

theorem Metadata.legible_error? {m : Metadata} (hm : ∀ t ∈ m.tags, OneLine t.name) {on : Tagged}
    {e : TagError} {span : Span} (h : m.error? on = some (e, span)) : e.Legible := by
  rw [error?, Option.or_eq_some_iff] at h
  rcases h with h | ⟨-, h⟩
  · obtain ⟨t, ht, he⟩ := List.exists_of_findSome?_eq_some h
    exact Tag.legible_error? (hm t ht) he
  · obtain ⟨rule, hrule, heq⟩ := Option.map_eq_some_iff.1 h
    obtain ⟨rfl, -⟩ := Prod.mk.inj heq
    have hmem : rule.error ∈ (m.rules on).map (·.error) :=
      List.mem_map_of_mem (List.mem_of_find?_eq_some hrule)
    generalize rule.error = e at hmem
    cases on <;> simp only [rules, List.map_cons, List.map_nil, List.mem_cons, List.not_mem_nil,
      or_false] at hmem <;> rcases hmem with rfl | rfl | rfl | rfl <;>
        exact iff_of_true (by decide) rfl

namespace CheckError

/-- Whether an error **breaks its line**: it quotes a line feed, as only tags can. -/
def breaksLine : CheckError → Bool
  | metadata e _ => e.breaksLine
  | _ => false

/-- An error is **legible** if it is worded on one line whenever it does not break it. -/
def Legible (e : CheckError) : Prop :=
  OneLine e.message ↔ e.breaksLine = false

/-- Texts of types and names on one line make a message on one line. -/
theorem MadeOf.legible {e : CheckError} (h : e.MadeOf lineSources.names) : e.Legible := by
  have htext := Table.oneLine_describe
  cases h with
  | undefinedName hname span =>
    exact iff_of_true (oneLine_append.2 ⟨oneLine_append.2 ⟨by decide, hname⟩, by decide⟩) rfl
  | repeatedName hname span =>
    exact iff_of_true (oneLine_append.2 ⟨oneLine_append.2 ⟨by decide, hname⟩, by decide⟩) rfl
  | mismatch t a b span =>
    refine iff_of_true (oneLine_append.2 ⟨oneLine_append.2 ⟨?_, by decide⟩, htext t b⟩) rfl
    exact oneLine_append.2 ⟨by decide, htext t a⟩
  | notConvertible t a b span =>
    exact iff_of_true (oneLine_append.2 ⟨oneLine_append.2 ⟨htext t a, by decide⟩, htext t b⟩)
      rfl
  | binaryOperator op t a b span =>
    refine iff_of_true (oneLine_append.2 ⟨oneLine_append.2 ⟨?_, by decide⟩, htext t b⟩) rfl
    refine oneLine_append.2 ⟨oneLine_append.2 ⟨oneLine_append.2 ⟨by decide, ?_⟩, by decide⟩,
      htext t a⟩
    cases op <;> decide
  | negation t a span => exact iff_of_true (oneLine_append.2 ⟨by decide, htext t a⟩) rfl
  | notPointer span => exact iff_of_true (by decide : OneLine "expected a pointer") rfl
  | invalidCast t a dest span =>
    refine iff_of_true (oneLine_append.2 ⟨oneLine_append.2 ⟨?_, dest.oneLine_text⟩, by decide⟩)
      rfl
    exact oneLine_append.2 ⟨oneLine_append.2 ⟨by decide, htext t a⟩, by decide⟩
  | arity expected found span =>
    refine iff_of_true (oneLine_append.2 ⟨?_, oneLine_toString found⟩) rfl
    exact oneLine_append.2 ⟨oneLine_append.2 ⟨by decide, oneLine_toString expected⟩, by decide⟩
  | openLiteral t a span =>
    exact iff_of_true (oneLine_append.2 ⟨oneLine_append.2 ⟨by decide, htext t a⟩, by decide⟩)
      rfl
  | openVariable hname span =>
    exact iff_of_true (oneLine_append.2 ⟨oneLine_append.2 ⟨by decide, hname⟩, by decide⟩) rfl
  | missingLabel span =>
    exact iff_of_true (by decide : OneLine "global variable missing type label") rfl

end CheckError

/-! ### Definitions -/

namespace Walk

open Table

/-- **The errors of a definition are legible.** -/
theorem legible_definition [RootChoice] (w : Walk) (globals : Bindings) {d : Definition}
    (hd : lineSources.SuppliesDefinition Set.univ w.symbols d)
    (htags : ∀ t ∈ d.metadata.tags, OneLine t.name) :
    ∀ f ∈ (w.definition globals d).2.findings.drop w.findings.length, f.error.Legible := by
  cases herror : d.metadata.error? d.tagged with
  | none =>
    have hwaits : (w.enter d.file).WaitsIn lineSources := fun _ _ ↦ trivial
    have hmoves : Moves lineSources Set.univ (w.enter d.file)
        ((w.enter d.file).content globals d.content).2 := moves_content globals hwaits hd
    obtain ⟨fs, hfs, hmade⟩ := hmoves.exists_findings
    have hdrop : ((w.enter d.file).content globals d.content).2.findings.drop w.findings.length
        = fs := by
      rw [hfs]
      exact List.drop_left
    rw [definition_of_no_error? globals w herror]
    exact fun f hf ↦ (hmade f (hdrop ▸ hf)).2.made.legible
  | some r =>
    obtain ⟨error, span⟩ := r
    rw [(findings_of_error? globals w herror).2, List.drop_left]
    exact List.forall_mem_singleton.2 (Metadata.legible_error? htags herror)

end Walk

/-! ### Files -/

theorem Diagnostic.oneLine_plain_ofFile {name : String} {source : SourceFile}
    (hname : OneLine name) (hpath : OneLine source.path) (category : Category) (message : String)
    (span : Span) :
    OneLine (ofFile name source category message span).plain ↔ OneLine message := by
  have hplace : OneLine (ofFile name source category message span).place := by
    refine oneLine_append.2 ⟨?_, oneLine_toString _⟩
    refine oneLine_append.2 ⟨?_, by decide⟩
    exact oneLine_append.2 ⟨oneLine_append.2 ⟨hpath, by decide⟩, oneLine_toString _⟩
  have hfront : OneLine ("[" ++ name ++ "] ") :=
    oneLine_append.2 ⟨oneLine_append.2 ⟨by decide, hname⟩, by decide⟩
  exact oneLine_append.trans
    (and_iff_right (oneLine_append.2 ⟨oneLine_append.2 ⟨hfront, hplace⟩, by decide⟩))

/-- What names an expression that is read are tokens, and those are on one line. -/
theorem Expr.Placed.supplies {text : List Char} {e : Expr} (h : e.Placed text) :
    lineSources.Supplies e := by
  refine ⟨fun n name symbol hmem ↦ ?_, fun _ _ ↦ trivial⟩
  obtain ⟨t, ht, -, -, hkind, htext⟩ := (h _ hmem).token rfl
  have hword : OneLine t.word := by
    refine (Token.legible_of_mem_scanFrom ht).oneLine_word ?_ ?_
    · rw [hkind]
      rfl
    · rw [hkind]
      decide
  rw [Token.word, htext, String.ofList_toList] at hword
  exact hword

namespace Program

variable {es : List Entry} {p : Program} {name : String} {source : SourceFile}

/-- **The names of a program are on one line**, and so are those of the tags of its entries. -/
structure Legible (es : List Entry) (p : Program) : Prop extends p.Traces es where
  names : ∀ s ∈ p.symbols, OneLine s.name
  tags : ∀ e ∈ es, ∀ t ∈ e.definition.metadata.tags, OneLine t.name

theorem legible_empty (name : String) : (empty name).Legible [] :=
  ⟨traces_empty name, fun _ h ↦ absurd h List.not_mem_nil, fun _ h ↦ absurd h List.not_mem_nil⟩

/-- What is reported of entries quotes nothing but their names. -/
theorem oneLine_reports (hname : OneLine name) (hpath : OneLine source.path) {before : List Entry}
    (hes : ∀ e ∈ es, OneLine e.word) :
    ∀ g ∈ Entry.reports name source before es, OneLine g.plain := by
  induction es generalizing before with
  | nil => exact List.forall_mem_nil _
  | cons e es ih =>
    obtain ⟨he, hes⟩ := List.forall_mem_cons.1 hes
    rw [Entry.reports]
    refine List.forall_mem_append.2 ⟨List.forall_mem_append.2 ⟨?_, ?_⟩, ih hes⟩
    · refine List.forall_mem_map.2 fun t _ ↦ ?_
      exact (Diagnostic.oneLine_plain_ofFile hname hpath _ _ _).2 (by decide)
    · split
      · exact List.forall_mem_nil _
      · refine List.forall_mem_singleton.2 ?_
        refine (Diagnostic.oneLine_plain_ofFile hname hpath _ _ _).2 ?_
        exact oneLine_append.2 ⟨oneLine_append.2 ⟨by decide, he⟩, by decide⟩

theorem legible_reading (h : p.Legible es) (source : SourceFile) : (p.reading source).Legible :=
  Build.legible_readTo _ (p.stands_draft source)
    ⟨fun _ ht ↦ Token.legible_of_mem_scanFrom ht, h.names⟩

/-- **One more file**: names stay on one line, and what is reported breaks a line only if what ended
the file does. -/
theorem Legible.parseFile (h : p.Legible es) (hname : OneLine p.name)
    (hpath : OneLine source.path) :
    (p.parseFile source).program.Legible (es ++ (p.reading source).entries) ∧
      ((∀ g ∈ (p.parseFile source).diagnostics, OneLine g.plain) ↔
        ∀ e, (p.parseFile source).error? = some e → e.cause.breaksLine = false) := by
  have hreading := legible_reading h source
  have houtcome := outcome_parseFile h.records source
  have htraces := h.toTraces.parseFile source
  refine ⟨⟨htraces, ?_, List.forall_mem_append.2 ⟨h.tags, hreading.tags⟩⟩, ?_⟩
  · rw [houtcome.symbols_eq]
    exact hreading.names
  · have hword : ∀ e ∈ (p.reading source).entries, OneLine e.word := by
      intro e he
      obtain ⟨s, hs, hnames⟩ := (htraces.sound e (List.mem_append_right _ he)).named
      rw [houtcome.symbols_eq] at hs
      rw [Entry.word, ← hnames.name_eq]
      exact hreading.names s (List.mem_of_getElem? hs)
    have hrepeats : ∀ g ∈ (Tag.repeats [] (p.reading source).loose).map
        (Tag.repeatReport p.name source), OneLine g.plain := by
      refine List.forall_mem_map.2 fun t _ ↦ ?_
      exact (Diagnostic.oneLine_plain_ofFile hname hpath _ _ _).2 (by decide)
    rw [houtcome.diagnostics_eq, houtcome.error?_eq, List.forall_mem_append, List.forall_mem_append,
      and_iff_right ⟨oneLine_reports hname hpath hword, hrepeats⟩, List.forall_mem_map]
    refine forall_congr' fun e ↦ ?_
    rw [Option.mem_toList]
    refine imp_congr_right fun he ↦ ?_
    exact (Diagnostic.oneLine_plain_ofFile hname hpath _ _ _).trans (hreading.error e he)

/-- **Files one after another.** -/
theorem Legible.parseFiles {sources : List SourceFile} (h : p.Legible es) (hname : OneLine p.name)
    (hpaths : ∀ source ∈ sources, OneLine source.path) :
    (p.parseFiles sources).1.Legible (es ++ p.entries sources) ∧
      ((∀ g ∈ (p.parseFiles sources).2.1, OneLine g.plain) ↔
        ∀ e, some e ∈ (p.parseFiles sources).2.2 → e.cause.breaksLine = false) := by
  induction sources generalizing es p with
  | nil =>
    rw [entries, List.append_nil]
    exact ⟨h, iff_of_true (List.forall_mem_nil _) fun _ he ↦ absurd he List.not_mem_nil⟩
  | cons source sources ih =>
    obtain ⟨hpath, hpaths⟩ := List.forall_mem_cons.1 hpaths
    obtain ⟨hfile, hfirst⟩ := h.parseFile hname hpath
    have hname' : OneLine (p.parseFile source).program.name :=
      (outcome_parseFile h.records source).name_eq.symm ▸ hname
    obtain ⟨hfiles, hmore⟩ := ih hfile hname' hpaths
    rw [entries, ← List.append_assoc]
    refine ⟨hfiles, ?_⟩
    show (∀ g ∈ (p.parseFile source).diagnostics ++ _, OneLine g.plain) ↔
      ∀ e, some e ∈ (p.parseFile source).error? :: _ → e.cause.breaksLine = false
    rw [List.forall_mem_append, hfirst, hmore, ← forall_and]
    refine forall_congr' fun e ↦ ?_
    rw [List.mem_cons, or_imp, eq_comm]

/-- Every symbol is called by a name on one line. -/
theorem Legible.calls (h : p.Legible es) (i : Nat) : lineSources.Calls p.symbols i := by
  refine ⟨?_, trivial⟩
  cases hi : p.symbols[i]? with
  | none => exact (by decide : OneLine "")
  | some s => exact h.names s (List.mem_of_getElem? hi)

variable [Table.RootChoice]

/-- **What checking finds is legible.** -/
theorem Legible.findings_check (h : p.Legible es) (hlocated : p.Located) :
    ∀ f ∈ p.check.findings, f.error.Legible := by
  intro f hf
  rw [Program.findings_check, accounts_eq_map_stages, List.flatMap_map] at hf
  obtain ⟨x, hx, hf⟩ := List.mem_flatMap.1 hf
  obtain ⟨hstages, -⟩ := Walk.places_of_stages p.globals p.definitions
    (Walk.start p.symbols) rfl rfl hlocated.placed
  obtain ⟨hmem, -, hplaces⟩ := hstages x hx
  obtain ⟨source, -, hplaced⟩ := hlocated.definitions x.2 hmem
  obtain ⟨e, he, hdefinition⟩ := h.exists_entry hmem
  refine Walk.legible_definition x.1 p.globals ⟨fun e he ↦ (hplaced.expr he).1.supplies, fun i _ ↦
    (h.calls i).of_places hplaces.symm, fun _ _ _ _ _ ↦ trivial⟩ (hdefinition ▸ h.tags e he) f hf

/-- **What checking reports** breaks a line only if an error does. -/
theorem Legible.check (h : p.Legible es) (hlocated : p.Located) (hname : OneLine p.name)
    (hpaths : ∀ source ∈ p.files, OneLine source.path) :
    (∀ g ∈ p.check.diagnostics, OneLine g.plain) ↔
      ∀ e ∈ p.check.errors, e.breaksLine = false := by
  have hpath : ∀ i : Nat, OneLine (p.files[i]?.getD default).path := by
    intro i
    cases hi : p.files[i]? with
    | none => exact (by decide : OneLine "")
    | some source => exact hpaths source (List.mem_of_getElem? hi)
  -- checking changes neither the name of the module nor its files
  have hname' : OneLine p.check.program.name := hname
  rw [Report.diagnostics, Report.errors, List.forall_mem_map, List.forall_mem_map]
  refine forall_congr' fun f ↦ imp_congr_right fun hf ↦ ?_
  refine Iff.trans ?_ (h.findings_check hlocated f hf)
  exact Diagnostic.oneLine_plain_ofFile hname' (hpath f.file) _ _ _

/-- Everything that is reported of files, when they are read and when they are checked. -/
def reported (name : String) (sources : List SourceFile) : List Diagnostic :=
  ((empty name).parseFiles sources).2.1 ++ (ofFiles name sources).check.diagnostics

/-- **No line is broken** by what is wrong with files. -/
structure Unbroken (name : String) (sources : List SourceFile) : Prop where
  read : ∀ e, some e ∈ ((empty name).parseFiles sources).2.2 → e.cause.breaksLine = false
  checked : ∀ e ∈ (ofFiles name sources).check.errors, e.breaksLine = false

theorem oneLine_reported_iff {sources : List SourceFile} (hname : OneLine name)
    (hpaths : ∀ source ∈ sources, OneLine source.path) :
    (∀ g ∈ reported name sources, OneLine g.plain) ↔ Unbroken name sources := by
  obtain ⟨hlegible, hread⟩ := (legible_empty name).parseFiles hname hpaths
  obtain ⟨hlocated, hfiles⟩ := located_ofFiles name sources
  have hname' : (ofFiles name sources).name = name := ((traces_empty name).parseFiles sources).2
  have hchecked := hlegible.check hlocated (hname'.symm ▸ hname) (hfiles.symm ▸ hpaths)
  rw [reported, List.forall_mem_append, hread]
  exact (and_congr_right' hchecked).trans ⟨fun h ↦ ⟨h.1, h.2⟩, fun h ↦ ⟨h.read, h.checked⟩⟩

end Program

/-! ### The command -/

namespace Command

theorem toList_ofLines_cons (line : String) (lines : List String) :
    (ofLines (line :: lines)).toList = line.toList ++ '\n' :: (ofLines lines).toList := by
  simp [ofLines]

/-- Each line ends with a line feed of its own. -/
theorem length_le_count_ofLines (lines : List String) :
    lines.length ≤ (ofLines lines).toList.count '\n' := by
  induction lines with
  | nil => exact Nat.zero_le _
  | cons line lines ih =>
    rw [toList_ofLines_cons, List.count_append, List.count_cons_self, List.length_cons]
    omega

/-- A text of lines has as many line feeds as lines exactly if none of the lines has one. -/
theorem count_ofLines_eq_iff (lines : List String) :
    (ofLines lines).toList.count '\n' = lines.length ↔ ∀ line ∈ lines, OneLine line := by
  induction lines with
  | nil => exact iff_of_true rfl (List.forall_mem_nil _)
  | cons line lines ih =>
    have hle := length_le_count_ofLines lines
    rw [toList_ofLines_cons, List.count_append, List.count_cons_self, List.length_cons,
      List.forall_mem_cons, ← ih, OneLine, ← List.count_eq_zero]
    omega

/-- What the command writes to standard error: what cannot be read, and then everything that is
reported of the rest. -/
theorem stderr_run (o : Options) (read : String → Except ReadError String) :
    (run o read).stderr =
      ofLines ((unreadable read o.paths).map fun f ↦ readErrorLine o.style f.1 f.2) ++
        ofLines ((Program.reported o.moduleName (readable read o.paths)).flatMap
          (diagnosticLines o.style)) := by
  simp only [run, Program.checkInto, Reporter.held_reportAll, Reporter.held_empty, List.nil_append]
  rfl

end Command

/-- **One line for each diagnostic, as long as none is broken**. If the module and its files are
named on one line, what is reported of them is on one line each exactly if no line feed is quoted:
neither as an escape code, nor as the rune of the line feed where no rune can stand, nor in the text
of a tag. Exactly then the command writes as many lines as there are diagnostics. -/
theorem Program.oneLine_plain_iff [Table.RootChoice] (name : String) (sources : List SourceFile)
    (hname : OneLine name) (hpaths : ∀ source ∈ sources, OneLine source.path) :
    ((∀ g ∈ reported name sources, OneLine g.plain) ↔ Unbroken name sources) ∧
      ∀ (o : Command.Options) (read : String → Except ReadError String), o.style = .plain →
        o.moduleName = name → Command.unreadable read o.paths = [] →
        Command.readable read o.paths = sources →
          ((Command.run o read).stderr.toList.count '\n' =
            (@reported Table.byRank name sources).length ↔ @Unbroken Table.byRank name sources) := by
  refine ⟨oneLine_reported_iff hname hpaths, fun o read hstyle hmodule hfailures hsources ↦ ?_⟩
  have hstderr : (Command.run o read).stderr =
      Command.ofLines ((@reported Table.byRank name sources).map Diagnostic.plain) := by
    rw [Command.stderr_run, hfailures, hsources, hmodule, hstyle, List.map_nil,
      List.map_eq_flatMap]
    exact String.empty_append
  rw [hstderr, ← @oneLine_reported_iff name Table.byRank sources hname hpaths,
    ← List.forall_mem_map, ← Command.count_ofLines_eq_iff, List.length_map]


/-- A tag with an escaped line feed is found out when it is checked, not when it is read. -/
theorem Program.oneLine_plain_iff_tag :
    let source : SourceFile := ⟨"a.berry", "@callconv(\"\\n\") func f();"⟩
    OneLine "main" ∧ OneLine source.path ∧ ((empty "main").parseFiles [source]).2.2 = [none] ∧
      ¬ (∀ g ∈ reported "main" [source], OneLine g.plain) ∧ ¬ Unbroken "main" [source] := by
  intro source
  have hbroken : ¬ ∀ g ∈ reported "main" [source], OneLine g.plain := by decide +kernel
  obtain ⟨hiff, -⟩ := oneLine_plain_iff "main" [source] (by decide)
    (List.forall_mem_singleton.2 (by decide))
  exact ⟨by decide, by decide, by decide +kernel, hbroken, fun h ↦ hbroken (hiff.2 h)⟩

/-- **A diagnostic on two lines**: the rune of the line feed, where a definition has to start. -/
theorem Program.line_broken_by_rune :
    ¬ ∀ g ∈ reported "main" [⟨"a.berry", "'\n'"⟩], OneLine g.plain := by
  decide +kernel

end FrontEnd
