import FrontEnd.Proofs.Check.Accounting
import FrontEnd.Proofs.Diagnostic.Lines

/-!
# What cannot be read leaves no trace

The command takes its paths one by one. A path that cannot be read costs a line of its own and is
left out; a file that can be read is numbered by how many have been read before it, and everything
that is reported later finds its file by that number. So it has to be shown that leaving paths out
moves no number: the command does on all paths what it does on those that can be read
(`Command.run_skips_unreadable`).

A **session** is the state between two paths. Taking paths one by one comes to the same as reading
all of them first (`Command.run_eq_finish`), and in a session a file that is left out does not
count.
-/

namespace FrontEnd

/-! ### Reports and files -/

namespace Program

variable {p : Program}

/-- What is reported while files are read points into them. -/
theorem Located.pointsInto_parseFiles {sources : List SourceFile} (h : p.Located) {g : Diagnostic}
    (hg : g ∈ (p.parseFiles sources).2.1) : ∃ source ∈ sources, g.PointsInto source := by
  induction sources generalizing p with
  | nil => exact absurd hg List.not_mem_nil
  | cons source sources ih =>
    obtain ⟨hlocated, -, hparsed⟩ := h.parseFile source
    rcases List.mem_append.1 (show g ∈ _ ++ _ from hg) with hg | hg
    · exact ⟨source, List.mem_cons_self, hparsed g hg⟩
    · obtain ⟨other, hmem, hpoints⟩ := ih hlocated hg
      exact ⟨other, List.mem_cons_of_mem _ hmem, hpoints⟩

variable [Table.RootChoice]

/-- What is reported of a checked program points into its files. -/
theorem Located.pointsInto_check (h : p.Located) {g : Diagnostic} (hg : g ∈ p.check.diagnostics) :
    ∃ source ∈ p.files, g.PointsInto source := by
  rw [Report.diagnostics, findings_check, List.map_flatMap] at hg
  obtain ⟨x, hx, hg⟩ := List.mem_flatMap.1 hg
  obtain ⟨f, hf, rfl⟩ := List.mem_map.1 hg
  obtain ⟨source, hsource, hblames⟩ := h.blames hx
  obtain ⟨hblame, word, hword⟩ := hblames f hf
  have hfile : p.check.program.files[f.file]? = some source := hblame.file_eq ▸ hsource
  exact ⟨source, List.mem_of_getElem? hsource, pointsInto_diagnostic hfile hword⟩

/-- **Everything that is reported of files points into one of them.** -/
theorem pointsInto_of_mem_reported {name : String} {sources : List SourceFile} {g : Diagnostic}
    (hg : g ∈ reported name sources) : ∃ source ∈ sources, g.PointsInto source := by
  obtain ⟨hlocated, hfiles⟩ := located_ofFiles name sources
  rcases List.mem_append.1 hg with hg | hg
  · exact (located_empty name).pointsInto_parseFiles hg
  · exact hfiles ▸ hlocated.pointsInto_check hg

end Program

theorem Reporter.reportAll_append (r : Reporter) (gs hs : List Diagnostic) :
    r.reportAll (gs ++ hs) = (r.reportAll gs).reportAll hs :=
  List.foldl_append

theorem Reporter.hasErrors_eq_false_iff (r : Reporter) : r.hasErrors = false ↔ r.held = [] := by
  rw [hasErrors, r.count_eq, decide_eq_false_iff_not, Nat.not_lt, Nat.le_zero,
    List.length_eq_zero_iff]

namespace Command

variable {read : String → Except ReadError String}

/-! ### Paths that can be read -/

theorem readable_filter (paths : List String) :
    readable read (paths.filter fun path ↦ (read path).isOk) = readable read paths := by
  rw [readable, readable, List.filterMap_filter]
  refine List.filterMap_congr fun path _ ↦ ?_
  cases read path <;> rfl

theorem unreadable_filter (paths : List String) :
    unreadable read (paths.filter fun path ↦ (read path).isOk) = [] := by
  rw [unreadable, List.filterMap_filter, List.filterMap_eq_nil_iff]
  intro path _
  cases read path <;> rfl

theorem mem_readable {paths : List String} {source : SourceFile} :
    source ∈ readable read paths ↔ source.path ∈ paths ∧ read source.path = .ok source.text := by
  rw [readable, List.mem_filterMap]
  constructor
  · rintro ⟨path, hpath, hsource⟩
    cases hread : read path with
    | error e => simp [hread] at hsource
    | ok text =>
      rw [hread] at hsource
      obtain rfl := Option.some.inj hsource
      exact ⟨hpath, hread⟩
  · rintro ⟨hpath, hread⟩
    exact ⟨source.path, hpath, by rw [hread]⟩

theorem length_readable (paths : List String) :
    (readable read paths).length = (paths.filter fun path ↦ (read path).isOk).length := by
  rw [readable, List.length_filterMap_eq_countP, ← List.countP_eq_length_filter]
  refine List.countP_congr fun path _ ↦ ?_
  cases read path <;> simp [Except.isOk, Except.toBool]

/-- What cannot be read is listed by its paths, in order. -/
theorem map_fst_unreadable (paths : List String) :
    (unreadable read paths).map (·.1) = paths.filter fun path ↦ !(read path).isOk := by
  rw [unreadable, List.map_filterMap, ← List.filterMap_eq_filter]
  refine List.filterMap_congr fun path _ ↦ ?_
  cases hread : read path <;> simp [hread, Option.guard, Except.isOk, Except.toBool]

/-! ### Sessions -/

/-- What has come of the paths so far. -/
structure Session where
  /-- The paths that could not be read, each with the reason. -/
  failures : List (String × ReadError)
  /-- The program made of the files that could be read. -/
  program : Program
  /-- What has been reported of them. -/
  reporter : Reporter

namespace Session

/-- The session before the first path. -/
def start (moduleName : String) : Session :=
  { failures := [], program := .empty moduleName, reporter := .empty }

/-- Takes one path more. -/
def visit (read : String → Except ReadError String) (s : Session) (path : String) : Session :=
  match read path with
  | .error e => { s with failures := s.failures ++ [(path, e)] }
  | .ok text =>
    let parsed := s.program.parseFile { path, text }
    { s with
      program := parsed.program
      reporter := s.reporter.reportAll parsed.diagnostics }

/-- Takes paths in order. -/
def visits (read : String → Except ReadError String) (s : Session) (paths : List String) :
    Session :=
  paths.foldl (visit read) s

/-- Checks what has been read, and writes everything. -/
def finish (s : Session) (o : Options) : Output :=
  let (report, reporter) := s.program.checkInto s.reporter
  { status := if s.failures.isEmpty && !reporter.hasErrors then 0 else 1
    stdout := if o.listTypes then ofLines report.listing else ""
    stderr :=
      ofLines (s.failures.map fun f ↦ readErrorLine o.style f.1 f.2)
        ++ ofLines (reporter.held.flatMap (diagnosticLines o.style)) }

/-- **Taking paths one by one** is reading all that can be read. -/
theorem visits_eq (s : Session) (paths : List String) :
    s.visits read paths =
      { failures := s.failures ++ unreadable read paths
        program := (s.program.parseFiles (readable read paths)).1
        reporter := s.reporter.reportAll (s.program.parseFiles (readable read paths)).2.1 } := by
  induction paths generalizing s with
  | nil => simp [visits, unreadable, readable, Program.parseFiles, Reporter.reportAll]
  | cons path paths ih =>
    rw [visits, List.foldl_cons, ← visits, ih, visit, unreadable, unreadable, readable, readable,
      List.filterMap_cons, List.filterMap_cons]
    cases read path with
    | error e => simp
    | ok text => simp [Program.parseFiles, Reporter.reportAll_append]

/-- **A file is numbered by how many files could be read before it.** -/
theorem getElem?_files_visits (name : String) {before after : List String} {path text : String}
    (hread : read path = .ok text) :
    ((start name).visits read (before ++ path :: after)).program.files[
      (before.filter fun path ↦ (read path).isOk).length]? = some { path, text } := by
  have hfiles : ((start name).visits read (before ++ path :: after)).program.files =
      readable read before ++ { path, text } :: readable read after := by
    rw [visits_eq]
    refine (Program.located_ofFiles name _).2.trans ?_
    rw [readable, List.filterMap_append, List.filterMap_cons, hread]
    rfl
  rw [hfiles, ← length_readable, List.getElem?_append_right (Nat.le_refl _), Nat.sub_self]
  rfl

end Session

/-- **The command may take its paths one by one.** -/
theorem run_eq_finish (o : Options) (read : String → Except ReadError String) :
    run o read = ((Session.start o.moduleName).visits read o.paths).finish o := by
  rw [Session.visits_eq]
  rfl

/-! ### What is written -/

theorem ofLines_eq_empty_iff (lines : List String) : ofLines lines = "" ↔ lines = [] := by
  cases lines with
  | nil => simp [ofLines]
  | cons line lines =>
    refine iff_of_false (fun h ↦ ?_) (List.cons_ne_nil _ _)
    have hcons := toList_ofLines_cons line lines
    rw [h] at hcons
    simp at hcons

/-- The command succeeds if everything could be read and nothing is reported. -/
theorem status_run_eq_zero_iff (o : Options) (read : String → Except ReadError String) :
    (run o read).status = 0 ↔ unreadable read o.paths = [] ∧
      Program.reported o.moduleName (readable read o.paths) = [] := by
  let program := ((Program.empty o.moduleName).parseFiles (readable read o.paths)).1
  let reporter := (program.checkInto (Reporter.empty.reportAll
    ((Program.empty o.moduleName).parseFiles (readable read o.paths)).2.1)).2
  have hheld : reporter.held = Program.reported o.moduleName (readable read o.paths) := by
    show (Reporter.reportAll _ _).held = _
    rw [Reporter.held_reportAll, Reporter.held_reportAll, Reporter.held_empty]
    rfl
  have hstatus : (run o read).status =
      if (unreadable read o.paths).isEmpty && !reporter.hasErrors then 0 else 1 := rfl
  rw [hstatus, ← hheld, ← Reporter.hasErrors_eq_false_iff, ← List.isEmpty_iff]
  cases (unreadable read o.paths).isEmpty <;> cases reporter.hasErrors <;> decide

/-- What is listed depends on what can be read only. -/
theorem stdout_run_filter (o : Options) (read : String → Except ReadError String) :
    (run { o with paths := o.paths.filter fun path ↦ (read path).isOk } read).stdout =
      (run o read).stdout := by
  simp only [run, readable_filter]

/-- In plain lines, the command writes what it could not read and then what is reported. -/
theorem stderr_run_plain {o : Options} (hplain : o.style = .plain)
    (read : String → Except ReadError String) :
    (run o read).stderr =
      ofLines ((unreadable read o.paths).map fun f ↦
        "error: cannot read '" ++ f.1 ++ "': " ++ f.2.message) ++
      ofLines ((Program.reported o.moduleName (readable read o.paths)).map Diagnostic.plain) := by
  rw [stderr_run, hplain, List.map_eq_flatMap (f := Diagnostic.plain)]
  rfl

/-- **What cannot be read leaves no trace** but a line of its own. Let the command be asked for
plain lines. It takes its paths one by one, and a file is numbered by how many could be read before
it. What it writes to standard error is one line for each path that cannot be read, in order, and
then what it writes if it is run on the other paths: one line for each diagnostic, each about a text
that could be read, under its path and by its lines. What it writes to standard output is what it
writes there if it is run on the other paths. And it succeeds exactly if it writes nothing to
standard error. -/
theorem run_skips_unreadable (o : Options) (read : String → Except ReadError String)
    (hplain : o.style = .plain) :
    let kept := o.paths.filter fun path ↦ (read path).isOk
    let rest := run { o with paths := kept } read
    let reports := Program.reported o.moduleName (readable read o.paths)
    let session := (Session.start o.moduleName).visits read o.paths
    run o read = session.finish o ∧
      (∀ before path after text, o.paths = before ++ path :: after → read path = .ok text →
        session.program.files[(before.filter fun path ↦ (read path).isOk).length]? =
          some ⟨path, text⟩) ∧
      (unreadable read o.paths).map (·.1) = (o.paths.filter fun path ↦ !(read path).isOk) ∧
      (run o read).stderr =
        ofLines ((unreadable read o.paths).map fun f ↦
          "error: cannot read '" ++ f.1 ++ "': " ++ f.2.message) ++ rest.stderr ∧
      rest.stderr = ofLines (reports.map Diagnostic.plain) ∧
      (∀ g ∈ reports, ∃ path ∈ kept, ∃ text, read path = .ok text ∧ g.PointsInto ⟨path, text⟩) ∧
      (run o read).stdout = rest.stdout ∧
      ((run o read).status = 0 ↔ (run o read).stderr = "") := by
  intro kept rest reports session
  have hrest : rest.stderr = ofLines (reports.map Diagnostic.plain) := by
    rw [stderr_run_plain (o := { o with paths := kept }) hplain, unreadable_filter, readable_filter]
    exact String.empty_append
  refine ⟨run_eq_finish o read, ?_, map_fst_unreadable o.paths, ?_, hrest, fun g hg ↦ ?_,
    (stdout_run_filter o read).symm, ?_⟩
  · rintro before path after text hpaths hread
    rw [show session = (Session.start o.moduleName).visits read o.paths from rfl, hpaths]
    exact Session.getElem?_files_visits o.moduleName hread
  · rw [stderr_run_plain hplain, hrest]
  · obtain ⟨source, hsource, hpoints⟩ := Program.pointsInto_of_mem_reported hg
    rw [← readable_filter] at hsource
    obtain ⟨hpath, hread⟩ := mem_readable.1 hsource
    exact ⟨source.path, hpath, source.text, hread, hpoints⟩
  · rw [status_run_eq_zero_iff, stderr_run_plain hplain, String.append_eq_empty_iff,
      ofLines_eq_empty_iff, ofLines_eq_empty_iff, List.map_eq_nil_iff, List.map_eq_nil_iff]

/-- A path that leads nowhere stands between two files, and what is wrong with the second file is
reported under its own path. -/
theorem run_skips_unreadable_gone :
    let read : String → Except ReadError String := fun path ↦
      if path = "a.berry" then .ok "func f();"
      else if path = "b.berry" then .ok "let x: bool = 1;"
      else .error .missing
    let o : Options :=
      { paths := ["a.berry", "gone.berry", "b.berry"]
        moduleName := "main"
        style := .plain
        listTypes := true }
    let rest := run { o with paths := ["a.berry", "b.berry"] } read
    o.style = .plain ∧
      (run o read).stderr =
        "error: cannot read 'gone.berry': No such file or directory (os error 2)\n" ++
          rest.stderr ∧
      rest.stderr = "[main] b.berry:1:15: untyped number cannot be implicitly converted to bool\n" ∧
      (run o read).stdout = rest.stdout ∧ rest.stdout = "func f: () -> ()\n" ∧
      (run o read).status = 1 := by
  intro read o rest
  obtain ⟨-, -, -, hstderr, -, -, hstdout, -⟩ := run_skips_unreadable o read rfl
  exact ⟨rfl, hstderr, by decide +kernel, hstdout, by decide +kernel, by decide +kernel⟩

end Command

end FrontEnd
