import FrontEnd.Proofs.Program.Faults
import FrontEnd.Proofs.Program.Places
import FrontEnd.Proofs.Program.Transfer

/-!
# Files that are joined

Two files, of which the first one can be read, may be joined to one by a line feed. What is read
from the joined file is what is read from the two, one behind the other, in its other place
(`Relocation.Halfway.parsed`). The definitions of the first file end where it ends, so reading the
joined file comes to the place where the second one starts, and from there on it is the second file
that is read, further on in the text.
-/

namespace FrontEnd

open Build

/-! ### The end of a file -/

/-- What comes of a file that has been read. -/
def Parsed.ofRun (source : SourceFile) (r : Except ParseError Unit × Draft) : Parsed :=
  match r with
  | (.ok (), d) =>
    { program := { d.program with files := d.program.files ++ [source] }
      diagnostics := d.diagnostics, error? := none }
  | (.error e, d) =>
    { program := { d.program with files := d.program.files ++ [source] }
      diagnostics := (d.report e.category e.message e.span).diagnostics, error? := some e }

theorem Program.parseFile_eq_ofRun (p : Program) (source : SourceFile) :
    p.parseFile source =
      .ofRun source (definitionsTo (Token.scan source.text).length (p.draft source)) := by
  show p.parseFile source =
    .ofRun source (definitionsTo (p.draft source).cursor.rest.length (p.draft source))
  rw [parseFile]
  generalize definitionsTo (p.draft source).cursor.rest.length (p.draft source) = r
  rcases r with ⟨e | u, d⟩ <;> rfl

theorem Token.map_shift_zero (ts : List Token) : ts.map (.shift 0) = ts :=
  List.map_id'' (fun _ ↦ rfl) ts

/-- When a file has been read to its end, the last token ends in it. -/
theorem Program.exists_run_of_parseFile {p : Program} (hp : p.Located) {source : SourceFile}
    (h : (p.parseFile source).error? = none) :
    ∃ e, definitionsTo (Token.scan source.text).length (p.draft source) = (.ok (), e) ∧
      e.cursor.lastStop ≤ source.text.utf8ByteSize := by
  obtain ⟨u, hu⟩ := (parseFile_ok_iff p source).1 h
  have hplaces := (keepsPlaces_definitionsTo (Token.scan source.text).length (hp.draft source)).2
  generalize definitionsTo (Token.scan source.text).length (p.draft source) = r at hu hplaces
  obtain ⟨x, e⟩ := r
  obtain rfl : x = .ok u := hu
  obtain ⟨before, after, htext, hstop⟩ := hplaces.placed.isBoundary
  refine ⟨e, rfl, ?_⟩
  rw [hstop, ← byteLength_toList, show source.text.toList = before ++ after from htext,
    byteLength_append]
  exact Nat.le_add_right _ _

namespace Insertion

variable {I : Insertion} {us : List Token} {d d' : Draft} {n m : Nat}

/-- **If both streams end together, the same comes of both files.** -/
theorem InStep.parsed (hd : I.InStep us d d') (hwhole : I.Whole) (hus : ∀ t ∈ us, t.kind ≠ .finish)
    (hn : us.length < n) (hm : us.length < m) (source source' : SourceFile) :
    let a := Parsed.ofRun source (definitionsTo n d)
    let b := Parsed.ofRun source' (definitionsTo m d')
    I.relocation.Leads a.program b.program ∧ b.error? = a.error?.map (.shift I.offset) ∧
      b.diagnostics.map Diagnostic.gist =
        (I.earlier ++ a.diagnostics.map (Diagnostic.shift I.offset)).map Diagnostic.gist := by
  have hlength : I.tail.length = 1 := by rw [hwhole]; rfl
  have hr := definitionsTo_inStep hd hus hn (by omega : us.length + I.tail.length ≤ m)
  generalize definitionsTo n d = r at hr
  rcases r with ⟨x | u, e⟩
  · obtain ⟨e', hrun, hmatch⟩ := hr hwhole
    rw [hrun]
    exact ⟨{ hmatch with }, rfl, (hmatch.report _ _ _).diagnostics⟩
  · obtain ⟨m', e', hm', hrun, hstep⟩ := hr
    obtain ⟨m', rfl⟩ : ∃ k, m' = k + 1 := Nat.exists_eq_add_of_le' (by omega)
    have hkind : e'.cursor.current.kind = .finish := by
      rw [hstep.cursor.current' (.inr hwhole), hstep.cursor.current]
      exact I.mark_kind
    rw [hrun, definitionsTo_succ, if_pos hkind]
    exact ⟨{ hstep with }, rfl, hstep.diagnostics⟩

end Insertion

namespace Relocation

variable {ρ : Relocation} {p p' : Program}

/-- **A file may be read into a program in another place.** -/
theorem leads_parseFile (h : ρ.Leads p p') (hfile : ρ.file p.files.length = p'.files.length)
    (hspan : ρ.span p.files.length = .shift 0) (source : SourceFile) :
    ρ.Leads (p.parseFile source).program (p'.parseFile source).program := by
  obtain ⟨ts, stop, hscan, hts⟩ := Token.exists_scan_eq source.text
  let I : Insertion :=
    { offset := 0, mark := .finishAt stop, tail := [.finishAt stop], mark_kind := rfl
      tail_ne_nil := List.cons_ne_nil _ _, relocation := ρ, file := p.files.length, earlier := []
      span_eq := hspan }
  have hstep : I.InStep ts (p.draft source) (p'.draft source) :=
    ⟨⟨h, rfl, hfile.symm, rfl⟩, hscan, hscan.trans (by rw [Token.map_shift_zero]), rfl⟩
  have hlength : ts.length < (Token.scan source.text).length := by
    rw [hscan, List.length_append]
    exact Nat.lt_succ_self _
  rw [Program.parseFile_eq_ofRun, Program.parseFile_eq_ofRun]
  exact (hstep.parsed rfl hts hlength hlength source source).1

/-- The same for several files, where the relocation leaves them at their places. -/
theorem leads_parseFiles (hp : p.Located) (h : ρ.Leads p p) (sources : List SourceFile)
    (hρ : ∀ i < p.files.length + sources.length, ρ.file i = i ∧ ρ.span i = .shift 0) :
    ρ.Leads (p.parseFiles sources).1 (p.parseFiles sources).1 := by
  induction sources generalizing p with
  | nil => exact h
  | cons source sources ih =>
    obtain ⟨hfile, hspan⟩ := hρ p.files.length (by simp)
    obtain ⟨hlocated, hfiles, -⟩ := hp.parseFile source
    refine ih hlocated (leads_parseFile h hfile hspan source) ?_
    intro i hi
    rw [hfiles, List.length_append, List.length_singleton] at hi
    exact hρ i (by rw [List.length_cons]; omega)

/-! ### Two files -/

/-- **A joined file has been read up to the second part**, which has the tokens `ts` when it stands
alone: `parsed` is what came of the first part. -/
structure Halfway (ρ : Relocation) (parsed : Parsed) (offset : Nat) (ts : List Token) (d : Draft) :
    Prop extends ρ.Leads parsed.program d.program where
  file : ρ.file parsed.program.files.length = d.file
  rest : d.cursor.rest = ts.map (.shift offset)
  lastStop_le : d.cursor.lastStop ≤ offset
  diagnostics : d.diagnostics.map Diagnostic.gist = parsed.diagnostics.map Diagnostic.gist

/-- Up to the end of the first file the offsets are the same, and the second file is to come. -/
theorem exists_halfway (hp : p.Located) (h : ρ.Leads p p') (pathA pathC : String) {f₁ : String}
    (hfirst : (p.parseFile ⟨pathA, f₁⟩).error? = none) (f₂ : String)
    (hfile : ρ.file p.files.length = p'.files.length)
    (hspan : ρ.span p.files.length = .shift 0)
    (hfile' : ρ.file (p.files.length + 1) = p'.files.length) :
    ∃ m d, (Token.scan f₂).length ≤ m ∧
      p'.parseFile ⟨pathC, f₁ ++ "\n" ++ f₂⟩ =
        .ofRun ⟨pathC, f₁ ++ "\n" ++ f₂⟩ (definitionsTo m d) ∧
      (p.parseFile ⟨pathA, f₁⟩).program.files.length = p.files.length + 1 ∧
      ρ.Halfway (p.parseFile ⟨pathA, f₁⟩) (f₁.utf8ByteSize + 1) (Token.scan f₂) d := by
  obtain ⟨ts, stop, hscan, hts⟩ := Token.exists_scan_eq f₁
  have hjoined := Token.scan_joined (Program.faultless_of_parseFile hfirst) f₂
  obtain ⟨e, hrun, hstop⟩ := Program.exists_run_of_parseFile hp hfirst
  let I : Insertion :=
    { offset := 0, mark := .finishAt stop
      tail := (Token.scan f₂).map (.shift (f₁.utf8ByteSize + 1)), mark_kind := rfl
      tail_ne_nil := fun hnil ↦ Token.scanFrom_ne_nil 0 f₂.toList (List.map_eq_nil_iff.1 hnil)
      relocation := ρ, file := p.files.length, earlier := [], span_eq := hspan }
  have hstep : I.InStep ts (p.draft ⟨pathA, f₁⟩) (p'.draft ⟨pathC, f₁ ++ "\n" ++ f₂⟩) := by
    refine ⟨⟨h, rfl, hfile.symm, rfl⟩, hscan, ?_, rfl⟩
    show Token.scan (f₁ ++ "\n" ++ f₂) = _
    rw [hjoined, hscan, List.dropLast_concat, Token.map_shift_zero]
  have hend := definitionsTo_inStep (n := (Token.scan f₁).length)
    (m := (Token.scan (f₁ ++ "\n" ++ f₂)).length) hstep hts
    (by rw [hscan, List.length_append]; exact Nat.lt_succ_self _)
    (by rw [hjoined, hscan, List.dropLast_concat, List.length_append])
  rw [hrun] at hend
  obtain ⟨m, d, hm, hrun', hstep'⟩ := hend
  have hfiles : (e.program.files ++ [(⟨pathA, f₁⟩ : SourceFile)]).length = p.files.length + 1 := by
    rw [List.length_append, show e.program.files.length = p.files.length from hstep'.file]
    rfl
  have hlast : max d.cursor.lastStop 0 = e.cursor.lastStop := hstep'.cursor.lastStop
  have hle : e.cursor.lastStop ≤ f₁.utf8ByteSize := hstop
  rw [p.parseFile_eq_ofRun, show definitionsTo _ (p.draft ⟨pathA, f₁⟩) = _ from hrun]
  refine ⟨m, d, ?_, (p'.parseFile_eq_ofRun _).trans (congrArg _ hrun'), hfiles,
    { hstep' with file := ?_, rest := hstep'.cursor.rest', lastStop_le := ?_, diagnostics := ?_ }⟩
  · simpa [I] using hm
  · exact (congrArg ρ.file hfiles).trans (hfile'.trans (hfile.symm.trans hstep'.file'.symm))
  · omega
  · refine hstep'.diagnostics.trans ?_
    show ([] ++ e.diagnostics.map (Diagnostic.shift 0)).map Diagnostic.gist =
      e.diagnostics.map Diagnostic.gist
    rw [List.nil_append, List.map_map]
    rfl

/-- From there on the second file is read, further on in the text. -/
theorem Halfway.parsed {parsed : Parsed} {offset m : Nat} {f₂ : String} {d : Draft}
    (h : ρ.Halfway parsed offset (Token.scan f₂) d) (hm : (Token.scan f₂).length ≤ m)
    (hspan : ρ.span parsed.program.files.length = .shift offset) (pathB : String)
    (source : SourceFile) :
    let second := parsed.program.parseFile ⟨pathB, f₂⟩
    let joined := Parsed.ofRun source (definitionsTo m d)
    ρ.Leads second.program joined.program ∧ joined.error? = second.error?.map (.shift offset) ∧
      joined.diagnostics.map Diagnostic.gist =
        (parsed.diagnostics ++ second.diagnostics.map (Diagnostic.shift offset)).map
          Diagnostic.gist := by
  obtain ⟨ts, stop, hscan, hts⟩ := Token.exists_scan_eq f₂
  let I : Insertion :=
    { offset, mark := .finishAt stop, tail := [(Token.finishAt stop).shift offset], mark_kind := rfl
      tail_ne_nil := List.cons_ne_nil _ _, relocation := ρ, file := parsed.program.files.length
      earlier := d.diagnostics, span_eq := hspan }
  have hstep : I.InStep ts (parsed.program.draft ⟨pathB, f₂⟩) d := by
    refine ⟨⟨h.toLeads, rfl, h.file.symm, congrArg _ (List.append_nil _).symm⟩, hscan, ?_, ?_⟩
    · rw [h.rest, hscan, List.map_append]
      rfl
    · exact (Nat.max_eq_right h.lastStop_le).trans (Nat.zero_add _).symm
  have hlength : ts.length < (Token.scan f₂).length := by
    rw [hscan, List.length_append]
    exact Nat.lt_succ_self _
  intro second joined
  obtain ⟨hleads, herror, hgists⟩ := hstep.parsed rfl hts hlength (Nat.lt_of_lt_of_le hlength hm)
    ⟨pathB, f₂⟩ source
  rw [← Program.parseFile_eq_ofRun] at hleads herror hgists
  refine ⟨hleads, herror, hgists.trans ?_⟩
  rw [List.map_append, List.map_append, h.diagnostics]

end Relocation

end FrontEnd
