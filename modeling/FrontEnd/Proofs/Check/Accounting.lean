import FrontEnd.Proofs.Check.Places

/-!
# Accounting for errors

Every error that checking finds is reported once, and it is known of each which definition it
belongs to. An error is either one that a definition survives or the one that ends it. So the errors
of a definition are of one of two forms (`Walk.Accounts`): none of them is fatal, and the definition
came to its end; or exactly one is, it is the last, and the definition was cut short.
-/

namespace FrontEnd

/-- An error on the operands of an operator. -/
def CheckError.OnOperands (e : CheckError) : Prop :=
  (∃ expected found span, e = .mismatch expected found span) ∨
    (∃ op lhs rhs span, e = .binaryOperator op lhs rhs span) ∨
    ∃ operand span, e = .negation operand span

theorem CheckError.onOperands_of_not_isFatal {e : CheckError} (h : e.isFatal = false) :
    e.OnOperands := by
  cases e with
  | mismatch expected found span => exact .inl ⟨expected, found, span, rfl⟩
  | binaryOperator op lhs rhs span => exact .inr (.inl ⟨op, lhs, rhs, span, rfl⟩)
  | negation operand span => exact .inr (.inr ⟨operand, span, rfl⟩)
  | _ => cases h

namespace Walk

open Table

/-- The errors of a definition, and whether they **halted** it: then the last of them is the only
fatal one, and otherwise there is no fatal one. -/
inductive Accounts : Bool → List Finding → Prop
  | running {fs : List Finding} (survived : ∀ f ∈ fs, f.error.isFatal = false) : Accounts false fs
  | halted {before : List Finding} {last : Finding}
    (survived : ∀ f ∈ before, f.error.isFatal = false) (fatal : last.error.isFatal = true) :
    Accounts true (before ++ [last])

namespace Accounts

variable {halted : Bool} {fs : List Finding}

/-- One more error, as long as the definition has not been halted. -/
theorem record (h : Accounts false fs) (f : Finding) : Accounts f.error.isFatal (fs ++ [f]) := by
  cases h with
  | running hfs =>
    cases hf : f.error.isFatal with
    | false => exact .running (List.forall_mem_append.2 ⟨hfs, List.forall_mem_singleton.2 hf⟩)
    | true => exact .halted hfs hf

/-- Nothing but a fatal error halts a definition. -/
theorem any_isFatal (h : Accounts halted fs) : fs.any (·.error.isFatal) = halted := by
  cases h with
  | running hfs =>
    rw [List.any_eq_false]
    exact fun f hf ↦ by simp [hfs f hf]
  | halted hbefore hlast => simp [hlast]

/-- A fatal error is the last one, and there is only one. -/
theorem countP_isFatal (h : Accounts true fs) :
    fs.countP (·.error.isFatal) = 1 ∧ ∃ f, fs.getLast? = some f ∧ f.error.isFatal = true := by
  cases h with
  | halted hbefore hlast =>
    have hnone := List.countP_eq_zero.2 fun f hf ↦ ne_true_of_eq_false (hbefore f hf)
    exact ⟨by rw [List.countP_append, hnone, List.countP_singleton, if_pos hlast],
      _, List.getLast?_concat, hlast⟩

/-- There is only one fatal error. -/
theorem eq_of_isFatal (h : Accounts halted fs) {f g : Finding} (hf : f ∈ fs) (hg : g ∈ fs)
    (hffatal : f.error.isFatal = true) (hgfatal : g.error.isFatal = true) : f = g := by
  cases h with
  | running hfs => cases (hfs f hf).symm.trans hffatal
  | @halted before last hbefore =>
    have hlast : ∀ x ∈ before ++ [last], x.error.isFatal = true → x = last := by
      intro x hx hfatal
      rcases List.mem_append.1 hx with hx | hx
      · cases (hbefore x hx).symm.trans hfatal
      · exact List.mem_singleton.1 hx
    rw [hlast f hf hffatal, hlast g hg hgfatal]

theorem onOperands (h : Accounts false fs) : ∀ f ∈ fs, f.error.OnOperands := by
  cases h with
  | running hfs => exact fun f hf ↦ CheckError.onOperands_of_not_isFatal (hfs f hf)

end Accounts

variable {D : Sources} {L : Set Nat} {w v : Walk}

/-- **A row of moves accounts for its errors.** -/
theorem Moves.accounts (h : Moves D L w v) (hw : w.halted = false) :
    ∃ fs, v.findings = w.findings ++ fs ∧ Accounts v.halted fs := by
  induction h with
  | refl => exact ⟨[], (List.append_nil _).symm, hw ▸ .running (List.forall_mem_nil _)⟩
  | @tail x _ _ hmove ih =>
    obtain ⟨fs, hfs, haccounts⟩ := ih
    cases hmove with
    | @record e hrun _ =>
      rw [hrun] at haccounts
      refine ⟨fs ++ [⟨x.file, e⟩], ?_, ?_⟩
      · rw [Walk.record, hfs, List.append_assoc]
      · rw [Walk.record, hrun, Bool.false_or]
        exact haccounts.record ⟨x.file, e⟩
    | _ => exact ⟨fs, hfs, haccounts⟩

section Agreement

variable [RootChoice]

/-- **A definition accounts for its errors.** -/
theorem accounts_definition (w : Walk) (globals : Bindings) (d : Definition) :
    Accounts (w.definition globals d).2.halted
      ((w.definition globals d).2.findings.drop w.findings.length) := by
  cases herror : d.metadata.error? d.tagged with
  | none =>
    have hmoves : Moves .all Set.univ (w.enter d.file)
        ((w.enter d.file).content globals d.content).2 :=
      moves_content globals (waitsIn_all _) (Sources.suppliesDefinition_all fun _ _ _ _ _ ↦ trivial)
    obtain ⟨fs, hfs, haccounts⟩ := hmoves.accounts rfl
    have hdrop : ((w.enter d.file).content globals d.content).2.findings.drop w.findings.length
        = fs := by
      rw [hfs]
      exact List.drop_left
    rw [definition_of_no_error? globals w herror]
    exact hdrop.symm ▸ haccounts
  | some r =>
    obtain ⟨error, span⟩ := r
    obtain ⟨hhalted, hfindings⟩ := findings_of_error? globals w herror
    rw [hhalted, hfindings, List.drop_left]
    exact Accounts.record (.running (List.forall_mem_nil _))
      (Finding.mk d.file (.metadata error span))

/-- Those that were cut short are those that were halted, in order. -/
theorem aborted_eq_filter (globals : Bindings) (ds : List Definition) (w : Walk) :
    (w.definitions globals ds).2.1 =
      ((w.stages globals ds).filter fun x ↦ (x.1.definition globals x.2).2.halted).map
        (·.2.symbol) := by
  induction ds generalizing w with
  | nil => rfl
  | cons d ds ih =>
    rw [definitions_cons, stages, List.filter_cons, ih]
    dsimp only
    split
    · rw [List.map_cons]
    · rfl

end Agreement

end Walk

namespace Program

variable [Table.RootChoice]

/-- The definitions of a program, each with the errors that are found in it. -/
def accounts (p : Program) : List (Definition × List Finding) :=
  p.definitions.zip p.findingsEach

/-- All errors of a program, each with the definition in which it is found. -/
def blamed (p : Program) : List (Definition × CheckError) :=
  p.accounts.flatMap fun x ↦ x.2.map fun f ↦ (x.1, f.error)

/-- A diagnostic **tells** of an error in a definition of a program that is read from files. -/
structure Tells (sources : List SourceFile) (x : Definition × CheckError) (g : Diagnostic) :
    Prop where
  category_eq : g.category = x.2.category
  message_eq : g.message = x.2.message
  span_eq : g.span = x.2.span
  path_eq : ∃ source, sources[x.1.file]? = some source ∧ g.path = source.path

theorem accounts_eq_map_stages (p : Program) : p.accounts =
    ((Walk.start p.symbols).stages p.globals p.definitions).map fun x ↦
      (x.2, (x.1.definition p.globals x.2).2.findings.drop x.1.findings.length) := by
  have hdefinitions : ((Walk.start p.symbols).stages p.globals p.definitions).map (·.2) =
      p.definitions := Walk.map_snd_stages p.definitions _
  rw [accounts, findingsEach, Walk.findingsEach]
  nth_rewrite 1 [← hdefinitions]
  rw [List.zip_map']

theorem map_fst_accounts (p : Program) : p.accounts.map (·.1) = p.definitions := by
  rw [accounts_eq_map_stages, List.map_map]
  exact Walk.map_snd_stages p.definitions _

/-- **Those that are cut short** are those with a fatal error. -/
theorem aborted_eq (p : Program) : p.check.aborted =
    (p.accounts.filter fun x ↦ x.2.any (·.error.isFatal)).map (·.1.symbol) := by
  have haborted : p.check.aborted = _ := Walk.aborted_eq_filter p.globals p.definitions _
  rw [haborted, accounts_eq_map_stages, List.filter_map, List.map_map]
  refine congrArg (List.map _) (List.filter_congr fun x _ ↦ ?_)
  exact (Walk.accounts_definition x.1 p.globals x.2).any_isFatal.symm

/-- All errors are those of the definitions, in order. -/
theorem findings_check (p : Program) : p.check.findings = p.accounts.flatMap (·.2) := by
  have hfindings : p.check.findings = p.findingsEach.flatten :=
    Walk.findings_definitions p.definitions _ p.allLocalsIn
  rw [hfindings, List.flatMap_def, accounts_eq_map_stages, List.map_map]
  rfl

theorem errors_check (p : Program) : p.check.errors = p.blamed.map (·.2) := by
  rw [Report.errors, findings_check, blamed, List.map_flatMap, List.map_flatMap]
  refine congrArg (List.flatMap · p.accounts) (funext fun x ↦ ?_)
  rw [List.map_map]
  rfl

/-- **Every error is told of by one diagnostic**, in order. -/
theorem Located.tells {p : Program} (h : p.Located) :
    List.Forall₂ (Tells p.files) p.blamed p.check.diagnostics := by
  rw [Report.diagnostics, findings_check, blamed, List.map_flatMap]
  refine List.rel_flatMap (R := fun x y ↦ x ∈ p.accounts ∧ x = y)
    (List.forall₂_same.2 fun x hx ↦ ⟨hx, rfl⟩) ?_
  rintro x _ ⟨hx, rfl⟩
  obtain ⟨source, hsource, hblames⟩ := h.blames hx
  rw [List.forall₂_map_left_iff, List.forall₂_map_right_iff, List.forall₂_same]
  intro f hf
  have hfile : p.check.program.files[f.file]? = some source := (hblames f hf).1.file_eq ▸ hsource
  refine ⟨rfl, rfl, rfl, source, hsource, ?_⟩
  rw [diagnostic, hfile]
  rfl

/-- **Error accounting**. Whatever a reporter holds, checking a program that is read from files adds
one diagnostic for each error, in order, with its category, message and place, and with the path of
the file of the definition in which the error is found; and what it holds is counted. The
definitions that are cut short are, in order, those in which a fatal error is found. Such a
definition has one fatal error, and it is its last; every other one has only errors on operands. -/
theorem checkInto_accounts (name : String) (sources : List SourceFile) (reporter : Reporter) :
    let p := ofFiles name sources
    let r := (p.checkInto reporter).1
    let after := (p.checkInto reporter).2
    r.errors = p.blamed.map (·.2) ∧
      (∃ told, after.held = reporter.held ++ told ∧
        List.Forall₂ (Tells sources) p.blamed told) ∧
      after.count = after.held.length ∧ after.count = reporter.count + r.errors.length ∧
      p.accounts.map (·.1) = p.definitions ∧
      r.aborted = (p.accounts.filter fun x ↦ x.2.any (·.error.isFatal)).map (·.1.symbol) ∧
      ∀ x ∈ p.accounts,
        if x.2.any (·.error.isFatal) then
          x.2.countP (·.error.isFatal) = 1 ∧ ∃ f, x.2.getLast? = some f ∧ f.error.isFatal = true
        else ∀ f ∈ x.2, f.error.OnOperands := by
  intro p r after
  obtain ⟨hlocated, hfiles⟩ : p.Located ∧ p.files = sources := located_ofFiles name sources
  have hheld : after.held = reporter.held ++ p.check.diagnostics := Reporter.held_reportAll _ _
  refine ⟨p.errors_check, ⟨_, hheld, hfiles ▸ hlocated.tells⟩, after.count_eq, ?_,
    p.map_fst_accounts, p.aborted_eq, fun x hx ↦ ?_⟩
  · rw [after.count_eq, hheld, List.length_append, reporter.count_eq, Report.diagnostics,
      List.length_map, Report.errors, List.length_map]
    rfl
  · rw [accounts_eq_map_stages] at hx
    obtain ⟨y, -, rfl⟩ := List.mem_map.1 hx
    have haccounts := Walk.accounts_definition y.1 p.globals y.2
    cases hhalted : (y.1.definition p.globals y.2).2.halted with
    | true =>
      rw [hhalted] at haccounts
      rw [if_pos haccounts.any_isFatal]
      exact haccounts.countP_isFatal
    | false =>
      rw [hhalted] at haccounts
      rw [if_neg (by simp [haccounts.any_isFatal])]
      exact haccounts.onOperands

end Program

end FrontEnd
