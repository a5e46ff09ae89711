import FrontEnd.Proofs.Check.Definitions

/-!
# What checking a program finds

Definitions are checked one behind another, and each starts from rest. `Walk.stages` lists the
states from which they start; everything that is reported of a program can be read off this list:
the trees, the errors definition by definition (`Program.findingsEach`), and which definitions were
cut short.
-/

namespace FrontEnd

open Table

theorem Definition.Formed.retypes {L : Set Nat} {σ τ : List Symbol} {d : Definition}
    (h : d.Formed σ) (hστ : Walk.Retypes L σ τ) : d.Formed τ where
  signature i hi := by
    obtain ⟨a, ha⟩ := h.signature i hi
    exact ⟨a, hστ.eq_of_some ha⟩
  declared v hv := hστ.length_eq ▸ h.declared v hv
  exprs := h.exprs

namespace Walk

variable [RootChoice] {w : Walk} {L : Set Nat} {globals : Bindings} {final : List Symbol}

/-! ### One definition -/

theorem definition_of_halted {d : Definition} (h : ((w.enter d.file).tags d).halted = true) :
    w.definition globals d = (d, ((w.enter d.file).tags d).leave) :=
  if_pos h

theorem definition_of_tags {d : Definition} (h : ((w.enter d.file).tags d).halted = false) :
    w.definition globals d =
      ({ d with content := (((w.enter d.file).tags d).content globals d.content).1 },
        (((w.enter d.file).tags d).content globals d.content).2.leave) :=
  if_neg (by simp [h])

variable (globals) in
/-- If its tags break a rule, that is all there is to say of a definition. -/
theorem definition_of_error? (w : Walk) {d : Definition} {error : TagError} {span : Span}
    (h : d.metadata.error? d.tagged = some (error, span)) :
    w.definition globals d = (d, ((w.enter d.file).record (.metadata error span)).leave) := by
  have htags : (w.enter d.file).tags d = (w.enter d.file).record (.metadata error span) := by
    rw [tags, h]
  rw [definition_of_halted (by rw [htags]; exact halted_record _ rfl), htags]

variable (globals) in
/-- Otherwise what it introduces is checked. -/
theorem definition_of_no_error? (w : Walk) {d : Definition}
    (h : d.metadata.error? d.tagged = none) : w.definition globals d =
      ({ d with content := ((w.enter d.file).content globals d.content).1 },
        ((w.enter d.file).content globals d.content).2.leave) := by
  have htags : (w.enter d.file).tags d = w.enter d.file := by rw [tags, h]
  rw [definition_of_tags (by rw [htags]; rfl), htags]

variable (globals) in
/-- Tags that break a rule are the only error of their definition. -/
theorem findings_of_error? (w : Walk) {d : Definition} {error : TagError} {span : Span}
    (h : d.metadata.error? d.tagged = some (error, span)) :
    (w.definition globals d).2.halted = true ∧
      (w.definition globals d).2.findings = w.findings ++ [⟨d.file, .metadata error span⟩] := by
  rw [definition_of_error? globals w h]
  exact ⟨rfl, rfl⟩

variable (globals) in
/-- Checking a definition changes what it introduces, and nothing else of it. -/
theorem definition_fst (w : Walk) (d : Definition) :
    (w.definition globals d).1 = { d with content := (w.definition globals d).1.content } := by
  cases h : ((w.enter d.file).tags d).halted with
  | true => rw [definition_of_halted h]
  | false => rw [definition_of_tags h]

theorem symbol_definition (w : Walk) (globals : Bindings) (d : Definition) :
    (w.definition globals d).1.symbol = d.symbol := by
  cases h : ((w.enter d.file).tags d).halted with
  | true => rw [definition_of_halted h]
  | false =>
    rw [definition_of_tags h, Definition.symbol, Definition.symbol]
    cases d.content with
    | function symbol params result body? => rfl
    | global v =>
      show (Walk.global _ globals v).1.symbol = v.symbol
      rw [global]
      split
      · rfl
      · split <;> rfl

omit [RootChoice] in
/-- Its tags leave a walk at rest in front of a definition. -/
theorem Meets.tags {d : Definition} (h : w.Meets globals L d) :
    ((w.enter d.file).tags d).Meets globals L d := by
  have htags := follows_tags (L := L) (w.enter d.file) d
  refine ⟨?_, h.formed.retypes htags.symbols, h.locals, htags.symbols.length_eq ▸ h.apart⟩
  have hrest := h.resting
  have henter : (w.enter d.file).Resting :=
    ⟨hrest.table_eq, hrest.waiting_eq, hrest.concrete, hrest.scope⟩
  rw [Walk.tags]
  split
  · exact henter
  · exact henter.record _

omit [RootChoice] in
theorem resting_leave (hw : Symbol.AllConcrete w.symbols) : w.leave.Resting :=
  ⟨rfl, rfl, hw, fun _ h ↦ nomatch h⟩

/-- **Behind a definition a walk is at rest**, however the definition ended. -/
theorem Meets.resting_definition {d : Definition} (h : w.Meets globals L d) :
    (w.definition globals d).2.Resting := by
  cases hhalted : ((w.enter d.file).tags d).halted with
  | true =>
    rw [definition_of_halted hhalted]
    exact resting_leave h.tags.resting.concrete
  | false =>
    rw [definition_of_tags hhalted]
    exact resting_leave (allConcrete_content h.tags)

/-- **From rest to rest**: what a walk meets in front of a definition it meets behind it. -/
theorem Meets.next {d d' : Definition} (h : w.Meets globals L d) (h' : w.Meets globals L d') :
    (w.definition globals d).2.Meets globals L d' :=
  have hfollows := (follows_definition globals w d h.locals).symbols
  ⟨h.resting_definition, h'.formed.retypes hfollows, h'.locals, hfollows.length_eq ▸ h'.apart⟩

/-- **A definition that was not cut short is complete.** -/
theorem definition_of_running {d : Definition} (h : w.Meets globals L d)
    (hfinal : Retypes L (w.definition globals d).2.symbols final)
    (hrun : (w.definition globals d).2.halted = false) :
    Complete final ((w.definition globals d).2.findings = w.findings)
      (w.definition globals d).1 := by
  have htags := follows_tags (L := L) (w.enter d.file) d
  cases hhalted : ((w.enter d.file).tags d).halted with
  | true =>
    rw [definition_of_halted hhalted] at hrun
    exact nomatch hhalted.symm.trans hrun
  | false =>
    rw [definition_of_tags hhalted] at hfinal hrun ⊢
    have hcontent := follows_content globals ((w.enter d.file).tags d) d h.locals
    have hstrict : (((w.enter d.file).tags d).content globals d.content).2.findings = w.findings →
        (((w.enter d.file).tags d).content globals d.content).2.findings =
          ((w.enter d.file).tags d).findings :=
      fun h ↦ (eq_of_prefix_of_eq htags.findings hcontent.findings h).2
    have hcomplete : Complete final
        ((((w.enter d.file).tags d).content globals d.content).2.findings =
          ((w.enter d.file).tags d).findings)
        { d with content := (((w.enter d.file).tags d).content globals d.content).1 } := by
      cases hd' : d.content with
      | function symbol params result body? =>
        rw [← hd']
        exact function_of_running h.tags hd' hfinal hrun
      | global v =>
        rw [← hd']
        exact global_of_running h.tags hd' hfinal hrun
    exact ⟨fun e he ↦ (hcomplete.settled e he).mono hstrict, hcomplete.matched, hcomplete.typed⟩

/-! ### One behind another -/

/-- The definitions that are checked, each with the state in which checking it starts. -/
def stages (w : Walk) (globals : Bindings) : List Definition → List (Walk × Definition)
  | [] => []
  | d :: ds => (w, d) :: (w.definition globals d).2.stages globals ds

theorem definitions_cons (w : Walk) (d : Definition) (ds : List Definition) :
    w.definitions globals (d :: ds) =
      ((w.definition globals d).1 :: ((w.definition globals d).2.definitions globals ds).1,
        if (w.definition globals d).2.halted then
          d.symbol :: ((w.definition globals d).2.definitions globals ds).2.1
        else ((w.definition globals d).2.definitions globals ds).2.1,
        ((w.definition globals d).2.definitions globals ds).2.2) := rfl

/-- The trees of a report. -/
theorem definitions_fst (ds : List Definition) (w : Walk) : (w.definitions globals ds).1 =
    (w.stages globals ds).map fun x ↦ (x.1.definition globals x.2).1 := by
  induction ds generalizing w with
  | nil => rfl
  | cons d ds ih => rw [definitions_cons, stages, List.map_cons, ih]

/-- A definition that was halted is among those that were cut short. -/
theorem symbol_mem_aborted (ds : List Definition) (w : Walk) {x : Walk × Definition}
    (hx : x ∈ w.stages globals ds) (hhalted : (x.1.definition globals x.2).2.halted = true) :
    x.2.symbol ∈ (w.definitions globals ds).2.1 := by
  induction ds generalizing w with
  | nil => exact nomatch hx
  | cons d ds ih =>
    rw [definitions_cons]
    dsimp only
    rcases List.mem_cons.1 hx with rfl | hx
    · rw [if_pos hhalted]
      exact List.mem_cons_self
    · split
      · exact List.mem_cons_of_mem _ (ih _ hx)
      · exact ih _ hx

/-- The errors that each definition adds. -/
def findingsEach (w : Walk) (globals : Bindings) (ds : List Definition) : List (List Finding) :=
  (w.stages globals ds).map fun x ↦
    (x.1.definition globals x.2).2.findings.drop x.1.findings.length

omit [RootChoice] in
theorem eq_append_drop_of_prefix {α : Type} {l m : List α} (h : l <+: m) :
    m = l ++ m.drop l.length := by
  obtain ⟨n, rfl⟩ := h
  rw [List.drop_left]

/-- The definitions of a list have their local variables in a set. -/
def AllLocalsIn (L : Set Nat) (ds : List Definition) : Prop :=
  ∀ d ∈ ds, LocalsIn L d.stmts

variable (globals) in
theorem follows_definition_of_mem {ds : List Definition} (hL : AllLocalsIn L ds) {d : Definition}
    (hd : d ∈ ds) (w : Walk) : Retypes L w.symbols (w.definition globals d).2.symbols ∧
      w.findings <+: (w.definition globals d).2.findings :=
  have h := follows_definition globals w d (hL d hd)
  ⟨h.symbols, h.findings⟩

/-- **All errors are those of the definitions**, in order. -/
theorem findings_definitions (ds : List Definition) (w : Walk) (hL : AllLocalsIn L ds) :
    (w.definitions globals ds).2.2.findings =
      w.findings ++ (w.findingsEach globals ds).flatten := by
  induction ds generalizing w with
  | nil => exact (List.append_nil _).symm
  | cons d ds ih =>
    have hfirst := (follows_definition_of_mem globals hL List.mem_cons_self w).2
    rw [definitions_cons, findingsEach, stages, List.map_cons, List.flatten_cons]
    dsimp only
    rw [ih _ fun d' hd' ↦ hL d' (List.mem_cons_of_mem _ hd'), findingsEach, ← List.append_assoc,
      ← eq_append_drop_of_prefix hfirst]

theorem retypes_definitions (ds : List Definition) (w : Walk) (hL : AllLocalsIn L ds) :
    Retypes L w.symbols (w.definitions globals ds).2.2.symbols := by
  induction ds generalizing w with
  | nil => exact .refl _
  | cons d ds ih =>
    have hfirst := (follows_definition_of_mem globals hL List.mem_cons_self w).1
    exact hfirst.trans (ih _ fun d' hd' ↦ hL d' (List.mem_cons_of_mem _ hd'))

/-- **Every definition is met at rest**, and the symbols have the types in the end that they have
behind it, except for local variables of other definitions. -/
theorem meets_of_mem_stages (ds : List Definition) (w : Walk)
    (hds : ∀ d ∈ ds, w.Meets globals L d) {x : Walk × Definition}
    (hx : x ∈ w.stages globals ds) : x.2 ∈ ds ∧ x.1.Meets globals L x.2 ∧
      Retypes L (x.1.definition globals x.2).2.symbols (w.definitions globals ds).2.2.symbols := by
  induction ds generalizing w with
  | nil => exact nomatch hx
  | cons d ds ih =>
    obtain ⟨hd, hds⟩ := List.forall_mem_cons.1 hds
    rcases List.mem_cons.1 hx with rfl | hx
    · exact ⟨List.mem_cons_self, hd, retypes_definitions ds _ fun d' hd' ↦ (hds d' hd').locals⟩
    · obtain ⟨hmem, hmeets, hafter⟩ := ih _ (fun d' hd' ↦ hd.next (hds d' hd')) hx
      exact ⟨List.mem_cons_of_mem _ hmem, hmeets, hafter⟩

/-- The walk is at rest when all definitions have been checked. -/
theorem resting_definitions (ds : List Definition) (w : Walk) (hw : w.Resting)
    (hds : ∀ d ∈ ds, w.Meets globals L d) : (w.definitions globals ds).2.2.Resting := by
  induction ds generalizing w with
  | nil => exact hw
  | cons d ds ih =>
    obtain ⟨hd, hds⟩ := List.forall_mem_cons.1 hds
    exact ih _ hd.resting_definition fun d' hd' ↦ hd.next (hds d' hd')

end Walk

/-! ### Programs -/

namespace Program

/-- A program is **formed** if the types of its symbols have no holes, its definitions are formed,
and its global names stand for symbols that are not those of local variables. -/
structure Formed (p : Program) : Prop where
  concrete : Symbol.AllConcrete p.symbols
  definitions : ∀ d ∈ p.definitions, d.Formed p.symbols
  globals : ∀ b ∈ p.globals, b.2 < p.symbols.length ∧ ∀ d ∈ p.definitions, b.2 ∉ d.locals

/-- The symbols of the local variables of a program. -/
def localSymbols (p : Program) : Set Nat :=
  fun i ↦ ∃ d ∈ p.definitions, i ∈ d.locals

theorem allLocalsIn (p : Program) : Walk.AllLocalsIn p.localSymbols p.definitions := by
  intro d hd s hs v hv
  refine ⟨d, hd, ?_⟩
  rw [Definition.locals_eq]
  exact List.mem_filterMap.2 ⟨s, hs, by rw [hv]; rfl⟩

theorem Formed.globalsApart {p : Program} (h : p.Formed) :
    Walk.GlobalsApart p.globals p.localSymbols p.symbols.length :=
  fun b hb ↦ ⟨(h.globals b hb).1, fun ⟨d, hd, hmem⟩ ↦ (h.globals b hb).2 d hd hmem⟩

theorem Formed.resting {p : Program} (h : p.Formed) : (Walk.start p.symbols).Resting :=
  ⟨rfl, rfl, h.concrete, fun _ hframe ↦ nomatch hframe⟩

/-- Checking a program starts at rest in front of all its definitions. -/
theorem Formed.meets {p : Program} (h : p.Formed) :
    ∀ d ∈ p.definitions, (Walk.start p.symbols).Meets p.globals p.localSymbols d :=
  fun d hd ↦ ⟨h.resting, h.definitions d hd, p.allLocalsIn d hd, h.globalsApart⟩

section Check

variable [RootChoice]

/-- The errors that are found in each definition of a program. -/
def findingsEach (p : Program) : List (List Finding) :=
  (Walk.start p.symbols).findingsEach p.globals p.definitions

/-- **The definitions of a checked program** come from states at rest, and are complete unless they
were cut short. -/
theorem Formed.complete {p : Program} (h : p.Formed) {x : Walk × Definition}
    (hx : x ∈ (Walk.start p.symbols).stages p.globals p.definitions)
    (hrun : (x.1.definition p.globals x.2).2.halted = false) :
    Walk.Complete p.check.program.symbols
      ((x.1.definition p.globals x.2).2.findings = x.1.findings)
      (x.1.definition p.globals x.2).1 := by
  obtain ⟨-, hmeets, hafter⟩ := Walk.meets_of_mem_stages p.definitions _ h.meets hx
  exact Walk.definition_of_running hmeets hafter hrun

/-- No hole is left in the type of any symbol. -/
theorem Formed.allConcrete_check {p : Program} (h : p.Formed) :
    Symbol.AllConcrete p.check.program.symbols :=
  (Walk.resting_definitions p.definitions _ h.resting h.meets).concrete

end Check

end Program

end FrontEnd
