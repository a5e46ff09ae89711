import FrontEnd.Proofs.Check.Shapes

/-!
# Checking fills in what inference finds

A checked program is the one that there was, with types and meanings filled in
(`Program.FilledIn`). For the trees this is `Program.bare_check`. Of the symbols only those of local
variables that have an initial value and no type label change, and of them only the type, which was
missing and has no holes when it comes (`Walk.Fills`). However a definition ends, nothing is taken
back and nothing else is touched: its symbols are written in one place, behind the checkpoint of a
statement that was passed.
-/

namespace FrontEnd

namespace Walk

variable [Table.RootChoice] {L : Set Nat} {globals : Bindings}

/-- The local variables with initial values among some statements are in a set. -/
def ValuesIn (L : Set Nat) (ss : List Stmt) : Prop :=
  ∀ s ∈ ss, ∀ v, s.declared? = some v → v.init?.isSome → v.symbol ∈ L

variable (globals) in
/-- **A definition** fills in types of its local variables, however it ends. -/
theorem fills_definition (w : Walk) {d : Definition} (hd : ValuesIn L d.stmts) :
    Fills L w.symbols (w.definition globals d).2.symbols := by
  have htags : ((w.enter d.file).tags d).symbols = w.symbols := by
    rw [tags]
    split <;> rfl
  cases h : ((w.enter d.file).tags d).halted with
  | true =>
    rw [definition_of_halted h, ← htags]
    exact .refl _
  | false =>
    have hcontent := moves_content globals ((w.enter d.file).tags d).waitsIn_all
      (Sources.suppliesDefinition_all hd)
    rw [definition_of_tags h, ← htags]
    exact hcontent.fills

theorem fills_definitions (ds : List Definition) (w : Walk) (hds : ∀ d ∈ ds, ValuesIn L d.stmts) :
    Fills L w.symbols (w.definitions globals ds).2.2.symbols := by
  induction ds generalizing w with
  | nil => exact .refl _
  | cons d ds ih =>
    exact (fills_definition globals w (hds d List.mem_cons_self)).trans
      (ih _ fun d' hd' ↦ hds d' (List.mem_cons_of_mem _ hd'))

end Walk

/-! ### Programs -/

namespace Program

/-- The symbols of the local variables that a program introduces with an initial value. -/
def valueSymbols (p : Program) : Set Nat :=
  fun i ↦ ∃ d ∈ p.definitions, ∃ v, .letVar v ∈ d.stmts ∧ v.symbol = i ∧ v.init?.isSome

theorem valuesIn (p : Program) : ∀ d ∈ p.definitions, Walk.ValuesIn p.valueSymbols d.stmts := by
  intro d hd s hs v hv hinit
  cases s with
  | letVar u =>
    obtain rfl := Option.some.inj hv
    exact ⟨d, hd, u, hs, rfl, hinit⟩
  | expr e => cases hv

/-- The program `q` is `p` **with types and meanings filled in**. -/
structure FilledIn (p q : Program) : Prop where
  name_eq : q.name = p.name
  files_eq : q.files = p.files
  globals_eq : q.globals = p.globals
  /-- Apart from the types of expressions and the symbols of names, the definitions are the same. -/
  definitions_eq : q.definitions.map Definition.bare = p.definitions.map Definition.bare
  /-- There are as many symbols. -/
  length_eq : q.symbols.length = p.symbols.length
  /-- Each symbol is the same one or, if it is a local variable with a value and had no type, is the
  same one with a type without holes. -/
  symbols_eq : ∀ {i s}, p.symbols[i]? = some s → q.symbols[i]? = some s ∨
    i ∈ p.valueSymbols ∧ s.type? = none ∧
      ∃ a, a.isConcrete = true ∧ q.symbols[i]? = some { s with type? := some a }

variable [Table.RootChoice]

theorem Formed.filledIn {p : Program} (h : p.Formed) : p.FilledIn p.check.program := by
  have hfills : Walk.Fills p.valueSymbols p.symbols p.check.program.symbols :=
    Walk.fills_definitions p.definitions (.start p.symbols) p.valuesIn
  refine ⟨rfl, rfl, rfl, p.bare_check, hfills.length_eq, fun {i s} hs ↦ ?_⟩
  rcases hfills.getElem?_eq hs with hq | ⟨hi, hnone, a, hq⟩
  · exact .inl hq
  · have ha : Symbol.typeAt? p.check.program.symbols i = some a := by
      rw [Symbol.typeAt?, hq]
      rfl
    exact .inr ⟨hi, hnone, a, h.allConcrete_check i a ha, hq⟩

/-- **Checking changes only what inference fills in**: types of expressions, what names mean, and
the types of local variables that had none. All else of a program stays, also in definitions that
are cut short. -/
theorem filledIn_check (name : String) (sources : List SourceFile) :
    (ofFiles name sources).FilledIn (ofFiles name sources).check.program :=
  (formed_ofFiles name sources).filledIn

end Program

end FrontEnd
