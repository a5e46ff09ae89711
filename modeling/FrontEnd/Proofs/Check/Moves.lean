import FrontEnd.Proofs.Check.Turns

/-!
# The moves of a walk

For expressions it is known what a step does to the state of the walk (`Walk.Turns`). What comes
with statements are names: they are bound, and local variables get their types. `Walk.Move` lists
all that a step of a definition can do, and says that only a walk that is still running makes a
move. Everything that checks a part of a definition is a row of moves (`Walk.Moves`), so what a
single move preserves holds of the definition (`Walk.moves_content`).
-/

namespace FrontEnd

/-- What a symbol is called, and where. -/
def Symbol.place (s : Symbol) : String × Nat × Span :=
  (s.name, s.file, s.span)

/-! ### What statements and definitions are made from -/

namespace Sources

/-- What a symbol is called and where its name stands is among the sources. -/
structure Calls (D : Sources) (σ : List Symbol) (i : Nat) : Prop where
  name : (σ[i]?.map (·.name)).getD "" ∈ D.names
  place : (σ[i]?.map (·.span)).getD default ∈ D.places

namespace Calls

variable {D : Sources} {σ τ : List Symbol} {i : Nat} {s : Symbol}

theorem of_getElem? (h : σ[i]? = some s) (hname : s.name ∈ D.names) (hplace : s.span ∈ D.places) :
    D.Calls σ i where
  name := by
    rw [h]
    exact hname
  place := by
    rw [h]
    exact hplace

/-- What calls a symbol knows its name and its place. -/
theorem symbol (h : D.Calls σ i) (hs : σ[i]? = some s) : s.name ∈ D.names ∧ s.span ∈ D.places := by
  obtain ⟨hname, hplace⟩ := h
  rw [hs] at hname hplace
  exact ⟨hname, hplace⟩

/-- Symbols that have kept their names and places. -/
theorem of_places (h : D.Calls σ i) (hplaces : τ.map Symbol.place = σ.map Symbol.place) :
    D.Calls τ i := by
  have hname (υ : List Symbol) :
      υ[i]?.map (·.name) = ((υ.map Symbol.place)[i]?).map (·.1) := by
    rw [List.getElem?_map, Option.map_map]
    rfl
  have hspan (υ : List Symbol) :
      υ[i]?.map (·.span) = ((υ.map Symbol.place)[i]?).map (·.2.2) := by
    rw [List.getElem?_map, Option.map_map]
    rfl
  refine ⟨?_, ?_⟩
  · rw [hname, hplaces, ← hname]
    exact h.name
  · rw [hspan, hplaces, ← hspan]
    exact h.place

end Calls

theorem calls_all (σ : List Symbol) (i : Nat) : all.Calls σ i :=
  ⟨trivial, trivial⟩

/-- The sources **supply** a statement: its expression, and what it introduces. If it is a variable
with an initial value, that may be given a type. -/
structure SuppliesStmt (D : Sources) (L : Set Nat) (σ : List Symbol) (s : Stmt) : Prop where
  expr : ∀ e, s.expr? = some e → D.Supplies e
  called : ∀ v, s.declared? = some v → D.Calls σ v.symbol
  value : ∀ v, s.declared? = some v → v.init?.isSome → v.symbol ∈ L

/-- The sources **supply** a definition: its expressions, and what it introduces. -/
structure SuppliesDefinition (D : Sources) (L : Set Nat) (σ : List Symbol) (d : Definition) :
    Prop where
  exprs : ∀ e ∈ d.exprs, D.Supplies e
  called : ∀ i ∈ d.owned, D.Calls σ i
  values : ∀ s ∈ d.stmts, ∀ v, s.declared? = some v → v.init?.isSome → v.symbol ∈ L

variable {D : Sources} {L : Set Nat} {σ : List Symbol}

/-- What supplies a definition supplies its statements. -/
theorem SuppliesDefinition.stmts {d : Definition} (h : D.SuppliesDefinition L σ d) :
    ∀ s ∈ d.stmts, D.SuppliesStmt L σ s := by
  intro s hs
  exact ⟨fun e he ↦ h.exprs e (Definition.mem_exprs_of_mem_stmts hs he), fun v hv ↦
    h.called v.symbol (d.locals_subset_owned (Definition.mem_locals_of_mem_stmts hs hv)),
    h.values s hs⟩

/-- Without restrictions on errors, only the variables count that may be given types. -/
theorem suppliesStmt_all {s : Stmt}
    (h : ∀ v, s.declared? = some v → v.init?.isSome → v.symbol ∈ L) : all.SuppliesStmt L σ s :=
  ⟨fun e _ ↦ supplies_all e, fun _ _ ↦ calls_all _ _, h⟩

theorem suppliesDefinition_all {d : Definition}
    (h : ∀ s ∈ d.stmts, ∀ v, s.declared? = some v → v.init?.isSome → v.symbol ∈ L) :
    all.SuppliesDefinition L σ d :=
  ⟨fun e _ ↦ supplies_all e, fun _ _ ↦ calls_all _ _, h⟩

end Sources

namespace Walk

open Table Relation

/-! ### Moves -/

/-- **A move** of a walk that is running. -/
inductive Move (D : Sources) (L : Set Nat) (w : Walk) : Walk → Prop
  /-- The table and the literals that wait are brought up to date. -/
  | table (running : w.halted = false) (t : Table) {waiting : List Waiting}
    (waits : ∀ l ∈ waiting, l ∈ w.waiting ∨ l.span ∈ D.places) :
    Move D L w { w with table := t, waiting := waiting }
  /-- Other names are in scope. -/
  | bind (running : w.halted = false) (scope : Scope) : Move D L w { w with scope := scope }
  /-- A variable that has no type gets one. -/
  | assign (running : w.halted = false) {i : Nat} (mem : i ∈ L) (untyped : w.symbolType? i = none)
    (a : Ty) : Move D L w (w.setSymbolType i a)
  /-- One more error is recorded. -/
  | record {e : CheckError} (running : w.halted = false) (made : D.Makes e) :
    Move D L w (w.record e)

/-- A row of moves. -/
def Moves (D : Sources) (L : Set Nat) : Walk → Walk → Prop :=
  ReflTransGen (Move D L)

/-- A symbol that is given a type keeps its name and its place. -/
theorem places_setSymbolType (w : Walk) (i : Nat) (a : Ty) :
    (w.setSymbolType i a).symbols.map Symbol.place = w.symbols.map Symbol.place := by
  refine List.ext_getElem? fun j ↦ ?_
  rw [List.getElem?_map, List.getElem?_map, setSymbolType, List.getElem?_modify]
  cases w.symbols[j]? with
  | none => rfl
  | some s => by_cases h : i = j <;> simp [h, Symbol.place]

variable {D : Sources} {L : Set Nat} {w v x : Walk} {globals : Bindings}

namespace Moves

theorem refl (w : Walk) : Moves D L w w :=
  ReflTransGen.refl

theorem trans (h : Moves D L w v) (h' : Moves D L v x) : Moves D L w x :=
  ReflTransGen.trans h h'

theorem bind (hw : w.halted = false) (scope : Scope) : Moves D L w { w with scope := scope } :=
  ReflTransGen.single (.bind hw scope)

theorem record (hw : w.halted = false) {e : CheckError} (hmade : e.MadeOf D.names)
    (hplace : e.span ∈ D.places) : Moves D L w (w.record e) :=
  ReflTransGen.single (.record hw ⟨hmade, hplace⟩)

theorem andThen {step : Walk → Walk} (h : w.halted = false → Moves D L w (step w)) :
    Moves D L w (w.andThen step) := by
  rw [Walk.andThen]
  cases hw : w.halted with
  | true => exact .refl w
  | false => exact h hw

/-- Symbols never change their names or move. -/
theorem places_eq (h : Moves D L w v) :
    v.symbols.map Symbol.place = w.symbols.map Symbol.place := by
  induction h with
  | refl => rfl
  | tail _ hmove ih =>
    cases hmove with
    | assign => exact (places_setSymbolType _ _ _).trans ih
    | _ => exact ih

/-- Moves stay in their file. -/
theorem file_eq (h : Moves D L w v) : v.file = w.file := by
  induction h with
  | refl => rfl
  | tail _ hmove ih => cases hmove <;> exact ih

/-- The literals that are put on the list stand at places of the sources. -/
theorem waitsIn (h : Moves D L w v) (hw : w.WaitsIn D) : v.WaitsIn D := by
  induction h with
  | refl => exact hw
  | tail _ hmove ih =>
    cases hmove with
    | table _ _ hwaits => exact fun l hl ↦ (hwaits l hl).elim (ih l) id
    | _ => exact ih

/-- **Errors are only added**, in the file at hand, and they are made from the sources. -/
theorem exists_findings (h : Moves D L w v) : ∃ fs, v.findings = w.findings ++ fs ∧
    ∀ f ∈ fs, f.file = w.file ∧ D.Makes f.error := by
  induction h with
  | refl => exact ⟨[], (List.append_nil _).symm, List.forall_mem_nil _⟩
  | @tail x _ hrow hmove ih =>
    obtain ⟨fs, hfs, hmade⟩ := ih
    cases hmove with
    | @record e _ he =>
      refine ⟨fs ++ [⟨x.file, e⟩], by rw [Walk.record, hfs, List.append_assoc], ?_⟩
      exact List.forall_mem_append.2 ⟨hmade, List.forall_mem_singleton.2 ⟨file_eq hrow, he⟩⟩
    | _ => exact ⟨fs, hfs, hmade⟩

/-- What a symbol is called stays among the sources. -/
theorem calls (h : Moves D L w v) {i : Nat} (hi : D.Calls w.symbols i) : D.Calls v.symbols i :=
  hi.of_places h.places_eq

/-- What supplies a statement supplies it behind any moves, since names and places stay. -/
theorem suppliesStmt (h : Moves D L w v) {s : Stmt} (hs : D.SuppliesStmt L w.symbols s) :
    D.SuppliesStmt L v.symbols s :=
  { hs with called := fun u hu ↦ h.calls (hs.called u hu) }

end Moves

/-- Turns are moves. -/
theorem Turns.moves (h : Turns D w v) : Moves D L w v :=
  ReflTransGen.mono (fun _ _ hturn ↦ by
    cases hturn with
    | table hw t hwaits => exact .table hw t hwaits
    | record hw he => exact .record hw he) _ _ h

/-! ### Statements -/

theorem moves_push (w : Walk) : Moves D L w w.push :=
  .andThen fun hw ↦ .bind hw _

theorem moves_pop (w : Walk) : Moves D L w w.pop :=
  .andThen fun hw ↦ .bind hw _

/-- A name is bound, or reported as taken. -/
theorem moves_declare {i : Nat} (hi : D.Calls w.symbols i) : Moves D L w (w.declare i) := by
  refine .andThen fun hw ↦ ?_
  split
  · exact .refl w
  · rename_i s hs
    obtain ⟨hname, hplace⟩ := hi.symbol hs
    split
    · exact .bind hw _
    · exact .record hw (.repeatedName hname _) hplace

theorem moves_foldl_declare (params : List Nat) (w : Walk)
    (hparams : ∀ i ∈ params, D.Calls w.symbols i) : Moves D L w (params.foldl declare w) := by
  induction params generalizing w with
  | nil => exact .refl w
  | cons i params ih =>
    obtain ⟨hi, hparams⟩ := List.forall_mem_cons.1 hparams
    have hfirst := moves_declare (L := L) hi
    exact hfirst.trans (ih _ fun j hj ↦ hfirst.calls (hparams j hj))

/-- A variable is given the type of its initial value, and it is one that had none. -/
theorem moves_adopt {i : Nat} (hi : i ∈ L) (hnone : w.symbolType? i = none)
    (hcalled : D.Calls w.symbols i) {init : Expr} (hinit : init.span ∈ D.places) :
    Moves D L w (w.adopt i init) := by
  refine .andThen fun hw ↦ ?_
  split
  · exact ReflTransGen.single (.assign hw hi hnone _)
  · exact .record hw (.openVariable hcalled.name _) hinit

section Agreement

variable [RootChoice]

variable (globals) in
theorem span_unlabelled (w : Walk) (e : Expr) : (w.unlabelled globals e).1.span = e.span := by
  rw [← span_expr globals e w, unlabelled, checkpoint]
  split
  · rfl
  · dsimp only
    split
    · rfl
    · cases (expr globals e w).1 <;> rfl

variable (globals) in
/-- **The ways to declare a variable are moves.** Its type is assigned only if it has no label. -/
theorem moves_letVar (hw : w.WaitsIn D) {v : Variable}
    (hv : D.SuppliesStmt L w.symbols (.letVar v)) : Moves D L w (w.letVar globals v).2 := by
  have hcalled := hv.called v rfl
  rw [letVar]
  cases hrun : w.halted with
  | true => exact .refl w
  | false =>
    rw [if_neg (by simp)]
    split
    · rename_i label _ _ hinit
      have hlabelled := (turns_labelled globals hw (hv.expr _ hinit) label).moves (L := L)
      exact hlabelled.trans (moves_declare (hlabelled.calls hcalled))
    · exact moves_declare hcalled
    · rename_i init hnone hinit
      have hturns := turns_unlabelled globals hw (hv.expr _ hinit)
      have hspan := (span_unlabelled globals w init).symm ▸ (hv.expr _ hinit).span
      have hopen : (w.unlabelled globals init).2.symbolType? v.symbol = none := by
        rw [symbolType?, hturns.frame.1]
        exact hnone
      have hmoves := hturns.moves (L := L)
      have hadopt := hmoves.trans (moves_adopt (hv.value v rfl (by rw [hinit]; rfl)) hopen
        (hmoves.calls hcalled) hspan)
      exact hadopt.trans (moves_declare (hadopt.calls hcalled))
    · split
      · rename_i s hs
        obtain ⟨hname, hplace⟩ := hcalled.symbol hs
        exact .record hrun (.openVariable hname _) hplace
      · exact .refl w

variable (globals) in
theorem moves_stmt (hw : w.WaitsIn D) {s : Stmt} (hs : D.SuppliesStmt L w.symbols s) :
    Moves D L w (w.stmt globals s).2 := by
  cases s with
  | letVar v => exact moves_letVar globals hw hs
  | expr e => exact (turns_unlabelled globals hw (hs.expr e rfl)).moves

variable (globals) in
/-- Statements are rows of moves, one behind another. -/
theorem moves_stmts (ss : List Stmt) (hw : w.WaitsIn D)
    (hss : ∀ s ∈ ss, D.SuppliesStmt L w.symbols s) : Moves D L w (w.stmts globals ss).2 := by
  induction ss generalizing w with
  | nil => exact .refl w
  | cons s ss ih =>
    obtain ⟨hs, hss⟩ := List.forall_mem_cons.1 hss
    have hfirst := moves_stmt globals hw hs
    exact hfirst.trans (ih (hfirst.waitsIn hw) fun s' hs' ↦ hfirst.suppliesStmt (hss s' hs'))

/-! ### Definitions -/

variable (globals) in
/-- The initial value of a global variable is held to the label, and no name is bound. -/
theorem moves_global (hw : w.WaitsIn D) {v : Variable} (hcalled : D.Calls w.symbols v.symbol)
    (hinit : ∀ e, v.init? = some e → D.Supplies e) : Moves D L w (w.global globals v).2 := by
  rw [global]
  cases hrun : w.halted with
  | true => exact .refl w
  | false =>
    rw [if_neg (by simp)]
    split
    · exact .record hrun (.missingLabel _) hcalled.place
    · rename_i h
      exact (turns_labelled globals hw (hinit _ h) _).moves
    · exact .refl w

variable (globals) in
/-- **Checking what a definition introduces is a row of moves.** -/
theorem moves_content (hw : w.WaitsIn D) {d : Definition}
    (hd : D.SuppliesDefinition L w.symbols d) : Moves D L w (w.content globals d.content).2 := by
  have hstmts := hd.stmts
  have hexprs := hd.exprs
  obtain ⟨hsymbol, hparams, -⟩ := Definition.forall_mem_owned.1 hd.called
  rw [Definition.exprs] at hexprs
  rw [Definition.stmts] at hstmts
  rw [Definition.symbol] at hsymbol
  rw [Definition.params] at hparams
  cases hcontent : d.content with
  | function symbol params result body? =>
    rw [hcontent] at hstmts hparams
    have hpush := moves_push (D := D) (L := L) w
    have hdeclared := hpush.trans
      (moves_foldl_declare params w.push fun i hi ↦ hpush.calls (hparams i hi))
    cases body? with
    | none => exact hdeclared.trans (moves_pop _)
    | some b =>
      have hbody := hdeclared.trans (moves_push _)
      have hend := hbody.trans (moves_stmts globals b.stmts (hbody.waitsIn hw) fun s hs ↦
        hbody.suppliesStmt (hstmts s hs))
      exact (hend.trans (moves_pop _)).trans (moves_pop _)
  | global v =>
    rw [hcontent] at hexprs hsymbol
    exact moves_global globals hw hsymbol fun e he ↦ hexprs e (Option.mem_toList.2 he)

end Agreement

end Walk

end FrontEnd
