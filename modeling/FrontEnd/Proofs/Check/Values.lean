import FrontEnd.Proofs.Check.Places

/-!
# The values of a definition

What is checked up to a checkpoint is an expression that is a statement, or the initial value of a
variable. `Walk.values` lists them for a definition, each with the state in which checking it starts
and the label that it is held to, if there is one. Behind their checkpoints they are the expressions
of the checked definition (`Walk.exprs_definition`), and as long as a walk is running it comes to
each of them at rest (`Walk.sound_of_mem_values`).
-/

namespace FrontEnd

namespace Walk

open Table

/-- **A value** that is going to be checked. -/
structure Value where
  /-- The state in which checking it starts. -/
  walk : Walk
  /-- The type that it has to have, if that is known. -/
  label? : Option Ty
  /-- The expression. -/
  expr : Expr

/-- **What is known where a value is checked**: the walk is at rest, and neither the label nor the
types that the expression names have holes. -/
structure Value.Sound (file : Nat) (x : Value) : Prop where
  resting : x.walk.Resting
  file_eq : x.walk.file = file
  formed : x.expr.Formed
  label : ∀ a, x.label? = some a → a.isConcrete = true

/-- The value of a statement. -/
def valueOf (w : Walk) : Stmt → List Value
  | .letVar v => v.init?.toList.map fun e ↦ ⟨w, w.symbolType? v.symbol, e⟩
  | .expr e => [⟨w, none, e⟩]

/-- The value of a global variable. Without a label it is not checked. -/
def valueOfGlobal (w : Walk) (v : Variable) : List Value :=
  match w.symbolType? v.symbol, v.init? with
  | some label, some init => [⟨w, some label, init⟩]
  | _, _ => []

section Members

variable {w : Walk} {x : Value}

theorem of_mem_valueOf {s : Stmt} (hx : x ∈ w.valueOf s) : x.walk = w ∧
    s.expr? = some x.expr ∧ ∀ a, x.label? = some a → ∃ i, w.symbolType? i = some a := by
  cases s with
  | letVar v =>
    obtain ⟨e, he, rfl⟩ := List.mem_map.1 hx
    exact ⟨rfl, Option.mem_toList.1 he, fun a ha ↦ ⟨_, ha⟩⟩
  | expr e =>
    obtain rfl := List.mem_singleton.1 hx
    exact ⟨rfl, rfl, fun a ha ↦ by cases ha⟩

theorem of_mem_valueOfGlobal {v : Variable} (hx : x ∈ w.valueOfGlobal v) : x.walk = w ∧
    v.init? = some x.expr ∧ ∀ a, x.label? = some a → ∃ i, w.symbolType? i = some a := by
  rw [valueOfGlobal] at hx
  split at hx
  · rename_i htype hinit
    obtain rfl := List.mem_singleton.1 hx
    exact ⟨rfl, hinit, fun a ha ↦ ⟨_, htype.trans ha⟩⟩
  · cases hx

theorem Resting.enter (hw : w.Resting) (file : Nat) : (w.enter file).Resting :=
  ⟨hw.table_eq, hw.waiting_eq, hw.concrete, hw.scope⟩

/-- A label is the type of a symbol, so at rest it has no hole. -/
theorem Resting.sound (hw : w.Resting) {file : Nat} (hfile : w.file = file) (hwalk : x.walk = w)
    (hformed : x.expr.Formed)
    (hlabel : ∀ a, x.label? = some a → ∃ i, w.symbolType? i = some a) : x.Sound file where
  resting := hwalk ▸ hw
  file_eq := hwalk ▸ hfile
  formed := hformed
  label a ha := by
    obtain ⟨i, hi⟩ := hlabel a ha
    exact hw.concrete i a hi

end Members

variable [RootChoice] {w : Walk} {globals : Bindings} {d : Definition}

/-! ### One value -/

namespace Value

/-- A value **in front of its checkpoint**. -/
def checked (x : Value) (globals : Bindings) : Expr × Walk :=
  let (e, v) := Walk.expr globals x.expr x.walk
  match x.label? with
  | none => (e, v)
  | some label => (e, v.require label e)

/-- A value **behind its checkpoint**. -/
def passed (x : Value) (globals : Bindings) : Expr × Walk :=
  (x.checked globals).2.checkpoint (x.checked globals).1

theorem turns_checked (x : Value) (globals : Bindings) :
    Turns .all x.walk (x.checked globals).2 := by
  have hexpr : Turns .all x.walk (Walk.expr globals x.expr x.walk).2 :=
    turns_expr globals (Sources.supplies_all x.expr) x.walk
  rw [checked]
  cases x.label? with
  | none => exact hexpr
  | some label => exact hexpr.trans (turns_require _ label trivial)

theorem bare_checked (x : Value) (globals : Bindings) :
    (x.checked globals).1.bare = x.expr.bare := by
  rw [checked]
  cases x.label? <;> exact bare_expr x.expr x.walk

theorem checked_of_halted {x : Value} (h : x.walk.halted = true) :
    x.checked globals = (x.expr, x.walk) := by
  rw [checked, expr_of_halted h]
  cases x.label? with
  | none => rfl
  | some label =>
    dsimp only
    rw [require_of_halted h]

theorem running_of_checked {x : Value} (h : (x.checked globals).2.halted = false) :
    x.walk.halted = false :=
  running_of_stays (fun hw ↦ by rw [checked_of_halted hw]) h

theorem passed_of_halted {x : Value} (h : x.walk.halted = true) :
    x.passed globals = (x.expr, x.walk) := by
  rw [passed, checked_of_halted h, checkpoint_of_halted h]

end Value

/-! ### Statements -/

/-- The values of statements that are checked one behind another. -/
def valuesOf (w : Walk) (globals : Bindings) : List Stmt → List Value
  | [] => []
  | s :: ss => w.valueOf s ++ (w.stmt globals s).2.valuesOf globals ss

/-- The expression of a statement is its value behind the checkpoint. -/
theorem toList_expr?_stmt (w : Walk) (globals : Bindings) (s : Stmt) :
    (w.stmt globals s).1.expr?.toList = (w.valueOf s).map fun x ↦ (x.passed globals).1 := by
  cases s with
  | expr e => rfl
  | letVar v =>
    show (w.letVar globals v).1.init?.toList = (v.init?.toList.map _).map _
    rw [List.map_map]
    cases hw : w.halted with
    | true =>
      rw [letVar_of_halted hw]
      refine (List.map_id'' (fun e ↦ ?_) _).symm
      exact congrArg Prod.fst (Value.passed_of_halted hw)
    | false =>
      rw [letVar, if_neg (by simp [hw])]
      cases w.symbolType? v.symbol with
      | some label =>
        cases hinit : v.init? with
        | some init => rfl
        | none => exact congrArg Option.toList hinit
      | none =>
        cases hinit : v.init? with
        | some init => rfl
        | none => cases w.symbols[v.symbol]? <;> exact congrArg Option.toList hinit

theorem filterMap_expr?_stmts (globals : Bindings) (ss : List Stmt) (w : Walk) :
    (w.stmts globals ss).1.filterMap Stmt.expr? =
      (w.valuesOf globals ss).map fun x ↦ (x.passed globals).1 := by
  induction ss generalizing w with
  | nil => rfl
  | cons s ss ih =>
    have hcons : ∀ (s : Stmt) (l : List Stmt),
        (s :: l).filterMap Stmt.expr? = s.expr?.toList ++ l.filterMap Stmt.expr? := by
      intro s l
      cases h : s.expr? <;> simp [h]
    rw [stmts_cons, valuesOf, List.map_append, hcons, ih, toList_expr?_stmt]

/-- The value of a statement is checked **behind the statements before it**. -/
theorem exists_of_mem_valuesOf {x : Value} (ss : List Stmt) (w : Walk)
    (hx : x ∈ w.valuesOf globals ss) : ∃ before s after, ss = before ++ s :: after ∧
      x ∈ (w.stmts globals before).2.valueOf s := by
  induction ss generalizing w with
  | nil => cases hx
  | cons s ss ih =>
    rcases List.mem_append.1 hx with hx | hx
    · exact ⟨[], s, ss, rfl, hx⟩
    · obtain ⟨before, s', after, rfl, hbefore⟩ := ih _ hx
      exact ⟨s :: before, s', after, rfl, hbefore⟩

/-! ### Definitions -/

/-- The state in which the **statements of a function** are checked. -/
def inBody (w : Walk) (params : List Nat) : Walk :=
  (params.foldl declare w.push).push

omit [RootChoice] in
theorem moves_inBody (w : Walk) (params : List Nat) : Moves .all Set.univ w (w.inBody params) :=
  ((moves_push w).trans (moves_foldl_declare params _ fun i _ ↦ Sources.calls_all _ i)).trans
    (moves_push _)

/-- **The values of a definition**. If its tags are wrong, none is checked. -/
def values (w : Walk) (globals : Bindings) (d : Definition) : List Value :=
  if (d.metadata.error? d.tagged).isSome then []
  else
    match d.content with
    | .function _ params _ _ => ((w.enter d.file).inBody params).valuesOf globals d.stmts
    | .global v => (w.enter d.file).valueOfGlobal v

theorem error?_eq_none_of_mem_values {x : Value} (hx : x ∈ w.values globals d) :
    d.metadata.error? d.tagged = none := by
  by_contra hsome
  rw [values, if_pos (Option.isSome_iff_ne_none.2 hsome)] at hx
  cases hx

theorem values_global {v : Variable} (htags : d.metadata.error? d.tagged = none)
    (hcontent : d.content = .global v) :
    w.values globals d = (w.enter d.file).valueOfGlobal v := by
  rw [values, htags, hcontent]
  rfl

section Function

variable {symbol : Nat} {params : List Nat} {result : Ty} {body? : Option Block}
  (htags : d.metadata.error? d.tagged = none)
  (hcontent : d.content = .function symbol params result body?)

include htags hcontent

theorem values_function :
    w.values globals d = ((w.enter d.file).inBody params).valuesOf globals d.stmts := by
  rw [values, htags, hcontent]
  rfl

/-- The statements of a function behind the check. -/
theorem stmts_definition : (w.definition globals d).1.stmts =
    (((w.enter d.file).inBody params).stmts globals d.stmts).1 := by
  rw [definition_of_no_error? globals w htags, Definition.stmts, Definition.stmts, hcontent]
  cases body? <;> rfl

end Function

/-- The initial value of a global variable that is not halted. -/
theorem toList_init?_global {v : Variable} (hrun : (w.global globals v).2.halted = false) :
    (w.global globals v).1.init?.toList =
      (w.valueOfGlobal v).map fun x ↦ (x.passed globals).1 := by
  have hw : w.halted = false := running_of_stays (fun hw ↦ by rw [global, if_pos hw]) hrun
  rw [global, if_neg (by simp [hw])] at hrun ⊢
  rw [valueOfGlobal]
  cases hlabel : w.symbolType? v.symbol with
  | none =>
    rw [hlabel] at hrun
    cases (halted_record w rfl).symm.trans hrun
  | some label =>
    cases hinit : v.init? with
    | none => exact congrArg Option.toList hinit
    | some init => rfl

/-- **The expressions of a checked definition** are its values behind their checkpoints. -/
theorem exprs_definition (hrun : (w.definition globals d).2.halted = false) :
    (w.definition globals d).1.exprs =
      (w.values globals d).map fun x ↦ (x.passed globals).1 := by
  cases htags : d.metadata.error? d.tagged with
  | some r => cases (findings_of_error? globals w htags).1.symm.trans hrun
  | none =>
    have heq := definition_of_no_error? globals w htags
    cases hcontent : d.content with
    | function symbol params result body? =>
      have hexprs : (w.definition globals d).1.exprs =
          (w.definition globals d).1.stmts.filterMap Stmt.expr? := by
        rw [heq, Definition.exprs, hcontent]
        rfl
      rw [hexprs, stmts_definition htags hcontent, values_function htags hcontent,
        filterMap_expr?_stmts]
    | global v =>
      rw [heq, hcontent] at hrun ⊢
      rw [values_global htags hcontent]
      exact toList_init?_global (w := w.enter d.file) hrun

/-- What is checked of a definition is in it. -/
theorem expr_mem_exprs {x : Value} (hx : x ∈ w.values globals d) : x.expr ∈ d.exprs := by
  have htags := error?_eq_none_of_mem_values hx
  cases hcontent : d.content with
  | function symbol params result body? =>
    rw [values_function htags hcontent] at hx
    obtain ⟨before, s, after, hstmts, hmem⟩ := exists_of_mem_valuesOf _ _ hx
    rw [Definition.exprs, hcontent]
    refine List.mem_filterMap.2 ⟨s, ?_, (of_mem_valueOf hmem).2.1⟩
    rw [hstmts]
    exact List.mem_append_right _ List.mem_cons_self
  | global v =>
    rw [values_global htags hcontent] at hx
    rw [Definition.exprs, hcontent]
    exact Option.mem_toList.2 (of_mem_valueOfGlobal hx).2.1

/-- **A walk that is running comes to a value at rest.** -/
theorem sound_of_mem_values {L : Set Nat} (h : w.Meets globals L d) {x : Value}
    (hx : x ∈ w.values globals d) (hrun : x.walk.halted = false) : x.Sound d.file := by
  have htags := error?_eq_none_of_mem_values hx
  have hformed := h.formed.exprs _ (expr_mem_exprs hx)
  have henter : (w.enter d.file).Meets globals L d :=
    ⟨h.resting.enter d.file, h.formed, h.locals, h.apart⟩
  cases hcontent : d.content with
  | function symbol params result body? =>
    rw [values_function htags hcontent] at hx
    obtain ⟨hrest, hparams⟩ := henter.params hcontent
    have hlength : ((w.enter d.file).inBody params).symbols.length = w.symbols.length :=
      (hparams.trans (follows_push _)).symbols.length_eq
    obtain ⟨before, s, after, hstmts, hmem⟩ := exists_of_mem_valuesOf _ _ hx
    obtain ⟨hwalk, -, hlabel⟩ := of_mem_valueOf hmem
    have hbefore : ∀ s' ∈ before, s' ∈ d.stmts := fun s' hs' ↦
      hstmts ▸ List.mem_append_left _ hs'
    have hcomes : ((w.enter d.file).inBody params).ComesTo globals L before :=
      ⟨hrest.push, fun s' hs' ↦ hlength ▸ h.formed.stmts s' (hbefore s' hs'),
        fun s' hs' ↦ h.locals s' (hbefore s' hs'), hlength ▸ h.apart⟩
    have hrest := (stmts_of_running before _ hcomes (.refl _) (hwalk ▸ hrun)).1
    have hmoves := (moves_inBody (w.enter d.file) params).trans (moves_stmts globals before
      (waitsIn_all _) fun _ _ ↦ Sources.suppliesStmt_all fun _ _ _ ↦ trivial)
    exact hrest.sound hmoves.file_eq hwalk hformed hlabel
  | global v =>
    rw [values_global htags hcontent] at hx
    obtain ⟨hwalk, -, hlabel⟩ := of_mem_valueOfGlobal hx
    exact henter.resting.sound rfl hwalk hformed hlabel

end Walk

end FrontEnd
