import FrontEnd.Proofs.Check.Moves

/-!
# What lasts of checking

Symbols and errors outlive the definition in which they are found, so what is said of them here
holds however the definition ends. Errors are only ever added. A symbol is given a type once, and
only the symbols of local variables are given one at all (`Walk.Fills`, and `Walk.Retypes` for the
types alone). And there is no way to halt a definition but an error (`Walk.Follows.halted`), so a
definition without errors was not halted. All of this is shown of single moves, and holds of a
definition because that is a row of moves.
-/

namespace FrontEnd

open Table

/-- The type of a symbol, by number. -/
def Symbol.typeAt? (symbols : List Symbol) (i : Nat) : Option Ty :=
  symbols[i]?.bind (·.type?)

namespace Walk

theorem symbolType?_eq (w : Walk) (i : Nat) : w.symbolType? i = Symbol.typeAt? w.symbols i := rfl

/-! ### Symbols -/

/-- The symbols `τ` are the symbols `σ` **with types filled in**: each is as it was, or is in a set,
had no type and has got one. -/
structure Fills (L : Set Nat) (σ τ : List Symbol) : Prop where
  length_eq : τ.length = σ.length
  getElem?_eq : ∀ {i s}, σ[i]? = some s → τ[i]? = some s ∨
    i ∈ L ∧ s.type? = none ∧ ∃ a, τ[i]? = some { s with type? := some a }

namespace Fills

variable {L : Set Nat} {σ τ υ : List Symbol}

/-- Nothing has been filled in where nothing has changed. -/
theorem refl (σ : List Symbol) : Fills L σ σ :=
  ⟨rfl, .inl⟩

/-- What is filled in step by step is filled in. -/
theorem trans (h : Fills L σ τ) (h' : Fills L τ υ) : Fills L σ υ where
  length_eq := h'.length_eq.trans h.length_eq
  getElem?_eq {i s} hs := by
    rcases h.getElem?_eq hs with hτ | ⟨hi, hnone, a, hτ⟩
    · exact h'.getElem?_eq hτ
    · -- a type that has been filled in stays
      rcases h'.getElem?_eq hτ with hυ | ⟨-, hsome, -⟩
      · exact .inr ⟨hi, hnone, a, hυ⟩
      · cases hsome

end Fills

/-- Giving a type to a symbol that has none fills it in. -/
theorem fills_setSymbolType {L : Set Nat} {w : Walk} {i : Nat} (hi : i ∈ L)
    (hnone : w.symbolType? i = none) (a : Ty) :
    Fills L w.symbols (w.setSymbolType i a).symbols where
  length_eq := List.length_modify ..
  getElem?_eq {j s} hs := by
    rw [setSymbolType, List.getElem?_modify, hs]
    by_cases hij : i = j
    · subst hij
      rw [symbolType?, hs] at hnone
      exact .inr ⟨hi, hnone, a, congrArg some (if_pos rfl)⟩
    · exact .inl (congrArg some (if_neg hij))

/-- The symbols are the same ones, and have **the types they had**, except that symbols in a set may
have got a type if they had none. -/
structure Retypes (L : Set Nat) (symbols symbols' : List Symbol) : Prop where
  length_eq : symbols'.length = symbols.length
  typeAt?_eq : ∀ i, Symbol.typeAt? symbols' i = Symbol.typeAt? symbols i ∨
    Symbol.typeAt? symbols i = none ∧ i ∈ L

namespace Retypes

variable {L : Set Nat} {σ τ υ : List Symbol}

/-- Where nothing has changed the types are those that there were. -/
theorem refl (σ : List Symbol) : Retypes L σ σ :=
  ⟨rfl, fun _ ↦ .inl rfl⟩

/-- Types that are kept step by step are kept. -/
theorem trans (h : Retypes L σ τ) (h' : Retypes L τ υ) : Retypes L σ υ where
  length_eq := h'.length_eq.trans h.length_eq
  typeAt?_eq i := by
    rcases h.typeAt?_eq i with heq | hnone
    · rw [← heq]
      exact h'.typeAt?_eq i
    · exact .inr hnone

/-- Outside of the set nothing changes. -/
theorem eq_of_not_mem (h : Retypes L σ τ) {i : Nat} (hi : i ∉ L) :
    Symbol.typeAt? τ i = Symbol.typeAt? σ i :=
  (h.typeAt?_eq i).resolve_right fun h ↦ hi h.2

/-- A type stays. -/
theorem eq_of_some (h : Retypes L σ τ) {i : Nat} {a : Ty} (hi : Symbol.typeAt? σ i = some a) :
    Symbol.typeAt? τ i = some a :=
  ((h.typeAt?_eq i).resolve_right fun h ↦ nomatch h.1.symm.trans hi).trans hi

end Retypes

/-- Assigning a type is seen at its own symbol only, and there only if the symbol exists. -/
theorem typeAt?_setSymbolType (w : Walk) (i j : Nat) (a : Ty) :
    Symbol.typeAt? (w.setSymbolType i a).symbols j =
      if i = j ∧ j < w.symbols.length then some a else Symbol.typeAt? w.symbols j := by
  rw [Symbol.typeAt?, setSymbolType, List.getElem?_modify, Symbol.typeAt?]
  rcases Nat.lt_or_ge j w.symbols.length with hj | hj
  · rw [List.getElem?_eq_getElem hj]
    by_cases hij : i = j
    · rw [if_pos ⟨hij, hj⟩]
      simp [hij]
    · rw [if_neg fun h ↦ hij h.1]
      simp [hij]
  · rw [if_neg fun h ↦ Nat.not_lt.2 hj h.2, List.getElem?_eq_none hj]
    rfl

/-- Where types have been filled in, the others are as they were. -/
theorem Fills.retypes {L : Set Nat} {σ τ : List Symbol} (h : Fills L σ τ) : Retypes L σ τ where
  length_eq := h.length_eq
  typeAt?_eq i := by
    rw [Symbol.typeAt?, Symbol.typeAt?]
    rcases Nat.lt_or_ge i σ.length with hi | hi
    · rw [List.getElem?_eq_getElem hi]
      rcases h.getElem?_eq (List.getElem?_eq_getElem hi) with hsame | ⟨hmem, hnone, -⟩
      · exact .inl (by rw [hsame])
      · exact .inr ⟨hnone, hmem⟩
    · rw [List.getElem?_eq_none hi, List.getElem?_eq_none (h.length_eq ▸ hi)]
      exact .inl rfl

/-! ### Walks -/

/-- The state `v` comes after `w`: errors have been added at most, symbols in a set may have got
types, and without an error the definition is not halted. -/
structure Follows (L : Set Nat) (w v : Walk) : Prop where
  /-- No symbol is added or removed, and no type is taken back. -/
  symbols : Retypes L w.symbols v.symbols
  /-- Errors are only ever added, at the end. -/
  findings : w.findings <+: v.findings
  /-- Nothing but an error halts a definition. -/
  halted : v.findings = w.findings → v.halted = w.halted

namespace Follows

variable {L : Set Nat} {w v x : Walk}

theorem refl (w : Walk) : Follows L w w :=
  ⟨.refl _, List.prefix_refl _, fun _ ↦ rfl⟩

theorem trans (h : Follows L w v) (h' : Follows L v x) : Follows L w x where
  symbols := h.symbols.trans h'.symbols
  findings := h.findings.trans h'.findings
  halted hx := by
    obtain ⟨hv, hx⟩ := eq_of_prefix_of_eq h.findings h'.findings hx
    rw [h'.halted hx, h.halted hv]

/-- An error may always be added, and then it does not matter what has been halted. -/
theorem record (h : Follows L w v) (e : CheckError) : Follows L w (v.record e) where
  symbols := h.symbols
  findings := h.findings.trans (List.prefix_append _ _)
  halted hx := by
    -- there is one error more, so there was no reason to ask
    have hlen := congrArg List.length hx
    have hle := h.findings.length_le
    rw [Walk.record, List.length_append, List.length_singleton] at hlen
    omega

end Follows

variable {D : Sources} {L : Set Nat} {w v : Walk} {globals : Bindings}

/-- Moves only fill in types, and only those of their variables. -/
theorem Moves.fills (h : Moves D L w v) : Fills L w.symbols v.symbols := by
  induction h with
  | refl => exact .refl _
  | tail _ hmove ih =>
    cases hmove with
    | assign _ hi hnone a => exact ih.trans (fills_setSymbolType hi hnone a)
    | _ => exact ih -- no other move touches the symbols

/-- **What comes behind a row of moves.** -/
theorem Moves.follows (h : Moves D L w v) : Follows L w v := by
  have hfills := h.fills.retypes
  induction h with
  | refl => exact .refl w
  | tail hrow hmove ih =>
    have hbefore := ih (fills hrow).retypes
    cases hmove with
    | record => exact hbefore.record _
    | _ => exact ⟨hfills, hbefore.findings, hbefore.halted⟩

/-! ### Steps

What follows needs no more than that it is a row of moves, so there are no restrictions on
errors. -/

theorem follows_push (w : Walk) : Follows L w w.push :=
  (moves_push (D := .all) w).follows

theorem follows_pop (w : Walk) : Follows L w w.pop :=
  (moves_pop (D := .all) w).follows

theorem follows_declare (w : Walk) (i : Nat) : Follows L w (w.declare i) :=
  (moves_declare (Sources.calls_all _ i)).follows

theorem follows_foldl_declare (params : List Nat) (w : Walk) :
    Follows L w (params.foldl declare w) :=
  (moves_foldl_declare params w fun i _ ↦ Sources.calls_all _ i).follows

section Agreement

variable [RootChoice]

/-- Expressions give no types to symbols, so the set may be any. -/
theorem follows_expr (e : Expr) (w : Walk) : Follows L w (expr globals e w).2 :=
  (turns_expr globals (Sources.supplies_all e) w).moves.follows

theorem follows_exprs (es : List Expr) (w : Walk) : Follows L w (exprs globals es w).2 :=
  (turns_exprs globals (fun e _ ↦ Sources.supplies_all e) w).moves.follows

theorem follows_unlabelled (w : Walk) (e : Expr) : Follows L w (w.unlabelled globals e).2 :=
  (turns_unlabelled globals w.waitsIn_all (Sources.supplies_all e)).moves.follows

theorem follows_labelled (w : Walk) (label : Ty) (init : Expr) :
    Follows L w (w.labelled globals label init).2 :=
  (turns_labelled globals w.waitsIn_all (Sources.supplies_all init) label).moves.follows

/-- The local variables among some statements are in a set. -/
def LocalsIn (L : Set Nat) (ss : List Stmt) : Prop :=
  ∀ s ∈ ss, ∀ v, s.declared? = some v → v.symbol ∈ L

variable (globals) in
/-- A statement gives a type to the variable that it declares at most. -/
theorem follows_stmt (w : Walk) (s : Stmt) (hs : ∀ v, s.declared? = some v → v.symbol ∈ L) :
    Follows L w (w.stmt globals s).2 :=
  (moves_stmt globals w.waitsIn_all (Sources.suppliesStmt_all fun v hv _ ↦ hs v hv)).follows

theorem follows_letVar (w : Walk) (v : Variable) (hv : v.symbol ∈ L) :
    Follows L w (w.letVar globals v).2 :=
  follows_stmt globals w (.letVar v) fun _ hu ↦ Option.some.inj hu ▸ hv

variable (globals) in
/-- Statements give types to the variables that they declare at most. -/
theorem follows_stmts (ss : List Stmt) (w : Walk) (hss : LocalsIn L ss) :
    Follows L w (w.stmts globals ss).2 :=
  (moves_stmts globals ss w.waitsIn_all fun s hs ↦
    Sources.suppliesStmt_all fun v hv _ ↦ hss s hs v hv).follows

/-- The type of a global variable is that of its label, so checking gives it none. -/
theorem follows_global (w : Walk) (v : Variable) : Follows L w (w.global globals v).2 :=
  (moves_global globals w.waitsIn_all (Sources.calls_all _ _) fun e _ ↦
    Sources.supplies_all e).follows

variable (globals) in
/-- The content of a definition gives types to its local variables at most. -/
theorem follows_content (w : Walk) (d : Definition) (hd : LocalsIn L d.stmts) :
    Follows L w (w.content globals d.content).2 :=
  (moves_content globals w.waitsIn_all
    (Sources.suppliesDefinition_all fun s hs v hv _ ↦ hd s hs v hv)).follows

omit [RootChoice] in
/-- Tags are compared with what is allowed, and an error is all that can come of it. -/
theorem follows_tags (w : Walk) (d : Definition) : Follows L w (w.tags d) := by
  rw [tags]
  split
  · exact .refl w
  · exact (Follows.refl w).record _

variable (globals) in
/-- **A definition** adds errors at most, gives types to its local variables at most, and is halted
only by an error. -/
theorem follows_definition (w : Walk) (d : Definition) (hd : LocalsIn L d.stmts) :
    Follows L (w.enter d.file) (w.definition globals d).2 := by
  have htags := follows_tags (L := L) (w.enter d.file) d
  rw [definition]
  dsimp only
  split
  · exact ⟨htags.symbols, htags.findings, htags.halted⟩
  · have hcontent := htags.trans (follows_content globals _ d hd)
    exact ⟨hcontent.symbols, hcontent.findings, hcontent.halted⟩

end Agreement

end Walk

end FrontEnd
