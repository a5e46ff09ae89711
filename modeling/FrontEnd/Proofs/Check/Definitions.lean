import FrontEnd.Proofs.Check.Statements

/-!
# What checking a definition finds

Statement by statement, and then for a definition as a whole: if it is not halted, every tree in it
is settled, every variable has the type of its initial value, and every symbol that it introduces
has a type. Whether it is halted or not, the walk is at rest again behind it.
-/

namespace FrontEnd

open Table

theorem Symbol.typeAt?_eq_some_iff {symbols : List Symbol} {i : Nat} {a : Ty} :
    Symbol.typeAt? symbols i = some a ↔ ∃ s, symbols[i]? = some s ∧ s.type? = some a :=
  Option.bind_eq_some_iff

/-- The expression of a statement names concrete types, and its variable is one of the symbols. -/
structure Stmt.Formed (count : Nat) (s : Stmt) : Prop where
  expr : ∀ e, s.expr? = some e → e.Formed
  symbol : ∀ v, s.declared? = some v → v.symbol < count

namespace Definition

/-- The symbols whose types a definition states: the function and its parameters. -/
def signature (d : Definition) : List Nat :=
  match d.content with
  | .function symbol params _ _ => symbol :: params
  | .global _ => []

/-- A definition is **formed** over symbols if what it states the types of has a type, its variables
are among the symbols, and its expressions are formed. -/
structure Formed (symbols : List Symbol) (d : Definition) : Prop where
  signature : ∀ i ∈ d.signature, ∃ a, Symbol.typeAt? symbols i = some a
  declared : ∀ v ∈ d.declared, v.symbol < symbols.length
  exprs : ∀ e ∈ d.exprs, e.Formed

theorem Formed.stmts {symbols : List Symbol} {d : Definition} (h : d.Formed symbols) :
    ∀ s ∈ d.stmts, s.Formed symbols.length := by
  intro s hs
  exact ⟨fun e he ↦ h.exprs e (mem_exprs_of_mem_stmts hs he),
    fun v hv ↦ h.declared v (mem_declared_of_mem_stmts hs hv)⟩

end Definition

namespace Walk

variable {w : Walk} {L : Set Nat} {globals : Bindings} {final : List Symbol}

/-- What is found of a statement. -/
structure Done (final : List Symbol) (strict : Prop) (s : Stmt) : Prop where
  /-- Its expression is settled. -/
  settled : ∀ e, s.expr? = some e → Settled final strict e
  /-- Its variable has a type, and that of its initial value. -/
  declared : ∀ v, s.declared? = some v →
    v.Matches final ∧ ∃ a, Symbol.typeAt? final v.symbol = some a

theorem Done.mono {p q : Prop} {s : Stmt} (h : Done final p s) (hpq : q → p) : Done final q s :=
  ⟨fun e he ↦ (h.settled e he).mono hpq, h.declared⟩

theorem Resting.setSymbolType (h : w.Resting) {a : Ty} (ha : a.isConcrete = true) (i : Nat) :
    (w.setSymbolType i a).Resting where
  table_eq := h.table_eq
  waiting_eq := h.waiting_eq
  concrete j b hb := by
    rw [typeAt?_setSymbolType] at hb
    split at hb
    · exact Option.some.inj hb ▸ ha
    · exact h.concrete j b hb
  scope frame hframe b hb := by
    obtain ⟨c, hc⟩ := h.scope frame hframe b hb
    rw [symbolType?_eq, typeAt?_setSymbolType]
    split
    · exact ⟨a, rfl⟩
    · exact ⟨c, hc⟩

theorem adopt_of_halted (h : w.halted = true) (i : Nat) (e : Expr) : w.adopt i e = w :=
  if_pos h

theorem declare_of_halted (h : w.halted = true) (i : Nat) : w.declare i = w :=
  if_pos h

theorem running_of_declare {i : Nat} (h : (w.declare i).halted = false) : w.halted = false :=
  running_of_stays (fun hw ↦ declare_of_halted hw i) h

theorem running_of_adopt {i : Nat} {e : Expr} (h : (w.adopt i e).halted = false) :
    w.halted = false :=
  running_of_stays (fun hw ↦ adopt_of_halted hw i e) h

theorem adopt_of_some (h : w.halted = false) {i : Nat} {e : Expr} {a : Ty} (ha : e.type? = some a) :
    w.adopt i e = w.setSymbolType i a := by
  rw [adopt, andThen, if_neg (by simp [h]), ha]

/-- To adopt a type is to set it, unless there is none. -/
theorem adopt_of_running {i : Nat} {e : Expr} (h : (w.adopt i e).halted = false) :
    ∃ a, e.type? = some a ∧ w.adopt i e = w.setSymbolType i a := by
  have hw := running_of_adopt h
  cases ha : e.type? with
  | none =>
    rw [adopt, andThen, if_neg (by simp [hw]), ha] at h
    cases (halted_record w rfl).symm.trans h
  | some a => exact ⟨a, rfl, adopt_of_some hw ha⟩

theorem symbolType?_declare (w : Walk) (i j : Nat) :
    (w.declare i).symbolType? j = w.symbolType? j :=
  (follows_declare (L := ∅) w i).symbols.eq_of_not_mem id

section Agreement

variable [RootChoice]

/-! ### Variables -/

theorem letVar_of_halted (h : w.halted = true) (v : Variable) : w.letVar globals v = (v, w) :=
  if_pos h

variable (globals) in
/-- The four ways to declare a local variable. -/
theorem letVar_cases (h : w.halted = false) (v : Variable) :
    (∃ label init, w.symbolType? v.symbol = some label ∧ v.init? = some init ∧
        w.letVar globals v = ({ v with init? := some (w.labelled globals label init).1 },
          (w.labelled globals label init).2.declare v.symbol)) ∨
      (∃ label, w.symbolType? v.symbol = some label ∧ v.init? = none ∧
        w.letVar globals v = (v, w.declare v.symbol)) ∨
      (∃ init, w.symbolType? v.symbol = none ∧ v.init? = some init ∧
        w.letVar globals v = ({ v with init? := some (w.unlabelled globals init).1 },
          ((w.unlabelled globals init).2.adopt v.symbol
            (w.unlabelled globals init).1).declare v.symbol)) ∨
      (w.letVar globals v = (v, w) ∧ w.symbols.length ≤ v.symbol) ∨
      ∃ err, CheckError.isFatal err = true ∧ w.letVar globals v = (v, w.record err) := by
  rw [letVar, if_neg (by simp [h])]
  cases htype : w.symbolType? v.symbol with
  | some label =>
    cases hinit : v.init? with
    | some init => exact .inl ⟨label, init, rfl, rfl, rfl⟩
    | none => exact .inr (.inl ⟨label, rfl, rfl, rfl⟩)
  | none =>
    cases hinit : v.init? with
    | some init => exact .inr (.inr (.inl ⟨init, rfl, rfl, rfl⟩))
    | none =>
      cases hs : w.symbols[v.symbol]? with
      | some s => exact .inr (.inr (.inr (.inr ⟨_, rfl, rfl⟩)))
      | none => exact .inr (.inr (.inr (.inl ⟨rfl, List.getElem?_eq_none_iff.1 hs⟩)))

/-- However a local variable fares, no type of a symbol gets a hole. -/
theorem allConcrete_letVar (hw : w.Resting) {v : Variable}
    (hinit : ∀ e, v.init? = some e → e.Formed) :
    Symbol.AllConcrete (w.letVar globals v).2.symbols := by
  cases hhalted : w.halted with
  | true =>
    rw [letVar_of_halted hhalted]
    exact hw.concrete
  | false =>
    rcases letVar_cases globals hhalted v with ⟨label, init, -, -, h⟩ | ⟨label, -, -, h⟩ |
      ⟨init, hnone, hsome, h⟩ | ⟨h, -⟩ | ⟨err, -, h⟩ <;> rw [h]
    · exact ((follows_labelled w label init).trans (follows_declare _ _)).symbols.allConcrete
        hw.concrete
    · exact (follows_declare w _).symbols.allConcrete hw.concrete
    · have hfollows : Follows ∅ w (w.unlabelled globals init).2 := follows_unlabelled w init
      refine (follows_declare _ _).symbols.allConcrete ?_
      cases hrun : (w.unlabelled globals init).2.halted with
      | true =>
        rw [adopt_of_halted hrun]
        exact hfollows.symbols.allConcrete hw.concrete
      | false =>
        -- the type was found behind the checkpoint
        obtain ⟨hrest, -, hconcrete, -⟩ := unlabelled_of_running hw (hinit init hsome) hrun
        cases ha : (w.unlabelled globals init).1.type? with
        | none =>
          rw [adopt, andThen, if_neg (by simp [hrun]), ha]
          exact hrest.concrete
        | some a =>
          rw [adopt_of_some hrun ha]
          exact (hrest.setSymbolType (hconcrete a ha) _).concrete
    · exact hw.concrete
    · exact hw.concrete

/-- Global symbols are symbols, and not those of local variables in a set. -/
def GlobalsApart (globals : Bindings) (L : Set Nat) (count : Nat) : Prop :=
  ∀ b ∈ globals, b.2 < count ∧ b.2 ∉ L

/-- A local variable with a label and an initial value. -/
theorem letVar_of_labelled (hw : w.Resting) {v : Variable} {init : Expr} {label : Ty}
    (hinit : init.Formed) (htype : w.symbolType? v.symbol = some label)
    (hagrees : w.Agrees globals final)
    (hfinal : Retypes L ((w.labelled globals label init).2.declare v.symbol).symbols final)
    (hrun : ((w.labelled globals label init).2.declare v.symbol).halted = false) :
    ((w.labelled globals label init).2.declare v.symbol).Resting ∧
      Done final (((w.labelled globals label init).2.declare v.symbol).findings = w.findings)
        (.letVar { v with init? := some (w.labelled globals label init).1 }) := by
  obtain ⟨hrest, hsymbols, hsettled, hlabel⟩ :=
    labelled_of_running hw hinit (hw.concrete _ _ htype) hagrees (running_of_declare hrun)
  have hdeclare := follows_declare (L := ∅) (w.labelled globals label init).2 v.symbol
  have htype' : (w.labelled globals label init).2.symbolType? v.symbol = some label := by
    rw [symbolType?, hsymbols]
    exact htype
  have hsymbol : Symbol.typeAt? final v.symbol = some label :=
    hfinal.eq_of_some ((symbolType?_declare _ _ _).trans htype')
  refine ⟨hrest.declare htype', ⟨fun e he ↦ ?_, fun v' hv' ↦ ?_⟩⟩
  · obtain rfl := Option.some.inj he
    exact hsettled.mono fun hstrict ↦ (eq_of_prefix_of_eq
      (follows_labelled (L := ∅) w label init).findings hdeclare.findings hstrict).1
  · obtain rfl := Option.some.inj hv'
    refine ⟨fun e a he ha ↦ ?_, label, hsymbol⟩
    obtain rfl := Option.some.inj he
    rw [hlabel a ha]
    exact Symbol.typeAt?_eq_some_iff.1 hsymbol

/-- A local variable with an initial value only, whose type it adopts. -/
theorem letVar_of_unlabelled (hw : w.Resting) {v : Variable} {init : Expr} (hinit : init.Formed)
    (hlt : v.symbol < w.symbols.length) (hagrees : w.Agrees globals final)
    (hfinal : Retypes L (((w.unlabelled globals init).2.adopt v.symbol
      (w.unlabelled globals init).1).declare v.symbol).symbols final)
    (hrun : (((w.unlabelled globals init).2.adopt v.symbol
      (w.unlabelled globals init).1).declare v.symbol).halted = false) :
    (((w.unlabelled globals init).2.adopt v.symbol
        (w.unlabelled globals init).1).declare v.symbol).Resting ∧
      Done final ((((w.unlabelled globals init).2.adopt v.symbol
          (w.unlabelled globals init).1).declare v.symbol).findings = w.findings)
        (.letVar { v with init? := some (w.unlabelled globals init).1 }) := by
  have hrun' := running_of_declare hrun
  obtain ⟨hrest, hsymbols, hconcrete, hsettled⟩ :=
    unlabelled_of_running hw hinit (running_of_adopt hrun')
  obtain ⟨a, ha, heq⟩ := adopt_of_running hrun'
  rw [heq] at hfinal ⊢
  have htype : ((w.unlabelled globals init).2.setSymbolType v.symbol a).symbolType? v.symbol =
      some a := by
    rw [symbolType?_eq, typeAt?_setSymbolType, if_pos ⟨rfl, hsymbols ▸ hlt⟩]
  have hsymbol : Symbol.typeAt? final v.symbol = some a :=
    hfinal.eq_of_some ((symbolType?_declare _ _ _).trans htype)
  have hdeclare := follows_declare (L := ∅)
    ((w.unlabelled globals init).2.setSymbolType v.symbol a) v.symbol
  refine ⟨(hrest.setSymbolType (hconcrete a ha) _).declare htype, ⟨fun e he ↦ ?_, ?_⟩⟩
  · obtain rfl := Option.some.inj he
    exact (hsettled final hagrees).mono fun hstrict ↦ (eq_of_prefix_of_eq
      (follows_unlabelled (L := ∅) w init).findings hdeclare.findings hstrict).1
  · intro v' hv'
    obtain rfl := Option.some.inj hv'
    refine ⟨fun e b he hb ↦ ?_, a, hsymbol⟩
    obtain rfl := Option.some.inj he
    obtain rfl := Option.some.inj (ha.symm.trans hb)
    exact Symbol.typeAt?_eq_some_iff.1 hsymbol

theorem letVar_of_running (hw : w.Resting) {v : Variable}
    (hv : (Stmt.letVar v).Formed w.symbols.length) (hL : v.symbol ∈ L)
    (hglobals : GlobalsApart globals L w.symbols.length)
    (hfinal : Retypes L (w.letVar globals v).2.symbols final)
    (hrun : (w.letVar globals v).2.halted = false) :
    (w.letVar globals v).2.Resting ∧
      Done final ((w.letVar globals v).2.findings = w.findings)
        (.letVar (w.letVar globals v).1) := by
  have hhalted : w.halted = false :=
    running_of_stays (fun hw ↦ by rw [letVar_of_halted hw]) hrun
  have hagrees : w.Agrees globals final :=
    hw.agrees hglobals ((follows_letVar w v hL).symbols.trans hfinal)
  rcases letVar_cases globals hhalted v with
    ⟨label, init, htype, hinit, h⟩ | ⟨label, htype, hinit, h⟩ | ⟨init, htype, hinit, h⟩ |
    ⟨h, hge⟩ | ⟨err, herr, h⟩ <;> rw [h] at hrun hfinal ⊢
  · exact letVar_of_labelled hw (hv.expr init hinit) htype hagrees hfinal hrun
  · -- a label only
    refine ⟨hw.declare htype, ⟨fun e he ↦ ?_, fun v' hv' ↦ ?_⟩⟩
    · cases hinit.symm.trans he
    · obtain rfl := Option.some.inj hv'
      refine ⟨fun e a he ↦ ?_, label, ?_⟩
      · cases hinit.symm.trans he
      · exact hfinal.eq_of_some ((symbolType?_declare w _ _).trans htype)
  · exact letVar_of_unlabelled hw (hv.expr init hinit) (hv.symbol v rfl) hagrees hfinal hrun
  · exact absurd (hv.symbol v rfl) (Nat.not_lt.2 hge)
  · cases (halted_record w herr).symm.trans hrun

/-! ### Statements -/

theorem stmt_of_halted (h : w.halted = true) (s : Stmt) : w.stmt globals s = (s, w) := by
  cases s with
  | letVar v => rw [stmt, letVar_of_halted h]
  | expr e =>
    rw [stmt, expr_of_halted h]
    dsimp only
    rw [checkpoint_of_halted h]

theorem stmts_cons (w : Walk) (s : Stmt) (ss : List Stmt) : w.stmts globals (s :: ss) =
    ((w.stmt globals s).1 :: ((w.stmt globals s).2.stmts globals ss).1,
      ((w.stmt globals s).2.stmts globals ss).2) := rfl

theorem stmts_of_halted (h : w.halted = true) (ss : List Stmt) :
    w.stmts globals ss = (ss, w) := by
  induction ss with
  | nil => rfl
  | cons s ss ih => rw [stmts_cons, stmt_of_halted h, ih]

theorem running_of_stmts {ss : List Stmt} (h : (w.stmts globals ss).2.halted = false) :
    w.halted = false :=
  running_of_stays (fun hw ↦ by rw [stmts_of_halted hw]) h

theorem allConcrete_stmt (hw : w.Resting) {s : Stmt} (hs : s.Formed w.symbols.length) :
    Symbol.AllConcrete (w.stmt globals s).2.symbols := by
  cases s with
  | letVar v => exact allConcrete_letVar hw hs.expr
  | expr e => exact (follows_unlabelled w e).symbols.allConcrete hw.concrete

/-- **A statement leads from rest to rest.** -/
theorem stmt_of_running (hw : w.Resting) {s : Stmt} (hs : s.Formed w.symbols.length)
    (hL : ∀ v, s.declared? = some v → v.symbol ∈ L)
    (hglobals : GlobalsApart globals L w.symbols.length)
    (hfinal : Retypes L (w.stmt globals s).2.symbols final)
    (hrun : (w.stmt globals s).2.halted = false) :
    (w.stmt globals s).2.Resting ∧
      Done final ((w.stmt globals s).2.findings = w.findings) (w.stmt globals s).1 := by
  cases s with
  | letVar v => exact letVar_of_running hw hs (hL v rfl) hglobals hfinal hrun
  | expr e =>
    have hagrees : w.Agrees globals final :=
      hw.agrees hglobals ((follows_unlabelled w e).symbols.trans hfinal)
    obtain ⟨hrest, -, -, hsettled⟩ := unlabelled_of_running hw (hs.expr e rfl) hrun
    refine ⟨hrest, ⟨fun e' he' ↦ ?_, fun v hv ↦ nomatch hv⟩⟩
    obtain rfl := Option.some.inj he'
    exact hsettled final hagrees

/-- A walk **comes to statements** at rest. They are formed, their variables are in a set, and no
global name means one of these. -/
structure ComesTo (globals : Bindings) (L : Set Nat) (w : Walk) (ss : List Stmt) : Prop where
  resting : w.Resting
  formed : ∀ s ∈ ss, s.Formed w.symbols.length
  locals : LocalsIn L ss
  apart : GlobalsApart globals L w.symbols.length

/-- **Statements lead from rest to rest**: behind one that has not halted it, a walk comes to the
others. -/
theorem ComesTo.next {s : Stmt} {ss : List Stmt} (h : w.ComesTo globals L (s :: ss))
    (hrun : (w.stmt globals s).2.halted = false) :
    (w.stmt globals s).2.ComesTo globals L ss := by
  obtain ⟨hs, hss⟩ := List.forall_mem_cons.1 h.formed
  obtain ⟨hL, hLs⟩ := List.forall_mem_cons.1 h.locals
  have hlength := (follows_stmt globals w s hL).symbols.length_eq
  exact ⟨(stmt_of_running h.resting hs hL h.apart (.refl _) hrun).1, hlength ▸ hss, hLs,
    hlength ▸ h.apart⟩

/-- Statements that have been checked are done, and the walk is at rest behind them. -/
theorem stmts_of_running (ss : List Stmt) (w : Walk) (h : w.ComesTo globals L ss)
    (hfinal : Retypes L (w.stmts globals ss).2.symbols final)
    (hrun : (w.stmts globals ss).2.halted = false) :
    (w.stmts globals ss).2.Resting ∧ ∀ s ∈ (w.stmts globals ss).1,
      Done final ((w.stmts globals ss).2.findings = w.findings) s := by
  induction ss generalizing w with
  | nil => exact ⟨h.resting, List.forall_mem_nil _⟩
  | cons s ss ih =>
    rw [stmts_cons] at hfinal hrun ⊢
    obtain ⟨hL, hLs⟩ := List.forall_mem_cons.1 h.locals
    have hfirst := follows_stmt globals w s hL
    have hmore := follows_stmts globals ss (w.stmt globals s).2 hLs
    obtain ⟨-, hdone⟩ := stmt_of_running h.resting (h.formed s List.mem_cons_self) hL h.apart
      (hmore.symbols.trans hfinal) (running_of_stmts hrun)
    obtain ⟨hrest, hdones⟩ := ih _ (h.next (running_of_stmts hrun)) hfinal hrun
    have hstrict := eq_of_prefix_of_eq hfirst.findings hmore.findings
    refine ⟨hrest, List.forall_mem_cons.2 ⟨hdone.mono fun h ↦ (hstrict h).1, fun s' hs' ↦ ?_⟩⟩
    exact (hdones s' hs').mono fun h ↦ (hstrict h).2

theorem allConcrete_stmts (ss : List Stmt) (w : Walk) (h : w.ComesTo globals L ss) :
    Symbol.AllConcrete (w.stmts globals ss).2.symbols := by
  induction ss generalizing w with
  | nil => exact h.resting.concrete
  | cons s ss ih =>
    rw [stmts_cons]
    cases hrun : (w.stmt globals s).2.halted with
    | true =>
      rw [stmts_of_halted hrun]
      exact allConcrete_stmt h.resting (h.formed s List.mem_cons_self)
    | false => exact ih _ (h.next hrun)

/-! ### Definitions -/

/-- What is found of a definition. -/
structure Complete (final : List Symbol) (strict : Prop) (d : Definition) : Prop where
  /-- Its expressions are settled. -/
  settled : ∀ e ∈ d.exprs, Settled final strict e
  /-- Its variables have the types of their initial values. -/
  matched : ∀ v ∈ d.declared, v.Matches final
  /-- All symbols that it introduces have types. -/
  typed : ∀ i ∈ d.symbol :: (d.params ++ d.locals), ∃ a, Symbol.typeAt? final i = some a

omit [RootChoice] in
/-- A function is what its statements and its signature are. -/
theorem complete_function {strict : Prop} {d : Definition} {symbol : Nat} {params : List Nat}
    {result : Ty} {body? : Option Block}
    (hcontent : d.content = .function symbol params result body?)
    (hsignature : ∀ i ∈ symbol :: params, ∃ a, Symbol.typeAt? final i = some a)
    (hstmts : ∀ s ∈ d.stmts, Done final strict s) : Complete final strict d where
  settled e he := by
    rw [Definition.exprs, hcontent] at he
    obtain ⟨s, hs, hse⟩ := List.mem_filterMap.1 he
    exact (hstmts s hs).settled e hse
  matched v hv := by
    rw [Definition.declared, hcontent] at hv
    obtain ⟨s, hs, hsv⟩ := List.mem_filterMap.1 hv
    exact ((hstmts s hs).declared v hsv).1
  typed i hi := by
    rw [Definition.symbol, Definition.params, hcontent] at hi
    have hcases : i ∈ symbol :: params ∨ i ∈ d.locals := by simpa [or_assoc] using hi
    rcases hcases with hi | hi
    · exact hsignature i hi
    · rw [Definition.locals_eq] at hi
      obtain ⟨s, hs, hsi⟩ := List.mem_filterMap.1 hi
      obtain ⟨v, hv, rfl⟩ := Option.map_eq_some_iff.1 hsi
      exact ((hstmts s hs).declared v hv).2

omit [RootChoice] in
/-- A global variable is what its initial value and its symbol are. -/
theorem complete_global {strict : Prop} {d : Definition} {v : Variable} {label : Ty}
    (hcontent : d.content = .global v) (hsymbol : Symbol.typeAt? final v.symbol = some label)
    (hinit : ∀ e, v.init? = some e →
      Settled final strict e ∧ ∀ a, e.type? = some a → a = label) : Complete final strict d where
  settled e he := by
    rw [Definition.exprs, hcontent] at he
    exact (hinit e (Option.mem_toList.1 he)).1
  matched v' hv' := by
    rw [Definition.declared, hcontent] at hv'
    obtain rfl := List.mem_singleton.1 hv'
    intro e a he ha
    rw [(hinit e he).2 a ha]
    exact Symbol.typeAt?_eq_some_iff.1 hsymbol
  typed i hi := by
    rw [Definition.symbol, Definition.params, Definition.locals, hcontent] at hi
    obtain rfl := List.mem_singleton.1 hi
    exact ⟨label, hsymbol⟩

omit [RootChoice] in
theorem halted_pop (w : Walk) : w.pop.halted = w.halted := by
  rw [pop, andThen]
  split <;> rfl

omit [RootChoice] in
theorem resting_foldl_declare (params : List Nat) (w : Walk) (hw : w.Resting)
    (hparams : ∀ i ∈ params, ∃ a, w.symbolType? i = some a) : (params.foldl declare w).Resting := by
  induction params generalizing w with
  | nil => exact hw
  | cons i params ih =>
    obtain ⟨a, ha⟩ := hparams i List.mem_cons_self
    refine ih _ (hw.declare ha) fun j hj ↦ ?_
    rw [symbolType?_declare]
    exact hparams j (List.mem_cons_of_mem _ hj)

/-- A walk **meets a definition** at rest. It is formed, its local variables are in a set, and no
global name means one of these. -/
structure Meets (globals : Bindings) (L : Set Nat) (w : Walk) (d : Definition) : Prop where
  resting : w.Resting
  formed : d.Formed w.symbols
  locals : LocalsIn L d.stmts
  apart : GlobalsApart globals L w.symbols.length

omit [RootChoice] in
/-- Behind its parameters a function is still at rest. -/
theorem Meets.params {d : Definition} (h : w.Meets globals L d) {symbol : Nat}
    {params : List Nat} {result : Ty} {body? : Option Block}
    (hcontent : d.content = .function symbol params result body?) :
    (params.foldl declare w.push).Resting ∧ Follows ∅ w (params.foldl declare w.push) := by
  have hsignature := h.formed.signature
  rw [Definition.signature, hcontent] at hsignature
  have hpush := follows_push (L := ∅) w
  refine ⟨resting_foldl_declare params _ h.resting.push fun i hi ↦ ?_,
    hpush.trans (follows_foldl_declare params _)⟩
  rw [symbolType?_eq, hpush.symbols.eq_of_not_mem id]
  exact hsignature i (List.mem_cons_of_mem _ hi)

omit [RootChoice] in
/-- **The state in which the body of a function is checked.** -/
theorem Meets.body {d : Definition} (h : w.Meets globals L d) {symbol : Nat}
    {params : List Nat} {result : Ty} {b : Block}
    (hcontent : d.content = .function symbol params result (some b)) :
    (params.foldl declare w.push).push.ComesTo globals L b.stmts ∧
      Follows ∅ w (params.foldl declare w.push).push := by
  obtain ⟨hrest, hparams⟩ := h.params hcontent
  have hfollows := hparams.trans (follows_push _)
  have hlength := hfollows.symbols.length_eq
  have hstmts : b.stmts = d.stmts := by rw [Definition.stmts, hcontent]
  exact ⟨⟨hrest.push, hstmts ▸ hlength ▸ h.formed.stmts, hstmts ▸ h.locals, hlength ▸ h.apart⟩,
    hfollows⟩

theorem body_some (w : Walk) (b : Block) : w.body globals (some b) =
    (some { b with stmts := (w.push.stmts globals b.stmts).1 },
      (w.push.stmts globals b.stmts).2.pop) := rfl

theorem content_function (w : Walk) (symbol : Nat) (params : List Nat) (result : Ty)
    (body? : Option Block) : w.content globals (.function symbol params result body?) =
      (.function symbol params result ((params.foldl declare w.push).body globals body?).1,
        ((params.foldl declare w.push).body globals body?).2.pop) := rfl

theorem function_of_running {d : Definition} (h : w.Meets globals L d)
    {symbol : Nat} {params : List Nat} {result : Ty} {body? : Option Block}
    (hcontent : d.content = .function symbol params result body?)
    (hfinal : Retypes L (w.content globals d.content).2.symbols final)
    (hrun : (w.content globals d.content).2.halted = false) :
    Complete final ((w.content globals d.content).2.findings = w.findings)
      { d with content := (w.content globals d.content).1 } := by
  have hsignature := h.formed.signature
  have hfollows := (follows_content globals w d h.locals).symbols.trans hfinal
  rw [Definition.signature, hcontent] at hsignature
  rw [hcontent, content_function] at hfinal hrun ⊢
  refine complete_function rfl (fun i hi ↦ ?_) ?_
  · obtain ⟨a, ha⟩ := hsignature i hi
    exact ⟨a, hfollows.eq_of_some ha⟩
  cases body? with
  | none => exact fun s hs ↦ absurd hs List.not_mem_nil
  | some b =>
    rw [body_some] at hfinal hrun ⊢
    rw [halted_pop, halted_pop] at hrun
    obtain ⟨hcomes, hpush⟩ := h.body hcontent
    have hpop : Follows L ((params.foldl declare w.push).push.stmts globals b.stmts).2
        ((params.foldl declare w.push).push.stmts globals b.stmts).2.pop.pop :=
      (follows_pop _).trans (follows_pop _)
    intro s hs
    refine ((stmts_of_running b.stmts _ hcomes (hpop.symbols.trans hfinal) hrun).2 s hs).mono
      fun hstrict ↦ ?_
    have hbody := follows_stmts globals b.stmts (params.foldl declare w.push).push hcomes.locals
    have hstrict := eq_of_prefix_of_eq (hpush.findings.trans hbody.findings) hpop.findings hstrict
    exact (eq_of_prefix_of_eq hpush.findings hbody.findings hstrict.1).2

theorem allConcrete_content {d : Definition} (h : w.Meets globals L d) :
    Symbol.AllConcrete (w.content globals d.content).2.symbols := by
  cases hcontent : d.content with
  | function symbol params result body? =>
    rw [content_function]
    refine (follows_pop _).symbols.allConcrete ?_
    cases body? with
    | none => exact (h.params hcontent).1.concrete
    | some b =>
      exact (follows_pop _).symbols.allConcrete (allConcrete_stmts b.stmts _ (h.body hcontent).1)
  | global v => exact (follows_global w v).symbols.allConcrete h.resting.concrete

theorem global_of_running {d : Definition} (h : w.Meets globals L d) {v : Variable}
    (hcontent : d.content = .global v)
    (hfinal : Retypes L (w.content globals d.content).2.symbols final)
    (hrun : (w.content globals d.content).2.halted = false) :
    Complete final ((w.content globals d.content).2.findings = w.findings)
      { d with content := (w.content globals d.content).1 } := by
  have hexprs := h.formed.exprs
  rw [Definition.exprs, hcontent] at hexprs
  have hagrees : w.Agrees globals final := by
    refine h.resting.agrees h.apart ((Follows.symbols ?_).trans hfinal)
    rw [hcontent]
    exact follows_global w v
  rw [hcontent] at hfinal hrun ⊢
  rw [show w.content globals (.global v) =
    (.global (w.global globals v).1, (w.global globals v).2) from rfl] at hfinal hrun ⊢
  have hhalted : w.halted = false :=
    running_of_stays (fun hw ↦ by rw [global, if_pos hw]) hrun
  rw [global, if_neg (by simp [hhalted])] at hfinal hrun ⊢
  cases htype : w.symbolType? v.symbol with
  | none =>
    rw [htype] at hrun
    cases (halted_record w rfl).symm.trans hrun
  | some label =>
    cases hinit : v.init? with
    | none =>
      rw [htype, hinit] at hfinal
      refine complete_global rfl (hfinal.eq_of_some htype) fun e he ↦ ?_
      cases hinit.symm.trans he
    | some init =>
      rw [htype, hinit] at hfinal hrun
      obtain ⟨-, hsymbols, hsettled, hlabel⟩ := labelled_of_running h.resting
        (hexprs init (by simp [hinit])) (h.resting.concrete _ _ htype) hagrees hrun
      have hsymbol : Symbol.typeAt? final v.symbol = some label := by
        refine hfinal.eq_of_some ?_
        dsimp only
        rw [hsymbols]
        exact htype
      refine complete_global rfl hsymbol fun e he ↦ ?_
      obtain rfl := Option.some.inj he
      exact ⟨hsettled, hlabel⟩

end Agreement

end Walk

end FrontEnd
