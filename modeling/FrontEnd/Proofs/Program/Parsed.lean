import FrontEnd.Proofs.Check.Programs
import FrontEnd.Proofs.Expr.Parsed

/-!
# Programs that have been read are formed

Every text leads to a formed program (`Program.unchecked_parseFiles`), also if reading it ends
early. Two things carry this. While a definition is being read symbols are added, and nothing else
changes (`Draft.Extends`); and the symbol of a definition is younger than the symbols of everything
that was there before, and of its own local variables. So when its name is bound it is bound to a
symbol that no local variable has.

A program that has not been checked yet knows no types but those that are written in it
(`Program.Unchecked`): a variable has a label for its type or no type at all, and each is declared
once.
-/

namespace FrontEnd

namespace Symbol

/-- Symbols keep their types when more are added. -/
theorem typeAt?_of_prefix {σ τ : List Symbol} (h : σ <+: τ) {i : Nat} {a : Ty}
    (hi : typeAt? σ i = some a) : typeAt? τ i = some a := by
  obtain ⟨s, hs, hsa⟩ := typeAt?_eq_some_iff.1 hi
  refine typeAt?_eq_some_iff.2 ⟨s, ?_, hsa⟩
  obtain ⟨υ, rfl⟩ := h
  rw [List.getElem?_append_left (List.getElem?_eq_some_iff.1 hs).1, hs]

theorem typeAt?_eq_of_extends {σ τ : List Symbol} (h : σ <+: τ) {i : Nat} (hi : i < σ.length) :
    typeAt? τ i = typeAt? σ i := by
  obtain ⟨υ, rfl⟩ := h
  rw [typeAt?, List.getElem?_append_left hi, typeAt?]

theorem typeAt?_concat {σ : List Symbol} {s : Symbol} {i : Nat} {a : Ty}
    (h : typeAt? (σ ++ [s]) i = some a) : typeAt? σ i = some a ∨ s.type? = some a := by
  by_cases hi : i < σ.length
  · exact .inl (typeAt?_eq_of_extends (List.prefix_append _ _) hi ▸ h)
  · obtain ⟨s', hs', hsa⟩ := typeAt?_eq_some_iff.1 h
    rw [List.getElem?_append_right (Nat.le_of_not_lt hi)] at hs'
    obtain rfl := List.mem_singleton.1 (List.mem_of_getElem? hs')
    exact .inr hsa

end Symbol

/-- The variable of one statement is **older** than that of another. -/
def Stmt.Older (s s' : Stmt) : Prop :=
  ∀ v, s.declared? = some v → ∀ v', s'.declared? = some v' → v.symbol < v'.symbol

namespace Definition

/-- What is formed stays formed when symbols are added. -/
theorem Formed.mono {σ τ : List Symbol} {x : Definition} (h : x.Formed σ) (hστ : σ <+: τ) :
    x.Formed τ where
  signature i hi := by
    obtain ⟨a, ha⟩ := h.signature i hi
    exact ⟨a, Symbol.typeAt?_of_prefix hστ ha⟩
  declared v hv := Nat.lt_of_lt_of_le (h.declared v hv) hστ.length_le
  exprs := h.exprs

theorem Formed.locals_lt {σ : List Symbol} {x : Definition} (h : x.Formed σ) :
    ∀ i ∈ x.locals, i < σ.length := by
  intro i hi
  rw [locals_eq] at hi
  obtain ⟨s, hs, hsi⟩ := List.mem_filterMap.1 hi
  obtain ⟨v, hv, rfl⟩ := Option.map_eq_some_iff.1 hsi
  exact (h.stmts s hs).symbol v hv

/-- **A definition as it is written**: casts name labels, variables have labels or no types, and no
two statements declare the same variable. -/
structure Written (symbols : List Symbol) (x : Definition) : Prop where
  exprs : ∀ e ∈ x.exprs, e.Written
  labels : ∀ v ∈ x.declared, ∀ a, Symbol.typeAt? symbols v.symbol = some a → a.isLabel = true
  older : x.stmts.Pairwise Stmt.Older

theorem Written.mono {σ τ : List Symbol} {x : Definition} (h : x.Written σ) (hx : x.Formed σ)
    (hστ : σ <+: τ) : x.Written τ where
  exprs := h.exprs
  labels v hv a ha := h.labels v hv a (Symbol.typeAt?_eq_of_extends hστ (hx.declared v hv) ▸ ha)
  older := h.older

end Definition

/-- **A program before it is checked.** -/
structure Program.Unchecked (p : Program) : Prop extends p.Formed where
  /-- Symbols have the types that they are declared with. -/
  declared : ∀ i a, Symbol.typeAt? p.symbols i = some a → a.isDeclared = true
  /-- Definitions are as they are written. -/
  written : ∀ x ∈ p.definitions, x.Written p.symbols

/-! ### Drafts -/

namespace Draft

/-- **Symbols have been added** to the program of a draft, and nothing else. -/
structure Extends (d d' : Draft) : Prop where
  symbols : d.program.symbols <+: d'.program.symbols
  definitions : d'.program.definitions = d.program.definitions
  globals : d'.program.globals = d.program.globals
  types : ∀ i a, Symbol.typeAt? d'.program.symbols i = some a →
    Symbol.typeAt? d.program.symbols i = some a ∨ a.isDeclared = true

namespace Extends

variable {d d' d'' : Draft}

theorem refl (d : Draft) : d.Extends d :=
  ⟨List.prefix_refl _, rfl, rfl, fun _ _ ha ↦ .inl ha⟩

theorem trans (h : d.Extends d') (h' : d'.Extends d'') : d.Extends d'' :=
  ⟨h.symbols.trans h'.symbols, h'.definitions.trans h.definitions, h'.globals.trans h.globals,
    fun i a ha ↦ (h'.types i a ha).elim (h.types i a) .inr⟩

/-- A program that is formed stays so when symbols with declared types are added. -/
theorem formed (h : d.Extends d') (hd : d.program.Formed) : d'.program.Formed where
  concrete i a ha := (h.types i a ha).elim (hd.concrete i a) Ty.isConcrete_of_isDeclared
  definitions x hx := (hd.definitions x (h.definitions ▸ hx)).mono h.symbols
  globals b hb := by
    obtain ⟨hlt, hapart⟩ := hd.globals b (h.globals ▸ hb)
    exact ⟨Nat.lt_of_lt_of_le hlt h.symbols.length_le,
      fun x hx ↦ hapart x (h.definitions ▸ hx)⟩

theorem unchecked (h : d.Extends d') (hd : d.program.Unchecked) : d'.program.Unchecked where
  toFormed := h.formed hd.toFormed
  declared i a ha := (h.types i a ha).elim (hd.declared i a) id
  written x hx :=
    have hx : x ∈ d.program.definitions := h.definitions ▸ hx
    (hd.written x hx).mono (hd.definitions x hx) h.symbols

end Extends

end Draft

namespace Build

variable {α β : Type} {d : Draft} {p : Build α} {Q : α → Draft → Prop}

/-- **What a parser does to a draft**: symbols are added in any case, and if it reads something,
that and the draft behind it have a property. -/
def Runs (p : Build α) (d : Draft) (Q : α → Draft → Prop) : Prop :=
  d.Extends (p d).2 ∧ ∀ a, (p d).1 = .ok a → Q a (p d).2

theorem Runs.mono {P : α → Draft → Prop} (h : Runs p d P)
    (hPQ : ∀ a d', d.Extends d' → P a d' → Q a d') : Runs p d Q :=
  ⟨h.1, fun a ha ↦ hPQ a _ h.1 (h.2 a ha)⟩

theorem runs_pure {a : α} (h : Q a d) : Runs (pure a) d Q := by
  refine ⟨.refl d, fun b hb ↦ ?_⟩
  obtain rfl := Except.ok.inj hb
  exact h

theorem bind_apply (p : Build α) (f : α → Build β) (d : Draft) :
    (p >>= f) d = match p d with
      | (.ok a, d') => f a d'
      | (.error e, d') => (.error e, d') :=
  rfl

/-- **One parser behind another**: the second is asked to run where the first has stopped, and
nothing more is asked if it fails. -/
theorem Runs.bind {f : α → Build β} {R : β → Draft → Prop}
    (h : Runs p d fun a d' ↦ Runs (f a) d' R) : Runs (p >>= f) d R := by
  rw [Runs, bind_apply]
  obtain ⟨hextends, hnext⟩ := h
  generalize p d = r at hextends hnext ⊢
  rcases r with ⟨e | a, d'⟩
  · exact ⟨hextends, fun b hb ↦ nomatch hb⟩
  · obtain ⟨hextends', hR⟩ := hnext a rfl
    exact ⟨hextends.trans hextends', hR⟩

/-- What a parser that does not look at the program does to a draft. -/
theorem lift_apply (p : Parse α) (d : Draft) :
    (liftM p : Build α) d = match p d.cursor with
      | .ok (a, c) => (.ok a, { d with cursor := c })
      | .error e => (.error e, d) :=
  rfl

/-- Reading without regard to the program leaves the program alone. -/
theorem runs_lift {p : Parse α} {P : α → Prop} (hp : Parse.Gives p P)
    (h : ∀ a c, P a → Q a { d with cursor := c }) : Runs (liftM p) d Q := by
  rw [Runs, lift_apply]
  rcases hp' : p d.cursor with e | ⟨a, c⟩
  · refine ⟨.refl d, fun b hb ↦ ?_⟩
    cases hb
  · refine ⟨⟨List.prefix_refl _, rfl, rfl, fun _ _ ha ↦ .inl ha⟩, fun b hb ↦ ?_⟩
    obtain rfl := Except.ok.inj hb
    exact h a c (hp d.cursor a c hp')

/-- The same where nothing has to be known of what is read. -/
theorem runs_liftAny {p : Parse α} (h : ∀ a c, Q a { d with cursor := c }) : Runs (liftM p) d Q :=
  runs_lift (Parse.gives_true p) fun a c _ ↦ h a c

theorem runs_ite {c : Prop} [Decidable c] {q : Build α} (hp : c → Runs p d Q)
    (hq : ¬ c → Runs q d Q) : Runs (if c then p else q) d Q := by
  split
  · exact hp ‹c›
  · exact hq ‹¬ c›

theorem runs_map {f : α → β} {R : β → Draft → Prop} (h : Runs p d fun a d' ↦ R (f a) d') :
    Runs (f <$> p) d R :=
  Runs.bind (h.mono fun _ _ _ ha ↦ runs_pure ha)

/-- Stopping changes nothing. -/
theorem runs_stop : Runs (stop : Build α) d Q :=
  ⟨.refl d, fun _ h ↦ nomatch h⟩

/-- A new symbol is the youngest one. -/
theorem runs_newSymbol {name : Token} {kind : SymbolKind} {type? : Option Ty} {isMutable : Bool}
    (htype : ∀ a, type? = some a → a.isDeclared = true) :
    Runs (newSymbol name kind type? isMutable) d fun i d' ↦
      i = d.program.symbols.length ∧ d'.program.symbols.length = i + 1 ∧
        Symbol.typeAt? d'.program.symbols i = type? := by
  refine ⟨⟨List.prefix_append _ _, rfl, rfl, fun i a ha ↦ ?_⟩, fun i hi ↦ ?_⟩
  · exact (Symbol.typeAt?_concat ha).imp id (htype a)
  · obtain rfl := Except.ok.inj hi
    refine ⟨rfl, List.length_append, ?_⟩
    show ((d.program.symbols ++ [_])[d.program.symbols.length]?).bind (·.type?) = type?
    rw [List.getElem?_concat_length]
    rfl

/-! ### Variables and statements -/

/-- A variable that was read while a draft had `base` symbols: its symbol is younger, its type is a
label, and the casts of its initial value name labels. -/
structure VariableFrom (base : Nat) (v : Variable) (d : Draft) : Prop where
  le_symbol : base ≤ v.symbol
  symbol_lt : v.symbol < d.program.symbols.length
  label : ∀ a, Symbol.typeAt? d.program.symbols v.symbol = some a → a.isLabel = true
  written : ∀ e, v.init? = some e → e.Written

theorem VariableFrom.extend {base : Nat} {v : Variable} {d d' : Draft} (h : VariableFrom base v d)
    (hd : d.program.symbols <+: d'.program.symbols) : VariableFrom base v d' where
  le_symbol := h.le_symbol
  symbol_lt := Nat.lt_of_lt_of_le h.symbol_lt hd.length_le
  label a ha := h.label a (Symbol.typeAt?_eq_of_extends hd h.symbol_lt ▸ ha)
  written := h.written

/-- **A variable that has been read** has a symbol of its own, which is new. -/
theorem runs_letVariable (d : Draft) :
    Runs letVariable d (VariableFrom d.program.symbols.length) := by
  refine .bind (runs_liftAny fun start _ ↦ .bind (runs_liftAny fun name _ ↦ ?_))
  refine .bind (runs_lift (P := fun a? ↦ ∀ a, a? = some a → a.isLabel = true) ?_
    fun type? _ htype ↦ ?_)
  · refine Parse.gives_bind fun more ↦ Parse.gives_ite ?_ (Parse.gives_pure nofun)
    refine Ty.gives_label.bind fun a ha ↦ Parse.gives_pure ?_
    exact fun b hb ↦ Option.some.inj hb ▸ ha
  refine .bind (runs_lift (P := fun e? ↦ ∀ e, e? = some e → e.Written) ?_ fun init? _ hinit ↦ ?_)
  · have hparse : Parse.Gives (do
        let _ ← Parse.expect (.sign .equal)
        return some (← Expr.parse)) fun e? ↦ ∀ e, e? = some e → e.Written := by
      refine Parse.gives_bind fun _ ↦ Expr.gives_parse.bind fun e he ↦ Parse.gives_pure ?_
      exact fun e' he' ↦ Option.some.inj he' ▸ he
    cases type?.isSome with
    | false => exact hparse
    | true => exact Parse.gives_bind fun more ↦ Parse.gives_ite (Parse.gives_pure nofun) hparse
  refine .bind ((runs_newSymbol fun a ha ↦ Ty.isDeclared_iff.2 (.inl (htype a ha))).mono ?_)
  rintro symbol d₁ - ⟨rfl, hlength, hsymbol⟩
  refine .bind (runs_liftAny fun span _ ↦ runs_pure ⟨Nat.le_refl _, ?_, fun a ha ↦ ?_, hinit⟩)
  · exact hlength ▸ Nat.lt_succ_self _
  · exact htype a (hsymbol.symm.trans ha)

/-- A statement that was read while a draft had `base` symbols. -/
structure StmtFrom (base : Nat) (s : Stmt) (d : Draft) : Prop where
  written : ∀ e, s.expr? = some e → e.Written
  declared : ∀ v, s.declared? = some v → VariableFrom base v d

/-- What has been read stays as it is when more is read behind it. -/
theorem StmtFrom.extend {base base' : Nat} {s : Stmt} {d d' : Draft} (h : StmtFrom base s d)
    (hbase : base' ≤ base) (hd : d.program.symbols <+: d'.program.symbols) :
    StmtFrom base' s d' where
  written := h.written
  declared v hv := { (h.declared v hv).extend hd with
    le_symbol := Nat.le_trans hbase (h.declared v hv).le_symbol }

theorem runs_stmt (d : Draft) : Runs stmt d (StmtFrom d.program.symbols.length) := by
  refine .bind (runs_liftAny fun isLet _ ↦ runs_ite (fun _ ↦ ?_) fun _ ↦ ?_)
  · refine .bind ((runs_letVariable _).mono fun v d₁ _ hv ↦ ?_)
    refine .bind (runs_liftAny fun _ _ ↦ runs_pure ⟨hv.written, fun v' hv' ↦ ?_⟩)
    obtain rfl := Option.some.inj hv'
    exact hv.extend (List.prefix_refl _)
  · refine .bind (runs_lift Expr.gives_parse fun e _ he ↦
      .bind (runs_liftAny fun _ _ ↦ runs_pure ⟨fun e' he' ↦ ?_, fun v hv ↦ nomatch hv⟩))
    exact Option.some.inj he' ▸ he

/-- Statements that were read one behind another while a draft had `base` symbols. -/
structure StmtsFrom (base : Nat) (ss : List Stmt) (d : Draft) : Prop where
  each : ∀ s ∈ ss, StmtFrom base s d
  older : ss.Pairwise Stmt.Older

theorem StmtsFrom.extend {base base' : Nat} {ss : List Stmt} {d d' : Draft}
    (h : StmtsFrom base ss d) (hbase : base' ≤ base)
    (hd : d.program.symbols <+: d'.program.symbols) : StmtsFrom base' ss d' :=
  ⟨fun s hs ↦ (h.each s hs).extend hbase hd, h.older⟩

/-- Statements that have been read declare symbols that are new. -/
theorem runs_stmtsTo (n : Nat) (d : Draft) :
    Runs (stmtsTo n) d (StmtsFrom d.program.symbols.length) := by
  induction n generalizing d with
  | zero => exact runs_stop
  | succ n ih =>
    refine .bind (runs_liftAny fun done _ ↦ runs_ite (fun _ ↦ runs_pure ?_) fun _ ↦ ?_)
    · exact ⟨fun s hs ↦ absurd hs List.not_mem_nil, .nil⟩
    refine .bind ((runs_stmt _).mono fun s d₁ hd₁ hs ↦ ?_)
    refine .bind ((ih d₁).mono fun more d₂ hd₂ hmore ↦ runs_pure ⟨?_, ?_⟩)
    · exact List.forall_mem_cons.2 ⟨hs.extend (Nat.le_refl _) hd₂.symbols, fun s' hs' ↦
        (hmore.each s' hs').extend hd₁.symbols.length_le (List.prefix_refl _)⟩
    · refine List.pairwise_cons.2 ⟨fun s' hs' v hv v' hv' ↦ ?_, hmore.older⟩
      exact Nat.lt_of_lt_of_le (hs.declared v hv).symbol_lt
        ((hmore.each s' hs').declared v' hv').le_symbol

theorem runs_block (d : Draft) :
    Runs block d fun b ↦ StmtsFrom d.program.symbols.length b.stmts := by
  refine .bind (runs_liftAny fun start _ ↦ .bind (runs_liftAny fun n _ ↦ ?_))
  refine .bind ((runs_stmtsTo n _).mono fun ss d₁ _ hss ↦ .bind (runs_liftAny fun span _ ↦ ?_))
  exact runs_pure (hss.extend (Nat.le_refl _) (List.prefix_refl _))

/-! ### Functions -/

/-- The symbols of parameters have the types of the parameters. -/
def ParamsIn (params : List (Nat × Ty)) (d : Draft) : Prop :=
  ∀ x ∈ params, Symbol.typeAt? d.program.symbols x.1 = some x.2 ∧ x.2.isLabel = true

theorem ParamsIn.extend {params : List (Nat × Ty)} {d d' : Draft} (h : ParamsIn params d)
    (hd : d.program.symbols <+: d'.program.symbols) : ParamsIn params d' :=
  fun x hx ↦ ⟨Symbol.typeAt?_of_prefix hd (h x hx).1, (h x hx).2⟩

/-- Parameters have the label of their group. -/
theorem runs_newParams {a : Ty} (ha : a.isLabel = true) (names : List Token) (d : Draft) :
    Runs (newParams a names) d ParamsIn := by
  induction names generalizing d with
  | nil => exact runs_pure fun x hx ↦ nomatch hx
  | cons name names ih =>
    have hdeclared : ∀ b, some a = some b → b.isDeclared = true :=
      fun b hb ↦ Ty.isDeclared_iff.2 (.inl (Option.some.inj hb ▸ ha))
    refine .bind ((runs_newSymbol hdeclared).mono ?_)
    rintro i d₁ - ⟨-, -, htype⟩
    refine .bind ((ih d₁).mono fun more d₂ hd₂ hmore ↦ runs_pure ?_)
    exact List.forall_mem_cons.2 ⟨⟨Symbol.typeAt?_of_prefix hd₂.symbols htype, ha⟩, hmore⟩

theorem runs_paramsTo (n : Nat) (d : Draft) : Runs (paramsTo n) d ParamsIn := by
  induction n generalizing d with
  | zero => exact runs_stop
  | succ n ih =>
    refine .bind (runs_liftAny fun count _ ↦ .bind (runs_liftAny fun names _ ↦ ?_))
    refine .bind (runs_liftAny fun _ _ ↦ .bind (runs_lift Ty.gives_label fun a _ ha ↦ ?_))
    refine .bind ((runs_newParams ha names _).mono fun params d₁ _ hparams ↦ ?_)
    refine .bind (runs_liftAny fun more _ ↦ runs_ite (fun _ ↦ ?_) fun _ ↦ runs_pure hparams)
    refine .bind ((ih _).mono fun params' d₂ hd₂ hparams' ↦ runs_pure ?_)
    exact List.forall_mem_append.2 ⟨ParamsIn.extend hparams hd₂.symbols, hparams'⟩

/-- A definition that was read while a draft had `base` symbols: its symbol is younger than those,
and than the symbols of its local variables. -/
structure DefinitionFrom (base : Nat) (x : Definition) (d : Draft) : Prop where
  formed : x.Formed d.program.symbols
  written : x.Written d.program.symbols
  le_symbol : base ≤ x.symbol
  symbol_lt : x.symbol < d.program.symbols.length
  le_local : ∀ i ∈ x.locals, base ≤ i
  local_lt : ∀ i ∈ x.locals, i < x.symbol

/-- A function is put together from its parts when all of them have been read. -/
theorem definitionFrom_function {base : Nat} {d d' : Draft} {x : Definition} {symbol : Nat}
    {params : List (Nat × Ty)} {result type : Ty} {body? : Option Block}
    (hx : x.content = .function symbol (params.map (·.1)) result body?)
    (hbase : base ≤ d.program.symbols.length) (hd : d.program.symbols <+: d'.program.symbols)
    (hparams : ParamsIn params d) (hbody : ∀ b, body? = some b → StmtsFrom base b.stmts d)
    (hsymbol : symbol = d.program.symbols.length) (hlength : d'.program.symbols.length = symbol + 1)
    (htype : Symbol.typeAt? d'.program.symbols symbol = some type) :
    DefinitionFrom base x d' := by
  have hstmts : StmtsFrom base x.stmts d := by
    rw [Definition.stmts, hx]
    cases body? with
    | none => exact ⟨fun s hs ↦ absurd hs List.not_mem_nil, .nil⟩
    | some b => exact hbody b rfl
  have hexprs : ∀ e ∈ x.exprs, e.Written := by
    intro e he
    rw [Definition.exprs, hx] at he
    obtain ⟨s, hs, hse⟩ := List.mem_filterMap.1 he
    exact (hstmts.each s hs).written e hse
  have hdeclared : ∀ v ∈ x.declared, VariableFrom base v d := by
    intro v hv
    rw [Definition.declared, hx] at hv
    obtain ⟨s, hs, hsv⟩ := List.mem_filterMap.1 hv
    exact (hstmts.each s hs).declared v hsv
  have hlocals : ∀ i ∈ x.locals, base ≤ i ∧ i < symbol := by
    intro i hi
    rw [Definition.locals_eq] at hi
    obtain ⟨s, hs, hsi⟩ := List.mem_filterMap.1 hi
    obtain ⟨v, hv, rfl⟩ := Option.map_eq_some_iff.1 hsi
    have hfrom := (hstmts.each s hs).declared v hv
    exact ⟨hfrom.le_symbol, hsymbol ▸ hfrom.symbol_lt⟩
  have hxsymbol : x.symbol = symbol := by rw [Definition.symbol, hx]
  refine ⟨⟨fun i hi ↦ ?_, fun v hv ↦ ((hdeclared v hv).extend hd).symbol_lt,
    fun e he ↦ (hexprs e he).formed⟩, ⟨hexprs, fun v hv ↦ ((hdeclared v hv).extend hd).label,
    hstmts.older⟩, ?_, ?_, fun i hi ↦ (hlocals i hi).1, ?_⟩
  · rw [Definition.signature, hx] at hi
    rcases List.mem_cons.1 hi with rfl | hi
    · exact ⟨type, htype⟩
    · obtain ⟨p, hp, rfl⟩ := List.mem_map.1 hi
      exact ⟨p.2, Symbol.typeAt?_of_prefix hd (hparams p hp).1⟩
  · rw [hxsymbol, hsymbol]
    exact hbase
  · rw [hxsymbol, hlength]
    exact Nat.lt_succ_self _
  · rw [hxsymbol]
    exact fun i hi ↦ (hlocals i hi).2

/-- The end of a function, behind its body. -/
theorem runs_functionEnd {base : Nat} (start name : Token) (m : Metadata)
    {params : List (Nat × Ty)} {result : Ty} {body? : Option Block} (d : Draft)
    (hbase : base ≤ d.program.symbols.length) (hparams : ParamsIn params d)
    (hresult : result.isResult = true)
    (hbody : ∀ b, body? = some b → StmtsFrom base b.stmts d) :
    Runs (do
      let symbol ← newSymbol name .function (some (.func (params.map (·.2)) result)) false
      let span ← liftM (Parse.spanFrom start.span)
      fun d ↦ (.ok { file := d.file, span, metadata := m
                     content := .function symbol (params.map (·.1)) result body? }, d)) d
      (DefinitionFrom base) := by
  have hdeclared : ∀ a, some (Ty.func (params.map (·.2)) result) = some a →
      a.isDeclared = true := by
    rintro a ⟨⟩
    refine Ty.isDeclared_iff.2 (.inr (Ty.isSignature_func.2 ⟨fun p hp ↦ ?_, hresult⟩))
    obtain ⟨x, hx, rfl⟩ := List.mem_map.1 hp
    exact (hparams x hx).2
  refine .bind ((runs_newSymbol hdeclared).mono fun symbol d₁ hd₁ ⟨hsymbol, hlength, htype⟩ ↦ ?_)
  refine .bind (runs_liftAny fun span _ ↦ ⟨.refl _, fun x hx ↦ ?_⟩)
  obtain rfl := Except.ok.inj hx
  exact definitionFrom_function rfl hbase hd₁.symbols hparams hbody hsymbol hlength htype

/-- **A function that has been read** is formed, and all that it owns is new. -/
theorem runs_function (m : Metadata) (d : Draft) :
    Runs (function m) d (DefinitionFrom d.program.symbols.length) := by
  refine .bind (runs_liftAny fun start _ ↦ .bind (runs_liftAny fun name _ ↦ ?_))
  refine .bind (runs_liftAny fun _ _ ↦ .bind (runs_liftAny fun none? _ ↦ ?_))
  -- parameters, or none
  refine runs_ite (fun _ ↦ .bind (Runs.mono (P := ParamsIn) (runs_pure nofun) ?_))
    fun _ ↦ .bind (runs_liftAny fun n _ ↦ .bind ((runs_paramsTo n _).mono ?_))
  all_goals
    intro params d₁ hd₁ hparams
    refine .bind (runs_liftAny fun _ _ ↦ .bind (runs_liftAny fun _ _ ↦ ?_))
    refine .bind (runs_liftAny fun _ _ ↦ ?_)
    -- a label for the result, or none
    refine runs_ite (fun _ ↦ .bind (Runs.mono (P := fun a d₂ ↦
      a.isResult = true ∧ d₂.program = d₁.program) (runs_pure ⟨rfl, rfl⟩) ?_))
      fun _ ↦ .bind (Runs.mono (P := fun a d₂ ↦ a.isResult = true ∧ d₂.program = d₁.program)
        (runs_lift Ty.gives_label fun _ _ ha ↦ ⟨Ty.isResult_of_isLabel ha, rfl⟩) ?_)
  all_goals
    intro result d₂ _ ⟨hresult, hprogram⟩
    have hbase : d.program.symbols.length ≤ d₂.program.symbols.length :=
      hprogram ▸ hd₁.symbols.length_le
    have hparams : ParamsIn params d₂ := hparams.extend (hprogram ▸ List.prefix_refl _)
    refine .bind (runs_liftAny fun _ _ ↦ .bind (runs_liftAny fun _ _ ↦ ?_))
    -- no body, a body, or neither
    refine runs_ite (fun _ ↦ .bind (runs_pure ?_)) fun _ ↦ runs_ite (fun _ ↦ ?_)
      fun _ ↦ .bind runs_stop
    · exact runs_functionEnd start name m _ hbase hparams hresult nofun
    · refine .bind (runs_map ((runs_block _).mono fun b d₃ hd₃ hb ↦ ?_))
      refine runs_functionEnd start name m _ (Nat.le_trans hbase hd₃.symbols.length_le)
        (hparams.extend hd₃.symbols) hresult ?_
      rintro b' ⟨⟩
      exact hb.extend hbase (List.prefix_refl _)

/-- **So is a global variable.** -/
theorem runs_global (m : Metadata) (d : Draft) :
    Runs (global m) d (DefinitionFrom d.program.symbols.length) := by
  refine .bind ((runs_letVariable d).mono fun v d₁ _ hv ↦ ?_)
  refine .bind (runs_liftAny fun _ _ ↦ ⟨.refl _, fun x hx ↦ ?_⟩)
  obtain rfl := Except.ok.inj hx
  refine ⟨⟨nofun, fun v' hv' ↦ ?_, fun e he ↦ ?_⟩, ⟨fun e he ↦ ?_, fun v' hv' ↦ ?_, .nil⟩,
    hv.le_symbol, hv.symbol_lt, nofun, nofun⟩
  · obtain rfl := List.mem_singleton.1 hv'
    exact hv.symbol_lt
  · exact (hv.written e (Option.mem_toList.1 he)).formed
  · exact hv.written e (Option.mem_toList.1 he)
  · obtain rfl := List.mem_singleton.1 hv'
    exact hv.label

/-! ### Tags -/

theorem runs_addTag (m : Metadata) (t : Tag) (d : Draft) : Runs (addTag m t) d fun _ _ ↦ True := by
  rw [Runs, addTag]
  split
  · exact ⟨.refl d, fun _ _ ↦ trivial⟩
  · exact ⟨⟨List.prefix_refl _, rfl, rfl, fun _ _ ha ↦ .inl ha⟩, fun _ _ ↦ trivial⟩

theorem runs_tagsTo (n : Nat) (m : Metadata) (unique : Bool) (d : Draft) :
    Runs (tagsTo n m unique) d fun _ _ ↦ True := by
  induction n generalizing m unique d with
  | zero => exact runs_stop
  | succ n ih =>
    refine .bind (runs_liftAny fun t _ ↦ .bind ((runs_addTag m t _).mono fun r d₁ _ _ ↦ ?_))
    refine .bind (runs_liftAny fun more _ ↦ runs_ite (fun _ ↦ ih _ _ _) fun _ ↦ ?_)
    exact .bind (runs_liftAny fun _ _ ↦ runs_pure trivial)

/-- Tags change nothing in a program, apart from what is reported. -/
theorem runs_metadata (d : Draft) : Runs metadata d fun _ _ ↦ True := by
  refine .bind (runs_liftAny fun some? _ ↦ runs_ite (fun _ ↦ ?_) fun _ ↦ runs_pure trivial)
  refine .bind (runs_liftAny fun many? _ ↦ runs_ite (fun _ ↦ ?_) fun _ ↦ ?_)
  · exact .bind (runs_liftAny fun n _ ↦ runs_tagsTo n _ _ _)
  · exact .bind (runs_liftAny fun t _ ↦ runs_addTag _ t _)

/-! ### Files -/

/-- To bind the name of a new definition and to add it leaves a program formed. -/
theorem formed_addDefinition {d₀ d : Draft} {x : Definition} (hd₀ : d₀.program.Formed)
    (hd : d₀.Extends d) (hx : DefinitionFrom d₀.program.symbols.length x d) (unique : Bool) :
    (addDefinition x unique d).2.program.Formed := by
  have hformed := hd.formed hd₀
  -- everything that was there before is older than what is added
  have holder : ∀ y ∈ d.program.definitions, ∀ i ∈ y.locals, i < d₀.program.symbols.length :=
    fun y hy ↦ (hd₀.definitions y (hd.definitions ▸ hy)).locals_lt
  have hglobals : ∀ b ∈ d.program.globals, b.2 < d₀.program.symbols.length :=
    fun b hb ↦ (hd₀.globals b (hd.globals ▸ hb)).1
  rw [addDefinition, bind_apply, bindGlobal]
  cases hs : d.program.symbols[x.symbol]? with
  | none => exact hformed
  | some s =>
    dsimp only
    cases d.program.globals.find? s.name with
    | some _ => exact hformed
    | none =>
      have hbound : ∀ b ∈ (s.name, x.symbol) :: d.program.globals,
          b.2 < d.program.symbols.length ∧ ∀ y ∈ d.program.definitions, b.2 ∉ y.locals := by
        refine List.forall_mem_cons.2 ⟨⟨hx.symbol_lt, fun y hy hi ↦ ?_⟩, hformed.globals⟩
        exact Nat.lt_irrefl _ (Nat.lt_of_lt_of_le (holder y hy _ hi) hx.le_symbol)
      dsimp only
      cases unique with
      | false => exact ⟨hformed.concrete, hformed.definitions, hbound⟩
      | true =>
        refine ⟨hformed.concrete, ?_, fun b hb ↦ ⟨(hbound b hb).1, ?_⟩⟩
        · exact List.forall_mem_append.2
            ⟨hformed.definitions, fun y hy ↦ List.mem_singleton.1 hy ▸ hx.formed⟩
        · refine List.forall_mem_append.2 ⟨(hbound b hb).2, fun y hy hi ↦ ?_⟩
          obtain rfl := List.mem_singleton.1 hy
          rcases List.mem_cons.1 hb with rfl | hb
          · exact Nat.lt_irrefl _ (hx.local_lt _ hi)
          · exact Nat.lt_irrefl _ (Nat.lt_of_lt_of_le (hglobals b hb) (hx.le_local _ hi))

/-- To add a definition changes no symbol, and adds that definition at most. -/
theorem addDefinition_adds (x : Definition) (unique : Bool) (d : Draft) :
    (addDefinition x unique d).2.program.symbols = d.program.symbols ∧
      ∀ y ∈ (addDefinition x unique d).2.program.definitions,
        y ∈ d.program.definitions ∨ y = x := by
  rw [addDefinition, bind_apply, bindGlobal]
  cases d.program.symbols[x.symbol]? with
  | none => exact ⟨rfl, fun y hy ↦ .inl hy⟩
  | some s =>
    dsimp only
    cases d.program.globals.find? s.name with
    | some _ => exact ⟨rfl, fun y hy ↦ .inl hy⟩
    | none =>
      cases unique with
      | false => exact ⟨rfl, fun y hy ↦ .inl hy⟩
      | true => exact ⟨rfl, fun y hy ↦ (List.mem_append.1 hy).imp id List.mem_singleton.1⟩

/-- A definition that has just been read can be kept: nothing in the program has been checked. -/
theorem unchecked_addDefinition {d₀ d : Draft} {x : Definition} (hd₀ : d₀.program.Unchecked)
    (hd : d₀.Extends d) (hx : DefinitionFrom d₀.program.symbols.length x d) (unique : Bool) :
    (addDefinition x unique d).2.program.Unchecked := by
  have hunchecked := hd.unchecked hd₀
  obtain ⟨hsymbols, hdefinitions⟩ := addDefinition_adds x unique d
  refine ⟨formed_addDefinition hd₀.toFormed hd hx unique, ?_, fun y hy ↦ ?_⟩
  · rw [hsymbols]
    exact hunchecked.declared
  · rw [hsymbols]
    rcases hdefinitions y hy with hy | rfl
    · exact hunchecked.written y hy
    · exact hx.written

/-- **Programs stay as they are before a check**, whether or not the parser reads what it is to
read. -/
def Keeps (p : Build α) : Prop :=
  ∀ d, d.program.Unchecked → (p d).2.program.Unchecked

/-- Parsers that keep a program unchecked keep it so one behind another. -/
theorem Keeps.bind {f : α → Build β} (hp : Keeps p) (hf : ∀ a, Keeps (f a)) :
    Keeps (p >>= f) := by
  intro d hd
  rw [bind_apply]
  have hd' := hp d hd
  generalize p d = r at hd' ⊢
  rcases r with ⟨e | a, d'⟩
  · exact hd'
  · exact hf a d' hd'

theorem keeps_of_runs (h : ∀ d, Runs p d fun _ _ ↦ True) : Keeps p :=
  fun d hd ↦ (h d).1.unchecked hd

theorem keeps_lift (p : Parse α) : Keeps (liftM p : Build α) :=
  keeps_of_runs fun _ ↦ runs_liftAny fun _ _ ↦ trivial

theorem keeps_addDefinition {p : Build Definition} (unique : Bool)
    (hp : ∀ d, Runs p d (DefinitionFrom d.program.symbols.length)) :
    Keeps (p >>= fun x ↦ addDefinition x unique) := by
  intro d hd
  rw [bind_apply]
  obtain ⟨hextends, hx⟩ := hp d
  generalize p d = r at hextends hx ⊢
  rcases r with ⟨e | x, d'⟩
  · exact hextends.unchecked hd
  · exact unchecked_addDefinition hd hextends (hx x rfl) unique

theorem keeps_definition : Keeps definition := by
  refine (keeps_of_runs runs_metadata).bind fun (m, unique) ↦ (keeps_lift _).bind fun t ↦ ?_
  split
  · exact keeps_addDefinition unique (runs_function m)
  · exact keeps_addDefinition unique (runs_global m)
  · exact fun d hd ↦ hd

/-- Each definition of a file in turn keeps the program as it is to be, so the whole file does. -/
theorem keeps_definitionsTo (n : Nat) : Keeps (definitionsTo n) := by
  induction n with
  | zero => exact fun d hd ↦ hd
  | succ n ih =>
    refine (keeps_lift _).bind fun done ↦ ?_
    cases done with
    | true => exact fun d hd ↦ hd
    | false => exact keeps_definition.bind fun _ ↦ ih

end Build

namespace Program

theorem unchecked_empty (name : String) : (empty name).Unchecked :=
  ⟨⟨fun _ _ h ↦ (nomatch h), nofun, nofun⟩, fun _ _ h ↦ (nomatch h), nofun⟩

/-- **Reading a file keeps a program unchecked**, also if it ends early. -/
theorem unchecked_parseFile {p : Program} (hp : p.Unchecked) (source : SourceFile) :
    (p.parseFile source).program.Unchecked := by
  have h := Build.keeps_definitionsTo (p.draft source).cursor.rest.length (p.draft source) hp
  rw [parseFile]
  generalize Build.definitionsTo (p.draft source).cursor.rest.length (p.draft source) = r at h ⊢
  rcases r with ⟨e | u, d⟩
  · exact ⟨⟨h.concrete, h.definitions, h.globals⟩, h.declared, h.written⟩
  · exact ⟨⟨h.concrete, h.definitions, h.globals⟩, h.declared, h.written⟩

/-- **Whatever is read leads to a formed program.** -/
theorem unchecked_parseFiles {p : Program} (hp : p.Unchecked) (sources : List SourceFile) :
    (p.parseFiles sources).1.Unchecked := by
  induction sources generalizing p with
  | nil => exact hp
  | cons source sources ih => exact ih (unchecked_parseFile hp source)

end Program

end FrontEnd
