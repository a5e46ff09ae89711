import FrontEnd.Proofs.Check.Hygiene
import FrontEnd.Proofs.Check.Independence
import FrontEnd.Proofs.Table.Disagreement

/-!
# What a message about types says

Two kinds of errors show a pair of types that had to agree: a mismatch between operands, and a value
of another type than the one that is asked for. Behind each stands a moment of the run at which the
table was asked to make the two agree and could not (`Moment.Explains`), and the types that the
message shows are described right then. So the types differ (`Program.describe_eq_iff_apparent_eq`).

Their texts can still be the same. A text has no parentheses, so a pointer to a function reads like
a function whose first parameter is a pointer; apart from that the texts of types that do not agree
are different. The type that is asked for is a label, or a parameter, and those are never functions:
a message that a value cannot be converted always shows two different texts.

What makes this work is that every type that checking meets is flat (`Walk.Flat`), which again has
to be carried along from the labels in the text through all of checking.
-/

namespace FrontEnd

open Table

/-- Whether an error shows two types that had to agree. -/
def CheckError.isDisagreement : CheckError → Bool
  | mismatch _ _ _ => true
  | notConvertible _ _ _ => true
  | _ => false

/-- **The moment behind an error**: two flat types were to be made to agree and could not, and the
error shows them as the table describes them then. -/
inductive Moment.Explains [RootChoice] (m : Moment) : CheckError → Prop
  | mismatch {a b : Ty} (use_eq : m.use = .unify a b) (flat : m.store.table.Flat)
    (left : a.isFlat = true) (right : b.isFlat = true)
    (fails : (m.store.table.unify a b).1 = false) (span : Span) :
    m.Explains (.mismatch ((m.store.table.unify a b).2.describe a)
      ((m.store.table.unify a b).2.describe b) span)
  | notConvertible {a b : Ty} (use_eq : m.use = .unify a b) (flat : m.store.table.Flat)
    (target : a.isLabel = true) (source : b.isFlat = true)
    (fails : (m.store.table.unify a b).1 = false) (span : Span) :
    m.Explains (.notConvertible ((m.store.table.unify a b).2.describe b)
      ((m.store.table.unify a b).2.describe a) span)

/-- A statement as it is written, where symbols have their types. -/
structure Stmt.Written (symbols : List Symbol) (s : Stmt) : Prop where
  expr : ∀ e, s.expr? = some e → e.Written
  label : ∀ v, s.declared? = some v → ∀ a, Symbol.typeAt? symbols v.symbol = some a →
    a.isLabel = true

theorem Stmt.Written.retypes {L : Set Nat} {σ τ : List Symbol} {s : Stmt} (h : s.Written σ)
    (hστ : Walk.Retypes L σ τ) (hs : ∀ v, s.declared? = some v → v.symbol ∉ L) : s.Written τ where
  expr := h.expr
  label v hv a ha := h.label v hv a (hστ.eq_of_not_mem (hs v hv) ▸ ha)

namespace Definition

theorem symbol_mem_owned_of_declared {x : Definition} {v : Variable} (hv : v ∈ x.declared) :
    v.symbol ∈ x.owned := by
  rw [declared] at hv
  cases hcontent : x.content with
  | function symbol params result body? =>
    rw [hcontent] at hv
    obtain ⟨s, hs, hsv⟩ := List.mem_filterMap.1 hv
    exact x.locals_subset_owned (mem_locals_of_mem_stmts hs hsv)
  | global v' =>
    rw [hcontent] at hv
    obtain rfl := List.mem_singleton.1 hv
    have hsymbol : x.symbol = v.symbol := by rw [symbol, hcontent]
    exact hsymbol ▸ x.symbol_mem_owned

/-- What is written stays so as long as the symbols of the definition keep their types. -/
theorem Written.retypes {L : Set Nat} {σ τ : List Symbol} {x : Definition} (h : x.Written σ)
    (hστ : Walk.Retypes L σ τ) (hx : ∀ i ∈ x.owned, i ∉ L) : x.Written τ where
  exprs := h.exprs
  labels v hv a ha := h.labels v hv a
    (hστ.eq_of_not_mem (hx _ (symbol_mem_owned_of_declared hv)) ▸ ha)
  older := h.older

theorem Written.stmts {σ : List Symbol} {x : Definition} (h : x.Written σ) :
    ∀ s ∈ x.stmts, s.Written σ := by
  intro s hs
  exact ⟨fun e he ↦ h.exprs e (mem_exprs_of_mem_stmts hs he),
    fun v hv ↦ h.labels v (mem_declared_of_mem_stmts hs hv)⟩

end Definition

/-- The type of an expression is flat. -/
def Expr.FlatType (e : Expr) : Prop :=
  ∀ a, e.type? = some a → a.isFlat = true

theorem Constant.isFlat_of_type? {c : Constant} {a : Ty} (h : c.type? = some a) :
    a.isFlat = true := by
  revert h
  cases c <;> rintro ⟨⟩ <;> rfl

namespace Walk

/-- **A state is flat** if all types in it are. -/
structure Flat (w : Walk) : Prop where
  symbols : ∀ i a, w.symbolType? i = some a → a.isFlat = true
  table : w.table.Flat

section Rules

variable [RootChoice] {w v x : Walk} {ms ms' : List Moment} {globals : Bindings} {e lhs rhs : Expr}
  {a b : Ty} {err : CheckError}

/-- **From a state to a flat one**: every disagreement that has been found on the way is explained
by one of the moments. -/
structure Tells (w : Walk) (ms : List Moment) (v : Walk) : Prop where
  flat : v.Flat
  told : ∀ f ∈ v.findings,
    f ∈ w.findings ∨ f.error.isDisagreement = false ∨ ∃ m ∈ ms, m.Explains f.error

namespace Tells

theorem refl (hw : w.Flat) : Tells w [] w :=
  ⟨hw, fun _ hf ↦ .inl hf⟩

/-- **One run behind another**: what the first has found is told by its own moments. -/
theorem append (h : Tells w ms v) (h' : Tells v ms' x) : Tells w (ms ++ ms') x where
  flat := h'.flat
  told f hf := by
    rcases h'.told f hf with hf | hother | ⟨m, hm, hexplains⟩
    · rcases h.told f hf with hf | hother | ⟨m, hm, hexplains⟩
      · exact .inl hf
      · exact .inr (.inl hother)
      · exact .inr (.inr ⟨m, List.mem_append_left _ hm, hexplains⟩)
    · exact .inr (.inl hother)
    · exact .inr (.inr ⟨m, List.mem_append_right _ hm, hexplains⟩)

/-- A step behind which nothing has to be explained. -/
theorem step (h : Tells w ms v) (h' : Tells v [] x) : Tells w ms x :=
  List.append_nil ms ▸ h.append h'

/-- More moments can only tell more. -/
theorem mono (h : Tells w ms v) (hms : ms ⊆ ms') : Tells w ms' v where
  flat := h.flat
  told f hf := (h.told f hf).imp id (.imp id fun ⟨m, hm, hexplains⟩ ↦ ⟨m, hms hm, hexplains⟩)

/-- What needs no moment to tell it is told by any. -/
theorem of_nil (h : Tells w [] v) : Tells w ms v :=
  h.mono (List.nil_subset _)

/-- Where no error is recorded only flatness is left to show. -/
theorem quiet (hv : v.Flat) (h : v.findings = w.findings) : Tells w ms v :=
  ⟨hv, fun _ hf ↦ .inl (h ▸ hf)⟩

/-- An error that is no disagreement, or one that a moment explains. -/
theorem record (hv : v.Flat) (h : v.findings = w.findings)
    (herr : err.isDisagreement = false ∨ ∃ m ∈ ms, m.Explains err) : Tells w ms (v.record err) where
  flat := ⟨hv.symbols, hv.table⟩
  told f hf := by
    rcases List.mem_append.1 hf with hf | hf
    · exact .inl (h ▸ hf)
    · obtain rfl := List.mem_singleton.1 hf
      exact .inr herr

end Tells

omit [RootChoice] in
theorem Flat.withTable (hw : w.Flat) {t : Table} (ht : t.Flat) : (w.withTable t).Flat :=
  ⟨hw.symbols, ht⟩

/-! ### Single nodes -/

/-- A literal asks for nothing. It is given a hole, or a type that is flat. -/
theorem tells_constantType (hw : w.Flat) (span : Span) (c : Constant) :
    Tells w [] (w.constantType span c).2 ∧
      ∀ a, (w.constantType span c).1 = some a → a.isFlat = true := by
  rw [constantType]
  cases c.kind? with
  | none => exact ⟨.quiet hw rfl, fun a ↦ Constant.isFlat_of_type?⟩
  | some k =>
    refine ⟨.quiet ⟨hw.symbols, hw.table.fresh k⟩ rfl, fun a ha ↦ ?_⟩
    obtain rfl := Option.some.inj ha
    rfl

omit [RootChoice] in
theorem Flat.head (hw : w.Flat) (he : e.FlatType) {c : Ty}
    (h : e.type?.map w.table.head = some c) : c.isFlat = true := by
  obtain ⟨a, ha, rfl⟩ := Option.map_eq_some_iff.1 h
  exact hw.table.head (he a ha)

/-- An operator with one operand makes no two types agree, so what it reports shows no pair. -/
theorem tells_unaryType (hw : w.Flat) (he : e.FlatType) (op : UnaryOp) :
    Tells w [] (w.unaryType op e).2 ∧ ∀ a, (w.unaryType op e).1 = some a → a.isFlat = true := by
  cases op with
  | negate =>
    refine ⟨?_, fun a ha ↦ he a ((negateType_fst w e).symm.trans ha)⟩
    show Tells w [] (w.negateType e).2
    cases htype : e.type? with
    | none =>
      rw [negateType_of_none htype]
      exact .quiet hw rfl
    | some a =>
      have hlimit := hw.withTable (hw.table.requireLimit .number a)
      rw [negateType, htype]
      dsimp only
      rw [requireNumber_eq]
      split
      · rename_i t ht
        rw [ht] at hlimit
        exact .quiet hlimit rfl
      · rename_i t ht
        rw [ht] at hlimit
        exact .record hlimit rfl (.inl rfl)
  | address =>
    refine ⟨.quiet hw rfl, fun a ha ↦ ?_⟩
    obtain ⟨b, hb, rfl⟩ := Option.map_eq_some_iff.1 ha
    exact he b hb
  | deref =>
    show Tells w [] (w.derefType e).2 ∧ ∀ a, (w.derefType e).1 = some a → a.isFlat = true
    rw [derefType]
    split
    · rename_i c b hhead
      refine ⟨.quiet hw rfl, fun a ha ↦ ?_⟩
      obtain rfl := Option.some.inj ha
      exact hw.head he (c := .pointer c b) hhead
    · exact ⟨.record hw rfl (.inl rfl), fun a ha ↦ by cases ha⟩

/-- **A mismatch of operands is told** by the moment at which they were to be made the same. -/
theorem tells_binaryType (hw : w.Flat) (hl : lhs.FlatType) (hr : rhs.FlatType) (span : Span)
    (op : BinOp) : Tells w (w.binaryTrace op lhs rhs) (w.binaryType span op lhs rhs).2 := by
  cases ha : lhs.type? with
  | none =>
    rw [binaryType_of_none (.inl ha)]
    exact .quiet hw rfl
  | some a =>
    cases hb : rhs.type? with
    | none =>
      rw [binaryType_of_none (.inr hb)]
      exact .quiet hw rfl
    | some b =>
      have hunify := hw.withTable (hw.table.unify (hl a ha) (hr b hb))
      have hmoment : w.moment (.unify a b) ∈ w.binaryTrace op lhs rhs := by
        rw [binaryTrace, ha, hb]
        exact List.mem_append_left _ List.mem_cons_self
      rw [binaryType, ha, hb]
      dsimp only
      split
      · rename_i t ht
        rw [ht] at hunify
        have hexplains := Moment.Explains.mismatch (m := w.moment (.unify a b)) rfl hw.table
          (hl a ha) (hr b hb) (congrArg Prod.fst ht) span
        rw [show ((w.moment (.unify a b)).store.table.unify a b).2 = t from
          congrArg Prod.snd ht] at hexplains
        exact .record hunify rfl (.inr ⟨_, hmoment, hexplains⟩)
      · rename_i t ht
        rw [ht] at hunify
        have hlimit := hw.withTable (hunify.table.requireLimit op.limit a)
        rw [requireOperand_eq]
        split
        · rename_i u hu
          rw [show (w.withTable t).table = t from rfl, hu] at hlimit
          exact .quiet hlimit rfl
        · rename_i u hu
          rw [show (w.withTable t).table = t from rfl, hu] at hlimit
          exact .record hlimit rfl (.inl rfl)

/-- **So is a value of another type than the one that is asked for**, which is a label. -/
theorem tells_require (hw : w.Flat) (ha : a.isLabel = true) (he : e.FlatType) :
    Tells w (w.requireTrace a e) (w.require a e) := by
  rw [require, andThen]
  cases hhalted : w.halted with
  | true => exact .quiet hw rfl
  | false =>
    rw [if_neg (by simp)]
    split
    · exact .quiet hw rfl
    · rename_i b hb
      have hunify := hw.withTable (hw.table.unify (Ty.isFlat_of_isLabel ha) (he b hb))
      split
      · rename_i t ht
        rw [show w.table.unify a b = (true, t) from ht] at hunify
        exact .quiet hunify rfl
      · rename_i t ht
        have ht : w.table.unify a b = (false, t) := ht
        rw [ht] at hunify
        have hmoment : w.moment (.unify a b) ∈ w.requireTrace a e := by
          rw [requireTrace, hhalted, hb]
          exact List.mem_cons_self
        have hexplains := Moment.Explains.notConvertible (m := w.moment (.unify a b)) rfl hw.table
          ha (he b hb) (congrArg Prod.fst ht) e.span
        rw [show ((w.moment (.unify a b)).store.table.unify a b).2 = t from
          congrArg Prod.snd ht] at hexplains
        exact .record hunify rfl (.inr ⟨_, hmoment, hexplains⟩)

/-- The parameters of a function are labels, so all its arguments are held to labels. -/
theorem tells_requireAll (ps : List Ty) (es : List Expr) (w : Walk) (hw : w.Flat)
    (hps : ∀ p ∈ ps, p.isLabel = true) (hes : ∀ e ∈ es, e.FlatType) :
    Tells w (w.requireAllTrace ps es) (w.requireAll ps es) := by
  induction ps generalizing es w with
  | nil =>
    rw [requireAll_nil_left]
    exact .quiet hw rfl
  | cons p ps ih =>
    cases es with
    | nil =>
      rw [requireAll_nil_right]
      exact .quiet hw rfl
    | cons e es =>
      obtain ⟨hp, hps⟩ := List.forall_mem_cons.1 hps
      obtain ⟨he, hes⟩ := List.forall_mem_cons.1 hes
      have hfirst := tells_require hw hp he
      rw [requireAll, requireAllTrace]
      exact hfirst.append (ih es _ hfirst.flat hps hes)

/-- The number of arguments is compared before any of them is held to its parameter. -/
theorem tells_callType (hw : w.Flat) {callee : Expr} {args : List Expr}
    (hcallee : callee.FlatType) (hargs : ∀ e ∈ args, e.FlatType) (span : Span) :
    Tells w (w.callTrace callee args) (w.callType span callee args).2 ∧
      ∀ a, (w.callType span callee args).1 = some a → a.isFlat = true := by
  rw [callType]
  split
  · rename_i ps r hhead
    obtain ⟨hps, hr⟩ := Ty.isSignature_func.1 (hw.head hcallee hhead)
    split
    · rename_i hlength
      have hall := tells_requireAll ps args w hw hps hargs
      refine ⟨hall.mono ?_, fun a ha ↦ Option.some.inj ha ▸ Ty.isFlat_of_isResult hr⟩
      obtain ⟨a, ha, hfunc⟩ := Option.map_eq_some_iff.1 hhead
      rw [callTrace, ha]
      dsimp only
      rw [hfunc]
      dsimp only
      rw [if_pos hlength]
      exact List.subset_cons_self _ _
    · exact ⟨.record hw rfl (.inl rfl), fun a ha ↦ by cases ha⟩
  · exact ⟨.quiet hw rfl, fun a ha ↦ by cases ha⟩

/-- A cast that is not allowed shows the two types too, but they need not agree. -/
theorem tells_castType (hw : w.Flat) (he : e.FlatType) {dest : Ty} (hdest : dest.isLabel = true) :
    Tells w [] (w.castType e dest).2 ∧
      ∀ a, (w.castType e dest).1 = some a → a.isFlat = true := by
  have hflat := Ty.isFlat_of_isLabel hdest
  have hresult : ∀ a, some dest = some a → a.isFlat = true := fun a ha ↦ Option.some.inj ha ▸ hflat
  rw [castType]
  split
  · exact ⟨.quiet hw rfl, hresult⟩
  · rename_i a ha
    have hcast := hw.withTable (hw.table.cast hflat (he a ha))
    split
    · rename_i t ht
      rw [ht] at hcast
      exact ⟨.quiet hcast rfl, hresult⟩
    · rename_i t ht
      rw [ht] at hcast
      exact ⟨.record hcast rfl (.inl rfl), fun a ha ↦ by cases ha⟩

/-! ### Trees -/

/-- A node adds the moments of its rule to those of its parts, unless the walk has been halted. -/
theorem tells_conclude (hw : w.Flat) (rule : Walk → Option Ty × Walk)
    (hrule : w.halted = false → Tells w ms (rule w).2) :
    Tells w (w.concludeTrace ms (rule w)) (w.conclude e rule).2 := by
  cases hhalted : w.halted with
  | true =>
    rw [conclude_of_halted hhalted]
    exact .quiet hw rfl
  | false =>
    rw [concludeTrace, conclude_snd hhalted, hhalted]
    exact (hrule hhalted).mono (List.subset_append_left _ _)

omit [RootChoice] in
/-- A node that comes to its end has a flat type if its rule gives one. -/
theorem flatType_conclude {rule : Walk → Option Ty × Walk}
    (hrule : w.halted = false → ∀ a, (rule w).1 = some a → a.isFlat = true)
    (hrun : (w.conclude e rule).2.halted = false) : (w.conclude e rule).1.FlatType := by
  obtain ⟨hw, -, heq⟩ := conclude_of_running hrun
  intro a ha
  rw [heq] at ha
  exact hrule hw a ((Expr.type?_withType _ _).symm.trans ha)

theorem tells_ident (hw : w.Flat) (n : Note) (name : String) (symbol : Option Nat) :
    Tells w [] (w.ident globals n name symbol).2 ∧
      ((w.ident globals n name symbol).2.halted = false →
        (w.ident globals n name symbol).1.FlatType) := by
  rw [ident]
  split
  · rename_i hhalted
    exact ⟨.quiet hw rfl, fun hrun ↦ absurd (hhalted.symm.trans hrun) (by decide)⟩
  · split
    · refine ⟨.record hw rfl (.inl rfl), fun hrun ↦ ?_⟩
      exact absurd ((halted_record w rfl).symm.trans hrun) (by decide)
    · exact ⟨.quiet hw rfl, fun _ a ha ↦ hw.symbols _ a ha⟩

/-- **One node**, on top of parts with flat types. -/
theorem tells_nodeType {e e' : Expr} (hw : w.Flat) (hparts : ∀ x ∈ e'.parts, x.FlatType)
    (htop : e.SameTop e') (he : e.namesLabel) :
    Tells w (w.nodeTrace e') (w.nodeType e').2 ∧
      ∀ a, (w.nodeType e').1 = some a → a.isFlat = true := by
  cases htop with
  | constant n c => exact (tells_constantType hw n.span c).imp .of_nil id
  | unary n op _ e => exact (tells_unaryType hw (hparts e List.mem_cons_self) op).imp .of_nil id
  | binary n op _ l _ r =>
    have hl := hparts l List.mem_cons_self
    have hr := hparts r (List.mem_cons_of_mem _ List.mem_cons_self)
    refine ⟨tells_binaryType hw hl hr n.span op, fun a ha ↦ ?_⟩
    exact hl a ((binaryType_fst w n.span op l r).symm.trans ha)
  | call n _ f _ args =>
    exact tells_callType hw (hparts f List.mem_cons_self)
      (fun x hx ↦ hparts x (List.mem_cons_of_mem _ hx)) n.span
  | cast n _ e dest => exact (tells_castType hw (hparts e List.mem_cons_self) he).imp .of_nil id

/-- **From parts to lists**: as long as the walk is running the parts have flat types, so the rule
for the node can be used. -/
theorem Each.tells {es : List Expr} (h : Each globals (fun e w ↦ w.Flat → e.Written →
      Tells w (exprTrace globals e w) (expr globals e w).2 ∧
        ((expr globals e w).2.halted = false → (expr globals e w).1.FlatType)) es w)
    (hw : w.Flat) (hes : ∀ x ∈ Expr.nodesAll es, x.namesLabel) :
    Tells w (exprsTrace globals es w) (exprs globals es w).2 ∧
      ((exprs globals es w).2.halted = false → ∀ e ∈ (exprs globals es w).1, e.FlatType) := by
  induction h with
  | nil w =>
    rw [exprs_nil, exprsTrace]
    exact ⟨.refl hw, fun _ ↦ List.forall_mem_nil _⟩
  | cons hhead _ ih =>
    obtain ⟨he, hes⟩ := List.forall_mem_append.1 hes
    obtain ⟨hfirst, htype⟩ := hhead hw he
    obtain ⟨hmore, htypes⟩ := ih hfirst.flat hes
    rw [exprs_cons, exprsTrace]
    exact ⟨hfirst.append hmore, fun hrun ↦
      List.forall_mem_cons.2 ⟨htype (running_of_exprs hrun), htypes hrun⟩⟩

variable (globals) in
/-- **Every disagreement in an expression is explained**, and the types in it are flat. -/
theorem tells_expr (e : Expr) (w : Walk) (hw : w.Flat) (he : e.Written) :
    Tells w (exprTrace globals e w) (expr globals e w).2 ∧
      ((expr globals e w).2.halted = false → (expr globals e w).1.FlatType) := by
  refine expr_of_rules globals (P := fun e w ↦ w.Flat → e.Written →
    Tells w (exprTrace globals e w) (expr globals e w).2 ∧
      ((expr globals e w).2.halted = false → (expr globals e w).1.FlatType)) ?_ ?_ e w hw he
  · intro n name symbol w hw _
    rw [expr_ident, exprTrace]
    exact ⟨(tells_ident hw n name symbol).1.of_nil, (tells_ident hw n name symbol).2⟩
  · intro e e' w htop hparts heach hw he
    obtain ⟨hfirst, htypes⟩ := heach.tells hw (Expr.forall_mem_nodesAll_parts he)
    rw [hparts] at htypes
    have hrule hrun := tells_nodeType hfirst.flat (htypes hrun) htop (he e e.mem_nodes_self)
    rw [expr_eq_conclude htop hparts, exprTrace_eq_append htop hparts]
    exact ⟨hfirst.append (tells_conclude hfirst.flat (nodeType · e') fun hrun ↦ (hrule hrun).1),
      flatType_conclude fun hrun ↦ (hrule hrun).2⟩

/-! ### Statements -/

/-- A checkpoint makes nothing agree; it writes flat types into the tree. -/
theorem tells_checkpoint (hw : w.Flat) (he : w.halted = false → e.FlatType) :
    Tells w [] (w.checkpoint e).2 ∧
      ((w.checkpoint e).2.halted = false → (w.checkpoint e).1.FlatType) := by
  rw [checkpoint]
  cases hhalted : w.halted with
  | true => exact ⟨.quiet hw rfl, fun hrun ↦ absurd (hhalted.symm.trans hrun) (by decide)⟩
  | false =>
    rw [if_neg (by simp)]
    have hsettle := hw.table.settleAll
    dsimp only
    split
    · refine ⟨.record ⟨hw.symbols, hsettle⟩ rfl (.inl rfl), fun hrun ↦ ?_⟩
      exact absurd ((halted_record _ rfl).symm.trans hrun) (by decide)
    · refine ⟨.quiet ⟨hw.symbols, flat_empty⟩ rfl, fun _ a ha ↦ ?_⟩
      rw [Expr.type?_mapTypes] at ha
      obtain ⟨b, hb, rfl⟩ := Option.map_eq_some_iff.1 ha
      exact hsettle.expand (he hhalted b hb)

variable (globals) in
theorem tells_unlabelled (hw : w.Flat) (he : e.Written) :
    Tells w (w.unlabelledTrace globals e) (w.unlabelled globals e).2 ∧
      ((w.unlabelled globals e).2.halted = false → (w.unlabelled globals e).1.FlatType) := by
  obtain ⟨hfirst, htype⟩ := tells_expr globals e w hw he
  obtain ⟨hsecond, htype'⟩ := tells_checkpoint hfirst.flat htype
  exact ⟨hfirst.append hsecond.of_nil, htype'⟩

variable (globals) in
/-- An initial value is held to its label in front of the checkpoint, while its literals are
open. -/
theorem tells_labelled (hw : w.Flat) (he : e.Written) (ha : a.isLabel = true) :
    Tells w (w.labelledTrace globals a e) (w.labelled globals a e).2 := by
  obtain ⟨hfirst, htype⟩ := tells_expr globals e w hw he
  rw [labelledTrace, labelled]
  dsimp only
  cases hrun : (expr globals e w).2.halted with
  | true =>
    rw [require_of_halted hrun, checkpoint_of_halted hrun]
    exact hfirst.mono fun m hm ↦ List.mem_append_left _ (List.mem_append_left _ hm)
  | false =>
    have hsecond := tells_require hfirst.flat ha (htype hrun)
    exact (hfirst.append hsecond).append
      (tells_checkpoint hsecond.flat fun _ ↦ htype hrun).1.of_nil

theorem tells_declare (hw : w.Flat) (i : Nat) : Tells w [] (w.declare i) := by
  rw [declare, andThen]
  split
  · exact .quiet hw rfl
  · split
    · exact .quiet hw rfl
    · split
      · exact .quiet ⟨hw.symbols, hw.table⟩ rfl
      · exact .record hw rfl (.inl rfl)

/-- A variable without a label gets the type of its initial value, which is flat. -/
theorem tells_adopt (hw : w.Flat) (he : w.halted = false → e.FlatType) (i : Nat) :
    Tells w [] (w.adopt i e) := by
  rw [adopt, andThen]
  cases hhalted : w.halted with
  | true => exact .quiet hw rfl
  | false =>
    rw [if_neg (by simp)]
    split
    · rename_i a ha
      refine .quiet ⟨fun j b hb ↦ ?_, hw.table⟩ rfl
      rw [symbolType?_eq, typeAt?_setSymbolType] at hb
      split at hb
      · exact Option.some.inj hb ▸ he hhalted a ha
      · exact hw.symbols j b hb
    · exact .record hw rfl (.inl rfl)

/-- The four ways to declare a variable, one by one. -/
theorem tells_letVar (hw : w.Flat) {v : Variable} (hv : (Stmt.letVar v).Written w.symbols) :
    Tells w (w.letVarTrace globals v) (w.letVar globals v).2 := by
  rw [letVarTrace]
  cases hhalted : w.halted with
  | true =>
    rw [letVar_of_halted hhalted]
    exact .quiet hw rfl
  | false =>
    rw [letVar, hhalted, if_neg (by simp), if_neg (by simp)]
    cases htype : w.symbolType? v.symbol with
    | some label =>
      cases hinit : v.init? with
      | some init =>
        have hfirst := tells_labelled globals hw (hv.expr init hinit)
          (hv.label v rfl label htype)
        exact hfirst.step (tells_declare hfirst.flat v.symbol)
      | none => exact (tells_declare hw v.symbol).of_nil
    | none =>
      cases hinit : v.init? with
      | some init =>
        obtain ⟨hfirst, hflat⟩ := tells_unlabelled globals hw (hv.expr init hinit)
        have hadopt := hfirst.step (tells_adopt hfirst.flat hflat v.symbol)
        have hdeclare := hadopt.step (tells_declare hadopt.flat v.symbol)
        exact hdeclare.mono (List.subset_append_left _ _)
      | none =>
        dsimp only
        split
        · exact .record hw rfl (.inl rfl)
        · exact .quiet hw rfl

variable (globals) in
theorem tells_stmt (hw : w.Flat) {s : Stmt} (hs : s.Written w.symbols) :
    Tells w (w.stmtTrace globals s) (w.stmt globals s).2 := by
  cases s with
  | letVar v => exact tells_letVar hw hs
  | expr e => exact (tells_unlabelled globals hw (hs.expr e rfl)).1

variable (globals) in
/-- **Statements**: one that has been checked has changed no symbol that a later one declares. -/
theorem tells_stmts (ss : List Stmt) (w : Walk) (hw : w.Flat)
    (hss : ∀ s ∈ ss, s.Written w.symbols) (holder : ss.Pairwise Stmt.Older) :
    Tells w (w.stmtsTrace globals ss) (w.stmts globals ss).2 := by
  induction ss generalizing w with
  | nil => exact .refl hw
  | cons s ss ih =>
    obtain ⟨hs, hss⟩ := List.forall_mem_cons.1 hss
    obtain ⟨hfirst, hrest⟩ := List.pairwise_cons.1 holder
    have htells := tells_stmt globals hw hs
    have hfollows := follows_stmt (L := { i | ∃ v, s.declared? = some v ∧ v.symbol = i })
      globals w s fun v hv ↦ ⟨v, hv, rfl⟩
    refine htells.append (ih _ htells.flat (fun s' hs' ↦ ?_) hrest)
    refine (hss s' hs').retypes hfollows.symbols fun v' hv' ↦ ?_
    rintro ⟨v, hv, heq⟩
    exact Nat.ne_of_lt (hfirst s' hs' v hv v' hv') heq

/-! ### Definitions -/

omit [RootChoice] in
/-- Whether a walk is flat is told by its table and its symbols. -/
theorem Flat.of_store (hw : w.Flat) (h : v.store = w.store) : v.Flat := by
  obtain ⟨hsymbols, htable⟩ := Store.mk.inj h
  refine ⟨fun i a ha ↦ hw.symbols i a ?_, htable ▸ hw.table⟩
  rwa [symbolType?_eq, hsymbols] at ha

theorem tells_push (hw : w.Flat) : Tells w [] w.push := by
  refine .quiet (hw.of_store (store_push w)) ?_
  rw [push, andThen]
  split <;> rfl

theorem tells_pop (hw : w.Flat) : Tells w [] w.pop := by
  refine .quiet (hw.of_store (store_pop w)) ?_
  rw [pop, andThen]
  split <;> rfl

theorem tells_foldl_declare (params : List Nat) (w : Walk) (hw : w.Flat) :
    Tells w [] (params.foldl declare w) := by
  induction params generalizing w with
  | nil => exact .refl hw
  | cons i params ih =>
    have hfirst := tells_declare hw i
    exact hfirst.step (ih _ hfirst.flat)

variable (globals) in
theorem tells_content (hw : w.Flat) {d : Definition} (hd : d.Written w.symbols) :
    Tells w (w.contentTrace globals d.content) (w.content globals d.content).2 := by
  have hstmts := hd.stmts
  have holder := hd.older
  have hexprs := hd.exprs
  have hlabels := hd.labels
  rw [Definition.stmts] at hstmts holder
  rw [Definition.exprs] at hexprs
  rw [Definition.declared] at hlabels
  cases hcontent : d.content with
  | function symbol params result body? =>
    rw [hcontent] at hstmts holder
    have hpush := tells_push hw
    have hparams := hpush.step (tells_foldl_declare params w.push hpush.flat)
    rw [content_function, contentTrace]
    cases body? with
    | none => exact hparams.step (tells_pop hparams.flat)
    | some b =>
      have hbody := hparams.step (tells_push hparams.flat)
      have hsymbols : (params.foldl declare w.push).push.symbols = w.symbols :=
        congrArg Store.symbols ((store_push _).trans
          ((store_foldl_declare params w.push).trans (store_push w)))
      have hrun := tells_stmts globals b.stmts _ hbody.flat (hsymbols ▸ hstmts) holder
      rw [body_some, bodyTrace]
      have hend := (hbody.append hrun).step (tells_pop hrun.flat)
      exact hend.step (tells_pop hend.flat)
  | global v =>
    rw [hcontent] at hexprs hlabels
    rw [content, contentTrace, globalTrace, global]
    cases w.halted with
    | true => exact .quiet hw rfl
    | false =>
      rw [if_neg (by simp), if_neg (by simp)]
      cases htype : w.symbolType? v.symbol with
      | none => exact .record hw rfl (.inl rfl)
      | some label =>
        cases hinit : v.init? with
        | none => exact .quiet hw rfl
        | some init =>
          exact tells_labelled globals hw (hexprs init (by simp [hinit]))
            (hlabels v (List.mem_singleton.2 rfl) label htype)

variable (globals) in
/-- **A definition is told by its moments**, tags and all. Behind it the table is empty. -/
theorem tells_definition (hw : w.Flat) {d : Definition} (hd : d.Written w.symbols) :
    Tells w (w.definitionTrace globals d) (w.definition globals d).2 := by
  have htags : Tells w [] ((w.enter d.file).tags d) := by
    rw [tags]
    split
    · exact .quiet ⟨hw.symbols, hw.table⟩ rfl
    · exact .record (v := w.enter d.file) ⟨hw.symbols, hw.table⟩ rfl (.inl rfl)
  have hsymbols : ((w.enter d.file).tags d).symbols = w.symbols := by
    rw [tags]
    split <;> rfl
  have hleave : ∀ {v : Walk} {ms : List Moment}, v.Flat → Tells v ms v.leave :=
    fun hv ↦ .quiet ⟨hv.symbols, flat_empty⟩ rfl
  rw [definitionTrace]
  cases hhalted : ((w.enter d.file).tags d).halted with
  | true =>
    rw [definition_of_halted hhalted]
    exact htags.append (hleave htags.flat)
  | false =>
    rw [definition_of_tags hhalted, if_neg (by simp)]
    have hcontent := htags.append (tells_content globals htags.flat (hsymbols ▸ hd))
    exact hcontent.append (hleave hcontent.flat)

variable (globals) in
/-- **Definitions**: one that has been checked has changed no symbol that another one introduces. -/
theorem tells_definitions (ds : List Definition) (w : Walk) (hw : w.Flat)
    (hds : ∀ d ∈ ds, d.Written w.symbols) (hapart : ds.Pairwise Definition.Apart) :
    Tells w (w.definitionsTrace globals ds) (w.definitions globals ds).2.2 := by
  induction ds generalizing w with
  | nil => exact .refl hw
  | cons d ds ih =>
    obtain ⟨hd, hds⟩ := List.forall_mem_cons.1 hds
    obtain ⟨hfirst, hrest⟩ := List.pairwise_cons.1 hapart
    have htells := tells_definition globals hw hd
    have hfollows := follows_definition (L := { i | i ∈ d.locals }) globals w d fun s hs v hv ↦
      Definition.mem_locals_of_mem_stmts hs hv
    refine htells.append (ih _ htells.flat (fun d' hd' ↦ ?_) hrest)
    exact (hds d' hd').retypes hfollows.symbols (hfirst d' hd').owned_right

end Rules

end Walk

/-! ### Programs -/

section Texts

variable [RootChoice] {m : Moment} {x y : String} {span : Span}

/-- The types of a mismatch differ, and are written alike exactly if one apparent type is all that
can be told from their texts. -/
theorem Moment.Explains.mismatch_texts (hm : m.Sound) (hstore : m.store.Ready)
    (h : m.Explains (.mismatch x y span)) : ∃ a b, m.use = .unify a b ∧
      (m.store.table.unify a b).1 = false ∧ x = m.store.table.describe a ∧
      y = m.store.table.describe b ∧ m.store.table.expand a ≠ m.store.table.expand b ∧
      (x = y ↔ (m.store.table.expand a).apparent = (m.store.table.expand b).apparent) := by
  have htidy := hstore.tidy
  obtain ⟨huse, hflat, ha, hb, hfails, _⟩ := h
  rename_i a b
  have hcovers := hm.covers
  rw [huse] at hcovers
  have hca : m.store.table.Covers a := hcovers a List.mem_cons_self
  have hcb : m.store.table.Covers b := hcovers b (List.mem_cons_of_mem _ List.mem_cons_self)
  rw [unify_of_fails htidy ha hb hfails]
  refine ⟨a, b, huse, hfails, rfl, rfl, fun heq ↦ ?_, ?_⟩
  · exact subst_ne_of_fails htidy hca hcb ha hb hfails (heq ▸ rfl)
  · exact describe_eq_iff_of_fails htidy hflat hca hcb ha hb hfails

/-- What is asked for is a label, so that it is written alike with nothing else. -/
theorem Moment.Explains.notConvertible_texts (hm : m.Sound) (hstore : m.store.Ready)
    (h : m.Explains (.notConvertible x y span)) : x ≠ y := by
  have htidy := hstore.tidy
  obtain ⟨⟩ | ⟨huse, hflat, htarget, hb, hfails, _⟩ := h
  rename_i a b
  have ha := Ty.isFlat_of_isLabel htarget
  have hcovers := hm.covers
  rw [huse] at hcovers
  have hca : m.store.table.Covers a := hcovers a List.mem_cons_self
  have hcb : m.store.table.Covers b := hcovers b (List.mem_cons_of_mem _ List.mem_cons_self)
  rw [unify_of_fails htidy ha hb hfails]
  intro heq
  have hsame := (describe_eq_iff_of_fails htidy hflat hca hcb ha hb hfails).1 heq.symm
  have hlabel : (m.store.table.expand a).isLabel = true := by
    rwa [expand_eq_subst, Ty.subst_of_isConcrete (Ty.isConcrete_of_isLabel htarget)]
  refine subst_ne_of_fails htidy hca hcb ha hb hfails ?_
  rw [Ty.eq_of_apparent_eq hlabel hsame.symm]

end Texts

namespace Program

variable [RootChoice]

theorem tells_ofFiles (name : String) (sources : List SourceFile) :
    ∀ f ∈ (ofFiles name sources).check.findings, f.error.isDisagreement = false ∨
      ∃ m ∈ (ofFiles name sources).trace, m.Explains f.error := by
  have hp := unchecked_ofFiles name sources
  have hapart := (layered_ofFiles name sources).pairwise_apart
  generalize ofFiles name sources = p at hp hapart ⊢
  intro f hf
  have hflat : (Walk.start p.symbols).Flat :=
    ⟨fun i a ha ↦ Ty.isFlat_of_isDeclared (hp.declared i a ha), flat_empty⟩
  have htells := Walk.tells_definitions p.globals p.definitions _ hflat hp.written
    hapart
  exact (htells.told f hf).resolve_left List.not_mem_nil

theorem stores_ofFiles (name : String) (sources : List SourceFile) :
    ∀ m ∈ (ofFiles name sources).trace, m.Sound ∧ m.store.Ready := by
  have hp := formed_ofFiles name sources
  generalize ofFiles name sources = p at hp ⊢
  have htraced := Walk.traced_definitions p.definitions _ hp.resting hp.meets
  exact fun m hm ↦ ⟨htraced.sound m hm, htraced.stores m hm⟩

/-- **Disagreements**. A message that a value cannot be converted shows two different texts. A
message about operands that do not agree shows, in the words of that moment, two types that the
table was asked to make agree and could not; these types differ, and their texts are the same only
if the types have one apparent type, that is, if a pointer to a function reads like a function that
takes a pointer. -/
theorem describe_eq_iff_apparent_eq (name : String) (sources : List SourceFile) :
    ∀ f ∈ (ofFiles name sources).check.findings,
      (∀ source target span, f.error = .notConvertible source target span → source ≠ target) ∧
      ∀ expected found span, f.error = .mismatch expected found span →
        ∃ m ∈ (ofFiles name sources).trace, ∃ a b, m.use = .unify a b ∧
          (m.store.table.unify a b).1 = false ∧ expected = m.store.table.describe a ∧
          found = m.store.table.describe b ∧ m.store.table.expand a ≠ m.store.table.expand b ∧
          (expected = found ↔
            (m.store.table.expand a).apparent = (m.store.table.expand b).apparent) := by
  intro f hf
  have htells := tells_ofFiles name sources f hf
  have hstores := stores_ofFiles name sources
  refine ⟨fun source target span herror ↦ ?_, fun expected found span herror ↦ ?_⟩
  · rw [herror] at htells
    obtain ⟨m, hm, hexplains⟩ := htells.resolve_left Bool.noConfusion
    exact hexplains.notConvertible_texts (hstores m hm).1 (hstores m hm).2
  · rw [herror] at htells
    obtain ⟨m, hm, hexplains⟩ := htells.resolve_left Bool.noConfusion
    exact ⟨m, hm, hexplains.mismatch_texts (hstores m hm).1 (hstores m hm).2⟩

end Program

/-- Pointers to what is again a pointer to a function, and a function that takes a pointer. -/
theorem Program.describe_eq_iff_apparent_eq_pointers :
    let p := ofFiles "main"
      [⟨"test.berry", "func f(x: i32) i32; func g(x: *i32) i32; func h() { &&f + &g; }"⟩]
    ∃ f ∈ p.check.findings, f.error = .mismatch "**i32 -> i32" "**i32 -> i32" ⟨52, 60⟩ ∧
      ∃ m ∈ p.trace, ∃ a b, m.use = .unify a b ∧
        m.store.table.expand a ≠ m.store.table.expand b ∧
        (m.store.table.expand a).apparent = (m.store.table.expand b).apparent := by
  intro p
  have hfinding : ∃ f ∈ p.check.findings,
      f.error = .mismatch "**i32 -> i32" "**i32 -> i32" ⟨52, 60⟩ := by
    decide +kernel
  obtain ⟨f, hf, herror⟩ := hfinding
  obtain ⟨m, hm, a, b, huse, -, -, -, hne, htexts⟩ :=
    (describe_eq_iff_apparent_eq "main" _ f hf).2 _ _ _ herror
  exact ⟨f, hf, herror, m, hm, a, b, huse, hne, htexts.1 rfl⟩

/-- A pointer to a function, and a function that takes a pointer, in one message. -/
theorem Program.mismatch_with_one_text :
    let source := "func f(x: i32) i32; func g(x: *i32) i32; func h() { &f + g; }"
    (ofFiles "main" [⟨"test.berry", source⟩]).check.findings.map (·.error) =
      [.mismatch "*i32 -> i32" "*i32 -> i32" ⟨52, 58⟩] := by
  decide +kernel

end FrontEnd
