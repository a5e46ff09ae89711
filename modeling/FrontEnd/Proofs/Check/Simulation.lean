import FrontEnd.Proofs.Check.Programs
import FrontEnd.Proofs.Program.Relocation
import FrontEnd.Proofs.Table.Representatives

/-!
# Two walks side by side

Two walks over the same tree do the same things if nothing that they look at tells them apart, and
they look at little: at the scope, at the types of symbols, at whether they have been halted, and at
what their tables answer. A **simulation** (`Walk.Simulation`) is a relation between walks of which
this is true and which is kept by the few things that a rule does to a state. Then every rule keeps
it, and so does the run: two related walks over an expression return the same tree and are still
related (`Walk.Simulation.expr`). The second tree may stand in another place, since places are not
looked at; the relation moves them.

A **translation** (`Walk.Translation`) goes on over whole definitions. There the tables have to be
the same, for a checkpoint writes what it finds in them into the tree, and more is looked at: what
is known of the symbols that the definition introduces.
-/

namespace FrontEnd

open Table

/-! ### Trees in other places -/

/-- The error with another span. -/
def CheckError.mapSpan (f : Span → Span) : CheckError → CheckError
  | undefinedName name s => undefinedName name (f s)
  | repeatedName name s => repeatedName name (f s)
  | mismatch expected found s => mismatch expected found (f s)
  | notConvertible source target s => notConvertible source target (f s)
  | binaryOperator op lhs rhs s => binaryOperator op lhs rhs (f s)
  | negation operand s => negation operand (f s)
  | notPointer s => notPointer (f s)
  | invalidCast source target s => invalidCast source target (f s)
  | arity expected found s => arity expected found (f s)
  | cannotInfer what s => cannotInfer what (f s)
  | missingLabel s => missingLabel (f s)
  | metadata error s => metadata error (f s)

theorem CheckError.isFatal_mapSpan (f : Span → Span) (e : CheckError) :
    (e.mapSpan f).isFatal = e.isFatal := by
  cases e <;> rfl

theorem CheckError.mapSpan_id (e : CheckError) : e.mapSpan id = e := by
  cases e <;> rfl

/-- A literal that waits, with another span. -/
def Waiting.mapSpan (f : Span → Span) (x : Waiting) : Waiting :=
  { x with span := f x.span }

namespace Expr

/-- A cast names one of the types `D`. -/
def castsInto (D : Set Ty) : Expr → Prop
  | cast _ _ dest => dest ∈ D
  | _ => True

theorem castsInto_univ (e : Expr) : e.castsInto Set.univ := by
  cases e <;> trivial

variable {e e' : Expr} (f : Span → Span)

theorem withType_mapSpans (a? : Option Ty) (e : Expr) :
    (e.mapSpans f).withType a? = (e.withType a?).mapSpans f := by
  cases e <;> rfl

theorem parts_mapSpans (e : Expr) : (e.mapSpans f).parts = e.parts.map (mapSpans f) := by
  cases e with
  | call n callee args => rw [mapSpans_call, parts, parts, List.map_cons]
  | _ => rfl

theorem SameTop.mapSpans (h : e.SameTop e') : (e.mapSpans f).SameTop (e'.mapSpans f) := by
  cases h with
  | constant n c => exact .constant _ c
  | unary n op e e' => exact .unary _ op _ _
  | binary n op l l' r r' => exact .binary _ op _ _ _ _
  | call n g g' args args' =>
    rw [mapSpans_call, mapSpans_call]
    exact .call _ _ _ _ _
  | cast n e e' dest => exact .cast _ _ _ dest

theorem SameTop.castsInto_iff {D : Set Ty} (h : e.SameTop e') :
    e'.castsInto D ↔ e.castsInto D := by
  cases h <;> rfl

/-- Two changes of the notes of a tree, one behind the other. -/
theorem mapNotes_mapNotes (g h : Note → Note) (e : Expr) :
    (e.mapNotes g).mapNotes h = e.mapNotes fun n ↦ h (g n) := by
  induction e using partsInduction with
  | step e ih =>
    cases e <;> simp_all [parts, mapNotes, mapNotesAll_eq_map]

theorem mapTypes_mapSpans (g : Ty → Ty) (e : Expr) :
    (e.mapSpans f).mapTypes g = (e.mapTypes g).mapSpans f := by
  rw [mapTypes, Expr.mapSpans, mapNotes_mapNotes, mapTypes, Expr.mapSpans, mapNotes_mapNotes]
  rfl

theorem mapSpans_id (e : Expr) : e.mapSpans id = e := by
  induction e using partsInduction with
  | step e ih =>
    cases e with
    | constant n c => rfl
    | ident n name symbol => rfl
    | unary n op e => exact congrArg (unary n op) (ih e List.mem_cons_self)
    | binary n op l r =>
      exact congrArg₂ (binary n op) (ih l List.mem_cons_self)
        (ih r (List.mem_cons_of_mem _ List.mem_cons_self))
    | call n callee args =>
      have hargs : args.map (Expr.mapSpans id) = args :=
        (List.map_congr_left fun x hx ↦ ih x (List.mem_cons_of_mem _ hx)).trans (List.map_id _)
      rw [mapSpans_call, ih callee List.mem_cons_self, hargs]
      rfl
    | cast n e dest => exact congrArg (Expr.cast n · dest) (ih e List.mem_cons_self)

end Expr

theorem Definition.Content.mapSpans_id (x : Definition.Content) : x.mapSpans id = x := by
  have hvariable (v : Variable) : v.mapSpans id = v := by
    rw [Variable.mapSpans, funext Expr.mapSpans_id, Option.map_id']
    rfl
  have hstmt (s : Stmt) : s.mapSpans id = s := by
    cases s with
    | letVar v => exact congrArg Stmt.letVar (hvariable v)
    | expr e => exact congrArg Stmt.expr e.mapSpans_id
  have hblock (b : Block) : b.mapSpans id = b := by
    rw [Block.mapSpans, funext hstmt, List.map_id']
    rfl
  cases x with
  | function symbol params result body? =>
    rw [mapSpans, funext hblock, Option.map_id']
  | global v => exact congrArg global (hvariable v)

/-! ### Expressions -/

namespace Walk

/-- Two walks return the same, and are related. -/
structure Same {α : Type} (R : Walk → Walk → Prop) (x y : α × Walk) : Prop where
  result : y.1 = x.1
  walk : R x.2 y.2

/-- A **simulation** of walks: a relation between two walks that look alike to the rules, and that
is kept by what rules do. The walks may choose representatives in different ways. -/
structure Simulation {c d : RootChoice} (L : Likeness c d) (globals : Bindings) where
  /-- Two walks are related. -/
  Rel : Walk → Walk → Prop
  /-- Where the second walk finds what the first one finds somewhere. -/
  move : Span → Span
  /-- Both have been halted, or neither. -/
  halted_eq : ∀ {w v}, Rel w v → v.halted = w.halted
  /-- They have the same names. -/
  scope_eq : ∀ {w v}, Rel w v → v.scope = w.scope
  /-- What a name means has the same type in both. -/
  symbolType?_eq : ∀ {w v name i}, Rel w v → w.scope.lookup globals name = some i →
    v.symbolType? i = w.symbolType? i
  /-- Their tables are alike. -/
  table : ∀ {w v}, Rel w v → L.Rel w.table v.table
  /-- A question may be asked of both. -/
  withTable : ∀ {w v t u}, Rel w v → L.Rel t u → Rel (w.withTable t) (v.withTable u)
  /-- A literal may wait in both. -/
  wait : ∀ {w v}, Rel w v → ∀ hole span, Rel { w with waiting := w.waiting ++ [⟨hole, span⟩] }
    { v with waiting := v.waiting ++ [⟨hole, move span⟩] }
  /-- An error may be recorded in both. -/
  record : ∀ {w v}, Rel w v → ∀ err, Rel (w.record err) (v.record (err.mapSpan move))

namespace Simulation

variable {c d : RootChoice} {L : Likeness c d} {globals : Bindings} (S : Simulation L globals)
  {w v : Walk}

/-- Two walks return **the same**, in its other place, and are still related. -/
structure Keeps {α : Type} (g : α → α) (x y : α × Walk) : Prop where
  result : y.1 = g x.1
  walk : S.Rel x.2 y.2

variable {S} (h : S.Rel w v)

include h

/-- A step is taken by both walks or by neither. -/
theorem andThen {step step' : Walk → Walk} (hstep : S.Rel (step w) (step' v)) :
    S.Rel (w.andThen step) (v.andThen step') := by
  rw [Walk.andThen, Walk.andThen, S.halted_eq h]
  split
  · exact h
  · exact hstep

/-! ### Rules -/

theorem constantType (span : Span) (value : Constant) :
    S.Keeps id (w.constantType span value) (v.constantType (S.move span) value) := by
  rw [Walk.constantType, Walk.constantType, L.size_eq (S.table h)]
  cases value.kind? with
  | none => exact ⟨rfl, h⟩
  | some kind => exact ⟨rfl, S.withTable (S.wait h _ span) (L.fresh (S.table h) kind)⟩

theorem negateType (e : Expr) :
    S.Keeps id (w.negateType e) (v.negateType (e.mapSpans S.move)) := by
  rw [Walk.negateType, Walk.negateType, Expr.type?_mapSpans, Expr.span_mapSpans]
  cases e.type? with
  | none => exact ⟨rfl, h⟩
  | some a =>
    dsimp only
    rw [requireNumber_eq, requireNumber_eq]
    rcases (L.requireLimit (S.table h) .number a).cases with
      ⟨t, u, ht, hu, htu⟩ | ⟨t, u, ht, hu, htu⟩ <;> rw [ht, hu]
    · exact ⟨rfl, S.withTable h htu⟩
    · dsimp only
      rw [L.describe_eq htu]
      exact ⟨rfl, S.record (S.withTable h htu) (.negation _ e.span)⟩

theorem derefType (e : Expr) : S.Keeps id (w.derefType e) (v.derefType (e.mapSpans S.move)) := by
  have hrecord := S.record h (.notPointer e.span)
  rw [Walk.derefType, Walk.derefType, Expr.type?_mapSpans, Expr.span_mapSpans]
  cases e.type? with
  | none => exact ⟨rfl, hrecord⟩
  | some a =>
    rw [Option.map_some, Option.map_some]
    -- heads are the same unless both are open, and an open one is no pointer
    rcases L.head (S.table h) a with ha | ⟨i, j, hi, hj⟩
    · rw [ha]
      cases w.table.head a with
      | pointer _ _ => exact ⟨rfl, h⟩
      | _ => exact ⟨rfl, hrecord⟩
    · rw [hi, hj]
      exact ⟨rfl, hrecord⟩

theorem unaryType (op : UnaryOp) (e : Expr) :
    S.Keeps id (w.unaryType op e) (v.unaryType op (e.mapSpans S.move)) := by
  cases op with
  | negate => exact negateType h e
  | address => exact ⟨congrArg (Option.map _) (e.type?_mapSpans _), h⟩
  | deref => exact derefType h e

/-- Two questions are asked of the tables, and what an error shows is described in the one behind
them. -/
theorem binaryType (span : Span) (op : BinOp) (lhs rhs : Expr) :
    S.Keeps id (@Walk.binaryType c w span op lhs rhs) (@Walk.binaryType d v (S.move span) op
      (lhs.mapSpans S.move) (rhs.mapSpans S.move)) := by
  unfold Walk.binaryType
  rw [Expr.type?_mapSpans, Expr.type?_mapSpans]
  cases lhs.type? with
  | none => exact ⟨rfl, h⟩
  | some a =>
    cases rhs.type? with
    | none => exact ⟨rfl, h⟩
    | some b =>
      dsimp only
      rcases (L.unify (S.table h) a b).cases with
        ⟨t, u, ht, hu, htu⟩ | ⟨t, u, ht, hu, htu⟩ <;> rw [ht, hu] <;> dsimp only
      · have hoperand : Agree L.Rel (requireOperand t op a) (requireOperand u op a) := by
          rw [requireOperand, requireOperand, requireNumber_eq, requireNumber_eq,
            requireInteger_eq, requireInteger_eq]
          split
          · exact L.requireLimit htu .number a
          · exact L.requireLimit htu .int a
        rcases hoperand.cases with
          ⟨t', u', ht, hu, htu⟩ | ⟨t', u', ht, hu, htu⟩ <;> rw [ht, hu] <;> dsimp only
        · exact ⟨rfl, S.withTable h htu⟩
        · rw [L.describe_eq htu, L.describe_eq htu]
          exact ⟨rfl, S.record (S.withTable h htu) (.binaryOperator op _ _ span)⟩
      · rw [L.describe_eq htu, L.describe_eq htu]
        exact ⟨rfl, S.record (S.withTable h htu) (.mismatch _ _ span)⟩

theorem require (expected : Ty) (e : Expr) :
    S.Rel (@Walk.require c w expected e) (@Walk.require d v expected (e.mapSpans S.move)) := by
  refine andThen h ?_
  rw [Expr.type?_mapSpans, Expr.span_mapSpans]
  cases e.type? with
  | none => exact h
  | some a =>
    dsimp only
    unfold convert
    rcases (L.unify (S.table h) expected a).cases with
      ⟨t, u, ht, hu, htu⟩ | ⟨t, u, ht, hu, htu⟩ <;> rw [ht, hu] <;> dsimp only
    · exact S.withTable h htu
    · rw [L.describe_eq htu, L.describe_eq htu]
      exact S.record (S.withTable h htu) (.notConvertible _ _ e.span)

omit h in
/-- Arguments are held to their parameters one by one. -/
theorem requireAll (ps : List Ty) (es : List Expr) {w v : Walk} (h : S.Rel w v) :
    S.Rel (@Walk.requireAll c w ps es)
      (@Walk.requireAll d v ps (es.map (Expr.mapSpans S.move))) := by
  induction ps generalizing es w v with
  | nil => cases es <;> exact h
  | cons p ps ih =>
    cases es with
    | nil => exact h
    | cons e es => exact ih es (require h p e)

theorem callType (span : Span) (callee : Expr) (args : List Expr) :
    S.Keeps id (@Walk.callType c w span callee args) (@Walk.callType d v (S.move span)
      (callee.mapSpans S.move) (args.map (Expr.mapSpans S.move))) := by
  unfold Walk.callType
  rw [Expr.type?_mapSpans, List.length_map]
  cases callee.type? with
  | none => exact ⟨rfl, h⟩
  | some a =>
    rw [Option.map_some, Option.map_some]
    rcases L.head (S.table h) a with ha | ⟨i, j, hi, hj⟩
    · rw [ha]
      cases w.table.head a with
      | func params result =>
        dsimp only
        split
        · exact ⟨rfl, requireAll params args h⟩
        · exact ⟨rfl, S.record h (.arity _ _ span)⟩
      | _ => exact ⟨rfl, h⟩
    · rw [hi, hj]
      exact ⟨rfl, h⟩

theorem castType (e : Expr) {dest : Ty} (hdest : dest ∈ L.casts) :
    S.Keeps id (@Walk.castType c w e dest) (@Walk.castType d v (e.mapSpans S.move) dest) := by
  unfold Walk.castType
  rw [Expr.type?_mapSpans, Expr.span_mapSpans]
  cases e.type? with
  | none => exact ⟨rfl, h⟩
  | some a =>
    dsimp only
    rcases (L.cast (S.table h) hdest a).cases with
      ⟨t, u, ht, hu, htu⟩ | ⟨t, u, ht, hu, htu⟩ <;> rw [ht, hu] <;> dsimp only
    · exact ⟨rfl, S.withTable h htu⟩
    · rw [L.describe_eq htu]
      exact ⟨rfl, S.record (S.withTable h htu) (.invalidCast _ _ e.span)⟩

/-- **Every rule** keeps the relation. -/
theorem nodeType (e : Expr) (he : e.castsInto L.casts) :
    S.Keeps id (@Walk.nodeType c w e) (@Walk.nodeType d v (e.mapSpans S.move)) := by
  cases e with
  | constant n value => exact constantType h n.span value
  | ident n name symbol => exact ⟨rfl, h⟩
  | unary n op e => exact unaryType h op e
  | binary n op lhs rhs => exact binaryType h n.span op lhs rhs
  | call n callee args =>
    rw [Expr.mapSpans_call]
    exact callType h n.span callee args
  | cast n e dest => exact castType h e he

/-- A node keeps the relation if its rule does: it is given the same type in both trees. -/
theorem conclude (e : Expr) {rule rule' : Walk → Option Ty × Walk}
    (hrule : S.Keeps id (rule w) (rule' v)) :
    S.Keeps (Expr.mapSpans S.move) (w.conclude e rule)
      (v.conclude (e.mapSpans S.move) rule') := by
  obtain ⟨htype, hafter⟩ := hrule
  rw [Walk.conclude, Walk.conclude, S.halted_eq h]
  split
  · exact ⟨rfl, h⟩
  · dsimp only
    rw [S.halted_eq hafter, htype]
    split
    · exact ⟨rfl, hafter⟩
    · exact ⟨e.withType_mapSpans _ _, hafter⟩

theorem ident (n : Note) (name : String) (symbol : Option Nat) :
    S.Keeps (Expr.mapSpans S.move) (w.ident globals n name symbol)
      (v.ident globals (n.mapSpan S.move) name symbol) := by
  rw [Walk.ident, Walk.ident, S.halted_eq h, S.scope_eq h]
  split
  · exact ⟨rfl, h⟩
  · cases hi : w.scope.lookup globals name with
    | none => exact ⟨rfl, S.record h (.undefinedName name n.span)⟩
    | some i =>
      dsimp only
      rw [S.symbolType?_eq h hi]
      exact ⟨rfl, h⟩

/-! ### The run -/

omit h in
/-- **From parts to lists**: what keeps the relation one by one keeps it. -/
theorem exprs_of_each {es : List Expr} (hes : @Each c globals (fun e w ↦ ∀ v, S.Rel w v →
      (∀ x ∈ e.nodes, x.castsInto L.casts) → S.Keeps (Expr.mapSpans S.move)
        (@Walk.expr c globals e w) (@Walk.expr d globals (e.mapSpans S.move) v)) es w)
    (h : S.Rel w v) (hcasts : ∀ x ∈ Expr.nodesAll es, x.castsInto L.casts) :
    S.Keeps (List.map (Expr.mapSpans S.move)) (@Walk.exprs c globals es w)
      (@Walk.exprs d globals (es.map (Expr.mapSpans S.move)) v) := by
  induction hes generalizing v with
  | nil w =>
    rw [@exprs_nil _ c, List.map_nil, @exprs_nil _ d]
    exact ⟨rfl, h⟩
  | cons hhead _ ih =>
    obtain ⟨hcast, hcasts⟩ := List.forall_mem_append.1 hcasts
    obtain ⟨he, hafter⟩ := hhead v h hcast
    obtain ⟨hes, hlast⟩ := ih hafter hcasts
    rw [@exprs_cons _ c, List.map_cons, @exprs_cons _ d, he, hes]
    exact ⟨rfl, hlast⟩

/-- **Expressions are checked alike.** -/
theorem expr (e : Expr) (he : ∀ x ∈ e.nodes, x.castsInto L.casts) :
    S.Keeps (Expr.mapSpans S.move) (@Walk.expr c globals e w)
      (@Walk.expr d globals (e.mapSpans S.move) v) := by
  refine @expr_of_rules globals c (fun e w ↦ ∀ v, S.Rel w v →
    (∀ x ∈ e.nodes, x.castsInto L.casts) → S.Keeps (Expr.mapSpans S.move)
      (@Walk.expr c globals e w) (@Walk.expr d globals (e.mapSpans S.move) v)) ?_ ?_ e w v h he
  · intro n name symbol w v h _
    rw [@expr_ident _ c]
    exact ident h n name symbol
  · intro e e' w htop hparts heach v h he
    obtain ⟨htrees, hafter⟩ := exprs_of_each heach h (Expr.forall_mem_nodesAll_parts he)
    have hparts' : (@Walk.exprs d globals (e.mapSpans S.move).parts v).1 =
        (e'.mapSpans S.move).parts := by
      rw [Expr.parts_mapSpans, Expr.parts_mapSpans, htrees, hparts]
    rw [@expr_eq_conclude _ _ c _ _ htop hparts,
      @expr_eq_conclude _ _ d _ _ (htop.mapSpans S.move) hparts', Expr.parts_mapSpans]
    exact conclude hafter e' (nodeType hafter e' (htop.castsInto_iff.2 (he e e.mem_nodes_self)))

end Simulation

/-! ### Definitions -/

/-- What two walks know of a symbol that both introduce: **the same**, in its other place. -/
def SymbolMoved (f : Span → Span) (s? s'? : Option Symbol) : Prop :=
  (∃ s s', s? = some s ∧ s'? = some s' ∧ s'.name = s.name ∧ s'.type? = s.type? ∧
    s'.span = f s.span) ∨
  s? = none ∧ s'? = none ∧ f default = default

/-- A **translation** of walks: a simulation that is kept by everything that is done in a
definition. The tables are the same. -/
structure Translation (c : RootChoice) (globals : Bindings) extends
    Simulation (Likeness.same c) globals where
  /-- The symbols that the definition introduces. -/
  own : Set Nat
  /-- Those of them that may be given a type. -/
  locals : Set Nat
  /-- The same is known of what the definition introduces. -/
  symbol : ∀ {w v i}, Rel w v → i ∈ own → SymbolMoved move w.symbols[i]? v.symbols[i]?
  /-- The same literals wait. -/
  waiting_eq : ∀ {w v}, Rel w v → v.waiting = w.waiting.map (Waiting.mapSpan move)
  /-- A checkpoint may be passed by both. -/
  clear : ∀ {w v}, Rel w v → ∀ t, Rel { w with table := t, waiting := [] }
    { v with table := t, waiting := [] }
  /-- A frame may be opened in both. -/
  openFrame : ∀ {w v}, Rel w v →
    Rel { w with scope := w.scope.push } { v with scope := v.scope.push }
  /-- A frame may be closed in both. -/
  closeFrame : ∀ {w v}, Rel w v →
    Rel { w with scope := w.scope.pop } { v with scope := v.scope.pop }
  /-- A symbol may be bound in both. -/
  bind : ∀ {w v i name scope}, Rel w v → i ∈ own → w.scope.declare name i = .ok scope →
    Rel { w with scope } { v with scope }
  /-- A local variable may be given its type in both. -/
  assign : ∀ {w v i}, Rel w v → i ∈ locals → ∀ a, Rel (w.setSymbolType i a) (v.setSymbolType i a)
  /-- A definition may be left by both. -/
  leave : ∀ {w v}, Rel w v → Rel w.leave v.leave

namespace Translation

variable [c : RootChoice] {globals : Bindings} {S : Translation c globals} {w v : Walk}

theorem table_eq (h : S.Rel w v) : v.table = w.table :=
  S.table h

theorem symbolType?_eq_of_mem_own (h : S.Rel w v) {i : Nat} (hi : i ∈ S.own) :
    v.symbolType? i = w.symbolType? i := by
  rw [symbolType?, symbolType?]
  rcases S.symbol h hi with ⟨s, s', hs, hs', -, htype, -⟩ | ⟨hs, hs', -⟩ <;> rw [hs, hs']
  exact htype

theorem expr (h : S.Rel w v) (e : Expr) :
    S.Keeps (Expr.mapSpans S.move) (Walk.expr globals e w)
      (Walk.expr globals (e.mapSpans S.move) v) :=
  Simulation.expr h e fun x _ ↦ x.castsInto_univ

theorem push (h : S.Rel w v) : S.Rel w.push v.push :=
  Simulation.andThen h (S.openFrame h)

theorem pop (h : S.Rel w v) : S.Rel w.pop v.pop :=
  Simulation.andThen h (S.closeFrame h)

theorem declare (h : S.Rel w v) {i : Nat} (hi : i ∈ S.own) : S.Rel (w.declare i) (v.declare i) := by
  refine Simulation.andThen h ?_
  rcases S.symbol h hi with ⟨s, s', hs, hs', hname, -, hspan⟩ | ⟨hs, hs', -⟩ <;> rw [hs, hs']
  · dsimp only
    rw [S.scope_eq h, hname, hspan]
    cases hscope : w.scope.declare s.name i with
    | ok scope => exact S.bind h hi hscope
    | error j => exact S.record h (.repeatedName s.name s.span)
  · exact h

theorem foldl_declare (params : List Nat) {w v : Walk} (h : S.Rel w v)
    (hparams : ∀ i ∈ params, i ∈ S.own) :
    S.Rel (params.foldl Walk.declare w) (params.foldl Walk.declare v) := by
  induction params generalizing w v with
  | nil => exact h
  | cons i params ih =>
    obtain ⟨hi, hparams⟩ := List.forall_mem_cons.1 hparams
    exact ih (declare h hi) hparams

/-- A checkpoint looks for the first literal that is still open, and finds the same one in both
walks. -/
theorem checkpoint (h : S.Rel w v) (e : Expr) :
    S.Keeps (Expr.mapSpans S.move) (w.checkpoint e) (v.checkpoint (e.mapSpans S.move)) := by
  have hfind (t : Table) : v.waiting.find? (fun l ↦ (t.type? l.hole).isNone) =
      (w.waiting.find? fun l ↦ (t.type? l.hole).isNone).map (Waiting.mapSpan S.move) := by
    rw [S.waiting_eq h, List.find?_map]
    rfl
  cases hrun : w.halted with
  | true =>
    rw [checkpoint_of_halted hrun, checkpoint_of_halted ((S.halted_eq h).trans hrun)]
    exact ⟨rfl, h⟩
  | false =>
    rw [Walk.checkpoint, Walk.checkpoint, if_neg (by simp [hrun]),
      if_neg (by simp [S.halted_eq h, hrun]), table_eq h]
    dsimp only
    rw [hfind]
    cases w.waiting.find? fun l ↦ (w.table.settleAll.type? l.hole).isNone with
    | none => exact ⟨e.mapTypes_mapSpans _ _, S.clear h _⟩
    | some l => exact ⟨rfl, S.record (S.clear h _) (.cannotInfer _ l.span)⟩

theorem unlabelled (h : S.Rel w v) (e : Expr) :
    S.Keeps (Expr.mapSpans S.move) (w.unlabelled globals e)
      (v.unlabelled globals (e.mapSpans S.move)) := by
  obtain ⟨he, hafter⟩ := expr h e
  rw [Walk.unlabelled, Walk.unlabelled, he]
  exact checkpoint hafter _

theorem labelled (h : S.Rel w v) (label : Ty) (e : Expr) :
    S.Keeps (Expr.mapSpans S.move) (w.labelled globals label e)
      (v.labelled globals label (e.mapSpans S.move)) := by
  obtain ⟨he, hafter⟩ := expr h e
  rw [Walk.labelled, Walk.labelled]
  dsimp only
  rw [he]
  exact checkpoint (Simulation.require hafter label _) _

theorem adopt (h : S.Rel w v) {i : Nat} (hown : i ∈ S.own) (hlocal : i ∈ S.locals) (e : Expr) :
    S.Rel (w.adopt i e) (v.adopt i (e.mapSpans S.move)) := by
  refine Simulation.andThen h ?_
  rw [Expr.type?_mapSpans, Expr.span_mapSpans]
  cases e.type? with
  | some a => exact S.assign h hlocal a
  | none =>
    rcases S.symbol h hown with ⟨s, s', hs, hs', hname, -, -⟩ | ⟨hs, hs', -⟩ <;> rw [hs, hs']
    · dsimp only [Option.map]
      rw [hname]
      exact S.record h (.cannotInfer _ e.span)
    · exact S.record h (.cannotInfer _ e.span)

/-- The ways to declare a variable, one by one: both walks go the same way, since the variable has a
label in both or in neither. -/
theorem letVar (h : S.Rel w v) (x : Variable) (hown : x.symbol ∈ S.own)
    (hlocal : x.symbol ∈ S.locals) :
    S.Keeps (Variable.mapSpans S.move) (w.letVar globals x)
      (v.letVar globals (x.mapSpans S.move)) := by
  obtain ⟨span, symbol, init?⟩ := x
  rw [Walk.letVar, Walk.letVar, Variable.mapSpans, S.halted_eq h]
  dsimp only at hown hlocal ⊢
  rw [symbolType?_eq_of_mem_own h hown]
  split
  · exact ⟨rfl, h⟩
  · cases w.symbolType? symbol with
    | some label =>
      cases init? with
      | some init =>
        obtain ⟨hinit, hafter⟩ := labelled h label init
        exact ⟨congrArg (fun e ↦ Variable.mk _ symbol (some e)) hinit, declare hafter hown⟩
      | none => exact ⟨rfl, declare h hown⟩
    | none =>
      cases init? with
      | some init =>
        have hinit : S.Keeps _ (w.unlabelled globals init) _ := unlabelled h init
        have hadopt := adopt hinit.walk hown hlocal (w.unlabelled globals init).1
        rw [← hinit.result] at hadopt
        exact ⟨congrArg (fun e ↦ Variable.mk _ symbol (some e)) hinit.result,
          declare hadopt hown⟩
      | none =>
        dsimp only [Option.map]
        rcases S.symbol h hown with ⟨s, s', hs, hs', hname, -, hspan⟩ | ⟨hs, hs', -⟩ <;>
          rw [hs, hs']
        · dsimp only
          rw [hname, hspan]
          exact ⟨rfl, S.record h (.cannotInfer s.name s.span)⟩
        · exact ⟨rfl, h⟩

theorem stmt (h : S.Rel w v) (s : Stmt)
    (hs : ∀ x, s.declared? = some x → x.symbol ∈ S.own ∧ x.symbol ∈ S.locals) :
    S.Keeps (Stmt.mapSpans S.move) (w.stmt globals s) (v.stmt globals (s.mapSpans S.move)) := by
  cases s with
  | letVar x =>
    obtain ⟨hx, hafter⟩ := letVar h x (hs x rfl).1 (hs x rfl).2
    exact ⟨congrArg Stmt.letVar hx, hafter⟩
  | expr e =>
    obtain ⟨he, hafter⟩ := unlabelled h e
    exact ⟨congrArg Stmt.expr he, hafter⟩

/-- **Statements are checked alike**, one behind another. -/
theorem stmts (ss : List Stmt) {w v : Walk} (h : S.Rel w v)
    (hss : ∀ s ∈ ss, ∀ x, s.declared? = some x → x.symbol ∈ S.own ∧ x.symbol ∈ S.locals) :
    S.Keeps (List.map (Stmt.mapSpans S.move)) (w.stmts globals ss)
      (v.stmts globals (ss.map (Stmt.mapSpans S.move))) := by
  induction ss generalizing w v with
  | nil => exact ⟨rfl, h⟩
  | cons s ss ih =>
    obtain ⟨hs, hss⟩ := List.forall_mem_cons.1 hss
    obtain ⟨hfirst, hafter⟩ := stmt h s hs
    obtain ⟨hmore, hlast⟩ := ih hafter hss
    exact ⟨congrArg₂ List.cons hfirst hmore, hlast⟩

theorem body (h : S.Rel w v) (body? : Option Block) (hbody : ∀ b, body? = some b →
      ∀ s ∈ b.stmts, ∀ x, s.declared? = some x → x.symbol ∈ S.own ∧ x.symbol ∈ S.locals) :
    S.Keeps (Option.map (Block.mapSpans S.move)) (w.body globals body?)
      (v.body globals (body?.map (Block.mapSpans S.move))) := by
  cases body? with
  | none => exact ⟨rfl, h⟩
  | some b =>
    obtain ⟨hss, hafter⟩ := stmts b.stmts (push h) (hbody b rfl)
    exact ⟨congrArg (fun ss ↦ some (Block.mk _ ss)) hss, pop hafter⟩

theorem global (h : S.Rel w v) (x : Variable) (hown : x.symbol ∈ S.own) :
    S.Keeps (Variable.mapSpans S.move) (w.global globals x)
      (v.global globals (x.mapSpans S.move)) := by
  obtain ⟨span, symbol, init?⟩ := x
  rw [Walk.global, Walk.global, Variable.mapSpans, S.halted_eq h]
  dsimp only at hown ⊢
  rw [symbolType?_eq_of_mem_own h hown]
  split
  · exact ⟨rfl, h⟩
  · cases w.symbolType? symbol with
    | none =>
      rcases S.symbol h hown with ⟨s, s', hs, hs', -, -, hspan⟩ | ⟨hs, hs', hdefault⟩ <;>
        rw [hs, hs'] <;> dsimp only [Option.map, Option.getD]
      · rw [hspan]
        exact ⟨rfl, S.record h (.missingLabel s.span)⟩
      · have hrecord := S.record h (.missingLabel default)
        rw [CheckError.mapSpan, hdefault] at hrecord
        exact ⟨rfl, hrecord⟩
    | some label =>
      cases init? with
      | some init =>
        obtain ⟨hinit, hafter⟩ := labelled h label init
        exact ⟨congrArg (fun e ↦ Variable.mk _ symbol (some e)) hinit, hafter⟩
      | none => exact ⟨rfl, h⟩

/-- **So is the content of a definition**: everything that it introduces is its own. -/
theorem content (h : S.Rel w v) {x : Definition} (hown : ∀ i ∈ x.owned, i ∈ S.own)
    (hlocals : ∀ i ∈ x.locals, i ∈ S.locals) :
    S.Keeps (Definition.Content.mapSpans S.move) (w.content globals x.content)
      (v.content globals (x.content.mapSpans S.move)) := by
  have hstmts : ∀ s ∈ x.stmts, ∀ y, s.declared? = some y →
      y.symbol ∈ S.own ∧ y.symbol ∈ S.locals := by
    intro s hs y hy
    have hy := Definition.mem_locals_of_mem_stmts hs hy
    exact ⟨hown _ (x.locals_subset_owned hy), hlocals _ hy⟩
  obtain ⟨hsymbol, hparams, -⟩ := Definition.forall_mem_owned.1 hown
  rw [Definition.stmts] at hstmts
  rw [Definition.symbol] at hsymbol
  rw [Definition.params] at hparams
  cases hcontent : x.content with
  | function symbol params result body? =>
    rw [hcontent] at hparams hstmts
    have hdeclared := foldl_declare params (push h) hparams
    obtain ⟨hbody, hafter⟩ := body hdeclared body? (by rintro b rfl; exact hstmts)
    exact ⟨congrArg (Definition.Content.function symbol params result) hbody, pop hafter⟩
  | global y =>
    rw [hcontent] at hsymbol
    obtain ⟨hy, hafter⟩ := global h y hsymbol
    exact ⟨congrArg Definition.Content.global hy, hafter⟩

/-- **Definitions are checked alike**: what they introduce is the same in its other place, and the
same rule on tags is broken. -/
theorem definition {x x' : Definition} (hown : ∀ i ∈ x.owned, i ∈ S.own)
    (hlocals : ∀ i ∈ x.locals, i ∈ S.locals) (hcontent : x'.content = x.content.mapSpans S.move)
    (herror : x'.metadata.error? x'.tagged =
      (x.metadata.error? x.tagged).map (Prod.map id S.move))
    (h : S.Rel (w.enter x.file) (v.enter x'.file)) :
    S.Keeps (fun y ↦ { x' with content := y.content.mapSpans S.move }) (w.definition globals x)
      (v.definition globals x') := by
  cases hx : x.metadata.error? x.tagged with
  | some r =>
    obtain ⟨error, span⟩ := r
    rw [hx] at herror
    rw [definition_of_error? globals w hx, definition_of_error? globals v herror]
    exact ⟨congrArg (Definition.mk _ _ _) hcontent, S.leave (S.record h (.metadata error span))⟩
  | none =>
    rw [hx] at herror
    obtain ⟨htree, hafter⟩ := content h hown hlocals
    rw [definition_of_no_error? globals w hx, definition_of_no_error? globals v herror, hcontent,
      htree]
    exact ⟨rfl, S.leave hafter⟩

end Translation

end Walk

end FrontEnd
