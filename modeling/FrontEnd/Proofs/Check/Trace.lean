import FrontEnd.Proofs.Check.Lasting

/-!
# What happens in a run

Types with holes live in three places while a program is checked: in the table, in the types of
symbols, and in the tree of the statement at hand. The first two make up a **store**, and a `Use` is
one thing that checking does with the store or with a type: it asks the table something, hands it a
type, writes a type into the tree, or gives a type to a symbol. A `Moment` is a use together with
the store at that time.

`Program.trace` lists the moments of a run in order. The functions that build it follow the
functions of the checker, one for each, and take every state from those functions themselves. That
nothing is missing that would change a store is a property of the list (`Chained`): each moment
starts from the store that the one before it left behind.
-/

namespace FrontEnd

open Table

/-- The part of the state of checking in which types are kept. -/
structure Store where
  /-- The symbols, with their types. -/
  symbols : List Symbol
  /-- The holes, with what is known of them. -/
  table : Table

/-- One thing that checking does. -/
inductive Use where
  /-- Makes a hole. -/
  | fresh (kind : HoleKind)
  /-- Makes two types agree. -/
  | unify (a b : Ty)
  /-- Makes a type one that a limit admits. -/
  | limit (kind : HoleKind) (a : Ty)
  /-- Casts an open hole. -/
  | castHole (dest : Ty) (i : Nat)
  /-- Gives every open hole its default. -/
  | settleAll
  /-- Empties the table. -/
  | reset
  /-- Uncovers the outermost constructor of a type. -/
  | head (a : Ty)
  /-- Looks up what a hole is committed to. -/
  | lookup (i : Nat)
  /-- Replaces the holes in a type. -/
  | expand (a : Ty)
  /-- Writes a type into a message. -/
  | describe (a : Ty)
  /-- Writes a type into the tree. -/
  | annotate (a : Ty)
  /-- Gives a type to a symbol. -/
  | assign (symbol : Nat) (a : Ty)
deriving DecidableEq, Repr

namespace Use

/-- The types that are handed over; a hole by itself counts as a type. -/
def types : Use → List Ty
  | fresh _ => []
  | unify a b => [a, b]
  | limit _ a => [a]
  | castHole dest i => [dest, .hole i]
  | settleAll => []
  | reset => []
  | head a => [a]
  | lookup i => [.hole i]
  | expand a => [a]
  | describe a => [a]
  | annotate a => [a]
  | assign _ a => [a]

/-- The store that is left behind. -/
def after [RootChoice] (u : Use) (σ : Store) : Store :=
  match u with
  | fresh kind => { σ with table := σ.table.fresh kind }
  | unify a b => { σ with table := (σ.table.unify a b).2 }
  | limit kind a => { σ with table := (σ.table.requireLimit kind a).2 }
  | castHole dest i => { σ with table := (σ.table.castHole dest i).2 }
  | settleAll => { σ with table := σ.table.settleAll }
  | reset => { σ with table := .empty }
  | assign symbol a =>
    { σ with symbols := σ.symbols.modify symbol fun s ↦ { s with type? := some a } }
  | _ => σ

end Use

/-- A use, and the store at that time. -/
structure Moment where
  store : Store
  use : Use

/-- **Moments without a gap** from one store to another. -/
def Chained [RootChoice] : Store → List Moment → Store → Prop
  | σ, [], τ => σ = τ
  | σ, m :: ms, τ => m.store = σ ∧ Chained (m.use.after σ) ms τ

theorem Chained.append [RootChoice] {σ τ υ : Store} {ms ms' : List Moment} (h : Chained σ ms τ)
    (h' : Chained τ ms' υ) : Chained σ (ms ++ ms') υ := by
  induction ms generalizing σ with
  | nil =>
    obtain rfl : σ = τ := h
    exact h'
  | cons m ms ih => exact ⟨h.1, ih h.2⟩

namespace Walk

/-- The store of a state. -/
def store (w : Walk) : Store :=
  ⟨w.symbols, w.table⟩

/-- A use of the store of a state. -/
def moment (w : Walk) (u : Use) : Moment :=
  ⟨w.store, u⟩

/-! ### Single nodes -/

/-- A question to the table. If the answer is no, a message shows some types. -/
def ask (w : Walk) (u : Use) (answer : Bool × Table) (shown : List Ty) : List Moment :=
  w.moment u ::
    if answer.1 then [] else shown.map fun a ↦ (w.withTable answer.2).moment (.describe a)

def constantTrace (w : Walk) (value : Constant) : List Moment :=
  (value.kind?.map fun kind ↦ w.moment (.fresh kind)).toList

def negateTrace (w : Walk) (operand : Expr) : List Moment :=
  match operand.type? with
  | none => []
  | some a => w.ask (.limit .number a) (w.table.requireNumber a) [a]

def unaryTrace (w : Walk) (op : UnaryOp) (operand : Expr) : List Moment :=
  match op with
  | .negate => w.negateTrace operand
  | .address => []
  | .deref => (operand.type?.map fun a ↦ w.moment (.head a)).toList

/-- What a cast between types that are not open asks the table. -/
def castKnownUse? (dest src : Ty) : Option Use :=
  if src.isNumeric && dest.isNumeric then none
  else if (src.isInt && dest.isBool) || (src.isBool && dest.isInt) then none
  else
    match src, dest with
    | .pointer c a, .pointer d b => if !c || d then some (.unify a b) else none
    | src, dest => some (.unify dest src)

/-- What a cast asks the table, when the heads of both types have been uncovered. -/
def castUse? (t : Table) (dest src : Ty) : Option Use :=
  match t.head src with
  | .hole i => some (.castHole (t.head dest) i)
  | src => castKnownUse? (t.head dest) src

section Rules

variable [RootChoice]

def binaryTrace (w : Walk) (op : BinOp) (lhs rhs : Expr) : List Moment :=
  match lhs.type?, rhs.type? with
  | some a, some b =>
    w.ask (.unify a b) (w.table.unify a b) [a, b] ++
      if (w.table.unify a b).1 then
        let v := w.withTable (w.table.unify a b).2
        v.ask (.limit op.limit a) (requireOperand v.table op a) [a, b]
      else []
  | _, _ => []

def requireTrace (w : Walk) (expected : Ty) (e : Expr) : List Moment :=
  if w.halted then []
  else
    match e.type? with
    | none => []
    | some a => w.ask (.unify expected a) (w.table.convert expected a) [a, expected]

def requireAllTrace (w : Walk) : List Ty → List Expr → List Moment
  | a :: as, e :: es => w.requireTrace a e ++ (w.require a e).requireAllTrace as es
  | _, _ => []

def callTrace (w : Walk) (callee : Expr) (args : List Expr) : List Moment :=
  match callee.type? with
  | none => []
  | some a =>
    w.moment (.head a) ::
      match w.table.head a with
      | .func params _ => if params.length = args.length then w.requireAllTrace params args else []
      | _ => []

def castTrace (w : Walk) (operand : Expr) (dest : Ty) : List Moment :=
  match operand.type? with
  | none => []
  | some a =>
    [w.moment (.head a), w.moment (.head dest)] ++
      ((castUse? w.table dest a).map w.moment).toList ++
      if (w.table.cast dest a).1 then []
      else [(w.withTable (w.table.cast dest a).2).moment (.describe a)]

/-! ### Trees -/

/-- The rule for a node, and the type that it writes into the tree. -/
def concludeTrace (w : Walk) (trace : List Moment) (result : Option Ty × Walk) : List Moment :=
  if w.halted then []
  else
    trace ++
      if result.2.halted then []
      else (result.1.map fun a ↦ result.2.moment (.annotate a)).toList

def identTrace (w : Walk) (globals : Bindings) (name : String) : List Moment :=
  if w.halted then []
  else
    (((w.scope.lookup globals name).bind w.symbolType?).map fun a ↦ w.moment (.annotate a)).toList

mutual

/-- The moments of checking an expression. -/
def exprTrace (globals : Bindings) : Expr → Walk → List Moment
  | .constant note value, w =>
    w.concludeTrace (w.constantTrace value) (w.constantType note.span value)
  | .ident _ name _, w => w.identTrace globals name
  | .unary _ op operand, w =>
    let (operand', v) := expr globals operand w
    exprTrace globals operand w ++
      v.concludeTrace (v.unaryTrace op operand') (v.unaryType op operand')
  | .binary note op lhs rhs, w =>
    let (lhs', v) := expr globals lhs w
    let (rhs', x) := expr globals rhs v
    exprTrace globals lhs w ++ exprTrace globals rhs v ++
      x.concludeTrace (x.binaryTrace op lhs' rhs') (x.binaryType note.span op lhs' rhs')
  | .call note callee args, w =>
    let (callee', v) := expr globals callee w
    let (args', x) := exprs globals args v
    exprTrace globals callee w ++ exprsTrace globals args v ++
      x.concludeTrace (x.callTrace callee' args') (x.callType note.span callee' args')
  | .cast _ operand dest, w =>
    let (operand', v) := expr globals operand w
    exprTrace globals operand w ++
      v.concludeTrace (v.castTrace operand' dest) (v.castType operand' dest)

/-- The moments of checking expressions. -/
def exprsTrace (globals : Bindings) : List Expr → Walk → List Moment
  | [], _ => []
  | e :: es, w => exprTrace globals e w ++ exprsTrace globals es (expr globals e w).2

end

/-- What the rule for a node does. -/
def nodeTrace (w : Walk) : Expr → List Moment
  | .constant _ c => w.constantTrace c
  | .ident _ _ _ => []
  | .unary _ op e => w.unaryTrace op e
  | .binary _ op l r => w.binaryTrace op l r
  | .call _ f args => w.callTrace f args
  | .cast _ e dest => w.castTrace e dest

/-- The moments of a node that is not a name are those of its parts and then those of its rule. -/
theorem exprTrace_eq_append {w : Walk} {globals : Bindings} {e e' : Expr} (htop : e.SameTop e')
    (hparts : (exprs globals e.parts w).1 = e'.parts) :
    exprTrace globals e w = exprsTrace globals e.parts w ++
      (exprs globals e.parts w).2.concludeTrace ((exprs globals e.parts w).2.nodeTrace e')
        ((exprs globals e.parts w).2.nodeType e') := by
  cases htop with
  | constant n c =>
    rw [exprTrace, Expr.parts, exprsTrace, exprs_nil]
    rfl
  | unary n op e e' =>
    rw [Expr.parts, exprs_cons, exprs_nil] at hparts ⊢
    obtain ⟨rfl, -⟩ := List.cons.inj hparts
    rw [exprTrace, exprsTrace, exprsTrace, List.append_nil]
    rfl
  | binary n op l l' r r' =>
    rw [Expr.parts, exprs_cons, exprs_cons, exprs_nil] at hparts ⊢
    obtain ⟨rfl, hrest⟩ := List.cons.inj hparts
    obtain ⟨rfl, -⟩ := List.cons.inj hrest
    rw [exprTrace, exprsTrace, exprsTrace, exprsTrace, List.append_nil]
    rfl
  | call n f f' args args' =>
    rw [Expr.parts, exprs_cons] at hparts ⊢
    obtain ⟨rfl, rfl⟩ := List.cons.inj hparts
    rw [exprTrace, exprsTrace]
    rfl
  | cast n e e' dest =>
    rw [Expr.parts, exprs_cons, exprs_nil] at hparts ⊢
    obtain ⟨rfl, -⟩ := List.cons.inj hparts
    rw [exprTrace, exprsTrace, exprsTrace, List.append_nil]
    rfl

/-- The moments of a checkpoint. Every literal that waits is counted as looked up, though the search
stops at the first one without a type. -/
def checkpointTrace (w : Walk) (e : Expr) : List Moment :=
  if w.halted then []
  else
    let v := w.withTable w.table.settleAll
    w.moment .settleAll :: (w.waiting.map fun l ↦ v.moment (.lookup l.hole)) ++
      match w.waiting.find? fun l ↦ (v.table.type? l.hole).isNone with
      | some l => [v.moment (.describe (.hole l.hole))]
      | none =>
        (e.nodes.filterMap Expr.type?).map (fun a ↦ v.moment (.expand a)) ++ [v.moment .reset]

/-! ### Statements and definitions -/

def unlabelledTrace (w : Walk) (globals : Bindings) (e : Expr) : List Moment :=
  exprTrace globals e w ++ (expr globals e w).2.checkpointTrace (expr globals e w).1

def labelledTrace (w : Walk) (globals : Bindings) (label : Ty) (init : Expr) : List Moment :=
  let (init', v) := expr globals init w
  exprTrace globals init w ++ v.requireTrace label init' ++
    (v.require label init').checkpointTrace init'

def adoptTrace (w : Walk) (symbol : Nat) (init : Expr) : List Moment :=
  if w.halted then [] else (init.type?.map fun a ↦ w.moment (.assign symbol a)).toList

def letVarTrace (w : Walk) (globals : Bindings) (v : Variable) : List Moment :=
  if w.halted then []
  else
    match w.symbolType? v.symbol, v.init? with
    | some label, some init => w.labelledTrace globals label init
    | none, some init =>
      w.unlabelledTrace globals init ++
        (w.unlabelled globals init).2.adoptTrace v.symbol (w.unlabelled globals init).1
    | _, none => []

def stmtTrace (w : Walk) (globals : Bindings) : Stmt → List Moment
  | .letVar v => w.letVarTrace globals v
  | .expr e => w.unlabelledTrace globals e

def stmtsTrace (w : Walk) (globals : Bindings) : List Stmt → List Moment
  | [] => []
  | s :: ss => w.stmtTrace globals s ++ (w.stmt globals s).2.stmtsTrace globals ss

def bodyTrace (w : Walk) (globals : Bindings) : Option Block → List Moment
  | none => []
  | some b => w.push.stmtsTrace globals b.stmts

def globalTrace (w : Walk) (globals : Bindings) (v : Variable) : List Moment :=
  if w.halted then []
  else
    match w.symbolType? v.symbol, v.init? with
    | some label, some init => w.labelledTrace globals label init
    | _, _ => []

def contentTrace (w : Walk) (globals : Bindings) : Definition.Content → List Moment
  | .function _ params _ body? => (params.foldl declare w.push).bodyTrace globals body?
  | .global v => w.globalTrace globals v

/-- The moments of a definition; the last one clears the table, however the definition ended. -/
def definitionTrace (w : Walk) (globals : Bindings) (d : Definition) : List Moment :=
  let v := (w.enter d.file).tags d
  if v.halted then [v.moment .reset]
  else v.contentTrace globals d.content ++ [(v.content globals d.content).2.moment .reset]

def definitionsTrace (w : Walk) (globals : Bindings) : List Definition → List Moment
  | [] => []
  | d :: ds =>
    w.definitionTrace globals d ++ (w.definition globals d).2.definitionsTrace globals ds

/-! ### Walks that have been halted -/

variable {w : Walk} {globals : Bindings}

omit [RootChoice] in
theorem concludeTrace_of_halted (h : w.halted = true) (ms : List Moment)
    (result : Option Ty × Walk) : w.concludeTrace ms result = [] :=
  if_pos h

theorem exprsTrace_of_each {es : List Expr}
    (h : Each globals (fun e w ↦ w.halted = true → exprTrace globals e w = []) es w)
    (hw : w.halted = true) : exprsTrace globals es w = [] := by
  induction h with
  | nil w => rw [exprsTrace]
  | cons hhead _ ih =>
    rw [expr_of_halted hw] at ih
    rw [exprsTrace, hhead hw, expr_of_halted hw, ih hw, List.append_nil]

/-- Nothing happens any more in a walk that has been halted. -/
theorem exprTrace_of_halted (h : w.halted = true) (e : Expr) : exprTrace globals e w = [] := by
  refine expr_of_rules globals (P := fun e w ↦ w.halted = true → exprTrace globals e w = []) ?_ ?_
    e w h
  · intro n name symbol w hw
    rw [exprTrace, identTrace, if_pos hw]
  · intro e e' w htop hparts heach hw
    rw [exprTrace_eq_append htop hparts, exprsTrace_of_each heach hw, exprs_of_halted hw,
      concludeTrace_of_halted hw, List.append_nil]

theorem stmtTrace_of_halted (h : w.halted = true) (s : Stmt) : w.stmtTrace globals s = [] := by
  cases s with
  | letVar v => exact if_pos h
  | expr e =>
    rw [stmtTrace, unlabelledTrace, exprTrace_of_halted h, expr_of_halted h, checkpointTrace,
      if_pos h, List.append_nil]

end Rules

end Walk

/-- **The moments of checking a program.** -/
def Program.trace [RootChoice] (p : Program) : List Moment :=
  (Walk.start p.symbols).definitionsTrace p.globals p.definitions

end FrontEnd
