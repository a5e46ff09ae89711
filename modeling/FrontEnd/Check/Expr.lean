import FrontEnd.Check.Walk

/-!
# Checking expressions

Every node of an expression gets its type when its parts have theirs. A literal without a type of
its own gets a hole; operators, calls and casts make the types of their parts agree, which may
decide holes further down; and at the end of the statement a **checkpoint** decides what is still
open and replaces every hole in the tree by its type.

A part may have no type (something that is not a function was called). Rules that would need the
missing type are not applied then, and the node has no type either, unless its type does not depend
on that part.
-/

namespace FrontEnd

namespace Walk

/-! ### The type of one node -/

/-- The type of a literal: its own, or a new hole. -/
def constantType (w : Walk) (span : Span) (value : Constant) : Option Ty × Walk :=
  match value.kind? with
  | none => (value.type?, w)
  | some kind =>
    (some (.hole w.table.size),
      { w with table := w.table.fresh kind, waiting := w.waiting ++ [⟨w.table.size, span⟩] })

/-- Makes a type one that an operator between two operands applies to. -/
def requireOperand (t : Table) (op : BinOp) (a : Ty) : Bool × Table :=
  if op.isArithmetic then t.requireNumber a else t.requireInteger a

/-- The type of an operator between two operands. The operands have to agree, and then to suit the
operator; either way the type is that of the left one. -/
def binaryType [Table.RootChoice] (w : Walk) (span : Span) (op : BinOp) (lhs rhs : Expr) :
    Option Ty × Walk :=
  match lhs.type?, rhs.type? with
  | some a, some b =>
    match w.table.unify a b with
    | (false, t) =>
      (some a, (w.withTable t).record (.mismatch (t.describe a) (t.describe b) span))
    | (true, t) =>
      match requireOperand t op a with
      | (true, u) => (some a, w.withTable u)
      | (false, u) =>
        (some a,
          (w.withTable u).record (.binaryOperator op (u.describe a) (u.describe b) span))
  | a?, _ => (a?, w)

/-- The type of a negation: that of its operand, which has to be a number. -/
def negateType (w : Walk) (operand : Expr) : Option Ty × Walk :=
  match operand.type? with
  | none => (none, w)
  | some a =>
    match w.table.requireNumber a with
    | (true, t) => (some a, w.withTable t)
    | (false, t) => (some a, (w.withTable t).record (.negation (t.describe a) operand.span))

/-- The type of a dereference: what its operand points at. -/
def derefType (w : Walk) (operand : Expr) : Option Ty × Walk :=
  match operand.type?.map w.table.head with
  | some (.pointer _ a) => (some a, w)
  | _ => (none, w.record (.notPointer operand.span))

/-- The type of an operator in front of its operand. -/
def unaryType (w : Walk) (op : UnaryOp) (operand : Expr) : Option Ty × Walk :=
  match op with
  | .negate => w.negateType operand
  | .address => (operand.type?.map (.pointer false), w)
  | .deref => w.derefType operand

/-- Makes the type of an expression the one that is asked for. An expression without a type is let
through. -/
def require [Table.RootChoice] (w : Walk) (expected : Ty) (e : Expr) : Walk :=
  w.andThen fun w ↦
    match e.type? with
    | none => w
    | some a =>
      match w.table.convert expected a with
      | (true, t) => w.withTable t
      | (false, t) =>
        (w.withTable t).record (.notConvertible (t.describe a) (t.describe expected) e.span)

/-- Makes the types of arguments those of parameters, in order. -/
def requireAll [Table.RootChoice] (w : Walk) : List Ty → List Expr → Walk
  | a :: as, e :: es => (w.require a e).requireAll as es
  | _, _ => w

/-- The type of a call: the result of the function, none if it is not a function. -/
def callType [Table.RootChoice] (w : Walk) (span : Span) (callee : Expr) (args : List Expr) :
    Option Ty × Walk :=
  match callee.type?.map w.table.head with
  | some (.func params result) =>
    if params.length = args.length then (some result, w.requireAll params args)
    else (none, w.record (.arity params.length args.length span))
  | _ => (none, w)

/-- The type of a cast: the one that the program names, if the cast is allowed. -/
def castType [Table.RootChoice] (w : Walk) (operand : Expr) (dest : Ty) : Option Ty × Walk :=
  match operand.type? with
  | none => (some dest, w)
  | some a =>
    match w.table.cast dest a with
    | (true, t) => (some dest, w.withTable t)
    | (false, t) =>
      (none, (w.withTable t).record (.invalidCast (t.describe a) dest.text operand.span))

/-! ### Trees -/

/-- Gives an expression whose parts have been checked the type that `rule` finds for it. If the rule
halts the definition, the expression stays without. -/
def conclude (w : Walk) (e : Expr) (rule : Walk → Option Ty × Walk) : Expr × Walk :=
  if w.halted then (e, w)
  else
    let (a?, v) := rule w
    -- an error that is not fatal still leaves the expression with a type
    if v.halted then (e, v) else (e.withType a?, v)

/-- Finds out what a name means. -/
def ident (w : Walk) (globals : Bindings) (note : Note) (name : String) (symbol : Option Nat) :
    Expr × Walk :=
  if w.halted then (.ident note name symbol, w)
  else
    match w.scope.lookup globals name with
    | none => (.ident note name symbol, w.record (.undefinedName name note.span))
    | some found =>
      (.ident { note with type? := w.symbolType? found } name (some found), w)

mutual

/-- Checks an expression: its parts from left to right, and then itself. -/
def expr [Table.RootChoice] (globals : Bindings) : Expr → Walk → Expr × Walk
  | .constant note value, w =>
    w.conclude (.constant note value) fun w ↦ w.constantType note.span value
  | .ident note name symbol, w => w.ident globals note name symbol
  | .unary note op operand, w =>
    let (operand, w) := expr globals operand w
    w.conclude (.unary note op operand) fun w ↦ w.unaryType op operand
  | .binary note op lhs rhs, w =>
    let (lhs, w) := expr globals lhs w
    let (rhs, w) := expr globals rhs w
    w.conclude (.binary note op lhs rhs) fun w ↦ w.binaryType note.span op lhs rhs
  | .call note callee args, w =>
    let (callee, w) := expr globals callee w
    let (args, w) := exprs globals args w
    w.conclude (.call note callee args) fun w ↦ w.callType note.span callee args
  | .cast note operand dest, w =>
    let (operand, w) := expr globals operand w
    w.conclude (.cast note operand dest) fun w ↦ w.castType operand dest

/-- Checks expressions from left to right. -/
def exprs [Table.RootChoice] (globals : Bindings) : List Expr → Walk → List Expr × Walk
  | [], w => ([], w)
  | e :: es, w =>
    let (e, w) := expr globals e w
    let (es, w) := exprs globals es w
    (e :: es, w)

end

/-- Decides every hole of a statement and replaces holes by types in its expression. The first
literal that has no type even then is an error. -/
def checkpoint (w : Walk) (e : Expr) : Expr × Walk :=
  if w.halted then (e, w)
  else
    let t := w.table.settleAll
    match w.waiting.find? fun l ↦ (t.type? l.hole).isNone with
    | some l =>
      (e, { w with table := t, waiting := [] }.record
        (.cannotInfer (t.describe (.hole l.hole)) l.span))
    | none => (e.mapTypes t.expand, { w with table := .empty, waiting := [] })

end Walk

end FrontEnd
