import FrontEnd.Expr.Basic

/-!
# Grouping by binding strength

Operands and operators are read as one flat row, `e₀ op₁ e₁ op₂ e₂ …`, and grouped afterwards. The
tree of a row is built from the left: the next operator takes as its left operand everything at the
right edge of the tree that binds at least as tightly, which makes all operators associate to the
left. An operand is a leaf of that tree whatever it looks like inside, so a row in parentheses is
never regrouped.
-/

namespace FrontEnd

/-- A row of operands and operators, grouped. -/
inductive OpTree where
  /-- An operand. -/
  | leaf (e : Expr)
  /-- Two groups with an operator between them. -/
  | node (op : BinOp) (lhs rhs : OpTree)
deriving Repr

namespace OpTree

/-- The tree of a row that has one more operator and operand at its end. -/
def attach (op : BinOp) (e : Expr) : OpTree → OpTree
  | leaf e' => node op (leaf e') (leaf e)
  | node op' l r =>
    -- only a looser operator gives up its right operand; an equal one keeps it
    if op'.level < op.level then node op' l (attach op e r) else node op (node op' l r) (leaf e)

/-- The expression of a grouped row. A group spans what its operands span. -/
def toExpr : OpTree → Expr
  | leaf e => e
  | node op l r =>
    .binary (.untyped (l.toExpr.span.merge r.toExpr.span)) op l.toExpr r.toExpr

end OpTree

namespace Expr

/-- The expression of a row: a first operand, and further ones each behind an operator. -/
def ofRow (first : Expr) (more : List (BinOp × Expr)) : Expr :=
  (more.foldl (fun tree p ↦ OpTree.attach p.1 p.2 tree) (OpTree.leaf first)).toExpr

end Expr

end FrontEnd
