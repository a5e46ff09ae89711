import FrontEnd.Literal.Binary64
import FrontEnd.Source.Span
import FrontEnd.Token.Basic
import FrontEnd.Ty.HoleKind

/-!
# Expressions

The tree of an expression. Every node carries a **note**: where it stands, and the type it has been
given so far. A node's type is unknown until checking reaches it, with the exception of runes and
booleans, whose types are fixed; and checking may leave it unknown, because not everything that is
called is a function.

Parentheses leave no trace in the tree. They leave none in the spans either, so the span of
`(a) + (b)` runs from `a` to `b`.
-/

namespace FrontEnd

/-- What an expression carries at every node. -/
structure Note where
  /-- Where the expression stands. -/
  span : Span
  /-- The type it has been given. -/
  type? : Option Ty
deriving DecidableEq, Repr, Inhabited

/-- The note of an expression of which only the place is known. -/
def Note.untyped (span : Span) : Note :=
  { span, type? := none }

/-- The operators between two operands. -/
inductive BinOp where
  | add
  | sub
  | mul
  | div
  | mod
  | bitAnd
  | bitOr
  | bitXor
deriving DecidableEq, Repr

namespace BinOp

/-- The sign of an operator. -/
def sign : BinOp → Sign
  | .add => .plus
  | .sub => .minus
  | .mul => .star
  | .div => .slash
  | .mod => .percent
  | .bitAnd => .amp
  | .bitOr => .pipe
  | .bitXor => .caret

/-- Every operator once. -/
def all : List BinOp :=
  [.add, .sub, .mul, .div, .mod, .bitAnd, .bitOr, .bitXor]

/-- The operator that a kind of token writes between two operands. -/
def ofKind? (kind : Token.Kind) : Option BinOp :=
  all.find? fun op ↦ kind = .sign op.sign

/-- How an operator is written. -/
def text (op : BinOp) : String :=
  op.sign.char.toString

/-- How tightly an operator binds. -/
def level : BinOp → Nat
  | .bitOr => 1
  | .bitXor => 2
  | .bitAnd => 3
  | .add => 4
  | .sub => 4
  | .mul => 5
  | .div => 5
  | .mod => 5

/-- Whether an operator works on numbers of any type; the others work on integers only. -/
def isArithmetic : BinOp → Bool
  | .add => true
  | .sub => true
  | .mul => true
  | .div => true
  | .mod => true
  | .bitAnd => false
  | .bitOr => false
  | .bitXor => false

end BinOp

/-- The operators in front of one operand. -/
inductive UnaryOp where
  /-- The negative of a number. -/
  | negate
  /-- The address of a place. -/
  | address
  /-- The place behind a pointer. -/
  | deref
deriving DecidableEq, Repr

namespace UnaryOp

/-- The sign of an operator. -/
def sign : UnaryOp → Sign
  | .negate => .minus
  | .address => .amp
  | .deref => .star

/-- Every operator once. -/
def all : List UnaryOp :=
  [.negate, .address, .deref]

/-- The operator that a kind of token writes in front of an operand. -/
def ofKind? (kind : Token.Kind) : Option UnaryOp :=
  all.find? fun op ↦ kind = .sign op.sign

end UnaryOp

/-- The value of a literal. -/
inductive Constant where
  /-- An integer below `2 ^ 64`. -/
  | int (value : Nat)
  /-- A finite double. -/
  | float (value : Binary64)
  /-- A character. -/
  | rune (value : Char)
  /-- A truth value. -/
  | bool (value : Bool)
  /-- The literal that fits every type. -/
  | null
deriving DecidableEq, Repr

namespace Constant

/-- The type that a literal has by itself. -/
def type? : Constant → Option Ty
  | .rune _ => some .i32
  | .bool _ => some .bool
  | _ => none

/-- The limit on the type of a literal that has none by itself. -/
def kind? : Constant → Option HoleKind
  | .int _ => some .number
  | .float _ => some .float
  | .null => some .null
  | _ => none

end Constant

/-- Expressions. -/
inductive Expr where
  /-- A literal. -/
  | constant (note : Note) (value : Constant)
  /-- A name, with the symbol it was found to mean. -/
  | ident (note : Note) (name : String) (symbol : Option Nat)
  /-- An operator in front of its operand. -/
  | unary (note : Note) (op : UnaryOp) (operand : Expr)
  /-- An operator between its operands. -/
  | binary (note : Note) (op : BinOp) (lhs rhs : Expr)
  /-- A call. -/
  | call (note : Note) (callee : Expr) (args : List Expr)
  /-- A cast to a type that the program names. -/
  | cast (note : Note) (operand : Expr) (dest : Ty)
deriving Repr

namespace Expr

/-- The note at the root of an expression. -/
def note : Expr → Note
  | constant n _ => n
  | ident n _ _ => n
  | unary n _ _ => n
  | binary n _ _ _ => n
  | call n _ _ => n
  | cast n _ _ => n

/-- Where an expression stands. -/
def span (e : Expr) : Span :=
  e.note.span

/-- The type that an expression has been given. -/
def type? (e : Expr) : Option Ty :=
  e.note.type?

/-- The same expression with another type at its root. -/
def withType (a? : Option Ty) : Expr → Expr
  | constant n v => constant { n with type? := a? } v
  | ident n name symbol => ident { n with type? := a? } name symbol
  | unary n op e => unary { n with type? := a? } op e
  | binary n op l r => binary { n with type? := a? } op l r
  | call n f args => call { n with type? := a? } f args
  | cast n e dest => cast { n with type? := a? } e dest

mutual

/-- The expression with `f` applied to every note in it. -/
def mapNotes (f : Note → Note) : Expr → Expr
  | constant n v => constant (f n) v
  | ident n name symbol => ident (f n) name symbol
  | unary n op e => unary (f n) op (e.mapNotes f)
  | binary n op l r => binary (f n) op (l.mapNotes f) (r.mapNotes f)
  | call n g args => call (f n) (g.mapNotes f) (mapNotesAll f args)
  | cast n e dest => cast (f n) (e.mapNotes f) dest

/-- The expressions of a list with `f` applied to every note in them. -/
def mapNotesAll (f : Note → Note) : List Expr → List Expr
  | [] => []
  | e :: es => e.mapNotes f :: mapNotesAll f es

end

/-- The expression with `f` applied to every type in it. -/
def mapTypes (f : Ty → Ty) (e : Expr) : Expr :=
  e.mapNotes fun n ↦ { n with type? := n.type?.map f }

end Expr

end FrontEnd
