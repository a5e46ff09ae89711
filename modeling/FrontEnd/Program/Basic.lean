import FrontEnd.Expr.Basic
import FrontEnd.Metadata.Rules
import FrontEnd.Scope
import FrontEnd.Source.File

/-!
# Programs

A **program** is what is checked together: some files under one module name, the definitions read
from them, and the symbols of everything that has a name in them. Files, definitions and symbols are
numbered from zero in the order in which they came, and refer to each other by number.

Global names are bound while definitions are read, so a definition may use one that comes later, in
the same file or in another. Locals have symbols too, but are bound only while their function is
checked.
-/

namespace FrontEnd

/-- What a symbol names. -/
inductive SymbolKind where
  /-- A variable, global or local, or a parameter. -/
  | value
  /-- A function. -/
  | function
deriving DecidableEq, Repr

/-- Something with a name. -/
structure Symbol where
  /-- The name. -/
  name : String
  /-- The file in which it is named. -/
  file : Nat
  /-- Where it is named. -/
  span : Span
  /-- What it names. -/
  kind : SymbolKind
  /-- Its type, as far as it is known. -/
  type? : Option Ty
  /-- Whether it may be written to. -/
  isMutable : Bool
deriving DecidableEq, Repr

/-- A variable that is introduced by name, with or without an initial value. Its type label, if
there is one, is the type of its symbol. -/
structure Variable where
  /-- Where it stands. -/
  span : Span
  /-- Its symbol. -/
  symbol : Nat
  /-- Its initial value. -/
  init? : Option Expr
deriving Repr

/-- A statement. -/
inductive Stmt where
  /-- A local variable. -/
  | letVar (v : Variable)
  /-- An expression whose value is dropped. -/
  | expr (e : Expr)
deriving Repr

/-- A sequence of statements between braces. -/
structure Block where
  /-- Where it stands. -/
  span : Span
  /-- The statements. -/
  stmts : List Stmt
deriving Repr

namespace Definition

/-- What a definition introduces. -/
inductive Content where
  /-- A function; without a body it is only declared. -/
  | function (symbol : Nat) (params : List Nat) (result : Ty) (body? : Option Block)
  /-- A global variable. -/
  | global (v : Variable)
deriving Repr

end Definition

/-- A definition. -/
structure Definition where
  /-- The file it is in. -/
  file : Nat
  /-- Where it stands; tags are not counted in. -/
  span : Span
  /-- Its tags. -/
  metadata : Metadata
  /-- What it introduces. -/
  content : Definition.Content
deriving Repr

namespace Definition

/-- The symbol that a definition introduces. -/
def symbol (d : Definition) : Nat :=
  match d.content with
  | .function symbol _ _ _ => symbol
  | .global v => v.symbol

/-- What the tags of a definition are put on. -/
def tagged (d : Definition) : Tagged :=
  match d.content with
  | .function _ _ _ body? => .function body?.isSome
  | .global v => .global v.init?.isSome

/-- The symbols of the local variables of a definition, in the order of the source. -/
def locals (d : Definition) : List Nat :=
  match d.content with
  | .function _ _ _ (some body) =>
    body.stmts.filterMap fun
      | .letVar v => some v.symbol
      | .expr _ => none
  | _ => []

/-- The symbols of the parameters of a definition. -/
def params (d : Definition) : List Nat :=
  match d.content with
  | .function _ params _ _ => params
  | .global _ => []

end Definition

/-- What is checked together. -/
structure Program where
  /-- The name of the module. -/
  name : String
  /-- The files that were read. -/
  files : List SourceFile
  /-- The definitions that were kept. -/
  definitions : List Definition
  /-- The symbols. -/
  symbols : List Symbol
  /-- The global names. -/
  globals : Bindings
deriving Repr

namespace Program

/-- The program of a name, without files. -/
def empty (name : String) : Program :=
  { name, files := [], definitions := [], symbols := [], globals := [] }

/-- The path under which a file is shown. -/
def pathOf (p : Program) (file : Nat) : String :=
  (p.files[file]?.getD default).path

end Program

namespace Expr

/-- Whether an expression is a place that may be written to: what a pointer that is not const points
at, or a symbol that may be written to. -/
def isMutable (symbols : List Symbol) : Expr → Bool
  | .unary _ .deref e =>
    match e.type? with
    | some (.pointer isConst _) => !isConst
    | _ => false
  | .ident _ _ (some symbol) => (symbols[symbol]?.map (·.isMutable)).getD false
  | _ => false

end Expr

end FrontEnd
