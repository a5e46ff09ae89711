import FrontEnd.Check.Expr

/-!
# Checking definitions

Tags come first, then the body. A function has a frame for its parameters and one more for its body.
A local variable is bound only when its initial value has been checked, so the value cannot mention
it; without a type label it takes the type of its value. A global variable has to have a label.
-/

namespace FrontEnd

namespace Walk

/-- Checks an initial value against the type label of its variable. -/
def labelled [Table.RootChoice] (w : Walk) (globals : Bindings) (label : Ty) (init : Expr) :
    Expr × Walk :=
  let (init, w) := expr globals init w
  (w.require label init).checkpoint init

/-- Gives a local variable the type of its initial value. -/
def adopt (w : Walk) (symbol : Nat) (init : Expr) : Walk :=
  w.andThen fun w ↦
    match init.type? with
    | some a => w.setSymbolType symbol a
    | none =>
      w.record (.cannotInfer ((w.symbols[symbol]?.map (·.name)).getD "") init.span)

/-- Checks a local variable and binds it. -/
def letVar [Table.RootChoice] (w : Walk) (globals : Bindings) (v : Variable) :
    Variable × Walk :=
  if w.halted then (v, w)
  else
    match w.symbolType? v.symbol, v.init? with
    | some label, some init =>
      let (init, w) := w.labelled globals label init
      ({ v with init? := some init }, w.declare v.symbol)
    | some _, none => (v, w.declare v.symbol)
    | none, some init =>
      let (init, w) := expr globals init w
      let (init, w) := w.checkpoint init
      -- behind the checkpoint, so that the type of the variable holds no hole
      ({ v with init? := some init }, (w.adopt v.symbol init).declare v.symbol)
    | none, none =>
      match w.symbols[v.symbol]? with
      | some s => (v, w.record (.cannotInfer s.name s.span))
      | none => (v, w)

/-- Checks a statement. -/
def stmt [Table.RootChoice] (w : Walk) (globals : Bindings) : Stmt → Stmt × Walk
  | .letVar v =>
    let (v, w) := w.letVar globals v
    (.letVar v, w)
  | .expr e =>
    let (e, w) := expr globals e w
    let (e, w) := w.checkpoint e
    (.expr e, w)

/-- Checks statements in order. -/
def stmts [Table.RootChoice] (w : Walk) (globals : Bindings) : List Stmt → List Stmt × Walk
  | [] => ([], w)
  | s :: ss =>
    let (s, w) := w.stmt globals s
    let (ss, w) := w.stmts globals ss
    (s :: ss, w)

/-- Checks a block in a frame of its own. -/
def block [Table.RootChoice] (w : Walk) (globals : Bindings) (b : Block) : Block × Walk :=
  let (stmts, w) := w.push.stmts globals b.stmts
  ({ b with stmts }, w.pop)

/-- Checks the body of a function, if it has one. -/
def body [Table.RootChoice] (w : Walk) (globals : Bindings) : Option Block → Option Block × Walk
  | none => (none, w)
  | some b =>
    let (b, w) := w.block globals b
    (some b, w)

/-- Checks a global variable. -/
def global [Table.RootChoice] (w : Walk) (globals : Bindings) (v : Variable) :
    Variable × Walk :=
  if w.halted then (v, w)
  else
    match w.symbolType? v.symbol, v.init? with
    | none, _ => (v, w.record (.missingLabel ((w.symbols[v.symbol]?.map (·.span)).getD default)))
    | some label, some init =>
      let (init, w) := w.labelled globals label init
      ({ v with init? := some init }, w)
    | some _, none => (v, w)

/-- Checks what a definition introduces. -/
def content [Table.RootChoice] (w : Walk) (globals : Bindings) :
    Definition.Content → Definition.Content × Walk
  | .function symbol params result body? =>
    let w := params.foldl declare w.push
    let (body?, w) := w.body globals body?
    (.function symbol params result body?, w.pop)
  | .global v =>
    let (v, w) := w.global globals v
    (.global v, w)

/-- Checks the tags of a definition. -/
def tags (w : Walk) (d : Definition) : Walk :=
  match d.metadata.error? d.tagged with
  | none => w
  | some (error, span) => w.record (.metadata error span)

/-- Checks a definition. If its tags are wrong, the rest of it is left as it is. -/
def definition [Table.RootChoice] (w : Walk) (globals : Bindings) (d : Definition) :
    Definition × Walk :=
  let w := (w.enter d.file).tags d
  if w.halted then (d, w.leave)
  else
    let (content, w) := w.content globals d.content
    ({ d with content }, w.leave)

end Walk

end FrontEnd
