import FrontEnd.Program.Basic
import FrontEnd.Proofs.Table.Operations

/-!
# The typing rules

What it means for the types in a tree to be right, said of the tree alone: no table, no order in
which the nodes were visited, no state. Each rule relates the type of a **node** to the types of its
parts and of the symbol it names (`Expr.Obeys`), and an expression is well typed if all its nodes
obey their rules. A node may have no type, but only for a reason that its parts give
(`Expr.Excused`).

One rule needs more than types. An integer can be cast to a pointer only while it is undecided, so
the rule for casts asks whether the operand takes its type from a literal. This is a question about
the shape of the operand, and `literalDepth?` answers it.
-/

namespace FrontEnd

/-- Whether an operator **applies** to operands of a type: the arithmetic ones to numbers, the ones
on bits to integers. -/
def BinOp.appliesTo : BinOp → Ty → Bool
  | .add, a => a.isNumeric
  | .sub, a => a.isNumeric
  | .mul, a => a.isNumeric
  | .div, a => a.isNumeric
  | .mod, a => a.isNumeric
  | .bitAnd, a => a.isInt
  | .bitOr, a => a.isInt
  | .bitXor, a => a.isInt

/-- No operator with two operands applies to anything but numbers. -/
theorem BinOp.isNumeric_of_appliesTo {op : BinOp} {a : Ty} (h : op.appliesTo a = true) :
    a.isNumeric = true := by
  have hint : a.isInt = true → a.isNumeric = true := fun h ↦ by rw [Ty.isNumeric, h, Bool.true_or]
  cases op with
  | bitAnd => exact hint h
  | bitOr => exact hint h
  | bitXor => exact hint h
  | _ => exact h

/-- Whether a literal has **no type by itself**. -/
def Constant.isUntyped : Constant → Bool
  | .int _ => true
  | .float _ => true
  | .null => true
  | .rune _ => false
  | .bool _ => false

theorem Constant.isSome_kind? (c : Constant) : c.kind?.isSome = c.isUntyped := by
  cases c <;> rfl

/-- How many pointers stand around the hole of a type that is not concrete. -/
def Ty.holeDepth? : Ty → Option Nat
  | .hole _ => some 0
  | .pointer _ a => a.holeDepth?.map (· + 1)
  | _ => none

/-- A type without holes is not made of one. -/
theorem Ty.holeDepth?_of_isConcrete {a : Ty} (h : a.isConcrete = true) : a.holeDepth? = none := by
  induction a using Ty.induct with
  | pointer c a ih => rw [holeDepth?, ih h, Option.map_none]
  | hole i => exact nomatch h
  | _ => rfl

namespace Expr

/-! ### Nodes -/

mutual

/-- The nodes of an expression, each with all that is below it. -/
def nodes : Expr → List Expr
  | constant n v => [constant n v]
  | ident n name symbol => [ident n name symbol]
  | unary n op e => unary n op e :: e.nodes
  | binary n op l r => binary n op l r :: (l.nodes ++ r.nodes)
  | call n f args => call n f args :: (f.nodes ++ nodesAll args)
  | cast n e dest => cast n e dest :: e.nodes

/-- The nodes of the expressions of a list. -/
def nodesAll : List Expr → List Expr
  | [] => []
  | e :: es => e.nodes ++ nodesAll es

end

/-- The type that a cast names has no hole. -/
def namesConcrete : Expr → Prop
  | cast _ _ dest => dest.isConcrete = true
  | _ => True

/-- An expression is **formed** if the types that it names have no holes. -/
def Formed (e : Expr) : Prop :=
  ∀ x ∈ e.nodes, x.namesConcrete

@[simp] theorem nodesAll_nil : nodesAll [] = [] := rfl

@[simp] theorem nodesAll_cons (e : Expr) (es : List Expr) :
    nodesAll (e :: es) = e.nodes ++ nodesAll es := rfl

theorem nodesAll_append (es es' : List Expr) :
    nodesAll (es ++ es') = nodesAll es ++ nodesAll es' := by
  induction es with
  | nil => rfl
  | cons e es ih => rw [List.cons_append, nodesAll_cons, ih, nodesAll_cons, List.append_assoc]

theorem mem_nodesAll {x : Expr} {es : List Expr} : x ∈ nodesAll es ↔ ∃ e ∈ es, x ∈ e.nodes := by
  induction es with
  | nil => simp
  | cons e es ih => simp [ih]

/-- The parts of an expression, from left to right. -/
def parts : Expr → List Expr
  | constant _ _ => []
  | ident _ _ _ => []
  | unary _ _ e => [e]
  | binary _ _ l r => [l, r]
  | call _ f args => f :: args
  | cast _ e _ => [e]

/-- The nodes of a tree are its root and the nodes of its parts. -/
theorem nodes_eq (e : Expr) : e.nodes = e :: nodesAll e.parts := by
  cases e <;> simp [nodes, parts]

mutual

/-- **Induction on the parts** of an expression. -/
theorem partsInduction {P : Expr → Prop} (step : ∀ e, (∀ x ∈ e.parts, P x) → P e) : ∀ e, P e
  | constant _ _ => step _ (List.forall_mem_nil _)
  | ident _ _ _ => step _ (List.forall_mem_nil _)
  | unary _ _ e => step _ (List.forall_mem_singleton.2 (partsInduction step e))
  | binary _ _ l r => step _ (List.forall_mem_cons.2
    ⟨partsInduction step l, List.forall_mem_singleton.2 (partsInduction step r)⟩)
  | call _ f args => step _ (List.forall_mem_cons.2
    ⟨partsInduction step f, partsInductionAll step args⟩)
  | cast _ e _ => step _ (List.forall_mem_singleton.2 (partsInduction step e))

theorem partsInductionAll {P : Expr → Prop} (step : ∀ e, (∀ x ∈ e.parts, P x) → P e) :
    ∀ es : List Expr, ∀ e ∈ es, P e
  | [] => List.forall_mem_nil _
  | e :: es => List.forall_mem_cons.2 ⟨partsInduction step e, partsInductionAll step es⟩

end

theorem nodes_subset_of_mem_parts {e x : Expr} (hx : x ∈ e.parts) : x.nodes ⊆ e.nodes := by
  intro y hy
  rw [nodes_eq]
  exact List.mem_cons_of_mem _ (mem_nodesAll.2 ⟨x, hx, hy⟩)

/-- What holds of the root and of all nodes of the parts holds of all nodes. -/
theorem forall_mem_nodes {P : Expr → Prop} {e : Expr} (he : P e)
    (hparts : ∀ y ∈ e.parts, ∀ x ∈ y.nodes, P x) : ∀ x ∈ e.nodes, P x := by
  rw [nodes_eq]
  refine List.forall_mem_cons.2 ⟨he, fun x hx ↦ ?_⟩
  obtain ⟨y, hy, hx⟩ := mem_nodesAll.1 hx
  exact hparts y hy x hx

theorem mem_nodes_self (e : Expr) : e ∈ e.nodes :=
  nodes_eq e ▸ List.mem_cons_self

/-- What holds of the nodes of an expression holds of the nodes of its parts. -/
theorem forall_mem_nodesAll_parts {P : Expr → Prop} {e : Expr} (h : ∀ x ∈ e.nodes, P x) :
    ∀ x ∈ nodesAll e.parts, P x :=
  (List.forall_mem_cons.1 (nodes_eq e ▸ h)).2

/-- Two expressions are **the same at the top**: the second one is the first one with other parts.
Names are left out, for they have no parts. -/
inductive SameTop : Expr → Expr → Prop
  | constant (n : Note) (v : Constant) : SameTop (constant n v) (constant n v)
  | unary (n : Note) (op : UnaryOp) (e e' : Expr) : SameTop (unary n op e) (unary n op e')
  | binary (n : Note) (op : BinOp) (l l' r r' : Expr) :
    SameTop (binary n op l r) (binary n op l' r')
  | call (n : Note) (f f' : Expr) (args args' : List Expr) :
    SameTop (call n f args) (call n f' args')
  | cast (n : Note) (e e' : Expr) (dest : Ty) : SameTop (cast n e dest) (cast n e' dest)

namespace SameTop

variable {e e' : Expr}

theorem note_eq (h : SameTop e e') : e'.note = e.note := by
  cases h <;> rfl

/-- With the same parts it is the same node. -/
theorem eq_of_parts (h : SameTop e e') (hparts : e'.parts = e.parts) : e' = e := by
  cases h <;> simp_all [parts]

end SameTop

/-! ### Types in a tree -/

@[simp] theorem type?_withType (a? : Option Ty) (e : Expr) : (e.withType a?).type? = a? := by
  cases e <;> rfl

theorem mapNotesAll_eq_map (f : Note → Note) (es : List Expr) :
    mapNotesAll f es = es.map (mapNotes f) := by
  induction es with
  | nil => rfl
  | cons e es ih => rw [mapNotesAll, ih, List.map_cons]

theorem note_mapNotes (f : Note → Note) (e : Expr) : (e.mapNotes f).note = f e.note := by
  cases e <;> rfl

@[simp] theorem type?_mapTypes (f : Ty → Ty) (e : Expr) :
    (e.mapTypes f).type? = e.type?.map f := by
  rw [type?, mapTypes, note_mapNotes]
  rfl

mutual

/-- Changing the notes of a tree changes those of its nodes one by one. -/
theorem nodes_mapNotes (f : Note → Note) :
    ∀ e : Expr, (e.mapNotes f).nodes = e.nodes.map (mapNotes f)
  | constant n v => rfl
  | ident n name symbol => rfl
  | unary n op e => by
    rw [mapNotes, nodes, nodes_mapNotes f e, nodes, List.map_cons, mapNotes]
  | binary n op l r => by
    rw [mapNotes, nodes, nodes_mapNotes f l, nodes_mapNotes f r, nodes, List.map_cons,
      List.map_append, mapNotes]
  | call n g args => by
    rw [mapNotes, nodes, nodes_mapNotes f g, nodesAll_mapNotesAll f args, nodes, List.map_cons,
      List.map_append, mapNotes]
  | cast n e dest => by
    rw [mapNotes, nodes, nodes_mapNotes f e, nodes, List.map_cons, mapNotes]

theorem nodesAll_mapNotesAll (f : Note → Note) :
    ∀ es : List Expr, nodesAll (mapNotesAll f es) = (nodesAll es).map (mapNotes f)
  | [] => rfl
  | e :: es => by
    rw [mapNotesAll, nodesAll_cons, nodes_mapNotes f e, nodesAll_mapNotesAll f es, nodesAll_cons,
      List.map_append]

end

/-- The nodes of a tree with other types are the nodes of the tree, with other types. -/
theorem nodes_mapTypes (f : Ty → Ty) (e : Expr) :
    (e.mapTypes f).nodes = e.nodes.map (mapTypes f) :=
  nodes_mapNotes _ e

@[simp] theorem mapTypes_unary (f : Ty → Ty) (n : Note) (op : UnaryOp) (e : Expr) :
    (unary n op e).mapTypes f = unary { n with type? := n.type?.map f } op (e.mapTypes f) := rfl

@[simp] theorem mapTypes_binary (f : Ty → Ty) (n : Note) (op : BinOp) (l r : Expr) :
    (binary n op l r).mapTypes f =
      binary { n with type? := n.type?.map f } op (l.mapTypes f) (r.mapTypes f) := rfl

@[simp] theorem mapTypes_call (f : Ty → Ty) (n : Note) (g : Expr) (args : List Expr) :
    (call n g args).mapTypes f =
      call { n with type? := n.type?.map f } (g.mapTypes f) (args.map (mapTypes f)) := by
  rw [mapTypes, mapNotes, mapNotesAll_eq_map]
  rfl

@[simp] theorem mapTypes_cast (f : Ty → Ty) (n : Note) (e : Expr) (dest : Ty) :
    (cast n e dest).mapTypes f = cast { n with type? := n.type?.map f } (e.mapTypes f) dest := rfl

/-! ### Rules -/

/-- If an expression takes its type from a literal that has none by itself, the number of pointers
that stand around the type of that literal. -/
def literalDepth? : Expr → Option Nat
  | constant _ c => if c.isUntyped then some 0 else none
  | unary _ .negate e => e.literalDepth?
  | unary _ .address e => e.literalDepth?.map (· + 1)
  | unary _ .deref e => e.literalDepth?.bind fun n ↦ if n = 0 then none else some (n - 1)
  | binary _ _ l _ => l.literalDepth?
  | _ => none

/-- Notes play no part in whether an expression takes its type from a literal. -/
theorem literalDepth?_mapNotes (f : Note → Note) :
    ∀ e : Expr, (e.mapNotes f).literalDepth? = e.literalDepth?
  | constant n v => rfl
  | ident n name symbol => rfl
  | unary n .negate e => by rw [mapNotes, literalDepth?, literalDepth?_mapNotes f e, literalDepth?]
  | unary n .address e => by rw [mapNotes, literalDepth?, literalDepth?_mapNotes f e, literalDepth?]
  | unary n .deref e => by rw [mapNotes, literalDepth?, literalDepth?_mapNotes f e, literalDepth?]
  | binary n op l r => by rw [mapNotes, literalDepth?, literalDepth?_mapNotes f l, literalDepth?]
  | call n g args => rfl
  | cast n e dest => rfl

@[simp] theorem literalDepth?_mapTypes (f : Ty → Ty) (e : Expr) :
    (e.mapTypes f).literalDepth? = e.literalDepth? :=
  literalDepth?_mapNotes _ e

/-- The type that a literal may be given. -/
def constantRule (a? : Option Ty) : Constant → Prop
  | .int _ => ∃ a, a? = some a ∧ a.isNumeric = true
  | .float _ => ∃ a, a? = some a ∧ a.isFloat = true
  | .rune _ => a? = some .i32
  | .bool _ => a? = some .bool
  | .null => ∃ a, a? = some a

/-- The type that an operator in front of an operand may be given. -/
def unaryRule (a? : Option Ty) (operand? : Option Ty) : UnaryOp → Prop
  | .negate => a? = operand? ∧ ∀ a, operand? = some a → a.isNumeric = true
  | .address => a? = operand?.map (.pointer false)
  | .deref => ∃ c a, operand? = some (.pointer c a) ∧ a? = some a

/-- **The typing rules**: what the type of a node has to do with the types of its parts.

* An integer literal has a number type, a float literal a float type, a rune `i32`, a boolean
  `bool`.
* A name is bound to a symbol and has the type of the symbol.
* A negation has the type of its operand, which is a number. The address of an expression is a
  pointer to its type that is not const, and a dereference has the type that its operand points at.
* Two operands with types have the same type, and one that the operator applies to. The operator has
  the type of the left one.
* What calls a function has an argument for every parameter, and the type of the result. Arguments
  with types have the types of the parameters.
* A cast has the type it names. An operand with a type can be cast to it (`Ty.castable`), or it is
  an integer that takes its type from a literal, and is cast to a pointer. -/
def Obeys (symbols : List Symbol) : Expr → Prop
  | constant n v => constantRule n.type? v
  | ident n _ symbol => ∃ i s, symbol = some i ∧ symbols[i]? = some s ∧ n.type? = s.type?
  | unary n op e => unaryRule n.type? e.type? op
  | binary n op l r =>
    n.type? = l.type? ∧ ∀ a b, l.type? = some a → r.type? = some b →
      a = b ∧ op.appliesTo a = true
  | call n f args =>
    ∀ ps r, f.type? = some (.func ps r) → n.type? = some r ∧
      List.Forall₂ (fun p arg ↦ ∀ a, Expr.type? arg = some a → a = p) ps args
  | cast n e dest =>
    n.type? = some dest ∧ ∀ a, e.type? = some a → a.castable dest = true ∨
      (a.isInt = true ∧ dest.isPointer = true ∧ e.literalDepth? = some 0)

/-- The reasons for which a node may have **no type**: a name whose symbol has none, a negation or
an address of what has none, an operator whose left operand has none, and a call of what is not a
function. -/
def Excused (symbols : List Symbol) : Expr → Prop
  | ident _ _ symbol => ∃ i s, symbol = some i ∧ symbols[i]? = some s ∧ s.type? = none
  | unary _ .negate e => e.type? = none
  | unary _ .address e => e.type? = none
  | binary _ _ l _ => l.type? = none
  | call _ f _ => ∀ ps r, f.type? ≠ some (.func ps r)
  | _ => False

end Expr

/-! ### Statements and definitions -/

namespace Stmt

/-- The expression of a statement. -/
def expr? : Stmt → Option Expr
  | letVar v => v.init?
  | expr e => some e

/-- The variable that a statement introduces. -/
def declared? : Stmt → Option Variable
  | letVar v => some v
  | expr _ => none

end Stmt

/-- The variable and its initial value, if both have a type, have **the same type**. -/
def Variable.Matches (symbols : List Symbol) (v : Variable) : Prop :=
  ∀ e a, v.init? = some e → e.type? = some a → ∃ s, symbols[v.symbol]? = some s ∧ s.type? = some a

namespace Definition

/-- The statements of a definition. -/
def stmts (d : Definition) : List Stmt :=
  match d.content with
  | .function _ _ _ (some body) => body.stmts
  | _ => []

/-- The variables that a definition introduces: local ones, or a global one. -/
def declared (d : Definition) : List Variable :=
  match d.content with
  | .function _ _ _ _ => d.stmts.filterMap Stmt.declared?
  | .global v => [v]

/-- The expressions of a definition. -/
def exprs (d : Definition) : List Expr :=
  match d.content with
  | .function _ _ _ _ => d.stmts.filterMap Stmt.expr?
  | .global v => v.init?.toList

theorem locals_eq (d : Definition) :
    d.locals = d.stmts.filterMap fun s ↦ s.declared?.map (·.symbol) := by
  rw [locals, stmts]
  cases d.content with
  | function symbol params result body? =>
    cases body? with
    | none => rfl
    | some body =>
      refine List.filterMap_congr fun s _ ↦ ?_
      cases s <;> rfl
  | global v => rfl

/-- The symbols that a definition introduces. -/
def owned (x : Definition) : List Nat :=
  x.symbol :: (x.params ++ x.locals)

theorem symbol_mem_owned (x : Definition) : x.symbol ∈ x.owned :=
  List.mem_cons_self

theorem params_subset_owned (x : Definition) : x.params ⊆ x.owned :=
  fun _ hi ↦ List.mem_cons_of_mem _ (List.mem_append_left _ hi)

theorem locals_subset_owned (x : Definition) : x.locals ⊆ x.owned :=
  fun _ hi ↦ List.mem_cons_of_mem _ (List.mem_append_right _ hi)

/-- A definition owns its own symbol, its parameters and its local variables. -/
theorem forall_mem_owned {x : Definition} {P : Nat → Prop} :
    (∀ i ∈ x.owned, P i) ↔ P x.symbol ∧ (∀ i ∈ x.params, P i) ∧ ∀ i ∈ x.locals, P i := by
  rw [owned, List.forall_mem_cons, List.forall_mem_append]

section Stmts

variable {d : Definition} {s : Stmt}

/-- Only a function has statements. -/
theorem exists_function_of_mem_stmts (hs : s ∈ d.stmts) :
    ∃ symbol params result body?, d.content = .function symbol params result body? := by
  cases hcontent : d.content with
  | function symbol params result body? => exact ⟨symbol, params, result, body?, rfl⟩
  | global v =>
    rw [stmts, hcontent] at hs
    exact absurd hs List.not_mem_nil

/-- The expressions of a definition are those of its statements. -/
theorem mem_exprs_of_mem_stmts (hs : s ∈ d.stmts) {e : Expr} (he : s.expr? = some e) :
    e ∈ d.exprs := by
  obtain ⟨symbol, params, result, body?, hcontent⟩ := exists_function_of_mem_stmts hs
  rw [exprs, hcontent]
  exact List.mem_filterMap.2 ⟨s, hs, he⟩

theorem mem_declared_of_mem_stmts (hs : s ∈ d.stmts) {v : Variable} (hv : s.declared? = some v) :
    v ∈ d.declared := by
  obtain ⟨symbol, params, result, body?, hcontent⟩ := exists_function_of_mem_stmts hs
  rw [declared, hcontent]
  exact List.mem_filterMap.2 ⟨s, hs, hv⟩

theorem mem_locals_of_mem_stmts (hs : s ∈ d.stmts) {v : Variable} (hv : s.declared? = some v) :
    v.symbol ∈ d.locals := by
  rw [locals_eq]
  exact List.mem_filterMap.2 ⟨s, hs, by rw [hv]; rfl⟩

end Stmts

end Definition

end FrontEnd
