import FrontEnd.Check.Program
import FrontEnd.Proofs.Check.Run
import Mathlib.Logic.Relation

/-!
# The turns of checking an expression

Checking an expression goes through many rules, at any depth of the recursion, but there are only
two things that a rule does to the state of the walk: it brings the table and the list of literals
that wait up to date, or it records an error. `Walk.Turn` says so, and says that only a walk that is
still running takes a turn. Everything up to the checkpoint of a statement is a row of turns
(`Walk.Turns`), so what is to be shown of it has to be shown of the two.

The words of an error come from three sources: names in the program, types as they are described at
that moment, and fixed texts. `CheckError.MadeOf` tells them apart. Its place is that of a node, or
was that of one when a literal was put on the list. So it is known beforehand what the errors of an
expression can say and where they can point (`Sources`). A name that is taken is no business of
expressions.
-/

namespace FrontEnd

/-- The words of an error are names out of a set and the texts of types. -/
inductive CheckError.MadeOf (N : Set String) : CheckError → Prop
  | undefinedName {name : String} (h : name ∈ N) (span : Span) : MadeOf N (.undefinedName name span)
  | repeatedName {name : String} (h : name ∈ N) (span : Span) : MadeOf N (.repeatedName name span)
  | mismatch (t : Table) (a b : Ty) (span : Span) :
    MadeOf N (.mismatch (t.describe a) (t.describe b) span)
  | notConvertible (t : Table) (a b : Ty) (span : Span) :
    MadeOf N (.notConvertible (t.describe a) (t.describe b) span)
  | binaryOperator (op : BinOp) (t : Table) (a b : Ty) (span : Span) :
    MadeOf N (.binaryOperator op (t.describe a) (t.describe b) span)
  | negation (t : Table) (a : Ty) (span : Span) : MadeOf N (.negation (t.describe a) span)
  | notPointer (span : Span) : MadeOf N (.notPointer span)
  | invalidCast (t : Table) (a dest : Ty) (span : Span) :
    MadeOf N (.invalidCast (t.describe a) dest.text span)
  | arity (expected found : Nat) (span : Span) : MadeOf N (.arity expected found span)
  | openLiteral (t : Table) (a : Ty) (span : Span) : MadeOf N (.cannotInfer (t.describe a) span)
  | openVariable {name : String} (h : name ∈ N) (span : Span) : MadeOf N (.cannotInfer name span)
  | missingLabel (span : Span) : MadeOf N (.missingLabel span)

/-- The names in an expression are in a set. -/
def Expr.NamesIn (N : Set String) (e : Expr) : Prop :=
  ∀ n name symbol, Expr.ident n name symbol ∈ e.nodes → name ∈ N

/-- Whether an error says that a name is taken. -/
def CheckError.isRepeatedName : CheckError → Bool
  | repeatedName _ _ => true
  | _ => false

/-- **What errors are made from**: the names that they may mention, and the places at which they may
point. -/
structure Sources where
  names : Set String
  places : Set Span

namespace Sources

/-- All names and all places. -/
def all : Sources :=
  ⟨Set.univ, Set.univ⟩

/-- An error is made from the sources. -/
structure Makes (D : Sources) (err : CheckError) : Prop where
  made : err.MadeOf D.names
  place : err.span ∈ D.places

/-- The sources **supply** an expression if its names and the places of its nodes are among them. -/
structure Supplies (D : Sources) (e : Expr) : Prop where
  names : e.NamesIn D.names
  places : ∀ x ∈ e.nodes, x.span ∈ D.places

theorem supplies_all (e : Expr) : all.Supplies e :=
  ⟨fun _ _ _ _ ↦ trivial, fun _ _ ↦ trivial⟩

namespace Supplies

variable {D : Sources} {e : Expr}

theorem span (h : D.Supplies e) : e.span ∈ D.places :=
  h.places e e.mem_nodes_self

/-- What supplies an expression supplies its parts. -/
theorem part {x : Expr} (h : D.Supplies e) (hx : x ∈ e.parts) : D.Supplies x where
  names n name symbol hmem := h.names n name symbol (Expr.nodes_subset_of_mem_parts hx hmem)
  places y hy := h.places y (Expr.nodes_subset_of_mem_parts hx hy)

end Supplies

end Sources

namespace Walk

open Table Relation

/-- The literals that wait stand at places of the sources. -/
def WaitsIn (D : Sources) (w : Walk) : Prop :=
  ∀ l ∈ w.waiting, l.span ∈ D.places

theorem waitsIn_all (w : Walk) : w.WaitsIn .all :=
  fun _ _ ↦ trivial

/-- **A turn** of a walk that is running: nothing changes but what is known of holes, or one more
error is recorded. -/
inductive Turn (D : Sources) (w : Walk) : Walk → Prop
  /-- The table and the literals that wait are brought up to date. -/
  | table (running : w.halted = false) (t : Table) {waiting : List Waiting}
    (waits : ∀ l ∈ waiting, l ∈ w.waiting ∨ l.span ∈ D.places) :
    Turn D w { w with table := t, waiting := waiting }
  /-- An error is recorded, other than that a name is taken. -/
  | record {e : CheckError} (running : w.halted = false) (made : D.Makes e)
    (apart : e.isRepeatedName = false) : Turn D w (w.record e)

/-- A row of turns. -/
def Turns (D : Sources) : Walk → Walk → Prop :=
  ReflTransGen (Turn D)

variable {D : Sources} {w v x : Walk} {globals : Bindings}

namespace Turns

theorem refl (w : Walk) : Turns D w w :=
  ReflTransGen.refl

theorem trans (h : Turns D w v) (h' : Turns D v x) : Turns D w x :=
  ReflTransGen.trans h h'

theorem record (hw : w.halted = false) {e : CheckError} (hmade : e.MadeOf D.names)
    (hplace : e.span ∈ D.places) (hapart : e.isRepeatedName = false) : Turns D w (w.record e) :=
  ReflTransGen.single (.record hw ⟨hmade, hplace⟩ hapart)

theorem withTable (hw : w.halted = false) (t : Table) : Turns D w (w.withTable t) :=
  ReflTransGen.single (.table hw t fun _ ↦ .inl)

/-- An error behind a question to the table. -/
theorem refuse (hw : w.halted = false) (t : Table) {e : CheckError} (hmade : e.MadeOf D.names)
    (hplace : e.span ∈ D.places) (hapart : e.isRepeatedName = false) :
    Turns D w ((w.withTable t).record e) :=
  (withTable hw t).trans (record (w := w.withTable t) hw hmade hplace hapart)

/-- A step that is taken only while the walk is running is a row of turns if it is one then. -/
theorem andThen {step : Walk → Walk} (h : w.halted = false → Turns D w (step w)) :
    Turns D w (w.andThen step) := by
  rw [Walk.andThen]
  cases hw : w.halted with
  | true => exact .refl w
  | false => exact h hw

/-- **What turns leave alone**: symbols, names in scope and the file. Errors are only added. -/
theorem frame (h : Turns D w v) : v.symbols = w.symbols ∧ v.scope = w.scope ∧ v.file = w.file ∧
    ∃ fs, v.findings = w.findings ++ fs ∧ ∀ f ∈ fs, f.error.isRepeatedName = false := by
  induction h with
  | refl => exact ⟨rfl, rfl, rfl, [], (List.append_nil _).symm, List.forall_mem_nil _⟩
  | tail _ hturn ih =>
    obtain ⟨hsymbols, hscope, hfile, fs, hfs, hapart⟩ := ih
    cases hturn with
    | table => exact ⟨hsymbols, hscope, hfile, fs, hfs, hapart⟩
    | @record e _ _ he =>
      refine ⟨hsymbols, hscope, hfile, fs ++ [⟨w.file, e⟩], ?_, List.forall_mem_append.2
        ⟨hapart, List.forall_mem_singleton.2 he⟩⟩
      rw [Walk.record, hfs, hfile, List.append_assoc]

/-- Turns only add errors. -/
theorem prefix_findings (h : Turns D w v) : w.findings <+: v.findings := by
  obtain ⟨-, -, -, fs, hfs, -⟩ := h.frame
  exact ⟨fs, hfs.symm⟩

/-- The literals that are put on the list stand at places of the sources. -/
theorem waitsIn (h : Turns D w v) (hw : w.WaitsIn D) : v.WaitsIn D := by
  induction h with
  | refl => exact hw
  | tail _ hturn ih =>
    cases hturn with
    | table _ _ hwaits => exact fun l hl ↦ (hwaits l hl).elim (ih l) id
    | record => exact ih

end Turns

/-! ### Rules -/

/-- A literal is put on the list of those that wait, or has a type of its own. -/
theorem turns_constantType (hw : w.halted = false) {span : Span} (hspan : span ∈ D.places)
    (c : Constant) : Turns D w (w.constantType span c).2 := by
  rw [constantType]
  split
  · exact .refl w
  · refine ReflTransGen.single (.table hw _ fun l hl ↦ (List.mem_append.1 hl).imp id fun hl ↦ ?_)
    obtain rfl := List.mem_singleton.1 hl
    exact hspan

theorem turns_unaryType (hw : w.halted = false) {e : Expr} (he : e.span ∈ D.places)
    (op : UnaryOp) : Turns D w (w.unaryType op e).2 := by
  cases op with
  | negate =>
    show Turns D w (w.negateType e).2
    rw [negateType]
    split
    · exact .refl w
    · split
      · exact .withTable hw _
      · exact .refuse hw _ (.negation _ _ _) he rfl
  | address => exact .refl w
  | deref =>
    show Turns D w (w.derefType e).2
    rw [derefType]
    split
    · exact .refl w
    · exact .record hw (.notPointer _) he rfl

/-- A node takes the turns of its rule. -/
theorem turns_conclude {e : Expr} {rule : Walk → Option Ty × Walk}
    (h : w.halted = false → Turns D w (rule w).2) : Turns D w (w.conclude e rule).2 := by
  rw [conclude]
  cases hw : w.halted with
  | true => exact .refl w
  | false =>
    rw [if_neg (by simp)]
    dsimp only
    split
    · exact h hw
    · exact h hw

theorem turns_ident (w : Walk) {n : Note} (hspan : n.span ∈ D.places) {name : String}
    (hname : name ∈ D.names) (symbol : Option Nat) :
    Turns D w (w.ident globals n name symbol).2 := by
  rw [ident]
  cases hw : w.halted with
  | true => exact .refl w
  | false =>
    rw [if_neg (by simp)]
    split
    · exact .record hw (.undefinedName hname _) hspan rfl
    · exact .refl w

/-- An error at a checkpoint points to a literal that waits, so its place was known when the literal
was put on the list. -/
theorem turns_checkpoint (hwaits : w.WaitsIn D) (e : Expr) : Turns D w (w.checkpoint e).2 := by
  rw [checkpoint]
  split
  · exact .refl w
  · rename_i hw
    have hw : w.halted = false := Bool.eq_false_of_not_eq_true hw
    have hclear : ∀ t, Turns D w { w with table := t, waiting := [] } :=
      fun t ↦ ReflTransGen.single (.table hw _ fun _ hl ↦ absurd hl List.not_mem_nil)
    dsimp only
    split
    · rename_i l hl
      refine (hclear w.table.settleAll).trans (.record ?_ (.openLiteral _ _ _) ?_ rfl)
      · exact hw
      · exact hwaits l (List.mem_of_find?_eq_some hl)
    · exact hclear .empty

section Agreement

variable [RootChoice]

theorem turns_binaryType (hw : w.halted = false) {span : Span} (hspan : span ∈ D.places)
    (op : BinOp) (lhs rhs : Expr) : Turns D w (w.binaryType span op lhs rhs).2 := by
  rw [binaryType]
  split
  · split
    · exact .refuse hw _ (.mismatch _ _ _ _) hspan rfl
    · split
      · exact .withTable hw _
      · exact .refuse hw _ (.binaryOperator _ _ _ _ _) hspan rfl
  · exact .refl w

theorem turns_require (w : Walk) (expected : Ty) {e : Expr} (he : e.span ∈ D.places) :
    Turns D w (w.require expected e) := by
  refine .andThen fun hw ↦ ?_
  split
  · exact .refl w
  · split
    · exact .withTable hw _
    · exact .refuse hw _ (.notConvertible _ _ _ _) he rfl

/-- Arguments are held to their parameters one by one, up to the first that cannot be. -/
theorem turns_requireAll (ps : List Ty) (es : List Expr) (w : Walk)
    (hes : ∀ e ∈ es, e.span ∈ D.places) : Turns D w (w.requireAll ps es) := by
  induction ps generalizing es w with
  | nil =>
    rw [requireAll_nil_left]
    exact .refl w
  | cons p ps ih =>
    cases es with
    | nil =>
      rw [requireAll_nil_right]
      exact .refl w
    | cons e es =>
      obtain ⟨he, hes⟩ := List.forall_mem_cons.1 hes
      rw [requireAll]
      exact (turns_require w p he).trans (ih es _ hes)

theorem turns_callType (hw : w.halted = false) {span : Span} (hspan : span ∈ D.places)
    (callee : Expr) {args : List Expr} (hargs : ∀ e ∈ args, e.span ∈ D.places) :
    Turns D w (w.callType span callee args).2 := by
  rw [callType]
  split
  · split
    · exact turns_requireAll _ args w hargs
    · exact .record hw (.arity _ _ _) hspan rfl
  · exact .refl w

theorem turns_castType (hw : w.halted = false) {e : Expr} (he : e.span ∈ D.places) (dest : Ty) :
    Turns D w (w.castType e dest).2 := by
  rw [castType]
  split
  · exact .refl w
  · split
    · exact .withTable hw _
    · exact .refuse hw _ (.invalidCast _ _ _ _) he rfl

/-- The rule for a node takes turns, and points at the node or at one of its parts. -/
theorem turns_nodeType (hw : w.halted = false) {e : Expr} (he : e.span ∈ D.places)
    (hparts : ∀ x ∈ e.parts, x.span ∈ D.places) : Turns D w (w.nodeType e).2 := by
  cases e with
  | constant n c => exact turns_constantType hw he c
  | ident n name symbol => exact .refl w
  | unary n op e => exact turns_unaryType hw (hparts e List.mem_cons_self) op
  | binary n op l r => exact turns_binaryType hw he op l r
  | call n f args => exact turns_callType hw he f fun x hx ↦ hparts x (List.mem_cons_of_mem _ hx)
  | cast n e dest => exact turns_castType hw (hparts e List.mem_cons_self) dest

/-! ### Trees -/

omit [RootChoice] in
theorem span_conclude (w : Walk) (e : Expr) (rule : Walk → Option Ty × Walk) :
    (w.conclude e rule).1.span = e.span := by
  rw [conclude]
  split
  · rfl
  · dsimp only
    split
    · rfl
    · cases e <;> rfl

variable (globals) in
/-- Expressions stay where they are. -/
theorem span_expr (e : Expr) (w : Walk) : (expr globals e w).1.span = e.span := by
  refine expr_of_rules globals (P := fun e w ↦ (expr globals e w).1.span = e.span) ?_ ?_ e w
  · intro n name symbol w
    rw [expr_ident, ident]
    split
    · rfl
    · split <;> rfl
  · intro e e' w htop hparts _
    rw [expr_eq_conclude htop hparts, span_conclude]
    exact congrArg Note.span htop.note_eq

variable (globals) in
/-- **Checking an expression is a row of turns.** -/
theorem turns_expr {e : Expr} (he : D.Supplies e) (w : Walk) : Turns D w (expr globals e w).2 := by
  refine expr_of_rules globals (P := fun e w ↦ D.Supplies e → Turns D w (expr globals e w).2)
    ?_ ?_ e w he
  · intro n name symbol w he
    rw [expr_ident]
    exact turns_ident w he.span (he.names n name symbol List.mem_cons_self) symbol
  · intro e e' w htop hparts heach he
    have hturns : Turns D w (exprs globals e.parts w).2 :=
      (heach.mono fun x hx _ h ↦ h (he.part hx)).trans .refl .trans
    have hspans : ∀ x ∈ e'.parts, x.span ∈ D.places := by
      have hmap : e'.parts.map Expr.span = e.parts.map Expr.span := by
        rw [← hparts]
        exact Each.map_eq (.of_forall_mem fun x _ ↦ span_expr globals x)
      rw [← List.forall_mem_map (f := Expr.span), hmap, List.forall_mem_map]
      exact fun x hx ↦ (he.part hx).span
    have hspan : e'.span = e.span := congrArg Note.span htop.note_eq
    rw [expr_eq_conclude htop hparts]
    exact hturns.trans (turns_conclude fun hw ↦ turns_nodeType hw (hspan ▸ he.span) hspans)

variable (globals) in
theorem turns_exprs {es : List Expr} (hes : ∀ e ∈ es, D.Supplies e) (w : Walk) :
    Turns D w (exprs globals es w).2 :=
  (Each.of_forall_mem fun e he ↦ turns_expr globals (hes e he)).trans .refl .trans

/-- An expression on its own, up to its checkpoint. -/
def unlabelled (w : Walk) (globals : Bindings) (e : Expr) : Expr × Walk :=
  (expr globals e w).2.checkpoint (expr globals e w).1

variable (globals) in
/-- Up to its checkpoint an expression takes turns only, and so does the checkpoint. -/
theorem turns_unlabelled (hw : w.WaitsIn D) {e : Expr} (he : D.Supplies e) :
    Turns D w (w.unlabelled globals e).2 :=
  have hexpr := turns_expr globals he w
  hexpr.trans (turns_checkpoint (hexpr.waitsIn hw) _)

variable (globals) in
theorem turns_labelled (hw : w.WaitsIn D) {e : Expr} (he : D.Supplies e) (label : Ty) :
    Turns D w (w.labelled globals label e).2 :=
  have hrequire := (turns_expr globals he w).trans
    (turns_require _ label ((span_expr globals e w).symm ▸ he.span))
  hrequire.trans (turns_checkpoint (hrequire.waitsIn hw) _)

end Agreement

end Walk

end FrontEnd
