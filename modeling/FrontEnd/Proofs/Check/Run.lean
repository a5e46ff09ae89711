import FrontEnd.Proofs.Check.Trees

/-!
# The walk over a tree

A fatal error leaves everything behind it as it is, so a walk that is still running at the end was
running all the time (`Walk.running_of_exprs`), and every rule on the way came back with a type. It
follows, node by node, that a walk over an expression that comes to its end has checked it
(`Walk.checked_expr`).

The recursion over trees is opened here and nowhere else. What is to be shown of all expressions is
shown of names, and of every other node if it holds of its parts (`Walk.expr_of_rules`); what holds
of the parts, each in the state that it is checked in, is `Walk.Each`.
-/

namespace FrontEnd

open Table

namespace Walk

variable {w : Walk} {globals : Bindings}

/-! ### Steps that were not halted -/

/-- A node that comes to its end was reached by a walk that was running, and its rule did not halt
it; it has the type that the rule gave. -/
theorem conclude_of_running {e : Expr} {rule : Walk → Option Ty × Walk}
    (h : (w.conclude e rule).2.halted = false) : w.halted = false ∧ (rule w).2.halted = false ∧
      w.conclude e rule = (e.withType (rule w).1, (rule w).2) := by
  rw [conclude] at h ⊢
  cases hw : w.halted with
  | true =>
    rw [if_pos hw] at h
    exact nomatch hw.symm.trans h
  | false =>
    rw [if_neg (by simp [hw])] at h ⊢
    dsimp only at h ⊢
    cases hv : (rule w).2.halted with
    | true =>
      rw [if_pos hv] at h
      exact nomatch hv.symm.trans h
    | false => exact ⟨rfl, rfl, by rw [if_neg (by simp)]⟩

/-- The state behind a node is that behind its rule, also if the rule has halted the walk. -/
theorem conclude_snd {e : Expr} {rule : Walk → Option Ty × Walk} (hw : w.halted = false) :
    (w.conclude e rule).2 = (rule w).2 := by
  rw [conclude, if_neg (by simp [hw])]
  exact apply_ite Prod.snd _ _ _ |>.trans (ite_self _)

theorem conclude_of_halted {e : Expr} {rule : Walk → Option Ty × Walk} (h : w.halted = true) :
    w.conclude e rule = (e, w) :=
  if_pos h

/-- A name that does not halt the walk is bound, and changes nothing but its own node. -/
theorem ident_of_running {n : Note} {name : String} {symbol : Option Nat}
    (h : (w.ident globals n name symbol).2.halted = false) :
    ∃ i, w.scope.lookup globals name = some i ∧ w.ident globals n name symbol =
      (.ident { n with type? := w.symbolType? i } name (some i), w) := by
  rw [Walk.ident] at h ⊢
  cases hw : w.halted with
  | true =>
    rw [if_pos hw] at h
    exact nomatch hw.symm.trans h
  | false =>
    rw [if_neg (by simp [hw])] at h ⊢
    cases hi : w.scope.lookup globals name with
    | none =>
      rw [hi] at h
      exact nomatch (halted_record w rfl).symm.trans h
    | some i => exact ⟨i, rfl, rfl⟩

theorem checkpoint_of_halted (h : w.halted = true) (e : Expr) : w.checkpoint e = (e, w) :=
  if_pos h

/-- A checkpoint that is passed was reached by a walk that was running. -/
theorem running_of_checkpoint {e : Expr} (h : (w.checkpoint e).2.halted = false) :
    w.halted = false :=
  running_of_stays (fun hw ↦ by rw [checkpoint_of_halted hw]) h

section Run

variable [RootChoice]

theorem running_of_require {a : Ty} {e : Expr} (h : (w.require a e).halted = false) :
    w.halted = false :=
  running_of_stays (fun hw ↦ require_of_halted hw a e) h

/-! ### The recursion -/

theorem expr_constant (n : Note) (c : Constant) (w : Walk) : expr globals (.constant n c) w =
    w.conclude (.constant n c) fun w ↦ w.constantType n.span c := by
  rw [expr]

theorem expr_ident (n : Note) (name : String) (symbol : Option Nat) (w : Walk) :
    expr globals (.ident n name symbol) w = w.ident globals n name symbol := by
  rw [expr]

/-- The recursion at an operator with one operand: the operand first, and then the rule, which sees
the operand as it has become. -/
theorem expr_unary (n : Note) (op : UnaryOp) (e : Expr) (w : Walk) :
    expr globals (.unary n op e) w =
      (expr globals e w).2.conclude (.unary n op (expr globals e w).1)
        fun v ↦ v.unaryType op (expr globals e w).1 := by
  rw [expr]

/-- At an operator with two operands the left one comes first. -/
theorem expr_binary (n : Note) (op : BinOp) (l r : Expr) (w : Walk) :
    expr globals (.binary n op l r) w =
      (expr globals r (expr globals l w).2).2.conclude
        (.binary n op (expr globals l w).1 (expr globals r (expr globals l w).2).1)
        fun v ↦ v.binaryType n.span op (expr globals l w).1
          (expr globals r (expr globals l w).2).1 := by
  rw [expr]

/-- At a call the function comes before its arguments. -/
theorem expr_call (n : Note) (f : Expr) (args : List Expr) (w : Walk) :
    expr globals (.call n f args) w =
      (exprs globals args (expr globals f w).2).2.conclude
        (.call n (expr globals f w).1 (exprs globals args (expr globals f w).2).1)
        fun v ↦ v.callType n.span (expr globals f w).1
          (exprs globals args (expr globals f w).2).1 := by
  rw [expr]

theorem expr_cast (n : Note) (e : Expr) (dest : Ty) (w : Walk) :
    expr globals (.cast n e dest) w =
      (expr globals e w).2.conclude (.cast n (expr globals e w).1 dest)
        fun v ↦ v.castType (expr globals e w).1 dest := by
  rw [expr]

theorem exprs_nil (w : Walk) : exprs globals [] w = ([], w) := by
  rw [exprs]

/-- A list is checked from the left, and each expression in the state that the one before it has
left behind. -/
theorem exprs_cons (e : Expr) (es : List Expr) (w : Walk) : exprs globals (e :: es) w =
    ((expr globals e w).1 :: (exprs globals es (expr globals e w).2).1,
      (exprs globals es (expr globals e w).2).2) := by
  rw [exprs]

/-- **One step of the recursion**, for all nodes that are not names: first the parts are checked,
then the rule for the node is applied to what has become of them. -/
theorem expr_eq_conclude {e e' : Expr} (htop : e.SameTop e')
    (hparts : (exprs globals e.parts w).1 = e'.parts) :
    expr globals e w =
      (exprs globals e.parts w).2.conclude e' fun v ↦ v.nodeType e' := by
  cases htop with
  | constant n c =>
    rw [expr_constant, Expr.parts, exprs_nil]
    rfl
  | unary n op e e' =>
    rw [Expr.parts, exprs_cons, exprs_nil] at hparts ⊢
    obtain ⟨rfl, -⟩ := List.cons.inj hparts
    exact expr_unary n op e w
  | binary n op l l' r r' =>
    rw [Expr.parts, exprs_cons, exprs_cons, exprs_nil] at hparts ⊢
    obtain ⟨rfl, hrest⟩ := List.cons.inj hparts
    obtain ⟨rfl, -⟩ := List.cons.inj hrest
    exact expr_binary n op l r w
  | call n f f' args args' =>
    rw [Expr.parts, exprs_cons] at hparts ⊢
    obtain ⟨rfl, rfl⟩ := List.cons.inj hparts
    exact expr_call n f args w
  | cast n e e' dest =>
    rw [Expr.parts, exprs_cons, exprs_nil] at hparts ⊢
    obtain ⟨rfl, -⟩ := List.cons.inj hparts
    exact expr_cast n e dest w

/-- Something holds **of each** expression of a list, in the state that the ones before it have left
behind. -/
inductive Each (globals : Bindings) (P : Expr → Walk → Prop) : List Expr → Walk → Prop
  | nil (w : Walk) : Each globals P [] w
  | cons {w : Walk} {e : Expr} {es : List Expr} (head : P e w)
    (rest : Each globals P es (expr globals e w).2) : Each globals P (e :: es) w

namespace Each

variable {P Q : Expr → Walk → Prop} {es : List Expr}

/-- What holds of expressions in all states holds of each of them. -/
theorem of_forall_mem (h : ∀ e ∈ es, ∀ w, P e w) : Each globals P es w := by
  induction es generalizing w with
  | nil => exact .nil w
  | cons e es ih =>
    obtain ⟨he, hes⟩ := List.forall_mem_cons.1 h
    exact .cons (he w) (ih hes)

/-- What is known of each expression can be weakened. -/
theorem mono (h : Each globals P es w) (hPQ : ∀ e ∈ es, ∀ w, P e w → Q e w) :
    Each globals Q es w := by
  induction h with
  | nil w => exact .nil w
  | cons hhead _ ih =>
    obtain ⟨he, hes⟩ := List.forall_mem_cons.1 hPQ
    exact .cons (he _ hhead) (ih hes)

/-- A relation that holds of each step on the way holds of the way. -/
theorem trans {R : Walk → Walk → Prop} (hrefl : ∀ w, R w w)
    (htrans : ∀ {w v x}, R w v → R v x → R w x)
    (h : Each globals (fun e w ↦ R w (expr globals e w).2) es w) :
    R w (exprs globals es w).2 := by
  induction h with
  | nil w =>
    rw [exprs_nil]
    exact hrefl w
  | cons hhead _ ih =>
    rw [exprs_cons]
    exact htrans hhead ih

/-- What is kept of each expression is kept of the list. -/
theorem map_eq {α : Type} {f : Expr → α}
    (h : Each globals (fun e w ↦ f (expr globals e w).1 = f e) es w) :
    (exprs globals es w).1.map f = es.map f := by
  induction h with
  | nil w => rw [exprs_nil]
  | cons hhead _ ih => rw [exprs_cons, List.map_cons, List.map_cons, hhead, ih]

end Each

variable (globals) in
/-- **What the rules keep, the run keeps.** What holds of names, and of every other node if it holds
of each of its parts in the state in which that is checked, holds of all expressions. -/
theorem expr_of_rules {P : Expr → Walk → Prop}
    (ident : ∀ n name symbol w, P (.ident n name symbol) w)
    (node : ∀ {e e' : Expr} {w : Walk}, e.SameTop e' → (exprs globals e.parts w).1 = e'.parts →
      Each globals P e.parts w → P e w) (e : Expr) (w : Walk) : P e w := by
  induction e using Expr.partsInduction generalizing w with
  | step e ih =>
    -- the induction is over the parts of a node, so that arguments need no case of their own
    have heach : Each globals P e.parts w := .of_forall_mem ih
    cases e with
    | constant n c => exact node (.constant n c) (by rw [Expr.parts, exprs_nil]) heach
    | ident n name symbol => exact ident n name symbol w
    | unary n op e =>
      refine node (.unary n op e (expr globals e w).1) ?_ heach
      rw [Expr.parts, exprs_cons, exprs_nil, Expr.parts]
    | binary n op l r =>
      refine node (.binary n op l (expr globals l w).1 r
        (expr globals r (expr globals l w).2).1) ?_ heach
      rw [Expr.parts, exprs_cons, exprs_cons, exprs_nil, Expr.parts]
    | call n f args =>
      refine node (.call n f (expr globals f w).1 args
        (exprs globals args (expr globals f w).2).1) ?_ heach
      rw [Expr.parts, exprs_cons, Expr.parts]
    | cast n e dest =>
      refine node (.cast n e (expr globals e w).1 dest) ?_ heach
      rw [Expr.parts, exprs_cons, exprs_nil, Expr.parts]

/-! ### Walks that have been halted -/

/-- What is left alone one by one is left alone. -/
theorem Each.exprs_eq {es : List Expr}
    (h : Each globals (fun e w ↦ w.halted = true → expr globals e w = (e, w)) es w)
    (hw : w.halted = true) : exprs globals es w = (es, w) := by
  induction h with
  | nil w => exact exprs_nil w
  | cons hhead _ ih =>
    rw [hhead hw] at ih
    rw [exprs_cons, hhead hw, ih hw]

/-- A walk that has been halted is left alone. -/
theorem expr_of_halted (h : w.halted = true) (e : Expr) : expr globals e w = (e, w) := by
  refine expr_of_rules globals (P := fun e w ↦ w.halted = true → expr globals e w = (e, w)) ?_ ?_
    e w h
  · intro n name symbol w hw
    rw [expr_ident, Walk.ident, if_pos hw]
  · intro e e' w htop hparts heach hw
    have hexprs := heach.exprs_eq hw
    -- the parts have been left alone, so the node that is put together again is the one there was
    rw [hexprs] at hparts
    rw [expr_eq_conclude htop (by rw [hexprs, hparts]), hexprs, conclude_of_halted hw,
      htop.eq_of_parts hparts.symm]

/-- So is one in front of a list of expressions. -/
theorem exprs_of_halted (h : w.halted = true) (es : List Expr) : exprs globals es w = (es, w) := by
  induction es with
  | nil => exact exprs_nil w
  | cons e es ih => rw [exprs_cons, expr_of_halted h, ih]

/-- Expressions that are checked to their end were started by a walk that was running. -/
theorem running_of_exprs {es : List Expr} (h : (exprs globals es w).2.halted = false) :
    w.halted = false :=
  running_of_stays (fun hw ↦ by rw [exprs_of_halted hw]) h

/-! ### Walks that come to their end -/

/-- What is checked one by one has been checked. -/
theorem Each.checkedEach {final : List Symbol} {es : List Expr}
    (h : Each globals (fun e w ↦ w.Ready → e.Formed → (expr globals e w).2.halted = false →
      ∃ S, Checked globals final w [(expr globals e w).1] S (expr globals e w).2) es w)
    (hw : w.Ready) (hformed : ∀ x ∈ Expr.nodesAll es, x.namesConcrete)
    (hrun : (exprs globals es w).2.halted = false) :
    CheckedEach globals final w (exprs globals es w).1 (exprs globals es w).2 := by
  induction h with
  | nil w =>
    rw [exprs_nil]
    exact .nil hw.tidy
  | cons hhead _ ih =>
    rw [exprs_cons] at hrun ⊢
    obtain ⟨he, hes⟩ := List.forall_mem_append.1 hformed
    obtain ⟨S, hS⟩ := hhead hw he (running_of_exprs hrun)
    exact .cons hS (ih (hS.toAdvances.ready hw) hes hrun)

/-- **What checking an expression does**, unless the definition is halted. -/
theorem checked_expr (final : List Symbol) (e : Expr) (w : Walk) (hw : w.Ready) (he : e.Formed)
    (hrun : (expr globals e w).2.halted = false) :
    ∃ S, Checked globals final w [(expr globals e w).1] S (expr globals e w).2 := by
  refine expr_of_rules globals (P := fun e w ↦ w.Ready → e.Formed →
    (expr globals e w).2.halted = false →
      ∃ S, Checked globals final w [(expr globals e w).1] S (expr globals e w).2) ?_ ?_
    e w hw he hrun
  · intro n name symbol w hw _ hrun
    rw [expr_ident] at hrun ⊢
    obtain ⟨i, hi, heq⟩ := ident_of_running hrun
    rw [heq]
    exact ⟨∅, .ident hw n name hi⟩
  · intro e e' w htop hparts heach hw he hrun
    rw [expr_eq_conclude htop hparts] at hrun ⊢
    obtain ⟨hv, hx, heq⟩ := conclude_of_running hrun
    have hchecked := heach.checkedEach hw (Expr.forall_mem_nodesAll_parts he) hv
    rw [hparts] at hchecked
    rw [heq]
    exact hchecked.node htop (he _ e.mem_nodes_self) hx

/-- **What checking expressions does**, one behind another, unless the definition is halted. -/
theorem checkedEach_exprs (final : List Symbol) (es : List Expr) (w : Walk) (hw : w.Ready)
    (hformed : ∀ x ∈ Expr.nodesAll es, x.namesConcrete)
    (hrun : (exprs globals es w).2.halted = false) :
    CheckedEach globals final w (exprs globals es w).1 (exprs globals es w).2 :=
  Each.checkedEach (.of_forall_mem fun e _ w ↦ checked_expr final e w) hw hformed hrun

end Run

end Walk

end FrontEnd
