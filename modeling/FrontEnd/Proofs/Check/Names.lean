import FrontEnd.Proofs.Check.Values
import Mathlib.Data.List.Forall2

/-!
# What names are found to mean

Checking an expression looks its names up, from left to right, in the scope in which it started:
expressions bind nothing. `Expr.names` reads the names off a tree together with what they were found
to mean, and `Walk.named_expr` says what becomes of each of them. A walk that is running has found
all of them; one that has been halted leaves those that it did not come to as they were.
-/

namespace FrontEnd

namespace Expr

/-- The name that a node is, with the symbol that it was found to mean. -/
def name? : Expr → Option (String × Option Nat)
  | ident _ name symbol => some (name, symbol)
  | _ => none

/-- The names in expressions, from left to right. -/
def namesAll (es : List Expr) : List (String × Option Nat) :=
  (nodesAll es).filterMap name?

/-- **The names in an expression**, from left to right. -/
def names (e : Expr) : List (String × Option Nat) :=
  e.nodes.filterMap name?

@[simp] theorem namesAll_nil : namesAll [] = [] := rfl

@[simp] theorem namesAll_cons (e : Expr) (es : List Expr) :
    namesAll (e :: es) = e.names ++ namesAll es :=
  List.filterMap_append

/-- The names of a node that is no name are those of its parts. -/
theorem names_eq_of_name? {e : Expr} (h : e.name? = none) : e.names = namesAll e.parts := by
  rw [names, nodes_eq, List.filterMap_cons_none h, namesAll]

@[simp] theorem names_ident (n : Note) (name : String) (symbol : Option Nat) :
    (ident n name symbol).names = [(name, symbol)] := rfl

theorem SameTop.name?_eq {e e' : Expr} (h : e.SameTop e') : e.name? = none ∧ e'.name? = none := by
  cases h <;> exact ⟨rfl, rfl⟩

@[simp] theorem names_withType (a? : Option Ty) (e : Expr) : (e.withType a?).names = e.names := by
  cases e <;> rfl

@[simp] theorem names_mapTypes (f : Ty → Ty) (e : Expr) : (e.mapTypes f).names = e.names := by
  rw [names, nodes_mapTypes, List.filterMap_map]
  refine List.filterMap_congr fun y _ ↦ ?_
  cases y <;> rfl

/-- The names in what has been read mean nothing yet. -/
theorem Unresolved.snd_eq_none {e : Expr} (h : e.Unresolved) : ∀ x ∈ e.names, x.2 = none := by
  intro x hx
  obtain ⟨y, hy, hyx⟩ := List.mem_filterMap.1 hx
  have hnone := h y hy
  cases y with
  | ident n name symbol =>
    obtain rfl := Option.some.inj hyx
    exact hnone
  | _ => cases hyx

end Expr

namespace Walk

open Table

variable {w : Walk} {globals : Bindings}

/-- **What becomes of a name** that is looked up in a scope: it is found, or the walk has been
halted and nothing becomes of it. -/
def Named (scope : Scope) (globals : Bindings) (halted : Bool) (x y : String × Option Nat) : Prop :=
  y.1 = x.1 ∧ (y.2.isSome = true ∧ y.2 = scope.lookup globals x.1 ∨ halted = true ∧ y.2 = x.2)

/-- A row of names, and what becomes of them. -/
def NamedAll (scope : Scope) (globals : Bindings) (halted : Bool) :
    List (String × Option Nat) → List (String × Option Nat) → Prop :=
  List.Forall₂ (Named scope globals halted)

namespace NamedAll

variable {scope : Scope} {halted halted' : Bool} {xs ys xs' ys' : List (String × Option Nat)}

/-- A walk may be halted later. -/
theorem mono (h : NamedAll scope globals halted xs ys) (hhalted : halted = true → halted' = true) :
    NamedAll scope globals halted' xs ys :=
  List.Forall₂.imp (fun _ _ hxy ↦ ⟨hxy.1, hxy.2.imp id fun hsame ↦ ⟨hhalted hsame.1, hsame.2⟩⟩) h

theorem append (h : NamedAll scope globals halted xs ys)
    (h' : NamedAll scope globals halted xs' ys') :
    NamedAll scope globals halted (xs ++ xs') (ys ++ ys') :=
  List.rel_append h h'

/-- **A walk that is running has found all names.** -/
theorem eq_map (h : NamedAll scope globals false xs ys) :
    ys = xs.map (fun x ↦ (x.1, scope.lookup globals x.1)) ∧ ∀ y ∈ ys, y.2.isSome = true := by
  induction h with
  | nil => exact ⟨rfl, List.forall_mem_nil _⟩
  | @cons x y xs ys hxy _ ih =>
    obtain ⟨hname, hfound | ⟨hhalted, -⟩⟩ := hxy
    · refine ⟨?_, List.forall_mem_cons.2 ⟨hfound.1, ih.2⟩⟩
      rw [List.map_cons, ← ih.1, ← hfound.2, ← hname]
    · cases hhalted

/-- Where no name meant anything before, a name means what was found in the scope. -/
theorem found_or_none (h : NamedAll scope globals halted xs ys) (hxs : ∀ x ∈ xs, x.2 = none) :
    ys.map (·.1) = xs.map (·.1) ∧ ∀ y ∈ ys,
      y.2.isSome = true ∧ y.2 = scope.lookup globals y.1 ∨ halted = true ∧ y.2 = none := by
  induction h with
  | nil => exact ⟨rfl, List.forall_mem_nil _⟩
  | @cons x y xs ys hxy _ ih =>
    obtain ⟨hx, hxs⟩ := List.forall_mem_cons.1 hxs
    obtain ⟨hnames, hfound⟩ := ih hxs
    obtain ⟨hname, hy⟩ := hxy
    rw [List.map_cons, List.map_cons, hnames, hname]
    refine ⟨rfl, List.forall_mem_cons.2 ⟨?_, hfound⟩⟩
    rw [hname]
    exact hy.imp id fun hsame ↦ ⟨hsame.1, hsame.2.trans hx⟩

/-- A walk that has been halted leaves all names as they are. -/
theorem of_halted (scope : Scope) (globals : Bindings) (xs : List (String × Option Nat)) :
    NamedAll scope globals true xs xs :=
  List.forall₂_same.2 fun _ _ ↦ ⟨rfl, .inr ⟨rfl, rfl⟩⟩

end NamedAll

theorem names_conclude (w : Walk) (e : Expr) (rule : Walk → Option Ty × Walk) :
    (w.conclude e rule).1.names = e.names := by
  rw [conclude]
  split
  · rfl
  · dsimp only
    split
    · rfl
    · exact e.names_withType _

theorem names_checkpoint (w : Walk) (e : Expr) : (w.checkpoint e).1.names = e.names := by
  rw [checkpoint]
  split
  · rfl
  · dsimp only
    split
    · rfl
    · exact e.names_mapTypes _

/-- A name is found, or that halts the walk. -/
theorem named_ident (w : Walk) (globals : Bindings) (n : Note) (name : String)
    (symbol : Option Nat) : NamedAll w.scope globals (w.ident globals n name symbol).2.halted
      [(name, symbol)] (w.ident globals n name symbol).1.names := by
  rw [ident]
  cases hw : w.halted with
  | true => exact .cons ⟨rfl, .inr ⟨hw, rfl⟩⟩ .nil
  | false =>
    rw [if_neg (by simp)]
    cases hfound : w.scope.lookup globals name with
    | none => exact .cons ⟨rfl, .inr ⟨halted_record w rfl, rfl⟩⟩ .nil
    | some i => exact .cons ⟨rfl, .inl ⟨rfl, hfound.symm⟩⟩ .nil

section Agreement

variable [RootChoice]

theorem scope_expr (e : Expr) (w : Walk) : (expr globals e w).2.scope = w.scope :=
  (turns_expr globals (Sources.supplies_all e) w).frame.2.1

/-- Each expression looks its names up in the scope in which the first one started. -/
theorem Each.named {es : List Expr} (h : Each globals (fun e w ↦ NamedAll w.scope globals
      (expr globals e w).2.halted e.names (expr globals e w).1.names) es w) :
    NamedAll w.scope globals (exprs globals es w).2.halted (Expr.namesAll es)
      (Expr.namesAll (exprs globals es w).1) := by
  induction h with
  | nil w =>
    rw [exprs_nil, Expr.namesAll_nil]
    exact .nil
  | cons hhead _ ih =>
    rw [scope_expr] at ih
    rw [exprs_cons, Expr.namesAll_cons, Expr.namesAll_cons]
    -- behind an expression that halted the walk, the others keep their names as they were
    refine (hhead.mono fun h ↦ ?_).append ih
    rw [exprs_of_halted h]
    exact h

/-- **The names in an expression** are looked up in the scope in which checking it starts. -/
theorem named_expr (e : Expr) (w : Walk) :
    NamedAll w.scope globals (expr globals e w).2.halted e.names (expr globals e w).1.names := by
  refine expr_of_rules globals (P := fun e w ↦ NamedAll w.scope globals
    (expr globals e w).2.halted e.names (expr globals e w).1.names) ?_ ?_ e w
  · intro n name symbol w
    rw [expr_ident, Expr.names_ident]
    exact named_ident w globals n name symbol
  · intro e e' w htop hparts heach
    rw [expr_eq_conclude htop hparts, names_conclude, Expr.names_eq_of_name? htop.name?_eq.1,
      Expr.names_eq_of_name? htop.name?_eq.2, ← hparts]
    refine heach.named.mono fun h ↦ ?_
    rw [conclude_of_halted h]
    exact h

/-- **The names in a value** are looked up in the scope in which checking it starts. -/
theorem Value.named (x : Value) (globals : Bindings) :
    NamedAll x.walk.scope globals (x.passed globals).2.halted x.expr.names
      (x.passed globals).1.names := by
  have hnames : (x.checked globals).1 = (Walk.expr globals x.expr x.walk).1 := by
    rw [checked]
    cases x.label? <;> rfl
  rw [passed, names_checkpoint, hnames]
  refine (named_expr x.expr x.walk).mono fun h ↦ ?_
  have hchecked : (x.checked globals).2.halted = true := by
    rw [checked]
    cases x.label? with
    | none => exact h
    | some label =>
      dsimp only
      rw [require_of_halted h]
      exact h
  rw [checkpoint_of_halted hchecked]
  exact hchecked

end Agreement

end Walk

end FrontEnd
