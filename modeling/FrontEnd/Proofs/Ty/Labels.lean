import FrontEnd.Proofs.Ty.Holes

/-!
# The types that a program can write

A program names types in labels, and a label is a scalar type behind any number of stars. Nothing
else is ever written down: the type of a function is made from the labels of its parameters and of
its result, and a function cannot be a parameter. So functions do not nest. A type that checking
meets is **flat** (`Ty.isFlat`): pointers around a scalar, the unit type, a hole, or the signature
of a function.
-/

namespace FrontEnd.Ty

/-- Whether a type is a **label**. -/
def isLabel : Ty → Bool
  | scalar _ => true
  | pointer _ a => a.isLabel
  | _ => false

/-- Whether a function can have a type for its result: a label, or nothing at all. -/
def isResult : Ty → Bool
  | unit => true
  | a => a.isLabel

/-- Whether a type is the **signature** of a function. -/
def isSignature : Ty → Bool
  | func ps r => ps.all isLabel && r.isResult
  | _ => false

/-- Whether a symbol can be **declared** with a type. -/
def isDeclared (a : Ty) : Bool :=
  a.isLabel || a.isSignature

/-- Whether a type is **flat**. -/
def isFlat : Ty → Bool
  | pointer _ a => a.isFlat
  | func ps r => (func ps r).isSignature
  | _ => true

variable {a : Ty}

theorem isSignature_func {ps : List Ty} {r : Ty} :
    (func ps r).isSignature = true ↔ (∀ p ∈ ps, p.isLabel = true) ∧ r.isResult = true := by
  show (ps.all isLabel && r.isResult) = true ↔ _
  rw [Bool.and_eq_true, List.all_eq_true]

/-- A result is a label or nothing. -/
theorem isResult_of_isLabel (h : a.isLabel = true) : a.isResult = true := by
  cases a with
  | unit => rfl
  | _ => exact h

theorem isConcrete_of_isLabel (h : a.isLabel = true) : a.isConcrete = true := by
  induction a using induct with
  | scalar s => rfl
  | pointer c a ih => exact ih h
  | _ => cases h

theorem isConcrete_of_isResult (h : a.isResult = true) : a.isConcrete = true := by
  cases a with
  | unit => rfl
  | _ => exact isConcrete_of_isLabel h

/-- Labels have no holes, so neither do functions that are made of them. -/
theorem isConcrete_of_isSignature (h : a.isSignature = true) : a.isConcrete = true := by
  cases a with
  | func ps r =>
    obtain ⟨hps, hr⟩ := isSignature_func.1 h
    exact isConcrete_func.2 ⟨fun p hp ↦ isConcrete_of_isLabel (hps p hp), isConcrete_of_isResult hr⟩
  | _ => cases h

/-- What is declared is a label or the type of a function. -/
theorem isDeclared_iff : a.isDeclared = true ↔ a.isLabel = true ∨ a.isSignature = true := by
  rw [isDeclared, Bool.or_eq_true]

theorem isConcrete_of_isDeclared (h : a.isDeclared = true) : a.isConcrete = true :=
  (isDeclared_iff.1 h).elim isConcrete_of_isLabel isConcrete_of_isSignature

theorem isFlat_of_isLabel (h : a.isLabel = true) : a.isFlat = true := by
  induction a using induct with
  | scalar s => rfl
  | pointer c a ih => exact ih h
  | _ => cases h

theorem isFlat_of_isResult (h : a.isResult = true) : a.isFlat = true := by
  cases a with
  | unit => rfl
  | _ => exact isFlat_of_isLabel h

/-- **What is declared is flat**: functions take and return labels. -/
theorem isFlat_of_isDeclared (h : a.isDeclared = true) : a.isFlat = true := by
  rcases isDeclared_iff.1 h with h | h
  · exact isFlat_of_isLabel h
  · cases a with
    | func ps r => exact h
    | _ => cases h

/-- A flat type is a chain: it has no function with holes. -/
theorem isChain_of_isFlat (h : a.isFlat = true) : a.isChain = true := by
  induction a using induct with
  | pointer c a ih => exact ih h
  | func ps r _ _ => exact isConcrete_of_isSignature h
  | _ => rfl

/-- Only the end of a chain of pointers can be a hole, so flat types for holes leave a type flat. -/
theorem isFlat_subst {f : Nat → Ty} (hf : ∀ i ∈ a.holes, (f i).isFlat = true)
    (ha : a.isFlat = true) : (a.subst f).isFlat = true := by
  induction a using induct with
  | scalar s => rfl
  | unit => rfl
  | pointer c a ih => exact ih hf ha
  | func ps r _ _ =>
    rw [subst_of_isConcrete (isConcrete_of_isSignature ha)]
    exact ha
  | hole i => exact hf i (List.mem_singleton.2 rfl)

end FrontEnd.Ty
