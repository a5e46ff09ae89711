import FrontEnd.Ty.Scalar

/-!
# Types

A type is a scalar, the unit type, a pointer, a function, or a **hole**: the type of a literal that
nothing has decided yet. A hole is a number and owns no content; what is known of it stands in a
table (`FrontEnd.Table`), and the number means something only beside the table that gave it out.

Parameter lists make `Ty` a nested type, so each recursion comes as a pair, one function on types
and one on lists of types. Both are structural, which keeps every function below computable by the
kernel.
-/

namespace FrontEnd

/-- The types of the language. -/
inductive Ty where
  /-- A type with a name. -/
  | scalar (s : Scalar)
  /-- The type of a function that returns nothing. -/
  | unit
  /-- A pointer; through a const pointer nothing may be written. -/
  | pointer (isConst : Bool) (elem : Ty)
  /-- A function. -/
  | func (params : List Ty) (result : Ty)
  /-- The type of a literal that is still open. -/
  | hole (id : Nat)
deriving Repr, Inhabited

namespace Ty

/-! ### Equality -/

mutual

/-- Whether two types are the same. -/
def same : Ty → Ty → Bool
  | scalar s, scalar t => s == t
  | unit, unit => true
  | pointer c a, pointer d b => c == d && same a b
  | func ps r, func qs s => sameAll ps qs && same r s
  | hole i, hole j => i == j
  | _, _ => false

/-- Whether two lists hold the same types in the same order. -/
def sameAll : List Ty → List Ty → Bool
  | [], [] => true
  | a :: as, b :: bs => same a b && sameAll as bs
  | _, _ => false

end

mutual

theorem same_self : ∀ a : Ty, same a a = true
  | scalar s => by simp [same]
  | unit => rfl
  | pointer c a => by simp [same, same_self a]
  | func ps r => by simp [same, sameAll_self ps, same_self r]
  | hole i => by simp [same]

theorem sameAll_self : ∀ as : List Ty, sameAll as as = true
  | [] => rfl
  | a :: as => by simp [sameAll, same_self a, sameAll_self as]

end

mutual

theorem eq_of_same : ∀ {a b : Ty}, same a b = true → a = b
  | scalar s, b, h => by cases b <;> simp_all [same]
  | unit, b, h => by cases b <;> simp_all [same]
  | pointer c a, b, h => by
    cases b with
    | pointer d b =>
      simp only [same, Bool.and_eq_true, beq_iff_eq] at h
      rw [h.1, eq_of_same h.2]
    | _ => simp [same] at h
  | func ps r, b, h => by
    cases b with
    | func qs s =>
      simp only [same, Bool.and_eq_true] at h
      rw [eq_of_sameAll h.1, eq_of_same h.2]
    | _ => simp [same] at h
  | hole i, b, h => by cases b <;> simp_all [same]

theorem eq_of_sameAll : ∀ {as bs : List Ty}, sameAll as bs = true → as = bs
  | [], bs, h => by cases bs <;> simp_all [sameAll]
  | a :: as, bs, h => by
    cases bs with
    | nil => simp [sameAll] at h
    | cons b bs =>
      simp only [sameAll, Bool.and_eq_true] at h
      rw [eq_of_same h.1, eq_of_sameAll h.2]

end

theorem same_iff_eq {a b : Ty} : same a b = true ↔ a = b :=
  ⟨eq_of_same, fun h ↦ h ▸ same_self a⟩

instance : DecidableEq Ty :=
  fun _ _ ↦ decidable_of_iff _ same_iff_eq

/-! ### Classification -/

/-- Whether a type is an integer type. -/
def isInt : Ty → Bool
  | scalar (.int _ _) => true
  | _ => false

/-- Whether a type is a float type. -/
def isFloat : Ty → Bool
  | scalar (.float _) => true
  | _ => false

/-- Whether a type is the boolean type. -/
def isBool : Ty → Bool
  | scalar .bool => true
  | _ => false

/-- Whether a type is a pointer type. -/
def isPointer : Ty → Bool
  | pointer _ _ => true
  | _ => false

/-- Whether a type is an integer or a float type. -/
def isNumeric (a : Ty) : Bool :=
  a.isInt || a.isFloat

/-- The number of bits of a number type. -/
def bits? : Ty → Option Nat
  | scalar s => s.bits?
  | _ => none

/-- The type of a signed integer of 32 bits, which every rune has. -/
def i32 : Ty :=
  scalar (.int .w32 true)

/-- The type of a signed integer of 64 bits, which an open integer literal falls back to. -/
def i64 : Ty :=
  scalar (.int .w64 true)

/-- The type of a float of 32 bits, which an open float literal falls back to. -/
def f32 : Ty :=
  scalar (.float .w32)

/-- The boolean type. -/
def bool : Ty :=
  scalar .bool

mutual

/-- Whether a type is **concrete**: no hole stands anywhere in it. -/
def isConcrete : Ty → Bool
  | pointer _ a => a.isConcrete
  | func ps r => allConcrete ps && r.isConcrete
  | hole _ => false
  | _ => true

/-- Whether every type of a list is concrete. -/
def allConcrete : List Ty → Bool
  | [] => true
  | a :: as => a.isConcrete && allConcrete as

end

/-! ### Substitution -/

mutual

/-- The type with every hole replaced by what `f` gives for it. -/
def subst (f : Nat → Ty) : Ty → Ty
  | pointer c a => pointer c (a.subst f)
  | func ps r => func (substAll f ps) (r.subst f)
  | hole i => f i
  | a => a

/-- The types of a list with every hole replaced. -/
def substAll (f : Nat → Ty) : List Ty → List Ty
  | [] => []
  | a :: as => a.subst f :: substAll f as

end

theorem substAll_eq_map (f : Nat → Ty) (as : List Ty) : substAll f as = as.map (subst f) := by
  induction as with
  | nil => rfl
  | cons a as ih => simp [substAll, ih]

/-! ### Height -/

mutual

/-- The number of constructors on the longest way into a type. -/
def height : Ty → Nat
  | pointer _ a => a.height + 1
  | func ps r => max (maxHeight ps) r.height + 1
  | _ => 1

/-- The greatest height in a list of types. -/
def maxHeight : List Ty → Nat
  | [] => 0
  | a :: as => max a.height (maxHeight as)

end

end Ty

end FrontEnd
