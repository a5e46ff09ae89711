import FrontEnd.Proofs.Table.Operations
import Mathlib.Data.Set.Basic
import Mathlib.Order.Interval.Set.LinearOrder

/-!
# Regions of a table

Nothing in a table is looked at as a whole while a statement is checked: every part of the statement
has made holes of its own, and what is asked of them concerns no others. A **closed** set of holes
(`Closed`) is one that neither classes nor commitments lead out of. A table **evolves** within a
closed set (`Evolves`) if every step fuses holes of the set and commits them to types over it; what
lies outside stays as it was.

Along with every step a table is required to be **tidy** (`Tidy`): it is valid, commitments run in
no circle, and no function type in it has a hole. A type that is not a function has at most one
place for a hole, at the end of a chain of pointers.

A table **grows** (`Grows`) while an expression is checked: new holes are made, and the old ones are
neither changed nor mentioned. So whatever solves the table afterwards solves it before.
-/

namespace FrontEnd

/-- The holes of a type lie in a set. -/
def Ty.Within (S : Set Nat) (a : Ty) : Prop :=
  ∀ i ∈ a.holes, i ∈ S

namespace Ty

variable {S T : Set Nat} {a : Ty}

theorem within_of_isConcrete (h : a.isConcrete = true) : a.Within S :=
  fun i hi ↦ absurd hi (not_mem_holes_of_isConcrete h i)

theorem Within.mono (h : a.Within S) (hST : S ⊆ T) : a.Within T :=
  fun i hi ↦ hST (h i hi)

theorem isConcrete_of_within_empty (h : a.Within ∅) : a.isConcrete = true :=
  isConcrete_iff_holes.2 (List.eq_nil_iff_forall_not_mem.2 h)

end Ty

namespace Table

open Relation

variable {t u v : Table} {S T : Set Nat} {i j k : Nat} {c : HoleClass} {a : Ty}

/-! ### Closed sets of holes -/

/-- A set of holes of a table is **closed** if classes lie in it or outside, and commitments of its
holes speak of its holes. -/
structure Closed (t : Table) (S : Set Nat) : Prop where
  /-- The set consists of holes of the table. -/
  lt : ∀ {i}, i ∈ S → i < t.size
  /-- A class lies in the set with its representative. -/
  find : ∀ {i}, t.find i ∈ S ↔ i ∈ S
  /-- Commitments do not lead out. -/
  within : ∀ {i a}, i ∈ S → t.type? i = some a → a.Within S

namespace Closed

theorem covers (h : t.Closed S) (ha : a.Within S) : t.Covers a :=
  fun i hi ↦ h.lt (ha i hi)

theorem empty (t : Table) : t.Closed ∅ where
  lt h := h.elim
  find := Iff.rfl
  within h := h.elim

theorem union (hS : t.Closed S) (hT : t.Closed T) : t.Closed (S ∪ T) where
  lt h := h.elim hS.lt hT.lt
  find := or_congr hS.find hT.find
  within h ha := h.elim (fun h ↦ (hS.within h ha).mono Set.subset_union_left)
    fun h ↦ (hT.within h ha).mono Set.subset_union_right

/-- A hole in the class of a hole of the set is in the set. -/
theorem mem_of_find_eq (h : t.Closed S) (hi : i ∈ S) (heq : t.find k = t.find i) : k ∈ S :=
  h.find.1 (heq ▸ h.find.2 hi)

/-- Holes of a closed set are not in a class with others. -/
theorem find_ne (h : t.Closed S) (hi : i ∈ S) (hk : k ∉ S) : t.find k ≠ t.find i :=
  fun heq ↦ hk (h.mem_of_find_eq hi heq)

/-- To uncover the head of a type does not lead out of a closed set. -/
theorem head (h : t.Closed S) (ha : a.Within S) : (t.head a).Within S := by
  have hheadOf : ∀ n, ∀ {i}, i ∈ S → (t.headOf n i).Within S := by
    intro n
    induction n with
    | zero => exact fun hi j hj ↦ List.mem_singleton.1 hj ▸ h.find.2 hi
    | succ n ih =>
      intro i hi
      cases htype : t.type? i with
      | none =>
        rw [headOf_of_none htype]
        exact fun j hj ↦ List.mem_singleton.1 hj ▸ h.find.2 hi
      | some b =>
        by_cases hb : ∃ j, b = .hole j
        · obtain ⟨j, rfl⟩ := hb
          rw [headOf_succ_of_hole htype]
          exact ih (h.within hi htype j (List.mem_singleton.2 rfl))
        · rw [headOf_succ_of_known htype fun j hj ↦ hb ⟨j, hj⟩]
          exact h.within hi htype
  cases a with
  | hole i => exact hheadOf _ (ha i (List.mem_singleton.2 rfl))
  | _ => exact ha

end Closed

namespace Step

/-- **A step within a closed set changes nothing outside of it.** -/
theorem outside (h : t.Step i j c u) (hS : t.Closed S) (hi : i ∈ S) (hj : j ∈ S) (hk : k ∉ S) :
    u.find k = t.find k ∧ u.classOf k = t.classOf k :=
  ⟨h.find_of_not_mem (hS.find_ne hi hk) (hS.find_ne hj hk),
    h.classOf_of_not_mem (hS.find_ne hi hk) (hS.find_ne hj hk)⟩

/-- A set that a step stays within remains closed. -/
theorem closed (h : t.Step i j c u) (hS : t.Closed S) (hi : i ∈ S) (hj : j ∈ S)
    (hc : ∀ a, c.type? = some a → a.Within S) : u.Closed S where
  lt hk := h.size_eq ▸ hS.lt hk
  find := by
    intro k
    obtain ⟨r, hr, hfind⟩ := h.find_eq
    have hmem : r ∈ S := hr.elim (hS.mem_of_find_eq hi) (hS.mem_of_find_eq hj)
    rw [hfind]
    split
    · rename_i hk
      exact iff_of_true hmem (hk.elim (hS.mem_of_find_eq hi) (hS.mem_of_find_eq hj))
    · exact hS.find
  within hk ha := (h.type?_cases ha).elim (hS.within hk) (hc _)

end Step

/-! ### Tidy tables -/

/-- A table is **tidy** if it is valid, no commitments run in a circle, and no function type that a
class is committed to has a hole. -/
structure Tidy (t : Table) : Prop where
  valid : t.Valid
  acyclic : t.Acyclic
  chain : ∀ {i a}, t.type? i = some a → a.isChain = true

namespace Tidy

theorem empty : Table.empty.Tidy where
  valid := valid_empty
  acyclic := acyclic_empty
  chain h := absurd (lt_size_of_type? h) (Nat.not_lt_zero _)

theorem isChain_head (h : t.Tidy) (ha : a.isChain = true) : (t.head a).isChain = true := by
  by_cases hhole : ∃ i, t.head a = .hole i
  · obtain ⟨i, hi⟩ := hhole
    rw [hi]
    rfl
  · exact head_mem (Q := fun a ↦ a.isChain = true) h.chain ha fun i hi ↦ hhole ⟨i, hi⟩

/-- The holes of a tidy table are a closed set. -/
theorem closed (h : t.Tidy) : t.Closed (Set.Iio t.size) where
  lt hi := hi
  find := find_lt_iff
  within _ ha := h.valid.covers ha

end Tidy

/-! ### Steps within a set -/

/-- The table `u` comes out of `t` by steps **within a set** of holes, and every table on the way is
tidy. -/
def Evolves (S : Set Nat) : Table → Table → Prop :=
  ReflTransGen fun t u ↦ u.Tidy ∧ ∃ i ∈ S, ∃ j ∈ S, ∃ c, t.Step i j c u ∧
    ∀ a, c.type? = some a → a.Within S

namespace Evolves

theorem refl (t : Table) : Evolves S t t :=
  ReflTransGen.refl

theorem of_step (h : t.Step i j c u) (hu : u.Tidy) (hi : i ∈ S) (hj : j ∈ S)
    (hc : ∀ a, c.type? = some a → a.Within S) : Evolves S t u :=
  ReflTransGen.single ⟨hu, i, hi, j, hj, c, h, hc⟩

theorem trans (h : Evolves S t u) (h' : Evolves S u v) : Evolves S t v :=
  ReflTransGen.trans h h'

theorem mono (hST : S ⊆ T) (h : Evolves S t u) : Evolves T t u :=
  ReflTransGen.mono (fun _ _ ⟨hu, i, hi, j, hj, c, hstep, hc⟩ ↦
    ⟨hu, i, hST hi, j, hST hj, c, hstep, fun a ha ↦ (hc a ha).mono hST⟩) _ _ h

theorem tidy (h : Evolves S t u) (ht : t.Tidy) : u.Tidy := by
  rcases ReflTransGen.cases_tail h with rfl | ⟨_, -, hu, -⟩
  · exact ht
  · exact hu

/-- What evolves is a sequence of steps over the holes of the table. -/
theorem becomes (h : Evolves S t u) : Becomes t.Covers t u := by
  induction h with
  | refl => exact .refl t
  | tail _ hstep ih =>
    obtain ⟨hu, i, -, j, -, c, hstep, -⟩ := hstep
    refine ih.trans (.of_step hstep fun a ha ↦ ?_)
    have htype := (hstep.type?_of_mem (.inl rfl)).trans ha
    exact ih.covers_iff.1 (hstep.covers_iff.1 (hu.valid.covers htype))

theorem size_eq (h : Evolves S t u) : u.size = t.size :=
  h.becomes.size_eq

theorem closed (h : Evolves S t u) (hS : t.Closed S) : u.Closed S := by
  induction h with
  | refl => exact hS
  | tail _ hstep ih =>
    obtain ⟨-, i, hi, j, hj, c, hstep, hc⟩ := hstep
    exact hstep.closed ih hi hj hc

/-- **What lies outside of the set stays as it is.** -/
theorem outside (h : Evolves S t u) (hS : t.Closed S) (hk : k ∉ S) :
    u.find k = t.find k ∧ u.classOf k = t.classOf k := by
  induction h with
  | refl => exact ⟨rfl, rfl⟩
  | tail hpre hstep ih =>
    obtain ⟨-, i, hi, j, hj, c, hstep, -⟩ := hstep
    obtain ⟨hfind, hclass⟩ := hstep.outside (closed hpre hS) hi hj hk
    exact ⟨hfind.trans ih.1, hclass.trans ih.2⟩

end Evolves

/-! ### Growth -/

/-- The table `u` has **grown** out of `t`: the old holes are what they were, and the new ones
neither share a class with them nor are committed to types that speak of them. -/
structure Grows (t u : Table) : Prop where
  size_le : t.size ≤ u.size
  find_eq : ∀ {k}, k < t.size → u.find k = t.find k
  classOf_eq : ∀ {k}, k < t.size → u.classOf k = t.classOf k
  closed : u.Closed (Set.Ico t.size u.size)

namespace Grows

theorem type?_eq (h : t.Grows u) (hk : k < t.size) : u.type? k = t.type? k := by
  rw [type?, h.classOf_eq hk, type?]

theorem kind_eq (h : t.Grows u) (hk : k < t.size) : u.kind k = t.kind k := by
  rw [kind, h.classOf_eq hk, kind]

theorem refl (t : Table) : t.Grows t where
  size_le := Nat.le_refl _
  find_eq _ := rfl
  classOf_eq _ := rfl
  closed := by
    rw [Set.Ico_self]
    exact Closed.empty t

theorem fresh (t : Table) (k : HoleKind) : t.Grows (t.fresh k) where
  size_le := by rw [size_fresh]; exact Nat.le_succ _
  find_eq _ := find_fresh t k _
  classOf_eq hk := by rw [classOf_fresh, if_neg (Nat.ne_of_lt hk)]
  closed := by
    refine ⟨fun hi ↦ hi.2, fun {i} ↦ ?_, fun {i a} hi ha ↦ ?_⟩
    · rw [find_fresh, size_fresh]
      rcases Nat.lt_or_ge i t.size with hi | hi
      · exact iff_of_false (fun h ↦ absurd (find_lt hi) (Nat.not_lt.2 h.1))
          fun h ↦ absurd hi (Nat.not_lt.2 h.1)
      · rw [find_of_ge hi]
    · rw [size_fresh] at hi
      obtain rfl : i = t.size := Nat.le_antisymm (Nat.le_of_lt_succ hi.2) hi.1
      rw [type?, classOf_fresh, if_pos rfl] at ha
      cases ha

/-- A set that was closed before the growth is closed after it. -/
theorem closed_of_closed (h : t.Grows u) (hS : t.Closed S) : u.Closed S where
  lt hk := Nat.lt_of_lt_of_le (hS.lt hk) h.size_le
  find := by
    intro k
    rcases Nat.lt_or_ge k t.size with hk | hk
    · rw [h.find_eq hk]
      exact hS.find
    · have hfind : t.size ≤ u.find k := by
        rcases Nat.lt_or_ge k u.size with hku | hku
        · exact (h.closed.find.2 ⟨hk, hku⟩).1
        · rw [find_of_ge hku]
          exact hk
      exact iff_of_false (fun hS' ↦ absurd (hS.lt hS') (Nat.not_lt.2 hfind))
        fun hS' ↦ absurd (hS.lt hS') (Nat.not_lt.2 hk)
  within {k a} hk ha := by
    rw [h.type?_eq (hS.lt hk)] at ha
    exact hS.within hk ha

theorem trans (h : t.Grows u) (h' : u.Grows v) : t.Grows v where
  size_le := Nat.le_trans h.size_le h'.size_le
  find_eq hk := (h'.find_eq (Nat.lt_of_lt_of_le hk h.size_le)).trans (h.find_eq hk)
  classOf_eq hk := (h'.classOf_eq (Nat.lt_of_lt_of_le hk h.size_le)).trans (h.classOf_eq hk)
  closed := by
    have hunion := (h'.closed_of_closed h.closed).union h'.closed
    rwa [Set.Ico_union_Ico_eq_Ico h.size_le h'.size_le] at hunion

/-- Growth goes on while the new holes evolve. -/
theorem evolves (h : t.Grows u) (hu : Evolves S u v) (hS : S ⊆ Set.Ico t.size u.size) :
    t.Grows v := by
  have hu := hu.mono hS
  have hnew : ∀ {k}, k < t.size → k ∉ Set.Ico t.size u.size :=
    fun hk hmem ↦ Nat.not_lt.2 hmem.1 hk
  refine ⟨hu.size_eq ▸ h.size_le, fun hk ↦ ?_, fun hk ↦ ?_, hu.size_eq ▸ hu.closed h.closed⟩
  · exact (hu.outside h.closed (hnew hk)).1.trans (h.find_eq hk)
  · exact (hu.outside h.closed (hnew hk)).2.trans (h.classOf_eq hk)

/-- **Whatever solves a table solves what it has grown out of.** -/
theorem solution (h : t.Grows u) {s : Nat → Ty} (hs : u.Solution s) : t.Solution s := by
  have hlt : ∀ {k}, k < t.size → k < u.size := fun hk ↦ Nat.lt_of_lt_of_le hk h.size_le
  refine ⟨⟨fun hi hj hij ↦ ?_, fun ha ↦ ?_⟩, fun hi ↦ hs.concrete (hlt hi), fun hi ↦ ?_⟩
  · exact hs.sameClass (hlt hi) (hlt hj) (by rw [h.find_eq hi, h.find_eq hj, hij])
  · exact hs.committed ((h.type?_eq (lt_size_of_type? ha)).trans ha)
  · rw [← h.kind_eq hi]
    exact hs.admitted (hlt hi)

end Grows

end Table

end FrontEnd
