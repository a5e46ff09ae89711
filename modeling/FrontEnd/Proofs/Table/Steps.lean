import FrontEnd.Proofs.Table.Classes
import Mathlib.Logic.Relation

/-!
# Steps of a table

Whatever checking asks of a table, what it leaves behind is a sequence of **steps**: two classes are
fused, and what is known of the new class refines what was known of either. A step never takes
anything back. Holes of one class stay in one class, a committed class stays committed to the same
type, and a limit only becomes stricter.

A table is **valid** if the types in it speak of its own holes and obey the limits; steps keep that
as long as they commit classes to types over the holes of the table.
-/

namespace FrontEnd.Table

/-- The holes of a type are holes of the table. -/
def Covers (t : Table) (a : Ty) : Prop :=
  ∀ i ∈ a.holes, i < t.size

instance (t : Table) (a : Ty) : Decidable (t.Covers a) :=
  inferInstanceAs (Decidable (∀ i ∈ a.holes, i < t.size))

theorem covers_func {t : Table} {ps : List Ty} {r : Ty} :
    t.Covers (.func ps r) ↔ (∀ p ∈ ps, t.Covers p) ∧ t.Covers r := by
  refine ⟨fun h ↦ ⟨fun p hp i hi ↦ ?_, fun i hi ↦ ?_⟩, fun ⟨hps, hr⟩ i hi ↦ ?_⟩
  · exact h i (Ty.mem_holes_func.2 (.inl ⟨p, hp, hi⟩))
  · exact h i (Ty.mem_holes_func.2 (.inr hi))
  · rcases Ty.mem_holes_func.1 hi with ⟨p, hp, hip⟩ | hir
    · exact hps p hp i hip
    · exact hr i hir

theorem covers_of_isConcrete (t : Table) {a : Ty} (h : a.isConcrete = true) : t.Covers a :=
  fun i hi ↦ absurd hi (Ty.not_mem_holes_of_isConcrete h i)

/-- A table is **valid** if every commitment is to a type over its own holes, and one that the limit
of the class admits. -/
structure Valid (t : Table) : Prop where
  /-- Commitments speak of holes of the table. -/
  covers : ∀ {i a}, t.type? i = some a → t.Covers a
  /-- Commitments obey the limits. -/
  admits : ∀ {i a}, t.type? i = some a → (t.kind i).admits a = true

theorem valid_empty : empty.Valid where
  covers h := absurd (lt_size_of_type? h) (Nat.not_lt_zero _)
  admits h := absurd (lt_size_of_type? h) (Nat.not_lt_zero _)

theorem Valid.fresh {t : Table} (h : t.Valid) (k : HoleKind) : (t.fresh k).Valid where
  covers hi j hj := by
    rw [size_fresh]
    exact Nat.lt_succ_of_lt (h.covers (type?_of_type?_fresh hi) j hj)
  admits hi := by
    have hi := type?_of_type?_fresh hi
    rw [kind, classOf_fresh, if_neg (Nat.ne_of_lt (lt_size_of_type? hi))]
    exact h.admits hi

/-- One **step**: the classes of two holes are fused, and nothing that was known is lost. -/
structure Step (t : Table) (i j : Nat) (c : HoleClass) (u : Table) : Prop
    extends t.Fuses i j c u where
  /-- The first is a hole of the table. -/
  left_lt : i < t.size
  /-- The second is a hole of the table. -/
  right_lt : j < t.size
  /-- What is known refines what was known of the first class. -/
  refines_left : c.Refines (t.classOf i)
  /-- What is known refines what was known of the second class. -/
  refines_right : c.Refines (t.classOf j)
  /-- The commitment obeys the limit. -/
  admits_type : ∀ a, c.type? = some a → c.kind.admits a = true

namespace Step

variable {t u : Table} {i j k : Nat} {c : HoleClass} {a : Ty}

theorem type?_of_mem (h : t.Step i j c u) (hk : t.find k = t.find i ∨ t.find k = t.find j) :
    u.type? k = c.type? := by
  rw [type?, h.classOf_of_mem hk]

theorem type?_of_not_mem (h : t.Step i j c u) (hi : t.find k ≠ t.find i)
    (hj : t.find k ≠ t.find j) : u.type? k = t.type? k := by
  rw [type?, h.classOf_of_not_mem hi hj, type?]

/-- What is known of any class afterwards refines what was known before. -/
theorem refines (h : t.Step i j c u) (k : Nat) : (u.classOf k).Refines (t.classOf k) := by
  by_cases hi : t.find k = t.find i
  · rw [h.classOf_of_mem (.inl hi), classOf_congr hi]
    exact h.refines_left
  · by_cases hj : t.find k = t.find j
    · rw [h.classOf_of_mem (.inr hj), classOf_congr hj]
      exact h.refines_right
    · rw [h.classOf_of_not_mem hi hj]
      exact ⟨fun _ ha ↦ ha, fun _ ha ↦ ha⟩

/-- **A commitment is final.** -/
theorem type?_mono (h : t.Step i j c u) (hk : t.type? k = some a) : u.type? k = some a :=
  (h.refines k).type? a hk

theorem type?_cases (h : t.Step i j c u) (hk : u.type? k = some a) :
    t.type? k = some a ∨ c.type? = some a := by
  by_cases hmem : t.find k = t.find i ∨ t.find k = t.find j
  · exact .inr (h.type?_of_mem hmem ▸ hk)
  · exact .inl (h.type?_of_not_mem (not_or.1 hmem).1 (not_or.1 hmem).2 ▸ hk)

theorem covers_iff (h : t.Step i j c u) : u.Covers a ↔ t.Covers a := by
  rw [Covers, Covers, h.size_eq]

theorem valid (h : t.Step i j c u) (ht : t.Valid) (hc : ∀ a, c.type? = some a → t.Covers a) :
    u.Valid where
  covers hk := by
    rw [h.covers_iff]
    exact (h.type?_cases hk).elim ht.covers (hc _)
  admits := by
    intro k a hk
    by_cases hmem : t.find k = t.find i ∨ t.find k = t.find j
    · rw [kind, h.classOf_of_mem hmem]
      exact h.admits_type a (h.type?_of_mem hmem ▸ hk)
    · obtain ⟨hi, hj⟩ := not_or.1 hmem
      rw [kind, h.classOf_of_not_mem hi hj]
      exact ht.admits (h.type?_of_not_mem hi hj ▸ hk)

end Step

/-! ### The operations make steps -/

/-- A commitment is a step. -/
theorem step_commit? {t u : Table} {i : Nat} {a : Ty} (hi : i < t.size)
    (h : t.commit? i a = some u) : t.Step i i { kind := t.kind i, type? := some a } u := by
  obtain ⟨hnone, hadmits, rfl⟩ := commit?_eq_some_iff.1 h
  have hrefines : HoleClass.Refines { kind := t.kind i, type? := some a } (t.classOf i) :=
    ⟨fun _ hx ↦ hx, fun b hb ↦ absurd (hnone ▸ hb : none = some b) (by simp)⟩
  exact { fuses_putClass hi _ with
    left_lt := hi
    right_lt := hi
    refines_left := hrefines
    refines_right := hrefines
    admits_type := fun b hb ↦ Option.some.inj hb ▸ hadmits }

/-- A limit is a step, and it commits nothing. -/
theorem step_limit? {t u : Table} {i : Nat} {k : HoleKind} (hi : i < t.size)
    (h : t.limit? i k = some u) :
    ∃ l, (t.kind i).meet? k = some l ∧ t.Step i i { kind := l, type? := t.type? i } u := by
  obtain ⟨l, hl, hall, rfl⟩ := limit?_eq_some_iff.1 h
  have hrefines : HoleClass.Refines { kind := l, type? := t.type? i } (t.classOf i) :=
    ⟨fun x hx ↦ ((HoleKind.admits_meet? hl x).1 hx).1, fun _ hb ↦ hb⟩
  refine ⟨l, hl, { fuses_putClass hi _ with
    left_lt := hi
    right_lt := hi
    refines_left := hrefines
    refines_right := hrefines
    admits_type := fun b hb ↦ ?_ }⟩
  rw [show t.type? i = some b from hb] at hall
  exact hall

/-- A merge changes nothing or is a step, and it commits to nothing new. -/
theorem step_join? [RootChoice] {t u : Table} {i j : Nat} (hi : i < t.size) (hj : j < t.size)
    (h : t.join? i j = some u) : (t.find i = t.find j ∧ u = t) ∨
      ∃ c, (t.classOf i).merge? (t.classOf j) = some c ∧ t.Step i j c u ∧
        (c.type? = t.type? i ∨ c.type? = t.type? j) := by
  rcases join?_cases hi hj with ⟨heq, hjoin⟩ | ⟨-, -, hjoin⟩ | ⟨-, c, v, hc, hjoin, hfuses⟩
  · exact .inl ⟨heq, Option.some.inj (h.symm.trans hjoin)⟩
  · exact nomatch h.symm.trans hjoin
  · obtain rfl : u = v := Option.some.inj (h.symm.trans hjoin)
    obtain ⟨-, htype, hall⟩ := HoleClass.merge?_eq_some_iff.1 hc
    obtain ⟨hl, hr⟩ := HoleClass.merge?_refines hc
    refine .inr ⟨c, hc, { hfuses with
      left_lt := hi
      right_lt := hj
      refines_left := hl
      refines_right := hr
      admits_type := fun a ha ↦ ?_ }, (HoleClass.commonType?_eq_some htype).2.2⟩
    rw [ha] at hall
    exact hall

/-! ### Sequences of steps -/

/-- The table `u` comes out of `t` by steps that commit classes to types in `Q` only. -/
def Becomes (Q : Ty → Prop) : Table → Table → Prop :=
  Relation.ReflTransGen fun t u ↦
    ∃ i j c, t.Step i j c u ∧ ∀ a, c.type? = some a → Q a

namespace Becomes

variable {Q : Ty → Prop} {t u : Table}

theorem refl (t : Table) : Becomes Q t t :=
  Relation.ReflTransGen.refl

theorem of_step {i j : Nat} {c : HoleClass} (h : t.Step i j c u)
    (hc : ∀ a, c.type? = some a → Q a) : Becomes Q t u :=
  Relation.ReflTransGen.single ⟨i, j, c, h, hc⟩

theorem trans {v : Table} (h : Becomes Q t u) (h' : Becomes Q u v) : Becomes Q t v :=
  Relation.ReflTransGen.trans h h'

theorem mono {Q' : Ty → Prop} (hQ : ∀ a, Q a → Q' a) (h : Becomes Q t u) : Becomes Q' t u :=
  Relation.ReflTransGen.mono
    (fun _ _ ⟨i, j, c, hstep, hc⟩ ↦ ⟨i, j, c, hstep, fun a ha ↦ hQ a (hc a ha)⟩) _ _ h

theorem size_eq (h : Becomes Q t u) : u.size = t.size := by
  induction h with
  | refl => rfl
  | tail _ hstep ih =>
    obtain ⟨i, j, c, hstep, -⟩ := hstep
    rw [hstep.size_eq, ih]

theorem find_eq (h : Becomes Q t u) {k l : Nat} (hkl : t.find k = t.find l) :
    u.find k = u.find l := by
  induction h with
  | refl => exact hkl
  | tail _ hstep ih =>
    obtain ⟨i, j, c, hstep, -⟩ := hstep
    exact hstep.find_eq_of_find_eq ih

theorem type?_mono (h : Becomes Q t u) {k : Nat} {a : Ty} (hk : t.type? k = some a) :
    u.type? k = some a := by
  induction h with
  | refl => exact hk
  | tail _ hstep ih =>
    obtain ⟨i, j, c, hstep, -⟩ := hstep
    exact hstep.type?_mono ih

theorem type?_cases (h : Becomes Q t u) {k : Nat} {a : Ty} (hk : u.type? k = some a) :
    t.type? k = some a ∨ Q a := by
  induction h with
  | refl => exact .inl hk
  | tail _ hstep ih =>
    obtain ⟨i, j, c, hstep, hQ⟩ := hstep
    exact (hstep.type?_cases hk).elim ih fun hc ↦ .inr (hQ a hc)

theorem covers_iff (h : Becomes Q t u) {a : Ty} : u.Covers a ↔ t.Covers a := by
  rw [Covers, Covers, h.size_eq]

theorem valid (h : Becomes Q t u) (ht : t.Valid) (hQ : ∀ a, Q a → t.Covers a) : u.Valid := by
  induction h with
  | refl => exact ht
  | tail hpre hstep ih =>
    obtain ⟨i, j, c, hstep, hc⟩ := hstep
    exact hstep.valid ih fun a ha ↦ (covers_iff hpre).2 (hQ a (hc a ha))

end Becomes

end FrontEnd.Table
