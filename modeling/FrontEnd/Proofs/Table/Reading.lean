import FrontEnd.Proofs.Table.Steps
import FrontEnd.Table.Unify
import Mathlib.Data.Finset.Card

/-!
# Reading through commitments ends

Uncovering the head of a type, expanding it and describing it all follow commitments from class to
class. The relations `HeadsTo`, `ExpandsTo` and `DescribesTo` are these recursions as such, without
a bound on their depth: a derivation is a run that comes to its end, and every hole that it looks up
on its way is a hole of the table.

Where commitments do not run in a circle (`Acyclic`), the functions compute what the relations say.
What carries this is the **rank** of a hole, the number of holes that can be reached from it through
commitments: it falls with every commitment that is followed, and it is below the number of holes,
which is the bound that the functions go by.
-/

namespace FrontEnd.Table

open Relation

/-! ### The recursions -/

/-- Uncovering the outermost constructor of a type comes to an end with a type. -/
inductive HeadsTo (t : Table) : Ty → Ty → Prop
  /-- A type that is not a hole shows its constructor. -/
  | known {a : Ty} (h : ∀ i, a ≠ .hole i) : HeadsTo t a a
  /-- An open hole gives way to its representative. -/
  | vacant {i : Nat} (hi : i < t.size) (h : t.type? i = none) :
    HeadsTo t (.hole i) (.hole (t.find i))
  /-- A committed hole gives way to its type. -/
  | committed {i : Nat} {a b : Ty} (hi : i < t.size) (h : t.type? i = some a)
    (hb : HeadsTo t a b) : HeadsTo t (.hole i) b

/-- Expanding a type comes to an end with a type. -/
inductive ExpandsTo (t : Table) : Ty → Ty → Prop
  | hole {a : Ty} {i : Nat} (h : t.HeadsTo a (.hole i)) : ExpandsTo t a (.hole i)
  | scalar {a : Ty} {s : Scalar} (h : t.HeadsTo a (.scalar s)) : ExpandsTo t a (.scalar s)
  | unit {a : Ty} (h : t.HeadsTo a .unit) : ExpandsTo t a .unit
  | pointer {a b b' : Ty} {c : Bool} (h : t.HeadsTo a (.pointer c b)) (hb : ExpandsTo t b b') :
    ExpandsTo t a (.pointer c b')
  | func {a r r' : Ty} {ps qs : List Ty} (h : t.HeadsTo a (.func ps r))
    (hps : List.Forall₂ (ExpandsTo t) ps qs) (hr : ExpandsTo t r r') :
    ExpandsTo t a (.func qs r')

/-- Describing a type comes to an end with a text. -/
inductive DescribesTo (t : Table) : Ty → String → Prop
  | hole {a : Ty} {i : Nat} (h : t.HeadsTo a (.hole i)) : DescribesTo t a (t.kind i).name
  | scalar {a : Ty} {s : Scalar} (h : t.HeadsTo a (.scalar s)) : DescribesTo t a s.name
  | unit {a : Ty} (h : t.HeadsTo a .unit) : DescribesTo t a "()"
  | pointer {a b : Ty} {c : Bool} {text : String} (h : t.HeadsTo a (.pointer c b))
    (hb : DescribesTo t b text) : DescribesTo t a ((if c then "*const " else "*") ++ text)
  | func {a r : Ty} {ps : List Ty} {texts : List String} {text : String}
    (h : t.HeadsTo a (.func ps r)) (hps : List.Forall₂ (DescribesTo t) ps texts)
    (hr : DescribesTo t r text) :
    DescribesTo t a (Ty.renderParams texts ++ " -> " ++ text)

/-! ### Circles of commitments -/

/-- The class of `i` is committed to a type that **mentions** the class of `j`. -/
def Mentions (t : Table) (i j : Nat) : Prop :=
  ∃ a, t.type? i = some a ∧ ∃ k ∈ a.holes, t.find k = t.find j

/-- No class is committed to a type that leads back to it. -/
def Acyclic (t : Table) : Prop :=
  ∀ i, ¬ TransGen t.Mentions i i

theorem mentions_of_mem {t : Table} {i j : Nat} {a : Ty} (h : t.type? i = some a)
    (hj : j ∈ a.holes) : t.Mentions i j :=
  ⟨a, h, j, hj, rfl⟩

theorem acyclic_empty : empty.Acyclic := by
  intro i h
  obtain ⟨j, ⟨a, ha, -⟩, -⟩ := TransGen.head'_iff.1 h
  exact absurd (lt_size_of_type? ha) (Nat.not_lt_zero _)

/-- Commitments that always lead to an earlier representative run in no circle. -/
theorem acyclic_of_find_lt {t : Table} (h : ∀ i < t.size, ∀ a, t.type? i = some a →
    ∀ k ∈ a.holes, t.find k < t.find i) : t.Acyclic := by
  have hlt : ∀ {i j}, TransGen t.Mentions i j → t.find j < t.find i := by
    intro i j hij
    induction hij with
    | single hij =>
      obtain ⟨a, ha, k, hk, hkj⟩ := hij
      exact hkj ▸ h _ (lt_size_of_type? ha) a ha k hk
    | tail _ hij ih =>
      obtain ⟨a, ha, k, hk, hkj⟩ := hij
      exact Nat.lt_trans (hkj ▸ h _ (lt_size_of_type? ha) a ha k hk) ih
  exact fun i hi ↦ Nat.lt_irrefl _ (hlt hi)

/-- **A circle stays a circle**: steps take no commitment back. -/
theorem Becomes.acyclic {Q : Ty → Prop} {t u : Table} (h : Becomes Q t u) (hu : u.Acyclic) :
    t.Acyclic := by
  intro i hcycle
  have hmono : ∀ k l, t.Mentions k l → u.Mentions k l := by
    rintro k l ⟨a, ha, m, hm, hml⟩
    exact ⟨a, h.type?_mono ha, m, hm, h.find_eq hml⟩
  exact hu i (TransGen.mono hmono _ _ hcycle)

/-! ### Ranks -/

open Classical in
/-- The **rank** of a hole: how many holes can be reached from it through commitments. -/
noncomputable def reachCount (t : Table) (i : Nat) : Nat :=
  ((Finset.range t.size).filter fun j ↦ TransGen t.Mentions i j).card

section Rank

variable {t : Table} (hacyclic : t.Acyclic)

include hacyclic

theorem reachCount_lt {i j : Nat} (hj : j < t.size) (h : t.Mentions i j) :
    t.reachCount j < t.reachCount i := by
  classical
  refine Finset.card_lt_card ⟨fun k hk ↦ ?_, fun hsub ↦ ?_⟩
  · obtain ⟨hk, hreach⟩ := Finset.mem_filter.1 hk
    exact Finset.mem_filter.2 ⟨hk, TransGen.head h hreach⟩
  · have hmem : j ∈ (Finset.range t.size).filter fun k ↦ TransGen t.Mentions i k :=
      Finset.mem_filter.2 ⟨Finset.mem_range.2 hj, .single h⟩
    exact hacyclic j (Finset.mem_filter.1 (hsub hmem)).2

theorem reachCount_lt_size {i : Nat} (hi : i < t.size) : t.reachCount i < t.size := by
  classical
  have hsub : ((Finset.range t.size).filter fun j ↦ TransGen t.Mentions i j) ⊂
      Finset.range t.size := by
    refine ⟨Finset.filter_subset _ _, fun hsub ↦ ?_⟩
    exact hacyclic i (Finset.mem_filter.1 (hsub (Finset.mem_range.2 hi))).2
  have hlt := Finset.card_lt_card hsub
  rwa [Finset.card_range] at hlt

/-- Whatever follows commitments **gives the same answer** under any two bounds above the rank. -/
theorem follow_stable (ht : t.Valid) {β : Type} {f : Nat → Nat → β}
    (hf : ∀ n m i, (∀ a, t.type? i = some a → ∀ j ∈ a.holes, f n j = f m j) →
      f (n + 1) i = f (m + 1) i) {i n m : Nat} (hn : t.reachCount i < n)
    (hm : t.reachCount i < m) : f n i = f m i := by
  induction hr : t.reachCount i using Nat.strong_induction_on generalizing i n m with
  | _ r ih =>
    obtain ⟨n, rfl⟩ := Nat.exists_eq_succ_of_ne_zero (Nat.ne_of_gt (Nat.zero_lt_of_lt hn))
    obtain ⟨m, rfl⟩ := Nat.exists_eq_succ_of_ne_zero (Nat.ne_of_gt (Nat.zero_lt_of_lt hm))
    refine hf n m i fun a ha j hj ↦ ?_
    have hlt : t.reachCount j < t.reachCount i :=
      reachCount_lt hacyclic (ht.covers ha j hj) (mentions_of_mem ha hj)
    exact ih (t.reachCount j) (hr ▸ hlt) (by omega) (by omega) rfl

/-- In particular the bound by the number of holes may be raised or lowered by one at every hole
that a commitment mentions. -/
theorem follow_size (ht : t.Valid) {β : Type} {f : Nat → Nat → β}
    (hf : ∀ n m i, (∀ a, t.type? i = some a → ∀ j ∈ a.holes, f n j = f m j) →
      f (n + 1) i = f (m + 1) i) {i : Nat} (hi : i < t.size) : f t.size i = f (t.size + 1) i :=
  have hlt := reachCount_lt_size hacyclic hi
  follow_stable hacyclic ht hf hlt (Nat.lt_succ_of_lt hlt)

end Rank

/-! ### Heads -/

section Reading

variable {t : Table}

theorem head_of_ne_hole {a : Ty} (h : ∀ i, a ≠ .hole i) : t.head a = a := by
  cases a with
  | hole i => exact absurd rfl (h i)
  | _ => rfl

theorem head_of_isConcrete {a : Ty} (h : a.isConcrete = true) : t.head a = a := by
  cases a with
  | hole i => cases h
  | _ => rfl

theorem headOf_of_none {i : Nat} (h : t.type? i = none) (n : Nat) :
    t.headOf n i = .hole (t.find i) := by
  cases n with
  | zero => rfl
  | succ n => rw [headOf, h]

theorem head_of_none {i : Nat} (h : t.type? i = none) : t.head (.hole i) = .hole (t.find i) :=
  headOf_of_none h _

theorem headOf_succ_of_hole {i j n : Nat} (h : t.type? i = some (.hole j)) :
    t.headOf (n + 1) i = t.headOf n j := by
  rw [headOf, h]

theorem headOf_succ_of_known {i n : Nat} {a : Ty} (h : t.type? i = some a)
    (ha : ∀ j, a ≠ .hole j) : t.headOf (n + 1) i = a := by
  rw [headOf, h]
  cases a with
  | hole j => exact absurd rfl (ha j)
  | _ => rfl

/-- The head of a committed hole is the head of its type. -/
theorem head_of_some (ht : t.Valid) (hacyclic : t.Acyclic) {i : Nat} {a : Ty}
    (h : t.type? i = some a) : t.head (.hole i) = t.head a := by
  have hstable : t.headOf t.size i = t.headOf (t.size + 1) i := by
    refine follow_size hacyclic ht (fun n m k hk ↦ ?_) (lt_size_of_type? h)
    cases htype : t.type? k with
    | none => rw [headOf_of_none htype, headOf_of_none htype]
    | some b =>
      cases b with
      | hole j =>
        rw [headOf_succ_of_hole htype, headOf_succ_of_hole htype]
        exact hk _ htype j (List.mem_singleton.2 rfl)
      | _ => rw [headOf, headOf, htype]
  show t.headOf t.size i = t.head a
  rw [hstable]
  by_cases ha : ∃ j, a = .hole j
  · obtain ⟨j, rfl⟩ := ha
    exact headOf_succ_of_hole h
  · have ha : ∀ j, a ≠ .hole j := fun j hj ↦ ha ⟨j, hj⟩
    rw [headOf_succ_of_known h ha, head_of_ne_hole ha]

/-- **The rank carries an induction** over the holes of a type: a property of types that passes from
the type of a committed hole to the hole, and holds of open holes, holds of all holes. -/
theorem hole_induction (ht : t.Valid) (hacyclic : t.Acyclic) {P : Ty → Prop}
    (hnone : ∀ i, i < t.size → t.type? i = none → P (.hole i))
    (hsome : ∀ i a, i < t.size → t.type? i = some a → (∀ j ∈ a.holes, P (.hole j)) → P (.hole i))
    {i : Nat} (hi : i < t.size) : P (.hole i) := by
  induction hr : t.reachCount i using Nat.strong_induction_on generalizing i with
  | _ r ih =>
    cases htype : t.type? i with
    | none => exact hnone i hi htype
    | some a =>
      refine hsome i a hi htype fun j hj ↦ ?_
      have hj' : j < t.size := ht.covers htype j hj
      exact ih _ (hr ▸ reachCount_lt hacyclic hj' (mentions_of_mem htype hj)) hj' rfl

theorem headsTo_head (ht : t.Valid) (hacyclic : t.Acyclic) {a : Ty} (ha : t.Covers a) :
    t.HeadsTo a (t.head a) := by
  cases a with
  | hole i =>
    refine hole_induction ht hacyclic (P := fun a ↦ t.HeadsTo a (t.head a)) ?_ ?_
      (ha i (List.mem_singleton.2 rfl))
    · intro i hi hnone
      rw [head_of_none hnone]
      exact .vacant hi hnone
    · intro i a hi hsome ih
      rw [head_of_some ht hacyclic hsome]
      refine .committed hi hsome ?_
      cases a with
      | hole j => exact ih j (List.mem_singleton.2 rfl)
      | _ => exact .known fun i ↦ by simp
  | _ => exact .known fun i ↦ by simp

/-- **The head is a type with its constructor in sight, or an open representative.** -/
theorem head_cases (ht : t.Valid) (hacyclic : t.Acyclic) {a : Ty} (ha : t.Covers a) :
    (∀ i, t.head a ≠ .hole i) ∨
      ∃ i, t.head a = .hole i ∧ i < t.size ∧ t.find i = i ∧ t.type? i = none := by
  generalize hb : t.head a = b
  have hheads := headsTo_head ht hacyclic ha
  rw [hb] at hheads
  clear hb ha
  induction hheads with
  | known h => exact .inl h
  | vacant hi h => exact .inr ⟨_, rfl, find_lt hi, find_find t _, by rw [type?_find, h]⟩
  | committed _ _ _ ih => exact ih

theorem type?_of_head (ht : t.Valid) (hacyclic : t.Acyclic) {a : Ty} (ha : t.Covers a) {i : Nat}
    (h : t.head a = .hole i) : t.type? i = none := by
  rcases head_cases ht hacyclic ha with hne | ⟨j, hj, -, -, hnone⟩
  · exact absurd h (hne i)
  · obtain rfl := Ty.hole.inj (h.symm.trans hj)
    exact hnone

theorem covers_headOf (ht : t.Valid) {i : Nat} (hi : i < t.size) (n : Nat) :
    t.Covers (t.headOf n i) := by
  induction n generalizing i with
  | zero => exact fun j hj ↦ List.mem_singleton.1 hj ▸ find_lt hi
  | succ n ih =>
    cases htype : t.type? i with
    | none =>
      rw [headOf_of_none htype]
      exact fun j hj ↦ List.mem_singleton.1 hj ▸ find_lt hi
    | some b =>
      by_cases hb : ∃ j, b = .hole j
      · obtain ⟨j, rfl⟩ := hb
        rw [headOf_succ_of_hole htype]
        exact ih (ht.covers htype j (List.mem_singleton.2 rfl))
      · rw [headOf_succ_of_known htype fun j hj ↦ hb ⟨j, hj⟩]
        exact ht.covers htype

theorem covers_head (ht : t.Valid) {a : Ty} (ha : t.Covers a) : t.Covers (t.head a) := by
  cases a with
  | hole i => exact covers_headOf ht (ha i (List.mem_singleton.2 rfl)) _
  | _ => exact ha

theorem lt_size_of_head (ht : t.Valid) {a : Ty} (ha : t.Covers a) {i : Nat}
    (h : t.head a = .hole i) : i < t.size :=
  covers_head ht ha i (h ▸ List.mem_singleton.2 rfl)

/-! ### Expansion -/

theorem image_of_none {i : Nat} (h : t.type? i = none) (n : Nat) :
    t.image n i = .hole (t.find i) := by
  cases n with
  | zero => rfl
  | succ n => rw [image, h]

theorem image_succ_of_some {i n : Nat} {a : Ty} (h : t.type? i = some a) :
    t.image (n + 1) i = a.subst (t.image n) := by
  rw [image, h]

/-- What stands behind a hole is determined by what stands behind the holes it is committed to. -/
theorem image_succ_congr {n m i : Nat}
    (h : ∀ a, t.type? i = some a → ∀ j ∈ a.holes, t.image n j = t.image m j) :
    t.image (n + 1) i = t.image (m + 1) i := by
  cases htype : t.type? i with
  | none => rw [image_of_none htype, image_of_none htype]
  | some a =>
    rw [image_succ_of_some htype, image_succ_of_some htype]
    exact Ty.subst_congr (h a htype)

theorem expand_of_none {i : Nat} (h : t.type? i = none) :
    t.expand (.hole i) = .hole (t.find i) :=
  image_of_none h _

theorem expand_of_some (ht : t.Valid) (hacyclic : t.Acyclic) {i : Nat} {a : Ty}
    (h : t.type? i = some a) : t.expand (.hole i) = t.expand a := by
  have hstable : t.image t.size i = t.image (t.size + 1) i :=
    follow_size (f := t.image) hacyclic ht (fun _ _ _ ↦ image_succ_congr) (lt_size_of_type? h)
  show t.image t.size i = a.subst (t.image t.size)
  rw [hstable, image_succ_of_some h]

@[simp] theorem expand_pointer (c : Bool) (a : Ty) :
    t.expand (.pointer c a) = .pointer c (t.expand a) := rfl

@[simp] theorem expand_func (ps : List Ty) (r : Ty) :
    t.expand (.func ps r) = .func (ps.map t.expand) (t.expand r) :=
  Ty.subst_func _ ps r

/-- What is expanded from the type of a committed hole is expanded from the hole. -/
theorem ExpandsTo.committed {i : Nat} {a b : Ty} (h : t.type? i = some a)
    (hb : t.ExpandsTo a b) : t.ExpandsTo (.hole i) b := by
  have hi := lt_size_of_type? h
  cases hb with
  | hole hhead => exact .hole (.committed hi h hhead)
  | scalar hhead => exact .scalar (.committed hi h hhead)
  | unit hhead => exact .unit (.committed hi h hhead)
  | pointer hhead hb => exact .pointer (.committed hi h hhead) hb
  | func hhead hps hr => exact .func (.committed hi h hhead) hps hr

/-- A type can be expanded if its holes can. -/
theorem expandsTo_of_holes {a : Ty}
    (h : ∀ i ∈ a.holes, t.ExpandsTo (.hole i) (t.expand (.hole i))) :
    t.ExpandsTo a (t.expand a) := by
  induction a using Ty.induct with
  | scalar s => exact .scalar (.known fun i ↦ by simp)
  | unit => exact .unit (.known fun i ↦ by simp)
  | pointer c a ih => exact .pointer (.known fun i ↦ by simp) (ih h)
  | func ps r ihps ihr =>
    rw [expand_func]
    refine .func (.known fun i ↦ by simp) ?_ (ihr fun i hi ↦ h i (Ty.mem_holes_func.2 (.inr hi)))
    refine List.forall₂_map_right_iff.2 (List.forall₂_same.2 fun a ha ↦ ?_)
    exact ihps a ha fun i hi ↦ h i (Ty.mem_holes_func.2 (.inl ⟨a, ha, hi⟩))
  | hole i => exact h i (List.mem_singleton.2 rfl)

/-- **Expanding ends**, and `expand` is what it ends with. -/
theorem expandsTo_expand (ht : t.Valid) (hacyclic : t.Acyclic) {a : Ty} (ha : t.Covers a) :
    t.ExpandsTo a (t.expand a) := by
  refine expandsTo_of_holes fun i hi ↦ hole_induction ht hacyclic
    (P := fun a ↦ t.ExpandsTo a (t.expand a)) ?_ ?_ (ha i hi)
  · intro i hi hnone
    rw [expand_of_none hnone]
    exact .hole (.vacant hi hnone)
  · intro i a _ hsome ih
    rw [expand_of_some ht hacyclic hsome]
    exact (expandsTo_of_holes ih).committed hsome

/-! ### Description -/

theorem holeName_of_none {i : Nat} (h : t.type? i = none) (n : Nat) :
    t.holeName n i = (t.kind i).name := by
  cases n with
  | zero => rfl
  | succ n => rw [holeName, h]

theorem holeName_succ_of_some {i n : Nat} {a : Ty} (h : t.type? i = some a) :
    t.holeName (n + 1) i = a.render (t.holeName n) := by
  rw [holeName, h]

/-- How a hole is named is determined by how the holes it is committed to are named. -/
theorem holeName_succ_congr {n m i : Nat}
    (h : ∀ a, t.type? i = some a → ∀ j ∈ a.holes, t.holeName n j = t.holeName m j) :
    t.holeName (n + 1) i = t.holeName (m + 1) i := by
  cases htype : t.type? i with
  | none => rw [holeName_of_none htype, holeName_of_none htype]
  | some a =>
    rw [holeName_succ_of_some htype, holeName_succ_of_some htype]
    exact Ty.render_congr (h a htype)

theorem describe_of_some (ht : t.Valid) (hacyclic : t.Acyclic) {i : Nat} {a : Ty}
    (h : t.type? i = some a) : t.describe (.hole i) = t.describe a := by
  have hstable : t.holeName t.size i = t.holeName (t.size + 1) i :=
    follow_size (f := t.holeName) hacyclic ht (fun _ _ _ ↦ holeName_succ_congr)
      (lt_size_of_type? h)
  show t.holeName t.size i = a.render (t.holeName t.size)
  rw [hstable, holeName_succ_of_some h]

theorem DescribesTo.committed {i : Nat} {a : Ty} {text : String} (h : t.type? i = some a)
    (hb : t.DescribesTo a text) : t.DescribesTo (.hole i) text := by
  have hi := lt_size_of_type? h
  cases hb with
  | hole hhead => exact .hole (.committed hi h hhead)
  | scalar hhead => exact .scalar (.committed hi h hhead)
  | unit hhead => exact .unit (.committed hi h hhead)
  | pointer hhead hb => exact .pointer (.committed hi h hhead) hb
  | func hhead hps hr => exact .func (.committed hi h hhead) hps hr

/-- A type can be described if its holes can. -/
theorem describesTo_of_holes {a : Ty}
    (h : ∀ i ∈ a.holes, t.DescribesTo (.hole i) (t.describe (.hole i))) :
    t.DescribesTo a (t.describe a) := by
  induction a using Ty.induct with
  | scalar s => exact .scalar (.known fun i ↦ by simp)
  | unit => exact .unit (.known fun i ↦ by simp)
  | pointer c a ih =>
    have hb := DescribesTo.pointer (c := c) (.known fun i ↦ by simp) (ih h)
    cases c <;> exact hb
  | func ps r ihps ihr =>
    have hdescribe : t.describe (.func ps r) =
        Ty.renderParams (ps.map t.describe) ++ " -> " ++ t.describe r := by
      rw [describe, Ty.render, Ty.renderAll_eq_map]
      rfl
    rw [hdescribe]
    refine .func (.known fun i ↦ by simp) ?_ (ihr fun i hi ↦ h i (Ty.mem_holes_func.2 (.inr hi)))
    refine List.forall₂_map_right_iff.2 (List.forall₂_same.2 fun a ha ↦ ?_)
    exact ihps a ha fun i hi ↦ h i (Ty.mem_holes_func.2 (.inl ⟨a, ha, hi⟩))
  | hole i => exact h i (List.mem_singleton.2 rfl)

/-- **Describing ends**, and `describe` is what it ends with. -/
theorem describesTo_describe (ht : t.Valid) (hacyclic : t.Acyclic) {a : Ty} (ha : t.Covers a) :
    t.DescribesTo a (t.describe a) := by
  refine describesTo_of_holes fun i hi ↦ hole_induction ht hacyclic
    (P := fun a ↦ t.DescribesTo a (t.describe a)) ?_ ?_ (ha i hi)
  · intro i hi hnone
    show t.DescribesTo (.hole i) (t.holeName t.size i)
    rw [holeName_of_none hnone, ← kind_find]
    exact .hole (.vacant hi hnone)
  · intro i a _ hsome ih
    rw [describe_of_some ht hacyclic hsome]
    exact (describesTo_of_holes ih).committed hsome

end Reading

end FrontEnd.Table
