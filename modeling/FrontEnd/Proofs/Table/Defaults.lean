import FrontEnd.Proofs.Table.Operations

/-!
# What defaults leave behind

To settle all holes of a table goes through them one by one, but what comes of it can be said class
by class: no class changes its members or its limit, a class that is committed stays as it is, and
an open one takes the default of its limit, if there is one (`HoleClass.settled`). The order does
not show, and neither does a second time: `settled` is idempotent, so a settled table is left alone
(`Table.settleAll_settleAll`).
-/

namespace FrontEnd

namespace HoleClass

/-- **A class with its default**: what it is committed to, or else the default of its limit. -/
def settled (c : HoleClass) : HoleClass :=
  { c with type? := c.type?.or c.kind.default? }

@[simp] theorem kind_settled (c : HoleClass) : c.settled.kind = c.kind := rfl

@[simp] theorem type?_settled (c : HoleClass) : c.settled.type? = c.type?.or c.kind.default? := rfl

@[simp] theorem settled_settled (c : HoleClass) : c.settled.settled = c.settled := by
  rw [settled, type?_settled, kind_settled, Option.or_assoc, Option.or_self]
  rfl

theorem settled_of_isSome {c : HoleClass} (h : c.type?.isSome = true) : c.settled = c := by
  rw [settled, Option.or_of_isSome h]

theorem settled_of_default?_eq_none {c : HoleClass} (h : c.kind.default? = none) :
    c.settled = c := by
  rw [settled, h, Option.or_none]

end HoleClass

namespace Table

variable {t : Table} {i j : Nat} {a : Ty}

/-! ### One hole -/

/-- A hole is left alone if its class would not change. -/
theorem settle_of_settled (h : (t.classOf i).settled = t.classOf i) : t.settle i = t := by
  rcases settle_cases t i with heq | ⟨a, hnone, hdefault, -⟩
  · exact heq
  · have hnone : (t.classOf i).type? = none := hnone
    have hdefault : (t.classOf i).kind.default? = some a := hdefault
    have htype := congrArg HoleClass.type? h
    rw [HoleClass.type?_settled, hnone, hdefault] at htype
    cases htype

/-- **To settle a hole** leaves the table alone or writes the settled class. -/
theorem settle_eq_putClass (t : Table) (i : Nat) :
    t.settle i = t ∧ (t.classOf i).settled = t.classOf i ∨
      t.settle i = t.putClass i (t.classOf i).settled := by
  cases htype : t.type? i with
  | some a =>
    exact .inl ⟨by rw [settle, htype], HoleClass.settled_of_isSome (Option.isSome_of_mem htype)⟩
  | none =>
    cases hdefault : (t.kind i).default? with
    | none =>
      exact .inl ⟨by rw [settle, htype, hdefault], HoleClass.settled_of_default?_eq_none hdefault⟩
    | some a =>
      have hcommit := commit?_eq_some_iff.2 ⟨htype, HoleKind.admits_default? hdefault, rfl⟩
      have hclass : (t.classOf i).settled = { kind := t.kind i, type? := some a } := by
        have htype : (t.classOf i).type? = none := htype
        have hdefault : (t.classOf i).kind.default? = some a := hdefault
        rw [HoleClass.settled, htype, hdefault]
        rfl
      exact .inr (by rw [settle, htype, hdefault, hclass]; exact congrArg (Option.getD · t) hcommit)

theorem find_settle (t : Table) (i j : Nat) : (t.settle i).find j = t.find j := by
  rcases settle_eq_putClass t i with ⟨heq, -⟩ | heq <;> rw [heq]
  rw [find_putClass]

theorem size_settle (t : Table) (i : Nat) : (t.settle i).size = t.size := by
  rcases settle_eq_putClass t i with ⟨heq, -⟩ | heq <;> rw [heq]
  rfl

/-- Its class is settled, and no other. -/
theorem classOf_settle (hi : i < t.size) (j : Nat) : (t.settle i).classOf j =
    if t.find j = t.find i then (t.classOf j).settled else t.classOf j := by
  rcases settle_eq_putClass t i with ⟨heq, hsettled⟩ | heq
  · rw [heq]
    split_ifs with hj
    · rw [classOf_congr hj, hsettled]
    · rfl
  · rw [heq, (fuses_putClass hi _).classOf_eq]
    simp only [or_self]
    split_ifs with hj
    · rw [classOf_congr hj]
    · rfl

/-! ### All holes -/

theorem foldl_settle (is : List Nat) (t : Table) (his : ∀ i ∈ is, i < t.size) :
    (is.foldl settle t).size = t.size ∧ (∀ j, (is.foldl settle t).find j = t.find j) ∧
      ∀ j, (is.foldl settle t).classOf j =
        if ∃ i ∈ is, t.find j = t.find i then (t.classOf j).settled else t.classOf j := by
  induction is generalizing t with
  | nil => exact ⟨rfl, fun _ ↦ rfl, fun j ↦ by simp⟩
  | cons i is ih =>
    obtain ⟨hi, his⟩ := List.forall_mem_cons.1 his
    obtain ⟨hsize, hfind, hclass⟩ := ih (t.settle i) fun j hj ↦ size_settle t i ▸ his j hj
    rw [List.foldl_cons]
    refine ⟨hsize.trans (size_settle t i), fun j ↦ (hfind j).trans (find_settle t i j), fun j ↦ ?_⟩
    rw [hclass, classOf_settle hi]
    simp only [find_settle, List.exists_mem_cons_iff]
    -- settling a class again changes nothing, so it does not matter how often it is met
    by_cases hj : t.find j = t.find i <;> by_cases hjs : ∃ k ∈ is, t.find j = t.find k <;>
      simp [hj, hjs]

@[simp] theorem size_settleAll (t : Table) : t.settleAll.size = t.size :=
  (foldl_settle _ t fun _ ↦ List.mem_range.1).1

@[simp] theorem find_settleAll (t : Table) (j : Nat) : t.settleAll.find j = t.find j :=
  (foldl_settle _ t fun _ ↦ List.mem_range.1).2.1 j

/-- **To settle all holes** settles every class. -/
theorem classOf_settleAll (t : Table) (j : Nat) :
    t.settleAll.classOf j = (t.classOf j).settled := by
  rw [settleAll, (foldl_settle _ t fun _ ↦ List.mem_range.1).2.2]
  split_ifs with hj
  · rfl
  · have hge : t.size ≤ j := Nat.not_lt.1 fun hlt ↦ hj ⟨j, List.mem_range.2 hlt, rfl⟩
    -- what is known of a hole that is not there is that it is open and has no limit
    have hdefault : t.classOf j = default := by
      rw [classOf, find_of_ge hge, List.getElem?_eq_none (t.classes_length ▸ hge)]
      rfl
    rw [hdefault]
    rfl

@[simp] theorem kind_settleAll (t : Table) (j : Nat) : t.settleAll.kind j = t.kind j := by
  rw [kind, classOf_settleAll]
  rfl

theorem type?_settleAll (t : Table) (j : Nat) :
    t.settleAll.type? j = (t.type? j).or (t.kind j).default? := by
  rw [type?, classOf_settleAll]
  rfl

/-- **A class that fits every type stays open** when all holes are settled. -/
theorem type?_settleAll_of_null (hnone : t.type? i = none) (hnull : t.kind i = .null) :
    t.settleAll.type? i = none := by
  rw [type?_settleAll, hnone, hnull]
  rfl

/-- **A second time** changes nothing. -/
theorem settleAll_settleAll (t : Table) : t.settleAll.settleAll = t.settleAll := by
  have hfold (is : List Nat) : is.foldl settle t.settleAll = t.settleAll := by
    induction is with
    | nil => rfl
    | cons i is ih =>
      have hsettled : (t.settleAll.classOf i).settled = t.settleAll.classOf i := by
        rw [classOf_settleAll, HoleClass.settled_settled]
      rw [List.foldl_cons, settle_of_settled hsettled, ih]
  exact hfold _

end Table

end FrontEnd
