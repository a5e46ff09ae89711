import FrontEnd.Proofs.Table.Reading

/-!
# What a table says

A table is a set of constraints on the types of its holes, and its meaning is the set of its
**solutions**: the assignments of concrete types under which the holes of one class get one type,
the limit of the class admits it, and a committed class gets the type it is committed to.

Each operation is then known by what it does to the solutions. A commitment keeps those in which the
hole has the type, a limit those in which it is admitted, a merge those in which both holes have the
same type. An operation that fails on open holes fails because no solution is like that.

The first and the third condition do not need concrete types. An assignment with these two
**respects** the table; expanding a type is such an assignment, whatever is still open.
-/

namespace FrontEnd.Table

/-- An assignment **respects** a table if holes of one class get the same type, and a committed
class gets the type it is committed to. -/
structure Respects (t : Table) (s : Nat → Ty) : Prop where
  /-- Holes of one class get the same type. -/
  sameClass : ∀ {i j}, i < t.size → j < t.size → t.find i = t.find j → s i = s j
  /-- A committed class gets its type. -/
  committed : ∀ {i a}, t.type? i = some a → s i = a.subst s

/-- A **solution** of a table: an assignment of concrete types to its holes that respects it and
obeys its limits. -/
structure Solution (t : Table) (s : Nat → Ty) : Prop extends t.Respects s where
  /-- Every hole gets a concrete type. -/
  concrete : ∀ {i}, i < t.size → (s i).isConcrete = true
  /-- The limit of its class admits it. -/
  admitted : ∀ {i}, i < t.size → (t.kind i).admits (s i) = true

variable {t u : Table} {s : Nat → Ty} {i j : Nat} {a : Ty}

theorem Respects.find (h : t.Respects s) (hi : i < t.size) : s (t.find i) = s i :=
  h.sameClass (find_lt hi) hi (find_find t i)

/-- The head of a type means the same as the type. -/
theorem Respects.head (h : t.Respects s) (ht : t.Valid) (ha : t.Covers a) :
    (t.head a).subst s = a.subst s := by
  have hheadOf : ∀ n i, i < t.size → (t.headOf n i).subst s = s i := by
    intro n
    induction n with
    | zero => exact fun i hi ↦ h.find hi
    | succ n ih =>
      intro i hi
      cases htype : t.type? i with
      | none =>
        rw [headOf_of_none htype]
        exact h.find hi
      | some b =>
        by_cases hb : ∃ j, b = .hole j
        · obtain ⟨j, rfl⟩ := hb
          rw [headOf_succ_of_hole htype, ih j (ht.covers htype j (List.mem_singleton.2 rfl))]
          exact (h.committed htype).symm
        · rw [headOf_succ_of_known htype fun j hj ↦ hb ⟨j, hj⟩]
          exact (h.committed htype).symm
  cases a with
  | hole i => exact hheadOf _ i (ha i (List.mem_singleton.2 rfl))
  | _ => rfl

/-! ### Steps and solutions -/

/-- What a step does to the assignments that respect a table. -/
theorem Step.respects_iff {c : HoleClass} (h : t.Step i j c u) :
    u.Respects s ↔ t.Respects s ∧ s i = s j ∧ ∀ a, c.type? = some a → s i = a.subst s := by
  have hlt : ∀ {k}, k < t.size → k < u.size := fun hk ↦ h.size_eq ▸ hk
  constructor
  · intro hu
    refine ⟨⟨fun hk hl hkl ↦ ?_, fun hk ↦ hu.committed (h.type?_mono hk)⟩, ?_, fun a ha ↦ ?_⟩
    · exact hu.sameClass (hlt hk) (hlt hl) (h.find_eq_of_find_eq hkl)
    · exact hu.sameClass (hlt h.left_lt) (hlt h.right_lt) h.find_eq_find
    · exact hu.committed ((h.type?_of_mem (.inl rfl)).trans ha)
  · rintro ⟨ht, hij, hc⟩
    -- both fused classes have the type of `i`
    have hmem : ∀ {k}, k < t.size → t.find k = t.find i ∨ t.find k = t.find j → s k = s i := by
      rintro k hk (hki | hkj)
      · exact ht.sameClass hk h.left_lt hki
      · exact (ht.sameClass hk h.right_lt hkj).trans hij.symm
    refine ⟨fun hk hl hkl ↦ ?_, fun {k a} hk ↦ ?_⟩
    · rw [h.size_eq] at hk hl
      rcases h.find_eq_iff.1 hkl with hkl | ⟨hk', hl'⟩
      · exact ht.sameClass hk hl hkl
      · rw [hmem hk hk', hmem hl hl']
    · by_cases hmemk : t.find k = t.find i ∨ t.find k = t.find j
      · have hlt : k < t.size := h.size_eq ▸ lt_size_of_type? hk
        rw [hmem hlt hmemk]
        exact hc a (h.type?_of_mem hmemk ▸ hk)
      · exact ht.committed (h.type?_of_not_mem (not_or.1 hmemk).1 (not_or.1 hmemk).2 ▸ hk)

/-- **What a step does to the solutions.** -/
theorem Step.solution_iff {c : HoleClass} (h : t.Step i j c u) :
    u.Solution s ↔ t.Solution s ∧ s i = s j ∧ c.kind.admits (s i) = true ∧
      ∀ a, c.type? = some a → s i = a.subst s := by
  constructor
  · intro hu
    obtain ⟨ht, hij, hc⟩ := h.respects_iff.1 hu.toRespects
    refine ⟨{ ht with
      concrete := fun hk ↦ hu.concrete (h.size_eq ▸ hk)
      admitted := fun {k} hk ↦ (h.refines k).admits _ (hu.admitted (h.size_eq ▸ hk)) }, hij, ?_, hc⟩
    have hadmits := hu.admitted (h.size_eq ▸ h.left_lt)
    rwa [kind, h.classOf_of_mem (.inl rfl)] at hadmits
  · rintro ⟨ht, hij, hadmits, hc⟩
    have hu := h.respects_iff.2 ⟨ht.toRespects, hij, hc⟩
    refine { hu with
      concrete := fun hk ↦ ht.concrete (h.size_eq ▸ hk)
      admitted := fun {k} hk ↦ ?_ }
    have hk' : k < t.size := h.size_eq ▸ hk
    by_cases hmem : t.find k = t.find i ∨ t.find k = t.find j
    · have hki : s k = s i :=
        hmem.elim (ht.sameClass hk' h.left_lt) fun hkj ↦
          (ht.sameClass hk' h.right_lt hkj).trans hij.symm
      rw [kind, h.classOf_of_mem hmem, hki]
      exact hadmits
    · rw [kind, h.classOf_of_not_mem (not_or.1 hmem).1 (not_or.1 hmem).2]
      exact ht.admitted hk'

theorem Becomes.respects {Q : Ty → Prop} (h : Becomes Q t u) (hu : u.Respects s) :
    t.Respects s := by
  induction h with
  | refl => exact hu
  | tail _ hstep ih =>
    obtain ⟨i, j, c, hstep, -⟩ := hstep
    exact ih (hstep.respects_iff.1 hu).1

/-- **Steps lose solutions and gain none.** -/
theorem Becomes.solution {Q : Ty → Prop} (h : Becomes Q t u) (hu : u.Solution s) :
    t.Solution s := by
  induction h with
  | refl => exact hu
  | tail _ hstep ih =>
    obtain ⟨i, j, c, hstep, -⟩ := hstep
    exact ih (hstep.solution_iff.1 hu).1

/-! ### The operations -/

theorem respects_commit? (hi : i < t.size) (h : t.commit? i a = some u) :
    u.Respects s ↔ t.Respects s ∧ s i = a.subst s := by
  rw [(step_commit? hi h).respects_iff]
  exact and_congr_right fun _ ↦
    ⟨fun hc ↦ hc.2 a rfl, fun ha ↦ ⟨rfl, fun b hb ↦ Option.some.inj hb ▸ ha⟩⟩

theorem solution_commit? (hi : i < t.size) (h : t.commit? i a = some u) :
    u.Solution s ↔ t.Solution s ∧ s i = a.subst s := by
  rw [(step_commit? hi h).solution_iff]
  exact and_congr_right fun ht ↦
    ⟨fun hc ↦ hc.2.2 a rfl, fun ha ↦ ⟨rfl, ht.admitted hi, fun b hb ↦ Option.some.inj hb ▸ ha⟩⟩

theorem solution_limit? {k : HoleKind} (hi : i < t.size) (h : t.limit? i k = some u) :
    u.Solution s ↔ t.Solution s ∧ k.admits (s i) = true := by
  obtain ⟨l, hl, hstep⟩ := step_limit? hi h
  rw [hstep.solution_iff]
  refine and_congr_right fun ht ↦ ⟨fun hc ↦ ((HoleKind.admits_meet? hl _).1 hc.2.1).2, fun hk ↦ ?_⟩
  exact ⟨rfl, (HoleKind.admits_meet? hl _).2 ⟨ht.admitted hi, hk⟩, fun a ha ↦ ht.committed ha⟩

theorem respects_join? [RootChoice] (hi : i < t.size) (hj : j < t.size)
    (h : t.join? i j = some u) : u.Respects s ↔ t.Respects s ∧ s i = s j := by
  rcases step_join? hi hj h with ⟨hij, rfl⟩ | ⟨c, -, hstep, hc⟩
  · exact ⟨fun ht ↦ ⟨ht, ht.sameClass hi hj hij⟩, And.left⟩
  · rw [hstep.respects_iff]
    refine and_congr_right fun ht ↦ ⟨And.left, fun hij ↦ ⟨hij, fun a ha ↦ ?_⟩⟩
    rcases hc with hc | hc
    · exact ht.committed (hc.symm.trans ha)
    · rw [hij]
      exact ht.committed (hc.symm.trans ha)

theorem solution_join? [RootChoice] (hi : i < t.size) (hj : j < t.size)
    (h : t.join? i j = some u) : u.Solution s ↔ t.Solution s ∧ s i = s j := by
  rcases step_join? hi hj h with ⟨hij, rfl⟩ | ⟨c, hmerge, hstep, hc⟩
  · exact ⟨fun ht ↦ ⟨ht, ht.sameClass hi hj hij⟩, And.left⟩
  · rw [hstep.solution_iff]
    refine and_congr_right fun ht ↦ ⟨And.left, fun hij ↦ ⟨hij, ?_, fun a ha ↦ ?_⟩⟩
    · have hkind := (HoleClass.merge?_eq_some_iff.1 hmerge).1
      refine (HoleKind.admits_meet? hkind _).2 ⟨ht.admitted hi, ?_⟩
      rw [hij]
      exact ht.admitted hj
    · rcases hc with hc | hc
      · exact ht.committed (hc.symm.trans ha)
      · rw [hij]
        exact ht.committed (hc.symm.trans ha)

/-- Only what an assignment says of the holes of a table matters. -/
theorem Solution.congr {s' : Nat → Ty} (ht : t.Valid) (hs : t.Solution s)
    (h : ∀ i < t.size, s' i = s i) : t.Solution s' where
  sameClass hi hj hij := by rw [h _ hi, h _ hj, hs.sameClass hi hj hij]
  committed ha := by
    rw [h _ (lt_size_of_type? ha), hs.committed ha]
    exact Ty.subst_congr fun i hi ↦ (h i (ht.covers ha i hi)).symm
  concrete hi := by rw [h _ hi, hs.concrete hi]
  admitted hi := by rw [h _ hi, hs.admitted hi]

/-- A new hole may have any concrete type that its limit admits. -/
theorem solution_fresh (ht : t.Valid) {k : HoleKind} (hs : t.Solution s)
    (hconcrete : a.isConcrete = true) (hadmits : k.admits a = true) :
    (t.fresh k).Solution fun i ↦ if i = t.size then a else s i := by
  have hold : t.Solution fun i ↦ if i = t.size then a else s i :=
    hs.congr ht fun i hi ↦ if_neg (Nat.ne_of_lt hi)
  have hcases : ∀ {i}, i < (t.fresh k).size → i = t.size ∨ i < t.size := by
    intro i hi
    rw [size_fresh] at hi
    exact (Nat.lt_succ_iff_lt_or_eq.1 hi).symm
  have hfind : ∀ {i}, i < t.size → t.find i ≠ t.find t.size := by
    intro i hi heq
    rw [find_of_ge (Nat.le_refl t.size)] at heq
    exact Nat.ne_of_lt (find_lt hi) heq
  refine ⟨⟨fun {i j} hi hj hij ↦ ?_, fun ha ↦ hold.committed (type?_of_type?_fresh ha)⟩, ?_, ?_⟩
  · rw [find_fresh, find_fresh] at hij
    rcases hcases hi with rfl | hi <;> rcases hcases hj with rfl | hj
    · rfl
    · exact absurd hij.symm (hfind hj)
    · exact absurd hij (hfind hi)
    · exact hold.sameClass hi hj hij
  · intro i hi
    rcases hcases hi with rfl | hi
    · simpa using hconcrete
    · exact hold.concrete hi
  · intro i hi
    rw [kind, classOf_fresh]
    rcases hcases hi with rfl | hi
    · simpa using hadmits
    · rw [if_neg (Nat.ne_of_lt hi)]
      exact hold.admitted hi

/-- An open hole that cannot be committed to a type has it in no solution. -/
theorem no_solution_of_commit? (hs : t.Solution s) (hi : i < t.size) (hnone : t.type? i = none)
    (ha : ∀ j, a ≠ .hole j) (h : t.commit? i a = none) : s i ≠ a.subst s := by
  intro heq
  have hadmits : (t.kind i).admits a = true := by
    rw [← Ty.admits_subst ha s, ← heq]
    exact hs.admitted hi
  have hsome := commit?_eq_some_iff.2 ⟨hnone, hadmits, rfl⟩
  rw [h] at hsome
  exact nomatch hsome

/-- Two open holes that cannot be merged have the same type in no solution. -/
theorem no_solution_of_join? [RootChoice] (hs : t.Solution s) (hi : i < t.size) (hj : j < t.size)
    (hnone : t.type? i = none) (hnone' : t.type? j = none) (h : t.join? i j = none) :
    s i ≠ s j := by
  intro heq
  rcases join?_cases hi hj with ⟨-, hjoin⟩ | ⟨-, hmerge, -⟩ | ⟨-, c, u, -, hjoin, -⟩
  · cases h.symm.trans hjoin
  · have hmeet : (t.kind i).meet? (t.kind j) = none := by
      cases hk : (t.kind i).meet? (t.kind j) with
      | none => rfl
      | some l =>
        have hsome : (t.classOf i).merge? (t.classOf j) = some { kind := l, type? := none } := by
          refine HoleClass.merge?_eq_some_iff.2 ⟨hk, ?_, rfl⟩
          rw [show (t.classOf i).type? = none from hnone,
            show (t.classOf j).type? = none from hnone', HoleClass.commonType?]
        cases hmerge.symm.trans hsome
    have hfalse := HoleKind.not_admits_of_meet? hmeet (hs.admitted hi)
    rw [heq, hs.admitted hj] at hfalse
    cases hfalse
  · cases h.symm.trans hjoin

/-! ### Expansion is an assignment -/

theorem expand_eq_subst (t : Table) (a : Ty) :
    t.expand a = a.subst fun i ↦ t.expand (.hole i) := rfl

theorem expand_find (ht : t.Valid) (hacyclic : t.Acyclic) (h : t.find i = t.find j) :
    t.expand (.hole i) = t.expand (.hole j) := by
  cases htype : t.type? i with
  | none => rw [expand_of_none htype, expand_of_none (type?_congr h ▸ htype), h]
  | some a =>
    rw [expand_of_some ht hacyclic htype, expand_of_some ht hacyclic (type?_congr h ▸ htype)]

/-- **Expanding respects the table**, open holes and all. -/
theorem respects_expand (ht : t.Valid) (hacyclic : t.Acyclic) :
    t.Respects fun i ↦ t.expand (.hole i) where
  sameClass _ _ h := expand_find ht hacyclic h
  committed h := expand_of_some ht hacyclic h

/-- If a table is respected and the limits of open holes are obeyed, so are those of committed ones:
a limit that says anything was asked when the class was committed. -/
theorem admitted_of_respects (ht : t.Valid) (hs : t.Respects s)
    (hopen : ∀ i, i < t.size → t.type? i = none → (t.kind i).admits (s i) = true)
    (hi : i < t.size) : (t.kind i).admits (s i) = true := by
  cases htype : t.type? i with
  | none => exact hopen i hi htype
  | some a =>
    have hadmits := ht.admits htype
    rw [hs.committed htype]
    by_cases ha : ∃ j, a = .hole j
    · obtain ⟨j, rfl⟩ := ha
      cases hk : t.kind i with
      | null => rfl
      | _ => rw [hk] at hadmits; exact absurd hadmits (by simp [HoleKind.admits, Ty.isNumeric,
          Ty.isInt, Ty.isFloat])
    · rw [Ty.admits_subst fun j hj ↦ ha ⟨j, hj⟩]
      exact hadmits

/-- In a table without open holes, expanding gives concrete types. -/
theorem isConcrete_expand (ht : t.Valid) (hacyclic : t.Acyclic)
    (hclosed : ∀ i < t.size, t.type? i ≠ none) (ha : t.Covers a) :
    (t.expand a).isConcrete = true := by
  refine Ty.isConcrete_subst fun i hi ↦ ?_
  refine hole_induction ht hacyclic (P := fun a ↦ (t.expand a).isConcrete = true) ?_ ?_ (ha i hi)
  · exact fun i hi hnone ↦ absurd hnone (hclosed i hi)
  · intro i a _ hsome ih
    rw [expand_of_some ht hacyclic hsome]
    exact Ty.isConcrete_subst ih

/-- **A table without open holes has its expansion for a solution.** -/
theorem solution_expand (ht : t.Valid) (hacyclic : t.Acyclic)
    (hclosed : ∀ i < t.size, t.type? i ≠ none) : t.Solution fun i ↦ t.expand (.hole i) where
  toRespects := respects_expand ht hacyclic
  concrete hi := isConcrete_expand ht hacyclic hclosed fun _ hj ↦ List.mem_singleton.1 hj ▸ hi
  admitted hi := admitted_of_respects ht (respects_expand ht hacyclic)
    (fun i hi hnone ↦ absurd hnone (hclosed i hi)) hi

/-- A type that the limit of an open hole admits. -/
def filler (t : Table) (i : Nat) : Ty :=
  (t.kind i).default?.getD .unit

theorem admits_filler (t : Table) (i : Nat) : (t.kind i).admits (t.filler i) = true := by
  rw [filler]
  cases t.kind i <;> rfl

theorem isConcrete_filler (t : Table) (i : Nat) : (t.filler i).isConcrete = true := by
  rw [filler]
  cases t.kind i <;> rfl

/-- To expand and to fill what is open solves a table without circles. -/
theorem solution_filler (ht : t.Valid) (hacyclic : t.Acyclic) :
    t.Solution fun i ↦ (t.expand (.hole i)).subst t.filler := by
  have hrespects : t.Respects fun i ↦ (t.expand (.hole i)).subst t.filler := by
    refine ⟨fun _ _ h ↦ ?_, fun {i a} h ↦ ?_⟩
    · rw [expand_find ht hacyclic h]
    · rw [expand_of_some ht hacyclic h, expand_eq_subst, Ty.subst_subst]
  refine { hrespects with
    concrete := fun _ ↦ Ty.isConcrete_subst fun j _ ↦ isConcrete_filler t j
    admitted := fun hi ↦ admitted_of_respects ht hrespects (fun i _ hnone ↦ ?_) hi }
  rw [expand_of_none hnone, Ty.subst_hole, ← kind_find]
  exact admits_filler t _

/-- **A table without circles has a solution.** -/
theorem exists_solution (ht : t.Valid) (hacyclic : t.Acyclic) : ∃ s, t.Solution s :=
  ⟨_, solution_filler ht hacyclic⟩

end FrontEnd.Table
