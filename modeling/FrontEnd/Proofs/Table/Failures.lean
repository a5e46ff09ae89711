import FrontEnd.Proofs.Table.Chains

/-!
# Questions that fail leave nothing behind

Making two types agree goes from part to part, and what was decided for one part stays when a later
one fails. A pointer has one part only, so what can go wrong are function types: as long as these
are known to the end, only the end of a chain of pointers can be open, and a failure comes before
anything is decided (`Table.unify_of_isChain`). The same then goes for limits and for casts to
concrete types.

What counts is what a type **expands to**. The function types in it may have been found through
holes, and other types that the table knows may be as they like. Nor does it matter here whether the
table knows all holes that its types mention, so the first section reads types through a table whose
commitments may lead out of it: what bounds the number of commitments on one way is how many
committed holes it meets (`Table.commitDepth`).
-/

namespace FrontEnd.Table

variable {t : Table} {i j : Nat} {a b : Ty}

/-! ### Reading without knowing all holes -/

/-- How many commitments can be followed one after the other from a hole. -/
noncomputable def commitDepth (t : Table) (i : Nat) : Nat :=
  if (t.type? i).isSome then t.reachCount i + 1 else 0

theorem commitDepth_of_none (h : t.type? i = none) : t.commitDepth i = 0 := by
  simp [commitDepth, h]

theorem commitDepth_of_some (h : t.type? i = some a) : t.commitDepth i = t.reachCount i + 1 := by
  simp [commitDepth, h]

section Acyclic

variable (hacyclic : t.Acyclic)

include hacyclic

theorem commitDepth_le_size (i : Nat) : t.commitDepth i ≤ t.size := by
  cases htype : t.type? i with
  | none =>
    rw [commitDepth_of_none htype]
    exact Nat.zero_le _
  | some a =>
    rw [commitDepth_of_some htype]
    exact reachCount_lt_size hacyclic (lt_size_of_type? htype)

theorem commitDepth_lt (h : t.type? i = some a) (hj : j ∈ a.holes) :
    t.commitDepth j < t.commitDepth i := by
  rw [commitDepth_of_some h]
  cases htype : t.type? j with
  | none =>
    rw [commitDepth_of_none htype]
    exact Nat.succ_pos _
  | some b =>
    rw [commitDepth_of_some htype]
    have hlt := reachCount_lt hacyclic (lt_size_of_type? htype) (mentions_of_mem h hj)
    omega

/-- Bounds above the depth do not show. -/
theorem image_eq_image {n m : Nat} (hn : t.commitDepth i ≤ n) (hm : t.commitDepth i ≤ m) :
    t.image n i = t.image m i := by
  induction n generalizing m i with
  | zero =>
    cases htype : t.type? i with
    | none => rw [image_of_none htype, image_of_none htype]
    | some a =>
      rw [commitDepth_of_some htype] at hn
      omega
  | succ n ih =>
    cases htype : t.type? i with
    | none => rw [image_of_none htype, image_of_none htype]
    | some a =>
      obtain ⟨m, rfl⟩ : ∃ k, m = k + 1 := by
        rw [commitDepth_of_some htype] at hm
        exact ⟨m - 1, by omega⟩
      rw [image_succ_of_some htype, image_succ_of_some htype]
      refine Ty.subst_congr fun j hj ↦ ?_
      have hlt := commitDepth_lt hacyclic htype hj
      exact ih (by omega) (by omega)

theorem expand_committed (h : t.type? i = some a) : t.expand (.hole i) = t.expand a := by
  have hdepth := commitDepth_le_size hacyclic i
  show t.image t.size i = a.subst (t.image t.size)
  rw [image_eq_image hacyclic hdepth (Nat.le_succ_of_le hdepth), image_succ_of_some h]

theorem expand_hole_find (i : Nat) : t.expand (.hole (t.find i)) = t.expand (.hole i) := by
  cases htype : t.type? i with
  | none =>
    rw [expand_of_none htype, expand_of_none (type?_find t i ▸ htype), find_find]
  | some a =>
    rw [expand_committed hacyclic htype, expand_committed hacyclic (type?_find t i ▸ htype)]

/-- **A type and its head** expand alike. -/
theorem expand_head (a : Ty) : t.expand (t.head a) = t.expand a := by
  have hheadOf (n i : Nat) : t.expand (t.headOf n i) = t.expand (.hole i) := by
    induction n generalizing i with
    | zero => exact expand_hole_find hacyclic i
    | succ n ih =>
      cases htype : t.type? i with
      | none =>
        rw [headOf_of_none htype]
        exact expand_hole_find hacyclic i
      | some b =>
        rw [expand_committed hacyclic htype]
        by_cases hb : ∃ j, b = .hole j
        · obtain ⟨j, rfl⟩ := hb
          rw [headOf_succ_of_hole htype, ih]
        · rw [headOf_succ_of_known htype fun j hj ↦ hb ⟨j, hj⟩]
  cases a with
  | hole i => exact hheadOf _ i
  | _ => rfl

/-- A head that is a hole is open. -/
theorem type?_of_head_eq (h : t.head a = .hole j) : t.type? j = none := by
  have hheadOf {n i : Nat} (hn : t.commitDepth i ≤ n) (hj : t.headOf n i = .hole j) :
      t.type? j = none := by
    induction n generalizing i with
    | zero =>
      cases htype : t.type? i with
      | none =>
        rw [headOf_of_none htype] at hj
        rw [← Ty.hole.inj hj, type?_find, htype]
      | some b =>
        rw [commitDepth_of_some htype] at hn
        omega
    | succ n ih =>
      cases htype : t.type? i with
      | none =>
        rw [headOf_of_none htype] at hj
        rw [← Ty.hole.inj hj, type?_find, htype]
      | some b =>
        by_cases hb : ∃ k, b = .hole k
        · obtain ⟨k, rfl⟩ := hb
          rw [headOf_succ_of_hole htype] at hj
          have hlt := commitDepth_lt hacyclic htype (List.mem_singleton.2 rfl)
          exact ih (by omega) hj
        · have hb : ∀ k, b ≠ .hole k := fun k hk ↦ hb ⟨k, hk⟩
          rw [headOf_succ_of_known htype hb] at hj
          exact absurd hj (hb j)
  cases a with
  | hole i => exact hheadOf (commitDepth_le_size hacyclic i) h
  | _ => cases h

end Acyclic

/-- Chains expand to chains if classes are committed to chains. -/
theorem Tidy.isChain_expand (ht : t.Tidy) (ha : a.isChain = true) :
    (t.expand a).isChain = true := by
  have himage (n i : Nat) : (t.image n i).isChain = true := by
    induction n generalizing i with
    | zero => rfl
    | succ n ih =>
      cases htype : t.type? i with
      | none =>
        rw [image_of_none htype]
        rfl
      | some b =>
        rw [image_succ_of_some htype]
        exact Ty.isChain_subst (fun j _ ↦ ih j) (ht.chain htype)
  exact Ty.isChain_subst (fun i _ ↦ himage _ i) ha

/-! ### Failures -/

section Unify

variable [RootChoice]

/-- Types that are known to the end agree or not, and leave the table alone. -/
theorem unifyTo_of_isConcrete_expand (hacyclic : t.Acyclic) (n : Nat)
    (ha : (t.expand a).isConcrete = true) (hb : (t.expand b).isConcrete = true) :
    (unifyTo n t a b).2 = t := by
  have hparts : OnParts fun a ↦ (t.expand a).isConcrete = true :=
    { elem := fun h ↦ h
      param := fun h hp ↦ by
        rw [expand_func, Ty.isConcrete_func] at h
        exact h.1 _ (List.mem_map_of_mem hp)
      result := fun h ↦ by
        rw [expand_func, Ty.isConcrete_func] at h
        exact h.2 }
  refine unifyTo_eq_of_onParts hparts (fun {a} ha ↦ ?_) n ha hb
  rw [expand_head hacyclic]
  refine ⟨ha, fun i hi ↦ ?_⟩
  -- a head that is a hole is open, and then the hole is still there in the expanded type
  rw [← expand_head hacyclic, hi, expand_of_none (type?_of_head_eq hacyclic hi)] at ha
  cases ha

theorem unifyTo_of_isChain (hacyclic : t.Acyclic) (n : Nat) (ha : (t.expand a).isChain = true)
    (hb : (t.expand b).isChain = true) (h : (unifyTo n t a b).1 = false) :
    (unifyTo n t a b).2 = t := by
  induction n generalizing a b with
  | zero => rfl
  | succ n ih =>
    have ha' := expand_head hacyclic a ▸ ha
    have hb' := expand_head hacyclic b ▸ hb
    -- function types are known to the end, and then they leave the table alone in any case
    have hfunc {ps qs : List Ty} {r s : Ty} (hx : t.head a = .func ps r)
        (hy : t.head b = .func qs s) : (unifyTo (n + 1) t a b).2 = t := by
      rw [hx, expand_func] at ha'
      rw [hy, expand_func] at hb'
      refine unifyTo_of_isConcrete_expand hacyclic _ ?_ ?_
      · rw [← expand_head hacyclic, hx, expand_func]
        exact ha'
      · rw [← expand_head hacyclic, hy, expand_func]
        exact hb'
    have hmeet := meeting_unifyTo n t a b
    generalize unifyTo (n + 1) t a b = r at hmeet h hfunc ⊢
    cases hmeet with
    | join => rw [eq_none_of_orElseSame h, orElseSame]
    | commitLeft => rw [eq_none_of_orElseSame h, orElseSame]
    | commitRight => rw [eq_none_of_orElseSame h, orElseSame]
    | pointer hx hy =>
      rw [hx, expand_pointer] at ha'
      rw [hy, expand_pointer] at hb'
      exact ih ha' hb' h
    | func hx hy => exact hfunc hx hy
    | params hx hy => exact hfunc hx hy
    | other => rfl

/-- **A failed attempt to make two chains agree** leaves the table as it was. -/
theorem unify_of_isChain (hacyclic : t.Acyclic) (ha : (t.expand a).isChain = true)
    (hb : (t.expand b).isChain = true) (h : (t.unify a b).1 = false) : (t.unify a b).2 = t :=
  unifyTo_of_isChain hacyclic _ ha hb h

end Unify

/-- **A limit that cannot be met** leaves the table as it was. -/
theorem requireLimit_of_fails {k : HoleKind} (h : (t.requireLimit k a).1 = false) :
    (t.requireLimit k a).2 = t := by
  by_cases hhole : ∃ i, t.head a = .hole i
  · obtain ⟨i, hi⟩ := hhole
    rw [requireLimit_of_hole hi] at h ⊢
    rw [eq_none_of_orElseSame h, orElseSame]
  · rw [requireLimit_of_known fun i hi ↦ hhole ⟨i, hi⟩]

theorem castHole_of_fails {dest : Ty} (h : (t.castHole dest i).1 = false) :
    (t.castHole dest i).2 = t := by
  rw [castHole] at h ⊢
  split_ifs at h ⊢
  · rw [eq_none_of_orElseSame h, orElseSame]
  · rw [eq_none_of_orElseSame h, orElseSame]
  · rfl

/-- **A failed cast** of a chain to a concrete type leaves the table as it was. -/
theorem cast_of_fails [RootChoice] (hacyclic : t.Acyclic) {dest src : Ty}
    (hdest : dest.isConcrete = true) (hsrc : (t.expand src).isChain = true)
    (h : (t.cast dest src).1 = false) : (t.cast dest src).2 = t := by
  have hexpand {b : Ty} (hb : b.isConcrete = true) : (t.expand b).isChain = true := by
    rw [expand, Ty.subst_of_isConcrete hb]
    exact Ty.isChain_of_isConcrete hb
  by_cases hhole : ∃ i, t.head src = .hole i
  · obtain ⟨i, hi⟩ := hhole
    rw [cast_of_hole hi] at h ⊢
    exact castHole_of_fails h
  · rw [cast_of_known fun i hi ↦ hhole ⟨i, hi⟩, head_of_isConcrete hdest] at h ⊢
    rw [← expand_head hacyclic] at hsrc
    rcases castKnown_cases t dest (t.head src) with
      ⟨ok, heq, -⟩ | ⟨c, d, x, y, hx, rfl, -, heq⟩ | heq
    · rw [heq]
    · rw [heq] at h ⊢
      rw [hx, expand_pointer] at hsrc
      exact unify_of_isChain hacyclic hsrc (hexpand hdest) h
    · rw [heq] at h ⊢
      exact unify_of_isChain hacyclic (hexpand hdest) hsrc h

end FrontEnd.Table
