import FrontEnd.Proofs.Table.Regions

/-!
# No circle arises between types that have no hole in common

Unification commits a hole to a type without a look at whether the hole occurs in it. While a
program is checked this does no harm, because the two types come from different parts of a
statement, and each is a **chain**: a concrete type, or pointers around one hole. Their holes lie in
two closed sets that have no hole in common, and all that making them agree can do to the table is
one step (`OneStep`): two open holes are merged, or an open hole of one side is committed to a chain
of the other side. From a chain of the other side no commitment leads back.

So a tidy table stays tidy whatever checking asks of it, and changes only within the holes of the
types in question (`evolves_unify`, `evolves_requireLimit`, `evolves_cast`, `evolves_settleAll`).
-/

namespace FrontEnd.Table

open Relation

variable {t u : Table} {S A B : Set Nat} {i j : Nat} {a b : Ty}

/-! ### Circles -/

/-- No circle arises where nothing new is mentioned. -/
theorem acyclic_of_mentions (ht : t.Acyclic) (h : ∀ i j, u.Mentions i j → t.Mentions i j) :
    u.Acyclic :=
  fun i hi ↦ ht i (TransGen.mono h _ _ hi)

/-- **A commitment closes no circle** if it is to a type over a closed set without the hole: no way
leads out of the set. -/
theorem acyclic_commit? (ht : t.Acyclic) (hi : i < t.size) (hB : t.Closed B) (hiB : i ∉ B)
    (ha : a.Within B) (h : t.commit? i a = some u) : u.Acyclic := by
  have hstep := step_commit? hi h
  have hfind : ∀ k, u.find k = t.find k := by
    obtain ⟨-, -, rfl⟩ := commit?_eq_some_iff.1 h
    exact fun k ↦ rfl
  have hedge : ∀ x y, u.Mentions x y → t.Mentions x y ∨ t.find x = t.find i ∧ y ∈ B := by
    rintro x y ⟨b, hb, k, hk, hky⟩
    rw [hfind, hfind] at hky
    by_cases hx : t.find x = t.find i
    · rw [hstep.type?_of_mem (.inl hx), Option.some.injEq] at hb
      exact .inr ⟨hx, hB.mem_of_find_eq (ha k (hb ▸ hk)) hky.symm⟩
    · rw [hstep.type?_of_not_mem hx hx] at hb
      exact .inl ⟨b, hb, k, hk, hky⟩
  have hinside : ∀ x y, x ∈ B → u.Mentions x y → t.Mentions x y ∧ y ∈ B := by
    intro x y hx hxy
    rcases hedge x y hxy with hxy | ⟨hxi, -⟩
    · obtain ⟨b, hb, k, hk, hky⟩ := hxy
      exact ⟨⟨b, hb, k, hk, hky⟩, hB.mem_of_find_eq (hB.within hx hb k hk) hky.symm⟩
    · exact absurd (hB.mem_of_find_eq hx hxi.symm) hiB
  have hinside' : ∀ {x y}, TransGen u.Mentions x y → x ∈ B → TransGen t.Mentions x y ∧ y ∈ B := by
    intro x y hxy hx
    induction hxy with
    | single h => exact ⟨.single (hinside _ _ hx h).1, (hinside _ _ hx h).2⟩
    | tail _ h ih => exact ⟨ih.1.tail (hinside _ _ ih.2 h).1, (hinside _ _ ih.2 h).2⟩
  -- a way in the new table is one in the old table, or it ends inside the set
  have hpath : ∀ {x y}, TransGen u.Mentions x y → TransGen t.Mentions x y ∨ y ∈ B := by
    intro x y hxy
    induction hxy with
    | single h => exact (hedge _ _ h).imp .single And.right
    | tail _ h ih =>
      rcases ih with ih | ih
      · exact (hedge _ _ h).imp ih.tail And.right
      · exact .inr (hinside _ _ ih h).2
  intro x hx
  rcases hpath hx with hcycle | hmem
  · exact ht x hcycle
  · exact ht x (hinside' hx hmem).1

/-- Merging two open classes closes no circle: no way leads on from them. -/
theorem acyclic_join? [RootChoice] (ht : t.Acyclic) (hi : i < t.size) (hj : j < t.size)
    (hnone : t.type? i = none) (hnone' : t.type? j = none) (h : t.join? i j = some u) :
    u.Acyclic := by
  rcases step_join? hi hj h with ⟨-, rfl⟩ | ⟨c, -, hstep, hc⟩
  · exact ht
  have hc : c.type? = none := hc.elim (·.trans hnone) (·.trans hnone')
  let fused : Nat → Prop := fun k ↦ t.find k = t.find i ∨ t.find k = t.find j
  have hend : ∀ x y, u.Mentions x y → ¬ fused x := by
    rintro x y ⟨b, hb, -⟩ hx
    rw [hstep.type?_of_mem hx, hc] at hb
    exact nomatch hb
  have hedge : ∀ x y, u.Mentions x y → t.Mentions x y ∨ fused y := by
    intro x y hxy
    obtain ⟨hxi, hxj⟩ := not_or.1 (hend x y hxy)
    obtain ⟨b, hb, k, hk, hky⟩ := hxy
    rw [hstep.type?_of_not_mem hxi hxj] at hb
    rcases hstep.find_eq_iff.1 hky with hky | ⟨-, hy⟩
    · exact .inl ⟨b, hb, k, hk, hky⟩
    · exact .inr hy
  have hpath : ∀ {x y}, TransGen u.Mentions x y → TransGen t.Mentions x y ∨ fused y := by
    intro x y hxy
    induction hxy with
    | single h => exact (hedge _ _ h).imp .single id
    | tail _ h ih =>
      rcases ih with ih | ih
      · exact (hedge _ _ h).imp ih.tail id
      · exact absurd ih (hend _ _ h)
  intro x hx
  rcases hpath hx with hcycle | hfused
  · exact ht x hcycle
  · obtain ⟨y, hxy, -⟩ := TransGen.head'_iff.1 hx
    exact hend x y hxy hfused

/-! ### Tidy steps -/

theorem Step.tidy {c : HoleClass} (h : t.Step i j c u) (ht : t.Tidy) (hacyclic : u.Acyclic)
    (hc : ∀ a, c.type? = some a → t.Covers a ∧ a.isChain = true) : u.Tidy where
  valid := h.valid ht.valid fun a ha ↦ (hc a ha).1
  acyclic := hacyclic
  chain ha := (h.type?_cases ha).elim ht.chain fun ha ↦ (hc _ ha).2

theorem Tidy.fresh (ht : t.Tidy) (k : HoleKind) : (t.fresh k).Tidy where
  valid := ht.valid.fresh k
  acyclic := by
    refine acyclic_of_mentions ht.acyclic ?_
    rintro i j ⟨a, ha, m, hm, hmj⟩
    rw [find_fresh, find_fresh] at hmj
    exact ⟨a, type?_of_type?_fresh ha, m, hm, hmj⟩
  chain ha := ht.chain (type?_of_type?_fresh ha)

theorem evolves_limit? (ht : t.Tidy) (hS : t.Closed S) (hi : i ∈ S) {k : HoleKind}
    (h : t.limit? i k = some u) : Evolves S t u := by
  obtain ⟨l, -, hstep⟩ := step_limit? (hS.lt hi) h
  have hfind : ∀ k, u.find k = t.find k := by
    obtain ⟨-, -, -, rfl⟩ := limit?_eq_some_iff.1 h
    exact fun k ↦ rfl
  refine .of_step hstep (hstep.tidy ht ?_ fun a ha ↦ ⟨ht.valid.covers ha, ht.chain ha⟩) hi hi
    fun a ha ↦ hS.within hi ha
  refine acyclic_of_mentions ht.acyclic ?_
  rintro x y ⟨a, ha, k, hk, hky⟩
  rw [hfind, hfind] at hky
  refine ⟨a, ?_, k, hk, hky⟩
  by_cases hx : t.find x = t.find i
  · rw [hstep.type?_of_mem (.inl hx)] at ha
    rw [type?_congr hx]
    exact ha
  · rwa [hstep.type?_of_not_mem hx hx] at ha

theorem evolves_commit? (ht : t.Tidy) (hS : t.Closed S) (hi : i ∈ S) (hB : t.Closed B)
    (hBS : B ⊆ S) (hiB : i ∉ B) (ha : a.Within B) (hchain : a.isChain = true)
    (h : t.commit? i a = some u) : Evolves S t u := by
  have hstep := step_commit? (hS.lt hi) h
  refine .of_step hstep (hstep.tidy ht ?_ ?_) hi hi ?_
  · exact acyclic_commit? ht.acyclic (hS.lt hi) hB hiB ha h
  · exact fun b hb ↦ Option.some.inj hb ▸ ⟨hB.covers ha, hchain⟩
  · exact fun b hb ↦ Option.some.inj hb ▸ ha.mono hBS

theorem evolves_join? [RootChoice] (ht : t.Tidy) (hS : t.Closed S) (hi : i ∈ S) (hj : j ∈ S)
    (hnone : t.type? i = none) (hnone' : t.type? j = none) (h : t.join? i j = some u) :
    Evolves S t u := by
  have hacyclic := acyclic_join? ht.acyclic (hS.lt hi) (hS.lt hj) hnone hnone' h
  rcases step_join? (hS.lt hi) (hS.lt hj) h with ⟨-, rfl⟩ | ⟨c, -, hstep, hc⟩
  · exact .refl u
  · have hc : c.type? = none := hc.elim (·.trans hnone) (·.trans hnone')
    have hempty : ∀ {P : Ty → Prop} a, c.type? = some a → P a :=
      fun a ha ↦ nomatch hc.symm.trans ha
    exact .of_step hstep (hstep.tidy ht hacyclic hempty) hi hj hempty

/-! ### Chains that agree -/

section Unify

variable [RootChoice]

/-- **At most one step** on holes of two sets: nothing happens, two open holes are merged, or an
open hole of one set is committed to a chain over the other one. -/
inductive OneStep (A B : Set Nat) (t : Table) : Table → Prop
  | same : OneStep A B t t
  | join {i j : Nat} {u : Table} (hi : i ∈ A) (hj : j ∈ B) (hnone : t.type? i = none)
    (hnone' : t.type? j = none) (h : t.join? i j = some u) : OneStep A B t u
  | left {i : Nat} {a : Ty} {u : Table} (hi : i ∈ A) (ha : a.Within B) (hchain : a.isChain = true)
    (h : t.commit? i a = some u) : OneStep A B t u
  | right {j : Nat} {a : Ty} {u : Table} (hj : j ∈ B) (ha : a.Within A) (hchain : a.isChain = true)
    (h : t.commit? j a = some u) : OneStep A B t u

omit [RootChoice] in
/-- Lists of types whose pairs leave the table alone leave it alone. -/
theorem unifyAll_eq_of_step {step : Table → Ty → Ty → Bool × Table} {P : Ty → Prop} {t : Table}
    (hstep : ∀ {a b}, P a → P b → (step t a b).2 = t) (ps qs : List Ty) (hps : ∀ p ∈ ps, P p)
    (hqs : ∀ q ∈ qs, P q) : (unifyAll step t ps qs).2 = t := by
  induction ps generalizing qs with
  | nil => cases qs <;> rfl
  | cons p ps ih =>
    cases qs with
    | nil => rfl
    | cons q qs =>
      have hpq := hstep (hps p List.mem_cons_self) (hqs q List.mem_cons_self)
      rw [unifyAll]
      cases hr : step t p q with
      | mk ok u =>
        rw [hr] at hpq
        obtain rfl : u = t := hpq
        cases ok
        · rfl
        · exact ih qs (fun x hx ↦ hps x (List.mem_cons_of_mem _ hx))
            fun x hx ↦ hqs x (List.mem_cons_of_mem _ hx)

/-- **Types in which no hole is met** agree or not, and leave the table alone: what is known of them
is known of their heads, which are not holes, and goes down to the parts. -/
theorem unifyTo_eq_of_onParts {P : Ty → Prop} (hP : OnParts P)
    (hhead : ∀ {a}, P a → P (t.head a) ∧ ∀ i, t.head a ≠ .hole i) (n : Nat) {a b : Ty}
    (ha : P a) (hb : P b) : (unifyTo n t a b).2 = t := by
  induction n generalizing a b with
  | zero => rfl
  | succ n ih =>
    obtain ⟨ha', hne⟩ := hhead ha
    obtain ⟨hb', hne'⟩ := hhead hb
    have hmeet := meeting_unifyTo n t a b
    generalize unifyTo (n + 1) t a b = r at hmeet
    cases hmeet with
    | join hi _ => exact absurd hi (hne _)
    | commitLeft hi _ _ => exact absurd hi (hne _)
    | commitRight _ hj _ => exact absurd hj (hne' _)
    | pointer hx hy => exact ih (hP.elem (hx ▸ ha')) (hP.elem (hy ▸ hb'))
    | func hx hy _ hps =>
      rw [hx] at ha'
      rw [hy] at hb'
      have hsame := unifyAll_eq_of_step ih _ _ (fun _ ↦ hP.param ha') fun _ ↦ hP.param hb'
      rw [hps] at hsame
      obtain rfl : _ = t := hsame
      exact ih (hP.result ha') (hP.result hb')
    | params hx hy _ hps =>
      rw [hx] at ha'
      rw [hy] at hb'
      have hsame := unifyAll_eq_of_step ih _ _ (fun _ ↦ hP.param ha') fun _ ↦ hP.param hb'
      rwa [hps] at hsame
    | other => rfl

omit [RootChoice] in
theorem onParts_isConcrete : OnParts fun a ↦ a.isConcrete = true where
  elem h := h
  param h ha := (Ty.isConcrete_func.1 h).1 _ ha
  result h := (Ty.isConcrete_func.1 h).2

/-- Concrete types agree or not, and leave the table alone. -/
theorem unifyTo_of_isConcrete (n : Nat) (t : Table) {a b : Ty} (ha : a.isConcrete = true)
    (hb : b.isConcrete = true) : (unifyTo n t a b).2 = t := by
  refine unifyTo_eq_of_onParts onParts_isConcrete (fun {a} ha ↦ ?_) n ha hb
  rw [head_of_isConcrete ha]
  refine ⟨ha, fun i hi ↦ ?_⟩
  rw [hi] at ha
  cases ha

/-- Function types that are chains leave the table alone, also behind holes. -/
theorem snd_unifyTo_of_func {a b : Ty} {ps qs : List Ty} {r s : Ty} (ha : t.head a = .func ps r)
    (hb : t.head b = .func qs s) (hac : (t.head a).isChain = true)
    (hbc : (t.head b).isChain = true) : (unifyTo (n + 1) t a b).2 = t := by
  rw [ha] at hac
  rw [hb] at hbc
  have hsame := unifyTo_of_isConcrete (n + 1) t hac hbc
  rw [unifyTo, head_of_ne_hole (by simp), head_of_ne_hole (by simp)] at hsame
  rwa [unifyTo, ha, hb]

/-- **Chains over two closed sets agree in at most one step.** -/
theorem oneStep_unifyTo (ht : t.Tidy) (hA : t.Closed A) (hB : t.Closed B) (n : Nat) {a b : Ty}
    (ha : a.Within A) (hchain : a.isChain = true) (hb : b.Within B) (hchain' : b.isChain = true) :
    OneStep A B t (unifyTo n t a b).2 := by
  induction n generalizing a b with
  | zero => exact .same
  | succ n ih =>
    have hvacant {x : Ty} {i} (hx : t.Covers x) (hi : t.head x = .hole i) : t.type? i = none :=
      type?_of_head ht.valid ht.acyclic hx hi
    have ha' := hA.head ha
    have hb' := hB.head hb
    have hac := ht.isChain_head hchain
    have hbc := ht.isChain_head hchain'
    have hmeet := meeting_unifyTo n t a b
    generalize hr : unifyTo (n + 1) t a b = r at hmeet
    cases hmeet with
    | @join i j hi hj =>
      have hiA : i ∈ A := ha' i (hi ▸ List.mem_singleton.2 rfl)
      have hjB : j ∈ B := hb' j (hj ▸ List.mem_singleton.2 rfl)
      cases h : t.join? i j with
      | none => exact .same
      | some u =>
        exact .join hiA hjB (hvacant (hA.covers ha) hi) (hvacant (hB.covers hb) hj) h
    | @commitLeft b₁ i hi hb₁ _ =>
      have hiA : i ∈ A := ha' i (hi ▸ List.mem_singleton.2 rfl)
      cases h : t.commit? i b₁ with
      | none => exact .same
      | some u => exact .left hiA (hb₁ ▸ hb') (hb₁ ▸ hbc) h
    | @commitRight a₁ j ha₁ hj _ =>
      have hjB : j ∈ B := hb' j (hj ▸ List.mem_singleton.2 rfl)
      cases h : t.commit? j a₁ with
      | none => exact .same
      | some u => exact .right hjB (ha₁ ▸ ha') (ha₁ ▸ hac) h
    | pointer hx hy =>
      rw [hx] at ha' hac
      rw [hy] at hb' hbc
      exact ih ha' hac hb' hbc
    -- function types are concrete, so they leave the table alone
    | func hx hy _ _ =>
      rw [← hr, snd_unifyTo_of_func hx hy hac hbc]
      exact .same
    | params hx hy _ _ =>
      rw [← hr, snd_unifyTo_of_func hx hy hac hbc]
      exact .same
    | other => exact .same

theorem OneStep.evolves (h : OneStep A B t u) (ht : t.Tidy) (hA : t.Closed A) (hB : t.Closed B)
    (hdisjoint : ∀ k ∈ A, k ∉ B) : Evolves (A ∪ B) t u := by
  have hAB := hA.union hB
  cases h with
  | same => exact .refl t
  | join hi hj hnone hnone' h => exact evolves_join? ht hAB (.inl hi) (.inr hj) hnone hnone' h
  | left hi ha hchain h =>
    exact evolves_commit? ht hAB (.inl hi) hB Set.subset_union_right (hdisjoint _ hi) ha hchain h
  | right hj ha hchain h =>
    exact evolves_commit? ht hAB (.inr hj) hA Set.subset_union_left
      (fun hjA ↦ hdisjoint _ hjA hj) ha hchain h

/-- **Chains without a hole in common can be made to agree**, and the table stays tidy. -/
theorem evolves_unify (ht : t.Tidy) (hA : t.Closed A) (hB : t.Closed B)
    (hdisjoint : ∀ k ∈ A, k ∉ B) (ha : a.Within A) (hchain : a.isChain = true) (hb : b.Within B)
    (hchain' : b.isChain = true) : Evolves (A ∪ B) t (t.unify a b).2 :=
  (oneStep_unifyTo ht hA hB _ ha hchain hb hchain').evolves ht hA hB hdisjoint

/-- The special case of a concrete type that is asked for. -/
theorem evolves_unify_of_isConcrete (ht : t.Tidy) (hS : t.Closed S) (ha : a.isConcrete = true)
    (hb : b.Within S) (hchain : b.isChain = true) : Evolves S t (t.unify a b).2 := by
  have h := evolves_unify ht (Closed.empty t) hS (fun _ hk ↦ hk.elim)
    (Ty.within_of_isConcrete ha) (Ty.isChain_of_isConcrete ha) hb hchain
  rwa [Set.empty_union] at h

end Unify

/-! ### The other questions -/

theorem evolves_requireLimit (ht : t.Tidy) (hS : t.Closed S) (ha : a.Within S) (k : HoleKind) :
    Evolves S t (t.requireLimit k a).2 := by
  rcases requireLimit_cases ht.valid (hS.covers ha) k with h | ⟨i, hi, -, h⟩
  · rw [h]
    exact .refl t
  · exact evolves_limit? ht hS (hS.head ha i (hi ▸ List.mem_singleton.2 rfl)) h

theorem evolves_settleAll (ht : t.Tidy) : Evolves (Set.Iio t.size) t t.settleAll := by
  refine settleAll_induction (P := Evolves (Set.Iio t.size) t) (.refl t) ?_
  intro u v i a hu hsize hi _ hdefault hcommit
  have hconcrete := isConcrete_default? hdefault
  have hu' := hu.tidy ht
  have hclosed := hu.closed ht.closed
  refine hu.trans (evolves_commit? hu' hclosed (hsize ▸ hi :) (Closed.empty u)
    (Set.empty_subset _) id (Ty.within_of_isConcrete hconcrete)
    (Ty.isChain_of_isConcrete hconcrete) hcommit)

theorem evolves_cast [RootChoice] (ht : t.Tidy) (hS : t.Closed S) {dest src : Ty}
    (hdest : dest.isConcrete = true) (hsrc : src.Within S) (hchain : src.isChain = true) :
    Evolves S t (t.cast dest src).2 := by
  have hhead : t.head dest = dest := head_of_isConcrete hdest
  have hsrc' := hS.head hsrc
  have hchain' := ht.isChain_head hchain
  by_cases h : ∃ i, t.head src = .hole i
  · obtain ⟨i, hi⟩ := h
    have hmem : i ∈ S := hsrc' i (hi ▸ List.mem_singleton.2 rfl)
    rw [cast_of_hole hi, hhead]
    rcases castHole_cases t dest i with h | h | h
    · rw [h]
      exact .refl t
    · exact evolves_commit? ht hS hmem (Closed.empty t) (Set.empty_subset _) id
        (Ty.within_of_isConcrete hdest) (Ty.isChain_of_isConcrete hdest) h
    · exact evolves_limit? ht hS hmem h
  · rw [cast_of_known fun i hi ↦ h ⟨i, hi⟩, hhead]
    generalize t.head src = src at hsrc' hchain'
    rcases castKnown_cases t dest src with ⟨ok, h, -⟩ | ⟨c, d, x, y, rfl, rfl, -, h⟩ | h
    · rw [h]
      exact .refl t
    · rw [h]
      have hagree := evolves_unify (a := x) (b := y) ht hS (Closed.empty t) (fun _ _ hk ↦ hk)
        hsrc' hchain' (Ty.within_of_isConcrete hdest) (Ty.isChain_of_isConcrete (a := y) hdest)
      rwa [Set.union_empty] at hagree
    · rw [h]
      exact evolves_unify_of_isConcrete ht hS hdest hsrc' hchain'

/-! ### Commitments to concrete types -/

/-- Every commitment that was not there before is to a concrete type. -/
def CommitsConcrete (t u : Table) : Prop :=
  ∀ k a, u.type? k = some a → t.type? k = some a ∨ a.isConcrete = true

theorem CommitsConcrete.refl (t : Table) : t.CommitsConcrete t :=
  fun _ _ ↦ .inl

theorem CommitsConcrete.trans {v : Table} (h : t.CommitsConcrete u) (h' : u.CommitsConcrete v) :
    t.CommitsConcrete v :=
  fun k a hk ↦ (h' k a hk).elim (h k a) .inr

theorem commitsConcrete_commit? (hi : i < t.size) (ha : a.isConcrete = true)
    (h : t.commit? i a = some u) : t.CommitsConcrete u :=
  fun _ _ hk ↦ ((step_commit? hi h).type?_cases hk).elim .inl
    fun hb ↦ .inr (Option.some.inj hb ▸ ha)

theorem commitsConcrete_limit? (hi : i < t.size) {k : HoleKind} (h : t.limit? i k = some u) :
    t.CommitsConcrete u := by
  obtain ⟨l, -, hstep⟩ := step_limit? hi h
  intro m a hm
  by_cases hmi : t.find m = t.find i
  · rw [hstep.type?_of_mem (.inl hmi)] at hm
    exact .inl ((type?_congr hmi).trans hm)
  · rw [hstep.type?_of_not_mem hmi hmi] at hm
    exact .inl hm

theorem commitsConcrete_join? [RootChoice] (hi : i < t.size) (hj : j < t.size)
    (hnone : t.type? i = none) (hnone' : t.type? j = none) (h : t.join? i j = some u) :
    t.CommitsConcrete u := by
  rcases step_join? hi hj h with ⟨-, rfl⟩ | ⟨c, -, hstep, hc⟩
  · exact .refl u
  · have hc : c.type? = none := hc.elim (·.trans hnone) (·.trans hnone')
    exact fun _ _ hk ↦ (hstep.type?_cases hk).elim .inl fun ha ↦ nomatch hc.symm.trans ha

theorem commitsConcrete_requireLimit (ht : t.Valid) (ha : t.Covers a) (k : HoleKind) :
    t.CommitsConcrete (t.requireLimit k a).2 := by
  rcases requireLimit_cases ht ha k with h | ⟨i, -, hi, h⟩
  · rw [h]
    exact .refl t
  · exact commitsConcrete_limit? hi h

section Unify

variable [RootChoice]

/-- If one side has no holes, a hole of the other side is committed to a concrete type. -/
theorem OneStep.commitsConcrete (h : OneStep A B t u) (hA : t.Closed A) (hB : t.Closed B)
    (hempty : A = ∅ ∨ B = ∅) : t.CommitsConcrete u := by
  cases h with
  | same => exact .refl t
  | join hi hj hnone hnone' h =>
    exact commitsConcrete_join? (hA.lt hi) (hB.lt hj) hnone hnone' h
  | left hi ha _ h =>
    rcases hempty with rfl | rfl
    · exact hi.elim
    · exact commitsConcrete_commit? (hA.lt hi) (Ty.isConcrete_of_within_empty ha) h
  | right hj ha _ h =>
    rcases hempty with rfl | rfl
    · exact commitsConcrete_commit? (hB.lt hj) (Ty.isConcrete_of_within_empty ha) h
    · exact hj.elim

theorem commitsConcrete_unify_of_isConcrete (ht : t.Tidy) (hS : t.Closed S)
    (ha : a.isConcrete = true) (hb : b.Within S) (hchain : b.isChain = true) :
    t.CommitsConcrete (t.unify a b).2 :=
  (oneStep_unifyTo ht (Closed.empty t) hS _ (Ty.within_of_isConcrete ha)
    (Ty.isChain_of_isConcrete ha) hb hchain).commitsConcrete (Closed.empty t) hS (.inl rfl)

omit [RootChoice] in
/-- What a solution makes a **number**, if it is no hole, is a scalar type. -/
theorem exists_head_eq_scalar (ht : t.Tidy) (ha : t.Covers a) {s : Nat → Ty} (hs : t.Solution s)
    (hnumeric : (a.subst s).isNumeric = true) (hne : ∀ i, t.head a ≠ .hole i) :
    ∃ k, t.head a = .scalar k := by
  rw [← hs.toRespects.head ht.valid ha] at hnumeric
  cases hc : t.head a with
  | scalar k => exact ⟨k, rfl⟩
  | hole i => exact absurd hc (hne i)
  | _ => rw [hc] at hnumeric; cases hnumeric

/-- Types that turn out to be **numbers** commit each other to concrete types: only a scalar type is
a number under every solution. -/
theorem commitsConcrete_unify_of_isNumeric (ht : t.Tidy) (ha : t.Covers a) (hb : t.Covers b)
    (h : t.unify a b = (true, u)) {s : Nat → Ty} (hs : u.Solution s)
    (hnumeric : (a.subst s).isNumeric = true) : t.CommitsConcrete u := by
  obtain ⟨hs₀, heq⟩ := (solution_unify ht.valid ha hb h).1 hs
  have hscalar := exists_head_eq_scalar ht ha hs₀ hnumeric
  have hvacant {x : Ty} {i} (hx : t.Covers x) (hi : t.head x = .hole i) : t.type? i = none :=
    type?_of_head ht.valid ht.acyclic hx hi
  obtain ⟨n, hn⟩ : ∃ n, t.unifyDepth a b = n + 1 :=
    Nat.exists_eq_succ_of_ne_zero (Nat.ne_of_gt (Nat.mul_pos (Nat.succ_pos _) (Nat.succ_pos _)))
  have hmeet := meeting_unifyTo n t a b
  rw [← hn, show unifyTo (t.unifyDepth a b) t a b = t.unify a b from rfl] at hmeet
  have hu : u = (t.unify a b).2 := congrArg Prod.snd h.symm
  rw [hu]
  clear hu h hs
  generalize t.unify a b = r at hmeet
  cases hmeet with
  | @join i j hi hj =>
    cases h : t.join? i j with
    | none => exact .refl t
    | some u =>
      exact commitsConcrete_join? (lt_size_of_head ht.valid ha hi) (lt_size_of_head ht.valid hb hj)
        (hvacant ha hi) (hvacant hb hj) h
  | @commitLeft b' i hi hb' hne =>
    cases h : t.commit? i b' with
    | none => exact .refl t
    | some u =>
      subst hb'
      obtain ⟨k, hk⟩ := exists_head_eq_scalar ht hb hs₀ (heq ▸ hnumeric) hne
      exact commitsConcrete_commit? (lt_size_of_head ht.valid ha hi) (hk ▸ rfl) h
  | @commitRight a' j ha' hj hne =>
    cases h : t.commit? j a' with
    | none => exact .refl t
    | some u =>
      subst ha'
      obtain ⟨k, hk⟩ := hscalar hne
      exact commitsConcrete_commit? (lt_size_of_head ht.valid hb hj) (hk ▸ rfl) h
  | pointer hx _ =>
    obtain ⟨k, hk⟩ := hscalar (by simp [hx])
    cases hx.symm.trans hk
  | func hx _ _ _ =>
    obtain ⟨k, hk⟩ := hscalar (by simp [hx])
    cases hx.symm.trans hk
  | params hx _ _ _ =>
    obtain ⟨k, hk⟩ := hscalar (by simp [hx])
    cases hx.symm.trans hk
  | other => exact .refl t

theorem commitsConcrete_cast (ht : t.Tidy) (hS : t.Closed S) {dest src : Ty}
    (hdest : dest.isConcrete = true) (hsrc : src.Within S) (hchain : src.isChain = true) :
    t.CommitsConcrete (t.cast dest src).2 := by
  have hhead : t.head dest = dest := head_of_isConcrete hdest
  have hsrc' := hS.head hsrc
  have hchain' := ht.isChain_head hchain
  by_cases h : ∃ i, t.head src = .hole i
  · obtain ⟨i, hi⟩ := h
    have hlt := hS.lt (hsrc' i (hi ▸ List.mem_singleton.2 rfl))
    rw [cast_of_hole hi, hhead]
    rcases castHole_cases t dest i with h | h | h
    · rw [h]
      exact .refl t
    · exact commitsConcrete_commit? hlt hdest h
    · exact commitsConcrete_limit? hlt h
  · rw [cast_of_known fun i hi ↦ h ⟨i, hi⟩, hhead]
    generalize t.head src = src at hsrc' hchain'
    rcases castKnown_cases t dest src with ⟨ok, h, -⟩ | ⟨c, d, x, y, rfl, rfl, -, h⟩ | h
    · rw [h]
      exact .refl t
    · rw [h]
      exact (oneStep_unifyTo (a := x) (b := y) ht hS (Closed.empty t) _ hsrc' hchain'
        (Ty.within_of_isConcrete hdest) (Ty.isChain_of_isConcrete (a := y) hdest)).commitsConcrete
          hS (Closed.empty t) (.inr rfl)
    · rw [h]
      exact commitsConcrete_unify_of_isConcrete ht hS hdest hsrc' hchain'

end Unify

end FrontEnd.Table
