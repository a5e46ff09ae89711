import FrontEnd.Proofs.Table.Failures
import FrontEnd.Proofs.Ty.Texts

/-!
# Types that do not agree

When two types cannot be made to agree a message shows both, as the table describes them. What is
described is the expanded type (`Table.describe_eq_render`), and a failed attempt to make flat types
agree leaves the table as it was (`Table.unify_of_fails`): on the way to a failure no hole is merged
or committed. So the two texts are those of types that are not equal however the open holes are
filled, and what is known of such texts applies (`Table.describe_eq_iff_of_fails`).

It applies to flat types, and everything in a table is flat (`Table.Flat`) if only flat types are
handed to it.
-/

namespace FrontEnd.Table

variable {t u : Table} {i j : Nat} {a b : Ty}

/-! ### Flat tables -/

/-- **A table is flat** if all types in it are. -/
def Flat (t : Table) : Prop :=
  ∀ c ∈ t.classes, ∀ a, c.type? = some a → a.isFlat = true

theorem flat_empty : empty.Flat :=
  fun _ hc ↦ absurd hc List.not_mem_nil

/-- What a class of a flat table is committed to is flat. -/
theorem Flat.classOf (h : t.Flat) (ha : (t.classOf i).type? = some a) : a.isFlat = true := by
  rw [Table.classOf] at ha
  cases hc : t.classes[t.find i]? with
  | none =>
    rw [hc] at ha
    cases ha
  | some c =>
    rw [hc] at ha
    exact h c (List.mem_of_getElem? hc) a ha

/-- Changing one class keeps a table flat if its new commitment is flat. -/
theorem Flat.set (h : t.Flat) {k : Nat} {c : HoleClass}
    (hc : ∀ a, c.type? = some a → a.isFlat = true) :
    ∀ d ∈ t.classes.set k c, ∀ a, d.type? = some a → a.isFlat = true := by
  intro d hd
  rcases List.mem_or_eq_of_mem_set hd with hd | rfl
  · exact h d hd
  · exact hc

theorem Flat.fresh (h : t.Flat) (k : HoleKind) : (t.fresh k).Flat :=
  List.forall_mem_append.2 ⟨h, List.forall_mem_singleton.2 fun _ ha ↦ by cases ha⟩

theorem Flat.orElseSame (h : t.Flat) {u? : Option Table} (hu : ∀ u, u? = some u → u.Flat) :
    (t.orElseSame u?).2.Flat := by
  cases u? with
  | none => exact h
  | some u => exact hu u rfl

/-- Committing a class to a flat type keeps a table flat. -/
theorem Flat.commit? (h : t.Flat) (ha : a.isFlat = true) (hu : t.commit? i a = some u) :
    u.Flat := by
  obtain ⟨-, -, rfl⟩ := commit?_eq_some_iff.1 hu
  exact h.set fun b hb ↦ Option.some.inj hb ▸ ha

theorem Flat.limit? (h : t.Flat) {k : HoleKind} (hu : t.limit? i k = some u) : u.Flat := by
  obtain ⟨l, -, -, rfl⟩ := limit?_eq_some_iff.1 hu
  exact h.set fun b hb ↦ h.classOf hb

/-- Joining two classes keeps a table flat: the class that stands for both has a commitment that one
of them had. -/
theorem Flat.join? [RootChoice] (h : t.Flat) (hu : t.join? i j = some u) : u.Flat := by
  rw [Table.join?] at hu
  split at hu
  · exact Option.some.inj hu ▸ h
  · split at hu
    · obtain ⟨c, hc, rfl⟩ := Option.map_eq_some_iff.1 hu
      refine h.set fun a ha ↦ ?_
      obtain ⟨-, htype, -⟩ := HoleClass.merge?_eq_some_iff.1 hc
      rcases (HoleClass.commonType?_eq_some htype).2.2 with heq | heq
      · exact h.classOf (heq ▸ ha)
      · exact h.classOf (heq ▸ ha)
    · cases hu

/-- The head of a flat type is flat, since it is the type or a commitment. -/
theorem Flat.head (h : t.Flat) (ha : a.isFlat = true) : (t.head a).isFlat = true := by
  by_cases hhole : ∃ i, t.head a = .hole i
  · obtain ⟨i, hi⟩ := hhole
    rw [hi]
    rfl
  · exact head_mem (Q := fun a ↦ a.isFlat = true) h.classOf ha fun i hi ↦ hhole ⟨i, hi⟩

section Unify

variable [RootChoice]

omit [RootChoice] in
/-- Lists of types that agree pair by pair leave a flat table if the pairs do. -/
theorem Flat.unifyAll {step : Table → Ty → Ty → Bool × Table}
    (hstep : ∀ {t : Table} {a b : Ty}, t.Flat → a.isFlat = true → b.isFlat = true →
      (step t a b).2.Flat) (ps qs : List Ty) (ht : t.Flat) (hps : ∀ p ∈ ps, p.isFlat = true)
    (hqs : ∀ q ∈ qs, q.isFlat = true) : (unifyAll step t ps qs).2.Flat := by
  induction ps generalizing t qs with
  | nil => cases qs <;> exact ht
  | cons p ps ih =>
    cases qs with
    | nil => exact ht
    | cons q qs =>
      obtain ⟨hp, hps⟩ := List.forall_mem_cons.1 hps
      obtain ⟨hq, hqs⟩ := List.forall_mem_cons.1 hqs
      have hfirst := hstep ht hp hq
      rw [Table.unifyAll]
      generalize step t p q = r at hfirst ⊢
      rcases r with ⟨ok, v⟩
      cases ok with
      | false => exact hfirst
      | true => exact ih qs hfirst hps hqs

/-- **Flat types are unified in flat tables.** The induction is on the bound, and the parts of a
flat type are flat. -/
theorem Flat.unifyTo (n : Nat) (ht : t.Flat) (ha : a.isFlat = true) (hb : b.isFlat = true) :
    (unifyTo n t a b).2.Flat := by
  induction n generalizing t a b with
  | zero => exact ht
  | succ n ih =>
    have ha' := ht.head ha
    have hb' := ht.head hb
    have hmeet := meeting_unifyTo n t a b
    generalize Table.unifyTo (n + 1) t a b = r at hmeet
    cases hmeet with
    | join => exact ht.orElseSame fun _ ↦ ht.join?
    | commitLeft _ hy => exact ht.orElseSame fun _ ↦ ht.commit? (hy ▸ hb')
    | commitRight hx => exact ht.orElseSame fun _ ↦ ht.commit? (hx ▸ ha')
    | pointer hx hy => exact ih ht (hx ▸ ha' :) (hy ▸ hb' :)
    | func hx hy _ hps =>
      obtain ⟨hparams, hresult⟩ := Ty.isSignature_func.1 (hx ▸ ha' :)
      obtain ⟨hparams', hresult'⟩ := Ty.isSignature_func.1 (hy ▸ hb' :)
      have hall := Flat.unifyAll ih _ _ ht (fun p hp ↦ Ty.isFlat_of_isLabel (hparams p hp))
        fun q hq ↦ Ty.isFlat_of_isLabel (hparams' q hq)
      rw [hps] at hall
      exact ih hall (Ty.isFlat_of_isResult hresult) (Ty.isFlat_of_isResult hresult')
    | params hx hy _ hps =>
      have hall := Flat.unifyAll ih _ _ ht
        (fun p hp ↦ Ty.isFlat_of_isLabel ((Ty.isSignature_func.1 (hx ▸ ha' :)).1 p hp))
        fun q hq ↦ Ty.isFlat_of_isLabel ((Ty.isSignature_func.1 (hy ▸ hb' :)).1 q hq)
      rwa [hps] at hall
    | other => exact ht

theorem Flat.unify (ht : t.Flat) (ha : a.isFlat = true) (hb : b.isFlat = true) :
    (t.unify a b).2.Flat :=
  ht.unifyTo _ ha hb

/-- A cast keeps a table flat. It commits a hole to the type that is asked for or puts a limit on
it, or it unifies the two types or what they point to. -/
theorem Flat.cast (ht : t.Flat) {dest src : Ty} (hdest : dest.isFlat = true)
    (hsrc : src.isFlat = true) : (t.cast dest src).2.Flat := by
  have hdest' := ht.head hdest
  have hsrc' := ht.head hsrc
  by_cases h : ∃ i, t.head src = .hole i
  · obtain ⟨i, hi⟩ := h
    rw [cast_of_hole hi]
    rcases castHole_cases t (t.head dest) i with h | h | h
    · rw [h]
      exact ht
    · exact ht.commit? hdest' h
    · exact ht.limit? h
  · rw [cast_of_known fun i hi ↦ h ⟨i, hi⟩]
    rcases castKnown_cases t (t.head dest) (t.head src) with
      ⟨ok, h, -⟩ | ⟨c, d, x, y, hx, hy, -, h⟩ | h
    · rw [h]
      exact ht
    · rw [hx] at hsrc'
      rw [hy] at hdest'
      rw [h]
      exact ht.unify (a := x) (b := y) hsrc' hdest'
    · rw [h]
      exact ht.unify hdest' hsrc'

end Unify

theorem Flat.requireLimit (ht : t.Flat) (k : HoleKind) (a : Ty) : (t.requireLimit k a).2.Flat := by
  by_cases h : ∃ i, t.head a = .hole i
  · obtain ⟨i, hi⟩ := h
    rw [requireLimit_of_hole hi]
    exact ht.orElseSame fun _ ↦ ht.limit?
  · rw [requireLimit_of_known fun i hi ↦ h ⟨i, hi⟩]
    exact ht

theorem Flat.settleAll (ht : t.Flat) : t.settleAll.Flat := by
  refine settleAll_induction (P := Flat) ht fun {u v i a} hu _ _ _ hdefault hcommit ↦ ?_
  have ha : a.isFlat = true := by
    revert hdefault
    cases u.kind i <;> rintro ⟨⟩ <;> rfl
  exact hu.commit? ha hcommit

/-- **Expanding keeps types flat**: what a hole stands for is flat. -/
theorem Flat.expand (ht : t.Flat) (ha : a.isFlat = true) : (t.expand a).isFlat = true := by
  have himage (n i : Nat) : (t.image n i).isFlat = true := by
    induction n generalizing i with
    | zero => rfl
    | succ n ih =>
      cases htype : t.type? i with
      | none =>
        rw [image_of_none htype]
        rfl
      | some b =>
        rw [image_succ_of_some htype]
        exact Ty.isFlat_subst (fun j _ ↦ ih j) (ht.classOf htype)
  exact Ty.isFlat_subst (fun i _ ↦ himage _ i) ha

/-! ### Descriptions -/

/-- **What is described is the expanded type**, with open holes by their limits. -/
theorem describe_eq_render (ht : t.Valid) (hacyclic : t.Acyclic) (ha : t.Covers a) :
    t.describe a = (t.expand a).render fun i ↦ (t.kind i).name := by
  have hparts {a : Ty} (h : ∀ i ∈ a.holes, t.describe (.hole i) =
      (t.expand (.hole i)).render fun i ↦ (t.kind i).name) :
      t.describe a = (t.expand a).render fun i ↦ (t.kind i).name := by
    rw [expand_eq_subst, Ty.render_subst]
    exact Ty.render_congr h
  refine hparts fun i hi ↦ hole_induction ht hacyclic (P := fun a ↦ t.describe a =
    (t.expand a).render fun i ↦ (t.kind i).name) ?_ ?_ (ha i hi)
  · intro i _ hnone
    show t.holeName t.size i = _
    rw [holeName_of_none hnone, expand_of_none hnone, Ty.render, kind_find]
  · intro i a _ hsome ih
    rw [describe_of_some ht hacyclic hsome, expand_of_some ht hacyclic hsome]
    exact hparts ih

/-! ### Failures -/

section Failures

variable [RootChoice]

variable (ht : t.Tidy) (hflat : t.Flat) (ha : t.Covers a) (hb : t.Covers b)
  (ha' : a.isFlat = true) (hb' : b.isFlat = true) (h : (t.unify a b).1 = false)

include ht ha' hb' h in
theorem unify_of_fails : (t.unify a b).2 = t :=
  unify_of_isChain ht.acyclic (ht.isChain_expand (Ty.isChain_of_isFlat ha'))
    (ht.isChain_expand (Ty.isChain_of_isFlat hb')) h

include ht ha hb ha' hb' h in
/-- Types that do not agree differ however the open holes are filled. -/
theorem subst_ne_of_fails : (t.expand a).subst t.filler ≠ (t.expand b).subst t.filler := by
  have hacyclic : (t.unify a b).2.Acyclic := by
    rw [unify_of_fails ht ha' hb' h]
    exact ht.acyclic
  have hne := (complete_unify ht.valid ha hb hacyclic).no_solution h _
    (solution_filler ht.valid ht.acyclic)
  rwa [← Ty.subst_subst, ← Ty.subst_subst, ← expand_eq_subst, ← expand_eq_subst] at hne

include ht hflat ha hb ha' hb' h in
/-- **Types that do not agree are described alike** exactly if they have the same apparent type. -/
theorem describe_eq_iff_of_fails :
    t.describe a = t.describe b ↔ (t.expand a).apparent = (t.expand b).apparent := by
  rw [describe_eq_render ht.valid ht.acyclic ha, describe_eq_render ht.valid ht.acyclic hb,
    ← String.toList_inj]
  constructor
  · intro heq
    refine (Ty.apparent_eq_of_chars_eq (κ := t.kind) (fun k ↦ k.default?.getD .unit)
      (hflat.expand ha') (hflat.expand hb') heq).resolve_right ?_
    exact subst_ne_of_fails ht ha hb ha' hb' h
  · intro heq
    exact (Ty.chars_apparent (κ := t.kind) _).symm.trans
      ((congrArg (Ty.chars t.kind) heq).trans (Ty.chars_apparent _))

end Failures

end FrontEnd.Table
