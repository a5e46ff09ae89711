import FrontEnd.Proofs.Table.Unify

/-!
# The questions that checking asks

What each question asked of a table leaves behind, and what it means if the answer is yes, in terms
of solutions (`FrontEnd.Table.Solution`). To ask whether a type is a number or an integer is to put
a limit on it (`requireLimit`). A cast is looser than the rules for concrete types (`Ty.castable`)
in one point: an open hole can be cast to a pointer, and becomes an integer.
-/

namespace FrontEnd

/-- Whether two types are pointers to the same type, the second const if the first is. -/
def Ty.pointsAlike : Ty → Ty → Bool
  | .pointer c a, .pointer d b => decide (a = b) && (!c || d)
  | _, _ => false

/-- Whether a value of one concrete type can be **cast** to another one: numbers to numbers,
integers to booleans and back, pointers to pointers to the same type as long as `const` is not lost,
and every type to itself. -/
def Ty.castable (src dest : Ty) : Bool :=
  (src.isNumeric && dest.isNumeric) || (src.isInt && dest.isBool) || (src.isBool && dest.isInt) ||
    src.pointsAlike dest || decide (src = dest)

theorem Ty.castable_of_class {src dest : Ty} (h : (src.isNumeric && dest.isNumeric ||
    (src.isInt && dest.isBool || src.isBool && dest.isInt)) = true) : src.castable dest = true := by
  rw [Ty.castable, Bool.or_eq_true, Bool.or_eq_true, Bool.or_assoc]
  exact .inl (.inl h)

namespace Table

variable {t u : Table} {s : Nat → Ty} {a b : Ty}

/-! ### Limits -/

/-- Makes a type one that a limit admits. -/
def requireLimit (t : Table) (k : HoleKind) (a : Ty) : Bool × Table :=
  match t.head a with
  | .hole i => t.orElseSame (t.limit? i k)
  | a => (k.admits a, t)

theorem requireNumber_eq (t : Table) (a : Ty) : t.requireNumber a = t.requireLimit .number a := by
  rw [requireNumber, requireLimit]
  cases t.head a <;> rfl

theorem requireInteger_eq (t : Table) (a : Ty) : t.requireInteger a = t.requireLimit .int a := by
  rw [requireInteger, requireLimit]
  cases t.head a <;> rfl

/-- A limit on a type that is still open is put on its class. -/
theorem requireLimit_of_hole {i : Nat} {k : HoleKind} (h : t.head a = .hole i) :
    t.requireLimit k a = t.orElseSame (t.limit? i k) := by
  rw [requireLimit, h]

/-- A limit on a type that is known is compared with its head, and changes nothing. -/
theorem requireLimit_of_known {k : HoleKind} (h : ∀ i, t.head a ≠ .hole i) :
    t.requireLimit k a = (k.admits (t.head a), t) := by
  rw [requireLimit]
  cases hb : t.head a with
  | hole i => exact absurd hb (h i)
  | _ => rfl

/-- **Asking for a limit** leaves behind at most the limit. -/
theorem requireLimit_cases (ht : t.Valid) (ha : t.Covers a) (k : HoleKind) :
    (t.requireLimit k a).2 = t ∨ ∃ i, t.head a = .hole i ∧ i < t.size ∧
      t.limit? i k = some (t.requireLimit k a).2 := by
  by_cases h : ∃ i, t.head a = .hole i
  · obtain ⟨i, hi⟩ := h
    rw [requireLimit_of_hole hi]
    cases hlimit : t.limit? i k with
    | none => exact .inl rfl
    | some u => exact .inr ⟨i, hi, lt_size_of_head ht ha hi, hlimit⟩
  · exact .inl (by rw [requireLimit_of_known fun i hi ↦ h ⟨i, hi⟩])

/-- **What a limit says**: the solutions are those from before in which the limit admits the
type. -/
theorem solution_requireLimit (ht : t.Valid) (ha : t.Covers a) {k : HoleKind}
    (h : t.requireLimit k a = (true, u)) :
    u.Solution s ↔ t.Solution s ∧ k.admits (a.subst s) = true := by
  by_cases hhole : ∃ i, t.head a = .hole i
  · obtain ⟨i, hi⟩ := hhole
    rw [requireLimit_of_hole hi] at h
    cases hlimit : t.limit? i k with
    | none => rw [hlimit] at h; exact nomatch congrArg Prod.fst h
    | some v =>
      rw [hlimit] at h
      obtain rfl : v = u := congrArg Prod.snd h
      rw [solution_limit? (lt_size_of_head ht ha hi) hlimit]
      refine and_congr_right fun hs ↦ ?_
      rw [← hs.toRespects.head ht ha, hi, Ty.subst_hole]
  · have hhole : ∀ i, t.head a ≠ .hole i := fun i hi ↦ hhole ⟨i, hi⟩
    rw [requireLimit_of_known hhole] at h
    obtain rfl : t = u := congrArg Prod.snd h
    refine ⟨fun hs ↦ ⟨hs, ?_⟩, And.left⟩
    rw [← hs.toRespects.head ht ha, Ty.admits_subst hhole]
    exact congrArg Prod.fst h

/-- **A limit that cannot be met** is met under no solution. -/
theorem no_solution_of_requireLimit (ht : t.Valid) (hacyclic : t.Acyclic) (ha : t.Covers a)
    {k : HoleKind} (h : (t.requireLimit k a).1 = false) (hs : t.Solution s) :
    k.admits (a.subst s) = false := by
  rw [← hs.toRespects.head ht ha]
  by_cases hhole : ∃ i, t.head a = .hole i
  · obtain ⟨i, hi⟩ := hhole
    have hopen := type?_of_head ht hacyclic ha hi
    rw [requireLimit_of_hole hi] at h
    have hnone := eq_none_of_orElseSame h
    rw [hi, Ty.subst_hole]
    cases hmeet : (t.kind i).meet? k with
    | none => exact HoleKind.not_admits_of_meet? hmeet (hs.admitted (lt_size_of_head ht ha hi))
    | some l =>
      have hsome := limit?_eq_some_iff.2 ⟨l, hmeet, by rw [hopen]; rfl, rfl⟩
      exact nomatch hnone.symm.trans hsome
  · have hhole : ∀ i, t.head a ≠ .hole i := fun i hi ↦ hhole ⟨i, hi⟩
    rw [requireLimit_of_known hhole] at h
    rw [Ty.admits_subst hhole]
    exact h

theorem becomes_requireLimit (ht : t.Valid) (ha : t.Covers a) (k : HoleKind) :
    Becomes t.Covers t (t.requireLimit k a).2 := by
  rcases requireLimit_cases ht ha k with h | ⟨i, -, hi, h⟩
  · rw [h]
    exact .refl t
  · obtain ⟨l, -, hstep⟩ := step_limit? hi h
    exact .of_step hstep fun b hb ↦ ht.covers hb

/-! ### Defaults -/

/-- **To settle a hole** changes nothing, or commits an open hole to the default of its limit. -/
theorem settle_cases (t : Table) (i : Nat) : t.settle i = t ∨ ∃ a, t.type? i = none ∧
    (t.kind i).default? = some a ∧ t.commit? i a = some (t.settle i) := by
  rw [settle]
  split
  · rename_i a hnone hdefault
    have hsome := commit?_eq_some_iff.2 ⟨hnone, HoleKind.admits_default? hdefault, rfl⟩
    exact .inr ⟨a, hnone, hdefault, by rw [hsome, Option.getD_some]⟩
  · exact .inl rfl

/-- What holds of a table and is kept by commitments to defaults holds when all holes are settled.
-/
theorem settleAll_induction {P : Table → Prop} (ht : P t)
    (h : ∀ {u v : Table} {i : Nat} {a : Ty}, P u → u.size = t.size → i < u.size →
      u.type? i = none → (u.kind i).default? = some a → u.commit? i a = some v → P v) :
    P t.settleAll := by
  have hfold : ∀ (is : List Nat) (u : Table), (∀ i ∈ is, i < t.size) → P u → u.size = t.size →
      P (is.foldl settle u) := by
    intro is
    induction is with
    | nil => exact fun u _ hu _ ↦ hu
    | cons i is ih =>
      intro u his hu hsize
      have hi : i < u.size := hsize ▸ his i List.mem_cons_self
      have his' : ∀ j ∈ is, j < t.size := fun j hj ↦ his j (List.mem_cons_of_mem _ hj)
      rw [List.foldl_cons]
      rcases settle_cases u i with heq | ⟨a, hnone, hdefault, hcommit⟩
      · rw [heq]
        exact ih u his' hu hsize
      · exact ih _ his' (h hu hsize hi hnone hdefault hcommit)
          ((step_commit? hi hcommit).size_eq.trans hsize)
  exact hfold _ t (fun i hi ↦ List.mem_range.1 hi) ht rfl

theorem isConcrete_default? {k : HoleKind} (h : k.default? = some a) : a.isConcrete = true := by
  cases k <;> simp only [HoleKind.default?, Option.some.injEq, reduceCtorEq] at h <;>
    subst h <;> rfl

theorem becomes_settleAll (t : Table) : Becomes t.Covers t t.settleAll := by
  refine settleAll_induction (P := Becomes t.Covers t) (.refl t) ?_
  intro u v i a hu hsize hi _ hdefault hcommit
  exact hu.trans (.of_step (step_commit? hi hcommit) fun b hb ↦ Option.some.inj hb ▸
    t.covers_of_isConcrete (isConcrete_default? hdefault))

/-! ### Agreement -/

section Unify

variable [RootChoice]

theorem becomes_unify (ht : t.Valid) (ha : t.Covers a) (hb : t.Covers b) :
    Becomes t.Covers t (t.unify a b).2 :=
  (becomes_unifyTo_of_valid ht ha hb _).mono fun _ h ↦ h.1

/-- **What agreement says**: the solutions are those from before in which the two types are the
same. -/
theorem solution_unify (ht : t.Valid) (ha : t.Covers a) (hb : t.Covers b)
    (h : t.unify a b = (true, u)) : u.Solution s ↔ t.Solution s ∧ a.subst s = b.subst s :=
  unifyTo_meaning meaning_solution _ ht ha hb h s

/-- **Unification ends** if it leaves no circle behind. -/
theorem complete_unify (ht : t.Valid) (ha : t.Covers a) (hb : t.Covers b)
    (hacyclic : (t.unify a b).2.Acyclic) : Complete t a b (t.unify a b) := by
  have hvalid := (becomes_unify ht ha hb).valid ht fun _ h ↦ h
  exact complete_unifyTo _ ht ha hb hacyclic (respects_expand hvalid hacyclic)
    (height_expand_le_unifyDepth ht ha hb _)

/-! ### Casts -/

omit [RootChoice] in
/-- A cast of a literal that waits changes nothing, commits it, or limits it to integers. -/
theorem castHole_cases (t : Table) (dest : Ty) (i : Nat) :
    (t.castHole dest i).2 = t ∨ t.commit? i dest = some (t.castHole dest i).2 ∨
      t.limit? i .int = some (t.castHole dest i).2 := by
  rw [castHole]
  split
  · cases h : t.commit? i dest with
    | none => exact .inl rfl
    | some u => exact .inr (.inl rfl)
  · split
    · exact .inl rfl
    · split
      · cases h : t.limit? i .int with
        | none => exact .inl rfl
        | some u => exact .inr (.inr rfl)
      · exact .inl rfl

theorem cast_of_hole {dest src : Ty} {i : Nat} (h : t.head src = .hole i) :
    t.cast dest src = t.castHole (t.head dest) i := by
  rw [cast, h]

theorem cast_of_known {dest src : Ty} (h : ∀ i, t.head src ≠ .hole i) :
    t.cast dest src = t.castKnown (t.head dest) (t.head src) := by
  rw [cast]
  cases hb : t.head src with
  | hole i => exact absurd hb (h i)
  | _ => rfl

/-- A cast between known types is decided by the types, or asks for one agreement. -/
theorem castKnown_cases (t : Table) (dest src : Ty) :
    (∃ ok, t.castKnown dest src = (ok, t) ∧ (ok = true → (src.isNumeric && dest.isNumeric ||
      (src.isInt && dest.isBool || src.isBool && dest.isInt)) = true)) ∨
      (∃ c d x y, src = .pointer c x ∧ dest = .pointer d y ∧ (!c || d) = true ∧
        t.castKnown dest src = t.unify x y) ∨ t.castKnown dest src = t.unify dest src := by
  unfold castKnown
  by_cases hnumeric : (src.isNumeric && dest.isNumeric) = true
  · rw [if_pos hnumeric]
    exact .inl ⟨true, rfl, fun _ ↦ by rw [hnumeric, Bool.true_or]⟩
  rw [if_neg hnumeric]
  by_cases hbool : (src.isInt && dest.isBool || src.isBool && dest.isInt) = true
  · rw [if_pos hbool]
    exact .inl ⟨true, rfl, fun _ ↦ by rw [hbool, Bool.or_true]⟩
  rw [if_neg hbool]
  cases src with
  | pointer c x =>
    cases dest with
    | pointer d y =>
      by_cases hconst : (!c || d) = true
      · exact .inr (.inl ⟨c, d, x, y, rfl, rfl, hconst, if_pos hconst⟩)
      · exact .inl ⟨false, if_neg hconst, fun h ↦ nomatch h⟩
    | _ => exact .inr (.inr rfl)
  | _ => exact .inr (.inr rfl)

theorem becomes_cast (ht : t.Valid) {dest src : Ty} (hdest : t.Covers dest) (hsrc : t.Covers src) :
    Becomes t.Covers t (t.cast dest src).2 := by
  have hdest' := covers_head ht hdest
  have hsrc' := covers_head ht hsrc
  by_cases h : ∃ i, t.head src = .hole i
  · obtain ⟨i, hi⟩ := h
    have hlt := lt_size_of_head ht hsrc hi
    rw [cast_of_hole hi]
    rcases castHole_cases t (t.head dest) i with h | h | h
    · rw [h]
      exact .refl t
    · exact .of_step (step_commit? hlt h) fun b hb ↦ Option.some.inj hb ▸ hdest'
    · obtain ⟨l, -, hstep⟩ := step_limit? hlt h
      exact .of_step hstep fun b hb ↦ ht.covers hb
  · rw [cast_of_known fun i hi ↦ h ⟨i, hi⟩]
    rcases castKnown_cases t (t.head dest) (t.head src) with
      ⟨ok, h, -⟩ | ⟨c, d, x, y, hx, hy, -, h⟩ | h
    · rw [h]
      exact .refl t
    · rw [h]
      rw [hx] at hsrc'
      rw [hy] at hdest'
      exact becomes_unify ht hsrc' hdest'
    · rw [h]
      exact becomes_unify ht hdest' hsrc'

omit [RootChoice] in
/-- An open hole that was cast takes the type, or becomes a number or an integer. -/
theorem castable_of_castHole {dest : Ty} (hdest : dest.isConcrete = true) {i : Nat}
    (hi : i < t.size) (hs₀ : t.Solution s) (h : t.castHole dest i = (true, u))
    (hs : u.Solution s) :
    (s i).castable dest = true ∨ (s i).isInt = true ∧ dest.isPointer = true := by
  rw [castHole] at h
  split at h
  · -- the hole takes the type it is cast to
    have heq := ((solution_commit? hi (eq_some_of_orElseSame h)).1 hs).2
    rw [Ty.subst_of_isConcrete hdest] at heq
    exact .inl (by simp [Ty.castable, heq])
  · rename_i hkind
    rw [Bool.not_eq_true, Bool.or_eq_false_iff] at hkind
    split at h
    · rename_i hnumeric
      have hne : t.kind i ≠ .null := of_decide_eq_false hkind.1
      exact .inl (by simp [Ty.castable, hnumeric,
        HoleKind.isNumeric_of_admits hne (hs₀.admitted hi)])
    · split at h
      · rename_i hdest'
        have hint : (s i).isInt = true :=
          ((solution_limit? hi (eq_some_of_orElseSame h)).1 hs).2
        rcases Bool.or_eq_true_iff.1 hdest' with hbool | hpointer
        · exact .inl (by simp [Ty.castable, hint, hbool])
        · exact .inr ⟨hint, hpointer⟩
      · cases congrArg Prod.fst h

/-- A cast between known types that is granted is allowed in every solution. -/
theorem castable_of_castKnown (ht : t.Valid) {dest src : Ty} (hdest : dest.isConcrete = true)
    (hsrc : t.Covers src) (h : t.castKnown dest src = (true, u)) (hs : u.Solution s) :
    (src.subst s).castable dest = true := by
  have hdest' := t.covers_of_isConcrete hdest
  rcases castKnown_cases t dest src with ⟨ok, hok, hclass⟩ | ⟨c, d, x, y, rfl, rfl, hc, hu⟩ | hu
  · -- scalars are the same under every substitution
    rw [hok] at h
    have hclass := hclass (congrArg Prod.fst h)
    cases src with
    | scalar _ => exact Ty.castable_of_class hclass
    | _ => cases hclass
  · rw [hu] at h
    have heq := ((solution_unify (a := x) (b := y) ht hsrc hdest' h).1 hs).2
    rw [Ty.subst_of_isConcrete (a := y) hdest] at heq
    rw [Ty.subst_pointer, heq]
    simp [Ty.castable, Ty.pointsAlike, hc]
  · rw [hu] at h
    have heq := ((solution_unify ht hdest' hsrc h).1 hs).2
    rw [Ty.subst_of_isConcrete hdest] at heq
    simp [Ty.castable, ← heq]

/-- **What an allowed cast means**: the types can be cast under every solution, or an open hole was
cast to a pointer and is an integer under every solution. -/
theorem castable_of_cast (ht : t.Valid) {dest src : Ty} (hdest : dest.isConcrete = true)
    (hsrc : t.Covers src) (h : t.cast dest src = (true, u)) (hs : u.Solution s) :
    (src.subst s).castable dest = true ∨
      ((∃ i, t.head src = .hole i) ∧ (src.subst s).isInt = true ∧ dest.isPointer = true) := by
  have hs₀ : t.Solution s := by
    have hbecomes := becomes_cast ht (t.covers_of_isConcrete hdest) hsrc
    rw [h] at hbecomes
    exact hbecomes.solution hs
  rw [← hs₀.toRespects.head ht hsrc]
  by_cases hhole : ∃ i, t.head src = .hole i
  · obtain ⟨i, hi⟩ := hhole
    rw [cast_of_hole hi, head_of_isConcrete hdest] at h
    rw [hi, Ty.subst_hole]
    rcases castable_of_castHole hdest (lt_size_of_head ht hsrc hi) hs₀ h hs with hcast | hint
    · exact .inl hcast
    · exact .inr ⟨⟨i, rfl⟩, hint⟩
  · rw [cast_of_known fun i hi ↦ hhole ⟨i, hi⟩, head_of_isConcrete hdest] at h
    exact .inl (castable_of_castKnown ht hdest (covers_head ht hsrc) h hs)

end Unify

end Table

end FrontEnd
