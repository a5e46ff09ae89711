import FrontEnd.Proofs.Table.Defaults

/-!
# Representatives do not show

A class of holes has a representative because a table needs a place to keep what it knows of the
class, and which member that is depends on the order in which classes were merged and on a choice
(`RootChoice`). Nothing that is asked of a table shows it. Two tables are **equivalent**
(`Equivalent`) if they have the same holes in the same classes and know the same of each class, and
then every question has the same answer in both and leaves equivalent tables behind (`Agree`), even
if the two go by different choices.

The one way out for a representative is `head`, which gives it in place of an open hole. What is
done with it there is to look up its class: a commitment is never to a head that is a hole, and any
other head is a type that was there before. So commitments are not only the same up to the choice of
members, they are the same types (`Equivalent.classOf_eq`).

Merging two classes is symmetric up to the representative, and with it making two types agree
(`unify_comm`).
-/

namespace FrontEnd

/-! ### Merging is symmetric -/

theorem HoleKind.meet?_comm (k l : HoleKind) : k.meet? l = l.meet? k := by
  cases k <;> cases l <;> rfl

theorem HoleClass.commonType?_comm (a? b? : Option Ty) : commonType? a? b? = commonType? b? a? := by
  cases a? with
  | none => cases b? <;> rfl
  | some a =>
    cases b? with
    | none => rfl
    | some b =>
      by_cases hab : a = b
      · rw [hab]
      · rw [commonType?, commonType?, if_neg hab, if_neg (Ne.symm hab)]

theorem HoleClass.merge?_comm (c d : HoleClass) : c.merge? d = d.merge? c := by
  rw [merge?, merge?, HoleKind.meet?_comm, commonType?_comm]

namespace Table

/-! ### Equivalent tables -/

/-- Two tables are **equivalent** if they have the same holes, in the same classes, and the same is
known of each class. Their representatives may differ. -/
structure Equivalent (t u : Table) : Prop where
  /-- The holes are the same. -/
  size_eq : u.size = t.size
  /-- The classes have the same members. -/
  find_eq_iff : ∀ {i j}, u.find i = u.find j ↔ t.find i = t.find j
  /-- The same is known of each class. -/
  classOf_eq : ∀ i, u.classOf i = t.classOf i

/-- Two answers **agree** if they are the same and leave related tables behind. -/
structure Agree (R : Table → Table → Prop) (x y : Bool × Table) : Prop where
  /-- The answers are the same. -/
  answer : y.1 = x.1
  /-- The tables are related. -/
  table : R x.2 y.2

namespace Equivalent

variable {t u v : Table} {i j i' j' : Nat} {a b : Ty}

theorem refl (t : Table) : t.Equivalent t :=
  ⟨rfl, Iff.rfl, fun _ ↦ rfl⟩

theorem symm (h : t.Equivalent u) : u.Equivalent t :=
  ⟨h.size_eq.symm, h.find_eq_iff.symm, fun i ↦ (h.classOf_eq i).symm⟩

theorem trans (h : t.Equivalent u) (h' : u.Equivalent v) : t.Equivalent v :=
  ⟨h'.size_eq.trans h.size_eq, h'.find_eq_iff.trans h.find_eq_iff,
    fun i ↦ (h'.classOf_eq i).trans (h.classOf_eq i)⟩

theorem kind_eq (h : t.Equivalent u) (i : Nat) : u.kind i = t.kind i :=
  congrArg HoleClass.kind (h.classOf_eq i)

theorem type?_eq (h : t.Equivalent u) (i : Nat) : u.type? i = t.type? i :=
  congrArg HoleClass.type? (h.classOf_eq i)

/-- Of two members of a class, one in each table, the same is known. -/
theorem classOf_eq_of_find_eq (h : t.Equivalent u) (hij : t.find i = t.find j) :
    u.classOf j = t.classOf i :=
  (h.classOf_eq j).trans (classOf_congr hij.symm)

theorem kind_eq_of_find_eq (h : t.Equivalent u) (hij : t.find i = t.find j) :
    u.kind j = t.kind i :=
  congrArg HoleClass.kind (h.classOf_eq_of_find_eq hij)

theorem type?_eq_of_find_eq (h : t.Equivalent u) (hij : t.find i = t.find j) :
    u.type? j = t.type? i :=
  congrArg HoleClass.type? (h.classOf_eq_of_find_eq hij)

theorem lt_size_iff (h : t.Equivalent u) (hij : t.find i = t.find j) :
    j < u.size ↔ i < t.size := by
  rw [h.size_eq, ← find_lt_iff (i := j), ← hij, find_lt_iff]

/-! ### Changes -/

theorem fresh (h : t.Equivalent u) (k : HoleKind) : (t.fresh k).Equivalent (u.fresh k) where
  size_eq := by rw [size_fresh, size_fresh, h.size_eq]
  find_eq_iff := by
    intro i j
    rw [find_fresh, find_fresh, find_fresh, find_fresh]
    exact h.find_eq_iff
  classOf_eq i := by rw [classOf_fresh, classOf_fresh, h.size_eq, h.classOf_eq]

/-- Fusing the same classes and telling the same of the new one leads to equivalent tables, whatever
represents it. -/
theorem fuses {t' u' : Table} {c : HoleClass} (h : t.Equivalent u) (hi : t.find i = t.find i')
    (hj : t.find j = t.find j') (ht : t.Fuses i j c t') (hu : u.Fuses i' j' c u') :
    t'.Equivalent u' := by
  have hmem (k : Nat) : (u.find k = u.find i' ∨ u.find k = u.find j') ↔
      (t.find k = t.find i ∨ t.find k = t.find j) := by
    rw [h.find_eq_iff, h.find_eq_iff, hi, hj]
  refine ⟨hu.size_eq.trans (h.size_eq.trans ht.size_eq.symm), fun {k l} ↦ ?_, fun k ↦ ?_⟩
  · rw [hu.find_eq_iff, ht.find_eq_iff, hmem, hmem, h.find_eq_iff]
  · rw [hu.classOf_eq, ht.classOf_eq, h.classOf_eq]
    exact if_congr (hmem k) rfl rfl

theorem putClass (h : t.Equivalent u) (hij : t.find i = t.find j) (c : HoleClass) :
    (t.putClass i c).Equivalent (u.putClass j c) := by
  rcases Nat.lt_or_ge i t.size with hi | hi
  · exact h.fuses hij hij (fuses_putClass hi c) (fuses_putClass ((h.lt_size_iff hij).2 hi) c)
  · -- what is told of a number that is no hole is told to nobody
    have hj : u.size ≤ j := Nat.not_lt.1 fun hj ↦ Nat.not_lt.2 hi ((h.lt_size_iff hij).1 hj)
    rw [putClass_of_ge hi, putClass_of_ge hj]
    exact h

theorem refine? (h : t.Equivalent u) (hij : t.find i = t.find j) (c : HoleClass) :
    Agree Equivalent (t.orElseSame (t.refine? i c)) (u.orElseSame (u.refine? j c)) := by
  rw [Table.refine?, Table.refine?, h.classOf_eq_of_find_eq hij]
  cases (t.classOf i).merge? c with
  | none => exact ⟨rfl, h⟩
  | some d => exact ⟨rfl, h.putClass hij d⟩

theorem limit? (h : t.Equivalent u) (hij : t.find i = t.find j) (k : HoleKind) :
    Agree Equivalent (t.orElseSame (t.limit? i k)) (u.orElseSame (u.limit? j k)) :=
  h.refine? hij _

theorem commit? (h : t.Equivalent u) (hij : t.find i = t.find j) (a : Ty) :
    Agree Equivalent (t.orElseSame (t.commit? i a)) (u.orElseSame (u.commit? j a)) := by
  rw [Table.commit?, Table.commit?, h.type?_eq_of_find_eq hij, h.kind_eq_of_find_eq hij]
  cases t.type? i with
  | some _ => exact ⟨rfl, h⟩
  | none => exact h.refine? hij _

/-- **Merging two classes one way or the other way round**, with any two choices of a
representative. -/
theorem join? (c d : RootChoice) (h : t.Equivalent u) (hi : t.find i = t.find i')
    (hj : t.find j = t.find j') :
    Agree Equivalent (t.orElseSame (@Table.join? c t i j))
      (u.orElseSame (@Table.join? d u j' i')) := by
  by_cases hsame : t.find i = t.find j
  · have hsame' : u.find j' = u.find i' := h.find_eq_iff.2 (hj.symm.trans (hsame.symm.trans hi))
    unfold Table.join?
    rw [if_pos hsame, if_pos hsame']
    exact ⟨rfl, h⟩
  have hsame' : u.find j' ≠ u.find i' := fun heq ↦
    hsame (hi.trans ((h.find_eq_iff.1 heq).symm.trans hj.symm))
  by_cases hlt : i < t.size ∧ j < t.size
  · have hlt' := And.intro ((h.lt_size_iff hj).2 hlt.2) ((h.lt_size_iff hi).2 hlt.1)
    have hmerge : (u.classOf j').merge? (u.classOf i') = (t.classOf i).merge? (t.classOf j) := by
      rw [h.classOf_eq_of_find_eq hi, h.classOf_eq_of_find_eq hj, HoleClass.merge?_comm]
    unfold Table.join?
    rw [if_neg hsame, if_neg hsame', dif_pos hlt, dif_pos hlt', hmerge]
    cases (t.classOf i).merge? (t.classOf j) with
    | none => exact ⟨rfl, h⟩
    | some m =>
      exact ⟨rfl, h.fuses hi hj (fuses_fuse hlt.1 hlt.2 m (c.root_mem t hlt.1 hlt.2))
        (fuses_fuse hlt'.1 hlt'.2 m (d.root_mem u hlt'.1 hlt'.2)).symm⟩
  · have hlt' : ¬ (j' < u.size ∧ i' < u.size) := by
      rw [h.lt_size_iff hi, h.lt_size_iff hj, and_comm]
      exact hlt
    unfold Table.join?
    rw [if_neg hsame, if_neg hsame', dif_neg hlt, dif_neg hlt']
    exact ⟨rfl, h⟩

theorem settleAll (h : t.Equivalent u) : t.settleAll.Equivalent u.settleAll where
  size_eq := by rw [size_settleAll, size_settleAll, h.size_eq]
  find_eq_iff := by
    intro i j
    rw [find_settleAll, find_settleAll, find_settleAll, find_settleAll]
    exact h.find_eq_iff
  classOf_eq i := by rw [classOf_settleAll, classOf_settleAll, h.classOf_eq]

/-! ### Heads -/

/-- **A head is the same in both tables**, or it is an open hole of one class in both. -/
theorem head (h : t.Equivalent u) (a : Ty) :
    (u.head a = t.head a ∧ ∀ i, t.head a ≠ .hole i) ∨
      ∃ i j, t.head a = .hole i ∧ u.head a = .hole j ∧ t.find i = t.find j := by
  have hrepresentative (i : Nat) : t.find (t.find i) = t.find (u.find i) := by
    rw [find_find, ← h.find_eq_iff, find_find]
  have hheadOf (n i : Nat) : (u.headOf n i = t.headOf n i ∧ ∀ j, t.headOf n i ≠ .hole j) ∨
      ∃ j k, t.headOf n i = .hole j ∧ u.headOf n i = .hole k ∧ t.find j = t.find k := by
    induction n generalizing i with
    | zero => exact .inr ⟨_, _, rfl, rfl, hrepresentative i⟩
    | succ n ih =>
      rw [headOf, headOf, h.type?_eq]
      cases t.type? i with
      | none => exact .inr ⟨_, _, rfl, rfl, hrepresentative i⟩
      | some b =>
        cases b with
        | hole j => exact ih j
        | _ => exact .inl ⟨rfl, by simp⟩
  cases a with
  | hole i =>
    rw [Table.head, Table.head, h.size_eq]
    exact hheadOf _ i
  | _ => exact .inl ⟨rfl, by simp [Table.head]⟩

theorem agree_eq (h : t.Equivalent u) (a b : Ty) :
    Agree Equivalent (decide (a = b), t) (decide (b = a), u) :=
  ⟨decide_eq_decide.2 eq_comm, h⟩

end Equivalent

/-! ### Making types agree -/

namespace Agree

variable {x y z : Bool × Table}

theorem trans (h : Agree Equivalent x y) (h' : Agree Equivalent y z) : Agree Equivalent x z :=
  ⟨h'.answer.trans h.answer, h.table.trans h'.table⟩

/-- Two answers that agree are both yes or both no. -/
theorem cases {R : Table → Table → Prop} (h : Agree R x y) :
    (∃ t u, x = (true, t) ∧ y = (true, u) ∧ R t u) ∨
      ∃ t u, x = (false, t) ∧ y = (false, u) ∧ R t u := by
  obtain ⟨ok, t⟩ := x
  obtain ⟨ok', u⟩ := y
  obtain rfl : ok' = ok := h.answer
  cases ok' with
  | false => exact .inr ⟨t, u, rfl, rfl, h.table⟩
  | true => exact .inl ⟨t, u, rfl, rfl, h.table⟩

end Agree

theorem agree_unifyAll {step step' : Table → Ty → Ty → Bool × Table}
    (hstep : ∀ {t u : Table}, t.Equivalent u → ∀ a b,
      Agree Equivalent (step t a b) (step' u b a))
    (as bs : List Ty) {t u : Table} (h : t.Equivalent u) :
    Agree Equivalent (unifyAll step t as bs) (unifyAll step' u bs as) := by
  induction as generalizing bs t u with
  | nil => cases bs <;> exact ⟨rfl, h⟩
  | cons a as ih =>
    cases bs with
    | nil => exact ⟨rfl, h⟩
    | cons b bs =>
      rw [unifyAll, unifyAll]
      rcases (hstep h a b).cases with ⟨t', u', ht, hu, h'⟩ | ⟨t', u', ht, hu, h'⟩ <;> rw [ht, hu]
      · exact ih bs h'
      · exact ⟨rfl, h'⟩

/-- **Both orders of two types**, in equivalent tables and with any two choices of representatives.
The induction is on the bound; at each level the heads are the same or holes of one class, and then
the two runs take the same branch, mirrored. -/
theorem agree_unifyTo (c d : RootChoice) (n : Nat) {t u : Table} (h : t.Equivalent u) (a b : Ty) :
    Agree Equivalent (@unifyTo c n t a b) (@unifyTo d n u b a) := by
  induction n generalizing t u a b with
  | zero => exact ⟨rfl, h⟩
  | succ n ih =>
    unfold unifyTo
    rcases h.head a with ⟨ha, hane⟩ | ⟨i, i', ha, ha', hi⟩ <;>
      rcases h.head b with ⟨hb, hbne⟩ | ⟨j, j', hb, hb', hj⟩
    · rw [ha, hb]
      generalize t.head a = x at hane ⊢
      generalize t.head b = y at hbne ⊢
      cases x with
      | hole k => exact absurd rfl (hane k)
      | pointer p x =>
        cases y with
        | hole k => exact absurd rfl (hbne k)
        | pointer q y =>
          by_cases hpq : p = q
          · simp only [if_pos hpq, if_pos hpq.symm]
            exact ih h x y
          · simp only [if_neg hpq, if_neg (Ne.symm hpq)]
            exact ⟨rfl, h⟩
        | _ => exact h.agree_eq _ _
      | func ps x =>
        cases y with
        | hole k => exact absurd rfl (hbne k)
        | func qs y =>
          by_cases hlen : ps.length = qs.length
          · simp only [if_pos hlen, if_pos hlen.symm]
            rcases (agree_unifyAll ih ps qs h).cases with
              ⟨t', u', ht, hu, h'⟩ | ⟨t', u', ht, hu, h'⟩ <;> rw [ht, hu]
            · exact ih h' x y
            · exact ⟨rfl, h'⟩
          · simp only [if_neg hlen, if_neg (Ne.symm hlen)]
            exact ⟨rfl, h⟩
        | _ => exact h.agree_eq _ _
      | _ =>
        cases y with
        | hole k => exact absurd rfl (hbne k)
        | _ => exact h.agree_eq _ _
    · rw [ha, hb, hb']
      cases hx : t.head a with
      | hole k => exact absurd hx (hane k)
      | _ => exact h.commit? hj _
    · rw [hb, ha, ha']
      cases hy : t.head b with
      | hole k => exact absurd hy (hbne k)
      | _ => exact h.commit? hi _
    · rw [ha, ha', hb, hb']
      exact h.join? c d hi hj

/-- **Making two types agree is symmetric**, in its answer and in what it leaves behind: every hole
is in the same class, under the same limit and committed to the same type, whichever of the two
types comes first. So it is also if the answer is no, and what was decided for the parameters before
it stays. Only the representatives of classes may differ. -/
theorem unify_comm [RootChoice] (t : Table) (a b : Ty) :
    (t.unify a b).1 = (t.unify b a).1 ∧ (t.unify a b).2.size = (t.unify b a).2.size ∧
      ∀ i, { j | (t.unify a b).2.find j = (t.unify a b).2.find i } =
          { j | (t.unify b a).2.find j = (t.unify b a).2.find i } ∧
        (t.unify a b).2.kind i = (t.unify b a).2.kind i ∧
        (t.unify a b).2.type? i = (t.unify b a).2.type? i := by
  have hdepth : t.unifyDepth b a = t.unifyDepth a b := by
    rw [unifyDepth, unifyDepth, Nat.add_right_comm t.maxHeight]
  have hagree : Agree Equivalent (t.unify b a) (t.unify a b) := by
    rw [unify, unify, hdepth]
    exact agree_unifyTo _ _ _ (.refl t) b a
  refine ⟨hagree.answer, hagree.table.size_eq, fun i ↦ ⟨Set.ext fun j ↦ ?_, ?_, ?_⟩⟩
  · exact hagree.table.find_eq_iff
  · exact hagree.table.kind_eq i
  · exact hagree.table.type?_eq i

/-- Two parameters are merged before the next two turn out to differ, and the representative tells
which function came first. -/
example :
    let t := (empty.fresh .number).fresh .number
    let a := Ty.func [.hole 0, .bool] .unit
    let b := Ty.func [.hole 1, .i64] .unit
    (t.unify a b).1 = false ∧ (t.unify b a).1 = false ∧
      (t.unify a b).2.find 0 = 1 ∧ (t.unify b a).2.find 1 = 0 := by decide

namespace Equivalent

variable {t u : Table} {i j : Nat} {a : Ty}

/-! ### Questions -/

theorem maxHeight_le (h : t.Equivalent u) : u.maxHeight ≤ t.maxHeight := by
  refine maxHeight_le_iff.2 fun {i a} ha ↦ ?_
  exact height_le_maxHeight ((h.type?_eq i).symm.trans ha)

theorem maxHeight_eq (h : t.Equivalent u) : u.maxHeight = t.maxHeight :=
  Nat.le_antisymm h.maxHeight_le h.symm.maxHeight_le

/-- **Making two types agree**, with any two choices of representatives: turned round twice, the two
types stand in the same order again. -/
theorem unify (c d : RootChoice) (h : t.Equivalent u) (a b : Ty) :
    Agree Equivalent (@Table.unify c t a b) (@Table.unify d u a b) := by
  unfold Table.unify
  rw [unifyDepth, unifyDepth, h.size_eq, h.maxHeight_eq]
  exact (agree_unifyTo c c _ (.refl t) a b).trans (agree_unifyTo c d _ h b a)

/-- Another choice, by which the first of two always stays. -/
example :
    let first : RootChoice := ⟨fun t i _ ↦ t.find i, fun _ _ _ hi _ ↦ .inl (roots_find hi)⟩
    let t := (empty.fresh .number).fresh .number
    (@Table.unify first t (.hole 0) (.hole 1)).2.find 1 = 0 ∧
      (@Table.unify byRank t (.hole 0) (.hole 1)).2.find 1 = 1 := by decide

theorem requireLimit (h : t.Equivalent u) (k : HoleKind) (a : Ty) :
    Agree Equivalent (t.requireLimit k a) (u.requireLimit k a) := by
  rcases h.head a with ⟨ha, hne⟩ | ⟨i, j, hi, hj, hij⟩
  · rw [requireLimit_of_known hne, requireLimit_of_known (by rw [ha]; exact hne), ha]
    exact ⟨rfl, h⟩
  · rw [requireLimit_of_hole hi, requireLimit_of_hole hj]
    exact h.limit? hij k

theorem castHole (h : t.Equivalent u) (hij : t.find i = t.find j) (dest : Ty) :
    Agree Equivalent (t.castHole dest i) (u.castHole dest j) := by
  have haccepts : u.accepts j dest = t.accepts i dest := by
    rw [accepts, accepts, h.type?_eq_of_find_eq hij, h.kind_eq_of_find_eq hij]
  rw [Table.castHole, Table.castHole, h.kind_eq_of_find_eq hij, haccepts]
  split_ifs
  · exact h.commit? hij dest
  · exact ⟨rfl, h⟩
  · exact h.limit? hij .int
  · exact ⟨rfl, h⟩

theorem castKnown (c d : RootChoice) (h : t.Equivalent u) (dest src : Ty) :
    Agree Equivalent (@Table.castKnown c t dest src) (@Table.castKnown d u dest src) := by
  unfold Table.castKnown
  split_ifs
  · exact ⟨rfl, h⟩
  · exact ⟨rfl, h⟩
  · split
    · split_ifs
      · exact h.unify c d _ _
      · exact ⟨rfl, h⟩
    · exact h.unify c d _ _

/-- **A cast** to a type that is known at least at its head. To an open hole it would commit one
hole to the representative of another. -/
theorem cast (c d : RootChoice) (h : t.Equivalent u) {dest : Ty} (hdest : ∀ i, dest ≠ .hole i)
    (src : Ty) : Agree Equivalent (@Table.cast c t dest src) (@Table.cast d u dest src) := by
  unfold Table.cast
  rw [head_of_ne_hole hdest, head_of_ne_hole hdest]
  rcases h.head src with ⟨hsrc, hne⟩ | ⟨i, j, hi, hj, hij⟩
  · rw [hsrc]
    cases hx : t.head src with
    | hole i => exact absurd hx (hne i)
    | _ => exact h.castKnown c d dest _
  · rw [hi, hj]
    exact h.castHole hij dest

/-! ### Reading types -/

/-- The images of a hole differ by the representatives in them. -/
theorem image (h : t.Equivalent u) (n i : Nat) :
    u.image n i = (t.image n i).subst fun k ↦ .hole (u.find k) := by
  have hopen (i : Nat) : Ty.hole (u.find i) = .hole (u.find (t.find i)) := by
    rw [h.find_eq_iff.2 (find_find t i)]
  induction n generalizing i with
  | zero => exact hopen i
  | succ n ih =>
    rw [Table.image, Table.image, h.type?_eq]
    cases t.type? i with
    | none => exact hopen i
    | some a =>
      rw [Ty.subst_subst]
      exact Ty.subst_congr fun k _ ↦ ih k

/-- **A type that expands to one without holes** expands to the same in both tables. -/
theorem expand_of_isConcrete (h : t.Equivalent u) (ha : (t.expand a).isConcrete = true) :
    u.expand a = t.expand a :=
  calc u.expand a
    _ = a.subst fun i ↦ (t.image t.size i).subst fun k ↦ .hole (u.find k) := by
        rw [expand, h.size_eq]
        exact Ty.subst_congr fun i _ ↦ h.image _ i
    _ = (t.expand a).subst fun k ↦ .hole (u.find k) := (Ty.subst_subst _ _ _).symm
    _ = t.expand a := Ty.subst_of_isConcrete ha _

theorem holeName_eq (h : t.Equivalent u) (n i : Nat) : u.holeName n i = t.holeName n i := by
  induction n generalizing i with
  | zero => rw [holeName, holeName, h.kind_eq]
  | succ n ih =>
    rw [holeName, holeName, h.type?_eq, h.kind_eq]
    cases t.type? i with
    | none => rfl
    | some a => exact Ty.render_congr fun k _ ↦ ih k

/-- **The text of a type** is the same in both tables: it names holes by their limits. -/
theorem describe_eq (h : t.Equivalent u) (a : Ty) : u.describe a = t.describe a := by
  rw [describe, describe, h.size_eq]
  exact Ty.render_congr fun i _ ↦ h.holeName_eq _ i

end Equivalent

/-! ### What can be asked -/

/-- A **likeness** of tables: whatever checking asks has the same answer in two tables that are
alike, and leaves tables behind that are alike. The tables may go by different choices of
representatives. -/
structure Likeness (c d : RootChoice) where
  /-- Two tables are alike. -/
  Rel : Table → Table → Prop
  /-- The types that a cast may name. -/
  casts : Set Ty
  /-- The next hole is the same. -/
  size_eq : ∀ {t u}, Rel t u → u.size = t.size
  /-- Types are described alike. -/
  describe_eq : ∀ {t u}, Rel t u → ∀ a, u.describe a = t.describe a
  /-- A head is the same, or it is an open hole in both. -/
  head : ∀ {t u}, Rel t u → ∀ a,
    u.head a = t.head a ∨ ∃ i j, t.head a = .hole i ∧ u.head a = .hole j
  /-- A new hole can be added to both. -/
  fresh : ∀ {t u}, Rel t u → ∀ k, Rel (t.fresh k) (u.fresh k)
  /-- A type is put under a limit in both, or in neither. -/
  requireLimit : ∀ {t u}, Rel t u → ∀ k a, Agree Rel (t.requireLimit k a) (u.requireLimit k a)
  /-- Two types are made to agree in both, or in neither. -/
  unify : ∀ {t u}, Rel t u → ∀ a b, Agree Rel (@Table.unify c t a b) (@Table.unify d u a b)
  /-- A cast is allowed in both, or in neither. -/
  cast : ∀ {t u dest}, Rel t u → dest ∈ casts → ∀ a,
    Agree Rel (@Table.cast c t dest a) (@Table.cast d u dest a)

/-- Every table is like itself, under one choice of representatives. -/
def Likeness.same (c : RootChoice) : Likeness c c where
  Rel t u := u = t
  casts := Set.univ
  size_eq := congrArg size
  describe_eq h a := congrArg (describe · a) h
  head h a := .inl (congrArg (Table.head · a) h)
  fresh h k := congrArg (Table.fresh · k) h
  requireLimit h _ _ := h ▸ ⟨rfl, rfl⟩
  unify h _ _ := h ▸ ⟨rfl, rfl⟩
  cast h _ _ := h ▸ ⟨rfl, rfl⟩

/-- **Equivalent tables are alike**, under any two choices. A cast has to name more than a hole. -/
def Likeness.equivalent (c d : RootChoice) : Likeness c d where
  Rel := Equivalent
  casts := { dest | ∀ i, dest ≠ .hole i }
  size_eq := Equivalent.size_eq
  describe_eq := Equivalent.describe_eq
  head h a := (h.head a).imp And.left fun ⟨i, j, hi, hj, _⟩ ↦ ⟨i, j, hi, hj⟩
  fresh := Equivalent.fresh
  requireLimit := Equivalent.requireLimit
  unify := Equivalent.unify c d
  cast h hdest := h.cast c d hdest

end Table

end FrontEnd
