import FrontEnd.Proofs.Table.Solutions

/-!
# Making types agree is unification

`UnifiesTo` is the recursion of `unify` as such, without a bound on its depth: heads are uncovered,
two open holes are merged, an open hole is committed to the type it meets, and everything else
agrees part by part, each part in the table that the parts before it left behind. A derivation is a
run that comes to its end.

The main facts about a run, in a table without circles:

* if it succeeds, it keeps exactly the solutions under which the two types are equal;
* if it fails, there are none;
* it ends as long as it commits no class to a type that leads back to the class, and the bound of
  `unify` is deep enough.

Nothing is checked on the way that would keep a circle from arising, so termination cannot be had
from the table at the start. It is read off the table at the end: if that one has no circle, it
assigns a finite type to every hole, this assignment respects every table on the way, and under it
the two types lose height with every constructor that is taken off.
-/

namespace FrontEnd

/-- Whether two types have the same outermost constructor, with parts to be compared. -/
def Ty.sameShape : Ty → Ty → Bool
  | .pointer c _, .pointer d _ => c == d
  | .func ps _, .func qs _ => ps.length == qs.length
  | _, _ => false

/-- Types of different shape are equal under a substitution only if they are equal. -/
theorem Ty.eq_of_subst_eq {a b : Ty} (ha : ∀ i, a ≠ .hole i) (hb : ∀ i, b ≠ .hole i)
    (hshape : a.sameShape b = false) {s : Nat → Ty} (h : a.subst s = b.subst s) : a = b := by
  cases a <;> cases b
  case hole.hole i j => exact absurd rfl (ha i)
  case pointer.pointer c a d b =>
    rw [subst_pointer, subst_pointer, Ty.pointer.injEq] at h
    exact absurd (beq_iff_eq.2 h.1) (Bool.eq_false_iff.1 hshape)
  case func.func ps r qs q =>
    rw [subst_func, subst_func, Ty.func.injEq] at h
    have hlen : ps.length = qs.length := by
      rw [← List.length_map (subst s), h.1, List.length_map]
    exact absurd (beq_iff_eq.2 hlen) (Bool.eq_false_iff.1 hshape)
  case scalar.scalar s s' => exact h
  case unit.unit => rfl
  all_goals first
    | exact absurd rfl (ha _)
    | exact absurd rfl (hb _)
    | exact nomatch h

namespace Table

/-! ### The recursion -/

mutual

/-- Making two types agree comes to an end with an answer and a table. -/
inductive UnifiesTo [RootChoice] : Table → Ty → Ty → Bool × Table → Prop
  | join {t : Table} {a b : Ty} {i j : Nat} (ha : t.HeadsTo a (.hole i))
    (hb : t.HeadsTo b (.hole j)) : UnifiesTo t a b (t.orElseSame (t.join? i j))
  | commitLeft {t : Table} {a b b' : Ty} {i : Nat} (ha : t.HeadsTo a (.hole i))
    (hb : t.HeadsTo b b') (hne : ∀ j, b' ≠ .hole j) :
    UnifiesTo t a b (t.orElseSame (t.commit? i b'))
  | commitRight {t : Table} {a b a' : Ty} {j : Nat} (ha : t.HeadsTo a a')
    (hb : t.HeadsTo b (.hole j)) (hne : ∀ i, a' ≠ .hole i) :
    UnifiesTo t a b (t.orElseSame (t.commit? j a'))
  | pointer {t : Table} {a b x y : Ty} {c : Bool} {r : Bool × Table}
    (ha : t.HeadsTo a (.pointer c x)) (hb : t.HeadsTo b (.pointer c y))
    (h : UnifiesTo t x y r) : UnifiesTo t a b r
  | func {t u : Table} {a b x y : Ty} {ps qs : List Ty} {r : Bool × Table}
    (ha : t.HeadsTo a (.func ps x)) (hb : t.HeadsTo b (.func qs y))
    (hlen : ps.length = qs.length) (hps : UnifiesAllTo t ps qs (true, u))
    (h : UnifiesTo u x y r) : UnifiesTo t a b r
  | params {t u : Table} {a b x y : Ty} {ps qs : List Ty}
    (ha : t.HeadsTo a (.func ps x)) (hb : t.HeadsTo b (.func qs y))
    (hlen : ps.length = qs.length) (hps : UnifiesAllTo t ps qs (false, u)) :
    UnifiesTo t a b (false, u)
  | other {t : Table} {a b a' b' : Ty} (ha : t.HeadsTo a a') (hb : t.HeadsTo b b')
    (hne : ∀ i, a' ≠ .hole i) (hne' : ∀ i, b' ≠ .hole i) (hshape : a'.sameShape b' = false) :
    UnifiesTo t a b (decide (a' = b'), t)

/-- Making two lists of types agree in order comes to an end, at the latest with the first pair that
does not agree. -/
inductive UnifiesAllTo [RootChoice] : Table → List Ty → List Ty → Bool × Table → Prop
  | nil {t : Table} : UnifiesAllTo t [] [] (true, t)
  | cons {t u : Table} {a b : Ty} {as bs : List Ty} {r : Bool × Table}
    (h : UnifiesTo t a b (true, u)) (hs : UnifiesAllTo u as bs r) :
    UnifiesAllTo t (a :: as) (b :: bs) r
  | stop {t u : Table} {a b : Ty} {as bs : List Ty} (h : UnifiesTo t a b (false, u)) :
    UnifiesAllTo t (a :: as) (b :: bs) (false, u)

end

/-- One level of the bounded recursion, by what the heads of the two types are. -/
inductive Meeting [RootChoice] (n : Nat) (t : Table) (a b : Ty) : Bool × Table → Prop
  | join {i j : Nat} (ha : t.head a = .hole i) (hb : t.head b = .hole j) :
    Meeting n t a b (t.orElseSame (t.join? i j))
  | commitLeft {b' : Ty} {i : Nat} (ha : t.head a = .hole i) (hb : t.head b = b')
    (hne : ∀ j, b' ≠ .hole j) : Meeting n t a b (t.orElseSame (t.commit? i b'))
  | commitRight {a' : Ty} {j : Nat} (ha : t.head a = a') (hb : t.head b = .hole j)
    (hne : ∀ i, a' ≠ .hole i) : Meeting n t a b (t.orElseSame (t.commit? j a'))
  | pointer {x y : Ty} {c : Bool} (ha : t.head a = .pointer c x) (hb : t.head b = .pointer c y) :
    Meeting n t a b (unifyTo n t x y)
  | func {u : Table} {x y : Ty} {ps qs : List Ty} (ha : t.head a = .func ps x)
    (hb : t.head b = .func qs y) (hlen : ps.length = qs.length)
    (hps : unifyAll (unifyTo n) t ps qs = (true, u)) : Meeting n t a b (unifyTo n u x y)
  | params {u : Table} {x y : Ty} {ps qs : List Ty} (ha : t.head a = .func ps x)
    (hb : t.head b = .func qs y) (hlen : ps.length = qs.length)
    (hps : unifyAll (unifyTo n) t ps qs = (false, u)) : Meeting n t a b (false, u)
  | other {a' b' : Ty} (ha : t.head a = a') (hb : t.head b = b') (hne : ∀ i, a' ≠ .hole i)
    (hne' : ∀ i, b' ≠ .hole i) (hshape : a'.sameShape b' = false) :
    Meeting n t a b (decide (a' = b'), t)

/-- **Every call is one of these.** All that is known of `unify` is derived from here. -/
theorem meeting_unifyTo [RootChoice] (n : Nat) (t : Table) (a b : Ty) :
    Meeting n t a b (unifyTo (n + 1) t a b) := by
  rw [unifyTo]
  cases ha : t.head a with
  | hole i =>
    cases hb : t.head b with
    | hole j => exact .join ha hb
    | _ => exact .commitLeft ha hb (by simp)
  | scalar s =>
    cases hb : t.head b with
    | hole j => exact .commitRight ha hb (by simp)
    | _ => exact .other ha hb (by simp) (by simp) rfl
  | unit =>
    cases hb : t.head b with
    | hole j => exact .commitRight ha hb (by simp)
    | _ => exact .other ha hb (by simp) (by simp) rfl
  | pointer c x =>
    cases hb : t.head b with
    | hole j => exact .commitRight ha hb (by simp)
    | pointer d y =>
      by_cases hcd : c = d
      · subst hcd
        simp only [if_true]
        exact .pointer ha hb
      · have h := Meeting.other (n := n) ha hb (by simp) (by simp) (beq_false_of_ne hcd)
        rw [decide_eq_false (by simp [hcd])] at h
        simp only [if_neg hcd]
        exact h
    | _ => exact .other ha hb (by simp) (by simp) rfl
  | func ps x =>
    cases hb : t.head b with
    | hole j => exact .commitRight ha hb (by simp)
    | func qs y =>
      by_cases hlen : ps.length = qs.length
      · simp only [if_pos hlen]
        cases hps : unifyAll (unifyTo n) t ps qs with
        | mk ok u =>
          cases ok
          · exact .params ha hb hlen hps
          · exact .func ha hb hlen hps
      · have hne : ps ≠ qs := fun h ↦ hlen (by rw [h])
        have h := Meeting.other (n := n) ha hb (by simp) (by simp) (beq_false_of_ne hlen)
        rw [decide_eq_false (by simp [hne])] at h
        simp only [if_neg hlen]
        exact h
    | _ => exact .other ha hb (by simp) (by simp) rfl

/-! ### What is left behind -/

/-- A property of types that goes down to the parts of pointers and functions. -/
structure OnParts (Q : Ty → Prop) : Prop where
  elem : ∀ {c a}, Q (.pointer c a) → Q a
  param : ∀ {ps r a}, Q (.func ps r) → a ∈ ps → Q a
  result : ∀ {ps r}, Q (.func ps r) → Q r

/-- A head other than a hole is the type itself or the type of a class. -/
theorem head_mem {Q : Ty → Prop} {t : Table} {a : Ty} (hQ : ∀ {i a}, t.type? i = some a → Q a)
    (ha : Q a) (hne : ∀ i, t.head a ≠ .hole i) : Q (t.head a) := by
  have hheadOf : ∀ n i, (∀ j, t.headOf n i ≠ .hole j) → Q (t.headOf n i) := by
    intro n
    induction n with
    | zero => exact fun i h ↦ absurd rfl (h _)
    | succ n ih =>
      intro i h
      cases htype : t.type? i with
      | none => exact absurd (headOf_of_none htype _) (h _)
      | some b =>
        by_cases hb : ∃ j, b = .hole j
        · obtain ⟨j, rfl⟩ := hb
          rw [headOf_succ_of_hole htype] at h ⊢
          exact ih j h
        · rw [headOf_succ_of_known htype fun j hj ↦ hb ⟨j, hj⟩]
          exact hQ htype
  cases a with
  | hole i => exact hheadOf _ i hne
  | _ => exact ha

section Steps

variable {Q : Ty → Prop}

/-- A single step that fails did not happen, -/
theorem eq_none_of_orElseSame {t : Table} {u? : Option Table}
    (h : (t.orElseSame u?).1 = false) : u? = none := by
  cases u? with
  | none => rfl
  | some u => cases h

/-- and one that succeeds did. -/
theorem eq_some_of_orElseSame {t u : Table} {u? : Option Table}
    (h : t.orElseSame u? = (true, u)) : u? = some u := by
  cases u? with
  | none => cases congrArg Prod.fst h
  | some v => exact congrArg some (congrArg Prod.snd h)

theorem becomes_commit? {t : Table} {i : Nat} {a : Ty} (hi : i < t.size) (ha : Q a) :
    Becomes Q t (t.orElseSame (t.commit? i a)).2 := by
  cases h : t.commit? i a with
  | none => exact .refl t
  | some u => exact .of_step (step_commit? hi h) fun b hb ↦ Option.some.inj hb ▸ ha

theorem becomes_limit? {t : Table} {i : Nat} {k : HoleKind} (hi : i < t.size)
    (hQ : ∀ {i a}, t.type? i = some a → Q a) : Becomes Q t (t.orElseSame (t.limit? i k)).2 := by
  cases h : t.limit? i k with
  | none => exact .refl t
  | some u =>
    obtain ⟨l, -, hstep⟩ := step_limit? hi h
    exact .of_step hstep fun b hb ↦ hQ hb

theorem becomes_join? [RootChoice] {t : Table} {i j : Nat} (hi : i < t.size) (hj : j < t.size)
    (hQ : ∀ {i a}, t.type? i = some a → Q a) : Becomes Q t (t.orElseSame (t.join? i j)).2 := by
  cases h : t.join? i j with
  | none => exact .refl t
  | some u =>
    rcases step_join? hi hj h with ⟨-, rfl⟩ | ⟨c, -, hstep, hc⟩
    · exact .refl u
    · exact .of_step hstep fun a ha ↦ hc.elim (fun hc ↦ hQ (hc ▸ ha)) fun hc ↦ hQ (hc ▸ ha)

/-- Lists of types that agree pair by pair leave behind what the pairs leave behind. -/
theorem becomes_unifyAll {P : Table → Prop} {step : Table → Ty → Ty → Bool × Table}
    (hP : ∀ {t u}, P t → Becomes Q t u → P u)
    (hstep : ∀ t a b, P t → Q a → Q b → Becomes Q t (step t a b).2) :
    ∀ (as bs : List Ty) (t : Table), P t → (∀ a ∈ as, Q a) → (∀ b ∈ bs, Q b) →
      Becomes Q t (unifyAll step t as bs).2 := by
  intro as
  induction as with
  | nil => intro bs t _ _ _; cases bs <;> exact .refl t
  | cons a as ih =>
    intro bs t ht has hbs
    cases bs with
    | nil => exact .refl t
    | cons b bs =>
      have hhead := hstep t a b ht (has a List.mem_cons_self) (hbs b List.mem_cons_self)
      rw [unifyAll]
      cases hr : step t a b with
      | mk ok u =>
        rw [hr] at hhead
        cases ok
        · exact hhead
        · exact hhead.trans (ih bs u (hP ht hhead)
            (fun x hx ↦ has x (List.mem_cons_of_mem _ hx))
            fun x hx ↦ hbs x (List.mem_cons_of_mem _ hx))

/-- **Unification makes steps**, and commits classes only to parts of the two types and of types
that the table is committed to. -/
theorem becomes_unifyTo [RootChoice] (hparts : OnParts Q) {size : Nat}
    (hcovers : ∀ {a}, Q a → ∀ i ∈ a.holes, i < size) (n : Nat) :
    ∀ (t : Table) (a b : Ty), (t.Valid ∧ t.size = size ∧ ∀ {i a}, t.type? i = some a → Q a) →
      Q a → Q b → Becomes Q t (unifyTo n t a b).2 := by
  have hkeep : ∀ {t u : Table}, (t.Valid ∧ t.size = size ∧ ∀ {i a}, t.type? i = some a → Q a) →
      Becomes Q t u → u.Valid ∧ u.size = size ∧ ∀ {i a}, u.type? i = some a → Q a := by
    rintro t u ⟨ht, hsize, hQ⟩ hu
    refine ⟨hu.valid ht fun a ha i hi ↦ hsize ▸ hcovers ha i hi, hu.size_eq.trans hsize, ?_⟩
    exact fun hk ↦ (hu.type?_cases hk).elim hQ id
  induction n with
  | zero => exact fun t _ _ _ _ _ ↦ .refl t
  | succ n ih =>
    rintro t a b ⟨ht, hsize, hQ⟩ ha hb
    have hlt : ∀ {x i}, Q x → t.head x = .hole i → i < t.size := fun {x i} hx hhead ↦
      covers_head ht (fun i hi ↦ hsize ▸ hcovers hx i hi) i (hhead ▸ List.mem_singleton.2 rfl)
    have hhead : ∀ {x y}, Q x → t.head x = y → (∀ i, y ≠ .hole i) → Q y := by
      rintro x _ hx rfl hne
      exact head_mem hQ hx hne
    generalize hr : unifyTo (n + 1) t a b = r
    have hmeet := meeting_unifyTo n t a b
    rw [hr] at hmeet
    cases hmeet with
    | join hi hj => exact becomes_join? (hlt ha hi) (hlt hb hj) hQ
    | commitLeft hi hb' hne => exact becomes_commit? (hlt ha hi) (hhead hb hb' hne)
    | commitRight ha' hj hne => exact becomes_commit? (hlt hb hj) (hhead ha ha' hne)
    | pointer hx hy =>
      exact ih t _ _ ⟨ht, hsize, hQ⟩ (hparts.elem (hhead ha hx (by simp)))
        (hparts.elem (hhead hb hy (by simp)))
    | func hx hy _ hps =>
      have hx := hhead ha hx (by simp)
      have hy := hhead hb hy (by simp)
      have hall := becomes_unifyAll hkeep ih _ _ t ⟨ht, hsize, hQ⟩ (fun p ↦ hparts.param hx)
        fun p ↦ hparts.param hy
      rw [hps] at hall
      exact hall.trans (ih _ _ _ (hkeep ⟨ht, hsize, hQ⟩ hall) (hparts.result hx)
        (hparts.result hy))
    | params hx hy _ hps =>
      have hx := hhead ha hx (by simp)
      have hy := hhead hb hy (by simp)
      have hall := becomes_unifyAll hkeep ih _ _ t ⟨ht, hsize, hQ⟩ (fun p ↦ hparts.param hx)
        fun p ↦ hparts.param hy
      rwa [hps] at hall
    | other => exact .refl t

/-- The types over the holes of a table, and no higher than a bound. -/
theorem onParts_covers (t : Table) (n : Nat) : OnParts fun a ↦ t.Covers a ∧ a.height ≤ n where
  elem h := ⟨h.1, Nat.le_trans (Nat.le_succ _) h.2⟩
  param h ha := ⟨fun i hi ↦ h.1 i (Ty.mem_holes_func.2 (.inl ⟨_, ha, hi⟩)),
    Nat.le_trans (Nat.le_of_lt (Ty.height_param_lt ha)) h.2⟩
  result h := ⟨fun i hi ↦ h.1 i (Ty.mem_holes_func.2 (.inr hi)),
    Nat.le_trans (Nat.le_of_lt (Ty.height_result_lt _ _)) h.2⟩

end Steps

theorem foldl_max_le_iff {l : List Nat} {m k : Nat} :
    l.foldl max m ≤ k ↔ m ≤ k ∧ ∀ n ∈ l, n ≤ k := by
  induction l generalizing m with
  | nil => simp
  | cons x l ih => rw [List.foldl_cons, ih, Nat.max_le, List.forall_mem_cons, and_assoc]

/-- `maxHeight` is the least bound on the height of commitments. -/
theorem maxHeight_le_iff {t : Table} {m : Nat} :
    t.maxHeight ≤ m ↔ ∀ {i a}, t.type? i = some a → a.height ≤ m := by
  rw [maxHeight, foldl_max_le_iff, List.forall_mem_map]
  exact ⟨fun h i a ha ↦ h.2 a (mem_committed.2 ⟨i, ha⟩),
    fun h ↦ ⟨Nat.zero_le m, fun a ha ↦ (mem_committed.1 ha).elim fun i hi ↦ h hi⟩⟩

/-- No commitment is higher than `maxHeight`. -/
theorem height_le_maxHeight {t : Table} {i : Nat} {a : Ty} (h : t.type? i = some a) :
    a.height ≤ t.maxHeight :=
  maxHeight_le_iff.1 (Nat.le_refl _) h

variable [RootChoice]

/-- What `unify` leaves behind, with a bound on the height of the commitments. -/
theorem becomes_unifyTo_of_valid {t : Table} (ht : t.Valid) {a b : Ty} (ha : t.Covers a)
    (hb : t.Covers b) (n : Nat) :
    Becomes (fun x ↦ t.Covers x ∧ x.height ≤ t.maxHeight + a.height + b.height) t
      (unifyTo n t a b).2 := by
  refine becomes_unifyTo (onParts_covers t _) (fun h ↦ h.1) n t a b ⟨ht, rfl, fun h ↦ ?_⟩ ?_ ?_
  · exact ⟨ht.covers h, by have := height_le_maxHeight h; omega⟩
  · exact ⟨ha, by omega⟩
  · exact ⟨hb, by omega⟩

/-- Lists of types that agree pair by pair leave behind steps as well. -/
theorem becomes_unifyAll_of_valid {t : Table} (ht : t.Valid) {as bs : List Ty}
    (has : ∀ a ∈ as, t.Covers a) (hbs : ∀ b ∈ bs, t.Covers b) (n : Nat) :
    Becomes t.Covers t (unifyAll (unifyTo n) t as bs).2 := by
  refine becomes_unifyAll (P := fun u ↦ u.Valid ∧ u.size = t.size) ?_ ?_ as bs t ⟨ht, rfl⟩ has hbs
  · rintro u v ⟨hu, hsize⟩ h
    exact ⟨h.valid hu fun a ha i hi ↦ hsize ▸ ha i hi, h.size_eq.trans hsize⟩
  · rintro u a b ⟨hu, hsize⟩ ha hb
    have hcovers : ∀ {x}, u.Covers x ↔ t.Covers x := by
      intro x
      rw [Covers, Covers, hsize]
    exact (becomes_unifyTo_of_valid hu (hcovers.2 ha) (hcovers.2 hb) n).mono
      fun x hx ↦ hcovers.1 hx.1

theorem valid_unifyTo {t : Table} (ht : t.Valid) {a b : Ty} (ha : t.Covers a) (hb : t.Covers b)
    (n : Nat) : (unifyTo n t a b).2.Valid :=
  (becomes_unifyTo_of_valid ht ha hb n).valid ht fun _ h ↦ h.1

theorem size_unifyTo {t : Table} (ht : t.Valid) {a b : Ty} (ha : t.Covers a) (hb : t.Covers b)
    (n : Nat) : (unifyTo n t a b).2.size = t.size :=
  (becomes_unifyTo_of_valid ht ha hb n).size_eq

/-! ### What success means -/

/-- A reading of tables as constraints on assignments, strict enough to respect the table, under
which a commitment and a merge say what they should. -/
structure Meaning (M : Table → (Nat → Ty) → Prop) : Prop where
  respects : ∀ {t s}, M t s → t.Respects s
  commit? : ∀ {t u : Table} {s i a}, i < t.size → t.commit? i a = some u →
    (M u s ↔ M t s ∧ s i = a.subst s)
  join? : ∀ {t u : Table} {s i j}, i < t.size → j < t.size → t.join? i j = some u →
    (M u s ↔ M t s ∧ s i = s j)

theorem meaning_respects : Meaning Respects :=
  ⟨id, respects_commit?, respects_join?⟩

theorem meaning_solution : Meaning Solution :=
  ⟨Solution.toRespects, solution_commit?, solution_join?⟩

theorem unifyAll_meaning {M : Table → (Nat → Ty) → Prop} {n : Nat}
    (ih : ∀ {t u : Table} {a b : Ty}, t.Valid → t.Covers a → t.Covers b →
      unifyTo n t a b = (true, u) → ∀ s, M u s ↔ M t s ∧ a.subst s = b.subst s) :
    ∀ {as bs : List Ty} {t u : Table}, t.Valid → (∀ a ∈ as, t.Covers a) → (∀ b ∈ bs, t.Covers b) →
      unifyAll (unifyTo n) t as bs = (true, u) →
        u.Valid ∧ u.size = t.size ∧
          ∀ s, M u s ↔ M t s ∧ as.map (Ty.subst s) = bs.map (Ty.subst s) := by
  intro as
  induction as with
  | nil =>
    intro bs t u ht _ _ h
    cases bs with
    | nil =>
      obtain rfl : t = u := congrArg Prod.snd h
      exact ⟨ht, rfl, fun s ↦ ⟨fun hs ↦ ⟨hs, rfl⟩, And.left⟩⟩
    | cons b bs => exact nomatch congrArg Prod.fst h
  | cons a as ihs =>
    intro bs t u ht has hbs h
    cases bs with
    | nil => exact nomatch congrArg Prod.fst h
    | cons b bs =>
      rw [unifyAll] at h
      have ha := has a List.mem_cons_self
      have hb := hbs b List.mem_cons_self
      have hvalid := valid_unifyTo ht ha hb n
      have hsize := size_unifyTo ht ha hb n
      cases hr : unifyTo n t a b with
      | mk ok v =>
        rw [hr] at h hvalid hsize
        cases ok
        · exact nomatch congrArg Prod.fst h
        · have hcovers : ∀ {x}, t.Covers x → v.Covers x := fun hx i hi ↦ hsize ▸ hx i hi
          obtain ⟨hu, husize, hM⟩ := ihs hvalid
            (fun x hx ↦ hcovers (has x (List.mem_cons_of_mem _ hx)))
            (fun x hx ↦ hcovers (hbs x (List.mem_cons_of_mem _ hx))) h
          refine ⟨hu, husize.trans hsize, fun s ↦ ?_⟩
          rw [hM, ih ht ha hb hr, List.map_cons, List.map_cons, List.cons.injEq, and_assoc]

/-- **If unification succeeds, it adds to what the table says exactly that the two types are
equal.** -/
theorem unifyTo_meaning {M : Table → (Nat → Ty) → Prop} (hM : Meaning M) (n : Nat) :
    ∀ {t u : Table} {a b : Ty}, t.Valid → t.Covers a → t.Covers b →
      unifyTo n t a b = (true, u) → ∀ s, M u s ↔ M t s ∧ a.subst s = b.subst s := by
  induction n with
  | zero => exact fun _ _ _ h ↦ nomatch congrArg Prod.fst h
  | succ n ih =>
    intro t u a b ht ha hb h s
    -- both types may be replaced by their heads
    suffices hheads : M u s ↔ M t s ∧ (t.head a).subst s = (t.head b).subst s by
      rw [hheads]
      refine and_congr_right fun hs ↦ ?_
      rw [(hM.respects hs).head ht ha, (hM.respects hs).head ht hb]
    have hca := covers_head ht ha
    have hcb := covers_head ht hb
    have hmeet := meeting_unifyTo n t a b
    generalize hr : unifyTo (n + 1) t a b = r at h hmeet
    cases hmeet with
    | @join i j hi hj =>
      rw [hi, hj]
      exact hM.join? (lt_size_of_head ht ha hi) (lt_size_of_head ht hb hj)
        (eq_some_of_orElseSame h)
    | @commitLeft b' i hi hb' hne =>
      rw [hi, hb']
      exact hM.commit? (lt_size_of_head ht ha hi) (eq_some_of_orElseSame h)
    | @commitRight a' j ha' hj hne =>
      rw [hj, ha', eq_comm (a := a'.subst s)]
      exact hM.commit? (lt_size_of_head ht hb hj) (eq_some_of_orElseSame h)
    | @pointer x y c hx hy =>
      rw [hx] at hca ⊢
      rw [hy] at hcb ⊢
      rw [ih (a := x) (b := y) ht hca hcb h, Ty.subst_pointer, Ty.subst_pointer, Ty.pointer.injEq]
      simp only [true_and]
    | func hx hy _ hps =>
      rw [hx] at hca ⊢
      rw [hy] at hcb ⊢
      obtain ⟨hv, hsize, hall⟩ := unifyAll_meaning ih ht
        (covers_func.1 hca).1 (covers_func.1 hcb).1 hps
      have hresult := ih hv (fun i hi ↦ hsize ▸ (covers_func.1 hca).2 i hi)
        (fun i hi ↦ hsize ▸ (covers_func.1 hcb).2 i hi) h
      rw [hresult, hall, Ty.subst_func, Ty.subst_func, Ty.func.injEq, and_assoc]
    | params => cases congrArg Prod.fst h
    | @other a' b' ha' hb' =>
      obtain rfl : t = u := congrArg Prod.snd h
      have heq : a' = b' := of_decide_eq_true (congrArg Prod.fst h)
      rw [ha', hb', heq]
      exact ⟨fun hs ↦ ⟨hs, rfl⟩, And.left⟩

/-! ### Every run ends -/

/-- What is shown of a run that stays free of circles: it is a run of the unbounded recursion, and
if it fails, the two types are equal under no solution of the table at its start. -/
structure Complete (t : Table) (a b : Ty) (r : Bool × Table) : Prop where
  run : UnifiesTo t a b r
  no_solution : r.1 = false → ∀ s, t.Solution s → a.subst s ≠ b.subst s

/-- The same for lists of types. -/
structure CompleteAll (t : Table) (as bs : List Ty) (r : Bool × Table) : Prop where
  run : UnifiesAllTo t as bs r
  no_solution : r.1 = false → ∀ s, t.Solution s → as.map (Ty.subst s) ≠ bs.map (Ty.subst s)

theorem completeAll_unifyAll {n : Nat} {s₀ : Nat → Ty}
    (ih : ∀ {t : Table} {a b : Ty}, t.Valid → t.Covers a → t.Covers b →
      (unifyTo n t a b).2.Acyclic → (unifyTo n t a b).2.Respects s₀ → (a.subst s₀).height ≤ n →
        Complete t a b (unifyTo n t a b)) :
    ∀ {as bs : List Ty} {t : Table}, t.Valid → (∀ a ∈ as, t.Covers a) → (∀ b ∈ bs, t.Covers b) →
      as.length = bs.length → (unifyAll (unifyTo n) t as bs).2.Acyclic →
        (unifyAll (unifyTo n) t as bs).2.Respects s₀ → (∀ a ∈ as, (a.subst s₀).height ≤ n) →
          CompleteAll t as bs (unifyAll (unifyTo n) t as bs) := by
  intro as
  induction as with
  | nil =>
    intro bs t _ _ _ hlen _ _ _
    obtain rfl := List.length_eq_zero_iff.1 hlen.symm
    exact ⟨.nil, fun h ↦ nomatch h⟩
  | cons a as ihs =>
    intro bs t ht has hbs hlen hacyclic hs₀ hheight
    cases bs with
    | nil => exact nomatch hlen
    | cons b bs =>
      have ha := has a List.mem_cons_self
      have hb := hbs b List.mem_cons_self
      have hstep := ih ht ha hb (t := t) (a := a) (b := b)
      have hvalid := valid_unifyTo ht ha hb n
      have hsize := size_unifyTo ht ha hb n
      have hmeaning := unifyTo_meaning meaning_solution n ht ha hb (u := (unifyTo n t a b).2)
      rw [unifyAll] at hacyclic hs₀ ⊢
      cases hr : unifyTo n t a b with
      | mk ok v =>
        rw [hr] at hacyclic hs₀ hstep hvalid hsize hmeaning
        cases ok
        · have hcomplete := hstep hacyclic hs₀ (hheight a List.mem_cons_self)
          refine ⟨.stop hcomplete.run, fun _ s hs heq ↦ ?_⟩
          exact hcomplete.no_solution rfl s hs (List.cons.inj heq).1
        · have hcovers : ∀ {x}, t.Covers x → v.Covers x := fun hx i hi ↦ hsize ▸ hx i hi
          have hcas : ∀ x ∈ as, v.Covers x := fun x hx ↦
            hcovers (has x (List.mem_cons_of_mem _ hx))
          have hcbs : ∀ x ∈ bs, v.Covers x := fun x hx ↦
            hcovers (hbs x (List.mem_cons_of_mem _ hx))
          have hrest := ihs hvalid hcas hcbs (Nat.succ.inj hlen) hacyclic hs₀
            fun x hx ↦ hheight x (List.mem_cons_of_mem _ hx)
          -- the table at the end has no circle and is respected, so the one in between as well
          have hbecomes := becomes_unifyAll_of_valid hvalid hcas hcbs n
          have hcomplete := hstep (hbecomes.acyclic hacyclic) (hbecomes.respects hs₀)
            (hheight a List.mem_cons_self)
          refine ⟨.cons hcomplete.run hrest.run, fun hfalse s hs heq ↦ ?_⟩
          rw [List.map_cons, List.map_cons, List.cons.injEq] at heq
          exact hrest.no_solution hfalse s ((hmeaning rfl s).2 ⟨hs, heq.1⟩) heq.2

/-- It is enough to look at the **heads** of two types: the types are equal under a solution exactly
if their heads are. -/
theorem complete_of_heads {t : Table} {a b : Ty} {r : Bool × Table} (ht : t.Valid)
    (ha : t.Covers a) (hb : t.Covers b)
    (h : UnifiesTo t a b r ∧
      (r.1 = false → ∀ s, t.Solution s → (t.head a).subst s ≠ (t.head b).subst s)) :
    Complete t a b r := by
  refine ⟨h.1, fun hfalse s hs ↦ ?_⟩
  rw [← hs.toRespects.head ht ha, ← hs.toRespects.head ht hb]
  exact h.2 hfalse s hs

/-- Two **function types** whose parameters agree: first the parameters and then the results, which
start from the table that the parameters leave behind. -/
theorem complete_parts {n : Nat} {s₀ : Nat → Ty}
    (ih : ∀ {t : Table} {a b : Ty}, t.Valid → t.Covers a → t.Covers b →
      (unifyTo n t a b).2.Acyclic → (unifyTo n t a b).2.Respects s₀ → (a.subst s₀).height ≤ n →
        Complete t a b (unifyTo n t a b))
    {t v : Table} {ps qs : List Ty} {x y : Ty} (ht : t.Valid) (ha : t.Covers (.func ps x))
    (hb : t.Covers (.func qs y)) (hlen : ps.length = qs.length)
    (hps : unifyAll (unifyTo n) t ps qs = (true, v)) (hacyclic : (unifyTo n v x y).2.Acyclic)
    (hs₀ : (unifyTo n v x y).2.Respects s₀)
    (hheight : ((Ty.func ps x).subst s₀).height ≤ n + 1) :
    CompleteAll t ps qs (true, v) ∧ Complete v x y (unifyTo n v x y) ∧
      ∀ s, v.Solution s ↔ t.Solution s ∧ ps.map (Ty.subst s) = qs.map (Ty.subst s) := by
  obtain ⟨hcps, hcx⟩ := covers_func.1 ha
  obtain ⟨hcqs, hcy⟩ := covers_func.1 hb
  obtain ⟨hps₀, hx₀⟩ := Ty.height_parts_le hheight
  obtain ⟨hv, hsize, hall⟩ :=
    unifyAll_meaning (unifyTo_meaning meaning_solution n) ht hcps hcqs hps
  have hcx : v.Covers x := fun i hi ↦ hsize ▸ hcx i hi
  have hcy : v.Covers y := fun i hi ↦ hsize ▸ hcy i hi
  have hbetween := becomes_unifyTo_of_valid hv hcx hcy n
  have hparams := completeAll_unifyAll ih ht hcps hcqs hlen
    (by rw [hps]; exact hbetween.acyclic hacyclic)
    (by rw [hps]; exact hbetween.respects hs₀) hps₀
  rw [hps] at hparams
  exact ⟨hparams, ih hv hcx hcy hacyclic hs₀ hx₀, hall⟩

/-- **A run that leaves no circle behind ends**, and if it fails, the two types cannot be made
equal. The bound has to be as great as the height of the first type under some assignment that
respects the table at the end; with every constructor that is taken off, both fall by one. -/
theorem complete_unifyTo {s₀ : Nat → Ty} (n : Nat) :
    ∀ {t : Table} {a b : Ty}, t.Valid → t.Covers a → t.Covers b →
      (unifyTo n t a b).2.Acyclic → (unifyTo n t a b).2.Respects s₀ → (a.subst s₀).height ≤ n →
        Complete t a b (unifyTo n t a b) := by
  induction n with
  | zero => exact fun _ _ _ _ _ h ↦ absurd (Ty.height_pos _) (Nat.not_lt.2 h)
  | succ n ih =>
    intro t a b ht ha hb hacyclic hs₀ hheight
    have hbecomes := becomes_unifyTo_of_valid ht ha hb (n + 1)
    have hacyclic₀ : t.Acyclic := hbecomes.acyclic hacyclic
    rw [← (hbecomes.respects hs₀).head ht ha] at hheight
    have hrun := headsTo_head ht hacyclic₀ ha
    have hrun' := headsTo_head ht hacyclic₀ hb
    have hopen {x i} (hx : t.Covers x) (hi : t.head x = .hole i) : t.type? i = none :=
      type?_of_head ht hacyclic₀ hx hi
    have hca := covers_head ht ha
    have hcb := covers_head ht hb
    have hmeet := meeting_unifyTo n t a b
    generalize unifyTo (n + 1) t a b = r at hacyclic hs₀ hmeet ⊢
    refine complete_of_heads ht ha hb ?_
    cases hmeet with
    | @join i j hi hj =>
      rw [hi] at hrun ⊢
      rw [hj] at hrun' ⊢
      refine ⟨.join hrun hrun', fun hfalse s hs ↦ ?_⟩
      exact no_solution_of_join? hs (lt_size_of_head ht ha hi) (lt_size_of_head ht hb hj)
        (hopen ha hi) (hopen hb hj) (eq_none_of_orElseSame hfalse)
    | @commitLeft b' i hi hb' hne =>
      rw [hi] at hrun ⊢
      rw [hb'] at hrun' ⊢
      refine ⟨.commitLeft hrun hrun' hne, fun hfalse s hs ↦ ?_⟩
      exact no_solution_of_commit? hs (lt_size_of_head ht ha hi) (hopen ha hi) hne
        (eq_none_of_orElseSame hfalse)
    | @commitRight a' j ha' hj hne =>
      rw [ha'] at hrun ⊢
      rw [hj] at hrun' ⊢
      refine ⟨.commitRight hrun hrun' hne, fun hfalse s hs ↦ ?_⟩
      exact (no_solution_of_commit? hs (lt_size_of_head ht hb hj) (hopen hb hj) hne
        (eq_none_of_orElseSame hfalse)).symm
    | @pointer x y c hx hy =>
      rw [hx] at hrun hca hheight ⊢
      rw [hy] at hrun' hcb ⊢
      have hpart := ih (a := x) (b := y) ht hca hcb hacyclic hs₀ (Nat.le_of_succ_le_succ hheight)
      refine ⟨.pointer hrun hrun' hpart.run, fun hfalse s hs heq ↦ ?_⟩
      exact hpart.no_solution hfalse s hs (Ty.pointer.inj heq).2
    | @func v x y ps qs hx hy hlen hps =>
      rw [hx] at hrun hca hheight ⊢
      rw [hy] at hrun' hcb ⊢
      obtain ⟨hparams, hresult, hall⟩ :=
        complete_parts ih ht hca hcb hlen hps hacyclic hs₀ hheight
      refine ⟨.func hrun hrun' hlen hparams.run hresult.run, fun hfalse s hs heq ↦ ?_⟩
      rw [Ty.subst_func, Ty.subst_func, Ty.func.injEq] at heq
      exact hresult.no_solution hfalse s ((hall s).2 ⟨hs, heq.1⟩) heq.2
    | @params v x y ps qs hx hy hlen hps =>
      rw [hx] at hrun hca hheight ⊢
      rw [hy] at hrun' hcb ⊢
      have hparams := completeAll_unifyAll ih ht (covers_func.1 hca).1 (covers_func.1 hcb).1 hlen
        (by rw [hps]; exact hacyclic) (by rw [hps]; exact hs₀) (Ty.height_parts_le hheight).1
      rw [hps] at hparams
      refine ⟨.params hrun hrun' hlen hparams.run, fun _ s hs heq ↦ ?_⟩
      rw [Ty.subst_func, Ty.subst_func, Ty.func.injEq] at heq
      exact hparams.no_solution rfl s hs heq.1
    | @other a' b' ha' hb' hne hne' hshape =>
      rw [ha'] at hrun ⊢
      rw [hb'] at hrun' ⊢
      refine ⟨.other hrun hrun' hne hne' hshape, fun hfalse s _ heq ↦ ?_⟩
      exact of_decide_eq_false hfalse (Ty.eq_of_subst_eq hne hne' hshape heq)

/-! ### The bound -/

omit [RootChoice] in
/-- Following at most `n` commitments, each to a type of height at most `m`, gives a type that is
not much higher than `n * m`. -/
theorem height_image_le {t : Table} {m : Nat} (h : ∀ {i a}, t.type? i = some a → a.height ≤ m)
    (n i : Nat) : (t.image n i).height ≤ n * m + 1 := by
  induction n generalizing i with
  | zero => exact Nat.le_of_eq (by rw [Nat.zero_mul]; rfl)
  | succ n ih =>
    cases htype : t.type? i with
    | none =>
      rw [image_of_none htype]
      exact Nat.succ_le_succ (Nat.zero_le _)
    | some a =>
      rw [image_succ_of_some htype]
      have hle := Ty.height_subst_le (a := a) fun j _ ↦ ih j
      have hm := h htype
      rw [Nat.succ_mul]
      omega

/-- **The bound of `unify` is deep enough** for every run that leaves no circle behind. -/
theorem height_expand_le_unifyDepth {t : Table} (ht : t.Valid) {a b : Ty} (ha : t.Covers a)
    (hb : t.Covers b) (n : Nat) :
    ((unifyTo n t a b).2.expand a).height ≤ t.unifyDepth a b := by
  have hbecomes := becomes_unifyTo_of_valid ht ha hb n
  have hcommits : ∀ {i x}, (unifyTo n t a b).2.type? i = some x →
      x.height ≤ t.maxHeight + a.height + b.height := by
    intro i x hx
    rcases hbecomes.type?_cases hx with hx | hx
    · have := height_le_maxHeight hx
      omega
    · exact hx.2
  have hle := Ty.height_subst_le (a := a) fun j _ ↦
    height_image_le hcommits (unifyTo n t a b).2.size j
  rw [hbecomes.size_eq] at hle
  rw [unifyDepth, expand, hbecomes.size_eq, Nat.succ_mul, Nat.mul_succ]
  omega

end Table

end FrontEnd
