import FrontEnd.Proofs.Table.Chains

/-!
# What a cast does

An explicit cast is decided by three rules, one for each shape of the type that is cast. Between
concrete types a cast only answers, and the answer is the relation `Ty.castable`: what lies behind a
pointer has to be the same, `const` included, and its own `const` may be added but not lost. The
type of a literal that is still open is **decided** by the cast if it can become the type it is cast
to; otherwise a number is converted, and at most limited to integers (`CastsHole`). Pointers that
lead to an open hole in the end are treated like other pointers, so a cast makes what they point to
agree with what is asked for.

Whatever is left behind concerns one class, that of the open hole (`Revises`).
-/

namespace FrontEnd

namespace Ty

/-- A type behind pointers, the outermost first. -/
def pointers (cs : List Bool) (a : Ty) : Ty :=
  cs.foldr .pointer a

@[simp] theorem pointers_nil (a : Ty) : pointers [] a = a := rfl

@[simp] theorem pointers_cons (c : Bool) (cs : List Bool) (a : Ty) :
    pointers (c :: cs) a = .pointer c (pointers cs a) := rfl

theorem length_lt_height_pointers (cs : List Bool) (a : Ty) :
    cs.length < (pointers cs a).height := by
  induction cs with
  | nil => exact a.height_pos
  | cons c cs ih => exact Nat.succ_lt_succ ih

theorem pointers_injective (cs : List Bool) {a b : Ty} (h : pointers cs a = pointers cs b) :
    a = b := by
  induction cs with
  | nil => exact h
  | cons c cs ih => exact ih (pointer.inj h).2

theorem ne_of_isNumeric {a : Ty} (h : a.isNumeric = true) :
    a.isBool = false ∧ a.isPointer = false := by
  cases a with
  | scalar s =>
    cases s with
    | bool => cases h
    | _ => exact ⟨rfl, rfl⟩
  | _ => cases h

theorem pointsAlike_iff {src dest : Ty} : src.pointsAlike dest = true ↔
    ∃ c d a, src = .pointer c a ∧ dest = .pointer d a ∧ ¬ (c = true ∧ d = false) := by
  constructor
  · intro h
    cases src with
    | pointer c a =>
      cases dest with
      | pointer d b =>
        obtain ⟨hab, hcd⟩ := Bool.and_eq_true_iff.1 h
        obtain rfl := of_decide_eq_true hab
        refine ⟨c, d, a, rfl, rfl, ?_⟩
        rintro ⟨rfl, rfl⟩
        cases hcd
      | _ => cases h
    | _ => cases h
  · rintro ⟨c, d, a, rfl, rfl, h⟩
    rw [pointsAlike, decide_eq_true rfl, Bool.true_and]
    cases c <;> cases d <;> simp_all

theorem castable_iff {src dest : Ty} : src.castable dest = true ↔
    (src.isNumeric = true ∧ dest.isNumeric = true) ∨
    (src.isInt = true ∧ dest.isBool = true ∨ src.isBool = true ∧ dest.isInt = true) ∨
    (∃ c d a, src = .pointer c a ∧ dest = .pointer d a ∧ ¬ (c = true ∧ d = false)) ∨
    src = dest := by
  rw [← pointsAlike_iff, castable]
  simp only [Bool.or_eq_true, Bool.and_eq_true, decide_eq_true_eq]
  tauto

theorem castable_pointer_iff {c d : Bool} {a b : Ty} :
    (pointer c a).castable (pointer d b) = true ↔ a = b ∧ (c = true → d = true) := by
  rw [castable_iff]
  constructor
  · rintro (⟨h, -⟩ | (⟨h, -⟩ | ⟨h, -⟩) | ⟨c', d', a', hsrc, hdest, h⟩ | h)
    · cases h
    · cases h
    · cases h
    · obtain ⟨rfl, rfl⟩ := pointer.inj hsrc
      obtain ⟨rfl, rfl⟩ := pointer.inj hdest
      exact ⟨rfl, fun hc ↦ eq_true_of_ne_false fun hd ↦ h ⟨hc, hd⟩⟩
    · obtain ⟨rfl, rfl⟩ := pointer.inj h
      exact ⟨rfl, id⟩
  · rintro ⟨rfl, h⟩
    exact .inr (.inr (.inl ⟨c, d, a, rfl, rfl, fun hcd ↦ by simp [h hcd.1] at hcd⟩))

end Ty

namespace Table

variable {t u : Table} {i j : Nat} {a b dest src : Ty}

/-! ### One class -/

/-- **Something else is known of one class**, and the table is the same otherwise. -/
structure Revises (t : Table) (i : Nat) (c : HoleClass) (u : Table) : Prop where
  size_eq : u.size = t.size
  find_eq : ∀ j, u.find j = t.find j
  /-- `c` is known of the class of the hole. -/
  classOf_of_mem : ∀ j, t.find j = t.find i → u.classOf j = c
  /-- Of other classes is known what was known before. -/
  classOf_of_not_mem : ∀ j, t.find j ≠ t.find i → u.classOf j = t.classOf j

theorem revises_putClass (hi : i < t.size) (c : HoleClass) : t.Revises i c (t.putClass i c) where
  size_eq := rfl
  find_eq := find_putClass t i c
  classOf_of_mem _ hj := (fuses_putClass hi c).classOf_of_mem (.inl hj)
  classOf_of_not_mem _ hj := (fuses_putClass hi c).classOf_of_not_mem hj hj

theorem Revises.of_find {c : HoleClass} (h : t.Revises (t.find i) c u) : t.Revises i c u where
  size_eq := h.size_eq
  find_eq := h.find_eq
  classOf_of_mem j hj := h.classOf_of_mem j (hj.trans (find_find t i).symm)
  classOf_of_not_mem j hj := h.classOf_of_not_mem j fun hj' ↦ hj (hj'.trans (find_find t i))

/-! ### Concrete types -/

section Unify

variable [RootChoice]

omit [RootChoice] in
/-- Lists of the same length agree pair by pair exactly if they are the same list. -/
theorem unifyAll_of_eq {step : Table → Ty → Ty → Bool × Table} {ps qs : List Ty}
    (hlen : ps.length = qs.length)
    (hstep : ∀ p ∈ ps, ∀ q ∈ qs, step t p q = (decide (p = q), t)) :
    unifyAll step t ps qs = (decide (ps = qs), t) := by
  induction ps generalizing qs with
  | nil =>
    obtain rfl := List.length_eq_zero_iff.1 hlen.symm
    rfl
  | cons p ps ih =>
    obtain ⟨q, qs, rfl⟩ := List.exists_cons_of_length_eq_add_one hlen.symm
    have hmore := ih (Nat.succ.inj hlen) fun x hx y hy ↦
      hstep x (List.mem_cons_of_mem _ hx) y (List.mem_cons_of_mem _ hy)
    rw [unifyAll, hstep p List.mem_cons_self q List.mem_cons_self]
    by_cases hpq : p = q
    · subst hpq
      simp [hmore]
    · simp [hpq]

theorem unifyTo_eq_of_isConcrete {n : Nat} (hn : a.height ≤ n) (ha : a.isConcrete = true)
    (hb : b.isConcrete = true) : unifyTo n t a b = (decide (a = b), t) := by
  induction n generalizing a b with
  | zero => exact absurd hn (Nat.not_le.2 a.height_pos)
  | succ n ih =>
    have hne : ∀ i, a ≠ .hole i := by
      rintro i rfl
      cases ha
    have hne' : ∀ i, b ≠ .hole i := by
      rintro i rfl
      cases hb
    have hmeet := meeting_unifyTo n t a b
    generalize unifyTo (n + 1) t a b = r at hmeet ⊢
    cases hmeet with
    | join hi _ => exact absurd (head_of_isConcrete ha ▸ hi) (hne _)
    | commitLeft hi _ _ => exact absurd (head_of_isConcrete ha ▸ hi) (hne _)
    | commitRight _ hj _ => exact absurd (head_of_isConcrete hb ▸ hj) (hne' _)
    | @pointer x y c hx hy =>
      obtain rfl := (head_of_isConcrete ha).symm.trans hx
      obtain rfl := (head_of_isConcrete hb).symm.trans hy
      have helem : unifyTo n t x y = (decide (x = y), t) := ih (Nat.le_of_succ_le_succ hn) ha hb
      rw [helem]
      simp
    | func hx hy hlen hps =>
      obtain rfl := (head_of_isConcrete ha).symm.trans hx
      obtain rfl := (head_of_isConcrete hb).symm.trans hy
      obtain ⟨hparams, hresult⟩ := Ty.isConcrete_func.1 ha
      obtain ⟨hparams', hresult'⟩ := Ty.isConcrete_func.1 hb
      rw [unifyAll_of_eq hlen fun p hp q hq ↦ ih (Nat.le_of_lt_succ (Nat.lt_of_lt_of_le
        (Ty.height_param_lt hp) hn)) (hparams p hp) (hparams' q hq)] at hps
      obtain ⟨hpq, rfl⟩ := Prod.mk.inj hps
      rw [ih (Nat.le_of_lt_succ (Nat.lt_of_lt_of_le (Ty.height_result_lt _ _) hn)) hresult
        hresult', of_decide_eq_true hpq]
      simp
    | params hx hy hlen hps =>
      obtain rfl := (head_of_isConcrete ha).symm.trans hx
      obtain rfl := (head_of_isConcrete hb).symm.trans hy
      rw [unifyAll_of_eq hlen fun p hp q hq ↦ ih (Nat.le_of_lt_succ (Nat.lt_of_lt_of_le
        (Ty.height_param_lt hp) hn)) ((Ty.isConcrete_func.1 ha).1 p hp)
        ((Ty.isConcrete_func.1 hb).1 q hq)] at hps
      obtain ⟨hpq, rfl⟩ := Prod.mk.inj hps
      simp [of_decide_eq_false hpq]
    | other hx hy =>
      rw [← hx, ← hy, head_of_isConcrete ha, head_of_isConcrete hb]

omit [RootChoice] in
theorem height_le_unifyDepth (t : Table) (a b : Ty) : a.height ≤ t.unifyDepth a b := by
  have hle : a.height ≤ t.maxHeight + a.height + b.height + 1 := by omega
  exact hle.trans (Nat.le_mul_of_pos_left _ (Nat.succ_pos _))

/-- **Concrete types agree** exactly if they are the same, whatever the table knows. -/
theorem unify_of_isConcrete (t : Table) (ha : a.isConcrete = true) (hb : b.isConcrete = true) :
    t.unify a b = (decide (a = b), t) :=
  unifyTo_eq_of_isConcrete (height_le_unifyDepth t a b) ha hb

/-- **Pointers** to what can be made to agree, as long as `const` is not lost. -/
theorem cast_of_pointers {c d : Bool} (hsrc : t.head src = .pointer c a)
    (hdest : t.head dest = .pointer d b) :
    t.cast dest src = if c = true ∧ d = false then (false, t) else t.unify a b := by
  rw [cast_of_known (by simp [hsrc]), hsrc, hdest, castKnown]
  cases c <;> cases d <;> rfl

theorem castKnown_of_isConcrete (t : Table) (hdest : dest.isConcrete = true)
    (hsrc : src.isConcrete = true) : t.castKnown dest src = (src.castable dest, t) := by
  unfold castKnown Ty.castable
  split_ifs with hnumeric hclass
  · rw [hnumeric, Bool.true_or, Bool.true_or, Bool.true_or, Bool.true_or]
  · rw [Bool.or_assoc (src.isNumeric && dest.isNumeric), hclass, Bool.or_true, Bool.true_or,
      Bool.true_or]
  · rw [Bool.or_assoc (src.isNumeric && dest.isNumeric), eq_false_of_ne_true hnumeric,
      eq_false_of_ne_true hclass, Bool.or_false, Bool.false_or]
    split
    · rename_i c a d b
      have helem : t.unify a b = (decide (a = b), t) := unify_of_isConcrete t hsrc hdest
      rw [helem, Ty.pointsAlike]
      cases c <;> cases d <;> by_cases hab : a = b <;> simp [hab]
    · rename_i hshape
      have hpoints : src.pointsAlike dest = false := by
        refine eq_false_of_ne_true fun h ↦ ?_
        obtain ⟨c, d, a, rfl, rfl, -⟩ := Ty.pointsAlike_iff.1 h
        exact hshape c a d a rfl rfl
      rw [unify_of_isConcrete t hdest hsrc, hpoints, Bool.false_or]
      simp only [eq_comm]

/-- **Between concrete types** a cast answers and changes nothing. -/
theorem cast_of_isConcrete (t : Table) (hdest : dest.isConcrete = true)
    (hsrc : src.isConcrete = true) : t.cast dest src = (src.castable dest, t) := by
  have hne : ∀ i, t.head src ≠ .hole i := by
    intro i hi
    rw [head_of_isConcrete hsrc] at hi
    rw [hi] at hsrc
    cases hsrc
  rw [cast_of_known hne, head_of_isConcrete hdest, head_of_isConcrete hsrc,
    castKnown_of_isConcrete t hdest hsrc]

/-! ### Open holes -/

omit [RootChoice] in
theorem orElseSame_commit? (hi : i < t.size) (hnone : t.type? i = none)
    (h : (t.kind i).admits a = true) :
    ∃ u, t.orElseSame (t.commit? i a) = (true, u) ∧ t.Revises i ⟨t.kind i, some a⟩ u := by
  rw [commit?_eq_some_iff.2 ⟨hnone, h, rfl⟩]
  exact ⟨_, rfl, revises_putClass hi _⟩

end Unify

/-- **What a cast makes of an open hole.** -/
inductive CastsHole (t : Table) (dest : Ty) (i : Nat) : Bool × Table → Prop
  /-- The hole takes the type. -/
  | decided {u : Table} (h : (t.kind i).admits dest = true)
    (hu : t.Revises i ⟨t.kind i, some dest⟩ u) : CastsHole t dest i (true, u)
  /-- A number is converted and stays open. -/
  | converted (h : (t.kind i).admits dest = false) (hdest : dest.isNumeric = true) :
    CastsHole t dest i (true, t)
  /-- An integer is asked for. -/
  | limited {u : Table} (h : (t.kind i).admits dest = false)
    (hkind : t.kind i = .number ∨ t.kind i = .int)
    (hdest : dest.isBool = true ∨ dest.isPointer = true) (hu : t.Revises i ⟨.int, none⟩ u) :
    CastsHole t dest i (true, u)
  /-- There is nothing the hole can become. -/
  | refused (h : (t.kind i).admits dest = false) (hnumeric : dest.isNumeric = false)
    (hother : (t.kind i = .number ∨ t.kind i = .int) →
      dest.isBool = false ∧ dest.isPointer = false) : CastsHole t dest i (false, t)

theorem castsHole_castHole (hi : i < t.size) (hnone : t.type? i = none) (dest : Ty) :
    CastsHole t dest i (t.castHole dest i) := by
  have hnull (hkind : t.kind i = .null) : (t.kind i).admits dest = true := by
    rw [hkind]
    rfl
  have haccepts : t.accepts i dest = (t.kind i).admits dest := by rw [accepts, hnone]
  rw [castHole, haccepts]
  by_cases hadmits : (t.kind i).admits dest = true
  · rw [hadmits, Bool.or_true, if_pos rfl]
    obtain ⟨u, heq, hu⟩ := orElseSame_commit? hi hnone hadmits
    rw [heq]
    exact .decided hadmits hu
  · have hrefuses := eq_false_of_ne_true hadmits
    rw [if_neg (by simpa [hrefuses] using mt hnull hadmits)]
    by_cases hnumeric : dest.isNumeric = true
    · rw [if_pos hnumeric]
      exact .converted hrefuses hnumeric
    · rw [if_neg hnumeric]
      by_cases hother : (dest.isBool || dest.isPointer) = true
      · rw [if_pos hother]
        cases hlimit : t.limit? i .int with
        | none =>
          refine .refused hrefuses (eq_false_of_ne_true hnumeric) fun hkind ↦ ?_
          have hmeet : (t.kind i).meet? .int = some .int := by
            rcases hkind with hkind | hkind <;> rw [hkind] <;> rfl
          have hsome := limit?_eq_some_iff.2 ⟨_, hmeet, by rw [hnone]; rfl, rfl⟩
          cases hlimit.symm.trans hsome
        | some u =>
          obtain ⟨l, hmeet, -, rfl⟩ := limit?_eq_some_iff.1 hlimit
          have hkind : (t.kind i = .number ∨ t.kind i = .int) ∧ l = .int := by
            have hne : t.kind i ≠ .null := mt hnull hadmits
            revert hmeet hne
            cases t.kind i with
            | null => exact fun _ hne ↦ absurd rfl hne
            | number => exact fun h _ ↦ ⟨.inl rfl, (Option.some.inj h).symm⟩
            | int => exact fun h _ ↦ ⟨.inr rfl, (Option.some.inj h).symm⟩
            | float => exact fun h _ ↦ by cases h
          rw [hkind.2, hnone]
          exact .limited hrefuses hkind.1 (Bool.or_eq_true_iff.1 hother) (revises_putClass hi _)
      · rw [if_neg hother]
        refine .refused hrefuses (eq_false_of_ne_true hnumeric) fun _ ↦ ?_
        simpa using hother

theorem castsHole_cast [RootChoice] (hdest : dest.isConcrete = true) (hi : i < t.size)
    (hnone : t.type? i = none) : CastsHole t dest i (t.cast dest (.hole i)) := by
  have hcasts := castsHole_castHole (find_lt hi) ((type?_find t i).trans hnone) dest
  rw [cast_of_hole (head_of_none hnone), head_of_isConcrete hdest]
  generalize t.castHole dest (t.find i) = r at hcasts ⊢
  -- everything that is said of the representative goes for the hole
  cases hcasts with
  | decided h hu =>
    rw [kind_find] at h hu
    exact .decided h hu.of_find
  | converted h hnumeric => exact .converted (kind_find t i ▸ h) hnumeric
  | limited h hkind hother hu =>
    rw [kind_find] at h hkind
    exact .limited h hkind hother hu.of_find
  | refused h hnumeric hother =>
    rw [kind_find] at h hother
    exact .refused h hnumeric hother

namespace CastsHole

variable {r : Bool × Table}

theorem fst_iff (h : CastsHole t dest i r) : r.1 = true ↔
    t.kind i = .null ∨ dest.isNumeric = true ∨
      (t.kind i = .number ∨ t.kind i = .int) ∧ (dest.isBool = true ∨ dest.isPointer = true) := by
  cases h with
  | decided hadmits _ =>
    refine ⟨fun _ ↦ ?_, fun _ ↦ rfl⟩
    by_cases hnull : t.kind i = .null
    · exact .inl hnull
    · exact .inr (.inl (HoleKind.isNumeric_of_admits hnull hadmits))
  | converted _ hnumeric => exact ⟨fun _ ↦ .inr (.inl hnumeric), fun _ ↦ rfl⟩
  | limited _ hkind hother _ => exact ⟨fun _ ↦ .inr (.inr ⟨hkind, hother⟩), fun _ ↦ rfl⟩
  | refused hadmits hnumeric hother =>
    refine ⟨fun h ↦ (by cases h), ?_⟩
    rintro (hnull | h | ⟨hkind, h⟩)
    · rw [hnull] at hadmits
      cases hadmits
    · exact absurd (hnumeric.symm.trans h) (by decide)
    · obtain ⟨hbool, hpointer⟩ := hother hkind
      simp [hbool, hpointer] at h

/-- What a cast that is allowed leaves behind. -/
theorem snd_of_true (h : CastsHole t dest i r) (hr : r.1 = true) :
    (t.kind i = .null ∨ (t.kind i).admits dest = true →
      t.Revises i ⟨t.kind i, some dest⟩ r.2) ∧
    (¬ (t.kind i = .null ∨ (t.kind i).admits dest = true) →
      (dest.isBool = true ∨ dest.isPointer = true → t.Revises i ⟨.int, none⟩ r.2) ∧
      (¬ (dest.isBool = true ∨ dest.isPointer = true) → dest.isNumeric = true ∧ r.2 = t)) := by
  have hadmits_of (h : t.kind i = .null ∨ (t.kind i).admits dest = true) :
      (t.kind i).admits dest = true := by
    rcases h with hnull | h
    · rw [hnull]
      rfl
    · exact h
  cases h with
  | decided hadmits hu => exact ⟨fun _ ↦ hu, fun h ↦ absurd (.inr hadmits) h⟩
  | converted hadmits hnumeric =>
    refine ⟨fun h ↦ absurd (hadmits.symm.trans (hadmits_of h)) (by decide), fun _ ↦
      ⟨fun h ↦ ?_, fun _ ↦ ⟨hnumeric, rfl⟩⟩⟩
    obtain ⟨hbool, hpointer⟩ := Ty.ne_of_isNumeric hnumeric
    simp [hbool, hpointer] at h
  | limited hadmits _ hother hu =>
    exact ⟨fun h ↦ absurd (hadmits.symm.trans (hadmits_of h)) (by decide), fun _ ↦
      ⟨fun _ ↦ hu, fun h ↦ absurd hother h⟩⟩
  | refused => cases hr

theorem snd_of_false (h : CastsHole t dest i r) (hr : r.1 = false) : r.2 = t := by
  cases h with
  | refused => rfl
  | _ => cases hr

end CastsHole

/-! ### Pointers to open holes -/

section Chains

variable [RootChoice]

/-- Pointers to an open hole agree with a concrete type if it has the same pointers in front of what
the hole can become. -/
theorem unifyTo_pointers {n : Nat} {cs : List Bool} (hn : cs.length < n)
    (hnone : t.type? i = none) (hb : b.isConcrete = true) :
    (∃ x, b = Ty.pointers cs x ∧
      unifyTo n t (Ty.pointers cs (.hole i)) b = t.orElseSame (t.commit? (t.find i) x)) ∨
    (∀ x, b ≠ Ty.pointers cs x) ∧ unifyTo n t (Ty.pointers cs (.hole i)) b = (false, t) := by
  induction cs generalizing n b with
  | nil =>
    obtain ⟨n, rfl⟩ : ∃ m, n = m + 1 := ⟨n - 1, by omega⟩
    refine .inl ⟨b, rfl, ?_⟩
    rw [Ty.pointers_nil, unifyTo, head_of_none hnone, head_of_isConcrete hb]
    cases b with
    | hole j => cases hb
    | _ => rfl
  | cons c cs ih =>
    obtain ⟨n, rfl⟩ : ∃ m, n = m + 1 := ⟨n - 1, by omega⟩
    rw [Ty.pointers_cons]
    by_cases hshape : ∃ y, b = .pointer c y
    · obtain ⟨y, rfl⟩ := hshape
      have hstep : unifyTo (n + 1) t (.pointer c (Ty.pointers cs (.hole i))) (.pointer c y) =
          unifyTo n t (Ty.pointers cs (.hole i)) y := by
        rw [unifyTo, head_of_ne_hole (by simp), head_of_ne_hole (by simp)]
        exact if_pos rfl
      rw [hstep]
      rcases ih (Nat.lt_of_succ_lt_succ hn) (b := y) hb with ⟨x, rfl, heq⟩ | ⟨hne, heq⟩
      · exact .inl ⟨x, rfl, heq⟩
      · refine .inr ⟨fun x hx ↦ hne x ?_, heq⟩
        exact (Ty.pointer.inj hx).2
    · refine .inr ⟨fun x hx ↦ hshape ⟨_, hx⟩, ?_⟩
      rw [unifyTo, head_of_isConcrete hb, head_of_ne_hole (by simp)]
      cases b with
      | pointer d y =>
        have hne : c ≠ d := fun hcd ↦ hshape ⟨y, hcd ▸ rfl⟩
        exact if_neg hne
      | hole j => cases hb
      | _ => rfl

/-- **Pointers to an open hole agree with a concrete type** exactly if the hole can become what
stands behind the same pointers there, and then it does. -/
theorem unify_pointers (cs : List Bool) (hi : i < t.size) (hnone : t.type? i = none)
    (hb : b.isConcrete = true) :
    ((t.unify (Ty.pointers cs (.hole i)) b).1 = true ↔
      ∃ x, b = Ty.pointers cs x ∧ (t.kind i).admits x = true) ∧
    ((t.unify (Ty.pointers cs (.hole i)) b).1 = true → ∀ x, b = Ty.pointers cs x →
      t.Revises i ⟨t.kind i, some x⟩ (t.unify (Ty.pointers cs (.hole i)) b).2) := by
  have hn : cs.length < t.unifyDepth (Ty.pointers cs (.hole i)) b :=
    (Ty.length_lt_height_pointers cs _).trans_le (height_le_unifyDepth t _ b)
  rw [unify]
  rcases unifyTo_pointers hn hnone hb with ⟨x, rfl, heq⟩ | ⟨hne, heq⟩
  · rw [heq]
    have hnone' : t.type? (t.find i) = none := (type?_find t i).trans hnone
    by_cases hadmits : (t.kind i).admits x = true
    · obtain ⟨u, hu, hrevises⟩ := orElseSame_commit? (find_lt hi) hnone'
        ((kind_find t i).symm ▸ hadmits)
      rw [kind_find] at hrevises
      rw [hu]
      refine ⟨⟨fun _ ↦ ⟨x, rfl, hadmits⟩, fun _ ↦ rfl⟩, fun _ y hy ↦ ?_⟩
      obtain rfl := Ty.pointers_injective cs hy
      exact hrevises.of_find
    · have hfails : t.commit? (t.find i) x = none := by
        refine Option.eq_none_iff_forall_ne_some.2 fun u hu ↦ hadmits ?_
        rw [← kind_find]
        exact (commit?_eq_some_iff.1 hu).2.1
      rw [hfails]
      refine ⟨⟨fun h ↦ (by cases h), ?_⟩, fun h ↦ (by cases h)⟩
      rintro ⟨y, hy, hadmits'⟩
      exact absurd (Ty.pointers_injective cs hy ▸ hadmits') hadmits
  · rw [heq]
    refine ⟨⟨fun h ↦ (by cases h), ?_⟩, fun h ↦ (by cases h)⟩
    rintro ⟨x, hx, -⟩
    exact absurd hx (hne x)

/-- **Casts**. Between concrete types a cast says whether both are numbers, one an integer and the
other a boolean, both pointers to the same type of which the first does not lose `const`, or both
the same; what lies behind a pointer never changes. A literal that is still open takes the type it
is cast to if it can; if not, it is limited to integers when a boolean or a pointer is asked for,
and stays as it is for another number type. Pointers are cast by making what they point to agree, so
that an open hole at the end of a chain takes what stands there in a concrete type. -/
theorem cast_rules (t : Table) :
    (∀ dest src : Ty, dest.isConcrete = true → src.isConcrete = true →
      ((t.cast dest src).1 = true ↔
        (src.isNumeric = true ∧ dest.isNumeric = true) ∨
        (src.isInt = true ∧ dest.isBool = true ∨ src.isBool = true ∧ dest.isInt = true) ∨
        (∃ c d a, src = .pointer c a ∧ dest = .pointer d a ∧ ¬ (c = true ∧ d = false)) ∨
        src = dest) ∧
      (t.cast dest src).2 = t ∧
      ∀ c d a b, src = .pointer c a → dest = .pointer d b → (t.cast dest src).1 = true →
        a = b ∧ (c = true → d = true)) ∧
    (∀ (dest : Ty) (i : Nat), dest.isConcrete = true → i < t.size → t.type? i = none →
      ((t.cast dest (.hole i)).1 = true ↔
        t.kind i = .null ∨ dest.isNumeric = true ∨
        (t.kind i = .number ∨ t.kind i = .int) ∧ (dest.isBool = true ∨ dest.isPointer = true)) ∧
      ((t.cast dest (.hole i)).1 = true →
        (t.kind i = .null ∨ (t.kind i).admits dest = true →
          t.Revises i ⟨t.kind i, some dest⟩ (t.cast dest (.hole i)).2) ∧
        (¬ (t.kind i = .null ∨ (t.kind i).admits dest = true) →
          (dest.isBool = true ∨ dest.isPointer = true →
            t.Revises i ⟨.int, none⟩ (t.cast dest (.hole i)).2) ∧
          (¬ (dest.isBool = true ∨ dest.isPointer = true) →
            dest.isNumeric = true ∧ (t.cast dest (.hole i)).2 = t))) ∧
      ((t.cast dest (.hole i)).1 = false → (t.cast dest (.hole i)).2 = t)) ∧
    (∀ (dest src : Ty) (c d : Bool) (a b : Ty), t.head src = .pointer c a →
      t.head dest = .pointer d b →
      t.cast dest src = if c = true ∧ d = false then (false, t) else t.unify a b) ∧
    ∀ (c d : Bool) (cs : List Bool) (i : Nat) (b : Ty), b.isConcrete = true → i < t.size →
      t.type? i = none →
      ((t.cast (.pointer d b) (.pointer c (Ty.pointers cs (.hole i)))).1 = true ↔
        ¬ (c = true ∧ d = false) ∧ ∃ x, b = Ty.pointers cs x ∧ (t.kind i).admits x = true) ∧
      ((t.cast (.pointer d b) (.pointer c (Ty.pointers cs (.hole i)))).1 = true →
        ∀ x, b = Ty.pointers cs x → t.Revises i ⟨t.kind i, some x⟩
          (t.cast (.pointer d b) (.pointer c (Ty.pointers cs (.hole i)))).2) := by
  refine ⟨fun dest src hdest hsrc ↦ ?_, fun dest i hdest hi hnone ↦ ?_,
    fun dest src c d a b ↦ cast_of_pointers, fun c d cs i b hb hi hnone ↦ ?_⟩
  · rw [cast_of_isConcrete t hdest hsrc]
    refine ⟨Ty.castable_iff, rfl, ?_⟩
    rintro c d a b rfl rfl h
    exact Ty.castable_pointer_iff.1 h
  · exact ⟨(castsHole_cast hdest hi hnone).fst_iff, (castsHole_cast hdest hi hnone).snd_of_true,
      (castsHole_cast hdest hi hnone).snd_of_false⟩
  · obtain ⟨hiff, hrevises⟩ := unify_pointers cs hi hnone hb
    rw [cast_of_pointers (a := Ty.pointers cs (.hole i)) (b := b) (head_of_ne_hole (by simp))
      (head_of_ne_hole (by simp))]
    split_ifs with hconst
    · exact ⟨⟨fun h ↦ (by cases h), fun h ↦ absurd hconst h.1⟩, fun h ↦ (by cases h)⟩
    · exact ⟨hiff.trans ⟨fun h ↦ ⟨hconst, h⟩, And.right⟩, hrevises⟩

end Chains

/-- A number literal and a float literal, cast to an integer, a boolean and a pointer. -/
theorem cast_rules_literals :
    let t := (empty.fresh .number).fresh .float
    ((t.cast (.pointer true .i32) (.pointer false .i32)).1 = true ∧
      (t.cast (.pointer true .i32) (.pointer false .i32)).2 = t ∧
      (t.cast (.pointer false .i32) (.pointer true .i32)).1 = false) ∧
    ((t.cast .i32 (.hole 0)).1 = true ∧
      t.Revises 0 ⟨.number, some .i32⟩ (t.cast .i32 (.hole 0)).2) ∧
    ((t.cast .bool (.hole 0)).1 = true ∧ t.Revises 0 ⟨.int, none⟩ (t.cast .bool (.hole 0)).2) ∧
    ((t.cast .i32 (.hole 1)).1 = true ∧ (t.cast .i32 (.hole 1)).2 = t) ∧
    ((t.cast .bool (.hole 1)).1 = false ∧ (t.cast .bool (.hole 1)).2 = t) ∧
    let src := Ty.pointer false (Ty.pointers [true] (.hole 1))
    let dest := Ty.pointer true (Ty.pointers [true] .f32)
    t.cast dest src = t.unify (Ty.pointers [true] (.hole 1)) (Ty.pointers [true] .f32) ∧
      (t.cast dest src).1 = true ∧ t.Revises 1 ⟨.float, some .f32⟩ (t.cast dest src).2 := by
  intro t
  obtain ⟨hconcrete, hhole, hpointers, hchain⟩ := cast_rules t
  have hadds := hconcrete (.pointer true .i32) (.pointer false .i32) rfl rfl
  have hloses := (hconcrete (.pointer false .i32) (.pointer true .i32) rfl rfl).2.2 true false
    .i32 .i32 rfl rfl
  obtain ⟨hyes, hdecided, -⟩ := hhole .i32 0 rfl (by decide) rfl
  obtain ⟨hyes', hlimited, -⟩ := hhole .bool 0 rfl (by decide) rfl
  obtain ⟨hyes'', hconverted, -⟩ := hhole .i32 1 rfl (by decide) rfl
  obtain ⟨hno, -, hrefused⟩ := hhole .bool 1 rfl (by decide) rfl
  have hnumber := hyes.2 (.inr (.inl rfl))
  have hbool := hyes'.2 (.inr (.inr ⟨.inl rfl, .inl rfl⟩))
  have hfloat := hyes''.2 (.inr (.inl rfl))
  have hnever : (t.cast .bool (.hole 1)).1 = false := by
    refine eq_false_of_ne_true fun h ↦ absurd (hno.1 h) ?_
    decide
  obtain ⟨hagree, htakes⟩ :=
    hchain false true [true] 1 (Ty.pointers [true] .f32) rfl (by decide) rfl
  have hend := hagree.2 ⟨by decide, .f32, rfl, rfl⟩
  refine ⟨⟨hadds.1.2 (.inr (.inr (.inl ⟨false, true, .i32, rfl, rfl, by decide⟩))), hadds.2.1, ?_⟩,
    ⟨hnumber, (hdecided hnumber).1 (.inr rfl)⟩,
    ⟨hbool, ((hlimited hbool).2 (by decide)).1 (.inl rfl)⟩,
    ⟨hfloat, (((hconverted hfloat).2 (by decide)).2 (by decide)).2⟩,
    ⟨hnever, hrefused hnever⟩, ?_, hend, htakes hend .f32 rfl⟩
  · exact eq_false_of_ne_true fun h ↦ absurd ((hloses h).2 rfl) (by decide)
  · exact (hpointers _ _ false true _ _ rfl rfl).trans (if_neg (by decide))

end Table

end FrontEnd
