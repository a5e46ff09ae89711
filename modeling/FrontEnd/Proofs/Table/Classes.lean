import FrontEnd.Proofs.Ty.Holes
import FrontEnd.Table.Basic
import Mathlib.Tactic.Common

/-!
# What one change does to the classes

A table is seen through three functions: how many holes it has (`size`), which class a hole is in
(`find`) and what is known of that class (`classOf`). Everything that changes a table does one of
two things to them.

* `fresh` adds a hole in a class of its own.
* Committing, limiting and merging **fuse** the classes of two holes, which may be one and the same
  hole, into one class with something new known of it (`Fuses`). What is known then refines what was
  known of either class before (`HoleClass.Refines`).

No proof beyond this module opens the lists of a table.
-/

namespace FrontEnd

namespace HoleKind

/-- **The stricter of two limits admits what both admit.** -/
theorem admits_meet? {k l m : HoleKind} (h : k.meet? l = some m) (a : Ty) :
    m.admits a = true ↔ k.admits a = true ∧ l.admits a = true := by
  cases k <;> cases l <;> simp only [meet?, Option.some.injEq, reduceCtorEq] at h <;> subst h <;>
    simp [admits, Ty.isNumeric] <;> tauto

/-- Limits that exclude each other admit no type together. -/
theorem not_admits_of_meet? {k l : HoleKind} (h : k.meet? l = none) {a : Ty}
    (hk : k.admits a = true) : l.admits a = false := by
  cases k <;> cases l <;> simp only [meet?, reduceCtorEq] at h <;>
    cases a <;> simp_all [admits, Ty.isInt, Ty.isFloat]
  all_goals rename_i s; cases s <;> simp_all

theorem meet?_self (k : HoleKind) : k.meet? k = some k := by
  cases k <;> rfl

theorem admits_default? {k : HoleKind} {a : Ty} (h : k.default? = some a) : k.admits a = true := by
  cases k <;> simp only [default?, Option.some.injEq, reduceCtorEq] at h <;> subst h <;> rfl

/-- What a limit other than `null` admits is a number type. -/
theorem isNumeric_of_admits {k : HoleKind} {a : Ty} (hk : k ≠ null) (h : k.admits a = true) :
    a.isNumeric = true := by
  cases k with
  | null => exact absurd rfl hk
  | number => exact h
  | int => rw [Ty.isNumeric, show a.isInt = true from h, Bool.true_or]
  | float => rw [Ty.isNumeric, show a.isFloat = true from h, Bool.or_true]

end HoleKind

namespace HoleClass

/-- What is known of a class **refines** what was known of another one: its limit admits no more,
and a commitment is kept. -/
structure Refines (c d : HoleClass) : Prop where
  /-- The limit admits no more. -/
  admits : ∀ a, c.kind.admits a = true → d.kind.admits a = true
  /-- A commitment is kept. -/
  type? : ∀ a, d.type? = some a → c.type? = some a

theorem commonType?_eq_some {a? b? c? : Option Ty} (h : commonType? a? b? = some c?) :
    (∀ a, a? = some a → c? = some a) ∧ (∀ b, b? = some b → c? = some b) ∧
      (c? = a? ∨ c? = b?) := by
  cases a? with
  | none =>
    obtain rfl := Option.some.inj h
    exact ⟨fun a ha ↦ (nomatch ha), fun b hb ↦ hb, .inr rfl⟩
  | some a =>
    cases b? with
    | none =>
      obtain rfl := Option.some.inj h
      exact ⟨fun a ha ↦ ha, fun b hb ↦ (nomatch hb), .inl rfl⟩
    | some b =>
      rw [commonType?] at h
      split at h
      · rename_i hab
        obtain rfl := Option.some.inj h
        subst hab
        exact ⟨fun a ha ↦ ha, fun b hb ↦ hb, .inl rfl⟩
      · exact nomatch h

theorem merge?_eq_some_iff {a b c : HoleClass} :
    a.merge? b = some c ↔ a.kind.meet? b.kind = some c.kind ∧
      commonType? a.type? b.type? = some c.type? ∧ c.type?.all c.kind.admits = true := by
  cases c with
  | mk kind type? =>
    simp only [merge?, Option.bind_eq_bind, Option.bind_eq_some_iff]
    constructor
    · rintro ⟨k, hk, t, ht, h⟩
      split at h
      · obtain ⟨rfl, rfl⟩ := HoleClass.mk.inj (Option.some.inj h)
        exact ⟨hk, ht, ‹_›⟩
      · exact nomatch h
    · rintro ⟨hk, ht, h⟩
      exact ⟨kind, hk, type?, ht, if_pos h⟩

theorem merge?_refines {a b c : HoleClass} (h : a.merge? b = some c) :
    c.Refines a ∧ c.Refines b := by
  obtain ⟨hk, ht, -⟩ := merge?_eq_some_iff.1 h
  obtain ⟨hl, hr, -⟩ := commonType?_eq_some ht
  exact ⟨⟨fun x hx ↦ ((HoleKind.admits_meet? hk x).1 hx).1, hl⟩,
    ⟨fun x hx ↦ ((HoleKind.admits_meet? hk x).1 hx).2, hr⟩⟩

end HoleClass

namespace Table

/-! ### Looking up -/

theorem find_of_ge {t : Table} {i : Nat} (h : t.size ≤ i) : t.find i = i := by
  rw [find, List.getElem?_eq_none h, Option.getD_none]

theorem find_lt {t : Table} {i : Nat} (h : i < t.size) : t.find i < t.size :=
  (List.getElem?_eq_some_iff.1 (roots_find h)).1

/-- **A representative represents itself.** -/
@[simp] theorem find_find (t : Table) (i : Nat) : t.find (t.find i) = t.find i := by
  rcases Nat.lt_or_ge i t.size with h | h
  · exact Option.some.inj ((find_of_lt (find_lt h)).symm.trans (roots_find h))
  · rw [find_of_ge h, find_of_ge h]

theorem find_lt_iff {t : Table} {i : Nat} : t.find i < t.size ↔ i < t.size := by
  refine ⟨fun h ↦ ?_, find_lt⟩
  by_contra hge
  rw [find_of_ge (Nat.le_of_not_lt hge)] at h
  exact hge h

theorem classOf_congr {t : Table} {i j : Nat} (h : t.find i = t.find j) :
    t.classOf i = t.classOf j := by
  rw [classOf, classOf, h]

theorem kind_congr {t : Table} {i j : Nat} (h : t.find i = t.find j) : t.kind i = t.kind j := by
  rw [kind, kind, classOf_congr h]

theorem type?_congr {t : Table} {i j : Nat} (h : t.find i = t.find j) : t.type? i = t.type? j := by
  rw [type?, type?, classOf_congr h]

@[simp] theorem type?_find (t : Table) (i : Nat) : t.type? (t.find i) = t.type? i :=
  type?_congr (find_find t i)

@[simp] theorem kind_find (t : Table) (i : Nat) : t.kind (t.find i) = t.kind i :=
  kind_congr (find_find t i)

/-- A number that is no hole of the table has no type there. -/
theorem lt_size_of_type? {t : Table} {i : Nat} {a : Ty} (h : t.type? i = some a) : i < t.size := by
  by_contra hge
  have hge : t.size ≤ i := Nat.le_of_not_lt hge
  have hnone : t.classes[t.find i]? = none := by
    rw [find_of_ge hge]
    exact List.getElem?_eq_none (by rw [t.classes_length]; exact hge)
  rw [type?, classOf, hnone] at h
  exact nomatch h

/-- The commitments are those of the holes, since every class has a representative. -/
theorem mem_committed {t : Table} {a : Ty} : a ∈ t.committed ↔ ∃ i, t.type? i = some a := by
  rw [committed, List.mem_filterMap]
  constructor
  · rintro ⟨⟨⟨r, c⟩, i⟩, hmem, h⟩
    obtain ⟨hroot, hclass⟩ := List.getElem?_zip_eq_some.1 (List.mem_zipIdx_iff_getElem?.1 hmem)
    dsimp only at hroot hclass h
    split at h
    · rename_i hri
      have hfind : t.find i = i := by rw [find, hroot, Option.getD_some, hri]
      exact ⟨i, by rw [type?, classOf, hfind, hclass, Option.getD_some, h]⟩
    · cases h
  · rintro ⟨i, h⟩
    have hlt := lt_size_of_type? h
    have hclass : t.classes[t.find i]? = some (t.classOf i) := by
      rw [classOf, List.getElem?_eq_getElem (by rw [t.classes_length]; exact find_lt hlt),
        Option.getD_some]
    exact ⟨((t.find i, t.classOf i), t.find i), List.mem_zipIdx_iff_getElem?.2
      (List.getElem?_zip_eq_some.2 ⟨roots_find hlt, hclass⟩), (if_pos rfl).trans h⟩

@[simp] theorem size_empty : empty.size = 0 := rfl

/-! ### One more hole -/

@[simp] theorem size_fresh (t : Table) (k : HoleKind) : (t.fresh k).size = t.size + 1 := by
  simp [size, fresh]

@[simp] theorem find_fresh (t : Table) (k : HoleKind) (i : Nat) :
    (t.fresh k).find i = t.find i := by
  rcases Nat.lt_trichotomy i t.size with h | rfl | h
  · rw [find, find, show (t.fresh k).roots = t.roots ++ [t.size] from rfl,
      List.getElem?_append_left h]
  · rw [find_of_ge (Nat.le_refl _), find, show (t.fresh k).roots = t.roots ++ [t.size] from rfl,
      size, List.getElem?_concat_length, Option.getD_some]
  · rw [find_of_ge (Nat.le_of_lt h), find_of_ge (by rw [size_fresh]; exact h)]

theorem classOf_fresh (t : Table) (k : HoleKind) (i : Nat) :
    (t.fresh k).classOf i = if i = t.size then { kind := k, type? := none } else t.classOf i := by
  rw [classOf, find_fresh, show (t.fresh k).classes = t.classes ++ [⟨k, none⟩] from rfl]
  rcases Nat.lt_trichotomy i t.size with h | rfl | h
  · rw [if_neg (Nat.ne_of_lt h), classOf,
      List.getElem?_append_left (by rw [t.classes_length]; exact find_lt h)]
  · rw [if_pos rfl, find_of_ge (Nat.le_refl _), size, ← t.classes_length,
      List.getElem?_concat_length, Option.getD_some]
  · have hge : t.size ≤ i := Nat.le_of_lt h
    rw [if_neg (Nat.ne_of_gt h), classOf, find_of_ge hge, List.getElem?_eq_none,
      List.getElem?_eq_none]
    · rw [t.classes_length]
      exact hge
    · rw [List.length_append, t.classes_length]
      exact h

/-- A new hole is open, so commitments are those there were. -/
theorem type?_of_type?_fresh {t : Table} {k : HoleKind} {i : Nat} {a : Ty}
    (h : (t.fresh k).type? i = some a) : t.type? i = some a := by
  rw [type?, classOf_fresh] at h
  split at h
  · exact nomatch h
  · exact h

/-! ### Two classes made one -/

/-- The table `u` is `t` with the classes of `i` and `j` **fused** into one, of which `c` is known.
Which member of the two represents it is left open. -/
structure Fuses (t : Table) (i j : Nat) (c : HoleClass) (u : Table) : Prop where
  /-- No hole is added. -/
  size_eq : u.size = t.size
  /-- The two classes get one representative, which is a member of either. -/
  find_eq : ∃ w, (t.find w = t.find i ∨ t.find w = t.find j) ∧
    ∀ k, u.find k = if t.find k = t.find i ∨ t.find k = t.find j then w else t.find k
  /-- `c` is known of the new class, and of others what was known before. -/
  classOf_eq : ∀ k, u.classOf k =
    if t.find k = t.find i ∨ t.find k = t.find j then c else t.classOf k

namespace Fuses

variable {t u : Table} {i j k l : Nat} {c : HoleClass}

theorem classOf_of_mem (h : t.Fuses i j c u) (hk : t.find k = t.find i ∨ t.find k = t.find j) :
    u.classOf k = c := by
  rw [h.classOf_eq, if_pos hk]

theorem classOf_of_not_mem (h : t.Fuses i j c u) (hi : t.find k ≠ t.find i)
    (hj : t.find k ≠ t.find j) : u.classOf k = t.classOf k := by
  rw [h.classOf_eq, if_neg (not_or.2 ⟨hi, hj⟩)]

theorem find_of_not_mem (h : t.Fuses i j c u) (hi : t.find k ≠ t.find i)
    (hj : t.find k ≠ t.find j) : u.find k = t.find k := by
  obtain ⟨w, -, hf⟩ := h.find_eq
  rw [hf, if_neg (not_or.2 ⟨hi, hj⟩)]

/-- The two holes are in one class now. -/
theorem find_eq_find (h : t.Fuses i j c u) : u.find i = u.find j := by
  obtain ⟨w, -, hf⟩ := h.find_eq
  rw [hf, hf, if_pos (.inl rfl), if_pos (.inr rfl)]

/-- **Two holes are in one class afterwards** exactly if they were before, or both are in one of
the fused classes. -/
theorem find_eq_iff (h : t.Fuses i j c u) : u.find k = u.find l ↔ t.find k = t.find l ∨
    ((t.find k = t.find i ∨ t.find k = t.find j) ∧
      (t.find l = t.find i ∨ t.find l = t.find j)) := by
  obtain ⟨w, hw, hf⟩ := h.find_eq
  rw [hf, hf]
  by_cases hk : t.find k = t.find i ∨ t.find k = t.find j <;>
    by_cases hl : t.find l = t.find i ∨ t.find l = t.find j
  · rw [if_pos hk, if_pos hl]
    exact iff_of_true rfl (.inr ⟨hk, hl⟩)
  · rw [if_pos hk, if_neg hl]
    refine ⟨fun hwl ↦ ?_, ?_⟩
    · rw [hwl, find_find] at hw
      exact absurd hw hl
    · rintro (hkl | ⟨-, hl'⟩)
      · rw [hkl] at hk
        exact absurd hk hl
      · exact absurd hl' hl
  · rw [if_neg hk, if_pos hl]
    refine ⟨fun hkw ↦ ?_, ?_⟩
    · rw [← hkw, find_find] at hw
      exact absurd hw hk
    · rintro (hkl | ⟨hk', -⟩)
      · rw [← hkl] at hl
        exact absurd hl hk
      · exact absurd hk' hk
  · rw [if_neg hk, if_neg hl]
    exact ⟨.inl, fun h ↦ h.elim id fun h ↦ absurd h.1 hk⟩

theorem find_eq_of_find_eq (h : t.Fuses i j c u) (hkl : t.find k = t.find l) :
    u.find k = u.find l :=
  h.find_eq_iff.2 (.inl hkl)

end Fuses

theorem find_putClass (t : Table) (i : Nat) (c : HoleClass) (k : Nat) :
    (t.putClass i c).find k = t.find k := rfl

theorem putClass_of_ge {t : Table} {i : Nat} (h : t.size ≤ i) (c : HoleClass) :
    t.putClass i c = t := by
  have hset : t.classes.set (t.find i) c = t.classes :=
    List.set_eq_of_length_le (by rw [t.classes_length, find_of_ge h]; exact h)
  simp only [putClass, hset]

/-- Telling something else of one class fuses it with itself. -/
theorem fuses_putClass {t : Table} {i : Nat} (hi : i < t.size) (c : HoleClass) :
    t.Fuses i i c (t.putClass i c) where
  size_eq := rfl
  find_eq := by
    refine ⟨t.find i, .inl (find_find t i), fun k ↦ ?_⟩
    rw [find_putClass]
    by_cases h : t.find k = t.find i
    · rw [if_pos (.inl h), h]
    · rw [if_neg (not_or.2 ⟨h, h⟩)]
  classOf_eq k := by
    rw [classOf, find_putClass,
      show (t.putClass i c).classes = t.classes.set (t.find i) c from rfl]
    have hlt : t.find i < t.classes.length := by
      rw [t.classes_length]
      exact find_lt hi
    by_cases h : t.find k = t.find i
    · rw [if_pos (.inl h), h, List.getElem?_set_self hlt, Option.getD_some]
    · rw [if_neg (not_or.2 ⟨h, h⟩), List.getElem?_set_ne (Ne.symm h), classOf]

/-- Making one class of those of two representatives fuses the two. -/
theorem fuses_fuse {t : Table} {i j w : Nat} (hi : i < t.size) (hj : j < t.size) (c : HoleClass)
    (hw : t.roots[w]? = some (t.find i) ∨ t.roots[w]? = some (t.find j)) :
    t.Fuses i j c (t.fuse (t.find i) (t.find j) w c hw) := by
  have hfind : ∀ k, (t.fuse (t.find i) (t.find j) w c hw).find k =
      if t.find k = t.find i ∨ t.find k = t.find j then w else t.find k := by
    intro k
    have hmap : (t.fuse (t.find i) (t.find j) w c hw).roots[k]? =
        t.roots[k]?.map fun r ↦ if r = t.find i ∨ r = t.find j then w else r := by
      rw [← List.getElem?_map]
      rfl
    rcases Nat.lt_or_ge k t.size with hk | hk
    · rw [find, hmap, find_of_lt hk, Option.map_some, Option.getD_some]
    · have hki : k ≠ t.find i := Nat.ne_of_gt (Nat.lt_of_lt_of_le (find_lt hi) hk)
      have hkj : k ≠ t.find j := Nat.ne_of_gt (Nat.lt_of_lt_of_le (find_lt hj) hk)
      rw [find, hmap, List.getElem?_eq_none hk, Option.map_none, Option.getD_none,
        find_of_ge hk, if_neg (not_or.2 ⟨hki, hkj⟩)]
  have hmem : t.find w = t.find i ∨ t.find w = t.find j := by
    rw [find]
    exact hw.imp (fun h ↦ by rw [h, Option.getD_some]) fun h ↦ by rw [h, Option.getD_some]
  refine ⟨by simp [size, fuse], ⟨w, hmem, hfind⟩, fun k ↦ ?_⟩
  rw [classOf, hfind, show (t.fuse (t.find i) (t.find j) w c hw).classes =
    t.classes.set w c from rfl]
  by_cases hk : t.find k = t.find i ∨ t.find k = t.find j
  · have hlt : w < t.classes.length := by
      rw [t.classes_length]
      exact hw.elim (fun h ↦ (List.getElem?_eq_some_iff.1 h).1)
        fun h ↦ (List.getElem?_eq_some_iff.1 h).1
    rw [if_pos hk, if_pos hk, List.getElem?_set_self hlt, Option.getD_some]
  · -- the entry that is overwritten is that of a member, and `k` is none
    have hne : w ≠ t.find k := by
      rintro rfl
      rw [find_find] at hmem
      exact hk hmem
    rw [if_neg hk, if_neg hk, List.getElem?_set_ne hne, classOf]

theorem Fuses.symm {t u : Table} {i j : Nat} {c : HoleClass} (h : t.Fuses i j c u) :
    t.Fuses j i c u where
  size_eq := h.size_eq
  find_eq := by
    obtain ⟨w, hw, hf⟩ := h.find_eq
    refine ⟨w, hw.symm, fun k ↦ ?_⟩
    rw [hf]
    exact if_congr or_comm rfl rfl
  classOf_eq k := by
    rw [h.classOf_eq]
    exact if_congr or_comm rfl rfl

/-! ### When the changes happen -/

/-- **A commitment happens** exactly if the hole is open and its limit admits the type. -/
theorem commit?_eq_some_iff {t u : Table} {i : Nat} {a : Ty} :
    t.commit? i a = some u ↔ t.type? i = none ∧ (t.kind i).admits a = true ∧
      u = t.putClass i { kind := t.kind i, type? := some a } := by
  rw [commit?]
  cases htype : t.type? i with
  | some b => simp
  | none =>
    have hmerge : ∀ c, (t.classOf i).merge? { kind := t.kind i, type? := some a } = some c ↔
        (t.kind i).admits a = true ∧ c = { kind := t.kind i, type? := some a } := by
      rintro ⟨k, b?⟩
      rw [HoleClass.merge?_eq_some_iff, show (t.classOf i).type? = none from htype,
        show (t.classOf i).kind = t.kind i from rfl, HoleKind.meet?_self, HoleClass.commonType?]
      simp only [Option.some.injEq, HoleClass.mk.injEq]
      constructor
      · rintro ⟨rfl, rfl, h⟩
        exact ⟨h, rfl, rfl⟩
      · rintro ⟨h, rfl, rfl⟩
        exact ⟨rfl, rfl, h⟩
    simp only [refine?, Option.map_eq_some_iff, hmerge, true_and]
    constructor
    · rintro ⟨c, ⟨h, rfl⟩, rfl⟩
      exact ⟨h, rfl⟩
    · rintro ⟨h, rfl⟩
      exact ⟨_, ⟨h, rfl⟩, rfl⟩

/-- **A limit is put on** exactly if it can hold together with the one there is, and both admit the
type that the hole is committed to. -/
theorem limit?_eq_some_iff {t u : Table} {i : Nat} {k : HoleKind} :
    t.limit? i k = some u ↔ ∃ l, (t.kind i).meet? k = some l ∧
      (t.type? i).all l.admits = true ∧ u = t.putClass i { kind := l, type? := t.type? i } := by
  have hcommon : HoleClass.commonType? (t.classOf i).type? none = some (t.type? i) := by
    rw [type?]
    cases (t.classOf i).type? <;> rfl
  rw [limit?, refine?, Option.map_eq_some_iff]
  constructor
  · rintro ⟨⟨l, b?⟩, hc, rfl⟩
    obtain ⟨hk, ht, hall⟩ := HoleClass.merge?_eq_some_iff.1 hc
    rw [hcommon] at ht
    obtain rfl := Option.some.inj ht
    exact ⟨l, hk, hall, rfl⟩
  · rintro ⟨l, hk, hall, rfl⟩
    exact ⟨⟨l, t.type? i⟩, HoleClass.merge?_eq_some_iff.2 ⟨hk, hcommon, hall⟩, rfl⟩

/-- **Two classes are merged** exactly if what is known of them can hold together. -/
theorem join?_cases [RootChoice] {t : Table} {i j : Nat} (hi : i < t.size) (hj : j < t.size) :
    (t.find i = t.find j ∧ t.join? i j = some t) ∨
      (t.find i ≠ t.find j ∧ (t.classOf i).merge? (t.classOf j) = none ∧ t.join? i j = none) ∨
      (t.find i ≠ t.find j ∧ ∃ c u, (t.classOf i).merge? (t.classOf j) = some c ∧
        t.join? i j = some u ∧ t.Fuses i j c u) := by
  rw [join?]
  by_cases h : t.find i = t.find j
  · exact .inl ⟨h, if_pos h⟩
  rw [if_neg h, dif_pos ⟨hi, hj⟩]
  cases hm : (t.classOf i).merge? (t.classOf j) with
  | none => exact .inr (.inl ⟨h, rfl, rfl⟩)
  | some c => exact .inr (.inr ⟨h, c, _, rfl, rfl, fuses_fuse hi hj c _⟩)

end Table

end FrontEnd
