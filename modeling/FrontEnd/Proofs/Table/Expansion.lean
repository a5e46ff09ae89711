import FrontEnd.Proofs.Table.Failures
import FrontEnd.Proofs.Table.Storage

/-!
# Expanding is a full and lasting resolution

What a type expands to is settled by the table: the recursion that follows commitments comes to an
end with one result (`ExpandsTo.eq_expand`), in which no hole is left but open representatives. That
expanding once more changes nothing is a case of what later tables do with an expanded type. A table
that knows all that an earlier one knew makes the same of a type and of what the earlier one made of
it (`Gains.expand_expand`), because expanding in the later table respects the earlier one. So types
that have come to expand alike will always do so.
-/

namespace FrontEnd.Table

variable {t u : Table} {a b : Ty} {i : Nat}

/-! ### One result -/

/-- Uncovering the head of a type comes to an end with `head` only. -/
theorem HeadsTo.eq_head (ht : t.Valid) (hacyclic : t.Acyclic) (h : t.HeadsTo a b) :
    b = t.head a := by
  induction h with
  | known hne => rw [head_of_ne_hole hne]
  | vacant _ hnone => rw [head_of_none hnone]
  | committed _ hsome _ ih => rw [ih, head_of_some ht hacyclic hsome]

/-- An uncovered hole is a representative. -/
theorem HeadsTo.find_of_hole (h : t.HeadsTo a (.hole i)) : t.find i = i := by
  generalize hb : Ty.hole i = b at h
  induction h with
  | known hne => exact absurd hb.symm (hne i)
  | vacant _ _ =>
    obtain rfl := Ty.hole.inj hb
    exact find_find t _
  | committed _ _ _ ih => exact ih hb

/-- **Expanding comes to an end with `expand` only.** -/
theorem ExpandsTo.eq_expand (ht : t.Valid) (hacyclic : t.Acyclic) (h : t.ExpandsTo a b) :
    b = t.expand a := by
  -- the parts of the result are results of parts of the head
  rw [← expand_head hacyclic]
  induction b using Ty.induct generalizing a with
  | scalar s =>
    cases h with
    | scalar hhead => rw [← hhead.eq_head ht hacyclic]; rfl
  | unit =>
    cases h with
    | unit hhead => rw [← hhead.eq_head ht hacyclic]; rfl
  | pointer c b ih =>
    cases h with
    | pointer hhead hb =>
      rw [← hhead.eq_head ht hacyclic, expand_pointer, ← expand_head hacyclic, ← ih hb]
  | func qs r ihqs ihr =>
    cases h with
    | @func _ r' _ ps _ hhead hps hr =>
      have hqs : qs = ps.map t.expand := by
        clear hhead
        induction hps with
        | nil => rfl
        | cons hq _ ih =>
          obtain ⟨ihq, ihqs⟩ := List.forall_mem_cons.1 ihqs
          rw [List.map_cons, ← ih ihqs, ← expand_head hacyclic, ← ihq hq]
      rw [← hhead.eq_head ht hacyclic, expand_func, ← hqs, ← expand_head hacyclic r', ← ihr hr]
  | hole i =>
    cases h with
    | hole hhead =>
      rw [← hhead.eq_head ht hacyclic, expand_of_none hhead.vacant_of_hole.2, hhead.find_of_hole]

/-! ### Members of classes -/

/-- The least hole of a class is in it. -/
theorem find_least (t : Table) (i : Nat) : t.find (t.least i) = t.find i := by
  rw [least]
  cases h : (List.range t.size).find? fun j ↦ t.find j == t.find i with
  | none => rfl
  | some j => exact eq_of_beq (List.find?_some h :)

/-- **Which members of classes a type mentions** does not show when it is expanded. -/
theorem expand_canonical (hacyclic : t.Acyclic) (a : Ty) :
    t.expand (t.canonical a) = t.expand a := by
  rw [canonical, expand_eq_subst, Ty.subst_subst, expand_eq_subst]
  refine Ty.subst_congr fun i _ ↦ ?_
  rw [Ty.subst_hole, ← expand_hole_find hacyclic (t.least i), find_least,
    expand_hole_find hacyclic]

/-! ### Later tables -/

/-- What respects a table respects all that it has come from. -/
theorem Gains.respects {s : Nat → Ty} (h : Gains t u) (hs : u.Respects s) : t.Respects s where
  sameClass hi hj hij := hs.sameClass (Nat.lt_of_lt_of_le hi h.size_le)
    (Nat.lt_of_lt_of_le hj h.size_le) (h.find_eq hij)
  committed ha := hs.committed (h.type?_eq ha)

/-- **An expanded type means the same as the type**, to whatever respects the table. -/
theorem Respects.expand {s : Nat → Ty} (h : t.Respects s) (ht : t.Valid) (hacyclic : t.Acyclic)
    (ha : t.Covers a) : (t.expand a).subst s = a.subst s := by
  have hparts {a : Ty} (hholes : ∀ i ∈ a.holes, (t.expand (.hole i)).subst s = s i) :
      (t.expand a).subst s = a.subst s := by
    rw [expand_eq_subst, Ty.subst_subst]
    exact Ty.subst_congr hholes
  refine hparts fun i hi ↦ hole_induction ht hacyclic
    (P := fun a ↦ (t.expand a).subst s = a.subst s) ?_ ?_ (ha i hi)
  · intro i hi hnone
    rw [expand_of_none hnone]
    exact h.find hi
  · intro i a _ hsome ih
    rw [expand_of_some ht hacyclic hsome, hparts ih]
    exact (h.committed hsome).symm

/-- **A later table makes the same of a type and of what an earlier one made of it.** -/
theorem Gains.expand_expand (h : Gains t u) (ht : t.Valid) (hu : u.Valid) (hacyclic : u.Acyclic)
    (ha : t.Covers a) : u.expand (t.expand a) = u.expand a :=
  (h.respects (respects_expand hu hacyclic)).expand ht (h.acyclic hacyclic) ha

/-- Types that expand alike do so in every later table. -/
theorem Gains.expand_eq (h : Gains t u) (ht : t.Valid) (hu : u.Valid) (hacyclic : u.Acyclic)
    (ha : t.Covers a) (hb : t.Covers b) (heq : t.expand a = t.expand b) :
    u.expand a = u.expand b := by
  rw [← h.expand_expand ht hu hacyclic ha, heq, h.expand_expand ht hu hacyclic hb]

/-- **Expanding is a full and lasting resolution.** Where commitments do not run in a circle,
expanding a type over the holes of a table

* comes to an end, with one result, in which every hole that is left is the representative of an
  open class;
* changes nothing if it is done again, and gives the same for the head of the type and for every
  type that differs only in which members of the same classes it mentions.

And it lasts: after any history of further actions that leaves no circle behind, what was expanded
before stands for the type as well as ever, and types that expanded alike still do. -/
theorem expand_resolves [RootChoice] (ht : t.Valid) (hacyclic : t.Acyclic) (ha : t.Covers a) :
    (∀ b, t.ExpandsTo a b ↔ b = t.expand a) ∧
      (∀ i ∈ (t.expand a).holes, i < t.size ∧ t.find i = i ∧ t.type? i = none) ∧
      t.expand (t.expand a) = t.expand a ∧
      t.expand (t.head a) = t.expand a ∧
      (∀ b, t.canonical b = t.canonical a → t.expand b = t.expand a) ∧
      ∀ xs, t.AllWithin xs → (t.acts xs).Acyclic →
        (t.acts xs).expand (t.expand a) = (t.acts xs).expand a ∧
        ∀ b, t.Covers b → t.expand a = t.expand b →
          (t.acts xs).expand a = (t.acts xs).expand b := by
  refine ⟨fun b ↦ ⟨ExpandsTo.eq_expand ht hacyclic, ?_⟩, open_of_mem_holes_expand ht hacyclic ha,
    (Gains.refl t).expand_expand ht ht hacyclic ha, expand_head hacyclic a, fun b hb ↦ ?_,
    fun xs hxs hlater ↦ ?_⟩
  · rintro rfl
    exact expandsTo_expand ht hacyclic ha
  · rw [← expand_canonical hacyclic b, hb, expand_canonical hacyclic]
  · obtain ⟨hvalid, hgains⟩ := gains_acts ht hxs
    exact ⟨hgains.expand_expand ht hvalid hlater ha,
      fun b hb heq ↦ hgains.expand_eq ht hvalid hlater ha hb heq⟩

/-- Two pointers to open holes are found to be one type, and stay so when the class of the holes is
merged with that of a number and decided. -/
theorem expand_resolves_joined :
    let t := empty.acts [.fresh .null, .fresh .null, .fresh .number, .fresh .null, .join 0 1,
      .commit 3 (.pointer false (.hole 0))]
    let a := Ty.hole 3
    let b := Ty.pointer false (.hole 1)
    let u := t.acts [.join 1 2, .limit 0 .int, .commit 2 .i32]
    t.Valid ∧ t.Acyclic ∧ t.Covers a ∧ t.AllWithin [.join 1 2, .limit 0 .int, .commit 2 .i32] ∧
      u.Acyclic ∧ t.expand (t.expand a) = t.expand a ∧ t.expand a = t.expand b ∧
      u.expand a = .pointer false .i32 ∧ u.expand a = u.expand b := by
  intro t a b u
  have hvalid : t.Valid := (gains_acts valid_empty (by decide)).1
  have hlater : u.Acyclic := by
    have hlt : ∀ i < u.size, ∀ a ∈ u.type? i, ∀ k ∈ a.holes, u.find k < u.find i := by decide
    exact acyclic_of_find_lt hlt
  have hwithin : t.AllWithin [.join 1 2, .limit 0 .int, .commit 2 .i32] := by decide
  have hacyclic : t.Acyclic := (gains_acts hvalid hwithin).2.acyclic hlater
  have heq : t.expand a = t.expand b := by decide
  obtain ⟨-, -, hagain, -, -, hlasts⟩ :=
    expand_resolves (a := a) hvalid hacyclic (by decide)
  exact ⟨hvalid, hacyclic, by decide, hwithin, hlater, hagain, heq, by decide,
    (hlasts _ hwithin hlater).2 b (by decide) heq⟩

end FrontEnd.Table
