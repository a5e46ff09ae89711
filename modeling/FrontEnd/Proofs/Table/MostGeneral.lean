import FrontEnd.Proofs.Table.Operations

/-!
# Unification finds the most general answer

A table that came about by any operations is valid (`Reachable.valid`), and then `unify` decides
whether two types can be made equal, and adds to the table no more than that
(`unify_decides_solvability`). The one thing that it takes on trust is that it commits no class to a
type that leads back to the class.
-/

namespace FrontEnd.Table

section

variable [RootChoice]

/-- A table that comes out of the empty one by making holes and asking questions, in any order,
whatever the answers were. Every question is about holes of the table as it is then. -/
inductive Reachable : Table → Prop
  | empty : Reachable empty
  | fresh {t : Table} (h : Reachable t) (k : HoleKind) : Reachable (t.fresh k)
  | join {t : Table} {i j : Nat} (h : Reachable t) (hi : i < t.size) (hj : j < t.size) :
    Reachable (t.orElseSame (t.join? i j)).2
  | commit {t : Table} {i : Nat} {a : Ty} (h : Reachable t) (hi : i < t.size) (ha : t.Covers a) :
    Reachable (t.orElseSame (t.commit? i a)).2
  | limit {t : Table} {i : Nat} {k : HoleKind} (h : Reachable t) (hi : i < t.size) :
    Reachable (t.orElseSame (t.limit? i k)).2
  | settleAll {t : Table} (h : Reachable t) : Reachable t.settleAll
  | unify {t : Table} {a b : Ty} (h : Reachable t) (ha : t.Covers a) (hb : t.Covers b) :
    Reachable (t.unify a b).2
  | requireNumber {t : Table} {a : Ty} (h : Reachable t) (ha : t.Covers a) :
    Reachable (t.requireNumber a).2
  | requireInteger {t : Table} {a : Ty} (h : Reachable t) (ha : t.Covers a) :
    Reachable (t.requireInteger a).2
  | cast {t : Table} {dest src : Ty} (h : Reachable t) (hdest : t.Covers dest)
    (hsrc : t.Covers src) : Reachable (t.cast dest src).2

/-- **Every table that comes about is valid.** -/
theorem Reachable.valid {t : Table} (h : Reachable t) : t.Valid := by
  induction h with
  | empty => exact valid_empty
  | fresh _ k ih => exact ih.fresh k
  | join _ hi hj ih => exact (becomes_join? hi hj ih.covers).valid ih fun _ h ↦ h
  | commit _ hi ha ih => exact (becomes_commit? (Q := Covers _) hi ha).valid ih fun _ h ↦ h
  | limit _ hi ih => exact (becomes_limit? hi ih.covers).valid ih fun _ h ↦ h
  | settleAll _ ih => exact (becomes_settleAll _).valid ih fun _ h ↦ h
  | unify _ ha hb ih => exact (becomes_unify ih ha hb).valid ih fun _ h ↦ h
  | requireNumber _ ha ih =>
    rw [requireNumber_eq]
    exact (becomes_requireLimit ih ha _).valid ih fun _ h ↦ h
  | requireInteger _ ha ih =>
    rw [requireInteger_eq]
    exact (becomes_requireLimit ih ha _).valid ih fun _ h ↦ h
  | cast _ hdest hsrc ih => exact (becomes_cast ih hdest hsrc).valid ih fun _ h ↦ h

/-- **Unification computes a most general unifier.** For any two types over the holes of a table
that came about by operations, and provided that no class comes to be committed to a type that leads
back to it:

* the recursion ends, with the answer and the table that `unify` gives;
* the answer is yes exactly if some solution of the table makes the two types equal;
* if it is, the solutions of the new table are exactly those of the old one that make the two types
  equal, and the two types expand to the same type. -/
theorem unify_decides_solvability {t : Table} (ht : Reachable t) {a b : Ty} (ha : t.Covers a)
    (hb : t.Covers b) (hacyclic : (t.unify a b).2.Acyclic) :
    UnifiesTo t a b (t.unify a b) ∧
      ((t.unify a b).1 = true ↔ ∃ s, t.Solution s ∧ a.subst s = b.subst s) ∧
      ((t.unify a b).1 = true →
        (∀ s, (t.unify a b).2.Solution s ↔ t.Solution s ∧ a.subst s = b.subst s) ∧
          (t.unify a b).2.expand a = (t.unify a b).2.expand b) := by
  have hcomplete := complete_unify ht.valid ha hb hacyclic
  have hvalid : (t.unify a b).2.Valid := (ht.unify ha hb).valid
  have hsolution : (t.unify a b).1 = true →
      ∀ s, (t.unify a b).2.Solution s ↔ t.Solution s ∧ a.subst s = b.subst s :=
    fun htrue s ↦ solution_unify ht.valid ha hb (Prod.ext htrue rfl)
  refine ⟨hcomplete.run, ⟨fun htrue ↦ ?_, fun ⟨s, hs, heq⟩ ↦ ?_⟩, fun htrue ↦ ⟨hsolution htrue, ?_⟩⟩
  · obtain ⟨s, hs⟩ := exists_solution hvalid hacyclic
    exact ⟨s, (hsolution htrue s).1 hs⟩
  · by_contra hfalse
    exact hcomplete.no_solution (Bool.eq_false_iff.2 hfalse) s hs heq
  · -- expanding respects the new table, and that is all that equality needs
    have hrespects := respects_expand hvalid hacyclic
    exact ((unifyTo_meaning meaning_respects _ ht.valid ha hb (Prod.ext htrue rfl) _).1
      hrespects).2

end

/-- Two parameters that are one open hole meet two pointers: the first pair commits the hole, and
the second pair decides what it points at. -/
theorem unify_decides_solvability_params :
    let t := (empty.fresh .number).fresh .null
    let a := Ty.func [.hole 1, .hole 1] .unit
    let b := Ty.func [.pointer false (.hole 0), .pointer false .i64] .unit
    (t.unify a b).2.Acyclic ∧ (t.unify a b).1 = true ∧
      UnifiesTo t a b (t.unify a b) ∧ (t.unify a b).2.expand a = (t.unify a b).2.expand b := by
  intro t a b
  have ht : Reachable t := (Reachable.empty.fresh .number).fresh .null
  have ha : t.Covers a := by decide
  have hb : t.Covers b := by decide
  have hyes : (t.unify a b).1 = true := by decide
  have hacyclic : (t.unify a b).2.Acyclic := by
    have hsize : (t.unify a b).2.size = 2 := by decide
    have hzero : (t.unify a b).2.type? 0 = some .i64 := by decide
    have hone : (t.unify a b).2.type? 1 = some (.pointer false (.hole 0)) := by decide
    refine acyclic_of_find_lt fun i hi x hx k hk ↦ ?_
    rw [hsize] at hi
    match i with
    | 0 =>
      rw [hzero] at hx
      obtain rfl := Option.some.inj hx
      exact nomatch hk
    | 1 =>
      rw [hone] at hx
      obtain rfl := Option.some.inj hx
      obtain rfl := List.mem_singleton.1 hk
      decide
  have hmain := unify_decides_solvability ht ha hb hacyclic
  exact ⟨hacyclic, hyes, hmain.1, (hmain.2.2 hyes).2⟩

end FrontEnd.Table
