import FrontEnd.Proofs.Table.Operations
import Mathlib.Order.Basic

/-!
# A table only gains information

An **action** is one thing that can be done to a table or asked of it, and a history is a list of
actions, whatever their answers are. Along a history no knowledge is lost (`Gains`): holes of one
class stay in one class, a limit only moves up in the order of limits, and a commitment is final.

Single steps and questions differ in what they may do to a class that is committed already. A limit
that is put on such a class directly makes its limit stricter. A question never gets that far: it
uncovers the heads of types first, and a head is a constructor or an open hole. So what questions
leave behind is made of steps between open classes (`Decides`), and those leave every committed
class as it was. That heads are open is where circles have to be excluded. It is enough to exclude
them from the last table, since no action takes one away.
-/

namespace FrontEnd

namespace HoleKind

/-- The order of limits: `null` is below `number`, and `number` is below `int` and `float`. -/
instance : PartialOrder HoleKind where
  le k l := k = l ∨ k = null ∨ k = number ∧ l ≠ null
  le_refl k := .inl rfl
  le_trans k l m := by cases k <;> cases l <;> cases m <;> simp
  le_antisymm k l := by cases k <;> cases l <;> simp

instance (k l : HoleKind) : Decidable (k ≤ l) :=
  inferInstanceAs (Decidable (k = l ∨ k = null ∨ k = number ∧ l ≠ null))

/-- **A limit is above another one** if it admits no more. -/
theorem le_of_admits {k l : HoleKind} (h : ∀ a, l.admits a = true → k.admits a = true) :
    k ≤ l := by
  -- one type of each sort tells all limits apart
  have hunit := h .unit
  have hint := h .i64
  have hfloat := h .f32
  cases k <;> cases l <;> revert hunit hint hfloat <;> decide

end HoleKind

namespace Table

variable {t u v : Table} {i j : Nat} {a b : Ty}

/-! ### What is never lost -/

/-- The table `u` knows all that `t` knows. -/
structure Gains (t u : Table) : Prop where
  /-- No hole is lost. -/
  size_le : t.size ≤ u.size
  /-- Holes of one class stay in one class. -/
  find_eq : ∀ {i j}, t.find i = t.find j → u.find i = u.find j
  /-- Limits only move up. -/
  kind_le : ∀ {i}, i < t.size → t.kind i ≤ u.kind i
  /-- A commitment is final. -/
  type?_eq : ∀ {i a}, t.type? i = some a → u.type? i = some a

namespace Gains

theorem refl (t : Table) : Gains t t :=
  ⟨Nat.le_refl _, id, fun _ ↦ le_refl _, id⟩

theorem trans (h : Gains t u) (h' : Gains u v) : Gains t v where
  size_le := Nat.le_trans h.size_le h'.size_le
  find_eq hij := h'.find_eq (h.find_eq hij)
  kind_le hi := le_trans (h.kind_le hi) (h'.kind_le (Nat.lt_of_lt_of_le hi h.size_le))
  type?_eq ha := h'.type?_eq (h.type?_eq ha)

theorem of_fresh (t : Table) (k : HoleKind) : Gains t (t.fresh k) where
  size_le := by rw [size_fresh]; exact Nat.le_succ _
  find_eq hij := by rw [find_fresh, find_fresh, hij]
  kind_le hi := by rw [kind, kind, classOf_fresh, if_neg (Nat.ne_of_lt hi)]
  type?_eq ha := by
    rw [type?, classOf_fresh, if_neg (Nat.ne_of_lt (lt_size_of_type? ha))]
    exact ha

theorem of_step {c : HoleClass} (h : t.Step i j c u) : Gains t u where
  size_le := Nat.le_of_eq h.size_eq.symm
  find_eq := h.find_eq_of_find_eq
  kind_le _ := HoleKind.le_of_admits (h.refines _).admits
  type?_eq := h.type?_mono

theorem of_becomes {Q : Ty → Prop} (h : Becomes Q t u) : Gains t u := by
  induction h with
  | refl => exact refl t
  | tail _ hstep ih =>
    obtain ⟨i, j, c, hstep, -⟩ := hstep
    exact ih.trans (of_step hstep)

/-- **A circle of commitments is never undone.** -/
theorem acyclic (h : Gains t u) (hu : u.Acyclic) : t.Acyclic := by
  intro i hcycle
  have hmono : ∀ k l, t.Mentions k l → u.Mentions k l := by
    rintro k l ⟨a, ha, m, hm, hml⟩
    exact ⟨a, h.type?_eq ha, m, hm, h.find_eq hml⟩
  exact hu i (Relation.TransGen.mono hmono _ _ hcycle)

end Gains

/-! ### Deciding what is open -/

/-- The table `u` comes out of `t` by steps between **open** classes. -/
def Decides : Table → Table → Prop :=
  Relation.ReflTransGen fun t u ↦
    ∃ i j c, t.Step i j c u ∧ t.type? i = none ∧ t.type? j = none

namespace Decides

theorem refl (t : Table) : Decides t t :=
  Relation.ReflTransGen.refl

theorem trans (h : Decides t u) (h' : Decides u v) : Decides t v :=
  Relation.ReflTransGen.trans h h'

theorem of_step {c : HoleClass} (h : t.Step i j c u) (hi : t.type? i = none)
    (hj : t.type? j = none) : Decides t u :=
  Relation.ReflTransGen.single ⟨i, j, c, h, hi, hj⟩

/-- **Nothing changes about a committed class**, not even its limit. -/
theorem classOf_eq (h : Decides t u) (hi : t.type? i = some a) : u.classOf i = t.classOf i := by
  induction h with
  | refl => rfl
  | @tail v w _ hstep ih =>
    obtain ⟨k, l, c, hstep, hk, hl⟩ := hstep
    have hv : v.type? i = some a := by rw [type?, ih]; exact hi
    have hne : ∀ {m}, v.type? m = none → v.find i ≠ v.find m := by
      intro m hm heq
      rw [type?_congr heq, hm] at hv
      cases hv
    rw [hstep.classOf_of_not_mem (hne hk) (hne hl), ih]

end Decides

theorem decides_commit? (hi : i < t.size) : Decides t (t.orElseSame (t.commit? i a)).2 := by
  cases h : t.commit? i a with
  | none => exact .refl t
  | some u =>
    have hopen := (commit?_eq_some_iff.1 h).1
    exact .of_step (step_commit? hi h) hopen hopen

/-- An uncovered hole is an open hole of the table. -/
theorem HeadsTo.vacant_of_hole (h : t.HeadsTo a (.hole i)) : i < t.size ∧ t.type? i = none := by
  generalize hb : Ty.hole i = b at h
  induction h with
  | known hne => exact absurd hb.symm (hne i)
  | vacant hj hnone =>
    obtain rfl := Ty.hole.inj hb
    exact ⟨find_lt hj, by rw [type?_find, hnone]⟩
  | committed _ _ _ ih => exact ih hb

theorem decides_requireLimit (ht : t.Valid) (hacyclic : t.Acyclic) (ha : t.Covers a)
    (k : HoleKind) : Decides t (t.requireLimit k a).2 := by
  rcases requireLimit_cases ht ha k with h | ⟨i, hhead, hi, h⟩
  · rw [h]
    exact .refl t
  · have hopen := type?_of_head ht hacyclic ha hhead
    obtain ⟨l, -, hstep⟩ := step_limit? hi h
    exact .of_step hstep hopen hopen

theorem decides_settleAll (t : Table) : Decides t t.settleAll := by
  refine settleAll_induction (P := Decides t) (.refl t) ?_
  intro u v i a hu _ hi hopen _ hcommit
  exact hu.trans (.of_step (step_commit? hi hcommit) hopen hopen)

section Unify

variable [RootChoice]

theorem decides_join? (hi : i < t.size) (hj : j < t.size) (hiopen : t.type? i = none)
    (hjopen : t.type? j = none) : Decides t (t.orElseSame (t.join? i j)).2 := by
  cases h : t.join? i j with
  | none => exact .refl t
  | some u =>
    rcases step_join? hi hj h with ⟨-, rfl⟩ | ⟨c, -, hstep, -⟩
    · exact .refl u
    · exact .of_step hstep hiopen hjopen

mutual

/-- **A run of unification decides open classes only**, whether it succeeds or fails. -/
theorem UnifiesTo.decides : ∀ {t : Table} {a b : Ty} {r : Bool × Table}, UnifiesTo t a b r →
    Decides t r.2
  | _, _, _, _, .join ha hb =>
    decides_join? ha.vacant_of_hole.1 hb.vacant_of_hole.1 ha.vacant_of_hole.2 hb.vacant_of_hole.2
  | _, _, _, _, .commitLeft ha _ _ => decides_commit? ha.vacant_of_hole.1
  | _, _, _, _, .commitRight _ hb _ => decides_commit? hb.vacant_of_hole.1
  | _, _, _, _, .pointer _ _ h => h.decides
  | _, _, _, _, .func _ _ _ hps h => hps.decides.trans h.decides
  | _, _, _, _, .params _ _ _ hps => hps.decides
  | t, _, _, _, .other .. => .refl t

theorem UnifiesAllTo.decides : ∀ {t : Table} {as bs : List Ty} {r : Bool × Table},
    UnifiesAllTo t as bs r → Decides t r.2
  | t, _, _, _, .nil => .refl t
  | _, _, _, _, .cons h hs => h.decides.trans hs.decides
  | _, _, _, _, .stop h => h.decides

end

theorem decides_unify (ht : t.Valid) (ha : t.Covers a) (hb : t.Covers b)
    (hacyclic : (t.unify a b).2.Acyclic) : Decides t (t.unify a b).2 :=
  (complete_unify ht ha hb hacyclic).run.decides

theorem decides_cast (ht : t.Valid) {dest src : Ty} (hdest : t.Covers dest) (hsrc : t.Covers src)
    (hacyclic : (t.cast dest src).2.Acyclic) : Decides t (t.cast dest src).2 := by
  have hacyclic₀ : t.Acyclic := (becomes_cast ht hdest hsrc).acyclic hacyclic
  have hdest' := covers_head ht hdest
  have hsrc' := covers_head ht hsrc
  by_cases h : ∃ i, t.head src = .hole i
  · obtain ⟨i, hi⟩ := h
    have hlt := lt_size_of_head ht hsrc hi
    have hopen := type?_of_head ht hacyclic₀ hsrc hi
    rw [cast_of_hole hi]
    rcases castHole_cases t (t.head dest) i with h | h | h
    · rw [h]
      exact .refl t
    · exact .of_step (step_commit? hlt h) hopen hopen
    · obtain ⟨l, -, hstep⟩ := step_limit? hlt h
      exact .of_step hstep hopen hopen
  · rw [cast_of_known fun i hi ↦ h ⟨i, hi⟩] at hacyclic ⊢
    rcases castKnown_cases t (t.head dest) (t.head src) with
      ⟨ok, h, -⟩ | ⟨c, d, x, y, hx, hy, -, h⟩ | h
    · rw [h]
      exact .refl t
    · rw [h] at hacyclic ⊢
      rw [hx] at hsrc'
      rw [hy] at hdest'
      exact decides_unify ht hsrc' hdest' hacyclic
    · rw [h] at hacyclic ⊢
      exact decides_unify ht hdest' hsrc' hacyclic

end Unify

/-! ### Actions -/

/-- Something that is done to a table or asked of it. -/
inductive Action where
  | fresh (kind : HoleKind)
  | join (i j : Nat)
  | commit (i : Nat) (a : Ty)
  | limit (i : Nat) (kind : HoleKind)
  | settleAll
  | unify (a b : Ty)
  | convert (expected actual : Ty)
  | cast (dest src : Ty)
  | requireNumber (a : Ty)
  | requireInteger (a : Ty)
deriving DecidableEq, Repr

namespace Action

/-- The action speaks of holes of a table only. -/
def Within (t : Table) : Action → Prop
  | fresh _ | settleAll => True
  | join i j => i < t.size ∧ j < t.size
  | commit i a => i < t.size ∧ t.Covers a
  | limit i _ => i < t.size
  | unify a b | convert a b | cast a b => t.Covers a ∧ t.Covers b
  | requireNumber a | requireInteger a => t.Covers a

instance (t : Table) (x : Action) : Decidable (x.Within t) :=
  match x with
  | fresh _ | settleAll => inferInstanceAs (Decidable True)
  | join i j => inferInstanceAs (Decidable (i < t.size ∧ j < t.size))
  | commit i a => inferInstanceAs (Decidable (i < t.size ∧ t.Covers a))
  | limit i _ => inferInstanceAs (Decidable (i < t.size))
  | unify a b | convert a b | cast a b => inferInstanceAs (Decidable (t.Covers a ∧ t.Covers b))
  | requireNumber a | requireInteger a => inferInstanceAs (Decidable (t.Covers a))

/-- Whether the action is a single step, which happens or does not. -/
def isStep : Action → Bool
  | join .. | commit .. | limit .. => true
  | _ => false

/-- Whether the action is a question about types, or takes the defaults. -/
def isQuestion : Action → Bool
  | settleAll | unify .. | convert .. | cast .. | requireNumber _ | requireInteger _ => true
  | _ => false

end Action

section Histories

variable [RootChoice]

/-- The answer to an action, and the table as it is then. A hole can always be made, and defaults
can always be taken. -/
def act (t : Table) : Action → Bool × Table
  | .fresh k => (true, t.fresh k)
  | .join i j => t.orElseSame (t.join? i j)
  | .commit i a => t.orElseSame (t.commit? i a)
  | .limit i k => t.orElseSame (t.limit? i k)
  | .settleAll => (true, t.settleAll)
  | .unify a b => t.unify a b
  | .convert expected actual => t.convert expected actual
  | .cast dest src => t.cast dest src
  | .requireNumber a => t.requireNumber a
  | .requireInteger a => t.requireInteger a

/-- The table that a history leaves behind. -/
def acts (t : Table) (xs : List Action) : Table :=
  xs.foldl (fun u x ↦ (u.act x).2) t

/-- Every action of a history speaks of holes of the table as it is then. -/
def AllWithin (t : Table) : List Action → Prop
  | [] => True
  | x :: xs => x.Within t ∧ AllWithin (t.act x).2 xs

instance decidableAllWithin : ∀ (t : Table) (xs : List Action), Decidable (t.AllWithin xs)
  | _, [] => inferInstanceAs (Decidable True)
  | t, x :: xs =>
    have := decidableAllWithin (t.act x).2 xs
    inferInstanceAs (Decidable (x.Within t ∧ (t.act x).2.AllWithin xs))

/-! ### Histories -/

theorem acts_append (t : Table) (xs ys : List Action) :
    t.acts (xs ++ ys) = (t.acts xs).acts ys := by
  rw [acts, List.foldl_append]
  rfl

theorem allWithin_append {xs ys : List Action} :
    ∀ {t : Table}, t.AllWithin (xs ++ ys) ↔ t.AllWithin xs ∧ (t.acts xs).AllWithin ys := by
  induction xs with
  | nil => exact ⟨fun h ↦ ⟨trivial, h⟩, And.right⟩
  | cons x xs ih =>
    intro t
    exact (and_congr_right fun _ ↦ ih).trans and_assoc.symm

/-- What an action does to the classes there are is a sequence of steps. -/
theorem becomes_act (ht : t.Valid) {x : Action} (hx : x.Within t) :
    (∃ k, x = .fresh k) ∨ Becomes t.Covers t (t.act x).2 := by
  cases x with
  | fresh k => exact .inl ⟨k, rfl⟩
  | join i j => exact .inr (becomes_join? hx.1 hx.2 ht.covers)
  | commit i a => exact .inr (becomes_commit? hx.1 hx.2)
  | limit i k => exact .inr (becomes_limit? hx ht.covers)
  | settleAll => exact .inr (becomes_settleAll t)
  | unify a b => exact .inr (becomes_unify ht hx.1 hx.2)
  | convert a b => exact .inr (becomes_unify ht hx.1 hx.2)
  | cast a b => exact .inr (becomes_cast ht hx.1 hx.2)
  | requireNumber a =>
    rw [act, requireNumber_eq]
    exact .inr (becomes_requireLimit ht hx _)
  | requireInteger a =>
    rw [act, requireInteger_eq]
    exact .inr (becomes_requireLimit ht hx _)

/-- **One action** keeps a table valid and loses nothing. -/
theorem gains_act (ht : t.Valid) {x : Action} (hx : x.Within t) :
    (t.act x).2.Valid ∧ Gains t (t.act x).2 := by
  rcases becomes_act ht hx with ⟨k, rfl⟩ | h
  · exact ⟨ht.fresh k, .of_fresh t k⟩
  · exact ⟨h.valid ht fun _ h ↦ h, .of_becomes h⟩

/-- **A history** keeps a table valid and loses nothing. -/
theorem gains_acts {xs : List Action} :
    ∀ {t : Table}, t.Valid → t.AllWithin xs → (t.acts xs).Valid ∧ Gains t (t.acts xs) := by
  induction xs with
  | nil => exact fun {t} ht _ ↦ ⟨ht, .refl t⟩
  | cons x xs ih =>
    rintro t ht ⟨hx, hxs⟩
    obtain ⟨hvalid, hgains⟩ := gains_act ht hx
    obtain ⟨hvalid', hgains'⟩ := ih hvalid hxs
    exact ⟨hvalid', hgains.trans hgains'⟩

/-- A single step that fails changes nothing. -/
theorem act_eq_of_isStep {x : Action} (hx : x.isStep = true) (hfalse : (t.act x).1 = false) :
    (t.act x).2 = t := by
  have hsame : ∀ {u?}, (t.orElseSame u?).1 = false → (t.orElseSame u?).2 = t := by
    intro u? h
    rw [eq_none_of_orElseSame h]
    rfl
  cases x with
  | join i j => exact hsame hfalse
  | commit i a => exact hsame hfalse
  | limit i k => exact hsame hfalse
  | _ => cases hx

/-- **A question decides open classes only**, if it leaves no circle behind. -/
theorem decides_act (ht : t.Valid) {x : Action} (hx : x.Within t) (hquestion : x.isQuestion = true)
    (hacyclic : (t.act x).2.Acyclic) : Decides t (t.act x).2 := by
  have hacyclic₀ := (gains_act ht hx).2.acyclic hacyclic
  cases x with
  | settleAll => exact decides_settleAll t
  | unify a b => exact decides_unify ht hx.1 hx.2 hacyclic
  | convert a b => exact decides_unify ht hx.1 hx.2 hacyclic
  | cast a b => exact decides_cast ht hx.1 hx.2 hacyclic
  | requireNumber a =>
    rw [act, requireNumber_eq]
    exact decides_requireLimit ht hacyclic₀ hx _
  | requireInteger a =>
    rw [act, requireInteger_eq]
    exact decides_requireLimit ht hacyclic₀ hx _
  | _ => cases hquestion

/-- **A table only gains information.** Let `xs ++ ys` be any history of the empty table, each
action about holes there are at its time, that leaves no circle of commitments behind. Between the
table after `xs` and the one at the end

* two holes in one class stay in one class;
* a limit only moves up in the order of limits;
* a hole that is committed to a type stays committed to exactly that type.

In the table after `xs`, which is any moment of the history, the limits admit the commitments. And
the action that comes next changes nothing if it is a single step that fails, and no limit of a
class that is committed already if it is a question or takes the defaults. -/
theorem history_only_gains (xs ys : List Action) (hwithin : empty.AllWithin (xs ++ ys))
    (hacyclic : (empty.acts (xs ++ ys)).Acyclic) :
    let t := empty.acts xs
    let u := empty.acts (xs ++ ys)
    (∀ i j, i < t.size → j < t.size → t.find i = t.find j → u.find i = u.find j) ∧
      (∀ i < t.size, t.kind i ≤ u.kind i) ∧
      (∀ i a, t.type? i = some a → u.type? i = some a) ∧
      (∀ i a, t.type? i = some a → (t.kind i).admits a = true) ∧
      ∀ x ∈ ys.head?,
        (x.isStep = true → (t.act x).1 = false → (t.act x).2 = t) ∧
          (x.isQuestion = true → ∀ i a, t.type? i = some a → (t.act x).2.kind i = t.kind i) := by
  intro t u
  obtain ⟨hxs, hys⟩ := allWithin_append.1 hwithin
  obtain ⟨ht, -⟩ := gains_acts valid_empty hxs
  have hgains : Gains t u := by
    rw [show u = t.acts ys from acts_append empty xs ys]
    exact (gains_acts ht hys).2
  refine ⟨fun i j _ _ ↦ hgains.find_eq, fun i hi ↦ hgains.kind_le hi, fun i a ↦ hgains.type?_eq,
    fun i a ↦ ht.admits, fun x hx ↦ ⟨act_eq_of_isStep, fun hquestion i a hi ↦ ?_⟩⟩
  obtain ⟨zs, rfl⟩ : ∃ zs, ys = x :: zs := List.head?_eq_some_iff.1 hx
  obtain ⟨hx, hzs⟩ := hys
  -- the table after the question is free of circles because the last one is
  have hlater : Gains (t.act x).2 u := by
    rw [show u = (t.act x).2.acts zs from acts_append empty xs (x :: zs)]
    exact (gains_acts (gains_act ht hx).1 hzs).2
  have hdecides := decides_act ht hx hquestion (hlater.acyclic hacyclic)
  rw [kind, hdecides.classOf_eq hi, kind]

end Histories

/-- A pointer is decided for an unlimited hole. Merging the hole with the number it points at fails
then, and that number becomes an integer and takes its default in the end. -/
theorem history_only_gains_pointer :
    let xs : List Action := [.fresh .number, .fresh .null,
      .unify (.hole 1) (.pointer false (.hole 0))]
    let ys : List Action := [.join 0 1, .requireInteger (.hole 0), .settleAll]
    let t := empty.acts xs
    let u := empty.acts (xs ++ ys)
    empty.AllWithin (xs ++ ys) ∧ u.Acyclic ∧ t.type? 1 = some (.pointer false (.hole 0)) ∧
      u.type? 1 = some (.pointer false (.hole 0)) ∧ t.kind 0 = .number ∧ t.kind 0 ≤ u.kind 0 ∧
      (t.act (.join 0 1)).1 = false ∧ (t.act (.join 0 1)).2 = t := by
  intro xs ys t u
  have hwithin : empty.AllWithin (xs ++ ys) := by decide
  have hone : t.type? 1 = some (.pointer false (.hole 0)) := by decide
  have hfails : (t.act (.join 0 1)).1 = false := by decide
  have hacyclic : u.Acyclic := by
    have hlt : ∀ i < u.size, ∀ a ∈ u.type? i, ∀ k ∈ a.holes, u.find k < u.find i := by decide
    exact acyclic_of_find_lt hlt
  obtain ⟨-, hkind, htype, -, hnext⟩ := history_only_gains xs ys hwithin hacyclic
  exact ⟨hwithin, hacyclic, hone, htype 1 _ hone, by decide, hkind 0 (by decide), hfails,
    (hnext _ rfl).1 rfl hfails⟩

end Table

end FrontEnd
