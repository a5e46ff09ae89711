import FrontEnd.Ty.HoleKind
import FrontEnd.Ty.Printer

/-!
# The holes of a type

What the checker decides about a type it decides about the holes in it, so the lemmas below say how
the functions on types look from there: a type is concrete exactly if it has no holes, a
substitution is determined by what it does to the holes, and it adds at most the height of what it
puts in.

A **chain** is a type whose holes stand under pointers only. Every type that checking meets is one:
a literal has a bare hole, taking an address puts a pointer around a type, and nothing ever builds
the type of a function from the types of expressions.
-/

namespace FrontEnd.Ty

/-! ### Induction

Parameter lists make `Ty` a nested type. The rule below hands out the hypothesis for every parameter
at once, so that no proof has to come as a pair. -/

mutual

/-- **Induction on types**, with the hypothesis for all parameters of a function. -/
@[elab_as_elim]
theorem induct {P : Ty → Prop} (scalar : ∀ s, P (scalar s)) (unit : P unit)
    (pointer : ∀ c a, P a → P (pointer c a))
    (func : ∀ ps r, (∀ a ∈ ps, P a) → P r → P (func ps r)) (hole : ∀ i, P (hole i)) : ∀ a, P a
  | .scalar s => scalar s
  | .unit => unit
  | .pointer c a => pointer c a (induct scalar unit pointer func hole a)
  | .func ps r =>
    func ps r (inductAll scalar unit pointer func hole ps)
      (induct scalar unit pointer func hole r)
  | .hole i => hole i

theorem inductAll {P : Ty → Prop} (scalar : ∀ s, P (.scalar s)) (unit : P .unit)
    (pointer : ∀ c a, P a → P (.pointer c a))
    (func : ∀ ps r, (∀ a ∈ ps, P a) → P r → P (.func ps r)) (hole : ∀ i, P (.hole i)) :
    ∀ as : List Ty, ∀ a ∈ as, P a
  | [] => fun _ h ↦ nomatch h
  | a :: as =>
    List.forall_mem_cons.2
      ⟨induct scalar unit pointer func hole a, inductAll scalar unit pointer func hole as⟩

end

/-! ### Holes -/

mutual

/-- The holes of a type, from left to right. -/
def holes : Ty → List Nat
  | pointer _ a => a.holes
  | func ps r => holesAll ps ++ r.holes
  | hole i => [i]
  | _ => []

/-- The holes of the types of a list. -/
def holesAll : List Ty → List Nat
  | [] => []
  | a :: as => a.holes ++ holesAll as

end

@[simp] theorem holes_scalar (s : Scalar) : (scalar s).holes = [] := rfl

@[simp] theorem holes_unit : unit.holes = [] := rfl

@[simp] theorem holes_pointer (c : Bool) (a : Ty) : (pointer c a).holes = a.holes := rfl

@[simp] theorem holes_hole (i : Nat) : (hole i).holes = [i] := rfl

theorem holesAll_eq_flatMap (as : List Ty) : holesAll as = as.flatMap holes := by
  induction as with
  | nil => rfl
  | cons a as ih => rw [holesAll, ih, List.flatMap_cons]

/-- The holes of a function are those of its parameters and of its result. -/
theorem mem_holes_func {ps : List Ty} {r : Ty} {i : Nat} :
    i ∈ (func ps r).holes ↔ (∃ a ∈ ps, i ∈ a.holes) ∨ i ∈ r.holes := by
  show i ∈ holesAll ps ++ r.holes ↔ _
  rw [List.mem_append, holesAll_eq_flatMap, List.mem_flatMap]

theorem allConcrete_iff {as : List Ty} : allConcrete as = true ↔ ∀ a ∈ as, a.isConcrete = true := by
  induction as with
  | nil => simp [allConcrete]
  | cons a as ih => simp [allConcrete, ih]

/-- A function is concrete if its parameters and its result are. -/
theorem isConcrete_func {ps : List Ty} {r : Ty} :
    (func ps r).isConcrete = true ↔ (∀ a ∈ ps, a.isConcrete = true) ∧ r.isConcrete = true := by
  show (allConcrete ps && r.isConcrete) = true ↔ _
  rw [Bool.and_eq_true, allConcrete_iff]

/-- **A type is concrete exactly if it has no holes.** -/
theorem isConcrete_iff_holes {a : Ty} : a.isConcrete = true ↔ a.holes = [] := by
  induction a using induct with
  | scalar s => exact iff_of_true rfl rfl
  | unit => exact iff_of_true rfl rfl
  | pointer c a ih => exact ih
  | func ps r ihps ihr =>
    rw [isConcrete_func, List.eq_nil_iff_forall_not_mem, ihr]
    constructor
    · rintro ⟨hps, hr⟩ i hi
      rcases mem_holes_func.1 hi with ⟨a, ha, hia⟩ | hir
      · rw [(ihps a ha).1 (hps a ha)] at hia
        exact absurd hia List.not_mem_nil
      · rw [hr] at hir
        exact absurd hir List.not_mem_nil
    · intro h
      refine ⟨fun a ha ↦ (ihps a ha).2 ?_, ?_⟩
      · exact List.eq_nil_iff_forall_not_mem.2 fun i hi ↦
          h i (mem_holes_func.2 (.inl ⟨a, ha, hi⟩))
      · exact List.eq_nil_iff_forall_not_mem.2 fun i hi ↦ h i (mem_holes_func.2 (.inr hi))
  | hole i => simp [isConcrete]

theorem not_mem_holes_of_isConcrete {a : Ty} (h : a.isConcrete = true) (i : Nat) :
    i ∉ a.holes := by
  rw [isConcrete_iff_holes.1 h]
  exact List.not_mem_nil

/-! ### Substitution -/

@[simp] theorem subst_scalar (f : Nat → Ty) (s : Scalar) : (scalar s).subst f = scalar s := rfl

@[simp] theorem subst_unit (f : Nat → Ty) : unit.subst f = unit := rfl

@[simp] theorem subst_pointer (f : Nat → Ty) (c : Bool) (a : Ty) :
    (pointer c a).subst f = pointer c (a.subst f) := rfl

@[simp] theorem subst_hole (f : Nat → Ty) (i : Nat) : (hole i).subst f = f i := rfl

@[simp] theorem subst_func (f : Nat → Ty) (ps : List Ty) (r : Ty) :
    (func ps r).subst f = func (ps.map (subst f)) (r.subst f) := by
  show func (substAll f ps) (r.subst f) = _
  rw [substAll_eq_map]

/-- **A substitution is determined by what it does to the holes.** -/
theorem subst_congr {f g : Nat → Ty} {a : Ty} (h : ∀ i ∈ a.holes, f i = g i) :
    a.subst f = a.subst g := by
  induction a using induct with
  | scalar s => rfl
  | unit => rfl
  | pointer c a ih => rw [subst_pointer, subst_pointer, ih h]
  | func ps r ihps ihr =>
    rw [subst_func, subst_func, ihr fun i hi ↦ h i (mem_holes_func.2 (.inr hi))]
    have hps : ps.map (subst f) = ps.map (subst g) := List.map_congr_left fun a ha ↦
      ihps a ha fun i hi ↦ h i (mem_holes_func.2 (.inl ⟨a, ha, hi⟩))
    rw [hps]
  | hole i => exact h i (List.mem_singleton.2 rfl)

/-- Two substitutions one behind another are one. -/
theorem subst_subst (f g : Nat → Ty) (a : Ty) :
    (a.subst f).subst g = a.subst fun i ↦ (f i).subst g := by
  induction a using induct with
  | scalar s => rfl
  | unit => rfl
  | pointer c a ih => rw [subst_pointer, subst_pointer, subst_pointer, ih]
  | func ps r ihps ihr =>
    rw [subst_func, subst_func, subst_func, ihr, List.map_map]
    have hps : ps.map (subst g ∘ subst f) = ps.map (subst fun i ↦ (f i).subst g) :=
      List.map_congr_left ihps
    rw [hps]
  | hole i => rfl

theorem subst_hole_self (a : Ty) : a.subst hole = a := by
  induction a using induct with
  | scalar s => rfl
  | unit => rfl
  | pointer c a ih => rw [subst_pointer, ih]
  | func ps r ihps ihr =>
    rw [subst_func, ihr, List.map_congr_left (g := id) ihps, List.map_id]
  | hole i => rfl

/-- A type without holes is the same under every substitution. -/
theorem subst_of_isConcrete {a : Ty} (h : a.isConcrete = true) (f : Nat → Ty) : a.subst f = a := by
  rw [subst_congr (g := hole) fun i hi ↦ absurd hi (not_mem_holes_of_isConcrete h i),
    subst_hole_self]

/-- The holes behind a substitution are those of what stands for the holes before it. -/
theorem mem_holes_subst {f : Nat → Ty} {a : Ty} {j : Nat} :
    j ∈ (a.subst f).holes ↔ ∃ i ∈ a.holes, j ∈ (f i).holes := by
  induction a using induct with
  | scalar s => simp
  | unit => simp
  | pointer c a ih => exact ih
  | func ps r ihps ihr =>
    rw [subst_func, mem_holes_func, ihr]
    constructor
    · rintro (⟨b, hb, hj⟩ | ⟨i, hi, hj⟩)
      · obtain ⟨a, ha, rfl⟩ := List.mem_map.1 hb
        obtain ⟨i, hi, hj⟩ := (ihps a ha).1 hj
        exact ⟨i, mem_holes_func.2 (.inl ⟨a, ha, hi⟩), hj⟩
      · exact ⟨i, mem_holes_func.2 (.inr hi), hj⟩
    · rintro ⟨i, hi, hj⟩
      rcases mem_holes_func.1 hi with ⟨a, ha, hia⟩ | hir
      · exact .inl ⟨a.subst f, List.mem_map_of_mem ha, (ihps a ha).2 ⟨i, hia, hj⟩⟩
      · exact .inr ⟨i, hir, hj⟩
  | hole i => simp

/-- A substitution that leaves no holes gives a type without holes. -/
theorem isConcrete_subst {f : Nat → Ty} {a : Ty} (h : ∀ i ∈ a.holes, (f i).isConcrete = true) :
    (a.subst f).isConcrete = true := by
  rw [isConcrete_iff_holes, List.eq_nil_iff_forall_not_mem]
  intro j hj
  obtain ⟨i, hi, hji⟩ := mem_holes_subst.1 hj
  exact not_mem_holes_of_isConcrete (h i hi) j hji

/-- The text of a type is determined by the texts of its holes. -/
theorem render_congr {f g : Nat → String} {a : Ty} (h : ∀ i ∈ a.holes, f i = g i) :
    a.render f = a.render g := by
  induction a using induct with
  | scalar s => rfl
  | unit => rfl
  | pointer c a ih => cases c <;> rw [render, render, ih h]
  | func ps r ihps ihr =>
    rw [render, render, renderAll_eq_map, renderAll_eq_map,
      ihr fun i hi ↦ h i (mem_holes_func.2 (.inr hi))]
    have hps : ps.map (render f) = ps.map (render g) := List.map_congr_left fun a ha ↦
      ihps a ha fun i hi ↦ h i (mem_holes_func.2 (.inl ⟨a, ha, hi⟩))
    rw [hps]
  | hole i => exact h i (List.mem_singleton.2 rfl)

/-! ### The two printers -/

/-- The first of several texts has no comma in front of it, and all others have one. -/
theorem intercalate_params (s : String) (ss : List String) :
    ", ".intercalate (s :: ss) = s ++ moreParams ss := by
  induction ss generalizing s with
  | nil => rw [String.intercalate_singleton, moreParams, String.append_empty]
  | cons t ss ih =>
    rw [String.intercalate_cons_cons, ih, moreParams]
    simp only [String.append_assoc]

/-- One parameter stands alone, and any other number between parentheses with commas. -/
theorem textParams_eq (ss : List String) : textParams ss = renderParams ss := by
  match ss with
  | [] => rfl
  | [only] => rfl
  | s :: t :: ss =>
    have hmany : renderParams (s :: t :: ss) = "(" ++ ", ".intercalate (s :: t :: ss) ++ ")" := rfl
    rw [hmany, intercalate_params, ← String.append_assoc]
    rfl

/-- **A type is printed by itself as it is in a message.** -/
theorem textBy_eq_render (name : Nat → String) (a : Ty) : a.textBy name = a.render name := by
  induction a using induct with
  | scalar s => rfl
  | unit => rfl
  | pointer c a ih => cases c <;> rw [textBy, render, ih] <;> rfl
  | func ps r ihps ihr =>
    have hps : ps.map (textBy name) = ps.map (render name) := List.map_congr_left ihps
    rw [textBy, render, textAll_eq_map, renderAll_eq_map, textParams_eq, hps, ihr]
  | hole i => rfl

/-- The text of a type is what is printed of it if holes are shown as such. -/
theorem text_eq_render (a : Ty) : a.text = a.render holeText :=
  textBy_eq_render holeText a

/-- A substitution keeps the outermost constructor of everything but a hole, so it keeps what a
limit admits. -/
theorem admits_subst {a : Ty} (h : ∀ i, a ≠ hole i) (f : Nat → Ty) (k : HoleKind) :
    k.admits (a.subst f) = k.admits a := by
  cases a with
  | hole i => exact absurd rfl (h i)
  | _ => cases k <;> rfl

/-! ### Height -/

/-- The greatest height of several types is bounded by what bounds them all. -/
theorem maxHeight_le_iff {as : List Ty} {n : Nat} : maxHeight as ≤ n ↔ ∀ a ∈ as, a.height ≤ n := by
  induction as with
  | nil => simp [maxHeight]
  | cons a as ih => rw [maxHeight, Nat.max_le, ih, List.forall_mem_cons]

theorem height_pos (a : Ty) : 0 < a.height := by
  cases a <;> simp [height]

/-- Parameters are lower than their function, and so is its result. -/
theorem height_param_lt {ps : List Ty} {r a : Ty} (h : a ∈ ps) : a.height < (func ps r).height := by
  have hle : a.height ≤ maxHeight ps := maxHeight_le_iff.1 (Nat.le_refl _) a h
  show a.height < max (maxHeight ps) r.height + 1
  omega

theorem height_result_lt (ps : List Ty) (r : Ty) : r.height < (func ps r).height := by
  show r.height < max (maxHeight ps) r.height + 1
  omega

/-- The parts of a function, under an assignment, are lower than the function. -/
theorem height_parts_le {ps : List Ty} {r : Ty} {s : Nat → Ty} {n : Nat}
    (h : ((func ps r).subst s).height ≤ n + 1) :
    (∀ p ∈ ps, (p.subst s).height ≤ n) ∧ (r.subst s).height ≤ n := by
  rw [subst_func] at h
  refine ⟨fun p hp ↦ ?_, ?_⟩
  · have := height_param_lt (r := r.subst s) (List.mem_map_of_mem (f := subst s) hp)
    omega
  · have := height_result_lt (ps.map (subst s)) (r.subst s)
    omega

/-- **A substitution adds at most the height of what it puts in.** -/
theorem height_subst_le {f : Nat → Ty} {a : Ty} {n : Nat}
    (h : ∀ i ∈ a.holes, (f i).height ≤ n) : (a.subst f).height ≤ a.height + n := by
  induction a using induct with
  | scalar s => exact Nat.le_add_right _ _
  | unit => exact Nat.le_add_right _ _
  | pointer c a ih =>
    have := ih h
    show (a.subst f).height + 1 ≤ a.height + 1 + n
    omega
  | func ps r ihps ihr =>
    have hr := ihr fun i hi ↦ h i (mem_holes_func.2 (.inr hi))
    have hps : maxHeight (ps.map (subst f)) ≤ maxHeight ps + n := by
      refine maxHeight_le_iff.2 fun b hb ↦ ?_
      obtain ⟨a, ha, rfl⟩ := List.mem_map.1 hb
      have hle : a.height ≤ maxHeight ps := maxHeight_le_iff.1 (Nat.le_refl _) a ha
      have := ihps a ha fun i hi ↦ h i (mem_holes_func.2 (.inl ⟨a, ha, hi⟩))
      omega
    rw [subst_func]
    show max (maxHeight (ps.map (subst f))) (r.subst f).height + 1 ≤
      max (maxHeight ps) r.height + 1 + n
    omega
  | hole i =>
    have := h i (List.mem_singleton.2 rfl)
    show (f i).height ≤ 1 + n
    omega

/-! ### Chains -/

/-- Whether a type is a **chain**: no function in it has a hole. -/
def isChain : Ty → Bool
  | pointer _ a => a.isChain
  | func ps r => (func ps r).isConcrete
  | _ => true

theorem isChain_of_isConcrete {a : Ty} (h : a.isConcrete = true) : a.isChain = true := by
  induction a using induct with
  | pointer c a ih => exact ih h
  | func ps r _ _ => exact h
  | scalar s => rfl
  | unit => rfl
  | hole i => rfl

/-- Chains that are put in the place of the holes of a chain make up a chain. -/
theorem isChain_subst {f : Nat → Ty} {a : Ty} (hf : ∀ i ∈ a.holes, (f i).isChain = true)
    (ha : a.isChain = true) : (a.subst f).isChain = true := by
  induction a using induct with
  | pointer c a ih => exact ih hf ha
  | func ps r _ _ => rwa [subst_of_isConcrete ha]
  | scalar s => rfl
  | unit => rfl
  | hole i => exact hf i (List.mem_singleton.2 rfl)

end FrontEnd.Ty
