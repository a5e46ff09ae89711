import FrontEnd.Proofs.Ty.Labels

/-!
# What the text of a type tells

The text of a type has parentheses around the parameters of a function unless there is exactly one,
and none anywhere else. So a star in front of a function with one parameter reads like a star of the
parameter: a pointer to a function from `i32` and a function from `*i32` are both written `*i32 ->
i32`. That is the only way in which two flat types can look alike without being alike, holes apart,
of which the text tells no more than the limit.

The **apparent** type of a type (`Ty.apparent`) is the one that its text seems to name, with the
stars in front of such a function moved into it. Types with one apparent type have one text
(`Ty.chars_apparent`), and flat types with one text have one apparent type, unless they become equal
when their holes are filled (`Ty.apparent_eq_of_chars_eq`).
-/

namespace FrontEnd

theorem Scalar.name_injective : Function.Injective Scalar.name := by
  intro s t h
  have hs := ofName?_name s
  rw [h, ofName?_name] at hs
  exact (Option.some.inj hs).symm

/-- What stands in front of the first of some character is determined by the whole. -/
theorem eq_of_append_cons_eq {α : Type} {x : α} {l m l' m' : List α} (hl : x ∉ l) (hm : x ∉ m)
    (h : l ++ x :: l' = m ++ x :: m') : l = m ∧ l' = m' := by
  induction l generalizing m with
  | nil =>
    cases m with
    | nil => exact ⟨rfl, (List.cons.inj h).2⟩
    | cons y m => exact absurd ((List.cons.inj h).1 ▸ List.mem_cons_self) hm
  | cons y l ih =>
    cases m with
    | nil => exact absurd ((List.cons.inj h).1 ▸ List.mem_cons_self) hl
    | cons z m =>
      obtain ⟨rfl, htail⟩ := List.cons.inj h
      obtain ⟨rfl, rfl⟩ :=
        ih (List.not_mem_of_not_mem_cons hl) (List.not_mem_of_not_mem_cons hm) htail
      exact ⟨rfl, rfl⟩

theorem HoleKind.name_injective : Function.Injective HoleKind.name := by
  intro k l
  cases k <;> cases l <;> decide

namespace Ty

/-- To write a type in which holes have been replaced is to write the replacements. -/
theorem render_subst (name : Nat → String) (f : Nat → Ty) (a : Ty) :
    (a.subst f).render name = a.render fun i ↦ (f i).render name := by
  induction a using induct with
  | scalar s => rfl
  | unit => rfl
  | pointer c a ih => cases c <;> rw [subst_pointer, render, render, ih]
  | func ps r ihps ihr =>
    have hps : ps.map (render name ∘ subst f) = ps.map (render fun i ↦ (f i).render name) :=
      List.map_congr_left ihps
    rw [subst_func, render, render, renderAll_eq_map, renderAll_eq_map, List.map_map, ihr, hps]
  | hole i => rfl

/-! ### Characters -/

/-- The characters of a type in a message, in which a hole is named by its limit. -/
def chars (κ : Nat → HoleKind) (a : Ty) : List Char :=
  (a.render fun i ↦ (κ i).name).toList

/-- The characters in front of the element of a pointer. -/
def starChars : Bool → List Char
  | true => '*' :: "const ".toList
  | false => ['*']

/-- The characters of parameters, as written before the arrow. -/
def paramChars : List (List Char) → List Char
  | [only] => only
  | many => '(' :: ([',', ' '].intercalate many ++ [')'])

variable {κ : Nat → HoleKind} {a b r s : Ty} {ps qs : List Ty}

theorem chars_pointer (c : Bool) (a : Ty) : (pointer c a).chars κ = starChars c ++ a.chars κ := by
  cases c
  · exact String.toList_append
  · exact String.toList_append

theorem toList_renderParams (ss : List String) :
    (renderParams ss).toList = paramChars (ss.map String.toList) := by
  have hmany (ss : List String) : ("(" ++ ", ".intercalate ss ++ ")").toList =
      '(' :: ([',', ' '].intercalate (ss.map String.toList) ++ [')']) := by
    rw [String.toList_append, String.toList_append, String.toList_intercalate]
    rfl
  match ss with
  | [] => exact hmany []
  | [only] => rfl
  | s :: t :: ss => exact hmany (s :: t :: ss)

theorem chars_func (ps : List Ty) (r : Ty) : (func ps r).chars κ =
    (paramChars (ps.map (chars κ)) ++ [' ']) ++ '-' :: ('>' :: ' ' :: r.chars κ) := by
  have hps : (renderAll (fun i ↦ (κ i).name) ps).map String.toList = ps.map (chars κ) := by
    rw [renderAll_eq_map, List.map_map]
    rfl
  rw [chars, render, String.toList_append, String.toList_append, toList_renderParams, hps,
    List.append_assoc, List.append_assoc]
  rfl

/-! ### Labels -/

/-- Fixed texts are compared character by character, not by a search through all characters. -/
theorem notMem_of_all {l m : List Char} (h : l.all (· ∉ m) = true) : ∀ x ∈ l, x ∉ m :=
  fun x hx ↦ of_decide_eq_true (List.all_eq_true.1 h x hx)

/-- Characters that no label has. -/
def unlabelled : List Char :=
  ['(', ',', '-', 'y']

theorem notMem_chars_scalar (s : Scalar) : ∀ x ∈ '*' :: unlabelled, x ∉ (scalar s).chars κ := by
  have hall : ∀ s ∈ Scalar.all, ('*' :: unlabelled).all (· ∉ s.name.toList) = true := by decide
  exact notMem_of_all (hall s (Scalar.mem_all s))

theorem notMem_chars_of_isLabel (h : a.isLabel = true) : ∀ x ∈ unlabelled, x ∉ a.chars κ := by
  induction a using induct with
  | scalar s => exact fun x hx ↦ notMem_chars_scalar s x (List.mem_cons_of_mem _ hx)
  | pointer c a ih =>
    have hstar : ∀ x ∈ unlabelled, x ∉ starChars c := notMem_of_all (by cases c <;> decide)
    intro x hx hmem
    rw [chars_pointer] at hmem
    exact (List.mem_append.1 hmem).elim (hstar x hx) (ih h x hx)
  | _ => cases h

theorem chars_unit : unit.chars κ = ['(', ')'] := by
  rw [chars, render]
  rfl

theorem notMem_chars_of_isResult (h : a.isResult = true) : '-' ∉ a.chars κ := by
  cases a with
  | unit =>
    rw [chars_unit]
    decide
  | _ => exact notMem_chars_of_isLabel h _ (by decide)

theorem notMem_chars_unit : ∀ x ∈ ['*', 'y'], x ∉ unit.chars κ := by
  rw [chars_unit]
  exact notMem_of_all (by decide)

theorem chars_hole (i : Nat) :
    'y' ∈ (hole i).chars κ ∧ ∀ x ∈ ['*', '(', '-'], x ∉ (hole i).chars κ := by
  show 'y' ∈ (κ i).name.toList ∧ ∀ x ∈ ['*', '(', '-'], x ∉ (κ i).name.toList
  refine ⟨?_, notMem_of_all ?_⟩ <;> cases κ i <;> decide

/-- The characters that a flat type can start with. -/
def leads : List Char :=
  ['i', 'u', 'f', 'b', '*', '(']

theorem exists_lead_scalar (s : Scalar) :
    ∃ x l, (scalar s).chars κ = x :: l ∧ x ∈ leads := by
  have hall : ∀ s ∈ Scalar.all, s.name.toList.head?.any (· ∈ leads) = true := by decide
  obtain ⟨x, hx, hmem⟩ := (Option.any_eq_true _ _).1 (hall s (Scalar.mem_all s))
  obtain ⟨l, hl⟩ := List.head?_eq_some_iff.1 hx
  exact ⟨x, l, hl, of_decide_eq_true hmem⟩

theorem exists_lead_pointer (c : Bool) (a : Ty) : ∃ l, (pointer c a).chars κ = '*' :: l := by
  rw [chars_pointer]
  cases c
  · exact ⟨_, rfl⟩
  · exact ⟨_, rfl⟩

theorem exists_lead_of_isLabel (h : a.isLabel = true) :
    ∃ x l, a.chars κ = x :: l ∧ x ∈ leads := by
  cases a with
  | scalar s => exact exists_lead_scalar s
  | pointer c a =>
    obtain ⟨l, hl⟩ := exists_lead_pointer (κ := κ) c a
    exact ⟨'*', l, hl, by decide⟩
  | _ => cases h

theorem exists_lead (h : a.isFlat = true) : ∃ x l, a.chars κ = x :: l ∧ x ∈ leads := by
  cases a with
  | scalar s => exact exists_lead_scalar s
  | unit => exact ⟨'(', [')'], chars_unit, by decide⟩
  | pointer c a =>
    obtain ⟨l, hl⟩ := exists_lead_pointer (κ := κ) c a
    exact ⟨'*', l, hl, by decide⟩
  | func ps r =>
    rw [chars_func]
    match ps, (isSignature_func.1 h).1 with
    | [], _ => exact ⟨'(', _, rfl, by decide⟩
    | [p], hps =>
      obtain ⟨x, l, hl, hx⟩ := exists_lead_of_isLabel (κ := κ) (hps p List.mem_cons_self)
      exact ⟨x, _, by rw [List.map_cons, List.map_nil, paramChars, hl]; rfl, hx⟩
    | _ :: _ :: _, _ => exact ⟨'(', _, rfl, by decide⟩
  | hole i =>
    show ∃ x l, (κ i).name.toList = x :: l ∧ x ∈ leads
    cases κ i <;> exact ⟨'u', _, rfl, by decide⟩

/-- Nothing starts like `const`, so what stands behind a star tells whether `const` does. -/
theorem eq_of_chars_pointer_eq {c d : Bool} (ha : a.isFlat = true) (hb : b.isFlat = true)
    (h : (pointer c a).chars κ = (pointer d b).chars κ) : c = d ∧ a.chars κ = b.chars κ := by
  rw [chars_pointer, chars_pointer] at h
  obtain ⟨x, l, hl, hx⟩ := exists_lead (κ := κ) ha
  obtain ⟨y, m, hm, hy⟩ := exists_lead (κ := κ) hb
  have hx : x ≠ 'c' := fun heq ↦ absurd (heq ▸ hx) (by decide)
  have hy : y ≠ 'c' := fun heq ↦ absurd (heq ▸ hy) (by decide)
  cases c <;> cases d
  · exact ⟨rfl, List.append_cancel_left h⟩
  · rw [hl] at h
    exact absurd (List.cons.inj (List.cons.inj h).2).1 hx
  · rw [hm] at h
    exact absurd (List.cons.inj (List.cons.inj h).2).1.symm hy
  · exact ⟨rfl, List.append_cancel_left h⟩

/-- **The text of a label tells the label.** -/
theorem eq_of_chars_eq (ha : a.isLabel = true) (hb : b.isLabel = true)
    (h : a.chars κ = b.chars κ) : a = b := by
  have hscalar (s : Scalar) (c : Bool) (a : Ty) : (scalar s).chars κ ≠ (pointer c a).chars κ := by
    intro heq
    obtain ⟨l, hl⟩ := exists_lead_pointer (κ := κ) c a
    exact notMem_chars_scalar (κ := κ) s '*' (by decide) (heq ▸ hl ▸ List.mem_cons_self)
  induction a using induct generalizing b with
  | scalar s =>
    cases b with
    | scalar t => exact congrArg scalar (Scalar.name_injective (String.toList_inj.1 h))
    | pointer d b => exact absurd h (hscalar s d b)
    | _ => cases hb
  | pointer c a ih =>
    cases b with
    | scalar t => exact absurd h.symm (hscalar t c a)
    | pointer d b =>
      obtain ⟨hcd, helem⟩ := eq_of_chars_pointer_eq (a := a) (b := b) (isFlat_of_isLabel ha)
        (isFlat_of_isLabel hb) h
      rw [hcd, ih (b := b) ha hb helem]
    | _ => cases hb
  | _ => cases ha

/-! ### Signatures -/

theorem isResult_cases (h : a.isResult = true) : a = unit ∨ a.isLabel = true := by
  cases a with
  | unit => exact .inl rfl
  | _ => exact .inr h

theorem eq_of_chars_eq_of_isResult (ha : a.isResult = true) (hb : b.isResult = true)
    (h : a.chars κ = b.chars κ) : a = b := by
  have hunit {a : Ty} (ha : a.isLabel = true) : a.chars κ ≠ unit.chars κ := by
    rw [chars_unit]
    exact fun heq ↦ notMem_chars_of_isLabel (κ := κ) ha '(' (by decide) (by simp [heq])
  rcases isResult_cases ha with rfl | ha
  · rcases isResult_cases hb with rfl | hb
    · rfl
    · exact absurd h.symm (hunit hb)
  · rcases isResult_cases hb with rfl | hb
    · exact absurd h (hunit ha)
    · exact eq_of_chars_eq ha hb h

/-- A word of a row of parameters. -/
def IsWord (w : List Char) : Prop :=
  w ≠ [] ∧ '(' ∉ w ∧ ',' ∉ w

theorem isWord_of_isLabel (h : a.isLabel = true) : IsWord (a.chars κ) := by
  obtain ⟨x, l, hl, -⟩ := exists_lead_of_isLabel (κ := κ) h
  exact ⟨hl ▸ List.cons_ne_nil x l, notMem_chars_of_isLabel h _ (by decide),
    notMem_chars_of_isLabel h _ (by decide)⟩

theorem intercalate_cons (w v : List Char) (vs : List (List Char)) :
    [',', ' '].intercalate (w :: v :: vs) =
      w ++ ',' :: (' ' :: [',', ' '].intercalate (v :: vs)) := by
  rw [List.intercalate_cons_cons, List.append_assoc]
  rfl

/-- Words with commas between them tell the words. -/
theorem eq_of_intercalate_eq {ws vs : List (List Char)} (hws : ∀ w ∈ ws, IsWord w)
    (hvs : ∀ v ∈ vs, IsWord v) (h : [',', ' '].intercalate ws = [',', ' '].intercalate vs) :
    ws = vs := by
  have hnil {w : List Char} {ws : List (List Char)} (hw : IsWord w) :
      [',', ' '].intercalate (w :: ws) ≠ [] := by
    cases ws with
    | nil => simpa using hw.1
    | cons v ws => simp
  have hsingle {w v u : List Char} {us : List (List Char)} (hw : IsWord w) :
      [',', ' '].intercalate [w] ≠ [',', ' '].intercalate (v :: u :: us) := by
    rw [List.intercalate_singleton, intercalate_cons]
    exact fun heq ↦ hw.2.2 (heq ▸ List.mem_append_right _ List.mem_cons_self)
  induction ws generalizing vs with
  | nil =>
    cases vs with
    | nil => rfl
    | cons v vs => exact absurd h.symm (hnil (hvs v List.mem_cons_self))
  | cons w ws ih =>
    obtain ⟨hw, hws⟩ := List.forall_mem_cons.1 hws
    cases vs with
    | nil => exact absurd h (hnil hw)
    | cons v vs =>
      obtain ⟨hv, hvs⟩ := List.forall_mem_cons.1 hvs
      cases ws with
      | nil =>
        cases vs with
        | nil => rw [List.intercalate_singleton, List.intercalate_singleton] at h; rw [h]
        | cons u vs => exact absurd h (hsingle hw)
      | cons u ws =>
        cases vs with
        | nil => exact absurd h.symm (hsingle hv)
        | cons u' vs =>
          rw [intercalate_cons, intercalate_cons] at h
          obtain ⟨hwv, hmore⟩ := eq_of_append_cons_eq hw.2.2 hv.2.2 h
          rw [hwv, ih hws hvs (List.cons.inj hmore).2]

/-- One parameter stands alone, and any other number in parentheses. -/
theorem paramChars_cases (ws : List (List Char)) : (∃ w, ws = [w]) ∨
    paramChars ws = '(' :: ([',', ' '].intercalate ws ++ [')']) := by
  match ws with
  | [] => exact .inr rfl
  | [w] => exact .inl ⟨w, rfl⟩
  | _ :: _ :: _ => exact .inr rfl

theorem eq_of_paramChars_eq {ws vs : List (List Char)} (hws : ∀ w ∈ ws, IsWord w)
    (hvs : ∀ v ∈ vs, IsWord v) (h : paramChars ws = paramChars vs) : ws = vs := by
  have hsingle {w l : List Char} (hw : ∀ v ∈ [w], IsWord v) : paramChars [w] ≠ '(' :: l := by
    intro heq
    have hw := (hw w List.mem_cons_self).2.1
    rw [show w = '(' :: l from heq] at hw
    exact hw List.mem_cons_self
  rcases paramChars_cases ws with ⟨w, rfl⟩ | hws'
  · rcases paramChars_cases vs with ⟨v, rfl⟩ | hvs'
    · exact congrArg (fun w ↦ [w]) h
    · exact absurd (h.trans hvs') (hsingle hws)
  · rcases paramChars_cases vs with ⟨v, rfl⟩ | hvs'
    · exact absurd (h.symm.trans hws') (hsingle hvs)
    · rw [hws', hvs'] at h
      exact eq_of_intercalate_eq hws hvs (List.append_cancel_right (List.cons.inj h).2)

/-- The texts of labels tell the labels, also of a whole list. -/
theorem eq_of_map_chars_eq (hps : ∀ p ∈ ps, p.isLabel = true) (hqs : ∀ q ∈ qs, q.isLabel = true)
    (h : ps.map (chars κ) = qs.map (chars κ)) : ps = qs := by
  induction ps generalizing qs with
  | nil => exact (List.map_eq_nil_iff.1 h.symm).symm
  | cons p ps ih =>
    cases qs with
    | nil => cases h
    | cons q qs =>
      obtain ⟨hp, hps⟩ := List.forall_mem_cons.1 hps
      obtain ⟨hq, hqs⟩ := List.forall_mem_cons.1 hqs
      obtain ⟨hhead, htail⟩ := List.cons.inj h
      rw [eq_of_chars_eq hp hq hhead, ih hps hqs htail]

theorem notMem_paramChars (hps : ∀ p ∈ ps, p.isLabel = true) :
    '-' ∉ paramChars (ps.map (chars κ)) ++ [' '] := by
  have hintercalate {ws : List (List Char)} (hws : ∀ w ∈ ws, '-' ∉ w) :
      '-' ∉ [',', ' '].intercalate ws := by
    induction ws with
    | nil => exact List.not_mem_nil
    | cons w ws ih =>
      cases ws with
      | nil => simpa using hws
      | cons v ws =>
        obtain ⟨hw, hws⟩ := List.forall_mem_cons.1 hws
        have hmore := ih hws
        rw [intercalate_cons]
        simp [hw, hmore]
  have hws : ∀ w ∈ ps.map (chars κ), '-' ∉ w := by
    intro w hw
    obtain ⟨p, hp, rfl⟩ := List.mem_map.1 hw
    exact notMem_chars_of_isLabel (hps p hp) _ (by decide)
  rcases paramChars_cases (ps.map (chars κ)) with ⟨w, hw⟩ | h
  · rw [hw] at hws ⊢
    simpa [paramChars] using hws
  · rw [h]
    simpa using hintercalate hws

/-- **The text of a signature tells the signature.** -/
theorem eq_of_chars_func_eq (h : (func ps r).isSignature = true)
    (h' : (func qs s).isSignature = true) (heq : (func ps r).chars κ = (func qs s).chars κ) :
    func ps r = func qs s := by
  obtain ⟨hps, hr⟩ := isSignature_func.1 h
  obtain ⟨hqs, hs⟩ := isSignature_func.1 h'
  have hword {ps : List Ty} (hps : ∀ p ∈ ps, p.isLabel = true) :
      ∀ w ∈ ps.map (chars κ), IsWord w := by
    intro w hw
    obtain ⟨p, hp, rfl⟩ := List.mem_map.1 hw
    exact isWord_of_isLabel (hps p hp)
  rw [chars_func, chars_func] at heq
  obtain ⟨hparams, hresult⟩ :=
    eq_of_append_cons_eq (notMem_paramChars hps) (notMem_paramChars hqs) heq
  rw [eq_of_map_chars_eq hps hqs (eq_of_paramChars_eq (hword hps) (hword hqs)
    (List.append_cancel_right hparams)),
    eq_of_chars_eq_of_isResult hr hs (List.cons.inj (List.cons.inj hresult).2).2]

/-! ### Apparent types -/

/-- A pointer as its text reads: in front of a function with one parameter, the star seems to belong
to the parameter. -/
def starred (c : Bool) : Ty → Ty
  | func [p] r => func [pointer c p] r
  | a => pointer c a

/-- The **apparent** type of a type: the one that its text seems to name. -/
def apparent : Ty → Ty
  | pointer c a => starred c a.apparent
  | a => a

theorem chars_starred (c : Bool) (a : Ty) : (starred c a).chars κ = starChars c ++ a.chars κ := by
  rw [starred.eq_def]
  split
  · rw [chars_func, chars_func, List.map_cons, List.map_cons, List.map_nil, paramChars, paramChars,
      chars_pointer, List.append_assoc, List.append_assoc, List.append_assoc]
  · exact chars_pointer c _

/-- **A type and its apparent type have the same text.** -/
theorem chars_apparent (a : Ty) : a.apparent.chars κ = a.chars κ := by
  induction a using induct with
  | pointer c a ih => rw [apparent, chars_starred, ih, chars_pointer]
  | _ => rfl

/-- Only the star of its only parameter can stand in front of a signature. -/
theorem exists_eq_pointer_of_lead (h : (func ps r).isSignature = true) {l : List Char}
    (hl : (func ps r).chars κ = '*' :: l) : ∃ c q, ps = [pointer c q] := by
  rw [chars_func] at hl
  rcases paramChars_cases (ps.map (chars κ)) with ⟨w, hw⟩ | hmany
  · obtain ⟨p, rfl, -⟩ := List.map_eq_singleton_iff.1 hw
    have hp := (isSignature_func.1 h).1 p List.mem_cons_self
    cases p with
    | pointer c q => exact ⟨c, q, rfl⟩
    | scalar s =>
      obtain ⟨x, m, hm, -⟩ := exists_lead_scalar (κ := κ) s
      rw [List.map_cons, List.map_nil, paramChars, hm] at hl
      obtain rfl : x = '*' := (List.cons.inj hl).1
      exact absurd (hm ▸ List.mem_cons_self) (notMem_chars_scalar s '*' (by decide))
    | _ => cases hp
  · rw [hmany] at hl
    exact absurd (List.cons.inj hl).1 (by decide)

/-- A flat type that is written like a signature has it for its apparent type. -/
theorem apparent_eq_func (ha : a.isFlat = true) (h : (func ps r).isSignature = true)
    (heq : a.chars κ = (func ps r).chars κ) : a.apparent = func ps r := by
  have harrow {ps : List Ty} : '-' ∈ (func ps r).chars κ := by
    rw [chars_func]
    exact List.mem_append_right _ List.mem_cons_self
  induction a using induct generalizing ps with
  | scalar s => exact absurd (heq ▸ harrow) (notMem_chars_scalar s _ (by decide))
  | unit => exact absurd (heq ▸ harrow) (notMem_chars_of_isResult rfl)
  | pointer c a ih =>
    obtain ⟨l, hl⟩ := exists_lead_pointer (κ := κ) c a
    obtain ⟨d, q, rfl⟩ := exists_eq_pointer_of_lead h (heq.symm.trans hl)
    have hq : (func [q] r).isSignature = true := h
    rw [show func [pointer d q] r = starred d (func [q] r) from rfl, chars_starred,
      ← chars_pointer] at heq
    obtain ⟨rfl, helem⟩ := eq_of_chars_pointer_eq (a := a) ha (isFlat_of_isDeclared
      (isDeclared_iff.2 (.inr hq))) heq
    rw [apparent, ih ha hq helem]
    rfl
  | func qs s => exact eq_of_chars_func_eq ha h heq
  | hole i => exact absurd (heq ▸ harrow) ((chars_hole i).2 _ (by decide))

/-- **Flat types that are written alike** have the same apparent type, or become equal when holes
are filled by their limits. -/
theorem apparent_eq_of_chars_eq (fill : HoleKind → Ty) (ha : a.isFlat = true)
    (hb : b.isFlat = true) (h : a.chars κ = b.chars κ) : a.apparent = b.apparent ∨
      (a.subst fun i ↦ fill (κ i)) = b.subst fun i ↦ fill (κ i) := by
  have hmark {a b : Ty} (x : Char) (ha : x ∈ a.chars κ) (hb : x ∉ b.chars κ) :
      a.chars κ ≠ b.chars κ := fun h ↦ hb (h ▸ ha)
  have hstar (c : Bool) (a : Ty) : '*' ∈ (pointer c a).chars κ := by
    obtain ⟨l, hl⟩ := exists_lead_pointer (κ := κ) c a
    exact hl ▸ List.mem_cons_self
  have hparen : '(' ∈ unit.chars κ := chars_unit (κ := κ) ▸ List.mem_cons_self
  induction a using induct generalizing b with
  | func ps r => exact .inl (apparent_eq_func hb ha h.symm).symm
  | scalar s =>
    have hs := notMem_chars_scalar (κ := κ) s
    cases b with
    | func qs r => exact .inl (apparent_eq_func ha hb h)
    | scalar t => exact .inl (congrArg scalar (Scalar.name_injective (String.toList_inj.1 h)))
    | unit => exact absurd h.symm (hmark '(' hparen (hs _ (by decide)))
    | pointer d b => exact absurd h.symm (hmark '*' (hstar d b) (hs _ (by decide)))
    | hole j => exact absurd h.symm (hmark 'y' (chars_hole j).1 (hs _ (by decide)))
  | unit =>
    cases b with
    | func qs r => exact .inl (apparent_eq_func ha hb h)
    | scalar t => exact absurd h (hmark '(' hparen (notMem_chars_scalar t _ (by decide)))
    | unit => exact .inl rfl
    | pointer d b => exact absurd h.symm (hmark '*' (hstar d b) (notMem_chars_unit _ (by decide)))
    | hole j => exact absurd h.symm (hmark 'y' (chars_hole j).1 (notMem_chars_unit _ (by decide)))
  | hole i =>
    obtain ⟨hi, hnot⟩ := chars_hole (κ := κ) i
    cases b with
    | func qs r => exact .inl (apparent_eq_func ha hb h)
    | scalar t => exact absurd h (hmark 'y' hi (notMem_chars_scalar t _ (by decide)))
    | unit => exact absurd h (hmark 'y' hi (notMem_chars_unit _ (by decide)))
    | pointer d b => exact absurd h.symm (hmark '*' (hstar d b) (hnot _ (by decide)))
    | hole j =>
      have hkind : κ i = κ j := HoleKind.name_injective (String.toList_inj.1 h)
      exact .inr (congrArg fill hkind)
  | pointer c a ih =>
    cases b with
    | func qs r => exact .inl (apparent_eq_func ha hb h)
    | scalar t => exact absurd h (hmark '*' (hstar c a) (notMem_chars_scalar t _ (by decide)))
    | unit => exact absurd h (hmark '*' (hstar c a) (notMem_chars_unit _ (by decide)))
    | hole j => exact absurd h (hmark '*' (hstar c a) ((chars_hole j).2 _ (by decide)))
    | pointer d b =>
      obtain ⟨hcd, helem⟩ := eq_of_chars_pointer_eq (a := a) (b := b) ha hb h
      rw [hcd, apparent, apparent, subst_pointer, subst_pointer]
      exact (ih (b := b) ha hb helem).imp (congrArg (starred d)) (congrArg (pointer d))

/-! ### Labels are what they appear to be -/

theorem apparent_of_isLabel (h : a.isLabel = true) : a.apparent = a := by
  induction a using induct with
  | pointer c a ih =>
    have ha : a.isLabel = true := h
    rw [apparent, ih ha]
    cases a with
    | func ps r => cases ha
    | _ => rfl
  | _ => rfl

theorem isLabel_of_apparent (h : a.apparent.isLabel = true) : a.isLabel = true := by
  induction a using induct with
  | pointer c a ih =>
    rw [apparent, starred.eq_def] at h
    split at h
    · cases h
    · exact ih h
  | _ => exact h

theorem eq_of_apparent_eq (hb : b.isLabel = true) (h : a.apparent = b.apparent) : a = b := by
  rw [apparent_of_isLabel hb] at h
  rw [← h, apparent_of_isLabel (isLabel_of_apparent (h ▸ hb))]

end Ty

end FrontEnd
