import FrontEnd.Proofs.Check.Rules

/-!
# What the types found for nodes mean

The type that a rule finds for a node is right under every solution of the table that the rule
leaves behind: with the holes replaced by the types that the solution assigns to them, the node
obeys its typing rule, or at least has an excuse for having no type (`Walk.Judged`). Solutions of
later tables are solutions of earlier ones, so this does not change any more until the statement is
over.

There is one exception. What is called may be a literal that fits every type, and then nobody knows
yet that it is not a function. The call has no type, and it will turn out that there is no solution
that anyone could ask for (`Walk.judged_call`).
-/

namespace FrontEnd

open Table

namespace Walk

/-- A node has a type or an excuse, and obeys its rule if nothing was found wrong. -/
def Judged (final : List Symbol) (strict : Prop) (x : Expr) : Prop :=
  (x.type? = none → x.Excused final) ∧ (strict → x.Obeys final)

/-- What is known under a weaker condition is known under a stronger one. -/
theorem Judged.mono {final : List Symbol} {p q : Prop} {x : Expr} (h : Judged final p x)
    (hpq : q → p) : Judged final q x :=
  ⟨h.1, fun hq ↦ h.2 (hpq hq)⟩

section

variable {w : Walk} {S A B : Set Nat} {s : Nat → Ty} {a : Ty} {e lhs rhs : Expr}
  {final : List Symbol}

/-! ### Literals -/

/-- A literal with a type of its own has this type whatever is solved. -/
theorem judged_constant_of_type? {v : Constant} (hkind : v.kind? = none) (n : Note)
    (strict : Prop) : Judged final strict
      (((Expr.constant n v).withType v.type?).mapTypes (Ty.subst s)) := by
  cases v with
  | rune c => exact ⟨nofun, fun _ ↦ rfl⟩
  | bool b => exact ⟨nofun, fun _ ↦ rfl⟩
  | _ => exact nomatch hkind

/-- A literal that waits has what its hole is solved to, if its limit admits that. -/
theorem judged_constant_of_kind? {v : Constant} {k : HoleKind} (hkind : v.kind? = some k) {i : Nat}
    (hadmits : k.admits (s i) = true) (n : Note) (strict : Prop) : Judged final strict
      (((Expr.constant n v).withType (some (.hole i))).mapTypes (Ty.subst s)) := by
  refine ⟨nofun, fun _ ↦ ?_⟩
  cases v with
  | int m =>
    obtain rfl := Option.some.inj hkind
    exact ⟨s i, rfl, hadmits⟩
  | float x =>
    obtain rfl := Option.some.inj hkind
    exact ⟨s i, rfl, hadmits⟩
  | null => exact ⟨s i, rfl⟩
  | _ => exact nomatch hkind

/-! ### Operators -/

theorem judged_negate (hw : w.table.Tidy) (hS : w.table.Closed S) (he : e.TypedIn S) (n : Note)
    (hs : (w.negateType e).2.table.Solution s) :
    Judged final ((w.negateType e).2.findings = w.findings)
      (((Expr.unary n .negate e).withType (w.negateType e).1).mapTypes (Ty.subst s)) := by
  rw [negateType_fst]
  show (e.type?.map (Ty.subst s) = none → (e.mapTypes (Ty.subst s)).type? = none) ∧ (_ →
    Expr.unaryRule (e.type?.map (Ty.subst s)) (e.mapTypes (Ty.subst s)).type? .negate)
  rw [Expr.type?_mapTypes]
  refine ⟨id, fun hstrict ↦ ⟨rfl, fun b hb ↦ ?_⟩⟩
  obtain ⟨a, ha, rfl⟩ := Option.map_eq_some_iff.1 hb
  rcases negateType_cases (w := w) ha with ⟨t, ht, h⟩ | ⟨t, err, -, h⟩
  · rw [h] at hs
    exact ((solution_requireLimit hw.valid (hS.covers (he a ha).1) ht).1 hs).2
  · rw [h] at hstrict
    exact absurd hstrict (findings_record_ne (w.withTable t) err)

theorem judged_address (n : Note) (strict : Prop) : Judged final strict
    (((Expr.unary n .address e).withType (e.type?.map (.pointer false))).mapTypes
      (Ty.subst s)) := by
  show ((e.type?.map (.pointer false)).map (Ty.subst s) = none →
      (e.mapTypes (Ty.subst s)).type? = none) ∧ (_ →
    (e.type?.map (.pointer false)).map (Ty.subst s) =
      (e.mapTypes (Ty.subst s)).type?.map (.pointer false))
  rw [Expr.type?_mapTypes]
  cases e.type? with
  | none => exact ⟨id, fun _ ↦ rfl⟩
  | some a => exact ⟨nofun, fun _ ↦ rfl⟩

/-- Dereferencing gives what the pointer points to, in every solution. -/
theorem judged_deref (hw : w.table.Tidy) (hS : w.table.Closed S) (he : e.TypedIn S) (n : Note)
    (hhalted : (w.derefType e).2.halted = false) (hs : w.table.Solution s) (strict : Prop) :
    Judged final strict
      (((Expr.unary n .deref e).withType (w.derefType e).1).mapTypes (Ty.subst s)) := by
  rcases derefType_cases w e with ⟨c, a, b, ha, hhead, h⟩ | ⟨err, herr, h⟩
  · rw [h]
    refine ⟨nofun, fun _ ↦ ?_⟩
    show Expr.unaryRule (some (b.subst s)) (e.mapTypes (Ty.subst s)).type? .deref
    rw [Expr.type?_mapTypes, ha, Option.map_some,
      ← hs.toRespects.head hw.valid (hS.covers (he a ha).1), hhead, Ty.subst_pointer]
    exact ⟨c, b.subst s, rfl, rfl⟩
  · rw [h, halted_record _ herr] at hhalted
    exact nomatch hhalted

/-- **Operators with one operand obey their rules** in every solution of the table behind them. -/
theorem judged_unary (hw : w.table.Tidy) (hS : w.table.Closed S) (he : e.TypedIn S) (n : Note)
    (op : UnaryOp) (hhalted : (w.unaryType op e).2.halted = false)
    (hs : (w.unaryType op e).2.table.Solution s) :
    Judged final ((w.unaryType op e).2.findings = w.findings)
      (((Expr.unary n op e).withType (w.unaryType op e).1).mapTypes (Ty.subst s)) := by
  cases op with
  | negate => exact judged_negate hw hS he n hs
  | address => exact judged_address n _
  | deref =>
    have hasks := asks_unaryType hw hS he .deref
    exact judged_deref hw hS he n hhalted (hasks.evolves.becomes.solution hs) _

/-- The holes of an operand stay committed to concrete types. -/
theorem commitsConcrete_unaryType (hw : w.table.Tidy) (hS : w.table.Closed S) (he : e.TypedIn S)
    (op : UnaryOp) : w.table.CommitsConcrete (w.unaryType op e).2.table := by
  cases op with
  | negate =>
    show w.table.CommitsConcrete (w.negateType e).2.table
    cases ha : e.type? with
    | none =>
      rw [negateType_of_none ha]
      exact .refl _
    | some a =>
      have hcommits := commitsConcrete_requireLimit hw.valid (hS.covers (he a ha).1) .number
      rcases negateType_cases (w := w) ha with ⟨t, ht, h⟩ | ⟨t, err, ht, h⟩ <;>
        rw [ht] at hcommits <;> rw [h] <;> exact hcommits
  | address => exact .refl _
  | deref =>
    show w.table.CommitsConcrete (w.derefType e).2.table
    rcases derefType_cases w e with ⟨c, a, b, -, -, h⟩ | ⟨err, -, h⟩ <;> rw [h] <;> exact .refl _

/-- What is called is not a function under any solution, unless its type may still be any type. -/
theorem not_func_of_head (hw : w.table.Tidy) (ha : w.table.Covers a)
    (hne : ∀ ps r, w.table.head a ≠ .func ps r) :
    (∃ i, w.table.head a = .hole i ∧ w.table.kind i = .null) ∨
      ∀ s, w.table.Solution s → ∀ ps r, a.subst s ≠ .func ps r := by
  by_cases hnull : ∃ i, w.table.head a = .hole i ∧ w.table.kind i = .null
  · exact .inl hnull
  refine .inr fun s hs ps r heq ↦ ?_
  rw [← hs.toRespects.head hw.valid ha] at heq
  cases hhead : w.table.head a with
  | func qs q => exact hne qs q hhead
  | hole i =>
    rw [hhead, Ty.subst_hole] at heq
    have hkind : w.table.kind i ≠ .null := fun h ↦ hnull ⟨i, hhead, h⟩
    have hnumeric := HoleKind.isNumeric_of_admits hkind
      (hs.admitted (lt_size_of_head hw.valid ha hhead))
    rw [heq] at hnumeric
    exact nomatch hnumeric
  | _ => rw [hhead] at heq; exact nomatch heq

section Agreement

variable [RootChoice]

/-- **So do operators with two operands**: without an error they agree in every solution, on a type
that the operator applies to. -/
theorem judged_binary (hw : w.table.Tidy) (hA : w.table.Closed A) (hB : w.table.Closed B)
    (hl : lhs.TypedIn A) (hr : rhs.TypedIn B) (n : Note) (op : BinOp)
    (hs : (w.binaryType n.span op lhs rhs).2.table.Solution s) :
    Judged final ((w.binaryType n.span op lhs rhs).2.findings = w.findings)
      (((Expr.binary n op lhs rhs).withType (w.binaryType n.span op lhs rhs).1).mapTypes
        (Ty.subst s)) := by
  rw [binaryType_fst]
  show (lhs.type?.map (Ty.subst s) = none → (lhs.mapTypes (Ty.subst s)).type? = none) ∧ (_ →
    lhs.type?.map (Ty.subst s) = (lhs.mapTypes (Ty.subst s)).type? ∧
      ∀ a b, (lhs.mapTypes (Ty.subst s)).type? = some a →
        (rhs.mapTypes (Ty.subst s)).type? = some b → a = b ∧ op.appliesTo a = true)
  rw [Expr.type?_mapTypes, Expr.type?_mapTypes]
  refine ⟨id, fun hstrict ↦ ⟨rfl, fun a' b' ha' hb' ↦ ?_⟩⟩
  obtain ⟨a, ha, rfl⟩ := Option.map_eq_some_iff.1 ha'
  obtain ⟨b, hb, rfl⟩ := Option.map_eq_some_iff.1 hb'
  have hcovers := hA.covers (hl a ha).1
  have hcovers' := hB.covers (hr b hb).1
  rcases binaryType_cases (w := w) ha hb n.span op with
    ⟨t, err, -, h⟩ | ⟨t, ht, ⟨u, hu, h⟩ | ⟨u, err, -, h⟩⟩
  · rw [h] at hstrict
    exact absurd hstrict (findings_record_ne (w.withTable t) err)
  · rw [h] at hs
    have hbecomes := becomes_unify hw.valid hcovers hcovers'
    rw [ht] at hbecomes
    have hlimit := (solution_requireLimit (hbecomes.valid hw.valid fun _ h ↦ h)
      (hbecomes.covers_iff.2 hcovers) hu).1 hs
    refine ⟨((solution_unify hw.valid hcovers hcovers' ht).1 hlimit.1).2, ?_⟩
    rw [← BinOp.admits_limit]
    exact hlimit.2
  · rw [h] at hstrict
    exact absurd hstrict (findings_record_ne (w.withTable u) err)

theorem commitsConcrete_binaryType (hw : w.table.Tidy) (hA : w.table.Closed A)
    (hB : w.table.Closed B) (hdisjoint : ∀ k ∈ A, k ∉ B) (hl : lhs.TypedIn A)
    (hr : rhs.TypedIn B) (span : Span) (op : BinOp)
    (hstrict : (w.binaryType span op lhs rhs).2.findings = w.findings) :
    w.table.CommitsConcrete (w.binaryType span op lhs rhs).2.table := by
  have hasks := asks_binaryType hw hA hB hdisjoint hl hr span op
  cases ha : lhs.type? with
  | none =>
    rw [binaryType_of_none (.inl ha)]
    exact .refl _
  | some a =>
    cases hb : rhs.type? with
    | none =>
      rw [binaryType_of_none (.inr hb)]
      exact .refl _
    | some b =>
      have hcovers := hA.covers (hl a ha).1
      have hcovers' := hB.covers (hr b hb).1
      rcases binaryType_cases (w := w) ha hb span op with
        ⟨t, err, -, h⟩ | ⟨t, ht, ⟨u, hu, h⟩ | ⟨u, err, -, h⟩⟩
      · rw [h] at hstrict
        exact absurd hstrict (findings_record_ne (w.withTable t) err)
      · rw [h] at hasks ⊢
        have hbecomes := becomes_unify hw.valid hcovers hcovers'
        rw [ht] at hbecomes
        have hvalid := hbecomes.valid hw.valid fun _ h ↦ h
        have hcovers'' := hbecomes.covers_iff.2 hcovers
        -- some solution makes the operands numbers, so they were committed to scalars at most
        have htidy := hasks.tidy hw
        obtain ⟨s, hs⟩ := exists_solution htidy.valid htidy.acyclic
        obtain ⟨hs', hadmits⟩ := (solution_requireLimit hvalid hcovers'' hu).1 hs
        rw [BinOp.admits_limit] at hadmits
        have hlimit := commitsConcrete_requireLimit hvalid hcovers'' op.limit
        rw [hu] at hlimit
        exact (commitsConcrete_unify_of_isNumeric hw hcovers hcovers' ht hs'
          (BinOp.isNumeric_of_appliesTo hadmits)).trans hlimit
      · rw [h] at hstrict
        exact absurd hstrict (findings_record_ne (w.withTable u) err)

/-! ### Calls -/

variable (final) in
/-- A call of a **function** whose arguments were all accepted is judged. The type of a function has
no holes, so it is the same under every solution. -/
theorem judged_call_of_func (hw : w.table.Tidy) (hS : w.table.Closed S) {callee : Expr}
    {args : List Expr} (hcallee : callee.TypedIn S) (hargs : ∀ e ∈ args, e.TypedIn S) (n : Note)
    {a : Ty} {ps : List Ty} {r : Ty} (ha : callee.type? = some a)
    (hhead : w.table.head a = .func ps r) (hlen : ps.length = args.length)
    (hhalted : (w.requireAll ps args).halted = false) {s : Nat → Ty} (strict : Prop)
    (hs : (w.requireAll ps args).table.Solution s) :
    Judged final strict
      (((Expr.call n callee args).withType (some r)).mapTypes (Ty.subst s)) := by
  have hconcrete := isConcrete_of_head hw (hcallee a ha).2 hhead
  obtain ⟨hps, hr⟩ := Ty.isConcrete_func.1 hconcrete
  have hasks := asks_requireAll ps args w hw hS hargs hps
  have hfunc : a.subst s = .func ps r := by
    rw [← (hasks.evolves.becomes.solution hs).toRespects.head hw.valid
      (hS.covers (hcallee a ha).1), hhead, Ty.subst_of_isConcrete hconcrete]
  refine ⟨nofun, fun _ ↦ ?_⟩
  rw [show (Expr.call n callee args).withType (some r) =
    .call { n with type? := some r } callee args from rfl, Expr.mapTypes_call]
  intro ps' r' hfunc'
  rw [Expr.type?_mapTypes, ha, Option.map_some, hfunc, Option.some.injEq,
    Ty.func.injEq] at hfunc'
  obtain ⟨rfl, rfl⟩ := hfunc'
  refine ⟨congrArg some (Ty.subst_of_isConcrete hr s), List.forall₂_map_right_iff.2 ?_⟩
  refine ((requireAll_sound ps args w hw hS hargs hps hlen hhalted).2 s hs).imp ?_
  intro p arg hmet b hb
  rw [Expr.type?_mapTypes] at hb
  obtain ⟨c, hc, rfl⟩ := Option.map_eq_some_iff.1 hb
  exact hmet c hc

omit [RootChoice] in
variable (final) in
/-- A call of what is **no function** is excused. -/
theorem judged_call_of_not_func {callee : Expr} {args : List Expr} (n : Note) {s : Nat → Ty}
    (strict : Prop) (hnot : ∀ ps r, callee.type?.map (Ty.subst s) ≠ some (.func ps r)) :
    Judged final strict (((Expr.call n callee args).withType none).mapTypes (Ty.subst s)) := by
  rw [show (Expr.call n callee args).withType none =
    .call { n with type? := none } callee args from rfl, Expr.mapTypes_call]
  refine ⟨fun _ ps r ↦ ?_, fun _ ps r hfunc ↦ absurd hfunc ?_⟩ <;>
    rw [Expr.type?_mapTypes] <;> exact hnot ps r

variable (final) in
/-- **A call is judged**, or what is called is an open hole that may be of any type, and nothing was
done about it. -/
theorem judged_call (hw : w.table.Tidy) (hS : w.table.Closed S) {callee : Expr}
    {args : List Expr} (hcallee : callee.TypedIn S) (hargs : ∀ e ∈ args, e.TypedIn S) (n : Note)
    (hhalted : (w.callType n.span callee args).2.halted = false) :
    ((∃ i ∈ S, w.table.type? i = none ∧ w.table.kind i = .null) ∧
        (w.callType n.span callee args).2 = w) ∨
      ∀ s strict, (w.callType n.span callee args).2.table.Solution s → Judged final strict
        (((Expr.call n callee args).withType (w.callType n.span callee args).1).mapTypes
          (Ty.subst s)) := by
  rcases callType_cases w n.span callee args with
    ⟨a, ps, r, ha, hhead, hlen, h⟩ | ⟨err, herr, h⟩ | ⟨hne, h⟩ <;> rw [h] at hhalted ⊢
  · exact .inr fun s strict hs ↦
      judged_call_of_func final hw hS hcallee hargs n ha hhead hlen hhalted strict hs
  · cases (halted_record w herr).symm.trans hhalted
  · cases ha : callee.type? with
    | none =>
      exact .inr fun s strict _ ↦
        judged_call_of_not_func final n strict fun ps r ↦ by rw [ha]; exact nofun
    | some a =>
      have hcovers := hS.covers (hcallee a ha).1
      rcases not_func_of_head hw hcovers (hne a ha) with ⟨i, hhead, hnull⟩ | hnot
      · have hi : i ∈ S := hS.head (hcallee a ha).1 i (hhead ▸ List.mem_singleton.2 rfl)
        have hopen := type?_of_head hw.valid hw.acyclic hcovers hhead
        exact .inl ⟨⟨i, hi, hopen, hnull⟩, rfl⟩
      · refine .inr fun s strict hs ↦
          judged_call_of_not_func final n strict fun ps r heq ↦ hnot s hs ps r ?_
        rwa [ha, Option.map_some, Option.some.injEq] at heq

/-- The parameters of a function have no holes, so its arguments are committed to types without
holes. -/
theorem commitsConcrete_callType (hw : w.table.Tidy) (hS : w.table.Closed S) {callee : Expr}
    {args : List Expr} (hcallee : callee.TypedIn S) (hargs : ∀ e ∈ args, e.TypedIn S)
    (span : Span) (hhalted : (w.callType span callee args).2.halted = false) :
    w.table.CommitsConcrete (w.callType span callee args).2.table := by
  rcases callType_cases w span callee args with
    ⟨a, ps, r, ha, hhead, hlen, h⟩ | ⟨err, -, h⟩ | ⟨-, h⟩ <;> rw [h] at hhalted ⊢
  · have hps := (Ty.isConcrete_func.1 (isConcrete_of_head hw (hcallee a ha).2 hhead)).1
    exact (requireAll_sound ps args w hw hS hargs hps hlen hhalted).1
  · exact .refl _
  · exact .refl _

/-! ### Casts -/

/-- The depth at which the hole of an operand lies is that of the literal it comes from. -/
def DepthKnown (e : Expr) : Prop :=
  ∀ a n, e.type? = some a → a.holeDepth? = some n → e.literalDepth? = some n

theorem castType_fst (hhalted : (w.castType e a).2.halted = false) :
    (w.castType e a).1 = some a := by
  cases hb : e.type? with
  | none => rw [castType_of_none hb]
  | some b =>
    rcases castType_cases (w := w) hb a with ⟨t, -, h⟩ | ⟨t, err, -, herr, h⟩
    · rw [h]
    · rw [h, halted_record _ herr] at hhalted
      exact nomatch hhalted

/-- **A cast is allowed** in every solution: from what its operand is solved to, to what it
names. -/
theorem judged_cast (hw : w.table.Tidy) (hS : w.table.Closed S) (he : e.TypedIn S) {dest : Ty}
    (hdest : dest.isConcrete = true) (n : Note) (hhalted : (w.castType e dest).2.halted = false)
    (hs : (w.castType e dest).2.table.Solution s) {strict : Prop} (hdepth : strict → DepthKnown e) :
    Judged final strict
      (((Expr.cast n e dest).withType (w.castType e dest).1).mapTypes (Ty.subst s)) := by
  rw [castType_fst hhalted]
  refine ⟨nofun, fun hstrict ↦ ?_⟩
  show some (dest.subst s) = some dest ∧ ∀ a, (e.mapTypes (Ty.subst s)).type? = some a →
    a.castable dest = true ∨ (a.isInt = true ∧ dest.isPointer = true ∧
      (e.mapTypes (Ty.subst s)).literalDepth? = some 0)
  rw [Ty.subst_of_isConcrete hdest, Expr.type?_mapTypes, Expr.literalDepth?_mapTypes]
  refine ⟨rfl, fun b hb ↦ ?_⟩
  obtain ⟨a, ha, rfl⟩ := Option.map_eq_some_iff.1 hb
  rcases castType_cases (w := w) ha dest with ⟨t, ht, h⟩ | ⟨t, err, -, herr, h⟩
  · rw [h] at hs
    rcases castable_of_cast hw.valid hdest (hS.covers (he a ha).1) ht hs with
      hcastable | ⟨⟨i, hi⟩, hint, hpointer⟩
    · exact .inl hcastable
    · -- only a hole has a hole for its head
      have hhole : a.holeDepth? = some 0 := by
        cases a with
        | hole j => rfl
        | _ => exact nomatch hi
      exact .inr ⟨hint, hpointer, hdepth hstrict a 0 ha hhole⟩
  · rw [h, halted_record _ herr] at hhalted
    exact nomatch hhalted

/-- A cast names a type without holes, so it commits its operand to one without holes. -/
theorem commitsConcrete_castType (hw : w.table.Tidy) (hS : w.table.Closed S) (he : e.TypedIn S)
    {dest : Ty} (hdest : dest.isConcrete = true) :
    w.table.CommitsConcrete (w.castType e dest).2.table := by
  cases ha : e.type? with
  | none =>
    rw [castType_of_none ha]
    exact .refl _
  | some a =>
    have hcommits := commitsConcrete_cast hw hS hdest (he a ha).1 (he a ha).2
    rcases castType_cases (w := w) ha dest with ⟨t, ht, h⟩ | ⟨t, err, ht, -, h⟩ <;>
      rw [ht] at hcommits <;> rw [h] <;> exact hcommits

end Agreement

end

end Walk

end FrontEnd
