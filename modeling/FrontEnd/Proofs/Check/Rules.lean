import FrontEnd.Check.Expr
import FrontEnd.Proofs.Check.Typing
import FrontEnd.Proofs.Table.Chains

/-!
# What the rules for single nodes do

A rule looks at the types of the parts of a node, asks the table something about them, and comes
back with a type for the node. Two things are said of each rule here. The first is what it leaves
behind, whatever the answer was: questions about the holes of the parts (`Walk.Asks`), errors, and
nothing else. The second is what it means that the rule was content, in terms of the table that it
leaves behind.

The parts have types that are chains over closed sets of holes (`Expr.TypedIn`), and the sets of two
parts have no hole in common. What the rule comes back with is such a type again.
-/

namespace FrontEnd

open Table

/-- The limit that an operator between two operands puts on their type. -/
def BinOp.limit : BinOp → HoleKind
  | .add => .number
  | .sub => .number
  | .mul => .number
  | .div => .number
  | .mod => .number
  | .bitAnd => .int
  | .bitOr => .int
  | .bitXor => .int

/-- The limit that an operator puts on a hole admits just the types that the operator applies to. -/
theorem BinOp.admits_limit (op : BinOp) (a : Ty) : op.limit.admits a = op.appliesTo a := by
  cases op <;> rfl

/-- The type of an expression, if it has one, is a chain over a set of holes. -/
def Expr.TypedIn (S : Set Nat) (e : Expr) : Prop :=
  ∀ a, e.type? = some a → a.Within S ∧ a.isChain = true

theorem Expr.TypedIn.mono {S T : Set Nat} {e : Expr} (h : e.TypedIn S) (hST : S ⊆ T) :
    e.TypedIn T :=
  fun a ha ↦ ⟨(h a ha).1.mono hST, (h a ha).2⟩

namespace Walk

/-- What an operator asks of its operands is a limit, whether they are open or not. -/
theorem requireOperand_eq (t : Table) (op : BinOp) (a : Ty) :
    requireOperand t op a = t.requireLimit op.limit a := by
  cases op with
  | bitAnd => exact requireInteger_eq t a
  | bitOr => exact requireInteger_eq t a
  | bitXor => exact requireInteger_eq t a
  | _ => exact requireNumber_eq t a

/-- The state `v` is what **questions about the holes of a set** leave behind of `w`: the table has
changed within the set, errors may have been recorded, and the rest is as it was. -/
structure Asks (S : Set Nat) (w v : Walk) : Prop where
  evolves : Evolves S w.table v.table
  symbols_eq : v.symbols = w.symbols
  scope_eq : v.scope = w.scope
  waiting_eq : v.waiting = w.waiting
  findings : w.findings <+: v.findings

namespace Asks

variable {S T : Set Nat} {w v x : Walk}

theorem refl (w : Walk) : Asks S w w :=
  ⟨.refl _, rfl, rfl, rfl, List.prefix_refl _⟩

theorem trans (h : Asks S w v) (h' : Asks S v x) : Asks S w x where
  evolves := h.evolves.trans h'.evolves
  symbols_eq := h'.symbols_eq.trans h.symbols_eq
  scope_eq := h'.scope_eq.trans h.scope_eq
  waiting_eq := h'.waiting_eq.trans h.waiting_eq
  findings := h.findings.trans h'.findings

theorem mono (hST : S ⊆ T) (h : Asks S w v) : Asks T w v :=
  { h with evolves := h.evolves.mono hST }

/-- A table that evolves inside a set of holes is all that a question changes. -/
theorem withTable {t : Table} (h : Evolves S w.table t) : Asks S w (w.withTable t) :=
  ⟨h, rfl, rfl, rfl, List.prefix_refl _⟩

theorem record (h : Asks S w v) (e : CheckError) : Asks S w (v.record e) :=
  { h with findings := h.findings.trans (List.prefix_append _ _) }

theorem tidy (h : Asks S w v) (hw : w.table.Tidy) : v.table.Tidy :=
  h.evolves.tidy hw

/-- What is asked inside a closed set leaves it closed. -/
theorem closed (h : Asks S w v) (hS : w.table.Closed S) : v.table.Closed S :=
  h.evolves.closed hS

end Asks

/-- If nothing was added in the whole, nothing was added on the way. -/
theorem eq_of_prefix_of_eq {α : Type} {l m n : List α} (hlm : l <+: m) (hmn : m <+: n)
    (heq : n = l) : m = l ∧ n = m := by
  have hm : m = l := (heq ▸ hmn).eq_of_length_le hlm.length_le
  exact ⟨hm, heq.trans hm.symm⟩

/-- An error that is recorded shows in the list. -/
theorem findings_record_ne (w : Walk) (e : CheckError) : (w.record e).findings ≠ w.findings := by
  intro h
  have hlen := congrArg List.length h
  rw [record, List.length_append, List.length_singleton] at hlen
  omega

theorem halted_record (w : Walk) {e : CheckError} (he : e.isFatal = true) :
    (w.record e).halted = true := by
  rw [record, he, Bool.or_true]

/-- A step that leaves walks alone which have been halted ends in a running walk only from one. -/
theorem running_of_stays {w v : Walk} (hstays : w.halted = true → v = w) (h : v.halted = false) :
    w.halted = false := by
  by_contra hw
  rw [hstays (Bool.eq_true_of_not_eq_false hw)] at h
  exact hw h

section Rules

variable {w : Walk} {S A B : Set Nat} {s : Nat → Ty} {a b : Ty} {e lhs rhs : Expr}

/-! ### Operators -/

theorem negateType_of_none (h : e.type? = none) : w.negateType e = (none, w) := by
  rw [negateType, h]

/-- The two ways in which a negation ends. It has the type of its operand either way. -/
theorem negateType_cases (h : e.type? = some a) :
    (∃ t, w.table.requireLimit .number a = (true, t) ∧
        w.negateType e = (some a, w.withTable t)) ∨
      ∃ t err, w.table.requireLimit .number a = (false, t) ∧
        w.negateType e = (some a, (w.withTable t).record err) := by
  rw [negateType, h]
  simp only [requireNumber_eq]
  rcases hr : w.table.requireLimit .number a with ⟨ok, t⟩
  cases ok
  · exact .inr ⟨t, _, rfl, rfl⟩
  · exact .inl ⟨t, rfl, rfl⟩

/-- A negation always has the type of its operand. -/
theorem negateType_fst (w : Walk) (e : Expr) : (w.negateType e).1 = e.type? := by
  cases h : e.type? with
  | none => rw [negateType_of_none h]
  | some a => rcases negateType_cases (w := w) h with ⟨t, -, h⟩ | ⟨t, err, -, h⟩ <;> rw [h]

theorem asks_negateType (hw : w.table.Tidy) (hS : w.table.Closed S) (he : e.TypedIn S) :
    Asks S w (w.negateType e).2 := by
  cases h : e.type? with
  | none =>
    rw [negateType_of_none h]
    exact .refl w
  | some a =>
    have hevolves := evolves_requireLimit hw hS (he a h).1 .number
    rcases negateType_cases (w := w) h with ⟨t, ht, h⟩ | ⟨t, err, ht, h⟩ <;> rw [ht] at hevolves <;>
      rw [h]
    · exact .withTable hevolves
    · exact (Asks.withTable hevolves).record err

section Agreement

variable [RootChoice]

theorem binaryType_of_none (h : lhs.type? = none ∨ rhs.type? = none) (span : Span) (op : BinOp) :
    w.binaryType span op lhs rhs = (lhs.type?, w) := by
  rw [binaryType]
  split
  · rename_i ha hb
    rw [ha, hb] at h
    exact h.elim (fun h ↦ nomatch h) fun h ↦ nomatch h
  · rfl

/-- **The ways in which an operator with two operands ends**: its operands do not agree, or they
agree on a type that it applies to, or on one that it does not. -/
theorem binaryType_cases (ha : lhs.type? = some a) (hb : rhs.type? = some b) (span : Span)
    (op : BinOp) :
    (∃ t err, w.table.unify a b = (false, t) ∧
        w.binaryType span op lhs rhs = (some a, (w.withTable t).record err)) ∨
      ∃ t, w.table.unify a b = (true, t) ∧
        ((∃ u, t.requireLimit op.limit a = (true, u) ∧
            w.binaryType span op lhs rhs = (some a, w.withTable u)) ∨
          ∃ u err, t.requireLimit op.limit a = (false, u) ∧
            w.binaryType span op lhs rhs = (some a, (w.withTable u).record err)) := by
  rw [binaryType, ha, hb]
  simp only [requireOperand_eq]
  rcases hr : w.table.unify a b with ⟨ok, t⟩
  cases ok
  · exact .inl ⟨t, _, rfl, rfl⟩
  · refine .inr ⟨t, rfl, ?_⟩
    dsimp only
    rcases hl : t.requireLimit op.limit a with ⟨ok, u⟩
    cases ok
    · exact .inr ⟨u, _, rfl, rfl⟩
    · exact .inl ⟨u, rfl, rfl⟩

/-- An operator between two operands always has the type of the left one. -/
theorem binaryType_fst (w : Walk) (span : Span) (op : BinOp) (lhs rhs : Expr) :
    (w.binaryType span op lhs rhs).1 = lhs.type? := by
  cases ha : lhs.type? with
  | none => rw [binaryType_of_none (.inl ha), ha]
  | some a =>
    cases hb : rhs.type? with
    | none => rw [binaryType_of_none (.inr hb), ha]
    | some b =>
      rcases binaryType_cases (w := w) ha hb span op with
        ⟨t, err, -, h⟩ | ⟨t, -, ⟨u, -, h⟩ | ⟨u, err, -, h⟩⟩ <;> rw [h]

/-- An operator touches the holes of its two operands, and no others. -/
theorem asks_binaryType (hw : w.table.Tidy) (hA : w.table.Closed A) (hB : w.table.Closed B)
    (hdisjoint : ∀ k ∈ A, k ∉ B) (hl : lhs.TypedIn A) (hr : rhs.TypedIn B) (span : Span)
    (op : BinOp) : Asks (A ∪ B) w (w.binaryType span op lhs rhs).2 := by
  cases ha : lhs.type? with
  | none =>
    rw [binaryType_of_none (.inl ha)]
    exact .refl w
  | some a =>
    cases hb : rhs.type? with
    | none =>
      rw [binaryType_of_none (.inr hb)]
      exact .refl w
    | some b =>
      have hunify := evolves_unify hw hA hB hdisjoint (hl a ha).1 (hl a ha).2 (hr b hb).1
        (hr b hb).2
      have hAB := hA.union hB
      have hlimit : ∀ {t}, Evolves (A ∪ B) w.table t →
          Evolves (A ∪ B) t (t.requireLimit op.limit a).2 := fun ht ↦
        evolves_requireLimit (ht.tidy hw) (ht.closed hAB)
          ((hl a ha).1.mono Set.subset_union_left) op.limit
      rcases binaryType_cases (w := w) ha hb span op with
        ⟨t, err, ht, h⟩ | ⟨t, ht, ⟨u, hu, h⟩ | ⟨u, err, hu, h⟩⟩ <;> rw [ht] at hunify <;> rw [h]
      · exact (Asks.withTable hunify).record err
      · have hu' := hlimit hunify
        rw [hu] at hu'
        exact .withTable (hunify.trans hu')
      · have hu' := hlimit hunify
        rw [hu] at hu'
        exact (Asks.withTable (hunify.trans hu')).record err

end Agreement

/-- What is dereferenced has to be known to be a pointer by then; if it is not, that is fatal. -/
theorem derefType_cases (w : Walk) (e : Expr) :
    (∃ c a b, e.type? = some a ∧ w.table.head a = .pointer c b ∧ w.derefType e = (some b, w)) ∨
      ∃ err, CheckError.isFatal err = true ∧ w.derefType e = (none, w.record err) := by
  rw [derefType]
  cases h : e.type? with
  | none => exact .inr ⟨_, rfl, rfl⟩
  | some a =>
    rw [Option.map_some]
    cases hhead : w.table.head a with
    | pointer c b => exact .inl ⟨c, a, b, rfl, hhead, rfl⟩
    | _ => exact .inr ⟨_, rfl, rfl⟩

/-- The function type behind a chain is concrete. -/
theorem isConcrete_of_head (hw : w.table.Tidy) (ha : a.isChain = true) {ps : List Ty} {r : Ty}
    (h : w.table.head a = .func ps r) : (Ty.func ps r).isConcrete = true := by
  have hchain := hw.isChain_head ha
  rwa [h] at hchain

theorem asks_unaryType (hw : w.table.Tidy) (hS : w.table.Closed S) (he : e.TypedIn S)
    (op : UnaryOp) : Asks S w (w.unaryType op e).2 := by
  cases op with
  | negate => exact asks_negateType hw hS he
  | address => exact .refl w
  | deref =>
    show Asks S w (w.derefType e).2
    rcases derefType_cases w e with ⟨c, a, b, -, -, h⟩ | ⟨err, -, h⟩ <;> rw [h]
    · exact .refl w
    · exact (Asks.refl w).record err

/-- The type that an operator finds for itself is over the holes of its operand. -/
theorem typedIn_unaryType (hw : w.table.Tidy) (hS : w.table.Closed S) (he : e.TypedIn S)
    (op : UnaryOp) (h : (w.unaryType op e).1 = some b) : b.Within S ∧ b.isChain = true := by
  cases op with
  | negate =>
    rw [unaryType, negateType_fst] at h
    exact he b h
  | address =>
    obtain ⟨a, ha, rfl⟩ := Option.map_eq_some_iff.1 h
    exact he a ha
  | deref =>
    rw [unaryType] at h
    rcases derefType_cases w e with ⟨c, a, b', ha, hhead, h'⟩ | ⟨err, -, h'⟩ <;> rw [h'] at h
    · obtain rfl := Option.some.inj h
      have hwithin := hS.head (he a ha).1
      have hchain := hw.isChain_head (he a ha).2
      rw [hhead] at hwithin hchain
      exact ⟨hwithin, hchain⟩
    · exact nomatch h

/-! ### Demands -/

section Agreement

variable [RootChoice]

theorem require_of_halted (h : w.halted = true) (expected : Ty) (e : Expr) :
    w.require expected e = w :=
  if_pos h

theorem require_of_none (h : e.type? = none) (expected : Ty) : w.require expected e = w := by
  rw [require, andThen, h]
  exact ite_self w

/-- The two ways in which a demand ends: the type is the one that is asked for, or a fatal error. -/
theorem require_cases (hw : w.halted = false) (h : e.type? = some a) (expected : Ty) :
    (∃ t, w.table.unify expected a = (true, t) ∧ w.require expected e = w.withTable t) ∨
      ∃ t err, w.table.unify expected a = (false, t) ∧ CheckError.isFatal err = true ∧
        w.require expected e = (w.withTable t).record err := by
  rw [require, andThen, if_neg (by simp [hw]), h]
  simp only [convert]
  rcases hr : w.table.unify expected a with ⟨ok, t⟩
  cases ok
  · exact .inr ⟨t, _, rfl, rfl, rfl⟩
  · exact .inl ⟨t, rfl, rfl⟩

/-- A demand for a type without holes touches the holes of the expression. -/
theorem asks_require (hw : w.table.Tidy) (hS : w.table.Closed S) (he : e.TypedIn S)
    (ha : a.isConcrete = true) : Asks S w (w.require a e) := by
  cases hhalted : w.halted with
  | true =>
    rw [require_of_halted hhalted]
    exact .refl w
  | false =>
    cases h : e.type? with
    | none =>
      rw [require_of_none h]
      exact .refl w
    | some b =>
      have hunify := evolves_unify_of_isConcrete hw hS ha (he b h).1 (he b h).2
      rcases require_cases hhalted h a with ⟨t, ht, h⟩ | ⟨t, err, ht, -, h⟩ <;>
        rw [ht] at hunify <;> rw [h]
      · exact .withTable hunify
      · exact (Asks.withTable hunify).record err

/-- **A demand that was met** holds under every solution of the table that it leaves behind, and
commits holes to concrete types only. -/
theorem require_sound (hw : w.table.Tidy) (hS : w.table.Closed S) (he : e.TypedIn S)
    (ha : a.isConcrete = true) (hhalted : (w.require a e).halted = false)
    (hb : e.type? = some b) :
    w.table.CommitsConcrete (w.require a e).table ∧
      ∀ s, (w.require a e).table.Solution s → b.subst s = a := by
  cases hhalted' : w.halted with
  | true =>
    rw [require_of_halted hhalted', hhalted'] at hhalted
    exact nomatch hhalted
  | false =>
    have hcommits := commitsConcrete_unify_of_isConcrete hw hS ha (he b hb).1 (he b hb).2
    rcases require_cases hhalted' hb a with ⟨t, ht, h⟩ | ⟨t, err, -, herr, h⟩
    · rw [ht] at hcommits
      rw [h]
      refine ⟨hcommits, fun s hs ↦ ?_⟩
      have hequal := ((solution_unify hw.valid (covers_of_isConcrete _ ha)
        (hS.covers (he b hb).1) ht).1 hs).2
      rw [Ty.subst_of_isConcrete ha] at hequal
      exact hequal.symm
    · rw [h, halted_record _ herr] at hhalted
      exact nomatch hhalted

@[simp] theorem requireAll_nil_left (w : Walk) (es : List Expr) : w.requireAll [] es = w := by
  rw [requireAll]
  nofun

@[simp] theorem requireAll_nil_right (w : Walk) (ps : List Ty) : w.requireAll ps [] = w := by
  rw [requireAll]
  nofun

theorem requireAll_of_halted (h : w.halted = true) (ps : List Ty) (es : List Expr) :
    w.requireAll ps es = w := by
  induction ps generalizing es with
  | nil => rw [requireAll_nil_left]
  | cons p ps ih =>
    cases es with
    | nil => rw [requireAll_nil_right]
    | cons e es => rw [requireAll, require_of_halted h, ih]

theorem asks_requireAll (ps : List Ty) (es : List Expr) (w : Walk) (hw : w.table.Tidy)
    (hS : w.table.Closed S) (hes : ∀ e ∈ es, e.TypedIn S) (hps : ∀ p ∈ ps, p.isConcrete = true) :
    Asks S w (w.requireAll ps es) := by
  induction ps generalizing es w with
  | nil =>
    rw [requireAll_nil_left]
    exact .refl w
  | cons p ps ih =>
    cases es with
    | nil =>
      rw [requireAll_nil_right]
      exact .refl w
    | cons e es =>
      have hfirst := asks_require hw hS (hes e List.mem_cons_self) (hps p List.mem_cons_self)
      rw [requireAll]
      exact hfirst.trans (ih es _ (hfirst.tidy hw) (hfirst.closed hS)
        (fun x hx ↦ hes x (List.mem_cons_of_mem _ hx)) fun x hx ↦ hps x (List.mem_cons_of_mem _ hx))

/-- Demands on several expressions that were all met hold together. -/
theorem requireAll_sound (ps : List Ty) (es : List Expr) (w : Walk) (hw : w.table.Tidy)
    (hS : w.table.Closed S) (hes : ∀ e ∈ es, e.TypedIn S) (hps : ∀ p ∈ ps, p.isConcrete = true)
    (hlen : ps.length = es.length) (hhalted : (w.requireAll ps es).halted = false) :
    w.table.CommitsConcrete (w.requireAll ps es).table ∧
      ∀ s, (w.requireAll ps es).table.Solution s →
        List.Forall₂ (fun p e ↦ ∀ a, Expr.type? e = some a → a.subst s = p) ps es := by
  induction ps generalizing es w with
  | nil =>
    obtain rfl := List.length_eq_zero_iff.1 hlen.symm
    exact ⟨.refl _, fun s _ ↦ .nil⟩
  | cons p ps ih =>
    cases es with
    | nil => exact nomatch hlen
    | cons e es =>
      have he := hes e List.mem_cons_self
      have hp := hps p List.mem_cons_self
      have hes' : ∀ x ∈ es, x.TypedIn S := fun x hx ↦ hes x (List.mem_cons_of_mem _ hx)
      have hps' : ∀ x ∈ ps, x.isConcrete = true := fun x hx ↦ hps x (List.mem_cons_of_mem _ hx)
      have hfirst := asks_require hw hS he hp
      have hmore := asks_requireAll ps es _ (hfirst.tidy hw) (hfirst.closed hS) hes' hps'
      rw [requireAll] at hhalted ⊢
      have hhalted' : (w.require p e).halted = false :=
        running_of_stays (fun h ↦ requireAll_of_halted h ps es) hhalted
      obtain ⟨hcommits, hall⟩ := ih es _ (hfirst.tidy hw) (hfirst.closed hS) hes' hps'
        (Nat.succ.inj hlen) hhalted
      cases hb : e.type? with
      | none =>
        rw [require_of_none hb] at hcommits hall ⊢
        exact ⟨hcommits, fun s hs ↦ .cons (fun a ha ↦ nomatch hb.symm.trans ha) (hall s hs)⟩
      | some b =>
        obtain ⟨hcommits', hfirst'⟩ := require_sound hw hS he hp hhalted' hb
        refine ⟨hcommits'.trans hcommits, fun s hs ↦ .cons (fun a ha ↦ ?_) (hall s hs)⟩
        obtain rfl := Option.some.inj (hb.symm.trans ha)
        exact hfirst' s (hmore.evolves.becomes.solution hs)

/-! ### Calls and casts -/

/-- **The ways in which a call ends**: it has the result of the function and holds the arguments to
the parameters, or their numbers differ, or what is called is no function. The last is no error of
this rule, and the call is left without a type. -/
theorem callType_cases (w : Walk) (span : Span) (callee : Expr) (args : List Expr) :
    (∃ a ps r, callee.type? = some a ∧ w.table.head a = .func ps r ∧ ps.length = args.length ∧
        w.callType span callee args = (some r, w.requireAll ps args)) ∨
      (∃ err, CheckError.isFatal err = true ∧
        w.callType span callee args = (none, w.record err)) ∨
      ((∀ a, callee.type? = some a → ∀ ps r, w.table.head a ≠ .func ps r) ∧
        w.callType span callee args = (none, w)) := by
  rw [callType]
  cases h : callee.type? with
  | none => exact .inr (.inr ⟨nofun, rfl⟩)
  | some a =>
    rw [Option.map_some]
    have hother : (∀ ps r, w.table.head a ≠ .func ps r) →
        ∀ b, some a = some b → ∀ ps r, w.table.head b ≠ .func ps r :=
      fun hne b hb ↦ Option.some.inj hb ▸ hne
    cases hhead : w.table.head a with
    | func ps r =>
      by_cases hlen : ps.length = args.length
      · exact .inl ⟨a, ps, r, rfl, hhead, hlen, if_pos hlen⟩
      · exact .inr (.inl ⟨_, rfl, if_neg hlen⟩)
    | _ => exact .inr (.inr ⟨hother (by simp [hhead]), rfl⟩)

/-- A call touches the holes of its function and its arguments: the parameters have none. -/
theorem asks_callType (hw : w.table.Tidy) (hS : w.table.Closed S) {callee : Expr}
    {args : List Expr} (hcallee : callee.TypedIn S) (hargs : ∀ e ∈ args, e.TypedIn S)
    (span : Span) : Asks S w (w.callType span callee args).2 ∧
      ∀ r, (w.callType span callee args).1 = some r → r.isConcrete = true := by
  rcases callType_cases w span callee args with
    ⟨a, ps, r, ha, hhead, -, h⟩ | ⟨err, -, h⟩ | ⟨-, h⟩ <;> rw [h]
  · obtain ⟨hps, hr⟩ := Ty.isConcrete_func.1 (isConcrete_of_head hw (hcallee a ha).2 hhead)
    exact ⟨asks_requireAll ps args w hw hS hargs hps, fun r' hr' ↦ Option.some.inj hr' ▸ hr⟩
  · exact ⟨(Asks.refl w).record err, fun r hr ↦ nomatch hr⟩
  · exact ⟨.refl w, fun r hr ↦ nomatch hr⟩

/-- A cast has the type that it names, also if nothing is known of its operand. -/
theorem castType_of_none (h : e.type? = none) (dest : Ty) :
    w.castType e dest = (some dest, w) := by
  rw [castType, h]

/-- The two ways in which a cast ends. -/
theorem castType_cases (h : e.type? = some a) (dest : Ty) :
    (∃ t, w.table.cast dest a = (true, t) ∧ w.castType e dest = (some dest, w.withTable t)) ∨
      ∃ t err, w.table.cast dest a = (false, t) ∧ CheckError.isFatal err = true ∧
        w.castType e dest = (none, (w.withTable t).record err) := by
  rw [castType, h]
  dsimp only
  rcases hr : w.table.cast dest a with ⟨ok, t⟩
  cases ok
  · exact .inr ⟨t, _, rfl, rfl, rfl⟩
  · exact .inl ⟨t, rfl, rfl⟩

theorem asks_castType (hw : w.table.Tidy) (hS : w.table.Closed S) (he : e.TypedIn S) {dest : Ty}
    (hdest : dest.isConcrete = true) : Asks S w (w.castType e dest).2 := by
  cases h : e.type? with
  | none =>
    rw [castType_of_none h]
    exact .refl w
  | some a =>
    have hcast := evolves_cast hw hS hdest (he a h).1 (he a h).2
    rcases castType_cases (w := w) h dest with ⟨t, ht, h⟩ | ⟨t, err, ht, -, h⟩ <;>
      rw [ht] at hcast <;> rw [h]
    · exact .withTable hcast
    · exact (Asks.withTable hcast).record err

end Agreement

end Rules

end Walk

end FrontEnd
