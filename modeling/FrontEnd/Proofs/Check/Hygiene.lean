import FrontEnd.Proofs.Check.Soundness
import FrontEnd.Proofs.Check.Trace

/-!
# No hole outlives its table, and no commitments run in a circle

Holes are numbered from zero again whenever the table is emptied, and nothing in the table would
notice a hole of an earlier statement: its number would mean a new literal. Nor does anything notice
when a hole is committed to a type that contains it, and then most functions of the table would not
come to an end. Neither happens. At **every moment of every run** (`Moment.Sound`) the holes that
are handed to the table are holes of the table, the types of symbols have no holes, function types
have none either, and no commitments run in a circle.

The proof follows the checker once more, now through all that happens and not only to the end. A
definition that is halted is left as it is, so all states up to there were reached without an error
that halts, and for those the regions of holes are known (`Walk.checked_expr`).
-/

namespace FrontEnd

open Table

/-! ### Sound moments -/

/-- A type that may be handed over: its holes are in the table, and its functions have none. -/
def Store.Takes (σ : Store) (a : Ty) : Prop :=
  σ.table.Covers a ∧ a.isChain = true

/-- The state in which everything is in order: the table is tidy, and the types of symbols have no
holes. -/
structure Store.Ready (σ : Store) : Prop where
  tidy : σ.table.Tidy
  concrete : Symbol.AllConcrete σ.symbols

/-- **A sound moment.** -/
structure Moment.Sound [RootChoice] (m : Moment) : Prop where
  /-- Holes that are handed over are numbers of holes that are in the table now. -/
  covers : ∀ a ∈ m.use.types, ∀ i ∈ a.holes, i < m.store.table.size
  /-- Function types that are handed over have no holes. -/
  isChain : ∀ a ∈ m.use.types, a.isChain = true
  /-- Types of symbols have no holes. -/
  concrete : Symbol.AllConcrete m.store.symbols
  /-- Classes are committed to types over the table, in which function types have no holes. -/
  committed : ∀ i a, m.store.table.type? i = some a →
    m.store.table.Covers a ∧ a.isChain = true
  /-- Commitments do not run in a circle. -/
  acyclic : m.store.table.Acyclic
  /-- So everything that is read of a type comes to its end without a bound. -/
  ends : ∀ a, m.store.table.Covers a → m.store.table.HeadsTo a (m.store.table.head a) ∧
    m.store.table.ExpandsTo a (m.store.table.expand a) ∧
    m.store.table.DescribesTo a (m.store.table.describe a)
  /-- And so does making two types agree. -/
  unifies : ∀ a b, m.use = .unify a b →
    UnifiesTo m.store.table a b (m.store.table.unify a b)

/-- Moments without a gap that are all sound, up to a store that is ready for more. -/
structure Traced [RootChoice] (σ : Store) (ms : List Moment) (τ : Store) : Prop where
  chained : Chained σ ms τ
  sound : ∀ m ∈ ms, m.Sound
  stores : ∀ m ∈ ms, m.store.Ready
  ready : τ.Ready

namespace Traced

variable [RootChoice] {σ τ υ : Store} {ms ms' : List Moment} {u : Use}

theorem refl (hσ : σ.Ready) : Traced σ [] σ :=
  ⟨rfl, fun _ h ↦ (nomatch h), fun _ h ↦ (nomatch h), hσ⟩

/-- **One run behind another**: the moments of both are sound, and the second starts where the first
has ended. -/
theorem append (h : Traced σ ms τ) (h' : Traced τ ms' υ) : Traced σ (ms ++ ms') υ where
  chained := h.chained.append h'.chained
  sound := List.forall_mem_append.2 ⟨h.sound, h'.sound⟩
  stores := List.forall_mem_append.2 ⟨h.stores, h'.stores⟩
  ready := h'.ready

/-- **One use** is sound if it is handed types that the store takes, and leaves a store that is
ready for more. -/
theorem single (hσ : σ.Ready) (hu : ∀ a ∈ u.types, σ.Takes a) (hafter : (u.after σ).Ready) :
    Traced σ [⟨σ, u⟩] (u.after σ) := by
  have hvalid := hσ.tidy.valid
  have hacyclic := hσ.tidy.acyclic
  refine ⟨⟨rfl, rfl⟩, fun m hm ↦ ?_, List.forall_mem_singleton.2 hσ, hafter⟩
  obtain rfl := List.mem_singleton.1 hm
  exact
    { covers := fun a ha ↦ (hu a ha).1
      isChain := fun a ha ↦ (hu a ha).2
      concrete := hσ.concrete
      committed := fun i a ha ↦ ⟨hvalid.covers ha, hσ.tidy.chain ha⟩
      acyclic := hacyclic
      ends := fun a ha ↦ ⟨headsTo_head hvalid hacyclic ha, expandsTo_expand hvalid hacyclic ha,
        describesTo_describe hvalid hacyclic ha⟩
      unifies := by
        rintro a b rfl
        exact (complete_unify hvalid (hu a (by simp [Use.types])).1
          (hu b (by simp [Use.types])).1 hafter.tidy.acyclic).run }

/-- Uses that leave the store alone. -/
theorem reads (hσ : σ.Ready) {U : List Use}
    (hU : ∀ u ∈ U, u.after σ = σ ∧ ∀ a ∈ u.types, σ.Takes a) :
    Traced σ (U.map fun u ↦ ⟨σ, u⟩) σ := by
  induction U with
  | nil => exact .refl hσ
  | cons u U ih =>
    obtain ⟨hafter, hu⟩ := hU u List.mem_cons_self
    have hfirst := single hσ hu (hafter.symm ▸ hσ)
    rw [hafter] at hfirst
    exact hfirst.append (ih fun u' hu' ↦ hU u' (List.mem_cons_of_mem _ hu'))

end Traced

namespace Walk

variable {w v : Walk} {S A B L : Set Nat} {a b : Ty} {e lhs rhs : Expr} {globals : Bindings}

theorem Ready.store (hw : w.Ready) : w.store.Ready where
  tidy := hw.tidy
  concrete i a ha := by
    obtain ⟨s, hs, hsa⟩ := Symbol.typeAt?_eq_some_iff.1 ha
    exact hw.concrete s (List.mem_of_getElem? hs) a hsa

theorem ready_of_store (hw : w.store.Ready) : w.Ready :=
  ⟨hw.tidy, fun _ hs _ ha ↦ hw.concrete.mem hs ha⟩

/-- What is made of the holes of a region may be handed to the table. -/
theorem takes_of_within (hS : w.table.Closed S) (ha : a.Within S) (hchain : a.isChain = true) :
    w.store.Takes a :=
  ⟨hS.covers ha, hchain⟩

/-- What has no holes may be handed to any table. -/
theorem takes_of_isConcrete (ha : a.isConcrete = true) : w.store.Takes a :=
  ⟨covers_of_isConcrete _ ha, Ty.isChain_of_isConcrete ha⟩

/-- What a store takes it takes until the table is emptied. -/
theorem takes_withTable {t : Table} (ht : Evolves S w.table t) (ha : w.store.Takes a) :
    (w.withTable t).store.Takes a :=
  ⟨ht.becomes.covers_iff.2 ha.1, ha.2⟩

section Rules

variable [RootChoice]

/-! ### Single nodes -/

/-- **A question to the table** is one moment. It is sound if what it is asked about has only holes
of the table. -/
theorem traced_ask (hw : w.Ready) {u : Use} {answer : Bool × Table} {shown : List Ty}
    (hu : ∀ a ∈ u.types, w.store.Takes a)
    (hafter : u.after w.store = (w.withTable answer.2).store)
    (hevolves : Evolves S w.table answer.2) (hshown : ∀ a ∈ shown, w.store.Takes a) :
    Traced w.store (w.ask u answer shown) (w.withTable answer.2).store := by
  have hready : (w.withTable answer.2).store.Ready :=
    ⟨hevolves.tidy hw.tidy, hw.store.concrete⟩
  have hfirst := Traced.single hw.store hu (hafter.symm ▸ hready)
  rw [hafter] at hfirst
  have hmore : Traced (w.withTable answer.2).store
      (if answer.1 then [] else shown.map fun a ↦ (w.withTable answer.2).moment (.describe a))
      (w.withTable answer.2).store := by
    split
    · exact .refl hready
    · have hreads := Traced.reads (U := shown.map Use.describe) hready ?_
      · rwa [List.map_map] at hreads
      · intro u' hu'
        obtain ⟨a, ha, rfl⟩ := List.mem_map.1 hu'
        refine ⟨rfl, fun b hb ↦ ?_⟩
        obtain rfl := List.mem_singleton.1 hb
        exact takes_withTable hevolves (hshown b ha)
  exact hfirst.append hmore

theorem traced_constant (hw : w.Ready) (span : Span) (c : Constant) :
    Traced w.store (w.constantTrace c) (w.constantType span c).2.store := by
  rw [constantTrace, constantType]
  cases c.kind? with
  | none => exact .refl hw.store
  | some k =>
    exact .single (u := .fresh k) hw.store (List.forall_mem_nil _)
      ⟨hw.tidy.fresh k, hw.store.concrete⟩

omit [RootChoice] in
theorem store_negateType (h : e.type? = some a) : (w.negateType e).2.store =
    (w.withTable (w.table.requireNumber a).2).store := by
  rcases negateType_cases (w := w) h with ⟨t, ht, h⟩ | ⟨t, err, ht, h⟩
  · rw [h, requireNumber_eq, ht]
  · rw [h, requireNumber_eq, ht]
    rfl

theorem traced_negate (hw : w.Ready) (hS : w.table.Closed S) (he : e.TypedIn S) :
    Traced w.store (w.negateTrace e) (w.negateType e).2.store := by
  rw [negateTrace]
  cases h : e.type? with
  | none =>
    rw [negateType_of_none h]
    exact .refl hw.store
  | some a =>
    have ha := takes_of_within hS (he a h).1 (he a h).2
    rw [store_negateType h]
    refine traced_ask hw (S := S) (List.forall_mem_singleton.2 ha) ?_ ?_
      (List.forall_mem_singleton.2 ha)
    · rw [requireNumber_eq]
      rfl
    · rw [requireNumber_eq]
      exact evolves_requireLimit hw.tidy hS (he a h).1 .number

theorem traced_unary (hw : w.Ready) (hS : w.table.Closed S) (he : e.TypedIn S) (op : UnaryOp) :
    Traced w.store (w.unaryTrace op e) (w.unaryType op e).2.store := by
  cases op with
  | negate => exact traced_negate hw hS he
  | address => exact .refl hw.store
  | deref =>
    have hstore : (w.unaryType .deref e).2.store = w.store := by
      rw [unaryType]
      rcases derefType_cases w e with ⟨c, a, b, -, -, h⟩ | ⟨err, -, h⟩
      · rw [h]
      · rw [h]
        rfl
    rw [hstore, unaryTrace]
    cases h : e.type? with
    | none => exact .refl hw.store
    | some a =>
      have ha := takes_of_within hS (he a h).1 (he a h).2
      exact .single (u := .head a) hw.store (List.forall_mem_singleton.2 ha) hw.store

/-- An operator with two operands asks for two things: that its operands agree, and that they are of
a type it applies to. The second is asked only if the first has been granted. -/
theorem traced_binary (hw : w.Ready) (hA : w.table.Closed A) (hB : w.table.Closed B)
    (hdisjoint : ∀ k ∈ A, k ∉ B) (hl : lhs.TypedIn A) (hr : rhs.TypedIn B) (span : Span)
    (op : BinOp) :
    Traced w.store (w.binaryTrace op lhs rhs) (w.binaryType span op lhs rhs).2.store := by
  rw [binaryTrace]
  cases ha : lhs.type? with
  | none =>
    rw [binaryType_of_none (.inl ha)]
    exact .refl hw.store
  | some a =>
    cases hb : rhs.type? with
    | none =>
      rw [binaryType_of_none (.inr hb)]
      exact .refl hw.store
    | some b =>
      have hunify := evolves_unify hw.tidy hA hB hdisjoint (hl a ha).1 (hl a ha).2 (hr b hb).1
        (hr b hb).2
      have hleft := takes_of_within hA (hl a ha).1 (hl a ha).2
      have hright := takes_of_within hB (hr b hb).1 (hr b hb).2
      have hfirst : Traced w.store (w.ask (.unify a b) (w.table.unify a b) [a, b])
          (w.withTable (w.table.unify a b).2).store :=
        traced_ask hw (by simp [Use.types, hleft, hright]) rfl hunify (by simp [hleft, hright])
      dsimp only
      rcases binaryType_cases (w := w) ha hb span op with ⟨t, err, ht, h⟩ | ⟨t, ht, h⟩
      · rw [ht] at hfirst ⊢
        rw [h, if_neg (by simp), List.append_nil]
        exact hfirst
      · -- the two agree, and the left one has to suit the operator
        rw [ht] at hunify hfirst ⊢
        rw [if_pos rfl, requireOperand_eq]
        have hready := ready_of_store hfirst.ready
        have hlimit := evolves_requireLimit hready.tidy (hunify.closed (hA.union hB))
          ((hl a ha).1.mono Set.subset_union_left) op.limit
        have hleft := takes_withTable hunify hleft
        have hright := takes_withTable hunify hright
        have hstore : (w.binaryType span op lhs rhs).2.store =
            (w.withTable (t.requireLimit op.limit a).2).store := by
          rcases h with ⟨u, hu, h⟩ | ⟨u, err, hu, h⟩
          · rw [h, hu]
          · rw [h, hu]
            rfl
        rw [hstore]
        exact hfirst.append (traced_ask hready (List.forall_mem_singleton.2 hleft) rfl hlimit
          (by simp [hleft, hright]))

/-- What is asked for has no holes, and the rest has holes of the region. -/
theorem traced_require (hw : w.Ready) (hS : w.table.Closed S) (he : e.TypedIn S)
    (ha : a.isConcrete = true) :
    Traced w.store (w.requireTrace a e) (w.require a e).store := by
  rw [requireTrace]
  cases hhalted : w.halted with
  | true =>
    rw [require_of_halted hhalted, if_pos rfl]
    exact .refl hw.store
  | false =>
    rw [if_neg (by simp)]
    cases h : e.type? with
    | none =>
      rw [require_of_none h]
      exact .refl hw.store
    | some b =>
      have hunify := evolves_unify_of_isConcrete hw.tidy hS ha (he b h).1 (he b h).2
      have hleft : w.store.Takes a := takes_of_isConcrete ha
      have hright := takes_of_within hS (he b h).1 (he b h).2
      have hstore : (w.require a e).store = (w.withTable (w.table.unify a b).2).store := by
        rcases require_cases hhalted h a with ⟨t, ht, h⟩ | ⟨t, err, ht, -, h⟩
        · rw [h, ht]
        · rw [h, ht]
          rfl
      rw [hstore]
      exact traced_ask hw (by simp [Use.types, hleft, hright]) rfl hunify (by simp [hleft, hright])

theorem traced_requireAll (ps : List Ty) (es : List Expr) (w : Walk) (hw : w.Ready)
    (hS : w.table.Closed S) (hes : ∀ e ∈ es, e.TypedIn S) (hps : ∀ p ∈ ps, p.isConcrete = true) :
    Traced w.store (w.requireAllTrace ps es) (w.requireAll ps es).store := by
  induction ps generalizing es w with
  | nil =>
    rw [requireAll_nil_left]
    exact .refl hw.store
  | cons p ps ih =>
    cases es with
    | nil =>
      rw [requireAll_nil_right]
      exact .refl hw.store
    | cons e es =>
      have he := hes e List.mem_cons_self
      have hp := hps p List.mem_cons_self
      have hfirst := traced_require hw hS he hp
      rw [requireAll]
      exact hfirst.append (ih es _ (ready_of_store hfirst.ready)
        ((asks_require hw.tidy hS he hp).closed hS)
        (fun x hx ↦ hes x (List.mem_cons_of_mem _ hx)) fun x hx ↦ hps x (List.mem_cons_of_mem _ hx))

/-- The parameters of a function have no holes, so all of them can be asked for. -/
theorem traced_call (hw : w.Ready) (hS : w.table.Closed S) {callee : Expr} {args : List Expr}
    (hcallee : callee.TypedIn S) (hargs : ∀ e ∈ args, e.TypedIn S) (span : Span) :
    Traced w.store (w.callTrace callee args) (w.callType span callee args).2.store := by
  rw [callTrace, callType]
  cases h : callee.type? with
  | none => exact .refl hw.store
  | some a =>
    have ha := takes_of_within hS (hcallee a h).1 (hcallee a h).2
    have hfirst : Traced w.store [w.moment (.head a)] w.store :=
      .single hw.store (List.forall_mem_singleton.2 ha) hw.store
    rw [Option.map_some]
    dsimp only
    cases hhead : w.table.head a with
    | func ps r =>
      dsimp only
      split
      · obtain ⟨hps, -⟩ := Ty.isConcrete_func.1 (isConcrete_of_head hw.tidy (hcallee a h).2 hhead)
        exact hfirst.append (traced_requireAll ps args w hw hS hargs hps)
      · exact hfirst
    | _ => exact hfirst

omit [RootChoice] in
theorem takes_castKnownUse? {σ : Store} {dest src : Ty} (hdest : σ.Takes dest) (hsrc : σ.Takes src)
    {u : Use} (hu : castKnownUse? dest src = some u) : ∀ a ∈ u.types, σ.Takes a := by
  unfold castKnownUse? at hu
  split at hu
  · exact nomatch hu
  split at hu
  · exact nomatch hu
  split at hu
  · split at hu
    · -- the types behind two pointers have the holes of the pointers
      obtain rfl := Option.some.inj hu
      exact List.forall_mem_cons.2 ⟨hsrc, List.forall_mem_singleton.2 hdest⟩
    · exact nomatch hu
  · obtain rfl := Option.some.inj hu
    exact List.forall_mem_cons.2 ⟨hdest, List.forall_mem_singleton.2 hsrc⟩

omit [RootChoice] in
theorem takes_head (hw : w.Ready) (ha : w.store.Takes a) : w.store.Takes (w.table.head a) :=
  ⟨covers_head hw.tidy.valid ha.1, hw.tidy.isChain_head ha.2⟩

omit [RootChoice] in
/-- A cast hands to the table heads of what it is asked about, or what these point to. -/
theorem takes_castUse? (hw : w.Ready) {dest src : Ty} (hdest : w.store.Takes dest)
    (hsrc : w.store.Takes src) {u : Use} (hu : castUse? w.table dest src = some u) :
    ∀ a ∈ u.types, w.store.Takes a := by
  have hdest := takes_head hw hdest
  have hsrc := takes_head hw hsrc
  rw [castUse?] at hu
  cases hhead : w.table.head src with
  | hole i =>
    rw [hhead] at hu hsrc
    obtain rfl := Option.some.inj hu
    exact List.forall_mem_cons.2 ⟨hdest, List.forall_mem_singleton.2 hsrc⟩
  | _ =>
    rw [hhead] at hu hsrc
    exact takes_castKnownUse? hdest hsrc hu

/-- What a cast leaves behind is what its only question to the table leaves behind. -/
theorem store_castKnown (σ : Store) (dest src : Ty) :
    ((castKnownUse? dest src).map (Use.after · σ)).getD σ =
      { σ with table := (σ.table.castKnown dest src).2 } := by
  unfold castKnownUse? castKnown
  split
  · rfl
  split
  · rfl
  cases src with
  | pointer c a =>
    cases dest with
    | pointer d b =>
      dsimp only
      split <;> rfl
    | _ => rfl
  | _ => rfl

theorem store_cast (σ : Store) (dest src : Ty) :
    ((castUse? σ.table dest src).map (Use.after · σ)).getD σ =
      { σ with table := (σ.table.cast dest src).2 } := by
  rw [castUse?, Table.cast]
  cases σ.table.head src with
  | hole i => rfl
  | _ => exact store_castKnown σ _ _

theorem traced_cast (hw : w.Ready) (hS : w.table.Closed S) (he : e.TypedIn S) {dest : Ty}
    (hdest : dest.isConcrete = true) :
    Traced w.store (w.castTrace e dest) (w.castType e dest).2.store := by
  rw [castTrace]
  cases h : e.type? with
  | none =>
    rw [castType_of_none h]
    exact .refl hw.store
  | some a =>
    have hsrc := takes_of_within hS (he a h).1 (he a h).2
    have hdest' : w.store.Takes dest := takes_of_isConcrete hdest
    have hevolves := evolves_cast hw.tidy hS hdest (he a h).1 (he a h).2
    have hready : (w.withTable (w.table.cast dest a).2).store.Ready :=
      ⟨hevolves.tidy hw.tidy, hw.store.concrete⟩
    have hstore : (w.castType e dest).2.store = (w.withTable (w.table.cast dest a).2).store := by
      rcases castType_cases (w := w) h dest with ⟨t, ht, h⟩ | ⟨t, err, ht, -, h⟩
      · rw [h, ht]
      · rw [h, ht]
        rfl
    have hheads : Traced w.store [w.moment (.head a), w.moment (.head dest)] w.store :=
      .reads (U := [.head a, .head dest]) hw.store (by simp [Use.types, Use.after, hsrc, hdest'])
    have hquestion : Traced w.store ((castUse? w.table dest a).map w.moment).toList
        (w.withTable (w.table.cast dest a).2).store := by
      have hafter : _ = (w.withTable (w.table.cast dest a).2).store := store_cast w.store dest a
      cases hu : castUse? w.table dest a with
      | none =>
        rw [show castUse? w.store.table dest a = none from hu] at hafter
        rw [← hafter]
        exact .refl hw.store
      | some u =>
        rw [show castUse? w.store.table dest a = some u from hu] at hafter
        rw [← hafter] at hready ⊢
        exact .single hw.store (takes_castUse? hw hdest' hsrc hu) hready
    rw [hstore]
    refine (hheads.append hquestion).append ?_
    split
    · exact .refl hready
    · exact .single hready (List.forall_mem_singleton.2 (takes_withTable hevolves hsrc)) hready

/-! ### Trees -/

/-- A node adds a moment of its own only if it is given a type. -/
theorem traced_conclude (hw : w.Ready) {rule : Walk → Option Ty × Walk} {ms : List Moment}
    (hrule : w.halted = false → Traced w.store ms (rule w).2.store)
    (htype : (w.conclude e rule).2.halted = false → ∀ a, (rule w).1 = some a →
      (rule w).2.store.Takes a) :
    Traced w.store (w.concludeTrace ms (rule w)) (w.conclude e rule).2.store := by
  cases hhalted : w.halted with
  | true =>
    rw [conclude_of_halted hhalted, concludeTrace, if_pos hhalted]
    exact .refl hw.store
  | false =>
    have htraced := hrule hhalted
    rw [conclude_snd hhalted] at htype ⊢
    rw [concludeTrace, if_neg (by simp [hhalted])]
    refine htraced.append ?_
    split
    · exact .refl htraced.ready
    · rename_i hrun
      cases ha : (rule w).1 with
      | none => exact .refl htraced.ready
      | some a =>
        have htakes := htype (Bool.eq_false_iff.2 hrun) a ha
        exact .single (u := .annotate a) htraced.ready (List.forall_mem_singleton.2 htakes)
          htraced.ready

/-- The type that is written into a tree is one of the table. -/
theorem takes_conclude {e₀ : Expr} (hw : w.Ready) (he₀ : e₀.Formed)
    {rule : Walk → Option Ty × Walk} (heq : expr globals e₀ w = v.conclude e rule)
    (hrun : (v.conclude e rule).2.halted = false) (ha : (rule v).1 = some a) :
    (rule v).2.store.Takes a := by
  obtain ⟨S, hS⟩ := checked_expr w.symbols e₀ w hw he₀ (heq ▸ hrun)
  rw [heq, (conclude_of_running hrun).2.2] at hS
  obtain ⟨hwithin, hchain⟩ := hS.typed _ (List.mem_singleton.2 rfl) a
    ((Expr.type?_withType _ _).trans ha)
  exact takes_of_within hS.closed hwithin hchain

omit [RootChoice] in
theorem store_ident (n : Note) (name : String) (symbol : Option Nat) :
    (w.ident globals n name symbol).2.store = w.store := by
  rw [Walk.ident]
  split
  · rfl
  · split <;> rfl

theorem traced_ident (hw : w.Ready) (name : String) :
    Traced w.store (w.identTrace globals name) w.store := by
  rw [identTrace]
  split
  · exact .refl hw.store
  · cases ha : (w.scope.lookup globals name).bind w.symbolType? with
    | none => exact .refl hw.store
    | some a =>
      obtain ⟨i, -, hi⟩ := Option.bind_eq_some_iff.1 ha
      have hconcrete := takes_of_isConcrete (w := w) (hw.store.concrete i a hi)
      exact .single (u := .annotate a) hw.store (List.forall_mem_singleton.2 hconcrete) hw.store

/-- The rule for a node, on top of its parts. -/
theorem traced_node {e' : Expr} {final : List Symbol} (hv : v.Ready) (htop : e.SameTop e')
    (hformed : e.namesConcrete) (h : CheckedEach globals final w e'.parts v) :
    Traced v.store (v.nodeTrace e') (v.nodeType e').2.store := by
  cases htop with
  | constant n c => exact traced_constant hv n.span c
  | unary n op _ e =>
    obtain _ | ⟨he, _ | _⟩ := h
    exact traced_unary hv he.closed (he.typed _ (List.mem_singleton.2 rfl)) op
  | binary n op _ l _ r =>
    obtain _ | ⟨hl, _ | ⟨hr, _ | _⟩⟩ := h
    exact traced_binary hv (hr.grows.closed_of_closed hl.closed) hr.closed
      (hl.toAdvances.disjoint hr.toAdvances) (hl.typed _ (List.mem_singleton.2 rfl))
      (hr.typed _ (List.mem_singleton.2 rfl)) n.span op
  | call n _ f _ args =>
    obtain ⟨S, hS⟩ := h.checked
    exact traced_call hv hS.closed (hS.typed _ List.mem_cons_self)
      (fun e he ↦ hS.typed e (List.mem_cons_of_mem _ he)) n.span
  | cast n _ e dest =>
    obtain _ | ⟨he, _ | _⟩ := h
    exact traced_cast hv he.closed (he.typed _ (List.mem_singleton.2 rfl)) hformed

/-- **From parts to lists.** A walk that is running behind a part has checked it, and is ready for
the next one. -/
theorem Each.traced {es : List Expr}
    (h : Each globals (fun e w ↦ w.Ready → e.Formed →
      Traced w.store (exprTrace globals e w) (expr globals e w).2.store) es w) (hw : w.Ready)
    (hformed : ∀ x ∈ Expr.nodesAll es, x.namesConcrete) :
    Traced w.store (exprsTrace globals es w) (exprs globals es w).2.store := by
  induction h with
  | nil w =>
    rw [exprs_nil, exprsTrace]
    exact .refl hw.store
  | cons hhead _ ih =>
    obtain ⟨he, hes⟩ := List.forall_mem_append.1 hformed
    have hfirst := hhead hw he
    rw [exprs_cons, exprsTrace]
    exact hfirst.append (ih (ready_of_store hfirst.ready) hes)

/-- **Every moment of checking an expression is sound**, also if it is halted on the way. -/
theorem traced_expr (e : Expr) (w : Walk) (hw : w.Ready) (he : e.Formed) :
    Traced w.store (exprTrace globals e w) (expr globals e w).2.store := by
  refine expr_of_rules globals (P := fun e w ↦ w.Ready → e.Formed →
    Traced w.store (exprTrace globals e w) (expr globals e w).2.store) ?_ ?_ e w hw he
  · intro n name symbol w hw _
    rw [expr_ident, exprTrace, store_ident]
    exact traced_ident hw name
  · intro e e' w htop hparts heach hw he
    have hformed := Expr.forall_mem_nodesAll_parts he
    have hfirst := heach.traced hw hformed
    have hready := ready_of_store hfirst.ready
    have heq := expr_eq_conclude htop hparts
    rw [exprTrace_eq_append htop hparts, heq]
    refine hfirst.append (traced_conclude hready (fun hv ↦ ?_) fun hrun a ↦
      takes_conclude hw he heq hrun)
    have hchecked := checkedEach_exprs w.symbols e.parts w hw hformed hv
    rw [hparts] at hchecked
    exact traced_node hready htop (he _ e.mem_nodes_self) hchecked

/-! ### Statements -/

/-- Deciding the holes of a statement, and looking at what its literals have become. -/
theorem traced_settle (hw : w.Ready) (hwaiting : ∀ l ∈ w.waiting, l.hole < w.table.size) :
    Traced w.store
      (w.moment .settleAll ::
        w.waiting.map fun l ↦ (w.withTable w.table.settleAll).moment (.lookup l.hole))
      (w.withTable w.table.settleAll).store := by
  have hsettle := evolves_settleAll hw.tidy
  have hready : (w.withTable w.table.settleAll).store.Ready :=
    ⟨hsettle.tidy hw.tidy, hw.store.concrete⟩
  have hfirst : Traced w.store [w.moment .settleAll] (w.withTable w.table.settleAll).store :=
    .single hw.store (List.forall_mem_nil _) hready
  have hlookups := Traced.reads (U := w.waiting.map fun l ↦ .lookup l.hole) hready ?_
  · rw [List.map_map] at hlookups
    exact hfirst.append hlookups
  · intro u hu
    obtain ⟨l, hl, rfl⟩ := List.mem_map.1 hu
    refine ⟨rfl, List.forall_mem_singleton.2 ⟨fun i hi ↦ ?_, rfl⟩⟩
    obtain rfl := List.mem_singleton.1 hi
    exact hsettle.size_eq.symm ▸ hwaiting l hl

/-- Replacing the holes in a tree, and emptying the table. -/
theorem traced_expand (hw : w.Ready)
    (hnodes : ∀ x ∈ e.nodes, ∀ a, x.type? = some a → w.store.Takes a) :
    Traced w.store
      ((e.nodes.filterMap Expr.type?).map (fun a ↦ w.moment (.expand a)) ++ [w.moment .reset])
      ⟨w.symbols, .empty⟩ := by
  have hreads := Traced.reads (U := (e.nodes.filterMap Expr.type?).map .expand) hw.store ?_
  · rw [List.map_map] at hreads
    exact hreads.append (.single (u := .reset) hw.store (List.forall_mem_nil _)
      ⟨Tidy.empty, hw.store.concrete⟩)
  · intro u hu
    obtain ⟨a, ha, rfl⟩ := List.mem_map.1 hu
    obtain ⟨x, hx, hxa⟩ := List.mem_filterMap.1 ha
    exact ⟨rfl, List.forall_mem_singleton.2 (hnodes x hx a hxa)⟩

/-- **A checkpoint** reads only holes of the statement, and leaves none behind unless it fails. -/
theorem traced_checkpoint (hw : w.Ready)
    (hwaiting : w.halted = false → ∀ l ∈ w.waiting, l.hole < w.table.size)
    (hnodes : w.halted = false → ∀ x ∈ e.nodes, ∀ a, x.type? = some a → w.store.Takes a) :
    Traced w.store (w.checkpointTrace e) (w.checkpoint e).2.store := by
  cases hhalted : w.halted with
  | true =>
    rw [checkpointTrace, checkpoint_of_halted hhalted, if_pos hhalted]
    exact .refl hw.store
  | false =>
    have hsettled := traced_settle hw (hwaiting hhalted)
    have hsettle := evolves_settleAll hw.tidy
    rw [checkpointTrace, checkpoint, if_neg (by simp [hhalted]), if_neg (by simp [hhalted])]
    dsimp only
    refine hsettled.append ?_
    rw [show (w.withTable w.table.settleAll).table = w.table.settleAll from rfl]
    cases hfind : w.waiting.find? fun l ↦ (w.table.settleAll.type? l.hole).isNone with
    | some l =>
      have hl := hwaiting hhalted l (List.mem_of_find?_eq_some hfind)
      refine .single (u := .describe (.hole l.hole)) hsettled.ready
        (List.forall_mem_singleton.2 ⟨fun i hi ↦ ?_, rfl⟩) hsettled.ready
      obtain rfl := List.mem_singleton.1 hi
      exact hsettle.size_eq.symm ▸ hl
    | none =>
      exact traced_expand (ready_of_store hsettled.ready) fun x hx a ha ↦
        takes_withTable hsettle (hnodes hhalted x hx a ha)

omit [RootChoice] in
/-- The literals that wait have the holes of the statement. -/
theorem waiting_lt (hw : w.Resting) (h : Advances w S v) :
    ∀ l ∈ v.waiting, l.hole < v.table.size := by
  intro l hl
  have hmem : l.hole ∈ v.waiting.map (·.hole) := List.mem_map_of_mem hl
  rw [h.waiting_eq, hw.waiting_eq, hw.size_eq] at hmem
  have := List.mem_range'_1.1 hmem
  omega

variable (globals) in
/-- An expression and its checkpoint: when it comes there, the holes of literals that wait and of
types in the tree are holes of the table. -/
theorem traced_unlabelled (hw : w.Resting) (he : e.Formed) :
    Traced w.store (w.unlabelledTrace globals e) (w.unlabelled globals e).2.store := by
  have hfirst : Traced w.store (exprTrace globals e w) _ := traced_expr e w hw.ready he
  refine hfirst.append (traced_checkpoint (ready_of_store hfirst.ready) (fun hrun ↦ ?_)
    fun hrun x hx a ha ↦ ?_)
  · obtain ⟨S, hS⟩ := checked_expr w.symbols e w hw.ready he hrun
    exact waiting_lt hw hS.toAdvances
  · obtain ⟨S, hS⟩ := checked_expr w.symbols e w hw.ready he hrun
    exact hS.covers x (by simpa using hx) a ha

theorem traced_labelled (hw : w.Resting) (he : e.Formed) (ha : a.isConcrete = true) :
    Traced w.store (w.labelledTrace globals a e) (w.labelled globals a e).2.store := by
  have hfirst : Traced w.store (exprTrace globals e w) _ := traced_expr e w hw.ready he
  rw [labelledTrace, labelled]
  dsimp only
  rw [List.append_assoc]
  refine hfirst.append ?_
  cases hrun : (expr globals e w).2.halted with
  | true =>
    rw [require_of_halted hrun, requireTrace, checkpointTrace, checkpoint_of_halted hrun,
      if_pos hrun, if_pos hrun]
    exact .refl hfirst.ready
  | false =>
    obtain ⟨S, hS⟩ := checked_expr w.symbols e w hw.ready he hrun
    have htyped := hS.typed _ (List.mem_singleton.2 rfl)
    have hasks := asks_require hS.tidy hS.closed htyped ha
    have hsecond := traced_require (ready_of_store hfirst.ready) hS.closed htyped ha
    refine hsecond.append (traced_checkpoint (ready_of_store hsecond.ready) (fun _ ↦ ?_)
      fun _ x hx b hb ↦ ?_)
    · exact waiting_lt hw (hS.toAdvances.asks hasks)
    · obtain ⟨hcovers, hchain⟩ := hS.covers x (by simpa using hx) b hb
      exact ⟨hasks.evolves.becomes.covers_iff.2 hcovers, hchain⟩

omit [RootChoice] in
/-- Binding a name touches neither the table nor the types of symbols. -/
theorem store_declare (w : Walk) (i : Nat) : (w.declare i).store = w.store := by
  rw [declare, andThen]
  split
  · rfl
  split
  · rfl
  split <;> rfl

omit [RootChoice] in
theorem store_foldl_declare (params : List Nat) (w : Walk) :
    (params.foldl declare w).store = w.store := by
  induction params generalizing w with
  | nil => rfl
  | cons i params ih => exact (ih _).trans (store_declare w i)

omit [RootChoice] in
theorem store_push (w : Walk) : w.push.store = w.store := by
  rw [push, andThen]
  split <;> rfl

omit [RootChoice] in
theorem store_pop (w : Walk) : w.pop.store = w.store := by
  rw [pop, andThen]
  split <;> rfl

/-- A symbol is only ever given a type from which all holes are gone. -/
theorem traced_adopt (hw : w.Ready) (hrest : w.halted = false → w.Resting)
    (hconcrete : w.halted = false → ∀ a, e.type? = some a → a.isConcrete = true) (i : Nat) :
    Traced w.store (w.adoptTrace i e) (w.adopt i e).store := by
  rw [adoptTrace]
  cases hhalted : w.halted with
  | true =>
    rw [adopt_of_halted hhalted, if_pos rfl]
    exact .refl hw.store
  | false =>
    rw [if_neg (by simp)]
    cases ha : e.type? with
    | none =>
      rw [adopt, andThen, if_neg (by simp [hhalted]), ha]
      exact .refl hw.store
    | some a =>
      have ha' := hconcrete hhalted a ha
      rw [adopt_of_some hhalted ha]
      exact .single (u := .assign i a) hw.store
        (List.forall_mem_singleton.2 (takes_of_isConcrete ha'))
        ((hrest hhalted).setSymbolType ha' i).ready.store

/-- The ways to declare a variable, one by one. Behind its initial value the walk is at rest, so the
type that it gives away has no holes. -/
theorem traced_letVar (hw : w.Resting) {v : Variable} (hinit : ∀ e, v.init? = some e → e.Formed) :
    Traced w.store (w.letVarTrace globals v) (w.letVar globals v).2.store := by
  rw [letVarTrace]
  cases hhalted : w.halted with
  | true =>
    rw [letVar_of_halted hhalted, if_pos rfl]
    exact .refl hw.ready.store
  | false =>
    rw [letVar, hhalted, if_neg (by simp), if_neg (by simp)]
    cases htype : w.symbolType? v.symbol with
    | some label =>
      cases hv : v.init? with
      | some init =>
        dsimp only
        rw [store_declare]
        exact traced_labelled hw (hinit init hv) (hw.concrete _ _ htype)
      | none =>
        dsimp only
        rw [store_declare]
        exact .refl hw.ready.store
    | none =>
      cases hv : v.init? with
      | some init =>
        dsimp only
        rw [store_declare]
        have hfirst := traced_unlabelled globals hw (hinit init hv)
        exact hfirst.append (traced_adopt (ready_of_store hfirst.ready)
          (fun hrun ↦ (unlabelled_of_running hw (hinit init hv) hrun).1)
          (fun hrun ↦ (unlabelled_of_running hw (hinit init hv) hrun).2.2.1) v.symbol)
      | none =>
        dsimp only
        split <;> exact .refl hw.ready.store

variable (globals) in
theorem traced_stmt (hw : w.Resting) {s : Stmt} (hs : s.Formed w.symbols.length) :
    Traced w.store (w.stmtTrace globals s) (w.stmt globals s).2.store := by
  cases s with
  | letVar v => exact traced_letVar hw hs.expr
  | expr e => exact traced_unlabelled globals hw (hs.expr e rfl)

theorem stmtsTrace_of_halted (h : w.halted = true) (ss : List Stmt) :
    w.stmtsTrace globals ss = [] := by
  induction ss with
  | nil => rfl
  | cons s ss ih => rw [stmtsTrace, stmtTrace_of_halted h, stmt_of_halted h, ih, List.append_nil]

/-- **Statements lead from rest to rest**, up to the one that is halted. Behind that nothing
happens. -/
theorem traced_stmts (ss : List Stmt) (w : Walk) (h : w.ComesTo globals L ss) :
    Traced w.store (w.stmtsTrace globals ss) (w.stmts globals ss).2.store := by
  induction ss generalizing w with
  | nil => exact .refl h.resting.ready.store
  | cons s ss ih =>
    have hfirst := traced_stmt globals h.resting (h.formed s List.mem_cons_self)
    rw [stmts_cons, stmtsTrace]
    refine hfirst.append ?_
    cases hrun : (w.stmt globals s).2.halted with
    | true =>
      rw [stmts_of_halted hrun, stmtsTrace_of_halted hrun]
      exact .refl hfirst.ready
    | false => exact ih _ (h.next hrun)

/-! ### Definitions -/

/-- **A definition starts from rest**, so all its moments are sound. -/
theorem traced_content {d : Definition} (h : w.Meets globals L d) :
    Traced w.store (w.contentTrace globals d.content) (w.content globals d.content).2.store := by
  cases hcontent : d.content with
  | function symbol params result body? =>
    have hstore : (params.foldl declare w.push).store = w.store :=
      (store_foldl_declare params w.push).trans (store_push w)
    rw [content_function, store_pop, contentTrace, ← hstore]
    cases body? with
    | none => exact .refl (h.params hcontent).1.ready.store
    | some b =>
      rw [body_some, store_pop, bodyTrace, ← store_push]
      exact traced_stmts b.stmts _ (h.body hcontent).1
  | global v =>
    have hexprs := h.formed.exprs
    rw [Definition.exprs, hcontent] at hexprs
    rw [content, contentTrace, globalTrace, global]
    split
    · exact .refl h.resting.ready.store
    · cases htype : w.symbolType? v.symbol with
      | none => exact .refl h.resting.ready.store
      | some label =>
        cases hv : v.init? with
        | none => exact .refl h.resting.ready.store
        | some init =>
          exact traced_labelled h.resting (hexprs init (by simp [hv]))
            (h.resting.concrete _ _ htype)

theorem traced_definition {d : Definition} (h : w.Meets globals L d) :
    Traced w.store (w.definitionTrace globals d) (w.definition globals d).2.store := by
  have hstore : ((w.enter d.file).tags d).store = w.store := by
    rw [tags]
    split <;> rfl
  rw [definitionTrace, ← hstore]
  have hreset : ∀ v : Walk, v.store.Ready → Traced v.store [v.moment .reset] v.leave.store :=
    fun v hv ↦ .single (u := .reset) hv (List.forall_mem_nil _) ⟨Tidy.empty, hv.concrete⟩
  cases hhalted : ((w.enter d.file).tags d).halted with
  | true =>
    rw [definition_of_halted hhalted, if_pos rfl]
    exact hreset _ h.tags.resting.ready.store
  | false =>
    rw [definition_of_tags hhalted, if_neg (by simp)]
    have hcontent := traced_content h.tags
    exact hcontent.append (hreset _ hcontent.ready)

/-- So are those of a program, one definition behind another. -/
theorem traced_definitions (ds : List Definition) (w : Walk) (hw : w.Resting)
    (hds : ∀ d ∈ ds, w.Meets globals L d) :
    Traced w.store (w.definitionsTrace globals ds) (w.definitions globals ds).2.2.store := by
  induction ds generalizing w with
  | nil => exact .refl hw.ready.store
  | cons d ds ih =>
    obtain ⟨hd, hds⟩ := List.forall_mem_cons.1 hds
    exact (traced_definition hd).append
      (ih _ hd.resting_definition fun d' hd' ↦ hd.next (hds d' hd'))

end Rules

end Walk

namespace Program

/-- **Hygiene**. The moments of checking a program lead without a gap from the symbols that were
read to the symbols that are reported, from an empty table to an empty one, and every one of them is
sound. -/
theorem sound_of_mem_trace [RootChoice] (name : String) (sources : List SourceFile) :
    Chained ⟨(ofFiles name sources).symbols, .empty⟩ (ofFiles name sources).trace
        ⟨(ofFiles name sources).check.program.symbols, .empty⟩ ∧
      (∀ m ∈ (ofFiles name sources).trace, m.Sound) ∧
      Symbol.AllConcrete (ofFiles name sources).check.program.symbols := by
  have hp := formed_ofFiles name sources
  generalize ofFiles name sources = p at hp ⊢
  have htraced := Walk.traced_definitions p.definitions _ hp.resting hp.meets
  have hrest := Walk.resting_definitions p.definitions _ hp.resting hp.meets
  have hstore : ((Walk.start p.symbols).definitions p.globals p.definitions).2.2.store =
      ⟨p.check.program.symbols, .empty⟩ :=
    congrArg (Store.mk p.check.program.symbols) hrest.table_eq
  exact ⟨hstore ▸ htraced.chained, htraced.sound, hp.allConcrete_check⟩

/-- Two literals meet, one of them behind a pointer that the other one, `null`, is committed to. -/
theorem sound_of_mem_trace_null :
    let p := ofFiles "main" [⟨"test.berry", "func main() { *(null + &5) + 1; }"⟩]
    ∃ m ∈ p.trace, m.use = .unify (.hole 0) (.pointer false (.hole 1)) ∧ m.Sound := by
  intro p
  have huse : ∃ m ∈ p.trace, m.use = .unify (.hole 0) (.pointer false (.hole 1)) := by
    decide +kernel
  obtain ⟨m, hm, hunify⟩ := huse
  exact ⟨m, hm, hunify, (sound_of_mem_trace "main" _).2.1 m hm⟩

end Program

end FrontEnd
