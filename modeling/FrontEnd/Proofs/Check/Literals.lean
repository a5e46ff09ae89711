import FrontEnd.Proofs.Check.Values
import FrontEnd.Proofs.Table.Defaults
import FrontEnd.Proofs.Table.Histories
import Mathlib.Data.List.Find

/-!
# Literals and their checkpoints

A literal without a type of its own gets a hole, and waits. When its statement comes to the
checkpoint, those that wait are the literals of the tree from left to right, and the limit on the
class of each is no weaker than the one that the literal came with (`Walk.Awaits`). So what the
checkpoint does can be said of the tree: it is halted by the first `null` whose class is still open
and without a limit, and if there is none, every literal gets what its class is committed to, or
else the default of its class (`Walk.Checkpoint`).
-/

namespace FrontEnd

open Table

/-- What is not decided by a default is open and without a limit. -/
theorem Table.isNone_type?_settleAll (t : Table) (i : Nat) :
    (t.settleAll.type? i).isNone = ((t.type? i).isNone && t.kind i == .null) := by
  rw [type?_settleAll]
  cases t.type? i with
  | some a => rfl
  | none => cases t.kind i <;> rfl

/-- An open hole that has a type when all are settled has the default of its limit. -/
theorem Table.expand_settleAll_of_open {t : Table} (ht : t.settleAll.Tidy) {i : Nat}
    (hopen : t.type? i = none) (hconcrete : (t.settleAll.expand (.hole i)).isConcrete = true) :
    t.kind i = .float ∧ t.settleAll.expand (.hole i) = .f32 ∨
      (t.kind i = .number ∨ t.kind i = .int) ∧ t.settleAll.expand (.hole i) = .i64 := by
  have htype := type?_settleAll t i
  rw [hopen, Option.none_or] at htype
  cases hkind : t.kind i with
  | null =>
    rw [hkind] at htype
    rw [expand_of_none htype] at hconcrete
    cases hconcrete
  | float =>
    rw [hkind] at htype
    exact .inl ⟨rfl, expand_of_some ht.valid ht.acyclic htype⟩
  | number =>
    rw [hkind] at htype
    exact .inr ⟨.inl rfl, expand_of_some ht.valid ht.acyclic htype⟩
  | int =>
    rw [hkind] at htype
    exact .inr ⟨.inr rfl, expand_of_some ht.valid ht.acyclic htype⟩

/-! ### Leaves -/

namespace Expr

/-- Whether an expression has no parts. -/
def isLeaf (e : Expr) : Bool :=
  e.parts.isEmpty

section Leaves

variable {text : List Char}

theorem pairwise_leavesAll {es : List Expr} (hplaced : ∀ e ∈ es, e.Placed text)
    (hordered : es.Pairwise fun x y ↦ x.span.Before y.span)
    (h : ∀ e ∈ es, (e.nodes.filter isLeaf).Pairwise fun x y ↦ x.span.Before y.span) :
    ((nodesAll es).filter isLeaf).Pairwise fun x y ↦ x.span.Before y.span := by
  induction es with
  | nil => exact .nil
  | cons e es ih =>
    obtain ⟨hbefore, hordered⟩ := List.pairwise_cons.1 hordered
    obtain ⟨hfirst, hplaced⟩ := List.forall_mem_cons.1 hplaced
    obtain ⟨he, h⟩ := List.forall_mem_cons.1 h
    rw [nodesAll_cons, List.filter_append]
    refine List.pairwise_append.2 ⟨he, ih hplaced hordered h, fun x hx y hy ↦ ?_⟩
    obtain ⟨z, hz, hy⟩ := mem_nodesAll.1 (List.mem_filter.1 hy).1
    have hx := within_of_placed e hfirst x (List.mem_filter.1 hx).1
    have hy := within_of_placed z (hplaced z hz) y hy
    exact Nat.le_trans hx.2 (Nat.le_trans (hbefore z hz) hy.1)

/-- **From left to right**: the leaves of an expression stand one behind another. -/
theorem pairwise_leaves (e : Expr) (h : e.Placed text) :
    (e.nodes.filter isLeaf).Pairwise fun x y ↦ x.span.Before y.span := by
  induction e using partsInduction with
  | step e ih =>
    rw [nodes_eq, List.filter_cons]
    split
    · rename_i hleaf
      rw [List.isEmpty_iff.1 hleaf]
      exact List.pairwise_singleton _ _
    · exact pairwise_leavesAll (fun _ hx ↦ h.part hx) h.stands.ordered
        fun x hx ↦ ih x hx (h.part hx)

end Leaves

/-! ### Literals that wait -/

/-- What waits for the type of a literal that has a hole. -/
def waits? : Expr → Option Waiting
  | constant n c =>
    match c.kind?, n.type? with
    | some _, some (.hole i) => some ⟨i, n.span⟩
    | _, _ => none
  | _ => none

/-- Whether an expression is a `null` whose class is **open and without a limit**. -/
def isOpenNull (t : Table) : Expr → Bool
  | constant n .null =>
    match n.type? with
    | some (.hole i) => (t.type? i).isNone && t.kind i == .null
    | _ => false
  | _ => false

theorem isOpenNull_iff {t : Table} {e : Expr} : e.isOpenNull t = true ↔
    ∃ n i, e = .constant n .null ∧ n.type? = some (.hole i) ∧ t.type? i = none ∧
      t.kind i = .null := by
  constructor
  · intro h
    rw [isOpenNull.eq_def] at h
    split at h
    · split at h
      · rename_i i hi
        obtain ⟨hnone, hkind⟩ := Bool.and_eq_true_iff.1 h
        exact ⟨_, i, rfl, hi, Option.isNone_iff_eq_none.1 hnone, eq_of_beq hkind⟩
      · cases h
    · cases h
  · rintro ⟨n, i, rfl, hi, hnone, hkind⟩
    simp [isOpenNull, hi, hnone, hkind]

/-- **The first one in the tree is the first one in the text.** -/
theorem before_of_find? {t : Table} {text : List Char} {e y z : Expr} (hplaced : e.Placed text)
    (hy : e.nodes.find? (·.isOpenNull t) = some y) (hz : z ∈ e.nodes)
    (hopen : z.isOpenNull t = true) : z = y ∨ y.span.Before z.span := by
  obtain ⟨hyopen, before, after, hnodes, hbefore⟩ := List.find?_eq_some_iff_append.1 hy
  have hleaf : ∀ {x : Expr}, x.isOpenNull t = true → x.isLeaf = true := by
    intro x hx
    obtain ⟨n, i, rfl, -⟩ := isOpenNull_iff.1 hx
    rfl
  have hleaves := pairwise_leaves e hplaced
  rw [hnodes, List.filter_append, List.filter_cons_of_pos (hleaf hyopen)] at hleaves
  rw [hnodes] at hz
  rcases List.mem_append.1 hz with hz | hz
  · exact absurd hopen (by simpa using hbefore z hz)
  rcases List.mem_cons.1 hz with rfl | hz
  · exact .inl rfl
  · exact .inr ((List.pairwise_cons.1 (List.pairwise_append.1 hleaves).2.1).1 z
      (List.mem_filter.2 ⟨hz, hleaf hopen⟩))

/-- A literal has a hole, and the class of the hole is under the limit of the literal. -/
def HasHole (t : Table) : Expr → Prop
  | constant n c => ∀ k, c.kind? = some k →
    ∃ i, n.type? = some (.hole i) ∧ i < t.size ∧ k ≤ t.kind i
  | _ => True

theorem HasHole.mono {t u : Table} {e : Expr} (h : e.HasHole t) (hsize : t.size ≤ u.size)
    (hkind : ∀ {i}, i < t.size → t.kind i ≤ u.kind i) : e.HasHole u := by
  cases e with
  | constant n c =>
    intro k hk
    obtain ⟨i, hi, hlt, hle⟩ := h k hk
    exact ⟨i, hi, Nat.lt_of_lt_of_le hlt hsize, hle.trans (hkind hlt)⟩
  | _ => trivial

/-- What waits and **is not decided by a default** is a `null` without a limit. -/
theorem any_waits? {t : Table} {e : Expr} (h : e.HasHole t) :
    (e.waits?.any fun l ↦ (t.settleAll.type? l.hole).isNone) = e.isOpenNull t := by
  cases e with
  | constant n c =>
    -- a number has a limit, and that has a default
    have hlimit : ∀ k i, k ≤ t.kind i → k ≠ .null → t.kind i ≠ .null := by
      intro k i hle hk hnull
      rw [hnull] at hle
      exact hk (le_antisymm hle (.inr (.inl rfl)))
    cases c with
    | int value =>
      obtain ⟨i, hi, -, hle⟩ := h .number rfl
      simp [waits?, isOpenNull, Constant.kind?, hi, isNone_type?_settleAll, hlimit _ i hle]
    | float value =>
      obtain ⟨i, hi, -, hle⟩ := h .float rfl
      simp [waits?, isOpenNull, Constant.kind?, hi, isNone_type?_settleAll, hlimit _ i hle]
    | null =>
      obtain ⟨i, hi, -⟩ := h .null rfl
      simp [waits?, isOpenNull, Constant.kind?, hi, isNone_type?_settleAll]
    | _ => rfl
  | _ => rfl

end Expr

namespace Walk

variable {w v x : Walk} {es es' : List Expr}

/-- **The literals of trees wait**, from left to right. -/
structure Awaits (w : Walk) (es : List Expr) (v : Walk) : Prop where
  waiting_eq : v.waiting = w.waiting ++ (Expr.nodesAll es).filterMap Expr.waits?
  holes : ∀ y ∈ Expr.nodesAll es, y.HasHole v.table

namespace Awaits

theorem nil (w : Walk) : Awaits w [] w :=
  ⟨(List.append_nil _).symm, List.forall_mem_nil _⟩

theorem append (h : Awaits w es v) (h' : Awaits v es' x) (hgrows : v.table.Grows x.table) :
    Awaits w (es ++ es') x where
  waiting_eq := by
    rw [h'.waiting_eq, h.waiting_eq, Expr.nodesAll_append, List.filterMap_append, List.append_assoc]
  holes := by
    rw [Expr.nodesAll_append]
    refine List.forall_mem_append.2 ⟨fun y hy ↦ ?_, h'.holes⟩
    exact (h.holes y hy).mono hgrows.size_le fun hi ↦ (hgrows.kind_eq hi).ge

theorem asks {S : Set Nat} (h : Awaits w es v) (hasks : Asks S v x) : Awaits w es x where
  waiting_eq := hasks.waiting_eq.trans h.waiting_eq
  holes y hy :=
    have hgains := Gains.of_becomes hasks.evolves.becomes
    (h.holes y hy).mono hgains.size_le hgains.kind_le

/-- A node that is not a literal. -/
theorem node {e : Expr} (h : Awaits w es v) (hparts : e.parts = es) (hwaits : e.waits? = none)
    (hhole : e.HasHole v.table) : Awaits w [e] v := by
  have hone : Expr.nodesAll [e] = e :: Expr.nodesAll es := by
    rw [Expr.nodesAll_cons, Expr.nodesAll_nil, List.append_nil, Expr.nodes_eq, hparts]
  refine ⟨?_, hone ▸ List.forall_mem_cons.2 ⟨hhole, h.holes⟩⟩
  rw [hone, List.filterMap_cons_none hwaits]
  exact h.waiting_eq

/-- A literal with a type of its own, or with a new hole. -/
theorem constant (w : Walk) (n : Note) (c : Constant) :
    Awaits w [(Expr.constant n c).withType (w.constantType n.span c).1]
      (w.constantType n.span c).2 := by
  rw [constantType]
  cases hkind : c.kind? with
  | none =>
    refine (nil w).node rfl ?_ fun k hk ↦ ?_
    · show Expr.waits? (.constant _ c) = none
      rw [Expr.waits?, hkind]
    · cases hkind.symm.trans hk
  | some k =>
    refine ⟨congrArg (w.waiting ++ ·) ?_, List.forall_mem_singleton.2 fun l hl ↦ ?_⟩
    · show [_] = (Expr.waits? (.constant _ c)).toList
      rw [Expr.waits?, hkind]
      rfl
    · obtain rfl := Option.some.inj (hkind.symm.trans hl)
      refine ⟨_, rfl, ?_, ?_⟩
      · rw [size_fresh]
        exact Nat.lt_succ_self _
      · rw [kind, classOf_fresh, if_pos rfl]

end Awaits

section Agreement

variable [RootChoice] {globals : Bindings}

/-- **One more node on top**: its rule asks about the holes that there are, and only a literal adds
one of its own. -/
theorem Awaits.top {final : List Symbol} {e e' : Expr} (h : Awaits w e'.parts v)
    (hchecked : CheckedEach globals final w e'.parts v) (htop : e.SameTop e')
    (hformed : e.namesConcrete) :
    Awaits w [e'.withType (v.nodeType e').1] (v.nodeType e').2 := by
  cases htop with
  | constant n c =>
    cases hchecked with
    | nil => exact .constant w n c
  | unary n op _ e =>
    obtain _ | ⟨he, _ | _⟩ := hchecked
    have hasks := asks_unaryType he.tidy he.closed (he.typed e (List.mem_singleton.2 rfl)) op
    exact (h.asks hasks).node rfl rfl trivial
  | binary n op _ l _ r =>
    obtain _ | ⟨hl, _ | ⟨hr, _ | _⟩⟩ := hchecked
    have hasks := asks_binaryType hr.tidy (hr.grows.closed_of_closed hl.closed) hr.closed
      (hl.toAdvances.disjoint hr.toAdvances) (hl.typed l (List.mem_singleton.2 rfl))
      (hr.typed r (List.mem_singleton.2 rfl)) n.span op
    exact (h.asks hasks).node rfl rfl trivial
  | call n _ f _ args =>
    obtain ⟨S, hS⟩ := hchecked.checked
    have hasks := (asks_callType hS.tidy hS.closed (hS.typed f List.mem_cons_self)
      (fun x hx ↦ hS.typed x (List.mem_cons_of_mem _ hx)) n.span).1
    exact (h.asks hasks).node rfl rfl trivial
  | cast n _ e dest =>
    obtain _ | ⟨he, _ | _⟩ := hchecked
    have hasks := asks_castType he.tidy he.closed (he.typed e (List.mem_singleton.2 rfl)) hformed
    exact (h.asks hasks).node rfl rfl trivial

/-- Trees that are checked one behind another wait one behind another. -/
theorem Each.awaits (h : Each globals (fun e w ↦ w.Ready → e.Formed →
      (expr globals e w).2.halted = false →
        Awaits w [(expr globals e w).1] (expr globals e w).2) es w)
    (hw : w.Ready) (hformed : ∀ y ∈ Expr.nodesAll es, y.namesConcrete)
    (hrun : (exprs globals es w).2.halted = false) :
    Awaits w (exprs globals es w).1 (exprs globals es w).2 := by
  induction h with
  | nil w =>
    rw [exprs_nil]
    exact .nil w
  | @cons w e es hhead _ ih =>
    rw [exprs_cons] at hrun ⊢
    obtain ⟨he, hes⟩ := List.forall_mem_append.1 hformed
    obtain ⟨S, hS⟩ := checked_expr w.symbols e w hw he (running_of_exprs hrun)
    have hready := hS.toAdvances.ready hw
    obtain ⟨T, hT⟩ := (checkedEach_exprs w.symbols es _ hready hes hrun).checked
    exact (hhead hw he (running_of_exprs hrun)).append (ih hready hes hrun) hT.grows

/-- **The literals of a tree that has been checked wait.** -/
theorem awaits_expr (e : Expr) (w : Walk) (hw : w.Ready) (he : e.Formed)
    (hrun : (expr globals e w).2.halted = false) :
    Awaits w [(expr globals e w).1] (expr globals e w).2 := by
  refine expr_of_rules globals (P := fun e w ↦ w.Ready → e.Formed →
    (expr globals e w).2.halted = false →
      Awaits w [(expr globals e w).1] (expr globals e w).2) ?_ ?_ e w hw he hrun
  · intro n name symbol w _ _ hrun
    rw [expr_ident] at hrun ⊢
    obtain ⟨i, -, heq⟩ := ident_of_running hrun
    rw [heq]
    exact (Awaits.nil w).node rfl rfl trivial
  · intro e e' w htop hparts heach hw he hrun
    rw [expr_eq_conclude htop hparts] at hrun ⊢
    obtain ⟨hv, -, heq⟩ := conclude_of_running hrun
    have hformed := Expr.forall_mem_nodesAll_parts he
    have hchecked := checkedEach_exprs w.symbols e.parts w hw hformed hv
    have hawaits := heach.awaits hw hformed hv
    rw [hparts] at hchecked hawaits
    rw [heq]
    exact hawaits.top hchecked htop (he _ e.mem_nodes_self)

/-- A value that has been checked: what is known of its literals and of the table. -/
theorem Value.Sound.awaits {y : Value} {file : Nat} (hy : y.Sound file)
    (hrun : (y.checked globals).2.halted = false) :
    (∃ S, Advances y.walk S (y.checked globals).2) ∧
      Awaits y.walk [(y.checked globals).1] (y.checked globals).2 := by
  have hlabel := hy.label
  rw [Value.checked] at hrun ⊢
  cases hsome : y.label? with
  | none =>
    rw [hsome] at hrun
    obtain ⟨S, hS⟩ := checked_expr y.walk.symbols y.expr y.walk hy.resting.ready hy.formed hrun
    exact ⟨⟨S, hS.toAdvances⟩, awaits_expr y.expr y.walk hy.resting.ready hy.formed hrun⟩
  | some label =>
    rw [hsome] at hrun
    have hexpr := running_of_require hrun
    obtain ⟨S, hS⟩ := checked_expr y.walk.symbols y.expr y.walk hy.resting.ready hy.formed hexpr
    have hasks := asks_require hS.tidy hS.closed (hS.typed _ (List.mem_singleton.2 rfl))
      (hlabel label hsome)
    exact ⟨⟨S, hS.toAdvances.asks hasks⟩,
      (awaits_expr y.expr y.walk hy.resting.ready hy.formed hexpr).asks hasks⟩

end Agreement

/-! ### Checkpoints -/

/-- **What a checkpoint does** with a tree, in terms of the classes of its literals. -/
structure Checkpoint (e : Expr) (v : Walk) : Prop where
  /-- Every literal that waits has a hole of the table. -/
  holes : ∀ n c, Expr.constant n c ∈ e.nodes → c.isUntyped = true →
    ∃ i, n.type? = some (.hole i) ∧ i < v.table.size
  /-- The walk is halted if the class of some `null` is open and has no limit, and only then. -/
  halted_iff : (v.checkpoint e).2.halted = true ↔ ∃ y ∈ e.nodes, y.isOpenNull v.table = true
  /-- What is reported is the first of these. -/
  reports : (v.checkpoint e).2.halted = true → ∃ y ∈ e.nodes, y.isOpenNull v.table = true ∧
    (∀ z ∈ e.nodes, z.isOpenNull v.table = true → z = y ∨ y.span.Before z.span) ∧
    (v.checkpoint e).2.findings = v.findings ++ [⟨v.file, .cannotInfer "untyped null" y.span⟩]
  /-- Otherwise every literal that waits gets the type of its class, or the default. -/
  decides : (v.checkpoint e).2.halted = false → (v.checkpoint e).2.findings = v.findings ∧
    ∀ (k : Nat) n c i, e.nodes[k]? = some (Expr.constant n c) → c.isUntyped = true →
      n.type? = some (.hole i) → ∃ a, a.isConcrete = true ∧
        (v.checkpoint e).1.nodes[k]? = some (Expr.constant { n with type? := some a } c) ∧
        (∀ b, v.table.type? i = some b → a = v.table.settleAll.expand b) ∧
        (v.table.type? i = none → v.table.kind i = .float ∧ a = .f32 ∨
          (v.table.kind i = .number ∨ v.table.kind i = .int) ∧ a = .i64)

/-- What a checkpoint stops at is the first `null` in the tree that is open and has no limit. -/
theorem find?_waiting (hw : w.waiting = []) {e : Expr} (h : Awaits w [e] v) :
    (v.waiting.find? fun l ↦ (v.table.settleAll.type? l.hole).isNone) =
      (e.nodes.find? fun y ↦ y.isOpenNull v.table).bind Expr.waits? := by
  have hone : Expr.nodesAll [e] = e.nodes := List.append_nil _
  have hholes := h.holes
  rw [hone] at hholes
  rw [h.waiting_eq, hw, List.nil_append, hone, List.find?_filterMap]
  exact congrArg (Option.bind · Expr.waits?)
    (List.find?_congr fun y hy ↦ Expr.any_waits? (hholes y hy))

section Checkpoint

variable {S : Set Nat} {e : Expr} (hw : w.Resting) (hv : v.halted = false) (h : Awaits w [e] v)

include hw hv h

/-- A checkpoint with a `null` that is open and has no limit. -/
theorem checkpoint_of_open {y : Expr} (hy : e.nodes.find? (·.isOpenNull v.table) = some y) :
    v.checkpoint e = (e, { v with table := v.table.settleAll, waiting := [] }.record
      (.cannotInfer "untyped null" y.span)) := by
  obtain ⟨n, i, rfl, hi, hnone, hkind⟩ := Expr.isOpenNull_iff.1 (List.find?_some hy)
  have hwaits : (Expr.constant n .null).waits? = some ⟨i, n.span⟩ := by
    rw [Expr.waits?, hi]
    rfl
  have hdescribe : v.table.settleAll.describe (.hole i) = "untyped null" := by
    have hopen : v.table.settleAll.type? i = none := by
      rw [type?_settleAll, hnone, hkind]
      rfl
    show v.table.settleAll.holeName _ i = _
    rw [holeName_of_none hopen, kind_settleAll, hkind]
    rfl
  rw [checkpoint, if_neg (by simp [hv])]
  dsimp only
  rw [find?_waiting hw.waiting_eq h, hy, Option.bind_some, hwaits]
  dsimp only
  rw [hdescribe]
  rfl

/-- A checkpoint at which every literal has a type or a default. -/
theorem checkpoint_of_decided (hnone : e.nodes.find? (·.isOpenNull v.table) = none) :
    v.checkpoint e =
      (e.mapTypes v.table.settleAll.expand, { v with table := .empty, waiting := [] }) := by
  rw [checkpoint, if_neg (by simp [hv])]
  dsimp only
  rw [find?_waiting hw.waiting_eq h, hnone]
  rfl

omit hv h in
/-- Behind a checkpoint that is passed the type of a literal has no hole. -/
theorem isConcrete_of_checkpoint (hadvances : Advances w S v)
    (hrun : (v.checkpoint e).2.halted = false)
    (heq : (v.checkpoint e).1 = e.mapTypes v.table.settleAll.expand) {i : Nat}
    (hi : i < v.table.size) {y : Expr} (hy : y ∈ e.nodes) (htype : y.type? = some (.hole i)) :
    (v.table.settleAll.expand (.hole i)).isConcrete = true := by
  obtain ⟨-, -, s, hs, heq'⟩ := checkpoint_of_running hw hadvances hrun
  have hnodes : e.nodes.map (Expr.mapTypes v.table.settleAll.expand) =
      e.nodes.map (Expr.mapTypes (Ty.subst s)) := by
    rw [← Expr.nodes_mapTypes, ← Expr.nodes_mapTypes, ← heq, heq']
  have hsame := congrArg Expr.type? (List.map_inj_left.1 hnodes y hy)
  rw [Expr.type?_mapTypes, Expr.type?_mapTypes, htype] at hsame
  rw [Option.some.inj hsame]
  exact hs.concrete hi

/-- **A checkpoint is what the classes of the literals say.** -/
theorem checkpoint_literals (hadvances : Advances w S v) {text : List Char}
    (hplaced : e.Placed text) : Checkpoint e v := by
  have hholes : ∀ y ∈ e.nodes, y.HasHole v.table := by
    have hholes := h.holes
    rwa [show Expr.nodesAll [e] = e.nodes from List.append_nil _] at hholes
  have hhole : ∀ n c, Expr.constant n c ∈ e.nodes → c.isUntyped = true →
      ∃ i, n.type? = some (.hole i) ∧ i < v.table.size := by
    intro n c hmem huntyped
    obtain ⟨k, hk⟩ := Option.isSome_iff_exists.1 (c.isSome_kind?.trans huntyped)
    obtain ⟨i, hi, hlt, -⟩ := hholes _ hmem k hk
    exact ⟨i, hi, hlt⟩
  cases hopen : e.nodes.find? (·.isOpenNull v.table) with
  | some y =>
    have heq := checkpoint_of_open hw hv h hopen
    have hhalted : (v.checkpoint e).2.halted = true := by
      rw [heq]
      exact halted_record _ rfl
    have hy := List.find?_some hopen
    have hmem := List.mem_of_find?_eq_some hopen
    refine ⟨hhole, ⟨fun _ ↦ ⟨y, hmem, hy⟩, fun _ ↦ hhalted⟩,
      fun _ ↦ ⟨y, hmem, hy, fun z hz hzopen ↦ ?_, by rw [heq]; rfl⟩,
      fun hrun ↦ by cases hhalted.symm.trans hrun⟩
    exact Expr.before_of_find? hplaced hopen hz hzopen
  | none =>
    have heq := checkpoint_of_decided hw hv h hopen
    have hrun : (v.checkpoint e).2.halted = false := by
      rw [heq]
      exact hv
    refine ⟨hhole, ⟨fun hhalted ↦ ?_, ?_⟩, fun hhalted ↦ ?_, fun _ ↦ ⟨by rw [heq], ?_⟩⟩
    · cases hhalted.symm.trans hrun
    · rintro ⟨y, hy, hyopen⟩
      exact absurd hyopen (List.find?_eq_none.1 hopen y hy)
    · cases hhalted.symm.trans hrun
    · intro k n c i hk huntyped hi
      have hmem := List.mem_of_getElem? hk
      obtain ⟨j, hj, hlt⟩ := hhole n c hmem huntyped
      obtain rfl := Ty.hole.inj (Option.some.inj (hi.symm.trans hj))
      have hconcrete := isConcrete_of_checkpoint hw hadvances hrun (congrArg Prod.fst heq) hlt hmem
        hi
      have htidy := (evolves_settleAll hadvances.tidy).tidy hadvances.tidy
      refine ⟨v.table.settleAll.expand (.hole i), hconcrete, ?_, fun b hb ↦ ?_, fun hnone ↦ ?_⟩
      · rw [heq, Expr.nodes_mapTypes, List.getElem?_map, hk]
        show some (Expr.constant { n with type? := n.type?.map _ } c) = _
        rw [hi]
        rfl
      · exact expand_of_some htidy.valid htidy.acyclic (by rw [type?_settleAll, hb]; rfl)
      · exact Table.expand_settleAll_of_open htidy hnone hconcrete

end Checkpoint

end Walk

/-! ### Programs -/

namespace Program

section Check

variable [RootChoice] {p : Program} {w : Walk} {d : Definition}

/-- The checkpoint of every value that a program is checked for. -/
theorem checkpoint_of_mem_values (hp : p.Formed) (hlocated : p.Located)
    (hx : (w, d) ∈ (Walk.start p.symbols).stages p.globals p.definitions) {y : Walk.Value}
    (hy : y ∈ w.values p.globals d) (hrun : (y.checked p.globals).2.halted = false) :
    Walk.Checkpoint (y.checked p.globals).1 (y.checked p.globals).2 ∧
      (y.checked p.globals).2.file = d.file := by
  obtain ⟨hmem, hmeets, -⟩ := Walk.meets_of_mem_stages p.definitions _ hp.meets hx
  have hsound := Walk.sound_of_mem_values hmeets hy (Walk.Value.running_of_checked hrun)
  obtain ⟨⟨S, hadvances⟩, hawaits⟩ := hsound.awaits hrun
  obtain ⟨text, hplaced⟩ := hlocated.placed d hmem
  have htree : (y.checked p.globals).1.Placed text := by
    rw [← Expr.placed_bare, y.bare_checked, Expr.placed_bare]
    exact (hplaced.expr (Walk.expr_mem_exprs hy)).1
  refine ⟨Walk.checkpoint_literals hsound.resting hrun hawaits hadvances htree, ?_⟩
  rw [(y.turns_checked p.globals).frame.2.2.1, hsound.file_eq]

/-- **Checkpoints**. To settle all holes changes no class but by giving an open one the default of
its limit, and a second time it changes nothing. So where an expression or an initial value has been
checked without a fatal error, its checkpoint is halted if the class of some `null` is open and has
no limit, and reports the first of these; and otherwise every literal has behind it the type that
its class was committed to, or else the default of its class. What comes out are the expressions of
the checked definition. -/
theorem checkpoints_decide_literals :
    (∀ t : Table, t.settleAll.size = t.size ∧ (∀ i, t.settleAll.find i = t.find i) ∧
      (∀ i, t.settleAll.kind i = t.kind i) ∧
      (∀ i a, t.type? i = some a → t.settleAll.type? i = some a) ∧
      (∀ i, t.type? i = none → (t.kind i = .float → t.settleAll.type? i = some .f32) ∧
        (t.kind i = .number ∨ t.kind i = .int → t.settleAll.type? i = some .i64) ∧
        (t.kind i = .null → t.settleAll.type? i = none)) ∧
      t.settleAll.settleAll = t.settleAll) ∧
    ∀ (name : String) (sources : List SourceFile),
      let p := ofFiles name sources
      ∀ w d, (w, d) ∈ (Walk.start p.symbols).stages p.globals p.definitions →
        (∀ y ∈ w.values p.globals d, (y.checked p.globals).2.halted = false →
          Walk.Checkpoint (y.checked p.globals).1 (y.checked p.globals).2 ∧
            (y.checked p.globals).2.file = d.file) ∧
        ((w.definition p.globals d).2.halted = false →
          (w.definition p.globals d).1.exprs =
            (w.values p.globals d).map fun y ↦ (y.passed p.globals).1) := by
  refine ⟨fun t ↦ ⟨size_settleAll t, find_settleAll t, kind_settleAll t, fun i a ha ↦ ?_,
    fun i hnone ↦ ?_, settleAll_settleAll t⟩, ?_⟩
  · rw [type?_settleAll, ha, Option.some_or]
  · rw [type?_settleAll, hnone, Option.none_or]
    refine ⟨fun hkind ↦ by rw [hkind]; rfl, ?_, fun hkind ↦ by rw [hkind]; rfl⟩
    rintro (hkind | hkind) <;> rw [hkind] <;> rfl
  · intro name sources p w d hx
    exact ⟨fun y hy hrun ↦ checkpoint_of_mem_values (formed_ofFiles name sources)
      (located_ofFiles name sources).1 hx hy hrun, Walk.exprs_definition⟩

end Check

/-- The first `null` belongs to the class of a number and takes its default, and the second one is
where the function ends. -/
theorem checkpoints_decide_literals_null :
    let p := ofFiles "main" [⟨"test.berry", "func f() { 1 + null; null; }"⟩]
    let t := (Table.empty.fresh .number).fresh .null
    (t.settleAll.type? 0 = some .i64 ∧ t.settleAll.type? 1 = none) ∧
    ∃ x ∈ (Walk.start p.symbols).stages p.globals p.definitions,
      ∃ y ∈ x.1.values p.globals x.2, ∃ z ∈ x.1.values p.globals x.2,
        ((y.passed p.globals).2.halted = false ∧
          (y.passed p.globals).1.nodes.map Expr.type? = [some .i64, some .i64, some .i64] ∧
          (y.passed p.globals).2.findings = (y.checked p.globals).2.findings) ∧
        (z.checked p.globals).2.halted = false ∧ (z.passed p.globals).2.halted = true ∧
        ∃ e ∈ (z.checked p.globals).1.nodes, (z.passed p.globals).2.findings =
          (z.checked p.globals).2.findings ++ [⟨x.2.file, .cannotInfer "untyped null" e.span⟩] := by
  intro p t
  obtain ⟨htable, hprogram⟩ := checkpoints_decide_literals
  obtain ⟨-, -, -, -, hdefaults, -⟩ := htable t
  have hvalues : ∃ x ∈ (Walk.start p.symbols).stages p.globals p.definitions,
      ∃ y ∈ x.1.values p.globals x.2, ∃ z ∈ x.1.values p.globals x.2,
        ((y.checked p.globals).2.halted = false ∧ (y.passed p.globals).2.halted = false ∧
          (y.passed p.globals).1.nodes.map Expr.type? = [some .i64, some .i64, some .i64]) ∧
        (z.checked p.globals).2.halted = false ∧
        ∃ e ∈ (z.checked p.globals).1.nodes, e.isOpenNull (z.checked p.globals).2.table = true := by
    decide +kernel
  obtain ⟨x, hx, y, hy, z, hz, ⟨hychecked, hypassed, htypes⟩, hzchecked, e, he, hopen⟩ := hvalues
  obtain ⟨hvalue, -⟩ := hprogram "main" _ x.1 x.2 hx
  have hdecides := (hvalue y hy hychecked).1.decides hypassed
  obtain ⟨hcheckpoint, hfile⟩ := hvalue z hz hzchecked
  have hhalted := hcheckpoint.halted_iff.2 ⟨e, he, hopen⟩
  obtain ⟨e', he', -, -, hfindings⟩ := hcheckpoint.reports hhalted
  refine ⟨⟨(hdefaults 0 (by decide)).2.1 (.inl (by decide)),
    (hdefaults 1 (by decide)).2.2 (by decide)⟩, x, hx, y, hy, z, hz,
    ⟨hypassed, htypes, hdecides.1⟩, hzchecked, hhalted, e', he', ?_⟩
  rw [← hfile]
  exact hfindings

end Program

end FrontEnd
