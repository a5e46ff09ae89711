import FrontEnd.Proofs.Check.Meaning

/-!
# What checking a tree does

While the expressions of a statement are checked, each of them adds holes to the table, and nothing
that is asked for its sake concerns holes that were there before. Of the holes that it adds, those
that its type may still lead to are **live**; the others are never touched again. `Walk.Advances`
says this of the states before and after, and `Walk.Checked` says in addition what the trees that
come out are worth. Both are built up the way the trees are: by putting one run behind another, and
by one more rule on top.

A hole that is not live, open, and of a type that may be anything is **doomed** (`Walk.Doomed`): no
one will decide it, and it has no default. This is how a call of a literal that fits every type
comes to its end, although the rule for calls lets it pass.
-/

namespace FrontEnd

open Table

namespace Walk

variable {w v x : Walk} {S T A B : Set Nat}

/-! ### States -/

/-- A state in which an expression can be checked: the table is tidy, and the types of symbols have
no holes. -/
structure Ready (w : Walk) : Prop where
  tidy : w.table.Tidy
  concrete : ∀ s ∈ w.symbols, ∀ a, s.type? = some a → a.isConcrete = true

/-- **A run over expressions**: the table has grown, and of the holes that were added those in a
closed set are live. Each of them is on the list of those that wait. -/
structure Advances (w : Walk) (S : Set Nat) (v : Walk) : Prop where
  grows : w.table.Grows v.table
  tidy : v.table.Tidy
  closed : v.table.Closed S
  new : S ⊆ Set.Ico w.table.size v.table.size
  symbols_eq : v.symbols = w.symbols
  scope_eq : v.scope = w.scope
  waiting_eq : v.waiting.map (·.hole) = w.waiting.map (·.hole) ++
    List.range' w.table.size (v.table.size - w.table.size)
  findings : w.findings <+: v.findings

namespace Advances

theorem refl (hw : w.table.Tidy) : Advances w ∅ w where
  grows := .refl _
  tidy := hw
  closed := .empty _
  new := Set.empty_subset _
  symbols_eq := rfl
  scope_eq := rfl
  waiting_eq := by simp
  findings := List.prefix_refl _

theorem trans (h : Advances w A v) (h' : Advances v B x) : Advances w (A ∪ B) x where
  grows := h.grows.trans h'.grows
  tidy := h'.tidy
  closed := (h'.grows.closed_of_closed h.closed).union h'.closed
  new := Set.union_subset
    (fun _ hk ↦ ⟨(h.new hk).1, Nat.lt_of_lt_of_le (h.new hk).2 h'.grows.size_le⟩)
    fun _ hk ↦ ⟨Nat.le_trans h.grows.size_le (h'.new hk).1, (h'.new hk).2⟩
  symbols_eq := h'.symbols_eq.trans h.symbols_eq
  scope_eq := h'.scope_eq.trans h.scope_eq
  waiting_eq := by
    have hsize : w.table.size + (v.table.size - w.table.size) = v.table.size :=
      Nat.add_sub_of_le h.grows.size_le
    have hrange := List.range'_append_1 (s := w.table.size) (m := v.table.size - w.table.size)
      (n := x.table.size - v.table.size)
    rw [hsize] at hrange
    have hcount : v.table.size - w.table.size + (x.table.size - v.table.size) =
        x.table.size - w.table.size := by
      have := h.grows.size_le
      have := h'.grows.size_le
      omega
    rw [h'.waiting_eq, h.waiting_eq, List.append_assoc, hrange, hcount]
  findings := h.findings.trans h'.findings

/-- The live holes of two runs, one behind the other, are different. -/
theorem disjoint (h : Advances w A v) (h' : Advances v B x) : ∀ k ∈ A, k ∉ B :=
  fun _ hA hB ↦ Nat.lt_irrefl _ (Nat.lt_of_lt_of_le (h.new hA).2 (h'.new hB).1)

theorem asks (h : Advances w S v) (h' : Asks S v x) : Advances w S x where
  grows := h.grows.evolves h'.evolves h.new
  tidy := h'.tidy h.tidy
  closed := h'.closed h.closed
  new := by
    rw [h'.evolves.size_eq]
    exact h.new
  symbols_eq := h'.symbols_eq.trans h.symbols_eq
  scope_eq := h'.scope_eq.trans h.scope_eq
  waiting_eq := by
    rw [h'.waiting_eq, h'.evolves.size_eq]
    exact h.waiting_eq
  findings := h.findings.trans h'.findings

/-- Live holes may be given up. -/
theorem shrink (h : Advances w S v) (hT : v.table.Closed T) (hTS : T ⊆ S) : Advances w T v :=
  { h with closed := hT, new := hTS.trans h.new }

theorem ready (h : Advances w S v) (hw : w.Ready) : v.Ready where
  tidy := h.tidy
  concrete := h.symbols_eq ▸ hw.concrete

/-- If nothing was found wrong in the whole, nothing was found wrong on the way. -/
theorem findings_eq (h : Advances w A v) (hx : v.findings <+: x.findings)
    (hstrict : x.findings = w.findings) : v.findings = w.findings ∧ x.findings = v.findings :=
  eq_of_prefix_of_eq h.findings hx hstrict

end Advances

/-! ### Doomed holes -/

/-- One of the holes that were added is open, may be of any type, and is not live. -/
def Doomed (w : Walk) (S : Set Nat) (v : Walk) : Prop :=
  ∃ k ∈ Set.Ico w.table.size v.table.size, k ∉ S ∧ v.table.type? k = none ∧
    v.table.kind k = .null

namespace Doomed

theorem shrink (h : Doomed w S v) (hTS : T ⊆ S) : Doomed w T v := by
  obtain ⟨k, hk, hlive, hopen⟩ := h
  exact ⟨k, hk, fun hT ↦ hlive (hTS hT), hopen⟩

theorem asks (h : Doomed w S v) (hS : v.table.Closed S) (h' : Asks S v x) : Doomed w S x := by
  obtain ⟨k, hk, hlive, hnone, hkind⟩ := h
  have hclass := (h'.evolves.outside hS hlive).2
  refine ⟨k, by rwa [h'.evolves.size_eq], hlive, ?_, ?_⟩
  · rw [type?, hclass]
    exact hnone
  · rw [kind, hclass]
    exact hkind

theorem append_left (h : Doomed w A v) (h' : Advances v B x) : Doomed w (A ∪ B) x := by
  obtain ⟨k, hk, hlive, hnone, hkind⟩ := h
  refine ⟨k, ⟨hk.1, Nat.lt_of_lt_of_le hk.2 h'.grows.size_le⟩, ?_, ?_, ?_⟩
  · rintro (hA | hB)
    · exact hlive hA
    · exact Nat.lt_irrefl _ (Nat.lt_of_lt_of_le hk.2 (h'.new hB).1)
  · rw [h'.grows.type?_eq hk.2]
    exact hnone
  · rw [h'.grows.kind_eq hk.2]
    exact hkind

theorem append_right (h : Advances w A v) (h' : Doomed v B x) : Doomed w (A ∪ B) x := by
  obtain ⟨k, hk, hlive, hopen⟩ := h'
  refine ⟨k, ⟨Nat.le_trans h.grows.size_le hk.1, hk.2⟩, ?_, hopen⟩
  rintro (hA | hB)
  · exact Nat.lt_irrefl _ (Nat.lt_of_lt_of_le (h.new hA).2 hk.1)
  · exact hlive hB

end Doomed

/-! ### Trees -/

/-- The symbols that names may mean here have the same types in `final`. -/
def Agrees (w : Walk) (globals : Bindings) (final : List Symbol) : Prop :=
  ∀ name i, w.scope.lookup globals name = some i →
    ∃ s, final[i]? = some s ∧ s.type? = w.symbolType? i

theorem Advances.agrees {globals : Bindings} {final : List Symbol} (h : Advances w S v)
    (hw : w.Agrees globals final) : v.Agrees globals final := by
  intro name i hi
  rw [h.scope_eq] at hi
  rw [symbolType?, h.symbols_eq]
  exact hw name i hi

/-- **What checking makes of trees** in a run from `w` to `v` with live holes `S`, if the types of
symbols turn out to be those of `final`. -/
structure Checked (globals : Bindings) (final : List Symbol) (w : Walk) (es : List Expr)
    (S : Set Nat) (v : Walk) : Prop extends Advances w S v where
  /-- The types of the trees are over the live holes. -/
  typed : ∀ e ∈ es, e.TypedIn S
  /-- Types further down are over the holes of the table. -/
  covers : ∀ x ∈ Expr.nodesAll es, ∀ a, x.type? = some a →
    v.table.Covers a ∧ a.isChain = true
  /-- Without errors, the holes that were added are committed to concrete types only. -/
  commits : v.findings = w.findings → ∀ k a, w.table.size ≤ k → v.table.type? k = some a →
    a.isConcrete = true
  /-- Without errors, a hole in a type comes from a literal. -/
  depth : v.findings = w.findings → ∀ e ∈ es, DepthKnown e
  /-- Every node is judged, under every solution. -/
  judged : w.Agrees globals final → Doomed w S v ∨ ∀ s, v.table.Solution s →
    ∀ x ∈ Expr.nodesAll es, Judged final (v.findings = w.findings) (x.mapTypes (Ty.subst s))

namespace Checked

variable {globals : Bindings} {final : List Symbol} {es es' : List Expr}

theorem nil (hw : w.table.Tidy) : Checked globals final w [] ∅ w where
  toAdvances := .refl hw
  typed _ h := nomatch h
  covers _ h := nomatch h
  commits _ _ _ hk ha := absurd (lt_size_of_type? ha) (Nat.not_lt.2 hk)
  depth _ _ h := nomatch h
  judged _ := .inr fun _ _ _ h ↦ nomatch h

/-- Runs can be put one behind another. -/
theorem append (h : Checked globals final w es A v) (h' : Checked globals final v es' B x) :
    Checked globals final w (es ++ es') (A ∪ B) x where
  toAdvances := h.toAdvances.trans h'.toAdvances
  typed e he := (List.mem_append.1 he).elim
    (fun he ↦ (h.typed e he).mono Set.subset_union_left)
    fun he ↦ (h'.typed e he).mono Set.subset_union_right
  covers y hy a ha := by
    rw [Expr.nodesAll_append] at hy
    rcases List.mem_append.1 hy with hy | hy
    · obtain ⟨hcovers, hchain⟩ := h.covers y hy a ha
      exact ⟨fun i hi ↦ Nat.lt_of_lt_of_le (hcovers i hi) h'.grows.size_le, hchain⟩
    · exact h'.covers y hy a ha
  commits hstrict k a hk ha := by
    obtain ⟨hv, hx⟩ := h.toAdvances.findings_eq h'.findings hstrict
    rcases Nat.lt_or_ge k v.table.size with hkv | hkv
    · rw [h'.grows.type?_eq hkv] at ha
      exact h.commits hv k a hk ha
    · exact h'.commits hx k a hkv ha
  depth hstrict e he := by
    obtain ⟨hv, hx⟩ := h.toAdvances.findings_eq h'.findings hstrict
    exact (List.mem_append.1 he).elim (h.depth hv e) (h'.depth hx e)
  judged hagrees := by
    rcases h.judged hagrees with hdoomed | hjudged
    · exact .inl (hdoomed.append_left h'.toAdvances)
    rcases h'.judged (h.toAdvances.agrees hagrees) with hdoomed | hjudged'
    · exact .inl (hdoomed.append_right h.toAdvances)
    refine .inr fun s hs y hy ↦ ?_
    rw [Expr.nodesAll_append] at hy
    rcases List.mem_append.1 hy with hy | hy
    · exact (hjudged s (h'.grows.solution hs) y hy).mono fun hstrict ↦
        (h.toAdvances.findings_eq h'.findings hstrict).1
    · exact (hjudged' s hs y hy).mono fun hstrict ↦
        (h.toAdvances.findings_eq h'.findings hstrict).2

/-- Questions about the live holes change nothing for the better or the worse. -/
theorem asks (h : Checked globals final w es S v) (hasks : Asks S v x)
    (hcommits : x.findings = v.findings → v.table.CommitsConcrete x.table) :
    Checked globals final w es S x where
  toAdvances := h.toAdvances.asks hasks
  typed := h.typed
  covers y hy a ha :=
    ⟨hasks.evolves.becomes.covers_iff.2 (h.covers y hy a ha).1, (h.covers y hy a ha).2⟩
  commits hstrict k a hk ha := by
    obtain ⟨hv, hx⟩ := h.toAdvances.findings_eq hasks.findings hstrict
    exact (hcommits hx k a ha).elim (h.commits hv k a hk) id
  depth hstrict := h.depth (h.toAdvances.findings_eq hasks.findings hstrict).1
  judged hagrees := by
    rcases h.judged hagrees with hdoomed | hjudged
    · exact .inl (hdoomed.asks h.closed hasks)
    · exact .inr fun s hs y hy ↦ (hjudged s (hasks.evolves.becomes.solution hs) y hy).mono
        fun hstrict ↦ (h.toAdvances.findings_eq hasks.findings hstrict).1

/-- **One more node on top** of trees that have been checked. The live holes of its type are among
theirs. -/
theorem node {e : Expr} (h : Checked globals final w es S v) (hT : v.table.Closed T) (hTS : T ⊆ S)
    (hnodes : e.nodes = e :: Expr.nodesAll es) (htyped : e.TypedIn T)
    (hdepth : v.findings = w.findings → DepthKnown e)
    (hjudged : w.Agrees globals final → Doomed w T v ∨ ∀ s, v.table.Solution s →
      Judged final (v.findings = w.findings) (e.mapTypes (Ty.subst s))) :
    Checked globals final w [e] T v := by
  have hnodes' : ∀ y, y ∈ Expr.nodesAll [e] ↔ y = e ∨ y ∈ Expr.nodesAll es := by
    intro y
    rw [Expr.nodesAll_cons, Expr.nodesAll_nil, List.append_nil, hnodes, List.mem_cons]
  refine { h.toAdvances.shrink hT hTS with
    typed := fun y hy ↦ List.mem_singleton.1 hy ▸ htyped
    covers := fun y hy a ha ↦ ?_
    commits := h.commits
    depth := fun hstrict y hy ↦ List.mem_singleton.1 hy ▸ hdepth hstrict
    judged := fun hagrees ↦ ?_ }
  · rcases (hnodes' y).1 hy with rfl | hy
    · exact ⟨hT.covers (htyped a ha).1, (htyped a ha).2⟩
    · exact h.covers y hy a ha
  · rcases h.judged hagrees with hdoomed | hparts
    · exact .inl (hdoomed.shrink hTS)
    rcases hjudged hagrees with hdoomed | hroot
    · exact .inl hdoomed
    refine .inr fun s hs y hy ↦ ?_
    rcases (hnodes' y).1 hy with rfl | hy
    · exact hroot s hs
    · exact hparts s hs y hy

/-! ### One node -/

/-- A literal with a type of its own. -/
theorem constant_of_type? (hw : w.table.Tidy) (n : Note) {c : Constant} (hkind : c.kind? = none) :
    Checked globals final w [(Expr.constant n c).withType c.type?] ∅ w := by
  have hconcrete : ∀ a, c.type? = some a → a.isConcrete = true := by
    intro a ha
    cases c <;> cases ha <;> rfl
  refine (nil hw).node (.empty _) (Set.Subset.refl _) rfl ?_ ?_ ?_
  · intro a ha
    have ha := hconcrete a ha
    exact ⟨Ty.within_of_isConcrete ha, Ty.isChain_of_isConcrete ha⟩
  · intro _ a m ha hm
    rw [Ty.holeDepth?_of_isConcrete (hconcrete a ha)] at hm
    cases hm
  · exact fun _ ↦ .inr fun s _ ↦ judged_constant_of_type? hkind n _

/-- A literal that gets a hole. The hole is live, and it is the only one that was added. -/
theorem constant_of_kind? (hw : w.table.Tidy) (n : Note) {c : Constant} {k : HoleKind}
    (hkind : c.kind? = some k) :
    Checked globals final w [(Expr.constant n c).withType (some (.hole w.table.size))]
      (Set.Ico w.table.size (w.table.fresh k).size)
      { w with table := w.table.fresh k, waiting := w.waiting ++ [⟨w.table.size, n.span⟩] } := by
  have hnew : w.table.size ∈ Set.Ico w.table.size (w.table.fresh k).size :=
    ⟨Nat.le_refl _, by rw [size_fresh]; exact Nat.lt_succ_self _⟩
  have hgrows := Grows.fresh w.table k
  refine { grows := hgrows, tidy := hw.fresh k, closed := hgrows.closed
           new := Set.Subset.refl _, symbols_eq := rfl, scope_eq := rfl
           waiting_eq := by simp, findings := List.prefix_refl _
           typed := ?_, covers := ?_, commits := ?_, depth := ?_, judged := ?_ }
  · intro e he a ha
    obtain rfl := List.mem_singleton.1 he
    obtain rfl := Option.some.inj ha
    exact ⟨fun i hi ↦ List.mem_singleton.1 hi ▸ hnew, rfl⟩
  · intro y hy a ha
    obtain rfl := List.mem_singleton.1 hy
    obtain rfl := Option.some.inj ha
    exact ⟨fun i hi ↦ List.mem_singleton.1 hi ▸ hnew.2, rfl⟩
  · intro _ i a hi ha
    exact absurd (lt_size_of_type? (type?_of_type?_fresh ha)) (Nat.not_lt.2 hi)
  · intro _ e he a m ha hm
    obtain rfl := List.mem_singleton.1 he
    obtain rfl := Option.some.inj ha
    obtain rfl := Option.some.inj hm
    show (if c.isUntyped then some 0 else none) = some 0
    rw [← c.isSome_kind?, hkind]
    rfl
  · refine fun _ ↦ .inr fun s hs y hy ↦ ?_
    obtain rfl := List.mem_singleton.1 hy
    have hadmits := hs.admitted hnew.2
    rw [kind, classOf_fresh, if_pos rfl] at hadmits
    exact judged_constant_of_kind? hkind hadmits n _

theorem constant (hw : w.table.Tidy) (n : Note) (c : Constant) :
    ∃ S, Checked globals final w [(Expr.constant n c).withType (w.constantType n.span c).1] S
      (w.constantType n.span c).2 := by
  rw [constantType]
  cases hkind : c.kind? with
  | none => exact ⟨_, constant_of_type? hw n hkind⟩
  | some k => exact ⟨_, constant_of_kind? hw n hkind⟩

theorem ident (hw : w.Ready) (n : Note) (name : String) {i : Nat}
    (hi : w.scope.lookup globals name = some i) :
    Checked globals final w [.ident { n with type? := w.symbolType? i } name (some i)] ∅ w := by
  have hconcrete : ∀ a, w.symbolType? i = some a → a.isConcrete = true := by
    intro a ha
    obtain ⟨s, hs, hsa⟩ := Option.bind_eq_some_iff.1 ha
    exact hw.concrete s (List.mem_of_getElem? hs) a hsa
  refine (nil hw.tidy).node (.empty _) (Set.Subset.refl _) rfl ?_ ?_ ?_
  · intro a ha
    have ha := hconcrete a ha
    exact ⟨Ty.within_of_isConcrete ha, Ty.isChain_of_isConcrete ha⟩
  · intro _ a m ha hm
    rw [Ty.holeDepth?_of_isConcrete (hconcrete a ha)] at hm
    exact nomatch hm
  · refine fun hagrees ↦ .inr fun s _ ↦ ?_
    obtain ⟨symbol, hsymbol, htype⟩ := hagrees name i hi
    have hsame : (w.symbolType? i).map (Ty.subst s) = symbol.type? := by
      rw [htype]
      cases ha : w.symbolType? i with
      | none => rfl
      | some a => rw [Option.map_some, Ty.subst_of_isConcrete (hconcrete a ha)]
    exact ⟨fun hnone ↦ ⟨i, symbol, rfl, hsymbol, hsame ▸ hnone⟩,
      fun _ ↦ ⟨i, symbol, rfl, hsymbol, hsame⟩⟩

/-- An operator in front of an operand takes a hole of its type from the operand. -/
theorem depthKnown_unary {e : Expr} (h : Checked globals final w [e] S v)
    (hstrict : v.findings = w.findings) (n : Note) (op : UnaryOp) :
    DepthKnown ((Expr.unary n op e).withType (v.unaryType op e).1) := by
  have he := h.depth hstrict e (List.mem_singleton.2 rfl)
  intro a m ha hm
  rw [Expr.type?_withType] at ha
  cases op with
  | negate =>
    rw [unaryType, negateType_fst] at ha
    exact he a m ha hm
  | address =>
    obtain ⟨b, hb, rfl⟩ := Option.map_eq_some_iff.1 ha
    obtain ⟨l, hl, rfl⟩ := Option.map_eq_some_iff.1 hm
    show e.literalDepth?.map (· + 1) = some (l + 1)
    rw [he b l hb hl, Option.map_some]
  | deref =>
    rw [unaryType] at ha
    rcases derefType_cases v e with ⟨c, b, a', hb, hhead, h'⟩ | ⟨err, -, h'⟩ <;> rw [h'] at ha
    · obtain rfl := Option.some.inj ha
      cases b with
      | hole i =>
        -- a committed hole: what it points at has no hole any more
        have hi : i ∈ S :=
          (h.typed e (List.mem_singleton.2 rfl) _ hb).1 i (List.mem_singleton.2 rfl)
        cases htype : v.table.type? i with
        | none =>
          rw [head_of_none htype] at hhead
          cases hhead
        | some b =>
          have hconcrete := h.commits hstrict i b (h.new hi).1 htype
          rw [head_of_some h.tidy.valid h.tidy.acyclic htype,
            head_of_isConcrete hconcrete] at hhead
          rw [hhead] at hconcrete
          rw [Ty.holeDepth?_of_isConcrete (a := a') hconcrete] at hm
          cases hm
      | pointer d b =>
        obtain ⟨rfl, rfl⟩ := Ty.pointer.inj hhead
        have hdepth := he _ (m + 1) hb (by rw [Ty.holeDepth?, hm, Option.map_some])
        show (e.literalDepth?.bind fun n ↦ if n = 0 then none else some (n - 1)) = some m
        rw [hdepth]
        rfl
      | _ => cases hhead
    · cases ha

theorem unary {e : Expr} (h : Checked globals final w [e] S v) (n : Note) (op : UnaryOp)
    (hhalted : (v.unaryType op e).2.halted = false) :
    Checked globals final w [(Expr.unary n op e).withType (v.unaryType op e).1] S
      (v.unaryType op e).2 := by
  have he := h.typed e (List.mem_singleton.2 rfl)
  have hasks := asks_unaryType h.tidy h.closed he op
  have hparts := h.asks hasks fun _ ↦ commitsConcrete_unaryType h.tidy h.closed he op
  refine hparts.node hparts.closed (Set.Subset.refl _)
    (by rw [Expr.nodesAll_cons, Expr.nodesAll_nil, List.append_nil]; rfl) ?_ ?_ ?_
  · intro a ha
    rw [Expr.type?_withType] at ha
    exact typedIn_unaryType h.tidy h.closed he op ha
  · exact fun hstrict ↦
      depthKnown_unary h (h.toAdvances.findings_eq hasks.findings hstrict).1 n op
  · exact fun _ ↦ .inr fun s hs ↦ (judged_unary h.tidy h.closed he n op hhalted hs).mono
      fun hstrict ↦ (h.toAdvances.findings_eq hasks.findings hstrict).2

section Agreement

variable [RootChoice]

theorem binary {lhs rhs : Expr} (h : Checked globals final w [lhs] A v)
    (h' : Checked globals final v [rhs] B x) (n : Note) (op : BinOp) :
    Checked globals final w
      [(Expr.binary n op lhs rhs).withType (x.binaryType n.span op lhs rhs).1] (A ∪ B)
      (x.binaryType n.span op lhs rhs).2 := by
  have hl := h.typed lhs (List.mem_singleton.2 rfl)
  have hr := h'.typed rhs (List.mem_singleton.2 rfl)
  have hA := h'.grows.closed_of_closed h.closed
  have hdisjoint := h.toAdvances.disjoint h'.toAdvances
  have hboth := h.append h'
  have hasks := asks_binaryType h'.tidy hA h'.closed hdisjoint hl hr n.span op
  have hparts := hboth.asks hasks
    (commitsConcrete_binaryType h'.tidy hA h'.closed hdisjoint hl hr n.span op)
  refine hparts.node hparts.closed (Set.Subset.refl _) (by simp [Expr.nodes, Expr.withType])
    ?_ ?_ ?_
  · intro a ha
    rw [Expr.type?_withType, binaryType_fst] at ha
    exact hl.mono Set.subset_union_left a ha
  · intro hstrict a m ha hm
    rw [Expr.type?_withType, binaryType_fst] at ha
    have hx := (hboth.toAdvances.findings_eq hasks.findings hstrict).1
    exact h.depth (h.toAdvances.findings_eq h'.findings hx).1 lhs (List.mem_singleton.2 rfl) a m
      ha hm
  · exact fun _ ↦ .inr fun s hs ↦ (judged_binary h'.tidy hA h'.closed hl hr n op hs).mono
      fun hstrict ↦ (hboth.toAdvances.findings_eq hasks.findings hstrict).2

theorem call {callee : Expr} {args : List Expr} (h : Checked globals final w (callee :: args) S v)
    (n : Note) (hhalted : (v.callType n.span callee args).2.halted = false) :
    Checked globals final w
      [(Expr.call n callee args).withType (v.callType n.span callee args).1] ∅
      (v.callType n.span callee args).2 := by
  have hcallee := h.typed callee List.mem_cons_self
  have hargs : ∀ e ∈ args, e.TypedIn S := fun e he ↦ h.typed e (List.mem_cons_of_mem _ he)
  obtain ⟨hasks, hconcrete⟩ := asks_callType h.tidy h.closed hcallee hargs n.span
  have hparts := h.asks hasks fun _ ↦
    commitsConcrete_callType h.tidy h.closed hcallee hargs n.span hhalted
  refine hparts.node (.empty _) (Set.empty_subset _) rfl ?_ ?_ ?_
  · intro a ha
    rw [Expr.type?_withType] at ha
    exact ⟨Ty.within_of_isConcrete (hconcrete a ha), Ty.isChain_of_isConcrete (hconcrete a ha)⟩
  · intro _ a m ha hm
    rw [Expr.type?_withType] at ha
    rw [Ty.holeDepth?_of_isConcrete (hconcrete a ha)] at hm
    exact nomatch hm
  · refine fun _ ↦ ?_
    rcases judged_call final h.tidy h.closed hcallee hargs n hhalted with
      ⟨⟨i, hi, hnone, hnull⟩, hsame⟩ | hjudged
    · -- the hole was live as part of the callee, and the call gives it up
      rw [hsame]
      exact .inl ⟨i, h.new hi, id, hnone, hnull⟩
    · exact .inr fun s hs ↦ hjudged s _ hs

theorem cast {e : Expr} {dest : Ty} (h : Checked globals final w [e] S v)
    (hdest : dest.isConcrete = true) (n : Note) (hhalted : (v.castType e dest).2.halted = false) :
    Checked globals final w [(Expr.cast n e dest).withType (v.castType e dest).1] ∅
      (v.castType e dest).2 := by
  have he := h.typed e (List.mem_singleton.2 rfl)
  have hasks := asks_castType h.tidy h.closed he hdest
  have htype : ∀ a, ((Expr.cast n e dest).withType (v.castType e dest).1).type? = some a →
      a = dest := by
    intro a ha
    rw [Expr.type?_withType, castType_fst hhalted] at ha
    exact (Option.some.inj ha).symm
  have hparts := h.asks hasks fun _ ↦ commitsConcrete_castType h.tidy h.closed he hdest
  refine hparts.node (.empty _) (Set.empty_subset _)
    (by rw [Expr.nodesAll_cons, Expr.nodesAll_nil, List.append_nil]; rfl) ?_ ?_ ?_
  · intro a ha
    rw [htype a ha]
    exact ⟨Ty.within_of_isConcrete hdest, Ty.isChain_of_isConcrete hdest⟩
  · intro _ a m ha hm
    rw [htype a ha, Ty.holeDepth?_of_isConcrete hdest] at hm
    exact nomatch hm
  · refine fun _ ↦ .inr fun s hs ↦ judged_cast h.tidy h.closed he hdest n hhalted hs ?_
    exact fun hstrict ↦ h.depth (h.toAdvances.findings_eq hasks.findings hstrict).1 e
      (List.mem_singleton.2 rfl)

end Agreement

end Checked

/-! ### Nodes with their parts -/

/-- Trees that have been checked **one behind another**, each with live holes of its own. -/
inductive CheckedEach (globals : Bindings) (final : List Symbol) : Walk → List Expr → Walk → Prop
  | nil {w : Walk} (tidy : w.table.Tidy) : CheckedEach globals final w [] w
  | cons {w v x : Walk} {e : Expr} {es : List Expr} {S : Set Nat}
    (head : Checked globals final w [e] S v) (rest : CheckedEach globals final v es x) :
    CheckedEach globals final w (e :: es) x

/-- The type of a node whose parts have been checked, by the rule for nodes of its kind. There is no
such rule for names, which do not get their types from parts. -/
def nodeType [RootChoice] (w : Walk) : Expr → Option Ty × Walk
  | .constant n c => w.constantType n.span c
  | .ident n _ _ => (n.type?, w)
  | .unary _ op e => w.unaryType op e
  | .binary n op l r => w.binaryType n.span op l r
  | .call n f args => w.callType n.span f args
  | .cast _ e dest => w.castType e dest

namespace CheckedEach

variable {globals : Bindings} {final : List Symbol} {es : List Expr} {e e' : Expr}

/-- What has been checked one behind another has been checked. -/
theorem checked (h : CheckedEach globals final w es v) : ∃ S, Checked globals final w es S v := by
  induction h with
  | nil hw => exact ⟨∅, .nil hw⟩
  | cons hhead _ ih =>
    obtain ⟨S, hS⟩ := ih
    exact ⟨_, hhead.append hS⟩

variable [RootChoice]

/-- **A node on top of its parts.** -/
theorem node (h : CheckedEach globals final w e'.parts v) (htop : e.SameTop e')
    (hformed : e.namesConcrete) (hrun : (v.nodeType e').2.halted = false) :
    ∃ S, Checked globals final w [e'.withType (v.nodeType e').1] S (v.nodeType e').2 := by
  cases htop with
  | constant n c =>
    cases h with
    | nil hw => exact Checked.constant hw n c
  | unary n op _ e =>
    obtain _ | ⟨he, _ | _⟩ := h
    exact ⟨_, he.unary n op hrun⟩
  | binary n op _ l _ r =>
    obtain _ | ⟨hl, _ | ⟨hr, _ | _⟩⟩ := h
    exact ⟨_, hl.binary hr n op⟩
  | call n _ f _ args =>
    obtain ⟨S, hS⟩ := h.checked
    exact ⟨∅, hS.call n hrun⟩
  | cast n _ e dest =>
    obtain _ | ⟨he, _ | _⟩ := h
    exact ⟨∅, he.cast hformed n hrun⟩

end CheckedEach

end Walk

end FrontEnd
