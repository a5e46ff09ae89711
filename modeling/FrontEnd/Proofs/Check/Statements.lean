import FrontEnd.Proofs.Check.Lasting
import FrontEnd.Proofs.Table.Defaults

/-!
# What checking a definition does

Between two statements a walk is **at rest** (`Walk.Resting`): there are no holes, every name in
scope stands for a symbol with a type, and no type of a symbol has a hole. A statement that is not
halted leads from rest to rest, because its checkpoint is passed only if every hole of the statement
has been decided. The types that the checkpoint writes into the tree are then those of one solution
of the table (`Walk.checkpoint_of_running`), and what was said of all solutions holds of the tree.

Names are looked up while symbols still get their types. That the types found for names are the
types of their symbols in the end is because a symbol in scope has its type already, and a global
symbol never gets one (`Walk.Resting.agrees`).
-/

namespace FrontEnd

open Table

/-- The types of symbols have no holes. -/
def Symbol.AllConcrete (symbols : List Symbol) : Prop :=
  ∀ i a, Symbol.typeAt? symbols i = some a → a.isConcrete = true

theorem Symbol.AllConcrete.mem {symbols : List Symbol} (h : AllConcrete symbols) {s : Symbol}
    (hs : s ∈ symbols) {a : Ty} (ha : s.type? = some a) : a.isConcrete = true := by
  obtain ⟨i, hi⟩ := List.mem_iff_getElem?.1 hs
  exact h i a (by rw [Symbol.typeAt?, hi]; exact ha)

namespace Walk

variable {w v : Walk} {L S : Set Nat} {globals : Bindings} {final : List Symbol}

theorem Retypes.allConcrete {σ τ : List Symbol} (h : Retypes ∅ σ τ) (hσ : Symbol.AllConcrete σ) :
    Symbol.AllConcrete τ :=
  fun i a ha ↦ hσ i a ((h.eq_of_not_mem id).symm.trans ha)

/-! ### Rest -/

/-- **Between statements**: no holes, and all names in scope have types. -/
structure Resting (w : Walk) : Prop where
  table_eq : w.table = .empty
  waiting_eq : w.waiting = []
  concrete : Symbol.AllConcrete w.symbols
  scope : ∀ frame ∈ w.scope.frames, ∀ b ∈ frame, ∃ a, w.symbolType? b.2 = some a

namespace Resting

theorem ready (h : w.Resting) : w.Ready where
  tidy := h.table_eq ▸ Tidy.empty
  concrete _ hs _ ha := h.concrete.mem hs ha

theorem size_eq (h : w.Resting) : w.table.size = 0 := by
  rw [h.table_eq, size_empty]

theorem record (h : w.Resting) (e : CheckError) : (w.record e).Resting :=
  ⟨h.table_eq, h.waiting_eq, h.concrete, h.scope⟩

theorem push (h : w.Resting) : w.push.Resting := by
  rw [Walk.push, andThen]
  split
  · exact h
  · refine ⟨h.table_eq, h.waiting_eq, h.concrete, fun frame hframe b hb ↦ ?_⟩
    rcases List.mem_cons.1 hframe with rfl | hframe
    · cases hb
    · exact h.scope frame hframe b hb

/-- A symbol that has a type can be declared. -/
theorem declare (h : w.Resting) {i : Nat} {a : Ty} (hi : w.symbolType? i = some a) :
    (w.declare i).Resting := by
  rw [Walk.declare, andThen]
  split
  · exact h
  split
  · exact h
  rename_i s hs
  cases hscope : w.scope.declare s.name i with
  | error _ => exact h.record _
  | ok scope =>
    refine ⟨h.table_eq, h.waiting_eq, h.concrete, fun frame hframe b hb ↦ ?_⟩
    rw [Scope.declare] at hscope
    -- the new binding is the only one that was not there before
    have hcases : b = (s.name, i) ∨ ∃ frame ∈ w.scope.frames, b ∈ frame := by
      cases hframes : w.scope.frames with
      | nil =>
        rw [hframes] at hscope
        obtain rfl := Except.ok.inj hscope
        obtain rfl := List.mem_singleton.1 hframe
        exact .inl (List.mem_singleton.1 hb)
      | cons first outer =>
        rw [hframes] at hscope
        dsimp only at hscope
        split at hscope
        · exact nomatch hscope
        · obtain rfl := Except.ok.inj hscope
          rcases List.mem_cons.1 hframe with rfl | hframe
          · rcases List.mem_cons.1 hb with rfl | hb
            · exact .inl rfl
            · exact .inr ⟨first, List.mem_cons_self, hb⟩
          · exact .inr ⟨frame, List.mem_cons_of_mem _ hframe, hb⟩
    rcases hcases with rfl | ⟨frame, hframe, hb⟩
    · exact ⟨a, hi⟩
    · exact h.scope frame hframe b hb

/-- **Names have the types in the end that they are found to have now**, if global symbols get no
types. -/
theorem agrees (h : w.Resting) (hglobals : ∀ b ∈ globals, b.2 < w.symbols.length ∧ b.2 ∉ L)
    (hfinal : Retypes L w.symbols final) : w.Agrees globals final := by
  have hsome : ∀ i, i < w.symbols.length → Symbol.typeAt? final i = w.symbolType? i →
      ∃ s, final[i]? = some s ∧ s.type? = w.symbolType? i := by
    intro i hi heq
    have hlt : i < final.length := hfinal.length_eq ▸ hi
    refine ⟨final[i], List.getElem?_eq_getElem hlt, ?_⟩
    rw [← heq, Symbol.typeAt?, List.getElem?_eq_getElem hlt]
    rfl
  intro name i hi
  rcases Option.or_eq_some_iff.1 hi with hlocal | ⟨-, hglobal⟩
  · obtain ⟨frame, hframe, hfind⟩ := List.exists_of_findSome?_eq_some hlocal
    have hmem : ∃ b ∈ frame, b.2 = i := by
      obtain ⟨pre, post, heq, -⟩ := List.lookup_eq_some_iff.1 hfind
      exact ⟨(name, i), heq ▸ List.mem_append_right _ List.mem_cons_self, rfl⟩
    obtain ⟨b, hb, rfl⟩ := hmem
    obtain ⟨a, ha⟩ := h.scope frame hframe b hb
    refine hsome _ ?_ (by rw [ha]; exact hfinal.eq_of_some ha)
    by_contra hge
    rw [symbolType?, List.getElem?_eq_none (Nat.not_lt.1 hge)] at ha
    cases ha
  · obtain ⟨pre, post, heq, -⟩ := List.lookup_eq_some_iff.1 hglobal
    obtain ⟨hlt, hapart⟩ := hglobals (name, i) (heq ▸ List.mem_append_right _ List.mem_cons_self)
    exact hsome i hlt (hfinal.eq_of_not_mem hapart)

end Resting

/-! ### Checkpoints -/

/-- All types in a tree are concrete, and its nodes are judged. -/
def Settled (final : List Symbol) (strict : Prop) (e : Expr) : Prop :=
  ∀ x ∈ e.nodes, (∀ a, x.type? = some a → a.isConcrete = true) ∧ Judged final strict x

theorem Settled.mono {p q : Prop} {e : Expr} (h : Settled final p e) (hpq : q → p) :
    Settled final q e :=
  fun x hx ↦ ⟨(h x hx).1, (h x hx).2.mono hpq⟩

/-- **A checkpoint that is passed** writes the types of one solution into the tree, and no hole was
doomed. -/
theorem checkpoint_of_running (hw : w.Resting) (h : Advances w S v) {e : Expr}
    (hrun : (v.checkpoint e).2.halted = false) : v.halted = false ∧ ¬ Doomed w S v ∧
      ∃ s, v.table.Solution s ∧ v.checkpoint e =
        (e.mapTypes (Ty.subst s), { v with table := .empty, waiting := [] }) := by
  rw [checkpoint] at hrun ⊢
  cases hv : v.halted with
  | true =>
    rw [if_pos hv] at hrun
    cases hv.symm.trans hrun
  | false =>
    rw [if_neg (by simp [hv])] at hrun ⊢
    dsimp only at hrun ⊢
    cases hfind : v.waiting.find? fun l ↦ (v.table.settleAll.type? l.hole).isNone with
    | some l =>
      rw [hfind] at hrun
      cases (halted_record _ rfl).symm.trans hrun
    | none =>
      -- every hole of the statement waits, so every hole has been decided
      have hdecided : ∀ i < v.table.size, v.table.settleAll.type? i ≠ none := by
        intro i hi hnone
        have hmem : i ∈ v.waiting.map (·.hole) := by
          rw [h.waiting_eq, hw.waiting_eq, hw.size_eq]
          exact List.mem_append_right _ (List.mem_range'_1.2 ⟨Nat.zero_le i, by omega⟩)
        obtain ⟨l, hl, rfl⟩ := List.mem_map.1 hmem
        have hl' := List.find?_eq_none.1 hfind l hl
        rw [hnone] at hl'
        exact hl' rfl
      have hevolves := evolves_settleAll h.tidy
      have htidy := hevolves.tidy h.tidy
      refine ⟨rfl, ?_, fun i ↦ v.table.settleAll.expand (.hole i), ?_, rfl⟩
      · rintro ⟨k, hk, -, hnone, hnull⟩
        exact hdecided k hk.2 (type?_settleAll_of_null hnone hnull)
      · exact hevolves.becomes.solution (solution_expand htidy.valid htidy.acyclic
          fun i hi ↦ hdecided i (hevolves.size_eq ▸ hi))

theorem Checked.settled {e : Expr} (h : Checked globals final w [e] S v)
    (hagrees : w.Agrees globals final) (hdoomed : ¬ Doomed w S v) {s : Nat → Ty}
    (hs : v.table.Solution s) :
    Settled final (v.findings = w.findings) (e.mapTypes (Ty.subst s)) := by
  have hjudged := (h.judged hagrees).resolve_left hdoomed s hs
  rw [Expr.nodesAll_cons, Expr.nodesAll_nil, List.append_nil] at hjudged
  intro x hx
  rw [Expr.nodes_mapTypes] at hx
  obtain ⟨y, hy, rfl⟩ := List.mem_map.1 hx
  refine ⟨fun a ha ↦ ?_, hjudged y hy⟩
  rw [Expr.type?_mapTypes] at ha
  obtain ⟨b, hb, rfl⟩ := Option.map_eq_some_iff.1 ha
  have hy' : y ∈ Expr.nodesAll [e] := by simpa using hy
  exact Ty.isConcrete_subst fun i hi ↦ hs.concrete ((h.covers y hy' b hb).1 i hi)

/-- The type at the root of a tree is concrete behind its checkpoint. -/
theorem Checked.isConcrete {e : Expr} (h : Checked globals final w [e] S v) {s : Nat → Ty}
    (hs : v.table.Solution s) {a : Ty} (ha : (e.mapTypes (Ty.subst s)).type? = some a) :
    a.isConcrete = true := by
  rw [Expr.type?_mapTypes] at ha
  obtain ⟨b, hb, rfl⟩ := Option.map_eq_some_iff.1 ha
  have htyped := (h.typed e (List.mem_singleton.2 rfl) b hb).1
  exact Ty.isConcrete_subst fun i hi ↦ hs.concrete (h.closed.lt (htyped i hi))

/-- Behind a checkpoint a walk is at rest. -/
theorem Resting.advance (hw : w.Resting) (h : Advances w S v) :
    Resting { v with table := .empty, waiting := [] } where
  table_eq := rfl
  waiting_eq := rfl
  concrete := h.symbols_eq ▸ hw.concrete
  scope frame hframe b hb := by
    rw [symbolType?, h.symbols_eq]
    exact hw.scope frame (h.scope_eq ▸ hframe) b hb

section Agreement

variable [RootChoice]

/-- **An expression up to its checkpoint.** -/
theorem unlabelled_of_running {e : Expr} (hw : w.Resting) (he : e.Formed)
    (hrun : (w.unlabelled globals e).2.halted = false) :
    (w.unlabelled globals e).2.Resting ∧ (w.unlabelled globals e).2.symbols = w.symbols ∧
      (∀ a, (w.unlabelled globals e).1.type? = some a → a.isConcrete = true) ∧
      ∀ final, w.Agrees globals final →
        Settled final ((w.unlabelled globals e).2.findings = w.findings)
          (w.unlabelled globals e).1 := by
  have hexpr := running_of_checkpoint hrun
  obtain ⟨S, hS⟩ := checked_expr w.symbols e w hw.ready he hexpr
  obtain ⟨-, -, s, hs, heq⟩ := checkpoint_of_running hw hS.toAdvances hrun
  have heq : w.unlabelled globals e = _ := heq
  refine ⟨heq ▸ hw.advance hS.toAdvances, heq ▸ hS.symbols_eq, ?_, fun final hagrees ↦ ?_⟩
  · rw [heq]
    exact fun a ha ↦ hS.isConcrete hs ha
  · obtain ⟨S, hS⟩ := checked_expr final e w hw.ready he hexpr
    obtain ⟨-, hdoomed, s, hs, heq⟩ := checkpoint_of_running hw hS.toAdvances hrun
    have heq : w.unlabelled globals e = _ := heq
    rw [heq]
    exact hS.settled hagrees hdoomed hs

/-- **An initial value up to its checkpoint**, with a type label. -/
theorem labelled_of_running {e : Expr} {label : Ty} (hw : w.Resting) (he : e.Formed)
    (hlabel : label.isConcrete = true) (hagrees : w.Agrees globals final)
    (hrun : (w.labelled globals label e).2.halted = false) :
    (w.labelled globals label e).2.Resting ∧
      (w.labelled globals label e).2.symbols = w.symbols ∧
      Settled final ((w.labelled globals label e).2.findings = w.findings)
        (w.labelled globals label e).1 ∧
      ∀ a, (w.labelled globals label e).1.type? = some a → a = label := by
  have hrequire : ((expr globals e w).2.require label (expr globals e w).1).halted = false :=
    running_of_checkpoint hrun
  obtain ⟨S, hS⟩ := checked_expr final e w hw.ready he (running_of_require hrequire)
  have htyped := hS.typed _ (List.mem_singleton.2 rfl)
  have hasks := asks_require hS.tidy hS.closed htyped hlabel
  have hS' := hS.asks hasks fun _ ↦ by
    cases hb : (expr globals e w).1.type? with
    | none =>
      rw [require_of_none hb]
      exact .refl _
    | some b => exact (require_sound hS.tidy hS.closed htyped hlabel hrequire hb).1
  obtain ⟨-, hdoomed, s, hs, heq⟩ := checkpoint_of_running hw hS'.toAdvances hrun
  have heq' : w.labelled globals label e = _ := heq
  rw [heq']
  refine ⟨hw.advance hS'.toAdvances, hS'.symbols_eq, hS'.settled hagrees hdoomed hs, ?_⟩
  intro a ha
  rw [Expr.type?_mapTypes] at ha
  obtain ⟨b, hb, rfl⟩ := Option.map_eq_some_iff.1 ha
  exact (require_sound hS.tidy hS.closed htyped hlabel hrequire hb).2 s hs

end Agreement

end Walk

end FrontEnd
