import FrontEnd.Proofs.Check.Simulation

/-!
# A definition in two places

Two walks through the same definition, one on its own and one behind other definitions, do the same
things: they agree on everything that the definition can see. `Walk.Mirrors` is this relation. It is
a translation in which nothing moves (`Walk.Mirrors.translation`), so checking keeps it and returns
the same in both walks.

What a definition can see are the symbols of global names and those that it introduces itself. What
it changes are the symbols of its local variables and, at their end, the errors. So the walk behind
other definitions leaves everything else as it found it, which is part of the relation too.
-/

namespace FrontEnd

open Table

/-- The **surroundings** of a definition among others. -/
structure Surroundings where
  /-- The symbols that the definition can see. -/
  seen : Set Nat
  /-- Those of them that are its local variables. -/
  locals : Set Nat
  /-- The symbols as they are when checking it starts. -/
  symbols : List Symbol
  /-- What has been found before. -/
  findings : List Finding

/-- Surroundings **hold** a definition if what it introduces can be seen. -/
structure Surroundings.Holds (S : Surroundings) (d : Definition) : Prop where
  symbol : d.symbol ∈ S.seen
  params : ∀ i ∈ d.params, i ∈ S.seen
  locals : ∀ i ∈ d.locals, i ∈ S.seen ∧ i ∈ S.locals

namespace Walk

variable {S : Surroundings} {globals : Bindings}

/-- The walk `v` **mirrors** `w` in some surroundings: nothing tells the two apart that the
definition at hand can see. -/
structure Mirrors (S : Surroundings) (w v : Walk) : Prop where
  file : v.file = w.file
  scope : v.scope = w.scope
  table : v.table = w.table
  waiting : v.waiting = w.waiting
  halted : v.halted = w.halted
  findings : v.findings = S.findings ++ w.findings
  seen : ∀ i ∈ S.seen, v.symbols[i]? = w.symbols[i]?
  unseen : ∀ i ∉ S.locals, v.symbols[i]? = S.symbols[i]?
  bound : ∀ frame ∈ w.scope.frames, ∀ b ∈ frame, b.2 ∈ S.seen

namespace Mirrors

/-- A name means a symbol that can be seen. -/
theorem lookup_mem_seen {w v : Walk} (h : Mirrors S w v) (hglobals : ∀ b ∈ globals, b.2 ∈ S.seen)
    {name : String} {i : Nat} (hi : w.scope.lookup globals name = some i) : i ∈ S.seen := by
  have hfind {b : Bindings} (hb : ∀ x ∈ b, x.2 ∈ S.seen) (hi : b.find? name = some i) :
      i ∈ S.seen := by
    obtain ⟨before, after, rfl, -⟩ := List.lookup_eq_some_iff.1 hi
    exact hb (name, i) (List.mem_append_right _ List.mem_cons_self)
  rw [Scope.lookup, Option.or_eq_some_iff] at hi
  rcases hi with hi | ⟨-, hi⟩
  · obtain ⟨frame, hframe, hi⟩ := List.exists_of_findSome?_eq_some hi
    exact hfind (h.bound frame hframe) hi
  · exact hfind hglobals hi

/-- What is bound behind a declaration can be seen. -/
theorem bound_declare {w v : Walk} (h : Mirrors S w v) {name : String} {i : Nat} {scope : Scope}
    (hi : i ∈ S.seen) (hscope : w.scope.declare name i = .ok scope) :
    ∀ frame ∈ scope.frames, ∀ b ∈ frame, b.2 ∈ S.seen := by
  have hbound := h.bound
  unfold Scope.declare at hscope
  cases hframes : w.scope.frames with
  | nil =>
    rw [hframes] at hscope
    cases hscope
    exact List.forall_mem_singleton.2 (List.forall_mem_singleton.2 hi)
  | cons frame outer =>
    rw [hframes] at hscope hbound
    obtain ⟨hframe, houter⟩ := List.forall_mem_cons.1 hbound
    dsimp only at hscope
    split at hscope
    · cases hscope
    · cases hscope
      exact List.forall_mem_cons.2 ⟨List.forall_mem_cons.2 ⟨hi, hframe⟩, houter⟩

theorem record {w v : Walk} (h : Mirrors S w v) (err : CheckError) :
    Mirrors S (w.record err) (v.record err) :=
  { h with
    halted := congrArg (· || err.isFatal) h.halted
    findings := by
      rw [Walk.record, Walk.record, h.findings, h.file]
      exact List.append_assoc _ _ _ }

theorem setSymbolType {w v : Walk} (h : Mirrors S w v) {i : Nat} (hi : i ∈ S.locals) (a : Ty) :
    Mirrors S (w.setSymbolType i a) (v.setSymbolType i a) :=
  { h with
    seen := fun j hj ↦ by
      rw [Walk.setSymbolType, Walk.setSymbolType, List.getElem?_modify, List.getElem?_modify,
        h.seen j hj]
    unseen := fun j hj ↦ by
      have hne : i ≠ j := fun hij ↦ hj (hij ▸ hi)
      exact (List.getElem?_modify_ne _ _ hne).trans (h.unseen j hj) }

/-- **To mirror a walk is a translation**, in which everything stays where it is. -/
def translation (c : RootChoice) (S : Surroundings) (hglobals : ∀ b ∈ globals, b.2 ∈ S.seen) :
    Translation c globals where
  Rel := Mirrors S
  move := id
  own := S.seen
  locals := S.locals
  halted_eq := Mirrors.halted
  scope_eq := Mirrors.scope
  symbolType?_eq h hi := by
    rw [symbolType?, symbolType?, h.seen _ (h.lookup_mem_seen hglobals hi)]
  table := Mirrors.table
  withTable h htu := { h with table := htu }
  wait h hole span := { h with waiting := congrArg (· ++ [⟨hole, span⟩]) h.waiting }
  record h err := by
    rw [err.mapSpan_id]
    exact h.record err
  symbol {w v i} h hi := by
    rw [h.seen i hi]
    cases w.symbols[i]? with
    | none => exact .inr ⟨rfl, rfl, rfl⟩
    | some s => exact .inl ⟨s, s, rfl, rfl, rfl, rfl, rfl⟩
  waiting_eq h := h.waiting.trans (List.map_id _).symm
  clear h _ := { h with table := rfl, waiting := rfl }
  openFrame h :=
    { h with
      scope := congrArg Scope.push h.scope
      bound := List.forall_mem_cons.2 ⟨List.forall_mem_nil _, h.bound⟩ }
  closeFrame h :=
    { h with
      scope := congrArg Scope.pop h.scope
      bound := fun frame hframe ↦ h.bound frame (List.mem_of_mem_tail hframe) }
  bind h hi hscope := { h with scope := rfl, bound := h.bound_declare hi hscope }
  assign h hi a := h.setSymbolType hi a
  leave h := { h with scope := rfl, table := rfl, waiting := rfl, bound := List.forall_mem_nil _ }

end Mirrors

/-- **A definition is checked alike** in two walks that mirror each other when it is entered. -/
theorem alike_definition [c : RootChoice] (hglobals : ∀ b ∈ globals, b.2 ∈ S.seen)
    {d : Definition} (hd : S.Holds d) {w v : Walk}
    (h : Mirrors S (w.enter d.file) (v.enter d.file)) :
    Same (Mirrors S) (w.definition globals d) (v.definition globals d) := by
  have hown : ∀ i ∈ d.owned, i ∈ S.seen :=
    Definition.forall_mem_owned.2 ⟨hd.symbol, hd.params, fun i hi ↦ (hd.locals i hi).1⟩
  have herror : d.metadata.error? d.tagged =
      (d.metadata.error? d.tagged).map (Prod.map id id) := by
    rw [Prod.map_id, Option.map_id, id]
  obtain ⟨htree, hafter⟩ := Translation.definition (S := Mirrors.translation c S hglobals) hown
    (fun i hi ↦ (hd.locals i hi).2) d.content.mapSpans_id.symm herror h
  refine ⟨?_, hafter⟩
  rw [definition_fst globals w d, htree]
  exact congrArg (Definition.mk _ _ _) (Definition.Content.mapSpans_id _)

end Walk

end FrontEnd
