import FrontEnd.Proofs.Check.Simulation
import FrontEnd.Proofs.Check.Soundness

/-!
# The choice of representatives does not show in a program

Two checkers that choose the representatives of classes in different ways report the same of every
program (`Program.check_eq_of_rootChoice`): errors, what was cut short, and the types of all symbols
and all nodes, the holes of trees that were cut short included.

While a statement is checked the two walks differ in their tables, which are equivalent, and in
nothing else (`Walk.Resembles`). A node is given the type of a literal, of a part, of a symbol or of
something that a pointer or a function is made of, and never a head that is a hole; a cast names a
type without holes. So representatives stay in the table. Where a checkpoint would write them into
the tree there are none left to write, since it is passed only if every hole has been decided. From
there on the walks are the same again (`Walk.InStep`).
-/

namespace FrontEnd

open Table

namespace Expr

/-- Functions that do the same to the type of a node do the same to the node. -/
theorem map_type?_congr {f g : Ty → Ty} {n : Note} (h : ∀ a, n.type? = some a → f a = g a) :
    ({ n with type? := n.type?.map f } : Note) = { n with type? := n.type?.map g } := by
  rw [Option.map_congr h]

mutual

/-- Functions that do the same to the types in a tree do the same to the tree. -/
theorem mapTypes_congr {f g : Ty → Ty} : ∀ {e : Expr},
    (∀ x ∈ e.nodes, ∀ a, x.type? = some a → f a = g a) → e.mapTypes f = e.mapTypes g
  | constant n v, h => congrArg (constant · v) (map_type?_congr (h _ (.head _)))
  | ident n name symbol, h => congrArg (ident · name symbol) (map_type?_congr (h _ (.head _)))
  | unary n op e, h => by
    have he : e.mapTypes f = e.mapTypes g := mapTypes_congr fun x hx ↦ h x (.tail _ hx)
    rw [mapTypes_unary, mapTypes_unary, he]
    exact congrArg (unary · op _) (map_type?_congr (h _ (.head _)))
  | binary n op l r, h => by
    have hl : l.mapTypes f = l.mapTypes g :=
      mapTypes_congr fun x hx ↦ h x (.tail _ (List.mem_append_left _ hx))
    have hr : r.mapTypes f = r.mapTypes g :=
      mapTypes_congr fun x hx ↦ h x (.tail _ (List.mem_append_right _ hx))
    rw [mapTypes_binary, mapTypes_binary, hl, hr]
    exact congrArg (binary · op _ _) (map_type?_congr (h _ (.head _)))
  | call n k args, h => by
    have hk : k.mapTypes f = k.mapTypes g :=
      mapTypes_congr fun x hx ↦ h x (.tail _ (List.mem_append_left _ hx))
    have hargs : args.map (mapTypes f) = args.map (mapTypes g) :=
      map_mapTypes_congr fun x hx ↦ h x (.tail _ (List.mem_append_right _ hx))
    rw [mapTypes_call, mapTypes_call, hk, hargs]
    exact congrArg (call · _ _) (map_type?_congr (h _ (.head _)))
  | cast n e dest, h => by
    have he : e.mapTypes f = e.mapTypes g := mapTypes_congr fun x hx ↦ h x (.tail _ hx)
    rw [mapTypes_cast, mapTypes_cast, he]
    exact congrArg (cast · _ dest) (map_type?_congr (h _ (.head _)))

theorem map_mapTypes_congr {f g : Ty → Ty} : ∀ {es : List Expr},
    (∀ x ∈ nodesAll es, ∀ a, x.type? = some a → f a = g a) →
      es.map (mapTypes f) = es.map (mapTypes g)
  | [], _ => rfl
  | e :: es, h => by
    have he : e.mapTypes f = e.mapTypes g :=
      mapTypes_congr fun x hx ↦ h x (List.mem_append_left _ hx)
    have hes : es.map (mapTypes f) = es.map (mapTypes g) :=
      map_mapTypes_congr fun x hx ↦ h x (List.mem_append_right _ hx)
    rw [List.map_cons, List.map_cons, he, hes]

end

end Expr

namespace Walk

variable {w v : Walk} {globals : Bindings} {e : Expr}

/-! ### Walks with equivalent tables -/

/-- The walk `v` **resembles** `w`: it is the same but for its table, which is equivalent. -/
structure Resembles (w v : Walk) : Prop where
  table : w.table.Equivalent v.table
  rest : v = w.withTable v.table

namespace Resembles

theorem refl (w : Walk) : Resembles w w :=
  ⟨.refl _, rfl⟩

variable (h : Resembles w v)

include h

theorem halted : v.halted = w.halted :=
  congrArg (·.halted) h.rest

/-- Behind a definition nothing of the tables is left. -/
theorem leave_eq : v.leave = w.leave :=
  congrArg (·.leave) h.rest

end Resembles

/-- **To resemble a walk is a simulation**, under any two choices of representatives. -/
def Resembles.simulation (c d : RootChoice) (globals : Bindings) :
    Simulation (Likeness.equivalent c d) globals where
  Rel := Resembles
  move := id
  halted_eq := Resembles.halted
  scope_eq h := congrArg (·.scope) h.rest
  symbolType?_eq {w v name i} h _ := congrArg (·.symbolType? i) h.rest
  table := Resembles.table
  withTable {w v t u} h htu := ⟨htu, congrArg (·.withTable u) h.rest⟩
  wait h hole span := by
    refine ⟨h.table, ?_⟩
    exact congrArg (fun x : Walk ↦ { x with waiting := x.waiting ++ [Waiting.mk hole span] }) h.rest
  record h err := by
    rw [err.mapSpan_id]
    exact ⟨h.table, congrArg (·.record err) h.rest⟩

/-- **Expressions**, with any two choices of representatives. -/
theorem same_expr (c d : RootChoice) (he : e.Formed) (h : Resembles w v) :
    Same Resembles (@expr c globals e w) (@expr d globals e v) := by
  have hcasts : ∀ x ∈ e.nodes, x.castsInto (Likeness.equivalent c d).casts := by
    intro x hx
    have hx := he x hx
    cases x with
    | cast n x dest =>
      rintro i rfl
      cases hx
    | _ => trivial
  have hexpr := Simulation.expr (S := Resembles.simulation c d globals) h e hcasts
  rw [show e.mapSpans (Resembles.simulation c d globals).move = e from e.mapSpans_id] at hexpr
  exact ⟨hexpr.result.trans (Expr.mapSpans_id _), hexpr.walk⟩

/-! ### Walks that are the same again -/

/-- Two walks are **in step** if they resemble each other, and are the same as long as they run. -/
structure InStep (w v : Walk) : Prop extends Resembles w v where
  eq_of_running : w.halted = false → v = w

namespace InStep

theorem refl (w : Walk) : InStep w w :=
  ⟨.refl w, fun _ ↦ rfl⟩

/-- Walks stay in step under whatever leaves a halted walk alone. -/
theorem apply {f : Walk → Walk} (h : InStep w v) (hf : ∀ x : Walk, x.halted = true → f x = x) :
    InStep (f w) (f v) := by
  cases hrun : w.halted with
  | true =>
    rw [hf w hrun, hf v (h.halted.trans hrun)]
    exact h
  | false =>
    rw [h.eq_of_running hrun]
    exact .refl _

theorem pop (h : InStep w v) : InStep w.pop v.pop :=
  h.apply fun _ hx ↦ if_pos hx

theorem declare (h : InStep w v) (i : Nat) : InStep (w.declare i) (v.declare i) :=
  h.apply fun _ hx ↦ declare_of_halted hx i

theorem adopt (h : InStep w v) (i : Nat) (e : Expr) : InStep (w.adopt i e) (v.adopt i e) :=
  h.apply fun _ hx ↦ adopt_of_halted hx i e

end InStep

/-- **A checkpoint**, if no hole is left behind it. -/
theorem Resembles.checkpoint (h : Resembles w v)
    (hconcrete : (w.checkpoint e).2.halted = false →
      ∀ x ∈ (w.checkpoint e).1.nodes, ∀ a, x.type? = some a → a.isConcrete = true) :
    Same InStep (w.checkpoint e) (v.checkpoint e) := by
  cases hrun : w.halted with
  | true =>
    rw [checkpoint_of_halted hrun, checkpoint_of_halted (h.halted.trans hrun)]
    exact ⟨rfl, h, fun hw ↦ absurd (hrun.symm.trans hw) (by simp)⟩
  | false =>
    have hsettle := h.table.settleAll
    have hwaiting : v.waiting = w.waiting := congrArg (·.waiting) h.rest
    rw [Walk.checkpoint, if_neg (by simp [hrun])] at hconcrete ⊢
    rw [Walk.checkpoint, if_neg (by simp [h.halted, hrun]), hwaiting]
    simp only [hsettle.type?_eq]
    cases hfind : w.waiting.find? fun l ↦ (w.table.settleAll.type? l.hole).isNone with
    | some l =>
      refine ⟨rfl, ⟨hsettle, ?_⟩, fun hw ↦ absurd ((halted_record _ rfl).symm.trans hw) (by simp)⟩
      dsimp only
      rw [hsettle.describe_eq]
      exact congrArg (fun x ↦ Walk.record { x with table := v.table.settleAll, waiting := [] } _)
        h.rest
    | none =>
      dsimp only at hconcrete
      rw [hfind] at hconcrete
      have hwalk : ({ v with table := .empty, waiting := [] } : Walk) =
          { w with table := .empty, waiting := [] } :=
        congrArg (fun x ↦ { x with table := .empty, waiting := [] }) h.rest
      refine ⟨Expr.mapTypes_congr fun x hx a ha ↦ hsettle.expand_of_isConcrete ?_,
        ⟨.refl _, hwalk⟩, fun _ ↦ hwalk⟩
      refine hconcrete hrun (x.mapTypes w.table.settleAll.expand) ?_ _ ?_
      · rw [Expr.nodes_mapTypes]
        exact List.mem_map_of_mem hx
      · rw [Expr.type?_mapTypes, ha]
        rfl

theorem same_unlabelled (c d : RootChoice) (hw : w.Resting) (he : e.Formed)
    (hagrees : w.Agrees globals w.symbols) :
    Same InStep (@unlabelled c w globals e) (@unlabelled d w globals e) := by
  obtain ⟨hexpr, hwalk⟩ := same_expr c d he (.refl w)
  have hsettled := fun hrun ↦ (@unlabelled_of_running w globals c e hw he hrun).2.2.2 _ hagrees
  unfold unlabelled at hsettled ⊢
  rw [hexpr]
  exact hwalk.checkpoint fun hrun x hx ↦ (hsettled hrun x hx).1

/-- The label has no holes, so holding the value to it is the same question in both tables. -/
theorem same_labelled (c d : RootChoice) (hw : w.Resting) (he : e.Formed) {label : Ty}
    (hlabel : label.isConcrete = true) (hagrees : w.Agrees globals w.symbols) :
    Same InStep (@labelled c w globals label e) (@labelled d w globals label e) := by
  obtain ⟨hexpr, hwalk⟩ := same_expr c d he (.refl w)
  have hsettled := fun hrun ↦
    (@labelled_of_running w globals w.symbols c e label hw he hlabel hagrees hrun).2.2.1
  unfold labelled at hsettled ⊢
  dsimp only at hsettled ⊢
  rw [hexpr]
  have hrequire := Simulation.require (S := Resembles.simulation c d globals) hwalk label
    (@expr c globals e w).1
  rw [show (@expr c globals e w).1.mapSpans (Resembles.simulation c d globals).move = _ from
    Expr.mapSpans_id _] at hrequire
  exact hrequire.checkpoint fun hrun x hx ↦ (hsettled hrun x hx).1

/-! ### Statements and definitions -/

/-- The ways to declare a variable, one by one. What is given away has no holes by then. -/
theorem same_letVar (c d : RootChoice) (hw : w.Resting) {v : Variable}
    (hinit : ∀ e, v.init? = some e → e.Formed) (hagrees : w.Agrees globals w.symbols) :
    Same InStep (@letVar c w globals v) (@letVar d w globals v) := by
  unfold letVar
  split
  · exact ⟨rfl, .refl w⟩
  cases htype : w.symbolType? v.symbol with
  | some label =>
    cases he : v.init? with
    | some e =>
      obtain ⟨hresult, hwalk⟩ :=
        same_labelled c d hw (hinit e he) (hw.concrete _ _ htype) hagrees
      dsimp only
      rw [hresult]
      exact ⟨rfl, hwalk.declare _⟩
    | none => exact ⟨rfl, .refl _⟩
  | none =>
    cases he : v.init? with
    | some e =>
      obtain ⟨hresult, hwalk⟩ := same_unlabelled c d hw (hinit e he) hagrees
      unfold unlabelled at hresult hwalk
      dsimp only
      rw [hresult]
      exact ⟨rfl, (hwalk.adopt _ _).declare _⟩
    | none => exact ⟨rfl, .refl _⟩

/-- Behind a statement that is not halted the two walks are the same again. -/
theorem same_stmt (c d : RootChoice) (hw : w.Resting) {s : Stmt} {count : Nat}
    (hs : s.Formed count) (hagrees : w.Agrees globals w.symbols) :
    Same InStep (@stmt c w globals s) (@stmt d w globals s) := by
  cases s with
  | letVar v =>
    obtain ⟨hresult, hwalk⟩ := same_letVar c d hw hs.expr hagrees
    exact ⟨congrArg Stmt.letVar hresult, hwalk⟩
  | expr e =>
    obtain ⟨hresult, hwalk⟩ := same_unlabelled c d hw (hs.expr e rfl) hagrees
    exact ⟨congrArg Stmt.expr hresult, hwalk⟩

/-- **Statements**, one behind another. As long as the walks run, each statement starts from one
state, at rest. -/
theorem same_stmts (c d : RootChoice) {L : Set Nat} (ss : List Stmt) (w : Walk)
    (h : w.ComesTo globals L ss) :
    Same InStep (@stmts c w globals ss) (@stmts d w globals ss) := by
  induction ss generalizing w with
  | nil => exact ⟨rfl, .refl w⟩
  | cons s ss ih =>
    obtain ⟨hresult, hwalk⟩ := same_stmt c d h.resting (h.formed s List.mem_cons_self)
      (h.resting.agrees h.apart (.refl _))
    rw [@stmts_cons _ c, @stmts_cons _ d, hresult]
    cases hrun : (@stmt c w globals s).2.halted with
    | true =>
      rw [@stmts_of_halted _ _ c hrun, @stmts_of_halted _ _ d (hwalk.halted.trans hrun)]
      exact ⟨rfl, hwalk⟩
    | false =>
      rw [hwalk.eq_of_running hrun]
      obtain ⟨hresult, hwalk⟩ := ih _ (@ComesTo.next _ _ _ c _ _ h hrun)
      exact ⟨congrArg (_ :: ·) hresult, hwalk⟩

/-- **The two checkers do the same with a definition**, halted or not. -/
theorem same_content (c d : RootChoice) {L : Set Nat} {f : Definition}
    (h : w.Meets globals L f) :
    Same InStep (@content c w globals f.content) (@content d w globals f.content) := by
  cases hcontent : f.content with
  | function symbol params result body? =>
    rw [@content_function _ c, @content_function _ d]
    cases body? with
    | none => exact ⟨rfl, .refl _⟩
    | some b =>
      obtain ⟨hresult, hwalk⟩ := same_stmts c d b.stmts _ (h.body hcontent).1
      rw [@body_some _ c, @body_some _ d, hresult]
      exact ⟨rfl, hwalk.pop.pop⟩
  | global v =>
    have hexprs := h.formed.exprs
    rw [Definition.exprs, hcontent] at hexprs
    have hglobal : Same InStep (@global c w globals v) (@global d w globals v) := by
      unfold global
      split
      · exact ⟨rfl, .refl w⟩
      cases htype : w.symbolType? v.symbol with
      | none => exact ⟨rfl, .refl _⟩
      | some label =>
        cases he : v.init? with
        | none => exact ⟨rfl, .refl w⟩
        | some e =>
          obtain ⟨hresult, hwalk⟩ := same_labelled c d h.resting
            (hexprs e (Option.mem_toList.2 he)) (h.resting.concrete _ _ htype)
            (h.resting.agrees h.apart (.refl _))
          dsimp only
          rw [hresult]
          exact ⟨rfl, hwalk⟩
    exact ⟨congrArg Definition.Content.global hglobal.result, hglobal.walk⟩

/-- **A definition**: what is left of the walk behind it is the same. -/
theorem definition_eq (c d : RootChoice) {L : Set Nat} {f : Definition}
    (h : w.Meets globals L f) : @definition c w globals f = @definition d w globals f := by
  cases hhalted : ((w.enter f.file).tags f).halted with
  | true => rw [@definition_of_halted c _ _ _ hhalted, @definition_of_halted d _ _ _ hhalted]
  | false =>
    obtain ⟨hresult, hwalk⟩ := same_content c d h.tags
    rw [@definition_of_tags c _ _ _ hhalted, @definition_of_tags d _ _ _ hhalted, hresult,
      hwalk.leave_eq]

/-- So they do with all definitions, since both start from the same walk each time. -/
theorem definitions_eq (c d : RootChoice) {L : Set Nat} (fs : List Definition) (w : Walk)
    (hfs : ∀ f ∈ fs, w.Meets globals L f) :
    @definitions c w globals fs = @definitions d w globals fs := by
  induction fs generalizing w with
  | nil => rfl
  | cons f fs ih =>
    obtain ⟨hf, hfs⟩ := List.forall_mem_cons.1 hfs
    have hmore := ih _ fun f' hf' ↦ @Meets.next c _ _ _ _ _ hf (hfs f' hf')
    rw [@definitions_cons c, @definitions_cons d, hmore, definition_eq c d hf]

end Walk

/-- **Representatives do not show**. Whichever members stand for classes, a program gets the same
report: the same errors, the same definitions cut short, the same types of symbols, and the same
trees down to the holes in what was cut short. -/
theorem Program.check_eq_of_rootChoice (c d : RootChoice) (name : String)
    (sources : List SourceFile) :
    @check c (ofFiles name sources) = @check d (ofFiles name sources) := by
  have hformed := formed_ofFiles name sources
  generalize ofFiles name sources = p at hformed ⊢
  unfold check
  rw [Walk.definitions_eq c d p.definitions _ hformed.meets]

end FrontEnd
