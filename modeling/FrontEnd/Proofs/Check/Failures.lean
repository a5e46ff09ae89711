import FrontEnd.Proofs.Check.Disagreements

/-!
# Checking goes on as if it had not asked

Of the errors that do not end a definition, a mismatch between operands is the one behind which the
table has been asked to make two types agree. That it could not leaves nothing behind: the types
that checking hands to the table are chains, tables of a run know only chains and no circles
(`Store.Ready`), and then a question that fails changes nothing (`Use.after_of_fails`). So the walk
goes on in the state that it was in before it compared the operands, with one finding more
(`Walk.binaryType_of_fails`).
-/

namespace FrontEnd

open Table

section Runs

variable [RootChoice]

/-- The answer to a use that asks the table something. -/
def Use.answer? (u : Use) (σ : Store) : Option Bool :=
  match u with
  | unify a b => some (σ.table.unify a b).1
  | limit kind a => some (σ.table.requireLimit kind a).1
  | castHole dest i => some (σ.table.castHole dest i).1
  | _ => none

/-- **A question that fails** leaves the store as it was. -/
theorem Use.after_of_fails {u : Use} {σ : Store} (hacyclic : σ.table.Acyclic)
    (hchain : ∀ a ∈ u.types, (σ.table.expand a).isChain = true) (h : u.answer? σ = some false) :
    u.after σ = σ := by
  have hstore {t : Table} (ht : t = σ.table) : ({ σ with table := t } : Store) = σ := by rw [ht]
  cases u with
  | unify a b =>
    have ha := hchain a List.mem_cons_self
    have hb := hchain b (List.mem_cons_of_mem _ List.mem_cons_self)
    exact hstore (unify_of_isChain hacyclic ha hb (Option.some.inj h))
  | limit kind a => exact hstore (requireLimit_of_fails (Option.some.inj h))
  | castHole dest i => exact hstore (castHole_of_fails (Option.some.inj h))
  | _ => cases h

theorem Moment.after_of_fails {m : Moment} (hm : m.Sound) (hstore : m.store.Ready)
    (h : m.use.answer? m.store = some false) : m.use.after m.store = m.store :=
  Use.after_of_fails hm.acyclic (fun a ha ↦ hstore.tidy.isChain_expand (hm.isChain a ha)) h

/-- A moment starts from what the one before it left behind. -/
theorem Chained.store_eq {σ τ : Store} {ms ms' : List Moment} {m m' : Moment}
    (h : Chained σ (ms ++ m :: m' :: ms') τ) : m'.store = m.use.after m.store := by
  induction ms generalizing σ with
  | nil =>
    obtain ⟨hm, hm', -⟩ := h
    rw [hm', hm]
  | cons x xs ih => exact ih h.2

/-- **Operands that do not agree** are reported, and nothing else happens. -/
theorem Walk.binaryType_of_fails {w : Walk} {lhs rhs : Expr} {a b : Ty}
    (hacyclic : w.table.Acyclic) (ha : lhs.type? = some a) (hb : rhs.type? = some b)
    (hchain : (w.table.expand a).isChain = true) (hchain' : (w.table.expand b).isChain = true)
    (h : (w.table.unify a b).1 = false) (span : Span) (op : BinOp) :
    w.binaryType span op lhs rhs =
      (some a, w.record (.mismatch (w.table.describe a) (w.table.describe b) span)) := by
  have hsame : w.table.unify a b = (false, w.table) :=
    Prod.ext h (unify_of_isChain hacyclic hchain hchain' h)
  rw [Walk.binaryType, ha, hb]
  dsimp only
  rw [hsame]
  rfl

namespace Program

theorem chained_ofFiles (name : String) (sources : List SourceFile) : ∃ σ τ,
    Chained σ (ofFiles name sources).trace τ := by
  have hp := formed_ofFiles name sources
  generalize ofFiles name sources = p at hp ⊢
  exact ⟨_, _, (Walk.traced_definitions p.definitions _ hp.resting hp.meets).chained⟩

/-- **Failures**. In a table whose commitments run in no circle, a question about types without
holes in their function types leaves the table as it was if the answer is no. Operands that do not
agree are therefore reported in the state in which they were compared. In the run of a program all
questions are such, and behind every mismatch that is reported there is a moment at which the table
was asked to make the two types agree, could not, and stayed as it was; the run goes on from
there. -/
theorem failed_questions_change_nothing :
    (∀ (t : Table) (a b : Ty), t.Acyclic → (t.expand a).isChain = true →
      (t.expand b).isChain = true →
      ((t.unify a b).1 = false → (t.unify a b).2 = t) ∧
      ((t.convert a b).1 = false → (t.convert a b).2 = t) ∧
      ((t.requireNumber a).1 = false → (t.requireNumber a).2 = t) ∧
      ((t.requireInteger a).1 = false → (t.requireInteger a).2 = t) ∧
      (b.isConcrete = true → (t.cast b a).1 = false → (t.cast b a).2 = t)) ∧
    (∀ (w : Walk) (span : Span) (op : BinOp) (lhs rhs : Expr) (a b : Ty), w.table.Acyclic →
      lhs.type? = some a → rhs.type? = some b → (w.table.expand a).isChain = true →
      (w.table.expand b).isChain = true → (w.table.unify a b).1 = false →
      w.binaryType span op lhs rhs =
        (some a, w.record (.mismatch (w.table.describe a) (w.table.describe b) span))) ∧
    ∀ (name : String) (sources : List SourceFile),
      (∀ m ∈ (ofFiles name sources).trace, m.use.answer? m.store = some false →
        m.use.after m.store = m.store) ∧
      ∀ f ∈ (ofFiles name sources).check.findings, ∀ expected found span,
        f.error = .mismatch expected found span →
        ∃ before m later a b, (ofFiles name sources).trace = before ++ m :: later ∧
          m.use = .unify a b ∧ (m.store.table.unify a b).1 = false ∧
          expected = m.store.table.describe a ∧ found = m.store.table.describe b ∧
          m.use.after m.store = m.store ∧ ∀ m' ∈ later.head?, m'.store = m.store := by
  refine ⟨fun t a b hacyclic ha hb ↦ ⟨unify_of_isChain hacyclic ha hb,
      unify_of_isChain hacyclic ha hb, ?_, ?_, fun hconcrete ↦ cast_of_fails hacyclic hconcrete ha⟩,
    fun w span op lhs rhs a b hacyclic ha hb hchain hchain' h ↦
      Walk.binaryType_of_fails hacyclic ha hb hchain hchain' h span op,
    fun name sources ↦ ⟨fun m hm h ↦ ?_, fun f hf expected found span herror ↦ ?_⟩⟩
  · rw [requireNumber_eq]
    exact requireLimit_of_fails
  · rw [requireInteger_eq]
    exact requireLimit_of_fails
  · obtain ⟨hsound, hready⟩ := stores_ofFiles name sources m hm
    exact m.after_of_fails hsound hready h
  · have htells := tells_ofFiles name sources f hf
    rw [herror] at htells
    obtain ⟨m, hm, hexplains⟩ := htells.resolve_left Bool.noConfusion
    obtain ⟨hsound, hready⟩ := stores_ofFiles name sources m hm
    obtain ⟨a, b, huse, hfails, hexpected, hfound, -, -⟩ := hexplains.mismatch_texts hsound hready
    have hafter : m.use.after m.store = m.store :=
      m.after_of_fails hsound hready (by rw [huse]; exact congrArg some hfails)
    obtain ⟨before, later, htrace⟩ := List.append_of_mem hm
    refine ⟨before, m, later, a, b, htrace, huse, hfails, hexpected, hfound, hafter, ?_⟩
    intro m' hm'
    obtain ⟨rest, rfl⟩ := List.head?_eq_some_iff.1 hm'
    obtain ⟨σ, τ, hchained⟩ := chained_ofFiles name sources
    rw [htrace] at hchained
    rw [hchained.store_eq, hafter]

end Program

end Runs

/-- A number literal is not a boolean, a pointer to it is no pointer to a pointer, and it cannot be
cast to the unit type. -/
theorem Program.failed_questions_change_nothing_literal :
    let t := Table.empty.fresh .number
    let a := Ty.pointer false (.hole 0)
    let b := Ty.pointer false (.pointer true .bool)
    let w := (Walk.start []).withTable t
    let p := ofFiles "main" [⟨"test.berry", "func h() { 1 + true; }"⟩]
    ((t.unify a b).1 = false ∧ (t.unify a b).2 = t) ∧
    ((t.cast .unit (.hole 0)).1 = false ∧ (t.cast .unit (.hole 0)).2 = t) ∧
    (w.binaryType ⟨0, 8⟩ .add (.constant ⟨⟨0, 1⟩, some (.hole 0)⟩ (.int 1))
      (.constant ⟨⟨4, 8⟩, some .bool⟩ (.bool true))).2 =
        w.record (.mismatch (t.describe (.hole 0)) (t.describe .bool) ⟨0, 8⟩) ∧
    ∃ f ∈ p.check.findings, f.error = .mismatch "untyped number" "bool" ⟨11, 19⟩ ∧
      ∃ m ∈ p.trace, ∃ x y, m.use = .unify x y ∧ "untyped number" = m.store.table.describe x ∧
        m.use.answer? m.store = some false ∧ m.use.after m.store = m.store := by
  intro t a b w p
  have hacyclic : t.Acyclic := (Tidy.empty.fresh .number).acyclic
  obtain ⟨htable, hwalk, hprogram⟩ := failed_questions_change_nothing
  have hpointers := (htable t a b hacyclic rfl rfl).1
  have hcast := (htable t (.hole 0) .unit hacyclic rfl rfl).2.2.2.2 rfl
  have hfinding : ∃ f ∈ p.check.findings,
      f.error = .mismatch "untyped number" "bool" ⟨11, 19⟩ := by
    decide +kernel
  obtain ⟨f, hf, herror⟩ := hfinding
  obtain ⟨before, m, later, x, y, htrace, huse, hfails, hx, -, hafter, -⟩ :=
    (hprogram "main" _).2 f hf _ _ _ herror
  have hm : m ∈ p.trace := by
    rw [htrace]
    exact List.mem_append_right _ List.mem_cons_self
  refine ⟨⟨by decide, hpointers (by decide)⟩, ⟨by decide, hcast (by decide)⟩, ?_, f, hf, herror,
    m, hm, x, y, huse, hx, by rw [huse]; exact congrArg some hfails, hafter⟩
  rw [hwalk w ⟨0, 8⟩ .add _ _ (.hole 0) .bool hacyclic rfl rfl rfl rfl (by decide)]
  rfl

end FrontEnd
