import FrontEnd.Proofs.Check.Shapes

/-!
# Errors point into their definitions

The errors of a definition point at expressions, at the names of its parameters and variables, and
at its tags. All but the last lie inside the definition, and the tags stand in front of it
(`Definition.Blames`).

Not every error takes its place from the expression at hand. A literal without a type is reported at
the checkpoint of its statement, from the place that was noted when it was met, and a name that is
taken is reported where its symbol was made. But all of these are places inside the definition
(`Definition.sources`), and the moves of a walk make errors from such places only
(`Walk.Moves.exists_findings`).
-/

namespace FrontEnd

theorem CheckError.MadeOf.category_ne {N : Set String} {err : CheckError} (h : err.MadeOf N) :
    err.category ≠ .metadata := by
  cases h <;> exact Category.noConfusion

/-! ### Tags -/

/-- One of the parts of a tag stands at a place. -/
def Tag.StandsAt (t : Tag) (span : Span) : Prop :=
  span = t.nameSpan ∨ ∃ v, t.value? = some v ∧ span = v.span

theorem Tag.standsAt_of_error? {t : Tag} {error : TagError} {span : Span}
    (h : t.error? = some (error, span)) : t.StandsAt span := by
  rw [Tag.error?] at h
  split at h
  · cases h
    exact .inl rfl
  · rename_i v _ hv
    cases h
    exact .inr ⟨v, hv, rfl⟩
  · cases h
  · cases h
    exact .inl rfl
  · rename_i v _ hv
    split at h
    · cases h
    · cases h
      exact .inr ⟨v, hv, rfl⟩

namespace Metadata

theorem contains_of_mem_rules {m : Metadata} {on : Tagged} {r : TagRule} (hr : r ∈ m.rules on)
    (hbroken : r.broken = true) : m.contains r.tagName = true := by
  cases on with
  | function hasBody =>
    simp only [rules, List.mem_cons, List.not_mem_nil, or_false] at hr
    rcases hr with rfl | rfl | rfl | rfl <;> simp_all
  | global hasInit =>
    simp only [rules, List.mem_cons, List.not_mem_nil, or_false] at hr
    rcases hr with rfl | rfl | rfl | rfl <;> simp_all

/-- **A broken rule on tags points at one of them.** -/
theorem standsAt_of_error? {m : Metadata} {on : Tagged} {error : TagError} {span : Span}
    (h : m.error? on = some (error, span)) : ∃ t ∈ m.tags, t.StandsAt span := by
  rcases Option.or_eq_some_iff.1 h with h | ⟨-, h⟩
  · obtain ⟨t, ht, herror⟩ := List.exists_of_findSome?_eq_some h
    exact ⟨t, ht, Tag.standsAt_of_error? herror⟩
  · obtain ⟨r, hr, heq⟩ := Option.map_eq_some_iff.1 h
    obtain ⟨-, rfl⟩ := Prod.mk.inj heq
    have hbroken : r.broken = true := by simpa using List.find?_some hr
    have hcontains := contains_of_mem_rules (List.mem_of_find?_eq_some hr) hbroken
    obtain ⟨t, ht⟩ := Option.isSome_iff_exists.1 hcontains
    refine ⟨t, List.mem_of_find?_eq_some ht, .inl ?_⟩
    rw [spanOf, ht]
    rfl

end Metadata

/-! ### Programs -/

/-- **The place of an error of a definition**: it is in the file of the definition, at one of its
tags if the tags are wrong, and otherwise inside the definition. -/
structure Definition.Blames (x : Definition) (f : Finding) : Prop where
  file_eq : f.file = x.file
  tag : f.error.category = .metadata → ∃ t ∈ x.metadata.tags, t.StandsAt f.error.span
  within : f.error.category ≠ .metadata → f.error.span.Within x.span

namespace Expr

variable {text : List Char}

/-- Everything in an expression stands inside it, at any depth. -/
theorem within_of_placed (e : Expr) (h : e.Placed text) : ∀ y ∈ e.nodes, y.span.Within e.span := by
  induction e using partsInduction with
  | step e ih =>
    intro y hy
    rw [nodes_eq] at hy
    rcases List.mem_cons.1 hy with rfl | hy
    · exact .refl _
    · obtain ⟨x, hx, hy⟩ := mem_nodesAll.1 hy
      exact (ih x hx (h.part hx) y hy).trans (h.stands.within x hx)

end Expr

/-- The places at which a definition has its errors, apart from those of its tags. -/
def Definition.sources (x : Definition) (text : List Char) : Sources where
  names := Set.univ
  places := { span | span.Within x.span ∧ ∃ word, span.Cuts text word }

namespace Definition

variable {x : Definition} {text : List Char} {σ τ : List Symbol}

/-- The expressions of a definition stand inside it. -/
theorem Placed.expr (h : x.Placed text σ) {e : Expr} (he : e ∈ x.exprs) :
    e.Placed text ∧ e.span.Within x.span := by
  have hcontent := h.content
  rw [exprs] at he
  cases hx : x.content with
  | function symbol params result body? =>
    rw [hx] at he hcontent
    obtain ⟨s, hs, he⟩ := List.mem_filterMap.1 he
    obtain ⟨b, hb, hs⟩ := Build.mem_stmts_function hx hs
    obtain ⟨hplaced, hwithin⟩ := hcontent b hb
    obtain ⟨hstmt, hstmtWithin⟩ := hplaced.stmts s hs
    obtain ⟨hexpr, hexprWithin⟩ := hstmt.expr he
    exact ⟨hexpr, hexprWithin.trans (hstmtWithin.trans hwithin)⟩
  | global v =>
    rw [hx] at he hcontent
    obtain ⟨hexpr, hexprWithin⟩ := hcontent.1.init e (Option.mem_toList.1 he)
    exact ⟨hexpr, hexprWithin.trans hcontent.2⟩

/-- All that a definition is made of stands inside it. -/
theorem Placed.supplies (h : x.Placed text σ) :
    (x.sources text).SuppliesDefinition Set.univ σ x where
  exprs e he := by
    obtain ⟨hplaced, hwithin⟩ := h.expr he
    refine ⟨fun _ _ _ _ ↦ trivial, fun y hy ↦ ?_⟩
    exact ⟨(Expr.within_of_placed e hplaced y hy).trans hwithin, (hplaced y hy).cuts⟩
  called i hi := by
    obtain ⟨s, hs, -, hwithin, hcuts⟩ := h.symbols i hi
    exact .of_getElem? hs trivial ⟨hwithin, _, hcuts⟩
  values _ _ _ _ _ := trivial

/-- Symbols that have not moved stand in the same places. -/
theorem Placed.of_places (h : x.Placed text σ) (hplaces : σ.map Symbol.place = τ.map Symbol.place) :
    x.Placed text τ := by
  refine ⟨h.cuts, h.content, fun i hi ↦ ?_, h.tags⟩
  obtain ⟨s, hs, hfile, hwithin, hcuts⟩ := h.symbols i hi
  have hplace : (τ.map Symbol.place)[i]? = some s.place := by
    rw [← hplaces, List.getElem?_map, hs]
    rfl
  rw [List.getElem?_map] at hplace
  obtain ⟨s', hs', heq⟩ := Option.map_eq_some_iff.1 hplace
  obtain ⟨hname, heq⟩ := Prod.mk.inj heq
  obtain ⟨hfile', hspan⟩ := Prod.mk.inj heq
  exact ⟨s', hs', hfile'.trans hfile, hspan ▸ hwithin, hspan ▸ hname ▸ hcuts⟩

end Definition

namespace Walk

open Table

variable [RootChoice] {w : Walk} {globals : Bindings}

theorem waiting_definition (w : Walk) (globals : Bindings) (d : Definition) :
    (w.definition globals d).2.waiting = [] := by
  cases h : ((w.enter d.file).tags d).halted with
  | true => rw [definition_of_halted h]; rfl
  | false => rw [definition_of_tags h]; rfl

variable (globals) in
/-- **What is found in a definition points into it**, and symbols stay where they are. -/
theorem blames_definition {d : Definition} {text : List Char} {σ : List Symbol}
    (hwaiting : w.waiting = []) (hplaces : σ.map Symbol.place = w.symbols.map Symbol.place)
    (hd : d.Placed text σ) :
    (∀ f ∈ (w.definition globals d).2.findings.drop w.findings.length,
      d.Blames f ∧ ∃ word, f.error.span.Cuts text word) ∧
      (w.definition globals d).2.symbols.map Symbol.place = w.symbols.map Symbol.place := by
  cases herror : d.metadata.error? d.tagged with
  | none =>
    have hwaits : (w.enter d.file).WaitsIn (d.sources text) := fun l hl ↦
      absurd (hwaiting ▸ hl : l ∈ []) List.not_mem_nil
    have hmoves : Moves _ _ (w.enter d.file) ((w.enter d.file).content globals d.content).2 :=
      moves_content globals hwaits (hd.of_places hplaces).supplies
    obtain ⟨fs, hfs, hmade⟩ := hmoves.exists_findings
    rw [definition_of_no_error? globals w herror]
    refine ⟨fun f hf ↦ ?_, hmoves.places_eq⟩
    have hmem : f ∈ (w.findings ++ fs).drop w.findings.length := hfs ▸ hf
    rw [List.drop_left] at hmem
    obtain ⟨hfile, herr, hwithin, hcuts⟩ := hmade f hmem
    exact ⟨⟨hfile, fun h ↦ absurd h herr.category_ne, fun _ ↦ hwithin⟩, hcuts⟩
  | some r =>
    obtain ⟨error, span⟩ := r
    obtain ⟨t, ht, hspan⟩ := Metadata.standsAt_of_error? herror
    rw [definition_of_error? globals w herror]
    refine ⟨fun f hf ↦ ?_, rfl⟩
    have hone : f ∈ (w.findings ++ [Finding.mk d.file (.metadata error span)]).drop
        w.findings.length := hf
    rw [List.drop_left] at hone
    obtain rfl := List.mem_singleton.1 hone
    refine ⟨⟨rfl, fun _ ↦ ⟨t, ht, hspan⟩, fun h ↦ absurd rfl h⟩, ?_⟩
    rcases hspan with rfl | ⟨v, hv, rfl⟩
    · exact ⟨_, (hd.tags t ht).name⟩
    · obtain ⟨word, hword, -⟩ := (hd.tags t ht).value v hv
      exact ⟨word, hword⟩

variable (globals) in
/-- Every definition is checked with all symbols in their places, and behind the last one they are
there too. -/
theorem places_of_stages {σ : List Symbol} (ds : List Definition) (w : Walk)
    (hwaiting : w.waiting = []) (hplaces : σ.map Symbol.place = w.symbols.map Symbol.place)
    (hds : ∀ d ∈ ds, ∃ text, d.Placed text σ) :
    (∀ x ∈ w.stages globals ds, x.2 ∈ ds ∧ x.1.waiting = [] ∧
      σ.map Symbol.place = x.1.symbols.map Symbol.place) ∧
      (w.definitions globals ds).2.2.symbols.map Symbol.place = σ.map Symbol.place := by
  induction ds generalizing w with
  | nil => exact ⟨fun x hx ↦ absurd hx List.not_mem_nil, hplaces.symm⟩
  | cons d ds ih =>
    obtain ⟨⟨text, hd⟩, hds⟩ := List.forall_mem_cons.1 hds
    have hbehind := hplaces.trans (blames_definition globals hwaiting hplaces hd).2.symm
    obtain ⟨hstages, hend⟩ := ih _ (waiting_definition w globals d) hbehind hds
    rw [stages, definitions_cons]
    refine ⟨List.forall_mem_cons.2 ⟨⟨List.mem_cons_self, hwaiting, hplaces⟩, fun x hx ↦ ?_⟩, hend⟩
    obtain ⟨hmem, hrest⟩ := hstages x hx
    exact ⟨List.mem_cons_of_mem _ hmem, hrest⟩

end Walk

namespace Program

variable [Table.RootChoice] {p : Program}

omit [Table.RootChoice] in
theorem Located.placed (h : p.Located) : ∀ x ∈ p.definitions, ∃ text, x.Placed text p.symbols := by
  intro x hx
  obtain ⟨source, -, hplaced⟩ := h.definitions x hx
  exact ⟨_, hplaced⟩

/-- **A checked program stands where it stood.** -/
theorem Located.check (h : p.Located) : p.check.program.Located := by
  obtain ⟨hstages, hend⟩ := Walk.places_of_stages p.globals p.definitions
    (Walk.start p.symbols) rfl rfl h.placed
  refine ⟨fun y hy ↦ ?_, ?_⟩
  · obtain ⟨x, hx, rfl⟩ := mem_check hy
    have hbare := Walk.bare_definition p.globals x.1 x.2
    obtain ⟨hfile, -⟩ := Definition.mk.inj hbare
    obtain ⟨source, hsource, hplaced⟩ := h.definitions x.2 (hstages x hx).1
    exact ⟨source, hfile ▸ hsource, (hplaced.congr hbare).of_places hend.symm⟩
  · have hordered : (p.definitions.map Definition.bare).Pairwise fun x y ↦
        x.file = y.file → x.span.Before y.span := List.pairwise_map.2 h.ordered
    rw [← bare_check] at hordered
    exact List.pairwise_map.1 hordered

/-- **The errors of each definition point into it**, and into the file in which it is. -/
theorem Located.blames (h : p.Located) {x : Definition} {fs : List Finding}
    (hx : (x, fs) ∈ p.definitions.zip p.findingsEach) :
    ∃ source, p.files[x.file]? = some source ∧
      ∀ f ∈ fs, x.Blames f ∧ ∃ word, f.error.span.Cuts source.chars word := by
  obtain ⟨hstages, -⟩ := Walk.places_of_stages p.globals p.definitions
    (Walk.start p.symbols) rfl rfl h.placed
  have hzip : p.definitions.zip p.findingsEach =
      (((Walk.start p.symbols).stages p.globals p.definitions).map (·.2)).zip p.findingsEach := by
    rw [Walk.map_snd_stages]
  rw [hzip, findingsEach, Walk.findingsEach, List.zip_map'] at hx
  obtain ⟨y, hy, heq⟩ := List.mem_map.1 hx
  obtain ⟨rfl, rfl⟩ := Prod.mk.inj heq
  obtain ⟨hmem, hwaiting, hplaces⟩ := hstages y hy
  obtain ⟨source, hsource, hplaced⟩ := h.definitions y.2 hmem
  exact ⟨source, hsource, (Walk.blames_definition p.globals hwaiting hplaces hplaced).1⟩

omit [Table.RootChoice] in
theorem pointsInto_diagnostic {f : Finding} {source : SourceFile} {word : List Char}
    (hsource : p.files[f.file]? = some source) (hword : f.error.span.Cuts source.chars word) :
    (p.diagnostic f).PointsInto source := by
  rw [diagnostic, hsource]
  exact Diagnostic.pointsInto_ofFile hword _ _ _

omit [Table.RootChoice] in
theorem located_ofFiles (name : String) (sources : List SourceFile) :
    (ofFiles name sources).Located ∧ (ofFiles name sources).files = sources :=
  (located_empty name).parseFiles sources

omit [Table.RootChoice] in
/-- **Places are words** of 32 bits, if every file has less than `2 ^ 32` bytes: the ends of tokens,
of definitions and of all that their expressions are made of. -/
theorem fitsWord_ofFiles (name : String) {sources : List SourceFile}
    (hsources : ∀ f ∈ sources, f.text.utf8ByteSize < UInt32.size) :
    (∀ f ∈ sources, ∀ t ∈ Token.scan f.text, t.span.FitsWord) ∧
      ∀ x ∈ (ofFiles name sources).definitions, x.span.FitsWord ∧
        ∀ e ∈ x.exprs, ∀ y ∈ e.nodes, y.span.FitsWord := by
  refine ⟨fun f hf t ht ↦ Token.fitsWord_of_mem_scan (hsources f hf) ht, fun x hx ↦ ?_⟩
  obtain ⟨hlocated, hfiles⟩ := located_ofFiles name sources
  obtain ⟨source, hsource, hplaced⟩ := hlocated.definitions x hx
  have htext : byteLength source.chars < UInt32.size := by
    rw [SourceFile.chars, byteLength_toList]
    exact hsources source (hfiles ▸ List.mem_of_getElem? hsource)
  obtain ⟨word, hword⟩ := hplaced.cuts
  refine ⟨hword.fitsWord htext, fun e he y hy ↦ ?_⟩
  obtain ⟨word, hword⟩ := ((hplaced.expr he).1 y hy).cuts
  exact hword.fitsWord htext

/-- **Everything stands where it is written, and every error points there.** The definitions of a
program stand in its files, before and behind the check, each with all its parts in it. What is
reported while a file is read points into that file. What is found later belongs to a definition,
and points into it, or at one of its tags, and into the file in which it is. -/
theorem located_check_ofFiles (name : String) (sources : List SourceFile) :
    (ofFiles name sources).files = sources ∧
      (ofFiles name sources).Located ∧
      (ofFiles name sources).check.program.Located ∧
      (∀ before source after, sources = before ++ source :: after →
        ∀ g ∈ ((ofFiles name before).parseFile source).diagnostics, g.PointsInto source) ∧
      (ofFiles name sources).check.diagnostics = (ofFiles name sources).findingsEach.flatten.map
        (ofFiles name sources).check.program.diagnostic ∧
      (ofFiles name sources).findingsEach.length = (ofFiles name sources).definitions.length ∧
      ∀ x fs, (x, fs) ∈ (ofFiles name sources).definitions.zip (ofFiles name sources).findingsEach →
        ∃ source, sources[x.file]? = some source ∧ ∀ f ∈ fs, x.Blames f ∧
          ((ofFiles name sources).check.program.diagnostic f).PointsInto source := by
  obtain ⟨hlocated, hfiles⟩ := located_ofFiles name sources
  refine ⟨hfiles, hlocated, hlocated.check, ?_, ?_, ?_, fun x fs hx ↦ ?_⟩
  · rintro before source after -
    exact ((located_ofFiles name before).1.parseFile source).2.2
  · generalize ofFiles name sources = p
    have hfindings : p.check.findings = p.findingsEach.flatten :=
      Walk.findings_definitions p.definitions _ p.allLocalsIn
    rw [Report.diagnostics, hfindings]
  · rw [findingsEach, Walk.findingsEach, List.length_map, ← List.length_map (·.2),
      Walk.map_snd_stages]
  · obtain ⟨source, hsource, hfs⟩ := hlocated.blames hx
    refine ⟨source, hfiles ▸ hsource, fun f hf ↦ ?_⟩
    obtain ⟨hblames, word, hword⟩ := hfs f hf
    exact ⟨hblames, pointsInto_diagnostic (hblames.file_eq ▸ hsource) hword⟩

end Program

end FrontEnd
