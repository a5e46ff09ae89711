import FrontEnd.Proofs.Check.Places

/-!
# Checking in other places

Where things stand plays no part in checking: a program in its other place is checked with the same
types, and with the same errors in their other places (`Program.check_of_leads`).

The walks through the two programs differ by the relocation and by nothing else (`Walk.Relocated`),
and that is a translation (`Walk.Relocated.translation`). An error takes its place from the
expression at hand, from a literal that waits, or from a symbol. The first two are in the file of
the definition, and so is a symbol that the definition introduces; that is why the relation
remembers the files of all symbols.
-/

namespace FrontEnd

open Table

/-- What was found, in its other place. -/
def Relocation.finding (ρ : Relocation) (x : Finding) : Finding :=
  ⟨ρ.file x.file, x.error.mapSpan (ρ.span x.file)⟩

/-! ### Tags -/

variable (f : Span → Span)

theorem Tag.error?_mapSpans (t : Tag) :
    (t.mapSpans f).error? = t.error?.map (Prod.map id f) := by
  rw [error?, error?, mapSpans]
  dsimp only
  cases texts? t.name with
  | none => rfl
  | some texts =>
    cases texts with
    | nil => cases t.value? <;> rfl
    | cons text more =>
      cases t.value? with
      | none => rfl
      | some value =>
        dsimp only [Option.map, TagValue.mapSpan]
        split <;> rfl

namespace Metadata

theorem rules_mapSpans (m : Metadata) (on : Tagged) : (m.mapSpans f).rules on = m.rules on := by
  cases on <;> simp only [rules, contains_mapSpans]

/-- The rule that is broken is the same, and it points at the same tag. -/
theorem error?_mapSpans (m : Metadata) (on : Tagged) :
    (m.mapSpans f).error? on = (m.error? on).map (Prod.map id f) := by
  have htags : (m.mapSpans f).tags.findSome? Tag.error? =
      (m.tags.findSome? Tag.error?).map (Prod.map id f) := by
    rw [mapSpans, List.findSome?_map, List.map_findSome?]
    congr 1
    funext t
    exact Tag.error?_mapSpans f t
  rw [error?, error?, htags, rules_mapSpans, Option.map_or, Option.map_map]
  congr 1
  cases hrule : (m.rules on).find? (·.broken) with
  | none => rfl
  | some rule =>
    have hcontains := contains_of_mem_rules (List.mem_of_find?_eq_some hrule)
      (List.find?_some hrule)
    obtain ⟨t, ht⟩ := Option.isSome_iff_exists.1 hcontains
    have hspan : (m.mapSpans f).spanOf rule.tagName = f (m.spanOf rule.tagName) := by
      rw [spanOf, spanOf, get?_mapSpans, ht]
      rfl
    exact congrArg (fun s ↦ some (rule.error, s)) hspan

end Metadata

theorem Relocation.tagged_definition (ρ : Relocation) (x : Definition) :
    (ρ.definition x).tagged = x.tagged := by
  rw [Definition.tagged, Definition.tagged, definition]
  cases x.content with
  | function symbol params result body? => cases body? <;> rfl
  | global v => exact congrArg Tagged.global Option.isSome_map

/-! ### The state -/

namespace Walk

/-- **The walk `v` is `w` in its other place**, in a definition of the file `file`. The files of all
symbols are known. -/
structure Relocated (ρ : Relocation) (files : List Nat) (file : Nat) (w v : Walk) : Prop where
  here : w.file = file
  there : v.file = ρ.file file
  scope : v.scope = w.scope
  table : v.table = w.table
  waiting : v.waiting = w.waiting.map (Waiting.mapSpan (ρ.span file))
  halted : v.halted = w.halted
  findings : v.findings = w.findings.map ρ.finding
  symbols : v.symbols = w.symbols.map ρ.symbol
  files_eq : w.symbols.map (·.file) = files

variable {ρ : Relocation} {files : List Nat} {file : Nat} {globals : Bindings}

namespace Relocated

variable {w v : Walk} (h : Relocated ρ files file w v)

include h

theorem record (e : CheckError) :
    Relocated ρ files file (w.record e) (v.record (e.mapSpan (ρ.span file))) :=
  { h with
    halted := by rw [Walk.record, Walk.record, h.halted, CheckError.isFatal_mapSpan]
    findings := by
      rw [Walk.record, Walk.record, h.findings, List.map_append, h.here, h.there]
      rfl }

theorem getElem?_symbols (i : Nat) : v.symbols[i]? = w.symbols[i]?.map ρ.symbol := by
  rw [h.symbols, List.getElem?_map]

theorem symbolType?_eq (i : Nat) : v.symbolType? i = w.symbolType? i := by
  rw [symbolType?, symbolType?, h.getElem?_symbols]
  cases w.symbols[i]? <;> rfl

/-- A symbol of the file at hand. -/
theorem symbolMoved {i : Nat} (hi : files[i]? = some file) :
    SymbolMoved (ρ.span file) w.symbols[i]? v.symbols[i]? := by
  rw [← h.files_eq, List.getElem?_map] at hi
  obtain ⟨s, hs, hfile⟩ := Option.map_eq_some_iff.1 hi
  refine .inl ⟨s, ρ.symbol s, hs, by rw [h.getElem?_symbols, hs]; rfl, rfl, rfl, ?_⟩
  rw [Relocation.symbol, hfile]

theorem setSymbolType (i : Nat) (a : Ty) :
    Relocated ρ files file (w.setSymbolType i a) (v.setSymbolType i a) :=
  { h with
    symbols := by
      refine List.ext_getElem? fun j ↦ ?_
      rw [Walk.setSymbolType, Walk.setSymbolType, List.getElem?_map, List.getElem?_modify,
        List.getElem?_modify, h.getElem?_symbols]
      cases w.symbols[j]? with
      | none => rfl
      | some s => by_cases hij : i = j <;> simp [hij, Relocation.symbol]
    files_eq := by
      have hfiles (σ : List Symbol) : σ.map (·.file) = (σ.map Symbol.place).map (·.2.1) := by
        rw [List.map_map]
        rfl
      rw [hfiles, places_setSymbolType, ← hfiles]
      exact h.files_eq }

omit h in
variable (ρ files file globals) in
/-- **To be in another place is a translation.** -/
def translation (c : RootChoice) : Translation c globals where
  Rel := Relocated ρ files file
  move := ρ.span file
  own := { i | files[i]? = some file }
  locals := Set.univ
  halted_eq := Relocated.halted
  scope_eq := Relocated.scope
  symbolType?_eq h _ := h.symbolType?_eq _
  table := Relocated.table
  withTable h htu := { h with table := htu }
  wait h hole span :=
    { h with
      waiting := by
        dsimp only
        rw [h.waiting, List.map_append]
        rfl }
  record := Relocated.record
  symbol h hi := h.symbolMoved hi
  waiting_eq := Relocated.waiting
  clear h _ := { h with table := rfl, waiting := rfl }
  openFrame h := { h with scope := congrArg Scope.push h.scope }
  closeFrame h := { h with scope := congrArg Scope.pop h.scope }
  bind h _ _ := { h with scope := rfl }
  assign h _ a := h.setSymbolType _ a
  leave h := { h with scope := rfl, table := rfl, waiting := rfl }

end Relocated

/-! ### Programs -/

section Agreement

variable [c : RootChoice] {w v : Walk}

/-- **A definition is checked alike wherever it stands.** -/
theorem relocated_definition {d : Definition}
    (h : Relocated ρ files d.file (w.enter d.file) (v.enter (ρ.definition d).file))
    (hd : ∀ i ∈ d.owned, files[i]? = some d.file) :
    (v.definition globals (ρ.definition d)).1 = ρ.definition (w.definition globals d).1 ∧
      Relocated ρ files d.file (w.definition globals d).2
        (v.definition globals (ρ.definition d)).2 := by
  have herror : (ρ.definition d).metadata.error? (ρ.definition d).tagged =
      (d.metadata.error? d.tagged).map (Prod.map id (ρ.span d.file)) := by
    rw [ρ.tagged_definition]
    exact Metadata.error?_mapSpans _ d.metadata d.tagged
  obtain ⟨htree, hafter⟩ := Translation.definition
    (S := Relocated.translation ρ files d.file globals c) hd (fun _ _ ↦ trivial) rfl herror h
  rw [definition_fst globals w d]
  exact ⟨htree, hafter⟩

omit [RootChoice] in
/-- Nothing that waits is taken along into the next definition. -/
theorem Relocated.enter (h : Relocated ρ files file w v) (hw : w.waiting = []) (next : Nat) :
    Relocated ρ files next (w.enter next) (v.enter (ρ.file next)) :=
  { h with
    here := rfl
    there := rfl
    halted := rfl
    waiting := by
      show v.waiting = w.waiting.map _
      rw [h.waiting, hw]
      rfl }

/-- **Definitions are checked alike wherever they stand**, one behind another. -/
theorem definitions_relocated (ds : List Definition) {w v : Walk}
    (h : ∀ next, Relocated ρ files next (w.enter next) (v.enter (ρ.file next)))
    (hds : ∀ d ∈ ds, ∀ i ∈ d.owned, files[i]? = some d.file) :
    (v.definitions globals (ds.map ρ.definition)).1 =
        (w.definitions globals ds).1.map ρ.definition ∧
      (v.definitions globals (ds.map ρ.definition)).2.1 = (w.definitions globals ds).2.1 ∧
      (v.definitions globals (ds.map ρ.definition)).2.2.findings =
        (w.definitions globals ds).2.2.findings.map ρ.finding ∧
      (v.definitions globals (ds.map ρ.definition)).2.2.symbols =
        (w.definitions globals ds).2.2.symbols.map ρ.symbol := by
  induction ds generalizing w v with
  | nil => exact ⟨rfl, rfl, (h 0).findings, (h 0).symbols⟩
  | cons d ds ih =>
    obtain ⟨hd, hds⟩ := List.forall_mem_cons.1 hds
    obtain ⟨htree, hafter⟩ := relocated_definition (h d.file) hd
    obtain ⟨htrees, haborted, hlast⟩ := ih (hafter.enter (waiting_definition w globals d)) hds
    rw [List.map_cons, definitions_cons, definitions_cons, List.map_cons, htree, htrees, haborted,
      hafter.halted, ρ.symbol_definition]
    exact ⟨rfl, rfl, hlast⟩

end Agreement

end Walk

/-- **A program in its other place is checked alike**: the errors are the same in their other
places, the same definitions are cut short, and all types are the same. -/
theorem Program.check_of_leads [RootChoice] {ρ : Relocation} {p q : Program} (hp : p.Located)
    (h : ρ.Leads p q) :
    ρ.Leads p.check.program q.check.program ∧ q.check.findings = p.check.findings.map ρ.finding ∧
      q.check.aborted = p.check.aborted := by
  have howned : ∀ d ∈ p.definitions, ∀ i ∈ d.owned,
      (p.symbols.map (·.file))[i]? = some d.file := by
    intro d hd i hi
    obtain ⟨source, -, hplaced⟩ := hp.definitions d hd
    obtain ⟨s, hs, hfile, -⟩ := hplaced.symbols i hi
    rw [List.getElem?_map, hs, ← hfile]
    rfl
  have hstart (next : Nat) : Walk.Relocated ρ (p.symbols.map (·.file)) next
      ((Walk.start p.symbols).enter next) ((Walk.start q.symbols).enter (ρ.file next)) :=
    ⟨rfl, rfl, rfl, rfl, rfl, rfl, rfl, h.symbols, rfl⟩
  obtain ⟨htrees, haborted, hfindings, hsymbols⟩ :=
    Walk.definitions_relocated p.definitions hstart howned
  rw [check, check, h.definitions, h.globals]
  exact ⟨⟨hsymbols, htrees, rfl⟩, hfindings, haborted⟩

end FrontEnd
