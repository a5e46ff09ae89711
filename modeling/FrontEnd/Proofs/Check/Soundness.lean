import FrontEnd.Command.Listing
import FrontEnd.Proofs.Program.Parsed

/-!
# Checked programs are well typed

The two results about the trees that checking leaves behind, for every sequence of texts.

* `Program.obeys_of_no_findings`: where nothing is found wrong, every node obeys its typing rule and
  every variable has the type of its initial value. What counts is what is found in the definition
  itself: errors elsewhere in the program do no harm.
* `Program.concrete_of_not_aborted`: what was not cut short has no holes, also where errors were
  found. So a listing shows the type of everything it lists.

Both are about the types that stand in the trees **in the end**, and about the symbols of the
program that is reported. Nothing of the table or of the order of visits is left in them.
-/

namespace FrontEnd

/-! ### The text of a type -/

namespace Ty

/-- A text without question marks. -/
def Known (text : String) : Prop :=
  '?' ∉ text.toList

instance (text : String) : Decidable (Known text) :=
  inferInstanceAs (Decidable ('?' ∉ text.toList))

theorem known_append {x y : String} (hx : Known x) (hy : Known y) : Known (x ++ y) := by
  rw [Known, String.toList_append, List.mem_append]
  exact not_or.2 ⟨hx, hy⟩

theorem known_intercalate {sep : String} (hsep : Known sep) {xs : List String}
    (hxs : ∀ x ∈ xs, Known x) : Known (sep.intercalate xs) := by
  induction xs with
  | nil => exact List.not_mem_nil
  | cons x xs ih =>
    cases xs with
    | nil => simpa using hxs
    | cons y xs =>
      rw [String.intercalate_cons_cons]
      exact known_append (known_append (hxs x List.mem_cons_self) hsep)
        (ih fun z hz ↦ hxs z (List.mem_cons_of_mem _ hz))

theorem known_renderParams {xs : List String} (hxs : ∀ x ∈ xs, Known x) :
    Known (renderParams xs) := by
  unfold renderParams
  split
  · exact hxs _ List.mem_cons_self
  · exact known_append (known_append (by decide) (known_intercalate (by decide) hxs)) (by decide)

theorem known_name (s : Scalar) : Known s.name := by
  cases s with
  | int width signed => cases width <;> cases signed <;> decide
  | float width => cases width <;> decide
  | bool => decide

/-- **Only holes are written with question marks.** -/
theorem known_text {a : Ty} (ha : a.isConcrete = true) : Known a.text := by
  rw [text_eq_render]
  induction a using Ty.induct with
  | scalar s => exact known_name s
  | unit => decide
  | pointer c a ih => cases c <;> exact known_append (by decide) (ih ha)
  | func ps r ihps ihr =>
    obtain ⟨hps, hr⟩ := isConcrete_func.1 ha
    rw [render, renderAll_eq_map]
    refine known_append (known_append (known_renderParams ?_) (by decide)) (ihr hr)
    intro x hx
    obtain ⟨p, hp, rfl⟩ := List.mem_map.1 hx
    exact ihps p hp (hps p hp)
  | hole i => cases ha

end Ty

/-! ### Definitions -/

namespace Definition

/-- **A definition is well typed** if all nodes of its expressions obey the typing rules, and its
variables have the types of their initial values. -/
structure WellTyped (symbols : List Symbol) (d : Definition) : Prop where
  obeys : ∀ e ∈ d.exprs, ∀ x ∈ e.nodes, x.Obeys symbols
  matched : ∀ v ∈ d.declared, v.Matches symbols

/-- **Everything in a definition is decided** if no type in it has a hole, nodes without a type have
an excuse, and all symbols that it introduces have types. -/
structure Decided (symbols : List Symbol) (d : Definition) : Prop where
  concrete : ∀ e ∈ d.exprs, ∀ x ∈ e.nodes, ∀ a, x.type? = some a → a.isConcrete = true
  excused : ∀ e ∈ d.exprs, ∀ x ∈ e.nodes, x.type? = none → x.Excused symbols
  typed : ∀ i ∈ d.symbol :: (d.params ++ d.locals), ∃ s a, symbols[i]? = some s ∧
    s.type? = some a ∧ a.isConcrete = true

end Definition

/-! ### Reports -/

namespace Report

/-- A line that shows a symbol with its type. -/
def Shows (r : Report) (line : String) : Prop :=
  ∃ lead ∈ ["func ", "    ", "let "], ∃ s ∈ r.program.symbols, ∃ a, s.type? = some a ∧
    a.isConcrete = true ∧ Ty.Known a.text ∧ line = lead ++ (s.name ++ ": " ++ a.text)

theorem shows_symbolLine {r : Report} {lead : String} (hlead : lead ∈ ["func ", "    ", "let "])
    {i : Nat} {s : Symbol} {a : Ty} (hi : r.program.symbols[i]? = some s) (hs : s.type? = some a)
    (ha : a.isConcrete = true) : r.Shows (lead ++ r.symbolLine i) := by
  refine ⟨lead, hlead, s, List.mem_of_getElem? hi, a, hs, ha, Ty.known_text ha, ?_⟩
  rw [symbolLine, hi]
  dsimp only
  rw [hs]
  rfl

theorem shows_definitionLines {r : Report} {d : Definition} (hd : d.Decided r.program.symbols) :
    ∀ line ∈ r.definitionLines d, r.Shows line := by
  intro line hline
  have htyped := hd.typed
  rw [definitionLines] at hline
  rw [Definition.symbol, Definition.params] at htyped
  cases hcontent : d.content with
  | function symbol params result body? =>
    rw [hcontent] at hline htyped
    obtain ⟨⟨s, a, hi, hs, ha⟩, hothers⟩ := List.forall_mem_cons.1 htyped
    rcases List.mem_cons.1 hline with rfl | hline
    · exact shows_symbolLine (by decide) hi hs ha
    · obtain ⟨i, hmem, rfl⟩ := List.mem_map.1 hline
      obtain ⟨s, a, hi, hs, ha⟩ := hothers i hmem
      exact shows_symbolLine (by decide) hi hs ha
  | global v =>
    rw [hcontent] at hline htyped
    obtain ⟨s, a, hi, hs, ha⟩ := htyped v.symbol List.mem_cons_self
    obtain rfl := List.mem_singleton.1 hline
    exact shows_symbolLine (by decide) hi hs ha

end Report

namespace Program

section Check

variable [Table.RootChoice]

/-- The definitions of a checked program are what checking each of them gave. -/
theorem mem_check {p : Program} {d : Definition} (hd : d ∈ p.check.program.definitions) :
    ∃ x ∈ (Walk.start p.symbols).stages p.globals p.definitions,
      (x.1.definition p.globals x.2).1 = d := by
  have h : p.check.program.definitions = _ := Walk.definitions_fst p.definitions _
  rw [h] at hd
  exact List.mem_map.1 hd

theorem Formed.decided {p : Program} (hp : p.Formed) {d : Definition}
    (hd : d ∈ p.check.program.definitions) (habort : d.symbol ∉ p.check.aborted) :
    d.Decided p.check.program.symbols := by
  obtain ⟨x, hx, rfl⟩ := mem_check hd
  rw [Walk.symbol_definition] at habort
  have hrun : (x.1.definition p.globals x.2).2.halted = false :=
    Bool.eq_false_iff.2 fun h ↦ habort (Walk.symbol_mem_aborted p.definitions _ hx h)
  have hcomplete := hp.complete hx hrun
  refine ⟨fun e he y hy ↦ (hcomplete.settled e he y hy).1,
    fun e he y hy ↦ (hcomplete.settled e he y hy).2.1, fun i hi ↦ ?_⟩
  obtain ⟨a, ha⟩ := hcomplete.typed i hi
  obtain ⟨s, hs, hsa⟩ := Symbol.typeAt?_eq_some_iff.1 ha
  exact ⟨s, a, hs, hsa, hp.allConcrete_check i a ha⟩

/-- A definition with which no error is paired was not cut short either: being cut short is reported
as an error. -/
theorem Formed.wellTyped {p : Program} (hp : p.Formed) {d : Definition}
    (hd : (d, []) ∈ p.check.program.definitions.zip p.findingsEach) :
    d.WellTyped p.check.program.symbols := by
  have h : p.check.program.definitions = _ := Walk.definitions_fst p.definitions _
  rw [h, findingsEach, Walk.findingsEach, List.zip_map'] at hd
  obtain ⟨x, hx, heq⟩ := List.mem_map.1 hd
  obtain ⟨rfl, hnone⟩ := Prod.mk.inj heq
  obtain ⟨hmem, -⟩ := Walk.meets_of_mem_stages p.definitions _ hp.meets hx
  have hfollows := Walk.follows_definition p.globals x.1 x.2 (p.allLocalsIn _ hmem)
  have hsame : (x.1.definition p.globals x.2).2.findings = x.1.findings := by
    have h := Walk.eq_append_drop_of_prefix hfollows.findings
    rw [h]
    exact (congrArg (x.1.findings ++ ·) hnone).trans (List.append_nil _)
  have hcomplete := hp.complete hx (hfollows.halted hsame)
  exact ⟨fun e he y hy ↦ (hcomplete.settled e he y hy).2.2 hsame, hcomplete.matched⟩

end Check

/-- The program that texts lead to. -/
def ofFiles (name : String) (sources : List SourceFile) : Program :=
  ((empty name).parseFiles sources).1

theorem unchecked_ofFiles (name : String) (sources : List SourceFile) :
    (ofFiles name sources).Unchecked :=
  unchecked_parseFiles (unchecked_empty name) sources

theorem formed_ofFiles (name : String) (sources : List SourceFile) :
    (ofFiles name sources).Formed :=
  (unchecked_ofFiles name sources).toFormed

/-- **Soundness**. The errors of a program are those of its definitions, one behind another, and the
definitions without errors are well typed. -/
theorem wellTyped_of_no_findings [Table.RootChoice] (name : String) (sources : List SourceFile) :
    (ofFiles name sources).check.findings = (ofFiles name sources).findingsEach.flatten ∧
      (ofFiles name sources).findingsEach.length =
        (ofFiles name sources).check.program.definitions.length ∧
      ∀ d, (d, []) ∈ (ofFiles name sources).check.program.definitions.zip
          (ofFiles name sources).findingsEach →
        d.WellTyped (ofFiles name sources).check.program.symbols := by
  have hformed := formed_ofFiles name sources
  generalize ofFiles name sources = p at hformed ⊢
  refine ⟨Walk.findings_definitions p.definitions _ p.allLocalsIn, ?_, fun d ↦ hformed.wellTyped⟩
  have h : p.check.program.definitions = _ := Walk.definitions_fst p.definitions _
  rw [h, findingsEach, Walk.findingsEach, List.length_map, List.length_map]

/-- A function in which literals take their types from a cast, from another operand and from a
label. -/
theorem wellTyped_of_no_findings_literals :
    let p := ofFiles "main" [⟨"test.berry",
      "func main() { let x = *(&5 as *i64) + 1; let n: *u8 = null; }"⟩]
    ∃ d, (d, []) ∈ p.check.program.definitions.zip p.findingsEach ∧ d.exprs.length = 2 ∧
      d.WellTyped p.check.program.symbols := by
  intro p
  have hlength : (p.check.program.definitions.zip p.findingsEach).map
      (fun x ↦ (x.1.exprs.length, x.2.length)) = [(2, 0)] := by decide +kernel
  obtain ⟨⟨d, fs⟩, hzip, hd⟩ := List.map_eq_singleton_iff.1 hlength
  obtain ⟨hexprs, hfs⟩ := Prod.mk.inj hd
  obtain rfl := List.length_eq_zero_iff.1 hfs
  have hmem : (d, []) ∈ p.check.program.definitions.zip p.findingsEach := by
    rw [hzip]
    exact List.mem_singleton_self _
  exact ⟨d, hmem, hexprs, (wellTyped_of_no_findings "main" _).2.2 d hmem⟩

/-- **Nothing stays open**. What was not cut short is decided, whether or not errors were found in
it, and all that a listing shows has a type. -/
theorem decided_of_not_aborted [Table.RootChoice] (name : String) (sources : List SourceFile) :
    (∀ d ∈ (ofFiles name sources).check.program.definitions,
      d.symbol ∉ (ofFiles name sources).check.aborted →
        d.Decided (ofFiles name sources).check.program.symbols) ∧
      ∀ line ∈ (ofFiles name sources).check.listing, (ofFiles name sources).check.Shows line := by
  have hdecided := fun d ↦ (formed_ofFiles name sources).decided (d := d)
  refine ⟨hdecided, fun line hline ↦ ?_⟩
  obtain ⟨d, hd, hline⟩ := List.mem_flatMap.1 hline
  obtain ⟨hmem, hkept⟩ := List.mem_filter.1 hd
  refine Report.shows_definitionLines (hdecided d hmem fun h ↦ ?_) line hline
  simp [h] at hkept

/-- A function in which an error was found that did not cut it short, and one that was. -/
theorem decided_of_not_aborted_negation :
    let r := (ofFiles "main" [⟨"test.berry",
      "func main(b: bool) { let x = 2 * 3; -b; }\nfunc lost() { null; }"⟩]).check
    r.aborted.length = 1 ∧ r.findings.length = 2 ∧
      r.listing = ["func main: bool -> ()", "    b: bool", "    x: i64"] ∧
      (∃ d ∈ r.program.definitions, d.symbol ∉ r.aborted ∧ d.Decided r.program.symbols) ∧
      ∀ line ∈ r.listing, r.Shows line := by
  intro r
  have hkept : ∃ d ∈ r.program.definitions, d.symbol ∉ r.aborted := by decide +kernel
  obtain ⟨d, hmem, habort⟩ := hkept
  have h := decided_of_not_aborted "main" [⟨"test.berry",
    "func main(b: bool) { let x = 2 * 3; -b; }\nfunc lost() { null; }"⟩]
  exact ⟨by decide +kernel, by decide +kernel, by decide +kernel,
    ⟨d, hmem, habort, h.1 d hmem habort⟩, h.2⟩

end Program

end FrontEnd
