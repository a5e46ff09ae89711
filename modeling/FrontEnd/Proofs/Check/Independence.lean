import FrontEnd.Proofs.Check.Mirrors
import FrontEnd.Proofs.Check.Soundness
import FrontEnd.Proofs.Program.Layers
import Mathlib.Data.List.Pairwise

/-!
# Definitions are checked independently

What is found of a definition does not depend on the definitions around it: its errors, its tree,
whether it was cut short and the types of its parameters and local variables are those of a program
in which it is the only definition (`Program.check_withDefinitions`). So the order of definitions
decides about the order of errors and about nothing else, also where fatal errors cut some of them
short.

Each definition of a program is entered in a state that mirrors the one in which checking starts
(`Walk.Fresh`), since the definitions before it have at most given types to their own local
variables, and those it cannot see.
-/

namespace FrontEnd

open Table

namespace Definition

/-- Two definitions are **apart** if they have different symbols, and the local variables of one are
not among what the other introduces. -/
structure Apart (x y : Definition) : Prop where
  symbol_ne : x.symbol ≠ y.symbol
  owned_left : ∀ i ∈ x.owned, i ∉ y.locals
  owned_right : ∀ i ∈ y.owned, i ∉ x.locals

theorem Apart.symm {x y : Definition} (h : x.Apart y) : y.Apart x :=
  ⟨h.symbol_ne.symm, h.owned_right, h.owned_left⟩

instance : Std.Symm Apart :=
  ⟨fun _ _ ↦ Apart.symm⟩

end Definition

namespace Walk

variable [RootChoice] {v : Walk} {globals : Bindings} {d : Definition} {σ : List Symbol}

/-! ### One definition -/

/-- A definition **alone**: checking starts with it. -/
def alone (σ : List Symbol) (globals : Bindings) (d : Definition) : Definition × Walk :=
  (start σ).definition globals d

/-- The surroundings of a definition that a walk has come to. -/
def surroundings (v : Walk) (globals : Bindings) (d : Definition) : Surroundings where
  seen := { i | i ∈ d.owned ∨ ∃ b ∈ globals, b.2 = i }
  locals := { i | i ∈ d.locals }
  symbols := v.symbols
  findings := v.findings

/-- A walk has come to a definition and is **fresh**: nothing is left of the definitions before, and
the symbols that can be seen are as they were at the start. -/
structure Fresh (σ : List Symbol) (globals : Bindings) (v : Walk) (d : Definition) : Prop where
  scope : v.scope = .empty
  table : v.table = .empty
  waiting : v.waiting = []
  globals : ∀ b ∈ globals, v.symbols[b.2]? = σ[b.2]?
  owned : ∀ i ∈ d.owned, v.symbols[i]? = σ[i]?

/-- **One definition**: from a fresh walk it is checked as it is alone. -/
theorem Fresh.alike (h : Fresh σ globals v d) :
    Same (Mirrors (v.surroundings globals d)) (alone σ globals d) (v.definition globals d) := by
  have hglobals : ∀ b ∈ globals, b.2 ∈ (v.surroundings globals d).seen :=
    fun b hb ↦ .inr ⟨b, hb, rfl⟩
  have hholds : (v.surroundings globals d).Holds d :=
    ⟨.inl d.symbol_mem_owned, fun i hi ↦ .inl (d.params_subset_owned hi),
      fun i hi ↦ ⟨.inl (d.locals_subset_owned hi), hi⟩⟩
  refine alike_definition hglobals hholds ⟨rfl, h.scope, h.table, h.waiting, rfl,
    (List.append_nil _).symm, ?_, fun _ _ ↦ rfl, fun _ hframe ↦ nomatch hframe⟩
  rintro i (hi | ⟨b, hb, rfl⟩)
  · exact h.owned i hi
  · exact h.globals b hb

/-- A definition leaves **everything but its local variables** as it was. -/
theorem symbols_definition_of_not_mem (v : Walk) (globals : Bindings) {i : Nat}
    (hi : i ∉ d.locals) : (v.definition globals d).2.symbols[i]? = v.symbols[i]? := by
  -- the walk mirrors itself where everything can be seen
  let S : Surroundings := ⟨Set.univ, { i | i ∈ d.locals }, v.symbols, v.findings⟩
  have hmirrors : Mirrors S ({ v with findings := [] }.enter d.file) (v.enter d.file) :=
    ⟨rfl, rfl, rfl, rfl, rfl, (List.append_nil _).symm, fun _ _ ↦ rfl, fun _ _ ↦ rfl,
      fun _ _ _ _ ↦ trivial⟩
  have hglobals : ∀ b ∈ globals, b.2 ∈ S.seen := fun _ _ ↦ trivial
  have hholds : S.Holds d := ⟨trivial, fun _ _ ↦ trivial, fun i hi ↦ ⟨trivial, hi⟩⟩
  exact (alike_definition hglobals hholds hmirrors).walk.unseen i hi

/-! ### One behind another -/

theorem map_snd_stages (ds : List Definition) (v : Walk) :
    (v.stages globals ds).map (·.2) = ds := by
  induction ds generalizing v with
  | nil => rfl
  | cons d ds ih => rw [stages, List.map_cons, ih]

/-- What holds of a definition at every stage, in the order of definitions. -/
theorem map_stages {β : Type} {f : Walk × Definition → β} {g : Definition → β}
    {ds : List Definition} (h : ∀ x ∈ v.stages globals ds, f x = g x.2) :
    (v.stages globals ds).map f = ds.map g :=
  calc (v.stages globals ds).map f
    _ = (v.stages globals ds).map (g ∘ (·.2)) := List.map_congr_left h
    _ = ((v.stages globals ds).map (·.2)).map g := List.map_map.symm
    _ = ds.map g := by rw [map_snd_stages]

/-- Those that were cut short, in order. -/
theorem aborted_definitions (ds : List Definition) (v : Walk) : (v.definitions globals ds).2.1 =
    (v.stages globals ds).flatMap fun x ↦
      if (x.1.definition globals x.2).2.halted then [x.2.symbol] else [] := by
  induction ds generalizing v with
  | nil => rfl
  | cons d ds ih =>
    rw [definitions_cons, stages, List.flatMap_cons, ← ih]
    dsimp only
    split <;> rfl

/-- **Every definition is fresh** when a walk comes to it, if the definitions are apart. -/
theorem fresh_of_mem_stages (ds : List Definition) (v : Walk) (hscope : v.scope = .empty)
    (htable : v.table = .empty) (hwaiting : v.waiting = []) (hapart : ds.Pairwise Definition.Apart)
    (hglobals : ∀ b ∈ globals, v.symbols[b.2]? = σ[b.2]?)
    (hlocals : ∀ b ∈ globals, ∀ d ∈ ds, b.2 ∉ d.locals)
    (howned : ∀ d ∈ ds, ∀ i ∈ d.owned, v.symbols[i]? = σ[i]?) {x : Walk × Definition}
    (hx : x ∈ v.stages globals ds) : Fresh σ globals x.1 x.2 := by
  induction ds generalizing v with
  | nil => exact nomatch hx
  | cons d ds ih =>
    obtain ⟨hfirst, hrest⟩ := List.pairwise_cons.1 hapart
    have hd : Fresh σ globals v d :=
      ⟨hscope, htable, hwaiting, hglobals, howned d List.mem_cons_self⟩
    rcases List.mem_cons.1 hx with rfl | hx
    · exact hd
    · have hleave : ∃ w : Walk, (v.definition globals d).2 = w.leave := by
        cases hhalted : ((v.enter d.file).tags d).halted with
        | true => exact ⟨_, congrArg Prod.snd (definition_of_halted hhalted)⟩
        | false => exact ⟨_, congrArg Prod.snd (definition_of_tags hhalted)⟩
      obtain ⟨w, hw⟩ := hleave
      refine ih _ (hw ▸ rfl) (hw ▸ rfl) (hw ▸ rfl) hrest (fun b hb ↦ ?_)
        (fun b hb y hy ↦ hlocals b hb y (List.mem_cons_of_mem _ hy)) (fun y hy i hi ↦ ?_) hx
      · exact (symbols_definition_of_not_mem v globals (hlocals b hb d List.mem_cons_self)).trans
          (hglobals b hb)
      · exact (symbols_definition_of_not_mem v globals ((hfirst y hy).owned_right i hi)).trans
          (howned y (List.mem_cons_of_mem _ hy) i hi)

theorem symbols_definitions_of_not_mem (ds : List Definition) (v : Walk) {i : Nat}
    (hi : ∀ d ∈ ds, i ∉ d.locals) :
    (v.definitions globals ds).2.2.symbols[i]? = v.symbols[i]? := by
  induction ds generalizing v with
  | nil => rfl
  | cons d ds ih =>
    exact (ih _ fun y hy ↦ hi y (List.mem_cons_of_mem _ hy)).trans
      (symbols_definition_of_not_mem v globals (hi d List.mem_cons_self))

/-- What a definition introduces is in the end as it is **behind that definition**. -/
theorem symbols_of_mem_stages (ds : List Definition) (v : Walk)
    (hapart : ds.Pairwise Definition.Apart) {x : Walk × Definition}
    (hx : x ∈ v.stages globals ds) {i : Nat} (hi : i ∈ x.2.owned) :
    (v.definitions globals ds).2.2.symbols[i]? =
      (x.1.definition globals x.2).2.symbols[i]? := by
  induction ds generalizing v with
  | nil => exact nomatch hx
  | cons d ds ih =>
    obtain ⟨hfirst, hrest⟩ := List.pairwise_cons.1 hapart
    rcases List.mem_cons.1 hx with rfl | hx
    · exact symbols_definitions_of_not_mem ds _ fun y hy ↦ (hfirst y hy).owned_left i hi
    · exact ih _ hrest hx

end Walk

namespace Program

/-- The program with other definitions; its files, symbols and global names stay. -/
def withDefinitions (p : Program) (ds : List Definition) : Program :=
  { p with definitions := ds }

theorem Layered.pairwise_apart {p : Program} (h : p.Layered) :
    p.definitions.Pairwise Definition.Apart := by
  refine h.pairwise.imp fun {x y} hxy ↦ ⟨?_, fun i hi hlocal ↦ ?_, fun i hi hlocal ↦ ?_⟩
  · exact Nat.ne_of_lt (hxy _ x.symbol_mem_owned _ y.symbol_mem_owned)
  · exact Nat.lt_irrefl i (hxy i hi i (y.locals_subset_owned hlocal))
  · exact Nat.lt_irrefl i (hxy i (x.locals_subset_owned hlocal) i hi)

theorem layered_ofFiles (name : String) (sources : List SourceFile) :
    (ofFiles name sources).Layered :=
  layered_parseFiles (layered_empty name) sources

section Check

variable [RootChoice]

/-- The state in which checking a program comes to each of its definitions, in any order. -/
theorem Formed.fresh_of_mem_stages {p : Program} (hp : p.Formed) {ds : List Definition}
    (hsub : ds ⊆ p.definitions) (hapart : ds.Pairwise Definition.Apart) {x : Walk × Definition}
    (hx : x ∈ (Walk.start p.symbols).stages p.globals ds) :
    Walk.Fresh p.symbols p.globals x.1 x.2 :=
  Walk.fresh_of_mem_stages ds (Walk.start p.symbols) rfl rfl rfl hapart (fun _ _ ↦ rfl)
    (fun b hb d hd ↦ (hp.globals b hb).2 d (hsub hd)) (fun _ _ _ _ ↦ rfl) hx

section Parts

variable {p : Program} {ds : List Definition} (hp : p.Formed) (hsub : ds ⊆ p.definitions)
  (hapart : ds.Pairwise Definition.Apart)

include hp hsub hapart

/-- **The errors** of each definition are those that it has alone. -/
theorem Formed.findingsEach_withDefinitions : (p.withDefinitions ds).findingsEach =
    ds.map fun d ↦ (p.withDefinitions [d]).check.findings := by
  refine Walk.map_stages fun x hx ↦ ?_
  have hfindings := (hp.fresh_of_mem_stages hsub hapart hx).alike.walk.findings
  exact (congrArg (List.drop x.1.findings.length) hfindings).trans List.drop_left

/-- **The tree** of each definition is the one that it has alone. -/
theorem Formed.definitions_withDefinitions :
    (p.withDefinitions ds).check.program.definitions =
      ds.map fun d ↦ (Walk.alone p.symbols p.globals d).1 :=
  (Walk.definitions_fst ds _).trans
    (Walk.map_stages fun _ hx ↦ (hp.fresh_of_mem_stages hsub hapart hx).alike.result)

/-- **Those that are cut short** are those that are cut short alone. -/
theorem Formed.aborted_withDefinitions : (p.withDefinitions ds).check.aborted =
    ds.flatMap fun d ↦ (p.withDefinitions [d]).check.aborted := by
  refine (Walk.aborted_definitions ds _).trans ?_
  rw [List.flatMap_def, List.flatMap_def]
  refine congrArg List.flatten (Walk.map_stages fun x hx ↦ ?_)
  have hhalted := (hp.fresh_of_mem_stages hsub hapart hx).alike.walk.halted
  exact congrArg (fun halted : Bool ↦ if halted then [x.2.symbol] else []) hhalted

/-- **What a definition introduces** has in the end the type that it has alone. -/
theorem Formed.symbols_withDefinitions {d : Definition} (hd : d ∈ ds) {i : Nat}
    (hi : i ∈ d.owned) : (p.withDefinitions ds).check.program.symbols[i]? =
      (p.withDefinitions [d]).check.program.symbols[i]? := by
  have hmem : d ∈ ((Walk.start p.symbols).stages p.globals ds).map (·.2) := by
    rw [Walk.map_snd_stages]
    exact hd
  obtain ⟨x, hx, rfl⟩ := List.mem_map.1 hmem
  calc (p.withDefinitions ds).check.program.symbols[i]?
    _ = (x.1.definition p.globals x.2).2.symbols[i]? :=
      Walk.symbols_of_mem_stages ds _ hapart hx hi
    _ = (Walk.alone p.symbols p.globals x.2).2.symbols[i]? :=
      (hp.fresh_of_mem_stages hsub hapart hx).alike.walk.seen i (.inl hi)

/-- Only the check of a definition itself cuts it short. -/
theorem Formed.symbol_mem_aborted_iff {d : Definition} (hd : d ∈ ds) :
    d.symbol ∈ (p.withDefinitions ds).check.aborted ↔
      d.symbol ∈ (p.withDefinitions [d]).check.aborted := by
  rw [hp.aborted_withDefinitions hsub hapart, List.mem_flatMap]
  refine ⟨fun ⟨x, hx, hmem⟩ ↦ ?_, fun hmem ↦ ⟨d, hd, hmem⟩⟩
  -- the symbol that is reported is that of the definition
  have hsymbol : d.symbol = x.symbol := by
    have haborted : (p.withDefinitions [x]).check.aborted =
        if (Walk.alone p.symbols p.globals x).2.halted then [x.symbol] else [] := rfl
    rw [haborted] at hmem
    split at hmem
    · exact List.mem_singleton.1 hmem
    · exact nomatch hmem
  have hsame : d = x := by
    by_contra hne
    exact (hapart.forall hd hx hne).symbol_ne hsymbol
  exact hsame ▸ hmem

end Parts

end Check

/-- **Independence**. However the definitions of a program are ordered, each is found to be what it
is found to be alone: its errors, its tree, whether it is cut short, and the types of its parameters
and local variables. All errors are those of the definitions, one behind another, so another order
of definitions only puts them into another order. -/
theorem check_withDefinitions [RootChoice] (name : String) (sources : List SourceFile)
    {ds : List Definition} (h : ds.Perm (ofFiles name sources).definitions) :
    let p := ofFiles name sources
    let r := (p.withDefinitions ds).check
    let alone := fun d ↦ (p.withDefinitions [d]).check
    (p.withDefinitions ds).findingsEach = ds.map (fun d ↦ (alone d).findings) ∧
      r.findings = ds.flatMap (fun d ↦ (alone d).findings) ∧
      (p.withDefinitions ds).findingsEach.Perm p.findingsEach ∧
      List.Forall₂ (fun d x ↦ (alone d).program.definitions = [x]) ds r.program.definitions ∧
      r.aborted = ds.flatMap (fun d ↦ (alone d).aborted) ∧
      ∀ d ∈ ds, (d.symbol ∈ r.aborted ↔ d.symbol ∈ (alone d).aborted) ∧
        ∀ i ∈ d.params ++ d.locals, r.program.symbols[i]? = (alone d).program.symbols[i]? := by
  intro p r alone
  have hp : p.Formed := formed_ofFiles name sources
  have hall : p.definitions.Pairwise Definition.Apart :=
    (layered_ofFiles name sources).pairwise_apart
  have hapart : ds.Pairwise Definition.Apart :=
    (h.pairwise_iff fun {x y} ↦ Definition.Apart.symm).2 hall
  have heach := hp.findingsEach_withDefinitions h.subset hapart
  refine ⟨heach, ?_, ?_, ?_, hp.aborted_withDefinitions h.subset hapart, fun d hd ↦ ⟨?_, ?_⟩⟩
  · have hfindings : r.findings = (p.withDefinitions ds).findingsEach.flatten :=
      Walk.findings_definitions ds _ (L := Set.univ) fun _ _ _ _ _ _ ↦ trivial
    rw [hfindings, heach, List.flatMap_def]
  · have heach' := hp.findingsEach_withDefinitions (List.Subset.refl _) hall
    rw [heach]
    exact (h.map _).trans (.of_eq heach'.symm)
  · rw [hp.definitions_withDefinitions h.subset hapart]
    exact List.forall₂_map_right_iff.2 (List.forall₂_same.2 fun d _ ↦ rfl)
  · exact hp.symbol_mem_aborted_iff h.subset hapart hd
  · exact fun i hi ↦ hp.symbols_withDefinitions h.subset hapart hd (List.mem_cons_of_mem _ hi)

/-- Three definitions from the last to the first: one is complete, one is cut short for want of a
label, and one behind another error. -/
theorem check_withDefinitions_reverse :
    let p := ofFiles "main" [⟨"a.berry", "func f(x: i64) { let y = x; -true; null; let z = y; }"⟩,
      ⟨"b.berry", "let g = 1;\nfunc h(q: *i64) { let s = *q + 1; f(s); }"⟩]
    let ds := p.definitions.reverse
    let r := (p.withDefinitions ds).check
    ds.length = 3 ∧ r.aborted.length = 2 ∧
      (p.withDefinitions ds).findingsEach.map List.length = [0, 1, 2] ∧
      p.findingsEach.map List.length = [2, 1, 0] ∧
      r.findings = ds.flatMap fun d ↦ (p.withDefinitions [d]).check.findings := by
  intro p ds r
  have h := check_withDefinitions "main" [⟨"a.berry",
      "func f(x: i64) { let y = x; -true; null; let z = y; }"⟩,
    ⟨"b.berry", "let g = 1;\nfunc h(q: *i64) { let s = *q + 1; f(s); }"⟩]
    (List.reverse_perm p.definitions)
  exact ⟨by decide +kernel, by decide +kernel, by decide +kernel, by decide +kernel, h.2.1⟩

end Program

end FrontEnd
