import FrontEnd.Proofs.Check.Accounting
import FrontEnd.Proofs.Check.Scopes
import FrontEnd.Proofs.Program.Globals

/-!
# Names are lexical

A name in a statement means the local variable that was declared before, or else the parameter, or
else the global of that name (`Program.meaning?`). A variable is declared behind its initial value,
which therefore does not see it. In the initial value of a global there are no frames, and a name
means a global.

What comes of the names of a function (`Walk.Scoped`) also says when a name is reported to be taken:
if parameters have one name, or if variables have one and nothing else puts an end to the function
before the second of them is declared (`Walk.exists_repeatedName_iff`).
-/

namespace FrontEnd

/-- **What a name means** in a statement of a function: the last local variable of that name that is
declared before, or else the parameter, or else the global. -/
def Program.meaning? (p : Program) (d : Definition) (i : Nat) (name : String) : Option Nat :=
  ((Symbol.lastNamed? p.symbols (Stmt.locals (d.stmts.take i)) name).or
    (Symbol.lastNamed? p.symbols d.params name)).or (p.globals.find? name)

/-- Without frames, a name means a global. -/
theorem Scope.lookup_empty (globals : Bindings) (name : String) :
    Scope.empty.lookup globals name = globals.find? name :=
  Option.none_or

theorem CheckError.isFatal_of_isRepeatedName {e : CheckError} (h : e.isRepeatedName = true) :
    e.isFatal = true := by
  cases e with
  | repeatedName name span => rfl
  | _ => cases h

namespace Walk

open Table

variable {σ : List Symbol} {params : List Nat} {ss : List Stmt} {w v : Walk}

/-! ### Looking up -/

/-- The innermost frame comes first. -/
theorem Binds.lookup {locals : List Nat} (h : v.Binds σ [locals, params]) (globals : Bindings)
    (name : String) : v.scope.lookup globals name =
      ((Symbol.lastNamed? σ locals name).or (Symbol.lastNamed? σ params name)).or
        (globals.find? name) := by
  rw [Scope.lookup, h.frames_eq, List.map_cons, List.map_singleton, List.findSome?_cons,
    List.findSome?_singleton, Bindings.find?_ofSymbols, Bindings.find?_ofSymbols]
  cases Symbol.lastNamed? σ locals name <;> rfl

/-! ### Reports -/

theorem Quiet.not_repeatedName (h : Quiet w v) :
    ¬ ∃ f ∈ v.findings.drop w.findings.length, f.error.isRepeatedName = true := by
  obtain ⟨fs, hv, hfs⟩ := h
  rw [hv, List.drop_left]
  rintro ⟨f, hf, hrepeated⟩
  cases (hfs f hf).symm.trans hrepeated

theorem Reports.exists_finding {i : Nat} (h : Reports σ w v i) :
    ∃ s fs, σ[i]? = some s ∧ (∀ f ∈ fs, f.error.isRepeatedName = false) ∧
      v.findings.drop w.findings.length = fs ++ [⟨w.file, .repeatedName s.name s.span⟩] := by
  obtain ⟨-, fs, s, hfs, hs, hv⟩ := h
  exact ⟨s, fs, hs, hfs, by rw [hv, List.drop_left]⟩

theorem Reports.repeatedName {i : Nat} (h : Reports σ w v i) :
    ∃ f ∈ v.findings.drop w.findings.length, f.error.isRepeatedName = true := by
  obtain ⟨s, fs, -, -, hdrop⟩ := h.exists_finding
  rw [hdrop]
  exact ⟨_, List.mem_append_right _ (List.mem_singleton.2 rfl), rfl⟩

/-- A name that is taken is **reported where it occurs again for the first time**. -/
theorem Scoped.eq_of_repeatedName {locals : List Nat} (h : Scoped σ params locals w v)
    {f : Finding} (hf : f ∈ v.findings.drop w.findings.length)
    (hrepeated : f.error.isRepeatedName = true) :
    ∃ i s, σ[i]? = some s ∧ f = ⟨w.file, .repeatedName s.name s.span⟩ ∧
      (Symbol.FirstRepeat σ params i ∨
        Symbol.Distinct σ params ∧ Symbol.FirstRepeat σ locals i) := by
  have hreported : ∀ i, Reports σ w v i → ∃ s, σ[i]? = some s ∧
      f = ⟨w.file, .repeatedName s.name s.span⟩ := by
    intro i hreports
    obtain ⟨s, fs, hs, hfs, hdrop⟩ := hreports.exists_finding
    rw [hdrop] at hf
    rcases List.mem_append.1 hf with hf | hf
    · cases (hfs f hf).symm.trans hrepeated
    · exact ⟨s, hs, List.mem_singleton.1 hf⟩
  cases h with
  | all _ quiet => exact absurd ⟨f, hf, hrepeated⟩ quiet.not_repeatedName
  | repeatedParam first reports =>
    obtain ⟨s, hs, heq⟩ := hreported _ reports
    exact ⟨_, s, hs, heq, .inl first⟩
  | repeatedLocal distinct first reports =>
    obtain ⟨s, hs, heq⟩ := hreported _ reports
    exact ⟨_, s, hs, heq, .inr ⟨distinct, first⟩⟩
  | stopped _ _ quiet => exact absurd ⟨f, hf, hrepeated⟩ quiet.not_repeatedName

/-- The statement that declares a local variable. -/
theorem exists_letVar_of_locals {before after : List Nat} {i : Nat}
    (h : Stmt.locals ss = before ++ i :: after) : ∃ pre u post,
      ss = pre ++ .letVar u :: post ∧ Stmt.locals pre = before ∧ u.symbol = i := by
  obtain ⟨pre, rest, rfl, hpre, hrest⟩ := List.filterMap_eq_append_iff.1 h
  obtain ⟨others, s, post, rfl, hothers, hs, -⟩ := List.filterMap_eq_cons_iff.1 hrest
  obtain ⟨u, hu, hi⟩ := Option.map_eq_some_iff.1 hs
  cases s with
  | expr e => cases hu
  | letVar u' =>
    refine ⟨pre ++ others, u', post, (List.append_assoc ..).symm, ?_, ?_⟩
    · rw [Stmt.locals_append, Stmt.locals, Stmt.locals, hpre,
        List.filterMap_eq_nil_iff.2 hothers, List.append_nil]
    · rw [Option.some.inj hu, hi]

/-- The one fatal error of a definition that was halted may be that a name is taken. -/
theorem Accounts.exists_repeatedName_iff {fs : List Finding} (h : Accounts true fs) :
    (∃ f ∈ fs, f.error.isRepeatedName = true) ↔
      ∀ f ∈ fs, f.error.isFatal = true → f.error.isRepeatedName = true := by
  constructor
  · rintro ⟨g, hg, hrepeated⟩ f hf hfatal
    rwa [h.eq_of_isFatal hf hg hfatal (CheckError.isFatal_of_isRepeatedName hrepeated)]
  · intro hall
    obtain ⟨-, f, hlast, hfatal⟩ := h.countP_isFatal
    have hf := List.mem_of_getLast? hlast
    exact ⟨f, hf, hall f hf hfatal⟩

section Agreement

variable [RootChoice] {globals : Bindings}

/-! ### Statements one behind another -/

theorem stmts_append (ss ss' : List Stmt) (w : Walk) : (w.stmts globals (ss ++ ss')).2 =
    ((w.stmts globals ss).2.stmts globals ss').2 := by
  induction ss generalizing w with
  | nil => rfl
  | cons s ss ih => exact ih _

theorem getElem?_stmts (ss : List Stmt) (w : Walk) (i : Nat) : (w.stmts globals ss).1[i]? =
    ss[i]?.map fun s ↦ ((w.stmts globals (ss.take i)).2.stmt globals s).1 := by
  induction ss generalizing w i with
  | nil => rfl
  | cons s ss ih =>
    cases i with
    | zero => rfl
    | succ i => exact ih _ i

/-- The expression of a statement that was not halted is its value behind the checkpoint. -/
theorem exists_value_of_stmt {s : Stmt} {e : Expr} (hrun : (w.stmt globals s).2.halted = false)
    (he : s.expr? = some e) : ∃ y : Value, y.walk = w ∧ y.expr = e ∧
      (w.stmt globals s).1.expr? = some (y.passed globals).1 ∧
      (y.passed globals).2.halted = false := by
  cases s with
  | expr e' =>
    obtain rfl := Option.some.inj he
    exact ⟨⟨w, none, e'⟩, rfl, rfl, rfl, hrun⟩
  | letVar u =>
    have hinit : u.init? = some e := he
    have hw : w.halted = false := running_of_stays (fun hw ↦ by rw [stmt_of_halted hw]) hrun
    refine ⟨⟨w, w.symbolType? u.symbol, e⟩, rfl, rfl, ?_⟩
    have hrun' : (w.letVar globals u).2.halted = false := hrun
    show (w.letVar globals u).1.init? = _ ∧ _
    rw [letVar, if_neg (by simp [hw]), hinit] at hrun' ⊢
    cases hlabel : w.symbolType? u.symbol with
    | some label =>
      rw [hlabel] at hrun'
      exact ⟨rfl, running_of_declare hrun'⟩
    | none =>
      rw [hlabel] at hrun'
      exact ⟨rfl, running_of_adopt (running_of_declare hrun')⟩

/-- The errors of a function, up to a statement. -/
theorem accounts_stmts (globals : Bindings) (params : List Nat) (ss : List Stmt)
    (hw : w.halted = false) :
    Accounts ((w.inBody params).stmts globals ss).2.halted
      (((w.inBody params).stmts globals ss).2.findings.drop w.findings.length) := by
  have hmoves := (moves_inBody w params).trans (moves_stmts globals ss (waitsIn_all _) fun _ _ ↦
    Sources.suppliesStmt_all fun _ _ _ ↦ trivial)
  obtain ⟨fs, hfs, haccounts⟩ := hmoves.accounts hw
  rwa [hfs, List.drop_left]

section Function

variable (hw : w.Binds σ []) (hrun : w.halted = false) (hparams : ∀ i ∈ params, i < σ.length)
  (hss : ∀ i ∈ Stmt.locals ss, i < σ.length)

include hw hrun hparams hss

/-- **The names in the statements of a function** that was not halted. -/
theorem names_stmts (hend : ((w.inBody params).stmts globals ss).2.halted = false) {i : Nat}
    {s : Stmt} {e : Expr} (hs : ss[i]? = some s) (he : s.expr? = some e) :
    ∃ s' e', ((w.inBody params).stmts globals ss).1[i]? = some s' ∧ s'.expr? = some e' ∧
      e'.names = e.names.map (fun x ↦ (x.1,
        ((Symbol.lastNamed? σ (Stmt.locals (ss.take i)) x.1).or
          (Symbol.lastNamed? σ params x.1)).or (globals.find? x.1))) ∧
      ∀ x ∈ e'.names, x.2.isSome = true := by
  -- the statements are cut where the names are looked up: in front of the one they stand in
  let v := ((w.inBody params).stmts globals (ss.take i)).2
  have hsplit : ss = ss.take i ++ s :: ss.drop (i + 1) := by
    obtain ⟨hi, rfl⟩ := List.getElem?_eq_some_iff.1 hs
    rw [List.getElem_cons_drop, List.take_append_drop]
  have hbehind : (v.stmt globals s).2.halted = false := by
    rw [hsplit, stmts_append, stmts_cons] at hend
    exact running_of_stmts hend
  have hv : v.halted = false := running_of_stays (fun hw ↦ by rw [stmt_of_halted hw]) hbehind
  have hbinds : v.Binds σ [Stmt.locals (ss.take i), params] := by
    refine (scoped_stmts globals hw hrun hparams fun j hj ↦ hss j ?_).binds_of_running hv
    rw [hsplit, Stmt.locals_append]
    exact List.mem_append_left _ hj
  obtain ⟨y, hwalk, rfl, hexpr, hpassed⟩ := exists_value_of_stmt hbehind he
  have hnamed := y.named globals
  rw [hpassed, hwalk] at hnamed
  obtain ⟨hnames, hfound⟩ := hnamed.eq_map
  refine ⟨_, _, ?_, hexpr, ?_, hfound⟩
  · rw [getElem?_stmts, hs]
    rfl
  · rw [hnames]
    exact List.map_congr_left fun x _ ↦ by rw [hbinds.lookup]

/-- **A second variable of a name** ends the function, and the name is reported unless the function
has come to its end before. -/
theorem repeatedName_iff_of_taken {pre post : List Stmt} {u : Variable}
    (hsplit : ss = pre ++ .letVar u :: post) (htaken : Symbol.Taken σ (Stmt.locals pre) u.symbol) :
    (∃ f ∈ ((w.inBody params).stmts globals ss).2.findings.drop w.findings.length,
      f.error.isRepeatedName = true) ↔
    ∀ f ∈ ((w.inBody params).stmts globals (pre ++ [.letVar u])).2.findings.drop
      w.findings.length, f.error.isFatal = true → f.error.isRepeatedName = true := by
  subst hsplit
  rw [List.append_cons] at hss ⊢
  have hpre : ∀ i ∈ Stmt.locals (pre ++ [.letVar u]), i < σ.length := by
    intro i hi
    rw [Stmt.locals_append] at hss
    exact hss i (List.mem_append_left _ hi)
  have hhalted : ((w.inBody params).stmts globals (pre ++ [.letVar u])).2.halted = true := by
    by_contra hrunning
    -- both variables would have been bound in one frame
    have hbinds := (scoped_stmts globals hw hrun hparams hpre).binds_of_running
      (Bool.eq_false_of_not_eq_true hrunning)
    have hdistinct := hbinds.distinct _ List.mem_cons_self
    rw [Stmt.locals_append] at hdistinct
    exact (Symbol.distinct_concat.1 hdistinct).2 htaken
  have haccounts := accounts_stmts globals params (pre ++ [.letVar u]) hrun
  rw [hhalted] at haccounts
  rw [stmts_append, stmts_of_halted hhalted, haccounts.exists_repeatedName_iff]

/-- **When a name is reported to be taken.** -/
theorem exists_repeatedName_iff :
    (∃ f ∈ ((w.inBody params).stmts globals ss).2.findings.drop w.findings.length,
      f.error.isRepeatedName = true) ↔
    ¬ Symbol.Distinct σ params ∨ ∃ pre u post, ss = pre ++ .letVar u :: post ∧
      Symbol.Taken σ (Stmt.locals pre) u.symbol ∧
      ∀ f ∈ ((w.inBody params).stmts globals (pre ++ [.letVar u])).2.findings.drop
        w.findings.length, f.error.isFatal = true → f.error.isRepeatedName = true := by
  have hscoped := scoped_stmts globals hw hrun hparams hss
  constructor
  · intro hrepeated
    cases hscoped with
    | all _ quiet => exact absurd hrepeated quiet.not_repeatedName
    | repeatedParam first => exact .inl first.not_distinct
    | repeatedLocal _ first =>
      obtain ⟨before, after, hlocals, -, htaken⟩ := first
      obtain ⟨pre, u, post, hsplit, rfl, rfl⟩ := exists_letVar_of_locals hlocals
      exact .inr ⟨pre, u, post, hsplit, htaken,
        (repeatedName_iff_of_taken hw hrun hparams hss hsplit htaken).1 hrepeated⟩
    | stopped _ _ quiet => exact absurd hrepeated quiet.not_repeatedName
  · rintro (hrepeats | ⟨pre, u, post, hsplit, htaken, hfatal⟩)
    · cases hscoped with
      | all _ _ binds =>
        exact absurd (binds.distinct _ (.tail _ List.mem_cons_self)) hrepeats
      | repeatedParam _ reports => exact reports.repeatedName
      | repeatedLocal distinct => exact absurd distinct hrepeats
      | stopped distinct => exact absurd distinct hrepeats
    · exact (repeatedName_iff_of_taken hw hrun hparams hss hsplit htaken).2 hfatal

end Function

/-! ### Definitions -/

omit [RootChoice] in
theorem findings_pop (w : Walk) : w.pop.findings = w.findings := by
  rw [pop, andThen]
  split <;> rfl

omit [RootChoice] in
theorem pop_push (w : Walk) : w.push.pop = w := by
  rw [push, andThen]
  split
  · exact if_pos (by assumption)
  · exact if_neg (by assumption)

omit [RootChoice] in
/-- Two frames have been opened, and both are closed. -/
theorem Binds.scope_pop_pop {locals : List Nat} (h : v.Binds σ [locals, params])
    (hrun : v.halted = false) : v.pop.pop.scope = .empty := by
  have hpop : ∀ x : Walk, x.halted = false → x.pop.scope = x.scope.pop := by
    intro x hx
    rw [pop, andThen, if_neg (by simp [hx])]
  rw [hpop _ (by rwa [halted_pop]), hpop _ hrun, Scope.pop, Scope.pop, h.frames_eq]
  rfl

/-- **The end of a function**: both of its frames are closed behind the statements. -/
theorem content_eq_pop_pop (w : Walk) (globals : Bindings) {d : Definition} {symbol : Nat}
    {result : Ty} {body? : Option Block}
    (hcontent : d.content = .function symbol params result body?) :
    (w.content globals d.content).2 =
      ((w.inBody params).stmts globals d.stmts).2.pop.pop := by
  rw [Definition.stmts, hcontent, content_function]
  cases body? with
  | none => exact congrArg pop (pop_push _).symm
  | some b => rfl

theorem scope_definition (w : Walk) (globals : Bindings) (d : Definition) :
    (w.definition globals d).2.scope = .empty := by
  cases h : ((w.enter d.file).tags d).halted with
  | true => rw [definition_of_halted h]; rfl
  | false => rw [definition_of_tags h]; rfl

/-- No definition starts with a frame. -/
theorem scope_of_mem_stages (ds : List Definition) (w : Walk) (hw : w.scope = .empty)
    {x : Walk × Definition} (hx : x ∈ w.stages globals ds) : x.1.scope = .empty := by
  induction ds generalizing w with
  | nil => cases hx
  | cons d ds ih =>
    rcases List.mem_cons.1 hx with rfl | hx
    · exact hw
    · exact ih _ (scope_definition w globals d) hx

theorem keeps_global (w : Walk) (globals : Bindings) (u : Variable) :
    Keeps w (w.global globals u).2 := by
  rw [global]
  split
  · exact .refl w
  · split
    · exact .record w rfl
    · exact (turns_labelled globals w.waitsIn_all (Sources.supplies_all _) _).keeps
    · exact .refl w

/-- **The names in the initial value of a global variable** are looked up in the scope in which
checking it starts. -/
theorem named_global (globals : Bindings) (hw : w.halted = false) {u : Variable} {e : Expr}
    (hinit : u.init? = some e) : ∃ e', (w.global globals u).1.init? = some e' ∧
      NamedAll w.scope globals (w.global globals u).2.halted e.names e'.names := by
  rw [global, if_neg (by simp [hw]), hinit]
  cases w.symbolType? u.symbol with
  | none =>
    refine ⟨e, hinit, ?_⟩
    rw [show (w.record _).halted = true from halted_record w rfl]
    exact .of_halted ..
  | some label => exact ⟨_, rfl, Value.named ⟨w, some label, e⟩ globals⟩

end Agreement

end Walk

/-! ### Programs -/

namespace Program

section Check

variable [Table.RootChoice]

/-- **Names are lexical** in a definition `d` of a program, which is checked from the state `w` on
and comes out as `r`. -/
structure Lexical (p : Program) (w : Walk) (d : Definition) (r : Definition × Walk) : Prop where
  /-- No frame is left behind the definition, whether it was halted or not. -/
  closed : r.2.scope = .empty
  /-- If it was not halted, all frames that were opened have been closed. -/
  balanced : d.metadata.error? d.tagged = none → r.2.halted = false →
    ((w.enter d.file).content p.globals d.content).2.scope = .empty
  /-- Then parameters have different names, and so do local variables. -/
  distinct : r.2.halted = false →
    Symbol.Distinct p.symbols d.params ∧ Symbol.Distinct p.symbols d.locals
  /-- And every name in a statement has been found to mean what it means there. -/
  resolved : r.2.halted = false → ∀ (i : Nat) (s : Stmt) (e : Expr), d.stmts[i]? = some s →
    s.expr? = some e → ∃ (s' : Stmt) (e' : Expr), r.1.stmts[i]? = some s' ∧ s'.expr? = some e' ∧
      e'.names = e.names.map (fun x ↦ (x.1, p.meaning? d i x.1)) ∧
      ∀ x ∈ e'.names, x.2.isSome = true
  /-- A name is reported to be taken if parameters have one name, or if local variables have one and
  there is no other fatal error before the second of them is declared. -/
  repeatedName_iff : d.metadata.error? d.tagged = none →
    ((∃ f ∈ r.2.findings.drop w.findings.length, f.error.isRepeatedName = true) ↔
      ¬ Symbol.Distinct p.symbols d.params ∨
      ∃ pre u post, d.stmts = pre ++ .letVar u :: post ∧
        Symbol.Taken p.symbols (Stmt.locals pre) u.symbol ∧
        ∀ f ∈ (((w.enter d.file).inBody d.params).stmts p.globals
          (pre ++ [.letVar u])).2.findings.drop w.findings.length,
          f.error.isFatal = true → f.error.isRepeatedName = true)
  /-- It is reported where it occurs again for the first time. -/
  firstRepeat : ∀ f ∈ r.2.findings.drop w.findings.length, f.error.isRepeatedName = true →
    ∃ i s, p.symbols[i]? = some s ∧ f = ⟨d.file, .repeatedName s.name s.span⟩ ∧
      (Symbol.FirstRepeat p.symbols d.params i ∨
        Symbol.Distinct p.symbols d.params ∧ Symbol.FirstRepeat p.symbols d.locals i)
  /-- A name in the initial value of a global has been found to mean a global, or else it means
  nothing and the definition was halted. -/
  global : ∀ u e, d.content = .global u → u.init? = some e →
    ∃ u' e', r.1.content = .global u' ∧ u'.init? = some e' ∧
      e'.names.map (·.1) = e.names.map (·.1) ∧
      ∀ x ∈ e'.names, x.2.isSome = true ∧ x.2 = p.globals.find? x.1 ∨
        r.2.halted = true ∧ x.2 = none

variable {p : Program} {w : Walk} {d : Definition}

/-- If its tags are wrong, nothing is looked up in a definition. -/
theorem lexical_of_error? {error : TagError} {span : Span}
    (htags : d.metadata.error? d.tagged = some (error, span))
    (hunresolved : ∀ e ∈ d.exprs, e.Unresolved) :
    p.Lexical w d (w.definition p.globals d) := by
  obtain ⟨hhalted, hfindings⟩ := Walk.findings_of_error? p.globals w htags
  refine ⟨Walk.scope_definition w p.globals d, fun hnone ↦ ?_, fun hrun ↦ ?_, fun hrun ↦ ?_,
    fun hnone ↦ ?_, fun f hf hrepeated ↦ ?_, fun u e hcontent hinit ↦ ?_⟩
  · cases htags.symm.trans hnone
  · cases hhalted.symm.trans hrun
  · cases hhalted.symm.trans hrun
  · cases htags.symm.trans hnone
  · rw [hfindings, List.drop_left] at hf
    obtain rfl := List.mem_singleton.1 hf
    cases hrepeated
  · have hsame : (w.definition p.globals d).1 = d := by
      rw [Walk.definition_of_error? p.globals w htags]
    rw [hsame, hhalted]
    have he : e ∈ d.exprs := by
      rw [Definition.exprs, hcontent]
      exact Option.mem_toList.2 hinit
    exact ⟨u, e, hcontent, hinit, rfl, fun x hx ↦ .inr ⟨rfl, (hunresolved e he).snd_eq_none x hx⟩⟩

/-- **A function.** -/
theorem lexical_function (hscope : w.scope = .empty)
    (hplaces : w.symbols.map Symbol.place = p.symbols.map Symbol.place)
    (hparams : ∀ i ∈ d.params, i < p.symbols.length)
    (hlocals : ∀ i ∈ d.locals, i < p.symbols.length)
    (htags : d.metadata.error? d.tagged = none) {symbol : Nat} {params : List Nat} {result : Ty}
    {body? : Option Block} (hcontent : d.content = .function symbol params result body?) :
    p.Lexical w d (w.definition p.globals d) := by
  let v := (((w.enter d.file).inBody params).stmts p.globals d.stmts).2
  have hend : (w.definition p.globals d).2 = v.pop.pop.leave := by
    rw [Walk.definition_of_no_error? p.globals w htags,
      Walk.content_eq_pop_pop (w.enter d.file) p.globals hcontent]
  -- to close the frames reports nothing, so all there is to know is known behind the statements
  have hfindings : (w.definition p.globals d).2.findings = v.findings := by
    rw [hend]
    exact (Walk.findings_pop _).trans (Walk.findings_pop _)
  have hhalted : (w.definition p.globals d).2.halted = v.halted := by
    rw [hend]
    exact (Walk.halted_pop _).trans (Walk.halted_pop _)
  have hdparams : d.params = params := by rw [Definition.params, hcontent]
  have hdlocals : d.locals = Stmt.locals d.stmts := d.locals_eq
  have hbinds : (w.enter d.file).Binds p.symbols [] :=
    ⟨hplaces, congrArg Scope.frames hscope, List.forall_mem_nil _⟩
  rw [hdparams] at hparams
  rw [hdlocals] at hlocals
  have hscoped : Walk.Scoped p.symbols params (Stmt.locals d.stmts) (w.enter d.file) v :=
    Walk.scoped_stmts p.globals hbinds rfl hparams hlocals
  refine ⟨Walk.scope_definition w p.globals d, fun _ hrun ↦ ?_, fun hrun ↦ ?_,
    fun hrun i s e hs he ↦ ?_, fun _ ↦ ?_, fun f hf hrepeated ↦ ?_, fun u e hglobal _ ↦ ?_⟩
  · rw [Walk.content_eq_pop_pop (w.enter d.file) p.globals hcontent]
    rw [hhalted] at hrun
    exact (hscoped.binds_of_running hrun).scope_pop_pop hrun
  · have hdistinct := (hscoped.binds_of_running (hhalted ▸ hrun)).distinct
    rw [hdparams, hdlocals]
    exact ⟨hdistinct _ (.tail _ List.mem_cons_self), hdistinct _ List.mem_cons_self⟩
  · rw [Walk.stmts_definition htags hcontent]
    simp only [meaning?, hdparams]
    exact Walk.names_stmts hbinds rfl hparams hlocals (hhalted ▸ hrun) hs he
  · rw [hfindings, hdparams]
    exact Walk.exists_repeatedName_iff hbinds rfl hparams hlocals
  · rw [hfindings] at hf
    rw [hdparams, hdlocals]
    exact hscoped.eq_of_repeatedName hf hrepeated
  · cases hcontent.symm.trans hglobal

/-- **A global variable.** -/
theorem lexical_global (hscope : w.scope = .empty)
    (htags : d.metadata.error? d.tagged = none) (hunresolved : ∀ e ∈ d.exprs, e.Unresolved)
    {u : Variable} (hcontent : d.content = .global u) :
    p.Lexical w d (w.definition p.globals d) := by
  have hkeeps := Walk.keeps_global (w.enter d.file) p.globals u
  have hend : (w.definition p.globals d).2 = ((w.enter d.file).global p.globals u).2.leave := by
    rw [Walk.definition_of_no_error? p.globals w htags, hcontent]
    rfl
  have hquiet : ¬ ∃ f ∈ (w.definition p.globals d).2.findings.drop w.findings.length,
      f.error.isRepeatedName = true := by
    rw [hend]
    exact hkeeps.quiet.not_repeatedName
  have hdparams : d.params = [] := by rw [Definition.params, hcontent]
  have hdstmts : d.stmts = [] := by rw [Definition.stmts, hcontent]
  have hdlocals : d.locals = [] := by rw [Definition.locals_eq, hdstmts]; rfl
  refine ⟨Walk.scope_definition w p.globals d, fun _ _ ↦ ?_, fun _ ↦ ?_, fun _ i s e hs ↦ ?_,
    fun _ ↦ ⟨fun hrepeated ↦ absurd hrepeated hquiet, ?_⟩,
    fun f hf hrepeated ↦ absurd ⟨f, hf, hrepeated⟩ hquiet, fun u' e hglobal hinit ↦ ?_⟩
  · rw [hcontent]
    exact hkeeps.scope_eq.trans hscope
  · rw [hdparams, hdlocals]
    exact ⟨Symbol.distinct_nil _, Symbol.distinct_nil _⟩
  · rw [hdstmts] at hs
    cases hs
  · rw [hdparams, hdstmts]
    rintro (hrepeats | ⟨pre, v, post, hsplit, -⟩)
    · exact absurd (Symbol.distinct_nil _) hrepeats
    · simp at hsplit
  · obtain rfl := Definition.Content.global.inj (hcontent.symm.trans hglobal)
    have he : e ∈ d.exprs := by
      rw [Definition.exprs, hcontent]
      exact Option.mem_toList.2 hinit
    obtain ⟨e', hinit', hnamed⟩ := Walk.named_global (w := w.enter d.file) p.globals rfl hinit
    have hscope' : (w.enter d.file).scope = .empty := hscope
    rw [hscope'] at hnamed
    obtain ⟨hnames, hfound⟩ := hnamed.found_or_none (hunresolved e he).snd_eq_none
    refine ⟨_, e', ?_, hinit', hnames, fun x hx ↦ ?_⟩
    · rw [Walk.definition_of_no_error? p.globals w htags, hcontent]
      rfl
    · rw [hend, ← Scope.lookup_empty]
      exact hfound x hx

/-- **Name resolution is lexical** in every definition of a program that is read from files. A name
in a statement of a function that is not halted means the local variable of that name which is
declared by a statement before, or else the parameter, or else the global; one in the initial value
of a global means a global. If the tags of a definition are right, a name is reported to be taken
exactly if parameters have one name, or local variables have one and nothing fatal comes before the
second of them, and it is reported where a name occurs again for the first time. No definition
leaves a frame behind. -/
theorem names_are_lexical (name : String) (sources : List SourceFile) :
    let p := ofFiles name sources
    ∀ w d, (w, d) ∈ (Walk.start p.symbols).stages p.globals p.definitions →
      p.Lexical w d (w.definition p.globals d) := by
  intro p w d hx
  obtain ⟨htraces, -⟩ := (traces_empty name).parseFiles sources
  have htable : p.Tabulates _ := htraces.tabulates
  obtain ⟨hmem, -, hplaces⟩ := (Walk.places_of_stages p.globals p.definitions
    (Walk.start p.symbols) rfl rfl (located_ofFiles name sources).1.placed).1 _ hx
  have hscope : w.scope = .empty := Walk.scope_of_mem_stages p.definitions _ rfl hx
  have howned := htable.symbol_lt d hmem
  have hunresolved := htable.unresolved d hmem
  cases htags : d.metadata.error? d.tagged with
  | some r => exact lexical_of_error? htags hunresolved
  | none =>
    cases hcontent : d.content with
    | function symbol params result body? =>
      exact lexical_function hscope hplaces.symm
        (fun i hi ↦ howned i (d.params_subset_owned hi))
        (fun i hi ↦ howned i (d.locals_subset_owned hi)) htags hcontent
    | global u => exact lexical_global hscope htags hunresolved hcontent

end Check

/-- The initial value of `x` means the parameter, and what comes behind it the variable. In the
other function a parameter has the name of the one before it. -/
theorem names_are_lexical_shadowed :
    let p := ofFiles "main" [⟨"test.berry",
      "let z: i64 = 1; func f(x: i64) { let x = x + z; x; } func g(a: i64, a: i64) {}"⟩]
    (∃ x ∈ (Walk.start p.symbols).stages p.globals p.definitions,
      ∃ s s' e e', (x.1.definition p.globals x.2).1.stmts[0]? = some s ∧ s.expr? = some e ∧
        (x.1.definition p.globals x.2).1.stmts[1]? = some s' ∧ s'.expr? = some e' ∧
        e.names = [("x", some 1), ("z", some 0)] ∧ e'.names = [("x", some 2)]) ∧
    ∃ y ∈ (Walk.start p.symbols).stages p.globals p.definitions,
      ∃ f ∈ (y.1.definition p.globals y.2).2.findings.drop y.1.findings.length,
        f.error.isRepeatedName = true := by
  intro p
  have hshadowed : ∃ x ∈ (Walk.start p.symbols).stages p.globals p.definitions,
      (x.1.definition p.globals x.2).2.halted = false ∧
      (x.2.stmts[0]?.bind Stmt.expr?).map Expr.names = some [("x", none), ("z", none)] ∧
      (x.2.stmts[1]?.bind Stmt.expr?).map Expr.names = some [("x", none)] ∧
      ["x", "z"].map (p.meaning? x.2 0) = [some 1, some 0] ∧
      p.meaning? x.2 1 "x" = some 2 := by
    decide +kernel
  have hrepeated : ∃ y ∈ (Walk.start p.symbols).stages p.globals p.definitions,
      (y.2.metadata.error? y.2.tagged).isNone = true ∧
      ¬ (y.2.params.map (Symbol.nameAt? p.symbols)).Nodup := by
    decide +kernel
  refine ⟨?_, ?_⟩
  · obtain ⟨x, hx, hrun, hfirst, hsecond, hmeaning, hmeaning'⟩ := hshadowed
    have hresolved := (names_are_lexical "main" _ x.1 x.2 hx).resolved hrun
    obtain ⟨e, he, hnames⟩ := Option.map_eq_some_iff.1 hfirst
    obtain ⟨s, hs, he⟩ := Option.bind_eq_some_iff.1 he
    obtain ⟨e', he', hnames'⟩ := Option.map_eq_some_iff.1 hsecond
    obtain ⟨s', hs', he'⟩ := Option.bind_eq_some_iff.1 he'
    obtain ⟨t, c, ht, hc, hfound, -⟩ := hresolved 0 s e hs he
    obtain ⟨t', c', ht', hc', hfound', -⟩ := hresolved 1 s' e' hs' he'
    obtain ⟨hx₀, hz₀⟩ := List.cons.inj hmeaning
    refine ⟨x, hx, t, t', c, c', ht, hc, ht', hc', ?_, ?_⟩
    · rw [hfound, hnames, List.map_cons, List.map_singleton, hx₀, (List.cons.inj hz₀).1]
    · rw [hfound', hnames', List.map_singleton, hmeaning']
  · obtain ⟨y, hy, htags, hparams⟩ := hrepeated
    have hlexical := names_are_lexical "main" _ y.1 y.2 hy
    exact ⟨y, hy, (hlexical.repeatedName_iff (Option.isNone_iff_eq_none.1 htags)).2 (.inl hparams)⟩

end Program

end FrontEnd
