import FrontEnd.Proofs.Check.Names

/-!
# Lexical scopes

A function is checked in two frames, one for its parameters and one for its local variables, and a
frame is nothing but the row of symbols that have been declared in it so far (`Walk.Binds`). Within
one frame names have to differ. To declare a row of symbols has three outcomes (`Walk.Declares`):
all of them are bound, or the first whose name has occurred before is reported, or something else
has put an end to the definition. One symbol has them, and rows can be put one behind another, so
parameters have them and so do statements, and together they make up the outcomes of a function
(`Walk.Scoped`).
-/

namespace FrontEnd

/-! ### Rows of symbols -/

namespace Symbol

variable {σ : List Symbol} {is : List Nat} {i : Nat} {name : String}

/-- The name of a symbol. -/
def nameAt? (symbols : List Symbol) (i : Nat) : Option String :=
  symbols[i]?.map (·.name)

/-- Symbols have **different names**. -/
def Distinct (symbols : List Symbol) (is : List Nat) : Prop :=
  (is.map (nameAt? symbols)).Nodup

/-- A symbol has the name of one in a row. -/
def Taken (symbols : List Symbol) (is : List Nat) (i : Nat) : Prop :=
  nameAt? symbols i ∈ is.map (nameAt? symbols)

/-- A symbol is **the first whose name has occurred** in a row before. -/
def FirstRepeat (symbols : List Symbol) (is : List Nat) (i : Nat) : Prop :=
  ∃ before after, is = before ++ i :: after ∧ Distinct symbols before ∧ Taken symbols before i

/-- The last symbol in a row that has a name. -/
def lastNamed? (symbols : List Symbol) (is : List Nat) (name : String) : Option Nat :=
  is.reverse.find? fun i ↦ nameAt? symbols i == some name

theorem distinct_nil (σ : List Symbol) : Distinct σ [] :=
  List.nodup_nil

theorem distinct_concat : Distinct σ (is ++ [i]) ↔ Distinct σ is ∧ ¬ Taken σ is i := by
  rw [Distinct, List.map_append, List.map_singleton, List.nodup_append_comm, List.singleton_append,
    List.nodup_cons, and_comm]
  rfl

theorem Distinct.of_append {js : List Nat} (h : Distinct σ (is ++ js)) : Distinct σ is :=
  List.Nodup.sublist ((List.sublist_append_left is js).map _) h

theorem FirstRepeat.not_distinct (h : FirstRepeat σ is i) : ¬ Distinct σ is := by
  obtain ⟨before, after, rfl, -, htaken⟩ := h
  intro hdistinct
  rw [List.append_cons] at hdistinct
  exact (distinct_concat.1 hdistinct.of_append).2 htaken

end Symbol

namespace Bindings

variable {σ : List Symbol} {is : List Nat} {i : Nat} {name : String}

/-- **The frame** in which symbols have been declared. -/
def ofSymbols (symbols : List Symbol) (is : List Nat) : Bindings :=
  is.reverse.filterMap fun i ↦ (Symbol.nameAt? symbols i).map (·, i)

/-- A frame binds a name to the last symbol that has it. -/
theorem find?_ofSymbols (σ : List Symbol) (is : List Nat) (name : String) :
    (ofSymbols σ is).find? name = Symbol.lastNamed? σ is name := by
  rw [ofSymbols, Symbol.lastNamed?, find?]
  induction is.reverse with
  | nil => rfl
  | cons i is ih =>
    rw [List.find?_cons]
    cases hname : Symbol.nameAt? σ i with
    | none =>
      rw [List.filterMap_cons_none (by rw [hname]; rfl), ih]
      rfl
    | some s =>
      rw [List.filterMap_cons_some (by rw [hname]; rfl), List.lookup_cons, ih]
      rw [Option.some_beq_some, BEq.comm]

theorem ofSymbols_concat (h : Symbol.nameAt? σ i = some name) :
    ofSymbols σ (is ++ [i]) = (name, i) :: ofSymbols σ is := by
  rw [ofSymbols, List.reverse_concat, List.filterMap_cons_some (by rw [h]; rfl)]
  rfl

theorem find?_ofSymbols_eq_none (h : Symbol.nameAt? σ i = some name) :
    (ofSymbols σ is).find? name = none ↔ ¬ Symbol.Taken σ is i := by
  rw [find?_ofSymbols, Symbol.lastNamed?, List.find?_eq_none, Symbol.Taken, h]
  simp

end Bindings

/-- The local variables that statements declare, in order. -/
def Stmt.locals (ss : List Stmt) : List Nat :=
  ss.filterMap fun s ↦ s.declared?.map (·.symbol)

theorem Stmt.locals_append (ss ss' : List Stmt) :
    Stmt.locals (ss ++ ss') = Stmt.locals ss ++ Stmt.locals ss' :=
  List.filterMap_append

namespace Walk

open Table

variable {σ : List Symbol} {outer : List (List Nat)} {is js js' : List Nat} {w v x : Walk}

/-! ### What declares nothing -/

/-- Errors may have been added, but none that says that a name is taken. -/
def Quiet (w v : Walk) : Prop :=
  ∃ fs, v.findings = w.findings ++ fs ∧ ∀ f ∈ fs, f.error.isRepeatedName = false

theorem Quiet.of_eq (h : v.findings = w.findings) : Quiet w v :=
  ⟨[], h.trans (List.append_nil _).symm, List.forall_mem_nil _⟩

theorem Quiet.refl (w : Walk) : Quiet w w :=
  .of_eq rfl

theorem Quiet.trans (h : Quiet w v) (h' : Quiet v x) : Quiet w x := by
  obtain ⟨fs, hv, hfs⟩ := h
  obtain ⟨gs, hx, hgs⟩ := h'
  exact ⟨fs ++ gs, by rw [hx, hv, List.append_assoc], List.forall_mem_append.2 ⟨hfs, hgs⟩⟩

/-- The state `v` comes after `w`, and **names mean the same**. -/
structure Keeps (w v : Walk) : Prop where
  scope_eq : v.scope = w.scope
  file_eq : v.file = w.file
  places_eq : v.symbols.map Symbol.place = w.symbols.map Symbol.place
  quiet : Quiet w v

theorem Keeps.refl (w : Walk) : Keeps w w :=
  ⟨rfl, rfl, rfl, .refl w⟩

theorem Keeps.trans (h : Keeps w v) (h' : Keeps v x) : Keeps w x :=
  ⟨h'.scope_eq.trans h.scope_eq, h'.file_eq.trans h.file_eq, h'.places_eq.trans h.places_eq,
    h.quiet.trans h'.quiet⟩

theorem Keeps.record (w : Walk) {e : CheckError} (he : e.isRepeatedName = false) :
    Keeps w (w.record e) :=
  ⟨rfl, rfl, rfl, [⟨w.file, e⟩], rfl, List.forall_mem_singleton.2 he⟩

theorem Turns.keeps {D : Sources} (h : Turns D w v) : Keeps w v := by
  obtain ⟨hsymbols, hscope, hfile, hquiet⟩ := h.frame
  exact ⟨hscope, hfile, congrArg _ hsymbols, hquiet⟩

theorem keeps_adopt (w : Walk) (i : Nat) (init : Expr) : Keeps w (w.adopt i init) := by
  rw [adopt, andThen]
  split
  · exact .refl w
  · split
    · exact ⟨rfl, rfl, places_setSymbolType w i _, .refl w⟩
    · exact .record w rfl

section Agreement

variable [RootChoice] {globals : Bindings}

/-- **A local variable is declared last.** What comes before keeps the meanings of names. -/
theorem exists_letVar (globals : Bindings) (hw : w.halted = false) {u : Variable}
    (hu : u.symbol < w.symbols.length) :
    ∃ v, Keeps w v ∧ (w.letVar globals u).2 = v.declare u.symbol := by
  rw [letVar, if_neg (by simp [hw])]
  cases w.symbolType? u.symbol with
  | some label =>
    cases u.init? with
    | some init =>
      exact ⟨_, (turns_labelled globals w.waitsIn_all (Sources.supplies_all init) label).keeps, rfl⟩
    | none => exact ⟨w, .refl w, rfl⟩
  | none =>
    cases u.init? with
    | some init =>
      have hturns := turns_unlabelled globals w.waitsIn_all (Sources.supplies_all init)
      exact ⟨_, hturns.keeps.trans (keeps_adopt _ _ _), rfl⟩
    | none =>
      rw [List.getElem?_eq_getElem hu]
      exact ⟨_, .record w rfl, (declare_of_halted (halted_record w rfl) _).symm⟩

end Agreement

/-! ### Frames -/

/-- **The frames of a walk**, the innermost first, each with the symbols that have been declared in
it, in order. -/
structure Binds (σ : List Symbol) (frames : List (List Nat)) (v : Walk) : Prop where
  places_eq : v.symbols.map Symbol.place = σ.map Symbol.place
  frames_eq : v.scope.frames = frames.map (Bindings.ofSymbols σ)
  distinct : ∀ is ∈ frames, Symbol.Distinct σ is

theorem Binds.length_eq {frames : List (List Nat)} (h : v.Binds σ frames) :
    v.symbols.length = σ.length := by
  simpa using congrArg List.length h.places_eq

theorem Keeps.binds {frames : List (List Nat)} (h : Keeps w v) (hw : w.Binds σ frames) :
    v.Binds σ frames :=
  ⟨h.places_eq.trans hw.places_eq, h.scope_eq ▸ hw.frames_eq, hw.distinct⟩

/-- A new frame. -/
theorem Binds.push {frames : List (List Nat)} (hw : w.Binds σ frames) (hrun : w.halted = false) :
    w.push.Binds σ ([] :: frames) ∧ w.push.halted = false ∧ Quiet w w.push ∧
      w.push.file = w.file := by
  rw [Walk.push, andThen, if_neg (by simp [hrun])]
  refine ⟨⟨hw.places_eq, ?_, List.forall_mem_cons.2 ⟨Symbol.distinct_nil σ, hw.distinct⟩⟩, hrun,
    .of_eq rfl, rfl⟩
  rw [Scope.push, hw.frames_eq]
  rfl

/-- The symbols are called what they were called at the start. -/
theorem Binds.exists_symbol {frames : List (List Nat)} (hw : w.Binds σ frames) {i : Nat}
    (hi : i < σ.length) : ∃ s s', w.symbols[i]? = some s' ∧ σ[i]? = some s ∧ s'.name = s.name ∧
      s'.span = s.span := by
  have hplace : (w.symbols.map Symbol.place)[i]? = some (σ[i]).place := by
    rw [hw.places_eq, List.getElem?_map, List.getElem?_eq_getElem hi]
    rfl
  rw [List.getElem?_map] at hplace
  obtain ⟨s', hs', heq⟩ := Option.map_eq_some_iff.1 hplace
  obtain ⟨hname, heq⟩ := Prod.mk.inj heq
  exact ⟨σ[i], s', hs', List.getElem?_eq_getElem hi, hname, (Prod.mk.inj heq).2⟩

/-! ### Declaring a row of symbols -/

/-- The state `v` is where **the name of a symbol was found to be taken**, which had not happened
since `w`. -/
def Reports (σ : List Symbol) (w v : Walk) (i : Nat) : Prop :=
  v.halted = true ∧ ∃ fs s, (∀ f ∈ fs, f.error.isRepeatedName = false) ∧ σ[i]? = some s ∧
    v.findings = w.findings ++ (fs ++ [⟨w.file, .repeatedName s.name s.span⟩])

theorem Reports.of_quiet {i : Nat} (h : Quiet w v) (hfile : v.file = w.file)
    (h' : Reports σ v x i) : Reports σ w x i := by
  obtain ⟨fs, hv, hfs⟩ := h
  obtain ⟨hhalted, gs, s, hgs, hs, hx⟩ := h'
  refine ⟨hhalted, fs ++ gs, s, List.forall_mem_append.2 ⟨hfs, hgs⟩, hs, ?_⟩
  rw [hx, hv, hfile, List.append_assoc, List.append_assoc]

/-- **What comes of declaring symbols** `js` in a frame that holds `is`. If `other` holds, something
else may happen on the way. -/
inductive Declares (σ : List Symbol) (outer : List (List Nat)) (other : Prop) (w : Walk)
    (is js : List Nat) (v : Walk) : Prop
  /-- All of them are bound. -/
  | all (running : v.halted = false) (file_eq : v.file = w.file) (quiet : Quiet w v)
    (binds : v.Binds σ ((is ++ js) :: outer))
  /-- The first whose name has occurred is reported, and that is the end. -/
  | repeated {before after : List Nat} {i : Nat} (split : js = before ++ i :: after)
    (distinct : Symbol.Distinct σ (is ++ before)) (taken : Symbol.Taken σ (is ++ before) i)
    (reports : Reports σ w v i)
  /-- Something else has put an end to it. -/
  | stopped (halted : v.halted = true) (cause : other) (quiet : Quiet w v)

namespace Declares

variable {other : Prop}

theorem binds_of_running (h : Declares σ outer other w is js v) (hrun : v.halted = false) :
    v.Binds σ ((is ++ js) :: outer) := by
  cases h with
  | all _ _ _ binds => exact binds
  | repeated _ _ _ reports => cases reports.1.symm.trans hrun
  | stopped halted => cases halted.symm.trans hrun

theorem trans (h : Declares σ outer other w is js v)
    (h' : v.halted = false → Declares σ outer other v (is ++ js) js' x)
    (hstays : v.halted = true → x = v) : Declares σ outer other w is (js ++ js') x := by
  cases h with
  | all running file_eq quiet binds =>
    cases h' running with
    | all running' file_eq' quiet' binds' =>
      exact .all running' (file_eq'.trans file_eq) (quiet.trans quiet')
        (List.append_assoc .. ▸ binds')
    | repeated split distinct taken reports =>
      rw [List.append_assoc] at distinct taken
      exact .repeated (by rw [split, List.append_assoc]) distinct taken
        (reports.of_quiet quiet file_eq)
    | stopped halted cause quiet' => exact .stopped halted cause (quiet.trans quiet')
  | repeated split distinct taken reports =>
    rw [hstays reports.1]
    exact .repeated (by rw [split, List.append_assoc]; rfl) distinct taken reports
  | stopped halted cause quiet =>
    rw [hstays halted]
    exact .stopped halted cause quiet

/-- What names mean stays the same before symbols are declared. -/
theorem of_keeps (h : Keeps w v) (h' : Declares σ outer other v is js x) :
    Declares σ outer other w is js x := by
  cases h' with
  | all running file_eq quiet binds =>
    exact .all running (file_eq.trans h.file_eq) (h.quiet.trans quiet) binds
  | repeated split distinct taken reports =>
    exact .repeated split distinct taken (reports.of_quiet h.quiet h.file_eq)
  | stopped halted cause quiet => exact .stopped halted cause (h.quiet.trans quiet)

end Declares

/-- **One symbol** is bound, or its name is taken. -/
theorem declares_declare {other : Prop} (hw : w.Binds σ (is :: outer)) (hrun : w.halted = false)
    {i : Nat} (hi : i < σ.length) : Declares σ outer other w is [i] (w.declare i) := by
  obtain ⟨s, s', hs', hs, hname, hspan⟩ := hw.exists_symbol hi
  have hnameAt : Symbol.nameAt? σ i = some s.name := by rw [Symbol.nameAt?, hs]; rfl
  have hdistinct := hw.distinct is List.mem_cons_self
  rw [declare, andThen, if_neg (by simp [hrun]), hs']
  dsimp only
  rw [Scope.declare, hw.frames_eq, List.map_cons, hname]
  dsimp only
  cases hfind : (Bindings.ofSymbols σ is).find? s.name with
  | none =>
    have hfree := (Bindings.find?_ofSymbols_eq_none hnameAt).1 hfind
    refine .all hrun rfl (.refl w) ⟨hw.places_eq, ?_, ?_⟩
    · rw [List.map_cons, Bindings.ofSymbols_concat hnameAt]
    · exact List.forall_mem_cons.2 ⟨Symbol.distinct_concat.2 ⟨hdistinct, hfree⟩,
        (List.forall_mem_cons.1 hw.distinct).2⟩
  | some j =>
    have htaken : Symbol.Taken σ is i := by
      by_contra hfree
      cases ((Bindings.find?_ofSymbols_eq_none hnameAt).2 hfree).symm.trans hfind
    refine .repeated (show [i] = [] ++ i :: [] from rfl) ?_ ?_
      ⟨halted_record w rfl, [], s, List.forall_mem_nil _, hs, by rw [hspan]; rfl⟩
    · rwa [List.append_nil]
    · rwa [List.append_nil]

theorem foldl_declare_of_halted (hw : w.halted = true) (js : List Nat) :
    js.foldl declare w = w := by
  induction js with
  | nil => rfl
  | cons j js ih => rw [List.foldl_cons, declare_of_halted hw, ih]

/-- **A row of symbols**, one behind another. -/
theorem declares_foldl {other : Prop} (js : List Nat) (w : Walk) (is : List Nat)
    (hw : w.Binds σ (is :: outer)) (hrun : w.halted = false) (hjs : ∀ j ∈ js, j < σ.length) :
    Declares σ outer other w is js (js.foldl declare w) := by
  induction js generalizing w is with
  | nil => exact .all hrun rfl (.refl w) (by rwa [List.append_nil])
  | cons j js ih =>
    obtain ⟨hj, hjs⟩ := List.forall_mem_cons.1 hjs
    have hfirst : Declares σ outer other w is [j] (w.declare j) := declares_declare hw hrun hj
    exact hfirst.trans (fun hrun' ↦ ih _ _ (hfirst.binds_of_running hrun') hrun' hjs)
      fun hhalted ↦ foldl_declare_of_halted hhalted js

section Statements

variable [RootChoice] {globals : Bindings}

/-- **A statement** declares its variable, if it has one. -/
theorem declares_stmt (globals : Bindings) (hw : w.Binds σ (is :: outer)) (hrun : w.halted = false)
    {s : Stmt} (hs : ∀ i ∈ Stmt.locals [s], i < σ.length) :
    Declares σ outer True w is (Stmt.locals [s]) (w.stmt globals s).2 := by
  cases s with
  | letVar u =>
    have hu : u.symbol < σ.length := hs u.symbol (List.mem_singleton.2 rfl)
    obtain ⟨v, hkeeps, heq⟩ := exists_letVar globals hrun (hw.length_eq ▸ hu)
    show Declares σ outer True w is [u.symbol] (w.letVar globals u).2
    rw [heq]
    -- the value may have put an end to the function, and then nothing is declared
    cases hv : v.halted with
    | false => exact .of_keeps hkeeps (declares_declare (hkeeps.binds hw) hv hu)
    | true =>
      rw [declare_of_halted hv]
      exact .stopped hv trivial hkeeps.quiet
  | expr e =>
    have hkeeps := (turns_unlabelled globals w.waitsIn_all (Sources.supplies_all e)).keeps
    show Declares σ outer True w is [] (w.unlabelled globals e).2
    cases hv : (w.unlabelled globals e).2.halted with
    | false =>
      refine .all hv hkeeps.file_eq hkeeps.quiet ?_
      rw [List.append_nil]
      exact hkeeps.binds hw
    | true => exact .stopped hv trivial hkeeps.quiet

/-- **Statements** declare their variables, one behind another. -/
theorem declares_stmts (globals : Bindings) (ss : List Stmt) (w : Walk) (is : List Nat)
    (hw : w.Binds σ (is :: outer)) (hrun : w.halted = false)
    (hss : ∀ i ∈ Stmt.locals ss, i < σ.length) :
    Declares σ outer True w is (Stmt.locals ss) (w.stmts globals ss).2 := by
  induction ss generalizing w is with
  | nil => exact .all hrun rfl (.refl w) ((List.append_nil is).symm ▸ hw)
  | cons s ss ih =>
    rw [← List.singleton_append, Stmt.locals_append] at hss ⊢
    obtain ⟨hs, hss⟩ := List.forall_mem_append.1 hss
    have hfirst := declares_stmt globals hw hrun hs
    exact hfirst.trans (fun hrun' ↦ ih _ _ (hfirst.binds_of_running hrun') hrun' hss)
      fun hhalted ↦ congrArg Prod.snd (stmts_of_halted hhalted ss)

/-! ### The frames of a function -/

/-- **What comes of the names of a function** behind statements that declare `locals`. -/
inductive Scoped (σ : List Symbol) (params locals : List Nat) (w v : Walk) : Prop
  /-- All of them are bound, in two frames. -/
  | all (running : v.halted = false) (quiet : Quiet w v) (binds : v.Binds σ [locals, params])
  /-- The first parameter whose name has occurred is reported. -/
  | repeatedParam {i : Nat} (first : Symbol.FirstRepeat σ params i) (reports : Reports σ w v i)
  /-- The first local variable whose name has occurred is reported. -/
  | repeatedLocal {i : Nat} (distinct : Symbol.Distinct σ params)
    (first : Symbol.FirstRepeat σ locals i) (reports : Reports σ w v i)
  /-- Something else has put an end to it. -/
  | stopped (distinct : Symbol.Distinct σ params) (halted : v.halted = true) (quiet : Quiet w v)

omit [RootChoice] in
theorem Scoped.binds_of_running {params locals : List Nat} (h : Scoped σ params locals w v)
    (hrun : v.halted = false) : v.Binds σ [locals, params] := by
  cases h with
  | all _ _ binds => exact binds
  | repeatedParam _ reports => cases reports.1.symm.trans hrun
  | repeatedLocal _ _ reports => cases reports.1.symm.trans hrun
  | stopped _ halted => cases halted.symm.trans hrun

/-- **A function** declares its parameters in one frame and its variables in another. -/
theorem scoped_stmts (globals : Bindings) {params : List Nat} {ss : List Stmt}
    (hw : w.Binds σ []) (hrun : w.halted = false) (hparams : ∀ i ∈ params, i < σ.length)
    (hss : ∀ i ∈ Stmt.locals ss, i < σ.length) :
    Scoped σ params (Stmt.locals ss) w ((w.inBody params).stmts globals ss).2 := by
  obtain ⟨hpush, hrunning, hquiet, hfile⟩ := hw.push hrun
  -- nothing but a name that is taken can put an end to the parameters
  have hdeclares : Declares σ [] False w.push [] params (params.foldl declare w.push) :=
    declares_foldl params _ _ hpush hrunning hparams
  cases hdeclares with
  | all running file_eq quiet binds =>
    obtain ⟨hbody, hrunning', hquiet', hfile'⟩ := binds.push running
    have hinBody : Quiet w (w.inBody params) := (hquiet.trans quiet).trans hquiet'
    have hdistinct := binds.distinct params List.mem_cons_self
    cases declares_stmts globals ss _ [] hbody hrunning' hss with
    | all running' _ quiet' binds' => exact .all running' (hinBody.trans quiet') binds'
    | repeated split distinct taken reports =>
      exact .repeatedLocal hdistinct ⟨_, _, split, distinct, taken⟩
        (reports.of_quiet hinBody (hfile'.trans (file_eq.trans hfile)))
    | stopped halted _ quiet' => exact .stopped hdistinct halted (hinBody.trans quiet')
  | repeated split distinct taken reports =>
    have hend : w.inBody params = params.foldl declare w.push := if_pos reports.1
    rw [hend, stmts_of_halted reports.1]
    exact .repeatedParam ⟨_, _, split, distinct, taken⟩ (reports.of_quiet hquiet hfile)
  | stopped _ cause => exact cause.elim

end Statements

end Walk

end FrontEnd
