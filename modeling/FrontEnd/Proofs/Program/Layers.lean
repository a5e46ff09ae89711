import FrontEnd.Proofs.Program.Parts

/-!
# The symbols of definitions lie in layers

Symbols are numbered in the order in which they are read, and a definition is read to its end before
the next one starts. So the symbols that a definition introduces (its own, and those of its
parameters and local variables) are all older than those of the definitions behind it
(`Program.Layered`). In particular no two definitions share one.
-/

namespace FrontEnd

namespace Definition

theorem Formed.params_lt {σ : List Symbol} {x : Definition} (h : x.Formed σ) :
    ∀ i ∈ x.params, i < σ.length := by
  intro i hi
  have hsignature : i ∈ x.signature := by
    rw [params] at hi
    rw [Definition.signature]
    cases hx : x.content with
    | function symbol params result body? =>
      rw [hx] at hi
      exact List.mem_cons_of_mem _ hi
    | global v =>
      rw [hx] at hi
      exact absurd hi List.not_mem_nil
  obtain ⟨a, ha⟩ := h.signature i hsignature
  obtain ⟨s, hs, -⟩ := Symbol.typeAt?_eq_some_iff.1 ha
  exact (List.getElem?_eq_some_iff.1 hs).1

end Definition

namespace Build

variable {α β : Type} {p : Build α}

/-! ### One definition -/

/-- Parameters have symbols from `base` on, and symbols have at most been added. -/
def ParamsFrom (base : Nat) (params : List (Nat × Ty)) (d : Draft) : Prop :=
  base ≤ d.program.symbols.length ∧ ∀ x ∈ params, base ≤ x.1

/-- The parameters of a group are the symbols that have just been added. -/
theorem ensures_newParams (a : Ty) (names : List Token) (d : Draft) :
    Ensures (newParams a names) d (ParamsFrom d.program.symbols.length) := by
  induction names generalizing d with
  | nil => exact ensures_pure ⟨Nat.le_refl _, nofun⟩
  | cons name names ih =>
    have hsymbol : Ensures (newSymbol name .value (some a) true) d fun i d₁ ↦
        i = d.program.symbols.length ∧ d.program.symbols.length ≤ d₁.program.symbols.length := by
      intro i hi
      obtain rfl := Except.ok.inj hi
      exact ⟨rfl, (List.prefix_append _ _).length_le⟩
    refine .bind (hsymbol.mono ?_)
    rintro i d₁ ⟨rfl, hlength⟩
    refine .bind ((ih d₁).mono fun more d₂ ⟨hlength', hmore⟩ ↦ ensures_pure ?_)
    refine ⟨Nat.le_trans hlength hlength', List.forall_mem_cons.2 ⟨Nat.le_refl _, ?_⟩⟩
    exact fun x hx ↦ Nat.le_trans hlength (hmore x hx)

/-- So are those of all groups, one behind another. -/
theorem ensures_paramsTo (n : Nat) (d : Draft) :
    Ensures (paramsTo n) d (ParamsFrom d.program.symbols.length) := by
  induction n generalizing d with
  | zero => exact ensures_stop
  | succ n ih =>
    refine .bind (ensures_lift fun count _ _ ↦ .bind (ensures_lift fun names _ _ ↦ ?_))
    refine .bind (ensures_lift fun _ _ _ ↦ .bind (ensures_lift fun a _ _ ↦ ?_))
    refine .bind ((ensures_newParams a names _).mono fun params d₁ hparams ↦ ?_)
    refine .bind (ensures_lift fun more _ _ ↦ ensures_ite (fun _ ↦ ?_) fun _ ↦ ensures_pure hparams)
    refine .bind ((ih _).mono fun params' d₂ hparams' ↦ ensures_pure ?_)
    refine ⟨Nat.le_trans hparams.1 hparams'.1, List.forall_mem_append.2 ⟨hparams.2, ?_⟩⟩
    exact fun x hx ↦ Nat.le_trans hparams.1 (hparams'.2 x hx)

theorem ensures_paramList (d : Draft) :
    Ensures paramList d (ParamsFrom d.program.symbols.length) := by
  refine .bind (ensures_lift fun _ c _ ↦ .bind (Ensures.mono
    (P := ParamsFrom d.program.symbols.length) ?_ fun params d₁ hparams ↦ ?_))
  · refine .bind (ensures_lift fun _ _ _ ↦ ensures_ite (fun _ ↦ ?_) fun _ ↦ ?_)
    · exact ensures_pure ⟨Nat.le_refl _, nofun⟩
    · exact .bind (ensures_lift fun n _ _ ↦ ensures_paramsTo n _)
  · exact .bind (ensures_lift fun _ _ _ ↦ ensures_pure hparams)

/-- A function owns no parameter from before it was read. -/
theorem ensures_params_function (m : Metadata) (d : Draft) :
    Ensures (function m) d fun x _ ↦ ∀ i ∈ x.params, d.program.symbols.length ≤ i := by
  rw [function_eq]
  refine .bind (ensures_lift fun start _ _ ↦ .bind (ensures_lift fun name _ _ ↦ ?_))
  refine .bind ((ensures_paramList _).mono fun params d₁ hparams ↦ ?_)
  -- behind the parameters nothing is read that could change them
  refine ensures_then fun result _ ↦ ensures_then fun body? _ ↦ ensures_then fun symbol _ ↦ ?_
  refine ensures_then fun span _ ↦ fun x hx i hi ↦ ?_
  obtain rfl := Except.ok.inj hx
  obtain ⟨y, hy, rfl⟩ := List.mem_map.1 hi
  exact hparams.2 y hy

/-- A global variable has no parameters. -/
theorem ensures_params_global (m : Metadata) (d : Draft) :
    Ensures (global m) d fun x _ ↦ ∀ i ∈ x.params, d.program.symbols.length ≤ i := by
  refine ensures_then fun v _ ↦ ensures_then fun _ _ ↦ fun x hx ↦ ?_
  obtain rfl := Except.ok.inj hx
  exact nofun

/-- A definition that has been read owns symbols which were not there before. -/
def OwnsFrom (base : Nat) (x : Definition) (d : Draft) : Prop :=
  ∀ i ∈ x.owned, base ≤ i ∧ i < d.program.symbols.length

/-- What a definition owns are its own symbol, its parameters and its local variables. -/
theorem DefinitionFrom.ownsFrom {base : Nat} {x : Definition} {d : Draft}
    (h : DefinitionFrom base x d) (hparams : ∀ i ∈ x.params, base ≤ i) : OwnsFrom base x d :=
  Definition.forall_mem_owned.2
    ⟨⟨h.le_symbol, h.symbol_lt⟩, fun i hi ↦ ⟨hparams i hi, h.formed.params_lt i hi⟩,
      fun i hi ↦ ⟨h.le_local i hi, h.formed.locals_lt i hi⟩⟩

theorem runs_owned_function (m : Metadata) (d : Draft) :
    Runs (function m) d (OwnsFrom d.program.symbols.length) :=
  ⟨(runs_function m d).1, fun x hx ↦
    ((runs_function m d).2 x hx).ownsFrom (ensures_params_function m d x hx)⟩

theorem runs_owned_global (m : Metadata) (d : Draft) :
    Runs (global m) d (OwnsFrom d.program.symbols.length) :=
  ⟨(runs_global m d).1, fun x hx ↦
    ((runs_global m d).2 x hx).ownsFrom (ensures_params_global m d x hx)⟩

end Build

/-! ### Files -/

/-- **The symbols of definitions lie in layers**: those of each definition are older than those of
the ones behind it. -/
structure Program.Layered (p : Program) : Prop where
  lt_length : ∀ x ∈ p.definitions, ∀ i ∈ x.owned, i < p.symbols.length
  pairwise : p.definitions.Pairwise fun x y ↦ ∀ i ∈ x.owned, ∀ j ∈ y.owned, i < j

/-- More symbols and tokens that have been read leave the layers as they are. -/
theorem Draft.Extends.layered {d d' : Draft} (h : d.Extends d') (hd : d.program.Layered) :
    d'.program.Layered where
  lt_length x hx i hi :=
    Nat.lt_of_lt_of_le (hd.lt_length x (h.definitions ▸ hx) i hi) h.symbols.length_le
  pairwise := h.definitions ▸ hd.pairwise

namespace Build

variable {α β : Type} {p : Build α}

/-- A new definition is a new layer. -/
theorem layered_addDefinition {d₀ d : Draft} {x : Definition} (hd₀ : d₀.program.Layered)
    (hd : d₀.Extends d) (hx : OwnsFrom d₀.program.symbols.length x d) (unique : Bool) :
    (addDefinition x unique d).2.program.Layered := by
  have hlayered := hd.layered hd₀
  rw [addDefinition, bind_apply, bindGlobal]
  cases d.program.symbols[x.symbol]? with
  | none => exact hlayered
  | some s =>
    dsimp only
    cases d.program.globals.find? s.name with
    | some _ => exact hlayered
    | none =>
      cases unique with
      | false => exact ⟨hlayered.lt_length, hlayered.pairwise⟩
      | true =>
        refine ⟨List.forall_mem_append.2 ⟨hlayered.lt_length, fun y hy ↦ ?_⟩,
          List.pairwise_append.2 ⟨hlayered.pairwise, List.pairwise_singleton _ _, ?_⟩⟩
        · obtain rfl := List.mem_singleton.1 hy
          exact fun i hi ↦ (hx i hi).2
        · intro y hy z hz i hi j hj
          obtain rfl := List.mem_singleton.1 hz
          exact Nat.lt_of_lt_of_le (hd₀.lt_length y (hd.definitions ▸ hy) i hi) (hx j hj).1

/-- Layers stay, whether or not the parser reads what it is to read. -/
def KeepsLayers (p : Build α) : Prop :=
  ∀ d, d.program.Layered → (p d).2.program.Layered

/-- Parsers that keep layers keep them one behind another, also where the second is not reached. -/
theorem KeepsLayers.bind {f : α → Build β} (hp : KeepsLayers p) (hf : ∀ a, KeepsLayers (f a)) :
    KeepsLayers (p >>= f) := by
  intro d hd
  rw [bind_apply]
  have hd' := hp d hd
  generalize p d = r at hd' ⊢
  rcases r with ⟨e | a, d'⟩
  · exact hd'
  · exact hf a d' hd'

theorem keepsLayers_of_runs (h : ∀ d, Runs p d fun _ _ ↦ True) : KeepsLayers p :=
  fun d hd ↦ (h d).1.layered hd

/-- Reading a definition and adding it keeps layers, since what it owns was added while it was
read. -/
theorem keepsLayers_addDefinition {p : Build Definition} (unique : Bool)
    (hp : ∀ d, Runs p d (OwnsFrom d.program.symbols.length)) :
    KeepsLayers (p >>= fun x ↦ addDefinition x unique) := by
  intro d hd
  rw [bind_apply]
  obtain ⟨hextends, hx⟩ := hp d
  generalize p d = r at hextends hx ⊢
  rcases r with ⟨e | x, d'⟩
  · exact hextends.layered hd
  · exact layered_addDefinition hd hextends (hx x rfl) unique

theorem keepsLayers_definition : KeepsLayers definition := by
  refine (keepsLayers_of_runs runs_metadata).bind fun (m, unique) ↦
    (keepsLayers_of_runs fun _ ↦ runs_liftAny fun _ _ ↦ trivial).bind fun t ↦ ?_
  split
  · exact keepsLayers_addDefinition unique (runs_owned_function m)
  · exact keepsLayers_addDefinition unique (runs_owned_global m)
  · exact fun d hd ↦ hd

/-- So all definitions of a file are layers. -/
theorem keepsLayers_definitionsTo (n : Nat) : KeepsLayers (definitionsTo n) := by
  induction n with
  | zero => exact fun d hd ↦ hd
  | succ n ih =>
    refine (keepsLayers_of_runs fun _ ↦ runs_liftAny fun _ _ ↦ trivial).bind fun done ↦ ?_
    cases done with
    | true => exact fun d hd ↦ hd
    | false => exact keepsLayers_definition.bind fun _ ↦ ih

end Build

namespace Program

theorem layered_empty (name : String) : (empty name).Layered :=
  ⟨nofun, .nil⟩

/-- And a file that is read into a program in layers leaves layers. -/
theorem layered_parseFile {p : Program} (hp : p.Layered) (source : SourceFile) :
    (p.parseFile source).program.Layered := by
  have h := Build.keepsLayers_definitionsTo (p.draft source).cursor.rest.length (p.draft source) hp
  rw [parseFile]
  generalize Build.definitionsTo (p.draft source).cursor.rest.length (p.draft source) = r at h ⊢
  rcases r with ⟨e | u, d⟩
  · exact ⟨h.lt_length, h.pairwise⟩
  · exact ⟨h.lt_length, h.pairwise⟩

/-- **Whatever is read has its symbols in layers.** -/
theorem layered_parseFiles {p : Program} (hp : p.Layered) (sources : List SourceFile) :
    (p.parseFiles sources).1.Layered := by
  induction sources generalizing p with
  | nil => exact hp
  | cons source sources ih => exact ih (layered_parseFile hp source)

end Program

end FrontEnd
