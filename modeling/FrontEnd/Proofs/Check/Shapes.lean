import FrontEnd.Proofs.Check.Independence
import FrontEnd.Proofs.Program.Places

/-!
# What checking leaves alone

Checking fills in types and finds out what names mean. It adds nothing to a tree and takes nothing
away, so without those two a definition is behind the check what it was before
(`Walk.bare_definition`). Where things stand is in that part, so everything stands where it stood
(`Definition.Placed.congr`).
-/

namespace FrontEnd

/-! ### Expressions -/

namespace Expr

mutual

/-- An expression without what checking finds out: types, and the symbols of names. -/
def bare : Expr → Expr
  | constant n v => constant (.untyped n.span) v
  | ident n name _ => ident (.untyped n.span) name none
  | unary n op e => unary (.untyped n.span) op e.bare
  | binary n op l r => binary (.untyped n.span) op l.bare r.bare
  | call n f args => call (.untyped n.span) f.bare (bareAll args)
  | cast n e dest => cast (.untyped n.span) e.bare dest

/-- The expressions of a list without what checking finds out. -/
def bareAll : List Expr → List Expr
  | [] => []
  | e :: es => e.bare :: bareAll es

end

theorem bareAll_eq_map (es : List Expr) : bareAll es = es.map bare := by
  induction es with
  | nil => rfl
  | cons e es ih => rw [bareAll, ih, List.map_cons]

@[simp]
theorem span_bare (e : Expr) : e.bare.span = e.span := by
  cases e <;> rfl

theorem parts_bare (e : Expr) : e.bare.parts = e.parts.map bare := by
  cases e with
  | call n f args => rw [bare, parts, parts, bareAll_eq_map, List.map_cons]
  | _ => rfl

theorem isToken_bare {e : Expr} {t : Token} : e.bare.IsToken t ↔ e.IsToken t := by
  cases e <;> rfl

mutual

/-- A tree and its bare form have the same nodes, up to types and meanings of names. -/
theorem nodes_bare : ∀ e : Expr, e.bare.nodes = e.nodes.map bare
  | constant n v => by simp [bare, nodes]
  | ident n name symbol => by simp [bare, nodes]
  | unary n op e => by simp [bare, nodes, nodes_bare e]
  | binary n op l r => by simp [bare, nodes, nodes_bare l, nodes_bare r]
  | call n f args => by simp [bare, nodes, nodes_bare f, nodesAll_bareAll args]
  | cast n e dest => by simp [bare, nodes, nodes_bare e]

theorem nodesAll_bareAll : ∀ es : List Expr, nodesAll (bareAll es) = (nodesAll es).map bare
  | [] => rfl
  | e :: es => by simp [bareAll, nodesAll, nodes_bare e, nodesAll_bareAll es]

end

/-- With parts that are the same, nodes that are the same at the top are the same. -/
theorem SameTop.bare_eq {e e' : Expr} (h : e.SameTop e')
    (hparts : e'.parts.map bare = e.parts.map bare) : e'.bare = e.bare := by
  cases h <;> simp_all [parts, bare, bareAll_eq_map]

theorem bare_withType (a? : Option Ty) (e : Expr) : (e.withType a?).bare = e.bare := by
  cases e <;> rfl

mutual

/-- What becomes of the types of a tree does not show in its bare form. -/
theorem bare_mapTypes (f : Ty → Ty) : ∀ e : Expr, (e.mapTypes f).bare = e.bare
  | constant n v => rfl
  | ident n name symbol => rfl
  | unary n op e => by rw [mapTypes_unary, bare, bare, bare_mapTypes f e]
  | binary n op l r => by
    rw [mapTypes_binary, bare, bare, bare_mapTypes f l, bare_mapTypes f r]
  | call n g args => by
    rw [mapTypes_call, bare, bare, bare_mapTypes f g, bareAll_mapTypes f args]
  | cast n e dest => by rw [mapTypes_cast, bare, bare, bare_mapTypes f e]

theorem bareAll_mapTypes (f : Ty → Ty) :
    ∀ es : List Expr, bareAll (es.map (mapTypes f)) = bareAll es
  | [] => rfl
  | e :: es => by rw [List.map_cons, bareAll, bareAll, bare_mapTypes f e, bareAll_mapTypes f es]

end

variable {text : List Char} {e : Expr}

/-- Where a node stands is in its bare form. -/
theorem stands_bare : e.bare.Stands text ↔ e.Stands text := by
  have hwithin : (∀ x ∈ e.bare.parts, x.span.Within e.bare.span) ↔
      ∀ x ∈ e.parts, x.span.Within e.span := by
    simp only [parts_bare, List.forall_mem_map, span_bare]
  have hordered : (e.bare.parts.Pairwise fun x y ↦ x.span.Before y.span) ↔
      e.parts.Pairwise fun x y ↦ x.span.Before y.span := by
    simp only [parts_bare, List.pairwise_map, span_bare]
  have htoken : (e.bare.parts = [] → ∃ t ∈ Token.scanList text,
      t.span = e.bare.span ∧ e.bare.span.Cuts text t.text ∧ e.bare.IsToken t) ↔
      (e.parts = [] → ∃ t ∈ Token.scanList text,
        t.span = e.span ∧ e.span.Cuts text t.text ∧ e.IsToken t) := by
    simp only [parts_bare, List.map_eq_nil_iff, span_bare, isToken_bare]
  constructor
  · intro h
    exact ⟨span_bare e ▸ h.cuts, hwithin.1 h.within, hordered.1 h.ordered, htoken.1 h.token⟩
  · intro h
    refine ⟨?_, hwithin.2 h.within, hordered.2 h.ordered, htoken.2 h.token⟩
    rw [span_bare]
    exact h.cuts

/-- So a tree is placed if its bare form is. -/
theorem placed_bare : e.bare.Placed text ↔ e.Placed text := by
  rw [Placed, Placed, nodes_bare, List.forall_mem_map]
  exact forall₂_congr fun x _ ↦ stands_bare

end Expr

/-! ### Definitions -/

section Bare

variable {text : List Char}

/-- A variable without what checking finds out. -/
def Variable.bare (v : Variable) : Variable :=
  { v with init? := v.init?.map Expr.bare }

/-- With a new initial value a variable stays the same if the value does. -/
theorem Variable.bare_init {v : Variable} {e e' : Expr} (h : v.init? = some e)
    (he : e'.bare = e.bare) : ({ v with init? := some e' } : Variable).bare = v.bare := by
  rw [bare, bare, h, Option.map_some, Option.map_some, he]

/-- Variables, statements, blocks and definitions are placed by their bare forms in turn. -/
theorem Variable.placed_bare {v : Variable} : v.bare.Placed text ↔ v.Placed text := by
  have hinit : (∀ e, v.bare.init? = some e → e.Placed text ∧ e.span.Within v.span) ↔
      ∀ e, v.init? = some e → e.Placed text ∧ e.span.Within v.span := by
    simp only [bare, Option.map_eq_some_iff, forall_exists_index, and_imp,
      forall_apply_eq_imp_iff₂, Expr.placed_bare, Expr.span_bare]
  exact ⟨fun h ↦ ⟨h.cuts, hinit.1 h.init⟩, fun h ↦ ⟨h.cuts, hinit.2 h.init⟩⟩

namespace Stmt

/-- A statement without what checking finds out. -/
def bare : Stmt → Stmt
  | letVar v => letVar v.bare
  | expr e => expr e.bare

@[simp]
theorem span_bare (s : Stmt) : s.bare.span = s.span := by
  cases s with
  | letVar v => rfl
  | expr e => exact e.span_bare

theorem placed_bare {s : Stmt} : s.bare.Placed text ↔ s.Placed text := by
  cases s with
  | letVar v => exact Variable.placed_bare
  | expr e => exact Expr.placed_bare

end Stmt

/-- A block without what checking finds out. -/
def Block.bare (b : Block) : Block :=
  { b with stmts := b.stmts.map Stmt.bare }

theorem Block.placed_bare {b : Block} : b.bare.Placed text ↔ b.Placed text := by
  have hstmts : (∀ s ∈ b.bare.stmts, s.Placed text ∧ s.span.Within b.span) ↔
      ∀ s ∈ b.stmts, s.Placed text ∧ s.span.Within b.span := by
    simp only [bare, List.forall_mem_map, Stmt.placed_bare, Stmt.span_bare]
  have hordered : (b.bare.stmts.Pairwise fun s t ↦ s.span.Before t.span) ↔
      b.stmts.Pairwise fun s t ↦ s.span.Before t.span := by
    simp only [bare, List.pairwise_map, Stmt.span_bare]
  exact ⟨fun h ↦ ⟨h.cuts, hstmts.1 h.stmts, hordered.1 h.ordered⟩,
    fun h ↦ ⟨h.cuts, hstmts.2 h.stmts, hordered.2 h.ordered⟩⟩

namespace Definition

/-- What a definition introduces, without what checking finds out. -/
def Content.bare : Content → Content
  | .function symbol params result body? => .function symbol params result (body?.map Block.bare)
  | .global v => .global v.bare

theorem Content.placed_bare {c : Content} {span : Span} :
    c.bare.Placed text span ↔ c.Placed text span := by
  cases c with
  | function symbol params result body? =>
    simp only [bare, Content.Placed, Option.map_eq_some_iff, forall_exists_index, and_imp,
      forall_apply_eq_imp_iff₂, Block.placed_bare]
    rfl
  | global v => exact and_congr_left' Variable.placed_bare

/-- A definition without what checking finds out. -/
def bare (x : Definition) : Definition :=
  { x with content := x.content.bare }

theorem stmts_bare (x : Definition) : x.bare.stmts = x.stmts.map Stmt.bare := by
  rw [stmts, stmts, bare]
  cases x.content with
  | function symbol params result body? => cases body? <;> rfl
  | global v => rfl

/-- What a definition owns is in its bare form: symbols are numbered when they are read. -/
theorem owned_bare (x : Definition) : x.bare.owned = x.owned := by
  have hsymbol : x.bare.symbol = x.symbol := by
    rw [symbol, symbol, bare]
    cases x.content <;> rfl
  have hparams : x.bare.params = x.params := by
    rw [params, params, bare]
    cases x.content <;> rfl
  have hlocals : x.bare.locals = x.locals := by
    rw [locals_eq, locals_eq, stmts_bare, List.filterMap_map]
    refine List.filterMap_congr fun s _ ↦ ?_
    cases s <;> rfl
  rw [owned, owned, hsymbol, hparams, hlocals]

/-- **Definitions that differ in types and meanings only** stand in the same places. -/
theorem Placed.congr {σ : List Symbol} {x y : Definition} (h : x.Placed text σ)
    (hbare : y.bare = x.bare) : y.Placed text σ := by
  have howned : y.owned = x.owned := by rw [← owned_bare, hbare, owned_bare]
  obtain ⟨hfile, hspan, hmetadata, hcontent⟩ := Definition.mk.inj hbare
  refine ⟨hspan ▸ h.cuts, ?_, ?_, hmetadata ▸ h.tags⟩
  · rw [← Content.placed_bare, hcontent, hspan, Content.placed_bare]
    exact h.content
  · rw [howned, hfile, hspan]
    exact h.symbols

end Definition

end Bare

/-! ### Checking -/

namespace Walk

variable {w : Walk} {globals : Bindings}

/-- A node is given a type, and nothing else. -/
theorem bare_conclude (w : Walk) (e : Expr) (rule : Walk → Option Ty × Walk) :
    (w.conclude e rule).1.bare = e.bare := by
  rw [conclude]
  split
  · rfl
  · dsimp only
    split
    · rfl
    · exact e.bare_withType _

/-- A name is given its meaning and a type, and nothing else. -/
theorem bare_ident (w : Walk) (n : Note) (name : String) (symbol : Option Nat) :
    (w.ident globals n name symbol).1.bare = (Expr.ident n name symbol).bare := by
  rw [ident]
  split
  · rfl
  · split <;> rfl

/-- A checkpoint only replaces types. -/
theorem bare_checkpoint (w : Walk) (e : Expr) : (w.checkpoint e).1.bare = e.bare := by
  rw [checkpoint]
  split
  · rfl
  · dsimp only
    split
    · rfl
    · exact e.bare_mapTypes _

variable [Table.RootChoice]

/-- **Checking an expression leaves its bare form alone**, whether or not it comes to its end. -/
theorem bare_expr (e : Expr) (w : Walk) : (expr globals e w).1.bare = e.bare := by
  refine expr_of_rules globals (P := fun e w ↦ (expr globals e w).1.bare = e.bare) ?_ ?_ e w
  · intro n name symbol w
    rw [expr_ident, bare_ident]
  · intro e e' w htop hparts heach
    rw [expr_eq_conclude htop hparts, bare_conclude]
    exact htop.bare_eq (hparts ▸ heach.map_eq)

theorem bare_unlabelled (w : Walk) (e : Expr) : (w.unlabelled globals e).1.bare = e.bare := by
  rw [unlabelled, bare_checkpoint, bare_expr]

theorem bare_labelled (w : Walk) (label : Ty) (init : Expr) :
    (w.labelled globals label init).1.bare = init.bare := by
  show (checkpoint _ _).1.bare = _
  rw [bare_checkpoint, bare_expr]

/-- A variable keeps its initial value up to types, and everything else. -/
theorem bare_letVar (w : Walk) (v : Variable) : (w.letVar globals v).1.bare = v.bare := by
  rw [letVar]
  split
  · rfl
  · split
    · rename_i hinit
      exact Variable.bare_init hinit (bare_labelled w _ _)
    · rfl
    · rename_i hinit
      exact Variable.bare_init hinit (bare_unlabelled w _)
    · split <;> rfl

theorem bare_stmt (w : Walk) (s : Stmt) : (w.stmt globals s).1.bare = s.bare := by
  cases s with
  | letVar v => exact congrArg Stmt.letVar (bare_letVar w v)
  | expr e => exact congrArg Stmt.expr (bare_unlabelled w e)

/-- No statement is added, removed or moved. -/
theorem bare_stmts (ss : List Stmt) (w : Walk) :
    (w.stmts globals ss).1.map Stmt.bare = ss.map Stmt.bare := by
  induction ss generalizing w with
  | nil => rfl
  | cons s ss ih => rw [stmts_cons, List.map_cons, List.map_cons, bare_stmt, ih]

theorem bare_body (w : Walk) (b? : Option Block) :
    (w.body globals b?).1.map Block.bare = b?.map Block.bare := by
  cases b? with
  | none => rfl
  | some b =>
    show some ({ b with stmts := (w.push.stmts globals b.stmts).1 } : Block).bare = some b.bare
    rw [Block.bare, Block.bare, bare_stmts]

theorem bare_global (w : Walk) (v : Variable) : (w.global globals v).1.bare = v.bare := by
  rw [global]
  split
  · rfl
  · split
    · rfl
    · rename_i hinit
      exact Variable.bare_init hinit (bare_labelled w _ _)
    · rfl

/-- **Checking leaves the bare form of a definition alone.** -/
theorem bare_content (w : Walk) (c : Definition.Content) :
    (w.content globals c).1.bare = c.bare := by
  cases c with
  | function symbol params result body? =>
    exact congrArg (Definition.Content.function symbol params result) (bare_body _ body?)
  | global v => exact congrArg Definition.Content.global (bare_global w v)

variable (globals) in
/-- **Checking fills in types and meanings**, and leaves all else of a definition alone. -/
theorem bare_definition (w : Walk) (d : Definition) : (w.definition globals d).1.bare = d.bare := by
  cases h : ((w.enter d.file).tags d).halted with
  | true => rw [definition_of_halted h]
  | false =>
    rw [definition_of_tags h, Definition.bare, Definition.bare]
    dsimp only
    rw [bare_content]

end Walk

/-- The definitions of a checked program are those that there were, apart from what was found
out. -/
theorem Program.bare_check [Table.RootChoice] (p : Program) :
    p.check.program.definitions.map Definition.bare = p.definitions.map Definition.bare := by
  have h : p.check.program.definitions = _ := Walk.definitions_fst p.definitions _
  rw [h, List.map_map]
  exact Walk.map_stages fun x _ ↦ Walk.bare_definition p.globals x.1 x.2

end FrontEnd
