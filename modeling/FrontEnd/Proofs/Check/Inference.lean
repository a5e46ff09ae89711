import FrontEnd.Proofs.Check.Lasting

/-!
# Literals get types exactly if they can

A literal may have many types, and checking does not choose: it makes a hole, and what is asked of
the hole narrows it down. The question is whether this loses anything. For expressions without casts
and dereferences it does not: checking finds something wrong **exactly if** no choice of types for
the literals makes the expression well typed (`Walk.findings_expr_eq_iff`).

What well typed means is said by rules (`Expr.HasType`) in which the type of a literal is simply
any type that suits it. A table of holes and the rules are two descriptions of the same set of
types, and this is the invariant of the walk (`Walk.Infers`): the types that solutions of the table
give to an expression are the types that the expression has by the rules. One half is soundness.
The other half is completeness, and there a solution of the table as it was before the expression
has to be extended to the holes that the expression has added, without a change to the old ones.

Each rule of the walk then needs two facts. If it is content, it keeps exactly the solutions under
which the types of the parts obey the rule of the node; if it is not, there are none. Calls are
restricted to names of functions, since the type of anything else that is called may be undecided.
-/

namespace FrontEnd

open Table

namespace Expr

/-! ### The rules -/

/-- An expression **has a type** if there is a choice of a concrete type for each of its literals
under which it is well typed and has this type, where names have the types that `Γ` gives them.

* An integer literal may have any number type, a float literal any float type, and `null` any type;
  runes are `i32` and booleans `bool`.
* The operand of a negation is a number.
* The operands of an operator have one type, which the operator applies to.
* The arguments of a call have the types of the parameters. -/
inductive HasType (Γ : String → Option Ty) : Expr → Ty → Prop
  | literal {n : Note} {c : Constant} {a : Ty} (h : constantRule (some a) c)
    (ha : a.isConcrete = true) : HasType Γ (constant n c) a
  | name {n : Note} {name : String} {symbol : Option Nat} {a : Ty} (h : Γ name = some a) :
    HasType Γ (ident n name symbol) a
  | negate {n : Note} {e : Expr} {a : Ty} (h : HasType Γ e a) (ha : a.isNumeric = true) :
    HasType Γ (unary n .negate e) a
  | address {n : Note} {e : Expr} {a : Ty} (h : HasType Γ e a) :
    HasType Γ (unary n .address e) (.pointer false a)
  | binary {n : Note} {op : BinOp} {l r : Expr} {a : Ty} (hl : HasType Γ l a) (hr : HasType Γ r a)
    (ha : op.appliesTo a = true) : HasType Γ (binary n op l r) a
  | call {n : Note} {f : Expr} {args : List Expr} {ps : List Ty} {r : Ty}
    (hf : HasType Γ f (.func ps r)) (hargs : List.Forall₂ (HasType Γ) args ps) :
    HasType Γ (call n f args) r

/-- The expressions without casts and dereferences, in which every name has a concrete type, and
only names of functions are called, with as many arguments as they have parameters. -/
inductive Plain (Γ : String → Option Ty) : Expr → Prop
  | literal {n : Note} {c : Constant} : Plain Γ (constant n c)
  | name {n : Note} {name : String} {symbol : Option Nat} {a : Ty} (h : Γ name = some a)
    (ha : a.isConcrete = true) : Plain Γ (ident n name symbol)
  | negate {n : Note} {e : Expr} (h : Plain Γ e) : Plain Γ (unary n .negate e)
  | address {n : Note} {e : Expr} (h : Plain Γ e) : Plain Γ (unary n .address e)
  | binary {n : Note} {op : BinOp} {l r : Expr} (hl : Plain Γ l) (hr : Plain Γ r) :
    Plain Γ (binary n op l r)
  | call {n m : Note} {name : String} {symbol : Option Nat} {args : List Expr} {ps : List Ty}
    {r : Ty} (h : Γ name = some (.func ps r)) (hconcrete : (Ty.func ps r).isConcrete = true)
    (hlen : ps.length = args.length) (hargs : ∀ e ∈ args, Plain Γ e) :
    Plain Γ (call n (ident m name symbol) args)

section

variable {Γ : String → Option Ty} {n : Note} {a b : Ty} {e l r f : Expr} {args : List Expr}

/-- A literal with a hole may have the types that the limit of the hole admits, -/
theorem constantRule_iff_admits {c : Constant} {k : HoleKind} (h : c.kind? = some k) :
    constantRule (some a) c ↔ k.admits a = true := by
  cases c <;> cases h <;> simp [constantRule, HoleKind.admits]

/-- and another one has a type of its own. -/
theorem constantRule_iff_type? {c : Constant} (h : c.kind? = none) :
    constantRule (some a) c ↔ c.type? = some a := by
  cases c <;> cases h <;> exact eq_comm

/-- What a rule says about the parts of a node, given one type for each. -/
theorem hasType_negate_iff : HasType Γ (unary n .negate e) b ↔
    ∃ as, List.Forall₂ (HasType Γ) [e] as ∧ as = [b] ∧ b.isNumeric = true := by
  constructor
  · rintro ⟨⟩
    exact ⟨[b], .cons ‹_› .nil, rfl, ‹_›⟩
  · rintro ⟨_, has, rfl, hb⟩
    exact .negate (List.forall₂_cons.1 has).1 hb

theorem hasType_address_iff : HasType Γ (unary n .address e) b ↔
    ∃ as, List.Forall₂ (HasType Γ) [e] as ∧ ∃ a, as = [a] ∧ b = .pointer false a := by
  constructor
  · rintro ⟨⟩
    exact ⟨[_], .cons ‹_› .nil, _, rfl, rfl⟩
  · rintro ⟨_, has, a, rfl, rfl⟩
    exact .address (List.forall₂_cons.1 has).1

theorem hasType_binary_iff {op : BinOp} : HasType Γ (binary n op l r) b ↔
    ∃ as, List.Forall₂ (HasType Γ) [l, r] as ∧ as = [b, b] ∧ op.appliesTo b = true := by
  constructor
  · rintro ⟨⟩
    exact ⟨[b, b], .cons ‹_› (.cons ‹_› .nil), rfl, ‹_›⟩
  · rintro ⟨_, has, rfl, hb⟩
    obtain ⟨hl, hr⟩ := List.forall₂_cons.1 has
    exact .binary hl (List.forall₂_cons.1 hr).1 hb

theorem hasType_call_iff : HasType Γ (call n f args) b ↔
    ∃ as, List.Forall₂ (HasType Γ) (f :: args) as ∧ ∃ ps, as = .func ps b :: ps := by
  constructor
  · rintro ⟨⟩
    exact ⟨_, .cons ‹_› ‹_›, _, rfl⟩
  · rintro ⟨_, has, ps, rfl⟩
    obtain ⟨hf, hargs⟩ := List.forall₂_cons.1 has
    exact .call hf hargs

end

end Expr

namespace Walk

open FrontEnd.Expr (HasType Plain)

variable {Γ : String → Option Ty} {globals : Bindings} {w v x : Walk} {S A B : Set Nat}

/-- The type of the symbol that a name means. -/
def typeOfName? (w : Walk) (globals : Bindings) (name : String) : Option Ty :=
  (w.scope.lookup globals name).bind w.symbolType?

theorem Advances.typeOfName? (h : Advances w S v) (name : String) :
    v.typeOfName? globals name = w.typeOfName? globals name := by
  rw [Walk.typeOfName?, Walk.typeOfName?, h.scope_eq]
  exact congrArg _ (funext fun i ↦ by rw [symbolType?, symbolType?, h.symbols_eq])

/-! ### The invariant -/

/-- **What a walk without errors knows** of the expressions `es`, which it has turned into `es'` of
the types `as`: under the solutions of the table, these types are the types that the expressions
have by the rules. -/
structure Infers (Γ : String → Option Ty) (w : Walk) (es es' : List Expr) (as : List Ty)
    (S : Set Nat) (v : Walk) : Prop extends Advances w S v where
  /-- Nothing was found wrong, -/
  findings_eq : v.findings = w.findings
  /-- and the walk goes on. -/
  running : v.halted = false
  /-- Every expression has got a type, -/
  types : es'.map Expr.type? = as.map some
  /-- a chain over the live holes. -/
  within : ∀ a ∈ as, a.Within S ∧ a.isChain = true
  /-- A solution gives types that the expressions have. -/
  sound : ∀ s, v.table.Solution s → List.Forall₂ (HasType Γ) es (as.map (Ty.subst s))
  /-- Types that the expressions have are given by a solution, whatever the holes that were there
  before are. -/
  complete : ∀ s bs, w.table.Solution s → List.Forall₂ (HasType Γ) es bs →
    ∃ s', v.table.Solution s' ∧ (∀ i < w.table.size, s' i = s i) ∧ as.map (Ty.subst s') = bs

namespace Infers

variable {es es' fs fs' : List Expr} {as bs : List Ty}

theorem nil (hw : w.table.Tidy) (hrunning : w.halted = false) : Infers Γ w [] [] [] ∅ w where
  toAdvances := .refl hw
  findings_eq := rfl
  running := hrunning
  types := rfl
  within _ ha := absurd ha List.not_mem_nil
  sound _ _ := .nil
  complete s bs hs hbs := by
    obtain rfl := List.forall₂_nil_left_iff.1 hbs
    exact ⟨s, hs, fun _ _ ↦ rfl, rfl⟩

/-- The types of the trees are over the live holes. -/
theorem typedIn (h : Infers Γ w es es' as S v) : ∀ e ∈ es', e.TypedIn S := by
  intro e he a ha
  have hmem : some a ∈ as.map some := h.types ▸ ha ▸ List.mem_map_of_mem he
  obtain ⟨b, hb, heq⟩ := List.mem_map.1 hmem
  obtain rfl := Option.some.inj heq
  exact h.within b hb

theorem exists_singleton {e e' : Expr} (h : Infers Γ w [e] [e'] as S v) : ∃ a, as = [a] := by
  have hlen := congrArg List.length h.types
  rw [List.length_map, List.length_map] at hlen
  exact List.length_eq_one_iff.1 hlen.symm

/-- A type over holes that were there means the same under assignments that agree on them. -/
theorem map_subst_congr (h : Infers Γ w es es' as S v) {s s' : Nat → Ty}
    (hs : ∀ i < v.table.size, s' i = s i) : as.map (Ty.subst s') = as.map (Ty.subst s) :=
  List.map_congr_left fun a ha ↦
    Ty.subst_congr fun i hi ↦ hs i (h.new ((h.within a ha).1 i hi)).2

/-- Runs can be put one behind another. -/
theorem cons {e e' : Expr} {a : Ty} (h : Infers Γ w [e] [e'] [a] A v)
    (h' : Infers Γ v es es' as B x) :
    Infers Γ w (e :: es) (e' :: es') (a :: as) (A ∪ B) x where
  toAdvances := h.toAdvances.trans h'.toAdvances
  findings_eq := h'.findings_eq.trans h.findings_eq
  running := h'.running
  types := by
    have htype := h.types
    simp only [List.map_cons, List.map_nil, List.cons.injEq, and_true] at htype
    rw [List.map_cons, List.map_cons, htype, h'.types]
  within b hb := by
    rcases List.mem_cons.1 hb with rfl | hb
    · obtain ⟨hwithin, hchain⟩ := h.within b (List.mem_singleton.2 rfl)
      exact ⟨hwithin.mono Set.subset_union_left, hchain⟩
    · obtain ⟨hwithin, hchain⟩ := h'.within b hb
      exact ⟨hwithin.mono Set.subset_union_right, hchain⟩
  sound s hs := by
    have hhead := h.sound s (h'.grows.solution hs)
    exact .cons (List.forall₂_cons.1 hhead).1 (h'.sound s hs)
  complete s bs hs hbs := by
    cases hbs with
    | @cons _ b _ bs hb hbs =>
      obtain ⟨s₁, hs₁, hagree₁, hhead⟩ := h.complete s [b] hs (.cons hb .nil)
      obtain ⟨s₂, hs₂, hagree₂, htail⟩ := h'.complete s₁ bs hs₁ hbs
      have hsame := h.map_subst_congr hagree₂
      refine ⟨s₂, hs₂, fun i hi ↦ ?_, ?_⟩
      · rw [hagree₂ i (Nat.lt_of_lt_of_le hi h.grows.size_le), hagree₁ i hi]
      · rw [List.map_cons, htail]
        rw [hhead] at hsame
        exact congrArg (· :: bs) (List.cons.inj hsame).1

/-- **A rule that is content.** If the node has a type exactly if its parts have types in `R`, and
asking for the rule keeps exactly the solutions under which their types are in `R`, then the walk
knows as much of the node as of its parts. -/
theorem node {T : Set Nat} {e e' : Expr} {c : Ty} {R : List Ty → Ty → Prop}
    (h : Infers Γ w es es' as S v) (hasks : Asks S v x) (hclean : x.findings = v.findings)
    (hrunning : x.halted = false)
    (htype : e'.type? = some c) (hT : x.table.Closed T) (hTS : T ⊆ S)
    (hc : c.Within T ∧ c.isChain = true)
    (hrule : ∀ b, HasType Γ e b ↔ ∃ bs, List.Forall₂ (HasType Γ) es bs ∧ R bs b)
    (hok : ∀ s, x.table.Solution s ↔ v.table.Solution s ∧ R (as.map (Ty.subst s)) (c.subst s))
    (hunique : ∀ s b, v.table.Solution s → R (as.map (Ty.subst s)) b → b = c.subst s) :
    Infers Γ w [e] [e'] [c] T x where
  toAdvances := (h.toAdvances.asks hasks).shrink hT hTS
  findings_eq := hclean.trans h.findings_eq
  running := hrunning
  types := by rw [List.map_singleton, htype, List.map_singleton]
  within b hb := List.mem_singleton.1 hb ▸ hc
  sound s hs := by
    obtain ⟨hv, hR⟩ := (hok s).1 hs
    exact .cons ((hrule _).2 ⟨_, h.sound s hv, hR⟩) .nil
  complete s bs hs hbs := by
    cases hbs with
    | @cons _ b _ _ hb hnil =>
      obtain rfl := List.forall₂_nil_left_iff.1 hnil
      obtain ⟨bs, hbs, hR⟩ := (hrule b).1 hb
      obtain ⟨s', hs', hagree, rfl⟩ := h.complete s bs hs hbs
      have hb := hunique s' b hs' hR
      exact ⟨s', (hok s').2 ⟨hs', hb ▸ hR⟩, hagree, by rw [hb, List.map_singleton]⟩

end Infers

/-- **How a walk over expressions ends**: without errors, and then it knows their types; or with
one, and then they have none. -/
def Answers (Γ : String → Option Ty) (w : Walk) (es : List Expr) (r : List Expr × Walk) : Prop :=
  (∃ as S, Infers Γ w es r.1 as S r.2) ∨
    (r.2.findings ≠ w.findings ∧ ∀ bs, ¬ List.Forall₂ (HasType Γ) es bs)

/-- **A rule that is not content**: if no solution gives the parts types in `R`, the node has no
type. -/
theorem Infers.error {es es' : List Expr} {as : List Ty} {e e' : Expr} {R : List Ty → Ty → Prop}
    (h : Infers Γ w es es' as S v) (hw : w.table.Tidy)
    (hrule : ∀ b, HasType Γ e b ↔ ∃ bs, List.Forall₂ (HasType Γ) es bs ∧ R bs b)
    (hne : x.findings ≠ v.findings)
    (hfails : ∀ s b, v.table.Solution s → ¬ R (as.map (Ty.subst s)) b) :
    Answers Γ w [e] ([e'], x) := by
  refine .inr ⟨h.findings_eq ▸ hne, fun bs hbs ↦ ?_⟩
  obtain ⟨b, -, hb, -, -⟩ := List.forall₂_cons_left_iff.1 hbs
  obtain ⟨bs, hbs, hR⟩ := (hrule b).1 hb
  obtain ⟨s, hs⟩ := exists_solution hw.valid hw.acyclic
  obtain ⟨s', hs', -, rfl⟩ := h.complete s bs hs hbs
  exact hfails s' b hs' hR

theorem conclude_of_halted_eq_false {e : Expr} {rule : Walk → Option Ty × Walk}
    (hw : w.halted = false) (hrule : (rule w).2.halted = false) :
    w.conclude e rule = (e.withType (rule w).1, (rule w).2) := by
  rw [conclude, if_neg (by simp [hw])]
  exact if_neg (by simp [hrule])

/-! ### Leaves -/

/-- An expression that has exactly one type, a concrete one. -/
theorem infers_of_isConcrete (hw : w.table.Tidy) (hrunning : w.halted = false) {e e' : Expr}
    {a : Ty} (htype : e'.type? = some a) (ha : a.isConcrete = true)
    (hrule : ∀ b, HasType Γ e b ↔ b = a) : Infers Γ w [e] [e'] [a] ∅ w := by
  refine (Infers.nil hw hrunning).node (R := fun bs b ↦ bs = [] ∧ b = a) (.refl w) rfl hrunning
    htype (.empty _) (Set.Subset.refl _)
    ⟨Ty.within_of_isConcrete ha, Ty.isChain_of_isConcrete ha⟩ ?_ ?_ ?_
  · intro b
    rw [hrule]
    exact ⟨fun hb ↦ ⟨[], .nil, rfl, hb⟩, fun ⟨_, _, _, hb⟩ ↦ hb⟩
  · intro s
    rw [Ty.subst_of_isConcrete ha]
    exact ⟨fun hs ↦ ⟨hs, rfl, rfl⟩, And.left⟩
  · rintro s b - ⟨-, rfl⟩
    exact (Ty.subst_of_isConcrete ha s).symm

/-- A literal with a type of its own. -/
theorem infers_constant_of_type? (hw : w.table.Tidy) (hrunning : w.halted = false) (n : Note)
    {c : Constant} (hkind : c.kind? = none) : ∃ a, Infers Γ w [.constant n c]
      [(Expr.constant n c).withType c.type?] [a] ∅ w := by
  obtain ⟨a, ha, hconcrete⟩ : ∃ a, c.type? = some a ∧ a.isConcrete = true := by
    cases c <;> cases hkind <;> exact ⟨_, rfl, rfl⟩
  refine ⟨a, infers_of_isConcrete hw hrunning (by rw [Expr.type?_withType, ha]) hconcrete ?_⟩
  intro b
  constructor
  · rintro ⟨h, -⟩
    exact Option.some.inj (((Expr.constantRule_iff_type? hkind).1 h).symm.trans ha)
  · rintro rfl
    exact .literal ((Expr.constantRule_iff_type? hkind).2 ha) hconcrete

/-- A literal that gets a hole. -/
theorem infers_constant_of_kind? (hw : w.table.Tidy) (hrunning : w.halted = false) (n : Note)
    {c : Constant} {k : HoleKind} (hkind : c.kind? = some k) : Infers Γ w [.constant n c]
      [(Expr.constant n c).withType (some (.hole w.table.size))] [.hole w.table.size]
      (Set.Ico w.table.size (w.table.fresh k).size)
      { w with table := w.table.fresh k, waiting := w.waiting ++ [⟨w.table.size, n.span⟩] } := by
  have hchecked : Checked [] [] w _ _ _ := Checked.constant_of_kind? hw n hkind
  have hnew : w.table.size < (w.table.fresh k).size := by rw [size_fresh]; exact Nat.lt_succ_self _
  refine { hchecked.toAdvances with
    findings_eq := rfl
    running := hrunning
    types := by rw [List.map_singleton, Expr.type?_withType, List.map_singleton]
    within := fun a ha ↦ ?_
    sound := fun s hs ↦ ?_
    complete := fun s bs hs hbs ↦ ?_ }
  · obtain rfl := List.mem_singleton.1 ha
    refine ⟨fun i hi ↦ ?_, rfl⟩
    obtain rfl := List.mem_singleton.1 hi
    exact ⟨Nat.le_refl _, hnew⟩
  · have hadmits := hs.admitted hnew
    rw [kind, classOf_fresh, if_pos rfl] at hadmits
    exact .cons (.literal ((Expr.constantRule_iff_admits hkind).2 hadmits) (hs.concrete hnew)) .nil
  · obtain ⟨b, bs, hb, hnil, rfl⟩ := List.forall₂_cons_left_iff.1 hbs
    obtain rfl := List.forall₂_nil_left_iff.1 hnil
    obtain ⟨hallowed, hconcrete⟩ := hb
    have hadmits := (Expr.constantRule_iff_admits hkind).1 hallowed
    refine ⟨_, solution_fresh hw.valid hs hconcrete hadmits, fun i hi ↦ if_neg (Nat.ne_of_lt hi),
      ?_⟩
    rw [List.map_singleton, Ty.subst_hole, if_pos rfl]

/-! ### Nodes -/

variable {e e' l l' r r' : Expr} {a b : Ty}

theorem answers_negate (h : Infers Γ w [e] [e'] [a] S v) (hw : w.table.Tidy) (n : Note) :
    Answers Γ w [.unary n .negate e]
      ([(v.conclude (.unary n .negate e') fun v ↦ v.unaryType .negate e').1],
        (v.conclude (.unary n .negate e') fun v ↦ v.unaryType .negate e').2) := by
  have htype : e'.type? = some a := (List.cons.inj h.types).1
  have he := h.typedIn e' (List.mem_singleton.2 rfl)
  have hcovers := h.closed.covers (he a htype).1
  have hasks := asks_negateType h.tidy h.closed he
  rcases negateType_cases (w := v) htype with ⟨t, ht, heq⟩ | ⟨t, err, ht, heq⟩
  · rw [conclude_of_halted_eq_false h.running (by rw [unaryType, heq]; exact h.running), unaryType,
      heq]
    rw [heq] at hasks
    refine .inl ⟨[a], S, h.node hasks rfl h.running rfl (hasks.closed h.closed)
      (Set.Subset.refl S) (he a htype) (fun b ↦ Expr.hasType_negate_iff) ?_ ?_⟩
    · exact fun s ↦ (solution_requireLimit h.tidy.valid hcovers ht).trans
        (and_congr_right fun _ ↦ (and_iff_right rfl).symm)
    · exact fun s b _ hb ↦ (List.cons.inj hb.1).1.symm
  · refine h.error hw (fun b ↦ Expr.hasType_negate_iff) ?_ fun s b hs hR ↦ ?_
    · rw [conclude_snd h.running, unaryType, heq]
      exact findings_record_ne _ err
    · have hfalse := no_solution_of_requireLimit h.tidy.valid h.tidy.acyclic hcovers
        (congrArg Prod.fst ht) hs
      rw [(List.cons.inj hR.1).1] at hfalse
      exact absurd (hfalse.symm.trans hR.2) Bool.false_ne_true

theorem answers_address (h : Infers Γ w [e] [e'] [a] S v) (n : Note) :
    Answers Γ w [.unary n .address e]
      ([(v.conclude (.unary n .address e') fun v ↦ v.unaryType .address e').1],
        (v.conclude (.unary n .address e') fun v ↦ v.unaryType .address e').2) := by
  have htype : e'.type? = some a := (List.cons.inj h.types).1
  have he := h.typedIn e' (List.mem_singleton.2 rfl) a htype
  rw [conclude_of_halted_eq_false h.running h.running, unaryType, htype]
  refine .inl ⟨[.pointer false a], S, h.node (.refl v) rfl h.running rfl h.closed
    (Set.Subset.refl S) he (fun b ↦ Expr.hasType_address_iff) ?_ ?_⟩
  · exact fun s ↦ ⟨fun hs ↦ ⟨hs, _, rfl, rfl⟩, And.left⟩
  · rintro s b - ⟨c, hc, rfl⟩
    rw [Ty.subst_pointer, (List.cons.inj hc).1]

/-- Two types under a substitution are twice the same type. -/
theorem map_subst_pair {s : Nat → Ty} {c : Ty} :
    [a, b].map (Ty.subst s) = [c, c] ↔ a.subst s = b.subst s ∧ a.subst s = c := by
  rw [List.map_cons, List.map_singleton, List.cons.injEq, List.cons.injEq]
  constructor
  · rintro ⟨rfl, hb, -⟩
    exact ⟨hb.symm, rfl⟩
  · rintro ⟨hab, rfl⟩
    exact ⟨rfl, hab.symm, rfl⟩

section Nodes

variable [RootChoice]

theorem length_exprs (es : List Expr) (w : Walk) :
    (exprs globals es w).1.length = es.length := by
  induction es generalizing w with
  | nil => rw [exprs]
  | cons e es ih => rw [exprs_cons, List.length_cons, ih, List.length_cons]

theorem answers_constant (hw : w.table.Tidy) (hrunning : w.halted = false) (n : Note)
    (c : Constant) : Answers Γ w [.constant n c]
      ([(expr globals (.constant n c) w).1], (expr globals (.constant n c) w).2) := by
  rw [expr_constant]
  cases hkind : c.kind? with
  | none =>
    have hrule : w.constantType n.span c = (c.type?, w) := by rw [constantType, hkind]
    obtain ⟨a, ha⟩ := infers_constant_of_type? (Γ := Γ) hw hrunning n hkind
    rw [conclude_of_halted_eq_false hrunning (by rw [hrule]; exact hrunning), hrule]
    exact .inl ⟨[a], ∅, ha⟩
  | some k =>
    have hrule : w.constantType n.span c = (some (.hole w.table.size),
        { w with table := w.table.fresh k, waiting := w.waiting ++ [⟨w.table.size, n.span⟩] }) := by
      rw [constantType, hkind]
    rw [conclude_of_halted_eq_false hrunning (by rw [hrule]; exact hrunning), hrule]
    exact .inl ⟨_, _, infers_constant_of_kind? hw hrunning n hkind⟩

/-- A name whose symbol has a concrete type. -/
theorem infers_ident (hw : w.table.Tidy) (hrunning : w.halted = false)
    (hΓ : ∀ name, w.typeOfName? globals name = Γ name) (n : Note) {name : String}
    (symbol : Option Nat) {a : Ty} (h : Γ name = some a) (ha : a.isConcrete = true) :
    Infers Γ w [.ident n name symbol] [(expr globals (.ident n name symbol) w).1] [a] ∅
      (expr globals (.ident n name symbol) w).2 := by
  obtain ⟨i, hi, htype⟩ := Option.bind_eq_some_iff.1 ((hΓ name).trans h)
  have hrun : expr globals (.ident n name symbol) w =
      (.ident { n with type? := w.symbolType? i } name (some i), w) := by
    rw [expr_ident, Walk.ident, if_neg (by simp [hrunning]), hi]
  rw [hrun]
  refine infers_of_isConcrete hw hrunning htype ha fun b ↦ ?_
  constructor
  · rintro ⟨⟩
    exact Option.some.inj (‹Γ name = some b›.symm.trans h)
  · rintro rfl
    exact .name h

theorem answers_binary (hl : Infers Γ w [l] [l'] [a] A v) (hr : Infers Γ v [r] [r'] [b] B x)
    (hw : w.table.Tidy) (n : Note) (op : BinOp) :
    Answers Γ w [.binary n op l r]
      ([(x.conclude (.binary n op l' r') fun x ↦ x.binaryType n.span op l' r').1],
        (x.conclude (.binary n op l' r') fun x ↦ x.binaryType n.span op l' r').2) := by
  have h := hl.cons hr
  have hltype : l'.type? = some a := (List.cons.inj hl.types).1
  have hrtype : r'.type? = some b := (List.cons.inj hr.types).1
  have hltyped := hl.typedIn l' (List.mem_singleton.2 rfl)
  have hrtyped := hr.typedIn r' (List.mem_singleton.2 rfl)
  obtain ⟨hla, hlchain⟩ := hltyped a hltype
  obtain ⟨hrb, hrchain⟩ := hrtyped b hrtype
  have hA := hr.grows.closed_of_closed hl.closed
  have hca := hA.covers hla
  have hcb := hr.closed.covers hrb
  have hdisjoint := hl.toAdvances.disjoint hr.toAdvances
  have hasks := asks_binaryType hr.tidy hA hr.closed hdisjoint hltyped hrtyped n.span op
  have htidy := (evolves_unify hr.tidy hA hr.closed hdisjoint hla hlchain hrb hrchain).tidy hr.tidy
  have hsize := (becomes_unify hr.tidy.valid hca hcb).covers_iff (a := a)
  rcases binaryType_cases (w := x) hltype hrtype n.span op with
    ⟨t, err, ht, heq⟩ | ⟨t, ht, ⟨u, hu, heq⟩ | ⟨u, err, hu, heq⟩⟩
  · -- the operands cannot be made to agree
    refine h.error hw (fun b ↦ Expr.hasType_binary_iff) ?_ fun s c hs hR ↦ ?_
    · rw [conclude_snd h.running, heq]
      exact findings_record_ne _ err
    · have hcomplete := complete_unify hr.tidy.valid hca hcb htidy.acyclic
      exact hcomplete.no_solution (congrArg Prod.fst ht) s hs (map_subst_pair.1 hR.1).1
  · rw [conclude_of_halted_eq_false h.running (by rw [heq]; exact h.running), heq]
    rw [heq] at hasks
    rw [ht] at htidy hsize
    refine .inl ⟨[a], A ∪ B, h.node hasks rfl h.running rfl (hasks.closed h.closed)
      (Set.Subset.refl _) ⟨hla.mono Set.subset_union_left, hlchain⟩
      (fun b ↦ Expr.hasType_binary_iff) (fun s ↦ ?_) ?_⟩
    · show u.Solution s ↔ _
      rw [solution_requireLimit htidy.valid (hsize.2 hca) hu,
        solution_unify hr.tidy.valid hca hcb ht, BinOp.admits_limit, and_assoc, map_subst_pair]
      simp only [and_true]
    · exact fun s c _ hc ↦ (map_subst_pair.1 hc.1).2.symm
  · -- they agree, but not on a type that the operator applies to
    refine h.error hw (fun b ↦ Expr.hasType_binary_iff) ?_ fun s c hs hR ↦ ?_
    · rw [conclude_snd h.running, heq]
      exact findings_record_ne _ err
    · rw [ht] at htidy hsize
      obtain ⟨hab, hac⟩ := map_subst_pair.1 hR.1
      have hfalse := no_solution_of_requireLimit htidy.valid htidy.acyclic (hsize.2 hca)
        (congrArg Prod.fst hu) ((solution_unify hr.tidy.valid hca hcb ht).2 ⟨hs, hab⟩)
      rw [BinOp.admits_limit, hac] at hfalse
      exact nomatch hfalse.symm.trans hR.2

/-- **Demands on arguments** are met exactly under the solutions that give the arguments the types
of the parameters. If they are not met, there is no such solution. -/
theorem requireAll_cases (ps : List Ty) (es : List Expr) (as : List Ty) (w : Walk)
    (hw : w.table.Tidy) (hrunning : w.halted = false) (hS : w.table.Closed S)
    (htypes : es.map Expr.type? = as.map some)
    (has : ∀ a ∈ as, a.Within S ∧ a.isChain = true) (hps : ∀ p ∈ ps, p.isConcrete = true)
    (hlen : ps.length = es.length) :
    ((w.requireAll ps es).findings = w.findings ∧ (w.requireAll ps es).halted = false ∧
      ∀ s, (w.requireAll ps es).table.Solution s ↔
        w.table.Solution s ∧ as.map (Ty.subst s) = ps) ∨
      ((w.requireAll ps es).findings ≠ w.findings ∧
        ∀ s, w.table.Solution s → as.map (Ty.subst s) ≠ ps) := by
  induction ps generalizing es as w with
  | nil =>
    obtain rfl := List.length_eq_zero_iff.1 hlen.symm
    obtain rfl : as = [] := List.map_eq_nil_iff.1 htypes.symm
    exact .inl ⟨rfl, hrunning, fun s ↦ ⟨fun hs ↦ ⟨hs, rfl⟩, And.left⟩⟩
  | cons p ps ih =>
    obtain ⟨e, es, rfl⟩ := List.exists_cons_of_length_eq_add_one hlen.symm
    obtain ⟨a, as, rfl⟩ : ∃ a as', as = a :: as' := by
      cases as with
      | nil => exact nomatch htypes
      | cons a as => exact ⟨a, as, rfl⟩
    obtain ⟨htype, htypes⟩ := List.cons.inj htypes
    obtain ⟨ha, hchain⟩ := has a List.mem_cons_self
    have hp := hps p List.mem_cons_self
    have hcp := w.table.covers_of_isConcrete hp
    have hca := hS.covers ha
    have hevolves := evolves_unify_of_isConcrete hw hS hp ha hchain
    have hps' : ∀ q ∈ ps, q.isConcrete = true := fun q hq ↦ hps q (List.mem_cons_of_mem _ hq)
    have has' : ∀ b ∈ as, b.Within S ∧ b.isChain = true :=
      fun b hb ↦ has b (List.mem_cons_of_mem _ hb)
    rw [requireAll]
    rcases require_cases hrunning htype p with ⟨t, ht, heq⟩ | ⟨t, err, ht, herr, heq⟩
    · rw [heq]
      have hsolution : ∀ s, t.Solution s ↔ w.table.Solution s ∧ a.subst s = p := by
        intro s
        rw [solution_unify hw.valid hcp hca ht, Ty.subst_of_isConcrete hp, eq_comm (a := p)]
      rw [ht] at hevolves
      rcases ih es as (w.withTable t) (hevolves.tidy hw) hrunning (hevolves.closed hS) htypes has'
        hps' (Nat.succ.inj hlen) with ⟨hclean, hhalted, hrest⟩ | ⟨hne, hrest⟩
      · refine .inl ⟨hclean, hhalted, fun s ↦ ?_⟩
        rw [hrest s, show (w.withTable t).table = t from rfl, hsolution s, List.map_cons,
          List.cons.injEq, and_assoc]
      · refine .inr ⟨hne, fun s hs heq ↦ ?_⟩
        obtain ⟨hhead, htail⟩ := List.cons.inj heq
        exact hrest s ((hsolution s).2 ⟨hs, hhead⟩) htail
    · rw [heq, requireAll_of_halted (halted_record _ herr)]
      refine .inr ⟨findings_record_ne _ err, fun s hs heq ↦ ?_⟩
      have hcomplete := complete_unify hw.valid hcp hca (hevolves.tidy hw).acyclic
      refine hcomplete.no_solution (congrArg Prod.fst ht) s hs ?_
      rw [Ty.subst_of_isConcrete hp]
      exact (List.cons.inj heq).1.symm

theorem answers_call {f f' : Expr} {args args' : List Expr} {ps as : List Ty}
    (hf : Infers Γ w [f] [f'] [.func ps b] ∅ v) (hargs : Infers Γ v args args' as B x)
    (hw : w.table.Tidy) (hconcrete : (Ty.func ps b).isConcrete = true)
    (hlen : ps.length = args'.length) (n : Note) :
    Answers Γ w [.call n f args]
      ([(x.conclude (.call n f' args') fun x ↦ x.callType n.span f' args').1],
        (x.conclude (.call n f' args') fun x ↦ x.callType n.span f' args').2) := by
  have h := hf.cons hargs
  have hftype : f'.type? = some (.func ps b) := (List.cons.inj hf.types).1
  obtain ⟨hps, hb⟩ := Ty.isConcrete_func.1 hconcrete
  have hcall : x.callType n.span f' args' = (some b, x.requireAll ps args') := by
    rw [callType, hftype, Option.map_some, head_of_isConcrete hconcrete]
    exact if_pos hlen
  have hsubst : ∀ (s : Nat → Ty) (c : Ty), (∃ qs, (Ty.func ps b :: as).map (Ty.subst s) =
      .func qs c :: qs) ↔ as.map (Ty.subst s) = ps ∧ c = b := by
    intro s c
    rw [List.map_cons, Ty.subst_of_isConcrete hconcrete]
    constructor
    · rintro ⟨qs, heq⟩
      obtain ⟨hhead, htail⟩ := List.cons.inj heq
      obtain ⟨rfl, rfl⟩ := Ty.func.inj hhead
      exact ⟨htail, rfl⟩
    · rintro ⟨heq, rfl⟩
      exact ⟨ps, by rw [heq]⟩
  rcases requireAll_cases ps args' as x hargs.tidy hargs.running hargs.closed hargs.types
    hargs.within hps hlen with ⟨hclean, hhalted, hsolution⟩ | ⟨hne, hnone⟩
  · rw [conclude_of_halted_eq_false h.running (by rw [hcall]; exact hhalted), hcall]
    have hasks := (asks_requireAll ps args' x hargs.tidy hargs.closed hargs.typedIn hps).mono
      (Set.subset_union_right (s := ∅))
    refine .inl ⟨[b], ∅, h.node hasks hclean hhalted rfl (.empty _) (Set.empty_subset _)
      ⟨Ty.within_of_isConcrete hb, Ty.isChain_of_isConcrete hb⟩
      (fun c ↦ Expr.hasType_call_iff) (fun s ↦ ?_) fun s c _ hc ↦ ?_⟩
    · rw [hsubst, Ty.subst_of_isConcrete hb, and_iff_left rfl]
      exact hsolution s
    · rw [Ty.subst_of_isConcrete hb]
      exact ((hsubst s c).1 hc).2
  · refine h.error hw (fun c ↦ Expr.hasType_call_iff) ?_ fun s c hs hc ↦ ?_
    · rw [conclude_snd h.running, hcall]
      exact hne
    · exact hnone s hs ((hsubst s c).1 hc).1

/-! ### The walk -/

omit [RootChoice] in
/-- If a part of a node has no type, the node has none. -/
theorem answers_of_part {es : List Expr} (hwv : w.findings <+: v.findings)
    (hvx : v.findings <+: x.findings) (hne : v.findings ≠ w.findings)
    (hnone : ∀ bs, ¬ List.Forall₂ (HasType Γ) es bs)
    (hpart : ∀ b, HasType Γ e b → ∃ bs, List.Forall₂ (HasType Γ) es bs) :
    Answers Γ w [e] ([e'], x) := by
  refine .inr ⟨fun heq ↦ hne (eq_of_prefix_of_eq hwv hvx heq).1, fun bs hbs ↦ ?_⟩
  obtain ⟨b, -, hb, -, -⟩ := List.forall₂_cons_left_iff.1 hbs
  obtain ⟨cs, hcs⟩ := hpart b hb
  exact hnone cs hcs

/-- The rule for a node only adds errors. -/
theorem prefix_findings_conclude (w : Walk) (e : Expr) :
    w.findings <+: (w.conclude e fun v ↦ v.nodeType e).2.findings :=
  (turns_conclude fun hw ↦
    turns_nodeType (D := .all) (e := e) hw trivial fun _ _ ↦ trivial).prefix_findings

/-- The expression is answered wherever names have the types that `Γ` gives them. -/
def AnswersAt (globals : Bindings) (Γ : String → Option Ty) (e : Expr) : Prop :=
  ∀ w : Walk, w.table.Tidy → w.halted = false →
    (∀ name, w.typeOfName? globals name = Γ name) →
      Answers Γ w [e] ([(expr globals e w).1], (expr globals e w).2)

theorem answers_exprs {es : List Expr} (h : ∀ e ∈ es, AnswersAt globals Γ e) (hw : w.table.Tidy)
    (hrunning : w.halted = false) (hΓ : ∀ name, w.typeOfName? globals name = Γ name) :
    Answers Γ w es (exprs globals es w) := by
  induction es generalizing w with
  | nil =>
    rw [exprs]
    exact .inl ⟨[], ∅, .nil hw hrunning⟩
  | cons e es ih =>
    rw [exprs_cons]
    rcases h e List.mem_cons_self w hw hrunning hΓ with ⟨as, A, hA⟩ | ⟨hne, hnone⟩
    · obtain ⟨a, rfl⟩ := hA.exists_singleton
      have hΓ' := fun name ↦ (hA.toAdvances.typeOfName? name).trans (hΓ name)
      rcases ih (fun x hx ↦ h x (List.mem_cons_of_mem _ hx)) hA.tidy hA.running hΓ' with
        ⟨bs, B, hB⟩ | ⟨hne, hnone⟩
      · exact .inl ⟨a :: bs, A ∪ B, hA.cons hB⟩
      · refine .inr ⟨fun heq ↦ hne (heq.trans hA.findings_eq.symm), fun bs hbs ↦ ?_⟩
        obtain ⟨b, bs, -, htail, rfl⟩ := List.forall₂_cons_left_iff.1 hbs
        exact hnone bs htail
    · refine .inr ⟨fun heq ↦ hne ?_, fun bs hbs ↦ ?_⟩
      · exact (eq_of_prefix_of_eq (follows_expr (L := ∅) e w).findings
          (follows_exprs (L := ∅) es _).findings heq).1
      · obtain ⟨b, bs, hhead, -, rfl⟩ := List.forall₂_cons_left_iff.1 hbs
        exact hnone [b] (.cons hhead .nil)

/-- **Every plain expression is answered.** -/
theorem answersAt_of_plain (h : Plain Γ e) : AnswersAt globals Γ e := by
  induction h with
  | @literal n c => exact fun w hw hrunning _ ↦ answers_constant hw hrunning n c
  | @name n name symbol a h ha =>
    exact fun w hw hrunning hΓ ↦ .inl ⟨[a], ∅, infers_ident hw hrunning hΓ n symbol h ha⟩
  | @negate n e _ ih =>
    intro w hw hrunning hΓ
    rw [expr_unary]
    rcases ih w hw hrunning hΓ with ⟨as, S, hS⟩ | ⟨hne, hnone⟩
    · obtain ⟨a, rfl⟩ := hS.exists_singleton
      exact answers_negate hS hw n
    · refine answers_of_part (follows_expr (L := ∅) e w).findings
        (prefix_findings_conclude _ (.unary n _ _)) hne hnone fun b hb ↦ ?_
      obtain ⟨bs, hbs, -⟩ := Expr.hasType_negate_iff.1 hb
      exact ⟨bs, hbs⟩
  | @address n e _ ih =>
    intro w hw hrunning hΓ
    rw [expr_unary]
    rcases ih w hw hrunning hΓ with ⟨as, S, hS⟩ | ⟨hne, hnone⟩
    · obtain ⟨a, rfl⟩ := hS.exists_singleton
      exact answers_address hS n
    · refine answers_of_part (follows_expr (L := ∅) e w).findings
        (prefix_findings_conclude _ (.unary n _ _)) hne hnone fun b hb ↦ ?_
      obtain ⟨bs, hbs, -⟩ := Expr.hasType_address_iff.1 hb
      exact ⟨bs, hbs⟩
  | @binary n op l r _ _ ihl ihr =>
    intro w hw hrunning hΓ
    rw [expr_binary]
    have hright : Follows ∅ _ (expr globals r (expr globals l w).2).2 := follows_expr r _
    rcases ihl w hw hrunning hΓ with ⟨as, A, hA⟩ | ⟨hne, hnone⟩
    · obtain ⟨a, rfl⟩ := hA.exists_singleton
      have hΓ' := fun name ↦ (hA.toAdvances.typeOfName? name).trans (hΓ name)
      rcases ihr _ hA.tidy hA.running hΓ' with ⟨bs, B, hB⟩ | ⟨hne, hnone⟩
      · obtain ⟨b, rfl⟩ := hB.exists_singleton
        exact answers_binary hA hB hw n op
      · refine answers_of_part (hA.findings.trans hright.findings)
          (prefix_findings_conclude _ (.binary n op _ _))
          (fun heq ↦ hne (heq.trans hA.findings_eq.symm)) hnone fun b hb ↦ ?_
        obtain ⟨bs, hbs, rfl, -⟩ := Expr.hasType_binary_iff.1 hb
        exact ⟨[b], (List.forall₂_cons.1 hbs).2⟩
    · refine answers_of_part (follows_expr (L := ∅) l w).findings (hright.findings.trans
        (prefix_findings_conclude _ (.binary n op _ _))) hne hnone fun b hb ↦ ?_
      obtain ⟨bs, hbs, rfl, -⟩ := Expr.hasType_binary_iff.1 hb
      exact ⟨[b], .cons (List.forall₂_cons.1 hbs).1 .nil⟩
  | @call n m name symbol args ps r h hconcrete hlen _ ih =>
    intro w hw hrunning hΓ
    rw [expr_call]
    have hf := infers_ident hw hrunning hΓ m symbol h hconcrete
    have hΓ' := fun name ↦ (hf.toAdvances.typeOfName? name).trans (hΓ name)
    rcases answers_exprs ih hf.tidy hf.running hΓ' with ⟨as, B, hB⟩ | ⟨hne, hnone⟩
    · refine answers_call hf hB hw hconcrete ?_ n
      rw [hlen, length_exprs]
    · refine answers_of_part
        (hf.findings.trans (follows_exprs (L := ∅) args _).findings)
        (prefix_findings_conclude _ (.call n _ _))
        (fun heq ↦ hne (heq.trans hf.findings_eq.symm)) hnone fun b hb ↦ ?_
      obtain ⟨bs, hbs, ps, rfl⟩ := Expr.hasType_call_iff.1 hb
      exact ⟨ps, (List.forall₂_cons.1 hbs).2⟩

/-- **Inference is sound and complete** for expressions without casts and dereferences. A walk over
such an expression that starts with an empty table finds nothing wrong exactly if there is a choice
of types for the literals under which the expression is well typed. -/
theorem findings_expr_eq_iff (hw : w.table = .empty) (hrunning : w.halted = false)
    (he : Plain (w.typeOfName? globals) e) :
    (expr globals e w).2.findings = w.findings ↔ ∃ a, HasType (w.typeOfName? globals) e a := by
  have htidy : w.table.Tidy := hw ▸ .empty
  rcases answersAt_of_plain he w htidy hrunning fun _ ↦ rfl with ⟨as, S, hS⟩ | ⟨hne, hnone⟩
  · obtain ⟨a, rfl⟩ := hS.exists_singleton
    obtain ⟨s, hs⟩ := exists_solution hS.tidy.valid hS.tidy.acyclic
    exact iff_of_true hS.findings_eq ⟨a.subst s, (List.forall₂_cons.1 (hS.sound s hs)).1⟩
  · exact iff_of_false hne fun ⟨a, ha⟩ ↦ hnone [a] (.cons ha .nil)

end Nodes

/-- In `f(-1, &2.0) + null` the literals can be given types if `f` takes a float behind a pointer;
with `&1 + 2` in the place of the second argument they cannot. -/
theorem findings_expr_eq_iff_arguments :
    let type := Ty.func [.i64, .pointer false .f32] .i64
    let w := Walk.start [⟨"f", 0, default, .function, some type, false⟩]
    let globals : Bindings := [("f", 0)]
    let one : Expr := .constant default (.int 1)
    let two : Expr := .constant default (.float default)
    let sum (e : Expr) : Expr := .binary default .add (.call default (.ident default "f" none)
      [.unary default .negate one, e]) (.constant default .null)
    let good := sum (.unary default .address two)
    let bad := sum (.binary default .add (.unary default .address one) one)
    Plain (w.typeOfName? globals) good ∧ (expr globals good w).2.findings = w.findings ∧
      Plain (w.typeOfName? globals) bad ∧ ¬ ∃ a, HasType (w.typeOfName? globals) bad a := by
  intro type w globals one two sum good bad
  have hf : w.typeOfName? globals "f" = some type := by decide
  have hplain : ∀ {e}, Plain (w.typeOfName? globals) e → Plain (w.typeOfName? globals) (sum e) := by
    intro e he
    refine .binary (.call hf rfl rfl fun x hx ↦ ?_) .literal
    rcases List.mem_pair.1 hx with rfl | rfl
    · exact .negate .literal
    · exact he
  have hgood : Plain (w.typeOfName? globals) good := hplain (.address .literal)
  have hbad : Plain (w.typeOfName? globals) bad := hplain (.binary (.address .literal) .literal)
  refine ⟨hgood, (findings_expr_eq_iff rfl rfl hgood).2 ⟨.i64, ?_⟩, hbad, fun htyped ↦ ?_⟩
  · refine .binary (.call (.name hf) (.cons (.negate (.literal ⟨_, rfl, rfl⟩ rfl) rfl)
      (.cons (.address (.literal ⟨_, rfl, rfl⟩ rfl)) .nil))) (.literal ⟨_, rfl⟩ rfl) rfl
  · have hclean := (findings_expr_eq_iff rfl rfl hbad).2 htyped
    exact absurd hclean (by decide)

end Walk

end FrontEnd
