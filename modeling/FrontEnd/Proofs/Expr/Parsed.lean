import FrontEnd.Expr.Parser
import FrontEnd.Proofs.Check.Typing
import FrontEnd.Proofs.Ty.Labels

/-!
# The types that an expression names

A program names types by labels (`Ty.gives_label`), and in an expression only casts name types. An
expression that has been read is **written** (`Expr.gives_parse`): its casts name labels. A label
has no hole, so it is also formed. That holds whatever the text is, and whatever else is wrong with
it.
-/

namespace FrontEnd

namespace Parse

variable {α β : Type} {p : Parse α} {P Q : α → Prop}

/-- **What a parser reads has a property**, whenever it reads something. -/
def Gives (p : Parse α) (Q : α → Prop) : Prop :=
  ∀ c a c', p c = .ok (a, c') → Q a

theorem gives_pure {a : α} (h : Q a) : Gives (pure a : Parse α) Q := by
  intro c b c' heq
  obtain ⟨rfl, -⟩ := Prod.mk.inj (Except.ok.inj heq)
  exact h

/-- What one parser behind another does at a place. -/
theorem bind_apply (p : Parse α) (f : α → Parse β) (c : Cursor) :
    (p >>= f) c = match p c with
      | .ok (a, d) => f a d
      | .error e => .error e :=
  rfl

/-- **One parser behind another** gives what the second gives, for all that the first can give. -/
theorem Gives.bind {f : α → Parse β} {R : β → Prop} (hp : Gives p P)
    (hf : ∀ a, P a → Gives (f a) R) : Gives (p >>= f) R := by
  intro c b c' heq
  rw [bind_apply] at heq
  cases hpc : p c with
  | error e =>
    rw [hpc] at heq
    cases heq
  | ok r =>
    rw [hpc] at heq
    exact hf r.1 (hp c r.1 r.2 hpc) r.2 b c' heq

theorem gives_true (p : Parse α) : Gives p fun _ ↦ True :=
  fun _ _ _ _ ↦ trivial

/-- Where nothing has to be known of what comes first. -/
theorem gives_bind {p : Parse α} {f : α → Parse β} {R : β → Prop} (hf : ∀ a, Gives (f a) R) :
    Gives (p >>= f) R :=
  (gives_true p).bind fun a _ ↦ hf a

theorem gives_ite {c : Prop} [Decidable c] {q : Parse α} (hp : Gives p Q) (hq : Gives q Q) :
    Gives (if c then p else q) Q := by
  split
  · exact hp
  · exact hq

/-- A parser that fails gives nothing, so anything is true of what it gives. -/
theorem gives_failHere : Gives (failHere : Parse α) Q :=
  fun _ _ _ h ↦ nomatch h

theorem gives_fail (e : ParseError) : Gives (fail e : Parse α) Q :=
  fun _ _ _ h ↦ nomatch h

end Parse

open Parse

namespace Ty

/-- What is read as a label is a type that can be written as one: a scalar type behind some
pointers. -/
theorem isLabel_of_labelFrom (tokens : List Token) (lastStop : Nat) (a : Ty) (c : Cursor)
    (h : labelFrom lastStop tokens = .ok (a, c)) : a.isLabel = true := by
  fun_induction labelFrom lastStop tokens generalizing a c with
  | case2 => obtain ⟨rfl, -⟩ := Prod.mk.inj (Except.ok.inj h); rfl
  | case4 lastStop t _ u us _ b d hb ih =>
    obtain ⟨rfl, -⟩ := Prod.mk.inj (Except.ok.inj h)
    exact ih b d hb
  | case6 lastStop t _ u us _ b d hb ih =>
    obtain ⟨rfl, -⟩ := Prod.mk.inj (Except.ok.inj h)
    exact ih b d hb
  | _ => exact nomatch h

theorem gives_label : Gives label fun a ↦ a.isLabel = true :=
  fun c a c' h ↦ isLabel_of_labelFrom c.rest c.lastStop a c' h

end Ty

namespace Expr

/-- The type that a cast names is a label. -/
def namesLabel : Expr → Prop
  | cast _ _ dest => dest.isLabel = true
  | _ => True

/-- An expression is **written** if the types that it names are labels. -/
def Written (e : Expr) : Prop :=
  ∀ x ∈ e.nodes, x.namesLabel

/-- **What has been written is formed**: the types that it names have no holes, since labels have
none. -/
theorem Written.formed {e : Expr} (h : e.Written) : e.Formed := by
  intro x hx
  have hlabel := h x hx
  cases x with
  | cast n e dest => exact Ty.isConcrete_of_isLabel hlabel
  | _ => exact trivial

end Expr

/-! ### Rows -/

namespace OpTree

/-- The operands of a grouped row. -/
def leaves : OpTree → List Expr
  | leaf e => [e]
  | node _ l r => l.leaves ++ r.leaves

/-- Attaching an operand to a tree of operators adds this operand to the leaves. -/
theorem mem_leaves_attach {op : BinOp} {e x : Expr} {t : OpTree}
    (h : x ∈ (t.attach op e).leaves) : x = e ∨ x ∈ t.leaves := by
  induction t with
  | leaf e' =>
    rcases List.mem_append.1 h with h | h
    · exact .inr h
    · exact .inl (List.mem_singleton.1 h)
  | node op' l r _ ihr =>
    rw [attach] at h
    split at h
    · rcases List.mem_append.1 h with h | h
      · exact .inr (List.mem_append_left _ h)
      · exact (ihr h).imp id fun h ↦ List.mem_append_right _ h
    · rcases List.mem_append.1 h with h | h
      · exact .inr h
      · exact .inl (List.mem_singleton.1 h)

/-- A tree of operators is written if its leaves are. -/
theorem written_toExpr {t : OpTree} (h : ∀ e ∈ t.leaves, e.Written) : t.toExpr.Written := by
  induction t with
  | leaf e => exact h e (List.mem_singleton.2 rfl)
  | node op l r ihl ihr =>
    intro x hx
    rcases List.mem_cons.1 hx with rfl | hx
    · exact trivial
    rcases List.mem_append.1 hx with hx | hx
    · exact ihl (fun e he ↦ h e (List.mem_append_left _ he)) x hx
    · exact ihr (fun e he ↦ h e (List.mem_append_right _ he)) x hx

end OpTree

namespace Expr

/-- However a row is grouped, its operands are the leaves, so it is written if they are. -/
theorem written_ofRow {first : Expr} {more : List (BinOp × Expr)} (hfirst : first.Written)
    (hmore : ∀ p ∈ more, p.2.Written) : (ofRow first more).Written := by
  refine OpTree.written_toExpr ?_
  have hfold : ∀ (more : List (BinOp × Expr)) (t : OpTree), (∀ p ∈ more, p.2.Written) →
      (∀ e ∈ t.leaves, e.Written) →
        ∀ e ∈ (more.foldl (fun tree p ↦ OpTree.attach p.1 p.2 tree) t).leaves, e.Written := by
    intro more
    induction more with
    | nil => exact fun t _ ht ↦ ht
    | cons p more ih =>
      refine fun t hmore ht ↦ ih _ (fun q hq ↦ hmore q (List.mem_cons_of_mem _ hq)) fun e he ↦ ?_
      rcases OpTree.mem_leaves_attach he with rfl | he
      · exact hmore p List.mem_cons_self
      · exact ht e he
  exact hfold more _ hmore fun e he ↦ List.mem_singleton.1 he ▸ hfirst

theorem written_unary {n : Note} {op : UnaryOp} {e : Expr} (h : e.Written) :
    (unary n op e).Written := by
  intro x hx
  rcases List.mem_cons.1 hx with rfl | hx
  · exact trivial
  · exact h x hx

theorem written_call {n : Note} {f : Expr} {args : List Expr} (hf : f.Written)
    (hargs : ∀ e ∈ args, e.Written) : (call n f args).Written := by
  intro x hx
  rcases List.mem_cons.1 hx with rfl | hx
  · exact trivial
  rcases List.mem_append.1 hx with hx | hx
  · exact hf x hx
  · obtain ⟨e, he, hx⟩ := mem_nodesAll.1 hx
    exact hargs e he x hx

theorem written_cast {n : Note} {e : Expr} {dest : Ty} (h : e.Written)
    (hdest : dest.isLabel = true) : (cast n e dest).Written := by
  intro x hx
  rcases List.mem_cons.1 hx with rfl | hx
  · exact hdest
  · exact h x hx

/-- A token by itself has no cast. -/
theorem written_ofToken? {t : Token} {e : Expr} (h : ofToken? t = some (.ok e)) : e.Written := by
  rw [ofToken?] at h
  split at h
  · obtain rfl := Except.ok.inj (Option.some.inj h)
    exact fun x hx ↦ List.mem_singleton.1 hx ▸ trivial
  · obtain ⟨r, -, hr⟩ := Option.map_eq_some_iff.1 h
    cases r with
    | ok v =>
      obtain rfl := Except.ok.inj hr
      exact fun x hx ↦ List.mem_singleton.1 hx ▸ trivial
    | error cause => exact nomatch hr

/-! ### The grammar -/

theorem gives_casts (n : Nat) {e : Expr} (he : e.Written) : Gives (casts n e) Written := by
  induction n generalizing e with
  | zero => exact gives_failHere
  | succ n ih =>
    refine gives_bind fun more ↦ gives_ite ?_ (gives_pure he)
    refine Ty.gives_label.bind fun dest hdest ↦ gives_bind fun span ↦ ?_
    exact ih (written_cast he hdest)

/-- All that the functions of the grammar read with a bound on their calls is written. -/
structure GivesTo (n : Nat) : Prop where
  parse : Gives (parseTo n) Written
  row : Gives (rowTo n) fun more ↦ ∀ p ∈ more, p.2.Written
  operand : Gives (operandTo n) Written
  calls : ∀ {e}, e.Written → Gives (callsTo n e) Written
  arguments : Gives (argumentsTo n) fun args ↦ ∀ e ∈ args, e.Written
  moreArguments : Gives (moreArgumentsTo n) fun args ↦ ∀ e ∈ args, e.Written
  atom : Gives (atomTo n) Written

theorem givesTo_zero : GivesTo 0 := by
  refine ⟨?_, ?_, ?_, fun _ ↦ ?_, ?_, ?_, ?_⟩
  · rw [parseTo]; exact gives_failHere
  · rw [rowTo]; exact gives_failHere
  · rw [operandTo]; exact gives_failHere
  · rw [callsTo]; exact gives_failHere
  · rw [argumentsTo]; exact gives_failHere
  · rw [moreArgumentsTo]; exact gives_failHere
  · rw [atomTo]; exact gives_failHere

/-- With one more call a reader gives what is written if those that it calls do. -/
theorem givesTo_succ {n : Nat} (ih : GivesTo n) : GivesTo (n + 1) where
  parse := by
    rw [parseTo]
    exact ih.operand.bind fun first hfirst ↦ ih.row.bind fun more hmore ↦
      gives_casts n (written_ofRow hfirst hmore)
  row := by
    rw [rowTo]
    refine gives_bind fun t ↦ ?_
    cases BinOp.ofKind? t.kind with
    | none => exact gives_pure fun p hp ↦ nomatch hp
    | some op =>
      refine gives_bind fun _ ↦ ih.operand.bind fun e he ↦ ih.row.bind fun more hmore ↦ ?_
      exact gives_pure (List.forall_mem_cons.2 ⟨he, hmore⟩)
  operand := by
    rw [operandTo]
    refine gives_bind fun t ↦ ?_
    cases UnaryOp.ofKind? t.kind with
    | none => exact ih.atom.bind fun e he ↦ ih.calls he
    | some op =>
      exact gives_bind fun _ ↦ ih.operand.bind fun e he ↦ gives_bind fun _ ↦
        gives_pure (written_unary he)
  calls he := by
    rw [callsTo]
    refine gives_bind fun more ↦ gives_ite ?_ (gives_pure he)
    exact ih.arguments.bind fun args hargs ↦ gives_bind fun _ ↦ ih.calls (written_call he hargs)
  arguments := by
    rw [argumentsTo]
    refine gives_bind fun stop ↦ gives_ite (gives_pure fun e he ↦ nomatch he) ?_
    exact ih.parse.bind fun e he ↦ ih.moreArguments.bind fun more hmore ↦
      gives_pure (List.forall_mem_cons.2 ⟨he, hmore⟩)
  moreArguments := by
    rw [moreArgumentsTo]
    refine gives_bind fun more ↦ gives_ite ?_ (gives_bind fun _ ↦ gives_pure fun e he ↦ nomatch he)
    exact ih.parse.bind fun e he ↦ ih.moreArguments.bind fun more hmore ↦
      gives_pure (List.forall_mem_cons.2 ⟨he, hmore⟩)
  atom := by
    rw [atomTo]
    refine gives_bind fun t ↦ ?_
    cases ht : ofToken? t with
    | none =>
      exact gives_bind fun _ ↦ gives_ite
        (ih.parse.bind fun e he ↦ gives_bind fun _ ↦ gives_pure he) gives_failHere
    | some r =>
      cases r with
      | ok e => exact gives_bind fun _ ↦ gives_pure (written_ofToken? ht)
      | error e => exact gives_fail e

/-- So do all of them, whatever the bound on their calls. -/
theorem givesTo (n : Nat) : GivesTo n := by
  induction n with
  | zero => exact givesTo_zero
  | succ n ih => exact givesTo_succ ih

/-- **An expression that has been read is written.** -/
theorem gives_parse : Gives parse Written :=
  fun c e c' h ↦ (givesTo (callBound c.rest.length)).parse c e c' h

end Expr

end FrontEnd
