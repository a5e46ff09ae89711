import FrontEnd.Proofs.Expr.Parsed
import FrontEnd.Proofs.Grammar.Rules

/-!
# Reading expressions follows the grammar

Both ways, for labels and expressions. What a parser has read is a word of its rule
(`Expr.ensures_parse`), and where the tokens begin with a word of the rule, the parser reads just
that word (`Expr.reads_parse`).

The second needs to know what comes behind, since a parser goes on as long as it can: an operand
must not be followed by an opening parenthesis, a row not by an operator, and casts not by another
one. And it needs the bound on calls to be large enough, which is why the bounds count the tokens
that are read.
-/

namespace FrontEnd

open Grammar

namespace Cursor

/-- Behind the last token the end mark goes on for ever. -/
theorem current_kind (c : Cursor) : c.current.kind = firstKind c.rest := by
  rcases c with ⟨_ | ⟨t, l⟩, s⟩ <;> rfl

/-- Where the end mark has not been reached there is a token to be read. -/
theorem rest_eq_cons {c : Cursor} (h : c.current.kind ≠ .finish) :
    c.rest = c.current :: c.next.rest := by
  rcases c with ⟨_ | ⟨t, l⟩, s⟩
  · exact absurd rfl h
  · rfl

end Cursor

/-! ### Parsers -/

namespace Parse

variable {α β : Type} {c : Cursor} {p q : Parse α} {P : α → Prop} {Q : α → Cursor → Prop}
  {k : Token.Kind} {t : Token} {l m l' : List Token}

/-- **If a parser reads something**, that and the place behind it have a property. -/
def Ensures (p : Parse α) (c : Cursor) (Q : α → Cursor → Prop) : Prop :=
  ∀ a c', p c = .ok (a, c') → Q a c'

theorem Ensures.mono {P : α → Cursor → Prop} (h : Ensures p c P) (hPQ : ∀ a c', P a c' → Q a c') :
    Ensures p c Q :=
  fun a c' hp ↦ hPQ a c' (h a c' hp)

theorem ensures_pure {a : α} (h : Q a c) : Ensures (pure a) c Q := by
  intro b c' hb
  obtain ⟨rfl, rfl⟩ := Prod.mk.inj (Except.ok.inj hb)
  exact h

/-- **One parser behind another**: what the second ensures is asked for where the first has
stopped. -/
theorem Ensures.bind {f : α → Parse β} {R : β → Cursor → Prop}
    (h : Ensures p c fun a c' ↦ Ensures (f a) c' R) : Ensures (p >>= f) c R := by
  intro b c' hb
  rw [bind_apply] at hb
  rcases hp : p c with e | ⟨a, d⟩
  · rw [hp] at hb
    exact nomatch hb
  · rw [hp] at hb
    exact h a d hp b c' hb

/-- A parser that fails ensures anything, since it reads nothing. -/
theorem ensures_failHere : Ensures (failHere : Parse α) c Q :=
  fun _ _ h ↦ nomatch h

theorem ensures_peek {Q : Token → Cursor → Prop} (h : Q c.current c) : Ensures peek c Q :=
  ensures_pure h

theorem ensures_advance {Q : Token → Cursor → Prop} (h : Q c.current c.next) :
    Ensures advance c Q := by
  intro b c' hb
  obtain ⟨rfl, rfl⟩ := Prod.mk.inj (Except.ok.inj hb)
  exact h

theorem ensures_at? {Q : Bool → Cursor → Prop} (h : Q (firstKind c.rest = k) c) :
    Ensures (at? k) c Q := by
  intro b c' hb
  obtain ⟨rfl, rfl⟩ := Prod.mk.inj (Except.ok.inj hb)
  rw [c.current_kind]
  exact h

theorem ensures_spanFrom {Q : Span → Cursor → Prop} {s : Span} (h : ∀ s', Q s' c) :
    Ensures (spanFrom s) c Q :=
  ensures_pure (h _)

/-- A token that is asked for stands there when it has been read. The end mark is the one kind that
could be read without a token. -/
theorem ensures_expect {Q : Token → Cursor → Prop} (hk : k ≠ .finish)
    (h : ∀ t l s, c.rest = t :: l → t.kind = k → Q t ⟨l, s⟩) : Ensures (expect k) c Q := by
  intro t c' ht
  rw [expect] at ht
  split at ht
  · rename_i hcurrent
    obtain ⟨rfl, rfl⟩ := Prod.mk.inj (Except.ok.inj ht)
    exact h _ _ _ (c.rest_eq_cons (hcurrent ▸ hk)) hcurrent
  · exact nomatch ht

/-- To go on in one way or another, depending on whether a token could be read. -/
theorem ensures_ifEat (hk : k ≠ .finish)
    (hp : ∀ t l s, c.rest = t :: l → t.kind = k → Ensures p ⟨l, s⟩ Q)
    (hq : firstKind c.rest ≠ k → Ensures q c Q) :
    Ensures (eat k >>= fun b ↦ if b = true then p else q) c Q := by
  intro a c' h
  rw [bind_apply, eat] at h
  by_cases hcurrent : c.current.kind = k
  · rw [if_pos hcurrent] at h
    exact hp _ _ _ (c.rest_eq_cons (hcurrent ▸ hk)) hcurrent a c' h
  · rw [if_neg hcurrent] at h
    exact hq (c.current_kind ▸ hcurrent) a c' h

/-- **Where the tokens `l` are left, a parser finds** something with a property, and leaves the
tokens `l'`. -/
def Finds (p : Parse α) (l l' : List Token) (P : α → Prop) : Prop :=
  ∀ c : Cursor, c.rest = l → ∃ a c', p c = .ok (a, c') ∧ c'.rest = l' ∧ P a

theorem finds_pure (a : α) (l : List Token) (h : P a) : Finds (pure a) l l P :=
  fun c hc ↦ ⟨a, c, rfl, hc, h⟩

/-- One parser behind another finds what the second one finds, starting from where the first one
ends. -/
theorem Finds.bind {f : α → Parse β} {Q : β → Prop} (hp : Finds p l m P)
    (hf : ∀ a, P a → Finds (f a) m l' Q) : Finds (p >>= f) l l' Q := by
  intro c hc
  obtain ⟨a, d, hpc, hd, ha⟩ := hp c hc
  obtain ⟨b, e, hfd, he, hb⟩ := hf a ha d hd
  refine ⟨b, e, ?_, he, hb⟩
  rw [bind_apply, hpc]
  exact hfd

/-- Of the token that comes next only the kind is known, since there may be none. -/
theorem finds_peek {f : Token → Parse α} (h : ∀ t, t.kind = firstKind l → Finds (f t) l l' P) :
    Finds (peek >>= f) l l' P := by
  intro c hc
  exact h c.current (hc ▸ c.current_kind) c hc

/-- Where there is a token it is known altogether. -/
theorem finds_peek_cons {f : Token → Parse α} (h : Finds (f t) (t :: l) l' P) :
    Finds (peek >>= f) (t :: l) l' P := by
  rintro ⟨_, s⟩ rfl
  exact h ⟨t :: l, s⟩ rfl

theorem finds_advance (t : Token) (l : List Token) : Finds advance (t :: l) l (· = t) := by
  rintro ⟨_, s⟩ rfl
  exact ⟨_, _, rfl, rfl, rfl⟩

theorem finds_spanFrom (s : Span) (l : List Token) : Finds (spanFrom s) l l fun _ ↦ True :=
  fun c hc ↦ ⟨_, c, rfl, hc, trivial⟩

theorem finds_expect (hk : t.kind = k) (l : List Token) : Finds (expect k) (t :: l) l (· = t) := by
  rintro ⟨_, s⟩ rfl
  exact ⟨t, _, if_pos hk, rfl, rfl⟩

theorem finds_eat_pos {f : Bool → Parse α} (hk : t.kind = k) (h : Finds (f true) l l' P) :
    Finds (eat k >>= f) (t :: l) l' P := by
  rintro ⟨_, s⟩ rfl
  have heat : eat k ⟨t :: l, s⟩ = .ok (true, ⟨l, t.span.stop⟩) := if_pos hk
  rw [bind_apply, heat]
  exact h ⟨l, t.span.stop⟩ rfl

theorem finds_eat_neg {f : Bool → Parse α} (hk : firstKind l ≠ k) (h : Finds (f false) l l' P) :
    Finds (eat k >>= f) l l' P := by
  intro c hc
  have heat : eat k c = .ok (false, c) := if_neg (by rw [c.current_kind, hc]; exact hk)
  rw [bind_apply, heat]
  exact h c hc

/-- **Where the tokens `l` are left, a parser reads** up to the tokens `l'`. -/
def Reads (p : Parse α) (l l' : List Token) : Prop :=
  ∀ c : Cursor, c.rest = l → ∃ a c', p c = .ok (a, c') ∧ c'.rest = l'

/-- To read is to find something, whatever it is. -/
theorem Finds.reads (h : Finds p l l' P) : Reads p l l' := by
  intro c hc
  obtain ⟨a, c', hp, hc', -⟩ := h c hc
  exact ⟨a, c', hp, hc'⟩

/-- Where it does not matter what is read, only where reading ends. -/
theorem Reads.finds (h : Reads p l l') : Finds p l l' fun _ ↦ True := by
  intro c hc
  obtain ⟨a, c', hp, hc'⟩ := h c hc
  exact ⟨a, c', hp, hc', trivial⟩

theorem reads_pure (a : α) (l : List Token) : Reads (pure a) l l :=
  (finds_pure (P := fun _ ↦ True) a l trivial).reads

/-- **One parser behind another** reads what the two read. -/
theorem Reads.bind {f : α → Parse β} (hp : Reads p l m) (hf : ∀ a, Reads (f a) m l') :
    Reads (p >>= f) l l' :=
  (hp.finds.bind fun a _ ↦ (hf a).finds).reads

theorem reads_peek {f : Token → Parse α} (h : ∀ t, t.kind = firstKind l → Reads (f t) l l') :
    Reads (peek >>= f) l l' :=
  (finds_peek fun t ht ↦ (h t ht).finds).reads

theorem reads_peek_cons {f : Token → Parse α} (h : Reads (f t) (t :: l) l') :
    Reads (peek >>= f) (t :: l) l' :=
  (finds_peek_cons h.finds).reads

theorem reads_advance (t : Token) (l : List Token) : Reads advance (t :: l) l :=
  (finds_advance t l).reads

theorem reads_spanFrom (s : Span) (l : List Token) : Reads (spanFrom s) l l :=
  (finds_spanFrom s l).reads

theorem reads_expect (hk : t.kind = k) (l : List Token) : Reads (expect k) (t :: l) l :=
  (finds_expect hk l).reads

/-- A token that may be there and is there is read. -/
theorem reads_eat_pos {f : Bool → Parse α} (hk : t.kind = k) (h : Reads (f true) l l') :
    Reads (eat k >>= f) (t :: l) l' :=
  (finds_eat_pos hk h.finds).reads

/-- A token that may be there and is not there is passed over. -/
theorem reads_eat_neg {f : Bool → Parse α} (hk : firstKind l ≠ k) (h : Reads (f false) l l') :
    Reads (eat k >>= f) l l' :=
  (finds_eat_neg hk h.finds).reads

theorem reads_at? {f : Bool → Parse α} (h : Reads (f (firstKind l = k)) l l') :
    Reads (at? k >>= f) l l' := by
  intro c hc
  have hat : at? k c = .ok (decide (firstKind l = k), c) := by
    rw [at?, c.current_kind, hc]
  rw [bind_apply, hat]
  exact h c hc

end Parse

open Parse

/-! ### Labels -/

namespace Ty

/-- **What is read as a label is one.** The cases are those of the reader, so pointers come with and
without `const`. -/
theorem spans_of_labelFrom {lastStop : Nat} {l : List Token} {a : Ty} {c : Cursor}
    (h : labelFrom lastStop l = .ok (a, c)) : Spans (.rule .label) l c.rest := by
  refine .rule ?_
  fun_induction labelFrom lastStop l generalizing a c with
  | case2 lastStop t ts s hkind =>
    obtain ⟨-, rfl⟩ := Prod.mk.inj (Except.ok.inj h)
    refine .left (.oneOf ?_ (by decide) _)
    rw [hkind]
    exact List.mem_map_of_mem s.mem_all
  | case4 lastStop t hstar u us hconst b d hb ih =>
    obtain ⟨-, rfl⟩ := Prod.mk.inj (Except.ok.inj h)
    exact .right (((Spans.token hstar (by decide) _).append
      (.some (.token hconst (by decide) _))).append (.rule (ih hb)))
  | case6 lastStop t hstar u us hconst b d hb ih =>
    obtain ⟨-, rfl⟩ := Prod.mk.inj (Except.ok.inj h)
    exact .right (((Spans.token hstar (by decide) _).append (.none _ _)).append (.rule (ih hb)))
  | _ => cases h

theorem ensures_label (c : Cursor) :
    Ensures label c fun _ c' ↦ Spans (.rule .label) c.rest c'.rest :=
  fun _ _ h ↦ spans_of_labelFrom h

/-- **A label is read to its end**, and nothing behind it: a label is over with its first name of a
scalar type. The induction is on its length. -/
theorem exists_labelFrom {l l' : List Token} (h : Spans (.rule .label) l l') (lastStop : Nat) :
    ∃ a s, labelFrom lastStop l = .ok (a, ⟨l', s⟩) := by
  induction hn : l.length using Nat.strong_induction_on generalizing l lastStop with
  | _ n ih =>
    subst hn
    rcases spans_alt.1 (spans_rule.1 h) with h | h
    · obtain ⟨t, rfl, ht, -⟩ := spans_oneOf.1 h
      obtain ⟨s, -, hs⟩ := List.mem_map.1 ht
      refine ⟨scalar s, t.span.stop, ?_⟩
      rw [labelFrom.eq_def]
      simp only [← hs]
    · obtain ⟨m, hm, hlabel⟩ := spans_seq.1 h
      obtain ⟨m', hstar, hopt⟩ := spans_seq.1 hm
      obtain ⟨t, rfl, ht, -⟩ := spans_kind.1 hstar
      rcases spans_opt.1 hopt with rfl | hconst
      · -- the label that is pointed at does not begin with the keyword
        obtain ⟨a, s, ha⟩ := ih m'.length (Nat.lt_succ_self _) hlabel t.span.stop rfl
        have hfirst : firstKind m' ≠ .keyword .const :=
          ne_of_mem_of_not_mem (firstKind_label hlabel) (by decide)
        cases m' with
        | nil => cases ha
        | cons u us =>
          have hu : u.kind ≠ .keyword .const := hfirst
          rw [labelFrom, ht]
          dsimp only
          rw [if_neg hu, ha]
          exact ⟨_, _, rfl⟩
      · obtain ⟨u, rfl, hu, -⟩ := spans_kind.1 hconst
        obtain ⟨a, s, ha⟩ := ih m.length (by simp only [List.length_cons]; omega) hlabel
          u.span.stop rfl
        rw [labelFrom, ht]
        dsimp only
        rw [if_pos hu, ha]
        exact ⟨_, _, rfl⟩

theorem reads_label {l l' : List Token} (h : Spans (.rule .label) l l') : Reads label l l' := by
  rintro ⟨_, s⟩ rfl
  obtain ⟨a, s', ha⟩ := exists_labelFrom h s
  exact ⟨a, _, ha, rfl⟩

end Ty

/-! ### Tokens of expressions -/

/-- The operators with two operands are the tokens that the grammar lists as such. -/
theorem BinOp.ofKind?_eq_none_iff {k : Token.Kind} : ofKind? k = none ↔ k ∉ binaryOperators := by
  simp only [ofKind?, List.find?_eq_none, decide_eq_true_eq, binaryOperators]
  simp [all, sign]

theorem BinOp.mem_of_ofKind?_eq_some {k : Token.Kind} {op : BinOp} (h : ofKind? k = some op) :
    k ∈ binaryOperators := by
  by_contra hne
  exact nomatch h.symm.trans (ofKind?_eq_none_iff.2 hne)

/-- The operators with one operand are the tokens that the grammar lists as such. -/
theorem UnaryOp.ofKind?_eq_none_iff {k : Token.Kind} : ofKind? k = none ↔ k ∉ unaryOperators := by
  simp only [ofKind?, List.find?_eq_none, decide_eq_true_eq, unaryOperators]
  simp [all, sign]
  tauto

theorem UnaryOp.mem_of_ofKind?_eq_some {k : Token.Kind} {op : UnaryOp} (h : ofKind? k = some op) :
    k ∈ unaryOperators := by
  by_contra hne
  exact nomatch h.symm.trans (ofKind?_eq_none_iff.2 hne)

namespace Expr

theorem kind_mem_atoms_of_constantOf? {t : Token} {r : Except ParseError.Cause Constant}
    (h : constantOf? t = some r) : t.kind ∈ atoms := by
  rw [constantOf?] at h
  split at h <;> simp_all [atoms]

/-- A token that is read as an expression by itself is an atom, and has a value. -/
theorem atom_of_ofToken? {t : Token} {e : Expr} (h : ofToken? t = some (.ok e)) :
    t.kind ∈ atoms ∧ t.HasValue := by
  rw [ofToken?] at h
  split at h
  · rename_i hkind
    exact ⟨hkind ▸ by decide, Token.hasValue_of_kind hkind (by decide)⟩
  · obtain ⟨r, hr, he⟩ := Option.map_eq_some_iff.1 h
    refine ⟨kind_mem_atoms_of_constantOf? hr, fun r' hr' ↦ ?_⟩
    obtain rfl := Option.some.inj (hr.symm.trans hr')
    cases r with
    | ok v => exact ⟨v, rfl⟩
    | error cause => cases he

/-- An atom that has a value is read as an expression by itself. -/
theorem exists_ofToken? {t : Token} (hkind : t.kind ∈ atoms) (hvalue : t.HasValue) :
    ∃ e, ofToken? t = some (.ok e) := by
  rw [ofToken?]
  split
  · exact ⟨_, rfl⟩
  · rename_i hident
    have hsome : ∃ r, constantOf? t = some r := by
      rw [constantOf?]
      simp only [atoms, List.mem_cons, List.not_mem_nil, or_false] at hkind
      rcases hkind with h | h | h | h | h | h | h
      · exact absurd h hident
      all_goals rw [h]; exact ⟨_, rfl⟩
    obtain ⟨r, hr⟩ := hsome
    obtain ⟨v, rfl⟩ := hvalue r hr
    rw [hr]
    exact ⟨_, rfl⟩

theorem ofToken?_eq_none {t : Token} (h : t.kind ∉ atoms) : ofToken? t = none := by
  have hident : t.kind ≠ .ident := fun hkind ↦ h (by rw [hkind]; decide)
  rw [ofToken?, if_neg hident]
  cases hr : constantOf? t with
  | none => rfl
  | some r => exact absurd (kind_mem_atoms_of_constantOf? hr) h

/-! ### What is read is a word -/

/-- Casts are read as long as the word `as` comes next, and each has a label. -/
theorem ensures_casts (n : Nat) (e : Expr) (c : Cursor) : Ensures (casts n e) c fun _ c' ↦
    Spans (.many (.keyword .as ++ .rule .label)) c.rest c'.rest := by
  induction n generalizing e c with
  | zero => exact ensures_failHere
  | succ n ih =>
    refine ensures_ifEat (by decide) (fun t l s hl hk ↦ ?_) fun _ ↦ ensures_pure (.nil _ _)
    refine .bind ((Ty.ensures_label _).mono fun dest c₁ hlabel ↦ ?_)
    refine .bind (ensures_spanFrom fun span ↦ (ih _ c₁).mono fun _ c₂ hmore ↦ ?_)
    rw [hl]
    exact .cons ((Spans.token hk (by decide) l).append hlabel) hmore

/-- **All that the functions of the grammar read**, with a bound on their calls, are words. -/
structure SoundTo (n : Nat) : Prop where
  parse (c : Cursor) : Ensures (parseTo n) c fun _ c' ↦ Spans (.rule .expr) c.rest c'.rest
  row (c : Cursor) : Ensures (rowTo n) c fun _ c' ↦
    Spans (.many (.oneOf binaryOperators ++ .rule .operand)) c.rest c'.rest
  operand (c : Cursor) : Ensures (operandTo n) c fun _ c' ↦
    Spans (.rule .operand) c.rest c'.rest
  calls (e : Expr) (c : Cursor) : Ensures (callsTo n e) c fun _ c' ↦
    Spans (.many .arguments) c.rest c'.rest
  arguments (c : Cursor) : Ensures (argumentsTo n) c fun _ c' ↦
    Spans (.opt (.commas (.rule .expr)) ++ .sign .rightParen) c.rest c'.rest
  moreArguments (c : Cursor) : Ensures (moreArgumentsTo n) c fun _ c' ↦
    Spans (.many (.sign .comma ++ .rule .expr) ++ .sign .rightParen) c.rest c'.rest
  atom (c : Cursor) : Ensures (atomTo n) c fun _ c' ↦ Spans (.rule .atom) c.rest c'.rest

/-- A function that may not make a single call fails. -/
theorem soundTo_zero : SoundTo 0 where
  parse _ := by rw [parseTo]; exact ensures_failHere
  row _ := by rw [rowTo]; exact ensures_failHere
  operand _ := by rw [operandTo]; exact ensures_failHere
  calls _ _ := by rw [callsTo]; exact ensures_failHere
  arguments _ := by rw [argumentsTo]; exact ensures_failHere
  moreArguments _ := by rw [moreArgumentsTo]; exact ensures_failHere
  atom _ := by rw [atomTo]; exact ensures_failHere

namespace SoundTo

/-! One lemma for each function: with one more call it reads words, if the functions that it calls
do with the calls they have. -/

variable {n : Nat} (ih : SoundTo n)

include ih

/-- An expression is a row and the casts behind it. -/
theorem parse_succ (c : Cursor) :
    Ensures (parseTo (n + 1)) c fun _ c' ↦ Spans (.rule .expr) c.rest c'.rest := by
  rw [parseTo]
  refine .bind ((ih.operand c).mono fun first c₁ hfirst ↦ ?_)
  refine .bind ((ih.row c₁).mono fun more c₂ hmore ↦ ?_)
  refine (ensures_casts n _ c₂).mono fun _ c₃ hcasts ↦ ?_
  exact .rule (.append (.rule (hfirst.append hmore)) hcasts)

/-- A row goes on as long as an operator comes next. -/
theorem row_succ (c : Cursor) : Ensures (rowTo (n + 1)) c fun _ c' ↦
    Spans (.many (.oneOf binaryOperators ++ .rule .operand)) c.rest c'.rest := by
  rw [rowTo]
  refine .bind (ensures_peek ?_)
  cases hop : BinOp.ofKind? c.current.kind with
  | none => exact ensures_pure (.nil _ _)
  | some op =>
    have hmem := BinOp.mem_of_ofKind?_eq_some hop
    have hrest := c.rest_eq_cons (ne_of_mem_of_not_mem hmem (by decide))
    refine .bind (ensures_advance (.bind ((ih.operand _).mono fun e c₁ he ↦ ?_)))
    refine .bind ((ih.row c₁).mono fun more c₂ hmore ↦ ensures_pure ?_)
    rw [hrest]
    exact .cons ((Spans.oneOf hmem (by decide) _).append he) hmore

/-- An operand has an operator in front of it, or it is an atom and the calls behind it. -/
theorem operand_succ (c : Cursor) :
    Ensures (operandTo (n + 1)) c fun _ c' ↦ Spans (.rule .operand) c.rest c'.rest := by
  rw [operandTo]
  refine .bind (ensures_peek ?_)
  cases hop : UnaryOp.ofKind? c.current.kind with
  | none =>
    refine .bind ((ih.atom c).mono fun e c₁ he ↦ (ih.calls e c₁).mono fun _ c₂ hcalls ↦ ?_)
    exact .rule (.right (.rule (he.append hcalls)))
  | some op =>
    have hmem := UnaryOp.mem_of_ofKind?_eq_some hop
    have hrest := c.rest_eq_cons (ne_of_mem_of_not_mem hmem (by decide))
    refine .bind (ensures_advance (.bind ((ih.operand _).mono fun e c₁ he ↦ ?_)))
    refine .bind (ensures_spanFrom fun span ↦ ensures_pure (.rule (.left ?_)))
    rw [hrest]
    exact (Spans.oneOf hmem (by decide) _).append he

/-- Lists of arguments stand one behind another, as many as there are. -/
theorem calls_succ (e : Expr) (c : Cursor) :
    Ensures (callsTo (n + 1) e) c fun _ c' ↦ Spans (.many .arguments) c.rest c'.rest := by
  rw [callsTo]
  refine ensures_ifEat (by decide) (fun t l s hl hk ↦ ?_) fun _ ↦ ensures_pure (.nil _ _)
  refine .bind ((ih.arguments _).mono fun args c₁ hargs ↦ .bind (ensures_spanFrom fun span ↦ ?_))
  refine (ih.calls _ c₁).mono fun _ c₂ hmore ↦ ?_
  rw [hl]
  exact .cons (spans_append_assoc.2 ((Spans.token hk (by decide) l).append hargs)) hmore

/-- Arguments are separated by commas; none can follow the last one. -/
theorem arguments_succ (c : Cursor) : Ensures (argumentsTo (n + 1)) c fun _ c' ↦
    Spans (.opt (.commas (.rule .expr)) ++ .sign .rightParen) c.rest c'.rest := by
  rw [argumentsTo]
  refine ensures_ifEat (by decide) (fun t l s hl hk ↦ ensures_pure ?_) fun _ ↦ ?_
  · rw [hl]
    exact (Spans.none _ _).append (.token hk (by decide) l)
  · refine .bind ((ih.parse c).mono fun e c₁ he ↦ .bind ((ih.moreArguments c₁).mono ?_))
    intro more c₂ hmore
    obtain ⟨m, hmore, hclose⟩ := spans_seq.1 hmore
    exact ensures_pure ((Spans.some (he.append hmore)).append hclose)

theorem moreArguments_succ (c : Cursor) : Ensures (moreArgumentsTo (n + 1)) c fun _ c' ↦
    Spans (.many (.sign .comma ++ .rule .expr) ++ .sign .rightParen) c.rest c'.rest := by
  rw [moreArgumentsTo]
  refine ensures_ifEat (by decide) (fun t l s hl hk ↦ ?_) fun _ ↦ ?_
  · refine .bind ((ih.parse _).mono fun e c₁ he ↦ .bind ((ih.moreArguments c₁).mono ?_))
    intro more c₂ hmore
    obtain ⟨m, hmore, hclose⟩ := spans_seq.1 hmore
    refine ensures_pure (.append (.cons ?_ hmore) hclose)
    rw [hl]
    exact (Spans.token hk (by decide) l).append he
  · refine .bind (ensures_expect (by decide) fun t l s hl hk ↦ ensures_pure ?_)
    rw [hl]
    exact (Spans.nil _ _).append (.token hk (by decide) l)

/-- An atom is a single word, or an expression in parentheses. -/
theorem atom_succ (c : Cursor) :
    Ensures (atomTo (n + 1)) c fun _ c' ↦ Spans (.rule .atom) c.rest c'.rest := by
  rw [atomTo]
  refine .bind (ensures_peek ?_)
  cases ht : ofToken? c.current with
  | none =>
    refine ensures_ifEat (by decide) (fun t l s hl hk ↦ ?_) fun _ ↦ ensures_failHere
    refine .bind ((ih.parse _).mono fun e c₁ he ↦ .bind (ensures_expect (by decide) ?_))
    intro t' l' s' hl' hk'
    refine ensures_pure (.rule (.right ?_))
    rw [hl]
    exact ((Spans.token hk (by decide) l).append he).append (hl' ▸ .token hk' (by decide) l')
  | some r =>
    cases r with
    | ok e =>
      obtain ⟨hmem, hvalue⟩ := atom_of_ofToken? ht
      have hrest := c.rest_eq_cons (ne_of_mem_of_not_mem hmem (by decide))
      refine .bind (ensures_advance (ensures_pure (.rule (.left ?_))))
      exact spans_oneOf.2 ⟨_, hrest, hmem, hvalue⟩
    | error e =>
      intro _ _ h
      cases h

theorem succ : SoundTo (n + 1) where
  parse := ih.parse_succ
  row := ih.row_succ
  operand := ih.operand_succ
  calls := ih.calls_succ
  arguments := ih.arguments_succ
  moreArguments := ih.moreArguments_succ
  atom := ih.atom_succ

end SoundTo

/-- So what is read is a word, whatever the bound. -/
theorem soundTo (n : Nat) : SoundTo n := by
  induction n with
  | zero => exact soundTo_zero
  | succ n ih => exact ih.succ

/-- **An expression that has been read is a word.** -/
theorem ensures_parse (c : Cursor) :
    Ensures parse c fun _ c' ↦ Spans (.rule .expr) c.rest c'.rest :=
  fun a c' h ↦ (soundTo (callBound c.rest.length)).parse c a c' h

/-! ### Words are read -/

/-- Casts are read to their end if none can follow. Every round takes a token at least. -/
theorem reads_casts {n : Nat} {l l' : List Token}
    (h : Spans (.many (.keyword .as ++ .rule .label)) l l') (hnext : firstKind l' ≠ .keyword .as)
    (hn : l.length < n + l'.length) (e : Expr) : Reads (casts n e) l l' := by
  induction n generalizing l e with
  | zero => exact absurd h.length_le (by omega)
  | succ n ih =>
    rcases spans_many.1 h with rfl | ⟨m, hcast, hmore⟩
    · exact reads_eat_neg hnext (reads_pure e l)
    · obtain ⟨m', has, hlabel⟩ := spans_seq.1 hcast
      obtain ⟨t, rfl, ht, -⟩ := spans_kind.1 has
      refine reads_eat_pos ht ((Ty.reads_label hlabel).bind fun dest ↦ ?_)
      refine (reads_spanFrom _ m).bind fun span ↦ ih hmore ?_ _
      have hlength := hlabel.length_le
      rw [List.length_cons] at hn
      omega

/-- What may come behind an expression. -/
def closers : List Token.Kind :=
  [.sign .comma, .sign .rightParen, .sign .semicolon]

/-- Behind an operand there is an operator, or what is behind the row. -/
theorem firstKind_row {l l' : List Token}
    (h : Spans (.many (.oneOf binaryOperators ++ .rule .operand)) l l')
    (hnext : firstKind l' ∉ .sign .leftParen :: binaryOperators) :
    firstKind l ≠ .sign .leftParen := by
  rcases h.firstKind_many binaryOperators 3 (by decide) with rfl | hl
  · exact fun h ↦ hnext (h ▸ List.mem_cons_self)
  · exact ne_of_mem_of_not_mem hl (by decide)

/-- Behind an argument there is a comma, or the parenthesis that closes the list. -/
theorem firstKind_moreArguments {l l' : List Token}
    (h : Spans (.many (.sign .comma ++ .rule .expr)) l l')
    (hnext : firstKind l' = .sign .rightParen) : firstKind l ∈ closers := by
  rcases h.firstKind_many [.sign .comma] 4 (by decide) with rfl | hl
  · rw [hnext]
    decide
  · rw [List.mem_singleton.1 hl]
    decide

/-- **The functions of the grammar read all words**, if the bound on their calls is large enough for
the tokens that a word has. -/
structure CompleteTo (n : Nat) : Prop where
  parse {l l' : List Token} (h : Spans (.rule .expr) l l') (hnext : firstKind l' ∈ closers)
    (hn : 4 * l.length + 2 ≤ n + 4 * l'.length) : Reads (parseTo n) l l'
  row {l l' : List Token} (h : Spans (.many (.oneOf binaryOperators ++ .rule .operand)) l l')
    (hnext : firstKind l' ∉ .sign .leftParen :: binaryOperators)
    (hn : 4 * l.length + 1 ≤ n + 4 * l'.length) : Reads (rowTo n) l l'
  operand {l l' : List Token} (h : Spans (.rule .operand) l l')
    (hnext : firstKind l' ≠ .sign .leftParen) (hn : 4 * l.length + 1 ≤ n + 4 * l'.length) :
    Reads (operandTo n) l l'
  calls {l l' : List Token} (h : Spans (.many .arguments) l l')
    (hnext : firstKind l' ≠ .sign .leftParen) (hn : 4 * l.length + 1 ≤ n + 4 * l'.length)
    (e : Expr) : Reads (callsTo n e) l l'
  arguments {l l' : List Token}
    (h : Spans (.opt (.commas (.rule .expr)) ++ .sign .rightParen) l l')
    (hn : 4 * l.length ≤ n + 4 * l'.length) : Reads (argumentsTo n) l l'
  moreArguments {l l' : List Token}
    (h : Spans (.many (.sign .comma ++ .rule .expr) ++ .sign .rightParen) l l')
    (hn : 4 * l.length ≤ n + 4 * l'.length) : Reads (moreArgumentsTo n) l l'
  atom {l l' : List Token} (h : Spans (.rule .atom) l l')
    (hn : 4 * l.length ≤ n + 4 * l'.length) : Reads (atomTo n) l l'

/-- Without calls nothing is read, but no bound is zero for a word. -/
theorem completeTo_zero : CompleteTo 0 where
  parse h _ hn := absurd h.length_le (by omega)
  row h _ hn := absurd h.length_le (by omega)
  operand h _ hn := absurd h.length_le (by omega)
  calls h _ hn := absurd h.length_le (by omega)
  arguments h hn := absurd (h.length_lt 2 (by decide)) (by omega)
  moreArguments h hn := absurd (h.length_lt 2 (by decide)) (by omega)
  atom h hn := absurd (h.length_lt 4 (by decide)) (by omega)

namespace CompleteTo

/-! As before, one lemma for each function and one more call. A word has to be taken apart in the
way in which the function reads it, and what comes behind each part has to be such that the part
ends there. -/

variable {n : Nat} (ih : CompleteTo n) {l l' : List Token}

include ih

/-- A whole expression needs four calls for each of its tokens, and two more to come to its first
operand. -/
theorem parse_succ (h : Spans (.rule .expr) l l') (hnext : firstKind l' ∈ closers)
    (hn : 4 * l.length + 2 ≤ n + 1 + 4 * l'.length) : Reads (parseTo (n + 1)) l l' := by
  obtain ⟨m, hrow, hcasts⟩ := spans_seq.1 (spans_rule.1 h)
  obtain ⟨m', hoperand, hmore⟩ := spans_seq.1 (spans_rule.1 hrow)
  have hlt := hoperand.length_lt 8 (by decide)
  have hle := hmore.length_le
  have hle' := hcasts.length_le
  -- what comes behind the row
  have hm : firstKind m ∉ .sign .leftParen :: binaryOperators := by
    rcases hcasts.firstKind_many [.keyword .as] 4 (by decide) with rfl | hm
    · exact (by decide : ∀ k ∈ closers, k ∉ .sign .leftParen :: binaryOperators) _ hnext
    · rw [List.mem_singleton.1 hm]
      decide
  rw [parseTo]
  refine (ih.operand hoperand (firstKind_row hmore hm) (by omega)).bind fun first ↦ ?_
  refine (ih.row hmore hm (by omega)).bind fun more ↦ ?_
  exact reads_casts hcasts (ne_of_mem_of_not_mem hnext (by decide)) (by omega) _

theorem row_succ (h : Spans (.many (.oneOf binaryOperators ++ .rule .operand)) l l')
    (hnext : firstKind l' ∉ .sign .leftParen :: binaryOperators)
    (hn : 4 * l.length + 1 ≤ n + 1 + 4 * l'.length) : Reads (rowTo (n + 1)) l l' := by
  rw [rowTo]
  rcases spans_many.1 h with rfl | ⟨m, hfirst, hmore⟩
  · refine reads_peek fun t ht ↦ ?_
    rw [ht, BinOp.ofKind?_eq_none_iff.2 fun hmem ↦ hnext (List.mem_cons_of_mem _ hmem)]
    exact reads_pure [] _
  · obtain ⟨m', hop, hoperand⟩ := spans_seq.1 hfirst
    obtain ⟨t, rfl, ht, -⟩ := spans_oneOf.1 hop
    rw [List.length_cons] at hn
    have hlt := hoperand.length_lt 8 (by decide)
    have hle := hmore.length_le
    refine reads_peek_cons ?_
    cases hop : BinOp.ofKind? t.kind with
    | none => exact absurd ht (BinOp.ofKind?_eq_none_iff.1 hop)
    | some op =>
      refine (reads_advance t m').bind fun _ ↦ ?_
      refine (ih.operand hoperand (firstKind_row hmore hnext) (by omega)).bind fun e ↦ ?_
      exact (ih.row hmore hnext (by omega)).bind fun more ↦ reads_pure _ _

/-- An operand goes on with every list of arguments, so a parenthesis must not follow it. -/
theorem operand_succ (h : Spans (.rule .operand) l l') (hnext : firstKind l' ≠ .sign .leftParen)
    (hn : 4 * l.length + 1 ≤ n + 1 + 4 * l'.length) : Reads (operandTo (n + 1)) l l' := by
  rw [operandTo]
  rcases spans_alt.1 (spans_rule.1 h) with h | h
  · obtain ⟨m, hop, hoperand⟩ := spans_seq.1 h
    obtain ⟨t, rfl, ht, -⟩ := spans_oneOf.1 hop
    rw [List.length_cons] at hn
    refine reads_peek_cons ?_
    cases hop : UnaryOp.ofKind? t.kind with
    | none => exact absurd ht (UnaryOp.ofKind?_eq_none_iff.1 hop)
    | some op =>
      refine (reads_advance t m).bind fun _ ↦ ?_
      refine (ih.operand hoperand hnext (by omega)).bind fun e ↦ ?_
      exact (reads_spanFrom _ _).bind fun span ↦ reads_pure _ _
  · obtain ⟨m, hatom, hcalls⟩ := spans_seq.1 (spans_rule.1 h)
    have hlt := hatom.length_lt 4 (by decide)
    have hle := hcalls.length_le
    have hfirst := hatom.firstKind_mem (.sign .leftParen :: atoms) 5 (by decide)
    refine reads_peek fun t ht ↦ ?_
    rw [ht, UnaryOp.ofKind?_eq_none_iff.2 ((by decide :
      ∀ k ∈ .sign .leftParen :: atoms, k ∉ unaryOperators) _ hfirst)]
    exact (ih.atom hatom (by omega)).bind fun e ↦ ih.calls hcalls hnext (by omega) e

theorem calls_succ (h : Spans (.many .arguments) l l') (hnext : firstKind l' ≠ .sign .leftParen)
    (hn : 4 * l.length + 1 ≤ n + 1 + 4 * l'.length) (e : Expr) :
    Reads (callsTo (n + 1) e) l l' := by
  rw [callsTo]
  rcases spans_many.1 h with rfl | ⟨m, hargs, hmore⟩
  · exact reads_eat_neg hnext (reads_pure e _)
  · obtain ⟨m', hopen, hlist⟩ := spans_seq.1 (spans_append_assoc.1 hargs)
    obtain ⟨t, rfl, ht, -⟩ := spans_kind.1 hopen
    rw [List.length_cons] at hn
    have hlt := hlist.length_lt 2 (by decide)
    have hle := hmore.length_le
    refine reads_eat_pos ht ((ih.arguments hlist (by omega)).bind fun args ↦ ?_)
    exact (reads_spanFrom _ m).bind fun span ↦ ih.calls hmore hnext (by omega) _

/-- An argument and those behind it are read alike, whether it is the first one or not. -/
theorem argumentList (h : Spans (.commas (.rule .expr) ++ .sign .rightParen) l l')
    (hn : 4 * l.length ≤ n + 1 + 4 * l'.length) :
    Reads (do return (← parseTo n) :: (← moreArgumentsTo n)) l l' := by
  obtain ⟨m, hexprs, hclose⟩ := spans_seq.1 h
  obtain ⟨m', hexpr, hmore⟩ := spans_seq.1 hexprs
  obtain ⟨u, rfl, hu, -⟩ := spans_kind.1 hclose
  have hlt := hexpr.length_lt 12 (by decide)
  have hle := hmore.length_le
  rw [List.length_cons] at hle
  refine (ih.parse hexpr (firstKind_moreArguments hmore hu) (by omega)).bind fun e ↦ ?_
  exact (ih.moreArguments (hmore.append hclose) (by omega)).bind fun more ↦ reads_pure _ _

theorem arguments_succ (h : Spans (.opt (.commas (.rule .expr)) ++ .sign .rightParen) l l')
    (hn : 4 * l.length ≤ n + 1 + 4 * l'.length) : Reads (argumentsTo (n + 1)) l l' := by
  rw [argumentsTo]
  obtain ⟨m, hopt, hclose⟩ := spans_seq.1 h
  rcases spans_opt.1 hopt with rfl | hexprs
  · obtain ⟨u, rfl, hu, -⟩ := spans_kind.1 hclose
    exact reads_eat_pos hu (reads_pure [] _)
  · obtain ⟨m', hexpr, -⟩ := spans_seq.1 hexprs
    refine reads_eat_neg (ne_of_mem_of_not_mem (firstKind_expr hexpr) (by decide)) ?_
    exact ih.argumentList (hexprs.append hclose) hn

theorem moreArguments_succ
    (h : Spans (.many (.sign .comma ++ .rule .expr) ++ .sign .rightParen) l l')
    (hn : 4 * l.length ≤ n + 1 + 4 * l'.length) : Reads (moreArgumentsTo (n + 1)) l l' := by
  rw [moreArgumentsTo]
  obtain ⟨m, hmany, hclose⟩ := spans_seq.1 h
  rcases spans_many.1 hmany with rfl | ⟨m, hfirst, hmore⟩
  · obtain ⟨u, rfl, hu, -⟩ := spans_kind.1 hclose
    have hu' : firstKind (u :: l') = .sign .rightParen := hu
    refine reads_eat_neg (hu' ▸ by decide) ?_
    exact (reads_expect hu l').bind fun _ ↦ reads_pure [] _
  · obtain ⟨m', hcomma, hexpr⟩ := spans_seq.1 hfirst
    obtain ⟨t, rfl, ht, -⟩ := spans_kind.1 hcomma
    rw [List.length_cons] at hn
    exact reads_eat_pos ht (ih.argumentList ((hexpr.append hmore).append hclose) (by omega))

/-- An atom is a token with a value, or an expression in parentheses; in these nothing can follow
that would let the expression go on. -/
theorem atom_succ (h : Spans (.rule .atom) l l') (hn : 4 * l.length ≤ n + 1 + 4 * l'.length) :
    Reads (atomTo (n + 1)) l l' := by
  rw [atomTo]
  rcases spans_alt.1 (spans_rule.1 h) with h | h
  · obtain ⟨t, rfl, ht, hvalue⟩ := spans_oneOf.1 h
    obtain ⟨e, he⟩ := exists_ofToken? ht hvalue
    refine reads_peek_cons ?_
    rw [he]
    exact (reads_advance t l').bind fun _ ↦ reads_pure e _
  · obtain ⟨m, h, hclose⟩ := spans_seq.1 h
    obtain ⟨m', hopen, hexpr⟩ := spans_seq.1 h
    obtain ⟨t, rfl, ht, -⟩ := spans_kind.1 hopen
    obtain ⟨u, rfl, hu, -⟩ := spans_kind.1 hclose
    have hu' : firstKind (u :: l') = .sign .rightParen := hu
    rw [List.length_cons] at hn
    refine reads_peek_cons ?_
    rw [ofToken?_eq_none (ht ▸ by decide)]
    refine reads_eat_pos ht ((ih.parse hexpr (hu' ▸ by decide) ?_).bind fun e ↦ ?_)
    · rw [List.length_cons]
      omega
    · exact (reads_expect hu l').bind fun _ ↦ reads_pure e _

theorem succ : CompleteTo (n + 1) where
  parse := ih.parse_succ
  row := ih.row_succ
  operand := ih.operand_succ
  calls := ih.calls_succ
  arguments := ih.arguments_succ
  moreArguments := ih.moreArguments_succ
  atom := ih.atom_succ

end CompleteTo

/-- So words are read, whatever the bound, as long as it suffices for them. -/
theorem completeTo (n : Nat) : CompleteTo n := by
  induction n with
  | zero => exact completeTo_zero
  | succ n ih => exact ih.succ

/-- **A word is read as an expression**, up to where it ends. -/
theorem reads_parse {l l' : List Token} (h : Spans (.rule .expr) l l')
    (hnext : firstKind l' ∈ closers) : Reads parse l l' := by
  rintro c rfl
  refine (completeTo (callBound c.rest.length)).parse h hnext ?_ c rfl
  rw [callBound]
  omega

end Expr

end FrontEnd
