import FrontEnd.Proofs.Expr.Grouping
import FrontEnd.Proofs.Expr.Parsed
import FrontEnd.Proofs.Token.Joining

/-!
# Reading the same tokens in another place

Tokens may stand further on in a text, and behind them there may come more than the end mark.
`Streams` says how two streams of tokens differ in that way, and `Parse.Transfers` that a parser
does on the second stream what it does on the first, but for the places.

Two things are asked for at once. If the second stream ends where the first one does, then
everything transfers, failures too. If it goes on, then only success does, and only if something is
left to be read before the end mark: a parser that has looked at the end mark would have seen
another token in the second stream. A parser looks at no more than one token behind what it reads,
so it is enough to know that one is left. How many tokens there are decides only about bounds on
calls, and a larger bound does no harm.
-/

namespace FrontEnd

/-! ### Spans in a tree -/

theorem Span.shift_merge (k : Nat) (s t : Span) :
    (s.shift k).merge (t.shift k) = (s.merge t).shift k := by
  rw [Span.merge, Span.merge, Span.shift, Span.shift, Span.shift, Nat.add_min_add_right,
    Nat.add_max_add_right]

/-- The note of an expression in another place. -/
def Note.mapSpan (f : Span → Span) (n : Note) : Note :=
  { n with span := f n.span }

/-- The error in a text that has `offset` more bytes in front. -/
def ParseError.shift (offset : Nat) (e : ParseError) : ParseError :=
  { e with span := e.span.shift offset }

namespace Expr

/-- The expression with `f` applied to every span in it. -/
def mapSpans (f : Span → Span) (e : Expr) : Expr :=
  e.mapNotes (Note.mapSpan f)

variable (f : Span → Span)

@[simp]
theorem span_mapSpans (e : Expr) : (e.mapSpans f).span = f e.span := by
  rw [span, mapSpans, note_mapNotes]
  rfl

@[simp]
theorem type?_mapSpans (e : Expr) : (e.mapSpans f).type? = e.type? := by
  rw [type?, mapSpans, note_mapNotes]
  rfl

theorem mapSpans_call (n : Note) (callee : Expr) (args : List Expr) :
    (call n callee args).mapSpans f =
      call (n.mapSpan f) (callee.mapSpans f) (args.map (mapSpans f)) := by
  rw [mapSpans, mapNotes, mapNotesAll_eq_map]
  rfl

end Expr

/-- Where operands stand plays no part in how a row is grouped. -/
theorem OpTree.toExpr_map_shift (k : Nat) (t : OpTree) :
    (t.map (Expr.mapSpans (.shift k))).toExpr = t.toExpr.mapSpans (.shift k) := by
  induction t with
  | leaf e => rfl
  | node op l r ihl ihr =>
    rw [map, toExpr, ihl, ihr, Expr.span_mapSpans, Expr.span_mapSpans, Span.shift_merge]
    rfl

/-- **A row is grouped alike** wherever it stands. -/
theorem Expr.ofRow_shift (k : Nat) (first : Expr) (more : List (BinOp × Expr)) :
    ofRow (first.mapSpans (.shift k)) (more.map (Prod.map id (mapSpans (.shift k)))) =
      (ofRow first more).mapSpans (.shift k) := by
  rw [ofRow, ofRow, ← OpTree.toExpr_map_shift, OpTree.map_foldl_attach]
  rfl

/-! ### Two streams -/

/-- **Two streams of tokens**: the second one stands further on, and where the first one ends with
its end mark it has a tail. -/
structure Streams where
  /-- How much further on the second stream stands. -/
  offset : Nat
  /-- The end mark of the first stream. -/
  mark : Token
  /-- What the second stream has in place of the end mark. -/
  tail : List Token
  mark_kind : mark.kind = .finish
  tail_ne_nil : tail ≠ []

namespace Streams

variable (S : Streams) {us vs : List Token} {c c' : Cursor}

/-- The two streams **end together**. -/
def Whole : Prop :=
  S.tail = [S.mark.shift S.offset]

/-- The next token of the first stream, if the tokens `us` are left before the end mark. -/
def head (us : List Token) : Token :=
  us.headD S.mark

/-- Two places in the streams **correspond** if the same tokens are left before the end mark, and
what was read last ends at the same place. Where nothing has been read of the second stream, that
place is somewhere before it. -/
structure Corresponds (us : List Token) (c c' : Cursor) : Prop where
  rest : c.rest = us ++ [S.mark]
  rest' : c'.rest = us.map (.shift S.offset) ++ S.tail
  lastStop : max c'.lastStop S.offset = c.lastStop + S.offset

/-- Bounds on calls: the second one may be larger, but only if the second stream goes on. -/
def Bounds (n m : Nat) : Prop :=
  n ≤ m ∧ (S.Whole → n = m)

variable {S}

/-- If there is a round left in the first stream, so there is in the second. -/
theorem Bounds.exists_succ {n m : Nat} (h : S.Bounds (n + 1) m) :
    ∃ m', m = m' + 1 ∧ S.Bounds n m' := by
  obtain ⟨m', rfl⟩ : ∃ m', m = m' + 1 := Nat.exists_eq_add_of_le' (Nat.le_trans (by omega) h.1)
  exact ⟨m', rfl, Nat.le_of_succ_le_succ h.1, fun hw ↦ Nat.succ.inj (h.2 hw)⟩

namespace Corresponds

/-- Every place in the first stream has one that corresponds to it. -/
theorem exists_of_rest (h : c.rest = us ++ [S.mark]) : ∃ c', S.Corresponds us c c' :=
  ⟨⟨us.map (.shift S.offset) ++ S.tail, c.lastStop + S.offset⟩, h, rfl,
    Nat.max_eq_left (Nat.le_add_left _ _)⟩

theorem current (h : S.Corresponds us c c') : c.current = S.head us := by
  rw [Cursor.current, h.rest]
  cases us <;> rfl

/-- The token that comes next in the second stream is the one in the first, further behind. -/
theorem current' (h : S.Corresponds us c c') (hus : us ≠ [] ∨ S.Whole) :
    c'.current = c.current.shift S.offset := by
  rw [h.current, Cursor.current, h.rest']
  cases us with
  | nil =>
    obtain hus | hwhole := hus
    · exact absurd rfl hus
    · rw [hwhole]
      rfl
  | cons t us => rfl

theorem next {t : Token} (h : S.Corresponds (t :: us) c c') : S.Corresponds us c.next c'.next where
  rest := by rw [Cursor.next, h.rest]; rfl
  rest' := by rw [Cursor.next, h.rest']; rfl
  lastStop := by
    rw [Cursor.next, Cursor.next, h.current' (.inl (List.cons_ne_nil _ _))]
    exact Nat.max_eq_left (Nat.le_add_left _ _)

theorem eq_cons (h : S.Corresponds us c c') (hc : c.current.kind ≠ .finish) :
    ∃ vs, us = c.current :: vs := by
  rw [h.current] at hc ⊢
  cases us with
  | nil => exact absurd S.mark_kind hc
  | cons t vs => exact ⟨vs, rfl⟩

/-- The number of tokens that are left. -/
theorem bounds (h : S.Corresponds us c c') : S.Bounds c.rest.length c'.rest.length := by
  rw [h.rest, h.rest', List.length_append, List.length_append, List.length_map]
  refine ⟨Nat.add_le_add_left (List.length_pos_iff.2 S.tail_ne_nil) _, fun hwhole ↦ ?_⟩
  rw [hwhole]
  rfl

/-- What is said of it is the same, in its other place, if the streams end together. -/
theorem unexpected (h : S.Corresponds us c c') (hwhole : S.Whole) :
    c'.unexpected = c.unexpected.shift S.offset := by
  rw [Cursor.unexpected, Cursor.unexpected, h.current' (.inr hwhole)]
  rfl

theorem unexpectedFor (h : S.Corresponds us c c') (hwhole : S.Whole) (k : Token.Kind) :
    c'.unexpectedFor k = (c.unexpectedFor k).shift S.offset := by
  rw [Cursor.unexpectedFor, Cursor.unexpectedFor, h.unexpected hwhole, h.current' (.inr hwhole),
    Token.shift_kind]
  cases c.current.kind <;> rfl

theorem spanFrom (h : S.Corresponds us c c') (s : Span) :
    c'.spanFrom (s.shift S.offset) = (c.spanFrom s).shift S.offset := by
  have hlast := h.lastStop
  rw [Cursor.spanFrom, Cursor.spanFrom, Span.shift, Span.shift]
  dsimp only
  congr 1
  omega

end Corresponds

end Streams

/-! ### Parsers -/

namespace Parse

open Streams

variable {α β γ δ : Type} {S : Streams} {us : List Token} {g : α → β} {h : γ → δ} {p : Parse α}
  {q : Parse β}

/-- How the results of reading at two places that correspond **agree**. -/
def Agree (S : Streams) (us : List Token) (g : α → β) :
    Except ParseError (α × Cursor) → Except ParseError (β × Cursor) → Prop
  | .ok (a, c), r =>
    ∃ vs, vs <:+ us ∧ c.rest = vs ++ [S.mark] ∧
      (vs ≠ [] ∨ S.Whole → ∃ c', r = .ok (g a, c') ∧ S.Corresponds vs c c')
  | .error e, r => S.Whole → r = .error (e.shift S.offset)

/-- What has been read from a part of the stream has been read from the stream. -/
theorem Agree.of_suffix {vs : List Token} {r : Except ParseError (α × Cursor)}
    {r' : Except ParseError (β × Cursor)} (h : Agree S vs g r r') (hvs : vs <:+ us) :
    Agree S us g r r' := by
  rcases r with e | ⟨a, c⟩
  · exact h
  · obtain ⟨ws, hws, hmore⟩ := h
    exact ⟨ws, hws.trans hvs, hmore⟩

/-- Where nothing is left before the end mark of the first stream, and the second one goes on, there
is nothing that would have to be read from it. -/
theorem Agree.of_nil (hus : ¬ (us ≠ [] ∨ S.Whole)) {r : Except ParseError (α × Cursor)}
    {r' r'' : Except ParseError (β × Cursor)} (h : Agree S us g r r') : Agree S us g r r'' := by
  obtain ⟨hnil, hpart⟩ := not_or.1 hus
  rcases r with e | ⟨a, c⟩
  · exact fun hwhole ↦ absurd hwhole hpart
  · obtain ⟨vs, hvs, hrest, -⟩ := h
    refine ⟨vs, hvs, hrest, fun hleft ↦ absurd hleft (not_or.2 ⟨?_, hpart⟩)⟩
    rw [not_not.1 hnil] at hvs
    exact not_not.2 (List.suffix_nil.1 hvs)

/-- **A parser transfers** to the second stream where the tokens `us` are left in the first: what is
read there is what is read here, up to `g`. -/
def Transfers (S : Streams) (us : List Token) (g : α → β) (p : Parse α) (q : Parse β) : Prop :=
  ∀ c c', S.Corresponds us c c' → Agree S us g (p c) (q c')

theorem transfers_pure (S : Streams) (us : List Token) (g : α → β) (a : α) :
    Transfers S us g (pure a) (pure (g a)) :=
  fun _ c' hc ↦ ⟨us, List.suffix_rfl, hc.rest, fun _ ↦ ⟨c', rfl, hc⟩⟩

/-- **One parser behind another**, which starts with some of the tokens that were left. -/
theorem Transfers.bindOn {f : α → Parse γ} {f' : β → Parse δ} (hp : Transfers S us g p q)
    (hf : ∀ vs, vs <:+ us → ∀ a, Transfers S vs h (f a) (f' (g a))) :
    Transfers S us h (p >>= f) (q >>= f') := by
  intro c c' hc
  have hagree := hp c c' hc
  rw [bind_apply, bind_apply]
  generalize p c = r at hagree
  rcases r with e | ⟨a, d⟩
  · intro hwhole
    rw [hagree hwhole]
  · obtain ⟨vs, hvs, hrest, hmore⟩ := hagree
    by_cases hleft : vs ≠ [] ∨ S.Whole
    · obtain ⟨d', hq, hd⟩ := hmore hleft
      rw [hq]
      exact (hf vs hvs a d d' hd).of_suffix hvs
    · obtain ⟨d', hd⟩ := Corresponds.exists_of_rest hrest
      exact ((hf vs hvs a d d' hd).of_nil hleft).of_suffix hvs

/-- **One parser behind another** transfers if the second does from wherever the first can stop. -/
theorem Transfers.bind {f : α → Parse γ} {f' : β → Parse δ} (hp : Transfers S us g p q)
    (hf : ∀ vs a, Transfers S vs h (f a) (f' (g a))) :
    Transfers S us h (p >>= f) (q >>= f') :=
  hp.bindOn fun vs _ a ↦ hf vs a

theorem transfers_ite {x : Prop} [Decidable x] {p₁ p₂ : Parse α} {q₁ q₂ : Parse β}
    (h₁ : x → Transfers S us g p₁ q₁) (h₂ : ¬ x → Transfers S us g p₂ q₂) :
    Transfers S us g (if x then p₁ else p₂) (if x then q₁ else q₂) := by
  split
  · exact h₁ ‹x›
  · exact h₂ ‹¬ x›

/-- If the streams end together a parser that fails does so in both; if not, nothing is said of the
second one. -/
theorem transfers_failHere : Transfers S us g failHere failHere :=
  fun _ _ hc hwhole ↦ congrArg Except.error (hc.unexpected hwhole)

/-- A parser that is out of calls fails, and in the second stream so does one with the same
bound. -/
theorem transfers_zero {m : Nat} {q : Nat → Parse β} (hq : q 0 = failHere)
    (hbounds : S.Bounds 0 m) : Transfers S us g failHere (q m) := by
  intro c c' hc hwhole
  rw [← hbounds.2 hwhole, hq]
  exact transfers_failHere (g := g) c c' hc hwhole

theorem transfers_fail (e : ParseError) : Transfers S us g (fail e) (fail (e.shift S.offset)) :=
  fun _ _ _ _ ↦ rfl

/-- A look at the next token. If that is the end mark, the second stream may have another token
there, but then nothing transfers. -/
theorem transfers_peek {f : Token → Parse γ} {f' : Token → Parse δ}
    (hf : Transfers S us h (f (S.head us)) (f' ((S.head us).shift S.offset))) :
    Transfers S us h (peek >>= f) (peek >>= f') := by
  intro c c' hc
  have hagree := hf c c' hc
  show Agree S us h (f c.current c) (f' c'.current c')
  rw [hc.current]
  by_cases hleft : us ≠ [] ∨ S.Whole
  · rwa [hc.current' hleft, hc.current]
  · exact hagree.of_nil hleft

/-- A token that is not the end mark is read in both streams. -/
theorem Agree.next {c c' : Cursor} (hc : S.Corresponds us c c') (hkind : c.current.kind ≠ .finish)
    (a : α) : Agree S us g (.ok (a, c.next)) (.ok (g a, c'.next)) := by
  obtain ⟨vs, rfl⟩ := hc.eq_cons hkind
  exact ⟨vs, List.suffix_cons _ _, hc.next.rest, fun _ ↦ ⟨c'.next, rfl, hc.next⟩⟩

theorem transfers_advance (hkind : (S.head us).kind ≠ .finish) {f : Token → Parse γ}
    {f' : Token → Parse δ}
    (hf : ∀ t vs, us = t :: vs → Transfers S vs h (f t) (f' (t.shift S.offset))) :
    Transfers S us h (advance >>= f) (advance >>= f') := by
  cases us with
  | nil => exact absurd S.mark_kind hkind
  | cons t vs =>
    intro c c' hc
    show Agree S (t :: vs) h (f c.current c.next) (f' c'.current c'.next)
    rw [hc.current' (.inl (List.cons_ne_nil _ _)), hc.current]
    exact (hf t vs rfl _ _ hc.next).of_suffix (List.suffix_cons _ _)

theorem transfers_at? (k : Token.Kind) : Transfers S us id (at? k) (at? k) := by
  intro c c' hc
  refine ⟨us, List.suffix_rfl, hc.rest, fun hleft ↦ ⟨c', ?_, hc⟩⟩
  rw [at?, hc.current' hleft]
  rfl

variable {k : Token.Kind}

theorem eat_bind (k : Token.Kind) (f : Bool → Parse α) (c : Cursor) :
    (eat k >>= f) c = if c.current.kind = k then f true c.next else f false c := by
  rw [bind_apply, eat]
  by_cases hkind : c.current.kind = k
  · rw [if_pos hkind, if_pos hkind]
  · rw [if_neg hkind, if_neg hkind]

theorem transfers_eat (hk : k ≠ .finish) : Transfers S us id (eat k) (eat k) := by
  intro c c' hc
  rw [eat, eat]
  by_cases hkind : c.current.kind = k
  · obtain ⟨vs, rfl⟩ := hc.eq_cons (hkind ▸ hk)
    rw [if_pos hkind, hc.current' (.inl (List.cons_ne_nil _ _)), Token.shift_kind, if_pos hkind]
    exact .next hc (hkind ▸ hk) true
  · rw [if_neg hkind]
    refine ⟨us, List.suffix_rfl, hc.rest, fun hleft ↦ ⟨c', ?_, hc⟩⟩
    rw [hc.current' hleft]
    exact if_neg hkind

/-- A token that is asked for is there in both streams or in neither. -/
theorem transfers_expect (hk : k ≠ .finish) :
    Transfers S us (.shift S.offset) (expect k) (expect k) := by
  intro c c' hc
  rw [expect, expect]
  by_cases hkind : c.current.kind = k
  · obtain ⟨vs, rfl⟩ := hc.eq_cons (hkind ▸ hk)
    rw [if_pos hkind, hc.current' (.inl (List.cons_ne_nil _ _)), Token.shift_kind, if_pos hkind]
    exact .next hc (hkind ▸ hk) _
  · rw [if_neg hkind]
    intro hwhole
    rw [hc.current' (.inr hwhole), hc.unexpectedFor hwhole]
    exact if_neg hkind

theorem transfers_spanFrom (s : Span) :
    Transfers S us (.shift S.offset) (spanFrom s) (spanFrom (s.shift S.offset)) := by
  intro c c' hc
  refine ⟨us, List.suffix_rfl, hc.rest, fun _ ↦ ⟨c', ?_, hc⟩⟩
  rw [spanFrom, hc.spanFrom]

end Parse

/-! ### Labels -/

namespace Ty

open Parse

/-- A label is read from its first token on. -/
theorem label_eq : label = (do
    let t ← peek
    match t.kind with
    | .scalar s => advance >>= fun _ ↦ pure (scalar s)
    | .sign .star =>
      advance >>= fun _ ↦ eat (.keyword .const) >>= fun isConst ↦
        label >>= fun a ↦ pure (pointer isConst a)
    | _ => failHere) := by
  have hpointer (isConst : Bool) (l : List Token) (s : Nat) :
      (label >>= fun a ↦ pure (pointer isConst a)) ⟨l, s⟩ =
        (labelFrom s l).map fun x ↦ (pointer isConst x.1, x.2) := by
    rw [bind_apply, label]
    rcases labelFrom s l with e | ⟨a, c⟩ <;> rfl
  funext c
  rcases c with ⟨_ | ⟨t, ts⟩, s⟩
  · rfl
  · rw [bind_apply, peek, label, labelFrom.eq_def]
    dsimp only [Cursor.current, List.headD]
    cases t.kind with
    | sign w =>
      cases w with
      | star =>
        rcases ts with _ | ⟨u, us⟩
        · rfl
        · refine Eq.trans ?_ (eat_bind (.keyword .const) (fun isConst ↦
            label >>= fun a ↦ pure (pointer isConst a)) ⟨u :: us, t.span.stop⟩).symm
          show _ = if u.kind = .keyword .const then
            (label >>= fun a ↦ pure (pointer true a)) ⟨us, u.span.stop⟩ else _
          rewrite [hpointer, hpointer]
          dsimp only
          by_cases hconst : u.kind = .keyword .const
          · rw [if_pos hconst, if_pos hconst]
            rcases labelFrom u.span.stop us with e | ⟨a, c⟩ <;> rfl
          · rw [if_neg hconst, if_neg hconst]
            rcases labelFrom t.span.stop (u :: us) with e | ⟨a, c⟩ <;> rfl
      | _ => rfl
    | _ => rfl

/-- **Labels transfer.** -/
theorem transfers_label {S : Streams} (us : List Token) : Transfers S us id label label := by
  induction hlength : us.length using Nat.strong_induction_on generalizing us with
  | _ n ih =>
    subst hlength
    rw [label_eq]
    refine transfers_peek ?_
    rw [Token.shift_kind]
    cases hkind : (S.head us).kind with
    | scalar s =>
      refine transfers_advance (by rw [hkind]; exact Token.Kind.noConfusion) fun t vs _ ↦ ?_
      exact transfers_pure S vs id _
    | sign w =>
      cases w with
      | star =>
        refine transfers_advance (by rw [hkind]; exact Token.Kind.noConfusion) fun t vs hus ↦ ?_
        refine (transfers_eat Token.Kind.noConfusion).bindOn fun ws hws isConst ↦ ?_
        have hlt : ws.length < us.length := by
          rw [hus]
          exact Nat.lt_succ_of_le hws.length_le
        exact (ih ws.length hlt ws rfl).bind fun ws' a ↦ transfers_pure S ws' id _
      | _ => exact transfers_failHere
    | _ => exact transfers_failHere

end Ty

/-! ### Expressions -/

namespace Expr

open Parse Streams

variable {S : Streams} {n m : Nat} {us : List Token}

/-- A token is the same expression wherever it stands. -/
theorem ofToken?_shift (k : Nat) (t : Token) : ofToken? (t.shift k) =
    (ofToken? t).map fun
      | .ok e => .ok (e.mapSpans (.shift k))
      | .error e => .error (e.shift k) := by
  have hconstant : constantOf? (t.shift k) = constantOf? t := rfl
  rw [ofToken?, ofToken?, Token.shift_kind, hconstant]
  split
  · rfl
  · rw [Option.map_map]
    congr 1
    funext r
    cases r <;> rfl

/-- A token that is an expression by itself is not the end mark. -/
theorem kind_ne_finish_of_ofToken? {t : Token} {r : Except ParseError Expr}
    (h : ofToken? t = some r) : t.kind ≠ .finish := by
  intro hkind
  rw [ofToken?, constantOf?, hkind] at h
  cases h

/-- Casts transfer, by induction on the bounds of both loops. -/
theorem transfers_casts (hbounds : S.Bounds n m) (us : List Token) (e : Expr) :
    Transfers S us (mapSpans (.shift S.offset)) (casts n e)
      (casts m (e.mapSpans (.shift S.offset))) := by
  induction n generalizing m us e with
  | zero =>
    exact transfers_zero (q := fun m ↦ casts m (e.mapSpans (.shift S.offset))) rfl hbounds
  | succ n ih =>
    obtain ⟨m, rfl, hnm⟩ := hbounds.exists_succ
    refine (transfers_eat Token.Kind.noConfusion).bind fun vs b ↦ ?_
    refine transfers_ite (fun _ ↦ ?_) fun _ ↦ transfers_pure S vs _ e
    refine (Ty.transfers_label vs).bind fun vs dest ↦ ?_
    rw [span_mapSpans]
    exact (transfers_spanFrom _).bind fun vs span ↦ ih hnm vs _

/-- **All parsers of expressions transfer**, with bounds on their calls. -/
structure TransfersTo (S : Streams) (n m : Nat) : Prop where
  parse (us : List Token) :
    Transfers S us (mapSpans (.shift S.offset)) (parseTo n) (parseTo m)
  row (us : List Token) :
    Transfers S us (List.map (Prod.map id (mapSpans (.shift S.offset)))) (rowTo n) (rowTo m)
  operand (us : List Token) :
    Transfers S us (mapSpans (.shift S.offset)) (operandTo n) (operandTo m)
  calls (us : List Token) (e : Expr) :
    Transfers S us (mapSpans (.shift S.offset)) (callsTo n e)
      (callsTo m (e.mapSpans (.shift S.offset)))
  arguments (us : List Token) :
    Transfers S us (List.map (mapSpans (.shift S.offset))) (argumentsTo n) (argumentsTo m)
  moreArguments (us : List Token) :
    Transfers S us (List.map (mapSpans (.shift S.offset))) (moreArgumentsTo n) (moreArgumentsTo m)
  atom (us : List Token) :
    Transfers S us (mapSpans (.shift S.offset)) (atomTo n) (atomTo m)

theorem TransfersTo.zero (hbounds : S.Bounds 0 m) : TransfersTo S 0 m where
  parse _ := transfers_zero rfl hbounds
  row _ := transfers_zero rfl hbounds
  operand _ := transfers_zero rfl hbounds
  calls _ e := transfers_zero (q := fun m ↦ callsTo m (e.mapSpans (.shift S.offset))) rfl hbounds
  arguments _ := transfers_zero rfl hbounds
  moreArguments _ := transfers_zero rfl hbounds
  atom _ := transfers_zero rfl hbounds

namespace TransfersTo

variable (ih : TransfersTo S n m) (hbounds : S.Bounds n m)

include ih

include hbounds in
/-- One lemma for each function: with one more call on both sides it transfers if those that it
calls do. -/
theorem parseTo_succ (us : List Token) :
    Transfers S us (mapSpans (.shift S.offset)) (parseTo (n + 1)) (parseTo (m + 1)) := by
  rw [parseTo, parseTo]
  refine (ih.operand us).bind fun vs first ↦ (ih.row vs).bind fun vs more ↦ ?_
  rw [ofRow_shift]
  exact transfers_casts hbounds vs _

theorem rowTo_succ (us : List Token) :
    Transfers S us (List.map (Prod.map id (mapSpans (.shift S.offset)))) (rowTo (n + 1))
      (rowTo (m + 1)) := by
  rw [rowTo, rowTo]
  refine transfers_peek ?_
  rw [Token.shift_kind]
  cases hop : BinOp.ofKind? (S.head us).kind with
  | none => exact transfers_pure S us _ []
  | some op =>
    have hkind : (S.head us).kind ≠ .finish := by
      intro hkind
      rw [hkind] at hop
      cases hop
    refine transfers_advance hkind fun t vs _ ↦ ?_
    refine (ih.operand vs).bind fun vs e ↦ (ih.row vs).bind fun vs more ↦ ?_
    exact transfers_pure S vs _ ((op, e) :: more)

theorem operandTo_succ (us : List Token) :
    Transfers S us (mapSpans (.shift S.offset)) (operandTo (n + 1)) (operandTo (m + 1)) := by
  rw [operandTo, operandTo]
  refine transfers_peek ?_
  rw [Token.shift_kind]
  cases hop : UnaryOp.ofKind? (S.head us).kind with
  | none => exact (ih.atom us).bind fun vs e ↦ ih.calls vs e
  | some op =>
    have hkind : (S.head us).kind ≠ .finish := by
      intro hkind
      rw [hkind] at hop
      cases hop
    refine transfers_advance hkind fun t vs _ ↦ ?_
    refine (ih.operand vs).bind fun vs e ↦ (transfers_spanFrom _).bind fun vs span ↦ ?_
    exact transfers_pure S vs _ (unary (.untyped span) op e)

theorem callsTo_succ (us : List Token) (e : Expr) :
    Transfers S us (mapSpans (.shift S.offset)) (callsTo (n + 1) e)
      (callsTo (m + 1) (e.mapSpans (.shift S.offset))) := by
  rw [callsTo, callsTo]
  refine (transfers_eat Token.Kind.noConfusion).bind fun vs b ↦ ?_
  refine transfers_ite (fun _ ↦ ?_) fun _ ↦ transfers_pure S vs _ e
  refine (ih.arguments vs).bind fun vs args ↦ ?_
  rw [span_mapSpans]
  refine (transfers_spanFrom _).bind fun vs span ↦ ?_
  have hcalls := ih.calls vs (call (.untyped span) e args)
  rwa [mapSpans_call] at hcalls

theorem argumentsTo_succ (us : List Token) :
    Transfers S us (List.map (mapSpans (.shift S.offset))) (argumentsTo (n + 1))
      (argumentsTo (m + 1)) := by
  rw [argumentsTo, argumentsTo]
  refine (transfers_eat Token.Kind.noConfusion).bind fun vs b ↦ ?_
  refine transfers_ite (fun _ ↦ transfers_pure S vs _ []) fun _ ↦ ?_
  refine (ih.parse vs).bind fun vs e ↦ (ih.moreArguments vs).bind fun vs more ↦ ?_
  exact transfers_pure S vs _ (e :: more)

theorem moreArgumentsTo_succ (us : List Token) :
    Transfers S us (List.map (mapSpans (.shift S.offset))) (moreArgumentsTo (n + 1))
      (moreArgumentsTo (m + 1)) := by
  rw [moreArgumentsTo, moreArgumentsTo]
  refine (transfers_eat Token.Kind.noConfusion).bind fun vs b ↦ ?_
  refine transfers_ite (fun _ ↦ ?_) fun _ ↦ ?_
  · refine (ih.parse vs).bind fun vs e ↦ (ih.moreArguments vs).bind fun vs more ↦ ?_
    exact transfers_pure S vs _ (e :: more)
  · exact (transfers_expect Token.Kind.noConfusion).bind fun vs _ ↦ transfers_pure S vs _ []

theorem atomTo_succ (us : List Token) :
    Transfers S us (mapSpans (.shift S.offset)) (atomTo (n + 1)) (atomTo (m + 1)) := by
  rw [atomTo, atomTo]
  refine transfers_peek ?_
  rw [ofToken?_shift]
  cases htoken : ofToken? (S.head us) with
  | none =>
    refine (transfers_eat Token.Kind.noConfusion).bind fun vs b ↦ ?_
    refine transfers_ite (fun _ ↦ ?_) fun _ ↦ transfers_failHere
    refine (ih.parse vs).bind fun vs e ↦ ?_
    exact (transfers_expect Token.Kind.noConfusion).bind fun vs _ ↦ transfers_pure S vs _ e
  | some r =>
    cases r with
    | error e => exact transfers_fail e
    | ok e =>
      exact transfers_advance (kind_ne_finish_of_ofToken? htoken) fun t vs _ ↦
        transfers_pure S vs _ e

end TransfersTo

/-- So all of them do, by induction on the first bound. -/
theorem transfersTo (hbounds : S.Bounds n m) : TransfersTo S n m := by
  induction n generalizing m with
  | zero => exact .zero hbounds
  | succ n ih =>
    obtain ⟨m, rfl, hnm⟩ := hbounds.exists_succ
    have h := ih hnm
    exact ⟨h.parseTo_succ hnm, h.rowTo_succ, h.operandTo_succ, h.callsTo_succ, h.argumentsTo_succ,
      h.moreArgumentsTo_succ, h.atomTo_succ⟩

/-- **Expressions transfer.** -/
theorem transfers_parse (us : List Token) :
    Transfers S us (mapSpans (.shift S.offset)) parse parse := by
  intro c c' hc
  have hbounds : S.Bounds (callBound c.rest.length) (callBound c'.rest.length) := by
    obtain ⟨hle, heq⟩ := hc.bounds
    rw [callBound, callBound]
    exact ⟨by omega, fun hwhole ↦ by rw [heq hwhole]⟩
  exact (transfersTo hbounds).parse us c c' hc

end Expr

end FrontEnd
