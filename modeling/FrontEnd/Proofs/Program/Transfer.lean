import FrontEnd.Proofs.Grammar.Definitions
import FrontEnd.Proofs.Program.Relocation

/-!
# Reading definitions in another place

What `Parse.Transfers` says of parsers that only read, `Build.Transfers` says of those that change a
program as they read: the two programs stay in step, each symbol and each definition in its other
place, and what is reported is the same.

A definition ends with a semicolon or a brace, and nobody looks at what comes behind
(`Build.transfers_definition`). So definitions transfer also if they are the last ones of the first
stream, which is where a file may be cut off.
-/

namespace FrontEnd

/-! ### Diagnostics -/

namespace Diagnostic

/-- The diagnostic in a text that has `offset` more bytes in front. -/
def shift (offset : Nat) (x : Diagnostic) : Diagnostic :=
  { x with span := x.span.shift offset }

/-- What a diagnostic is about, and where, without the file in which it is shown. -/
def gist (x : Diagnostic) : Category × String × Span :=
  (x.category, x.message, x.span)

end Diagnostic

/-! ### Two drafts -/

/-- **Reading a file in another place**: two streams of tokens, and a relocation of what comes from
them. -/
structure Insertion extends Streams where
  /-- The other places of what is read, and of what has been read before. -/
  relocation : Relocation
  /-- The number of the file in which the first stream stands. -/
  file : Nat
  /-- What has been reported of the second text before. -/
  earlier : List Diagnostic
  span_eq : relocation.span file = .shift offset

namespace Insertion

variable (I : Insertion) {us : List Token} {d d' : Draft}

/-- Two drafts **match**: everything in the second one is where the relocation puts it, and the same
has been reported. -/
structure Matches (d d' : Draft) : Prop extends I.relocation.Leads d.program d'.program where
  file : d.file = I.file
  file' : d'.file = I.relocation.file I.file
  diagnostics : d'.diagnostics.map Diagnostic.gist =
    (I.earlier ++ d.diagnostics.map (Diagnostic.shift I.offset)).map Diagnostic.gist

/-- Two drafts match, and the same tokens are left to be read. -/
structure InStep (us : List Token) (d d' : Draft) : Prop extends I.Matches d d' where
  cursor : I.Corresponds us d.cursor d'.cursor

variable {I}

theorem Matches.withCursor (h : I.Matches d d') (c c' : Cursor) :
    I.Matches { d with cursor := c } { d' with cursor := c' } :=
  { h with }

/-- Every draft of the first text has one of the second that is in step with it. -/
theorem exists_inStep (hfile : d.file = I.file) (hrest : d.cursor.rest = us ++ [I.mark]) :
    ∃ d', I.InStep us d d' := by
  obtain ⟨c', hc'⟩ := Streams.Corresponds.exists_of_rest hrest
  refine ⟨{ source := default, cursor := c', diagnostics :=
    I.earlier ++ d.diagnostics.map (Diagnostic.shift I.offset), program :=
      { name := d.program.name, files := List.replicate (I.relocation.file I.file) default,
        definitions := d.program.definitions.map I.relocation.definition
        symbols := d.program.symbols.map I.relocation.symbol, globals := d.program.globals } },
    ⟨⟨rfl, rfl, rfl⟩, hfile, List.length_replicate, rfl⟩, hc'⟩

theorem InStep.next {t : Token} (h : I.InStep (t :: us) d d') :
    I.InStep us { d with cursor := d.cursor.next } { d' with cursor := d'.cursor.next } :=
  ⟨h.toMatches.withCursor _ _, h.cursor.next⟩

/-- What is reported of both texts leaves them matched. -/
theorem Matches.report (h : I.Matches d d') (category : Category) (message : String) (span : Span) :
    I.Matches (d.report category message span)
      (d'.report category message (span.shift I.offset)) :=
  { h with
    diagnostics := by
      rw [Draft.report, Draft.report, List.map_append, h.diagnostics]
      simp [Diagnostic.gist, Diagnostic.ofFile, Diagnostic.shift] }

theorem Matches.addSymbol (h : I.Matches d d') (s : Symbol) :
    I.Matches (d.addSymbol s) (d'.addSymbol (I.relocation.symbol s)) :=
  { h with
    symbols := by
      rw [Draft.addSymbol, Draft.addSymbol, h.symbols, List.map_append]
      rfl }

/-- So does a definition that is added to both, in its place. -/
theorem Matches.addDefinition (h : I.Matches d d') (x : Definition) :
    I.Matches (d.addDefinition x) (d'.addDefinition (I.relocation.definition x)) :=
  { h with
    definitions := by
      rw [Draft.addDefinition, Draft.addDefinition, h.definitions, List.map_append]
      rfl }

theorem Matches.bind (h : I.Matches d d') (name : String) (symbol : Nat) :
    I.Matches (d.bind name symbol) (d'.bind name symbol) :=
  { h with
    globals := by
      rw [Draft.bind, Draft.bind, h.globals] }

end Insertion

/-! ### Parsers that change a program -/

/-- How far a parser has **looked ahead** of what it has read. -/
inductive Lookahead where
  /-- It may have looked at the next token. -/
  | one
  /-- It has looked at no more than it has read, and it has read something. -/
  | none

namespace Build

open Parse

variable {α β γ δ : Type} {I : Insertion} {l : Lookahead} {us : List Token} {g : α → β}
  {h : γ → δ} {p : Build α} {q : Build β} {k : Token.Kind}

/-- How the results of reading in two drafts that are in step **agree**. -/
def Agree (I : Insertion) (l : Lookahead) (us : List Token) (g : α → β) :
    Except ParseError α × Draft → Except ParseError β × Draft → Prop
  | (.ok a, d), r =>
    d.file = I.file ∧ ∃ vs, vs <:+ us ∧ d.cursor.rest = vs ++ [I.mark] ∧
      (l = .none → vs.length < us.length) ∧
        (l = .none ∨ vs ≠ [] ∨ I.Whole → r.1 = .ok (g a) ∧ I.InStep vs d r.2)
  | (.error e, d), r => I.Whole → r.1 = .error (e.shift I.offset) ∧ I.Matches d r.2

/-- **A parser transfers** to the second draft where the tokens `us` are left in the first: what is
read there is what is read here, up to `g`. -/
def Transfers (I : Insertion) (l : Lookahead) (us : List Token) (g : α → β) (p : Build α)
    (q : Build β) : Prop :=
  ∀ d d', I.InStep us d d' → Agree I l us g (p d) (q d')

/-- **A parser is still** if it reads nothing, looks at nothing, and cannot fail. -/
def Still (I : Insertion) (g : α → β) (p : Build α) (q : Build β) : Prop :=
  ∀ us d d', I.InStep us d d' →
    ∃ a e e', p d = (.ok a, e) ∧ q d' = (.ok (g a), e') ∧ I.InStep us e e'

/-- What has been read from a part of the stream has been read from the stream. -/
theorem Agree.of_suffix {vs : List Token} {r : Except ParseError α × Draft}
    {r' : Except ParseError β × Draft} (hr : Agree I l vs g r r') (hvs : vs <:+ us) :
    Agree I l us g r r' := by
  rcases r with ⟨e | a, d⟩
  · exact hr
  · obtain ⟨hfile, ws, hws, hrest, hlt, hmore⟩ := hr
    exact ⟨hfile, ws, hws.trans hvs, hrest, fun hl ↦ Nat.lt_of_lt_of_le (hlt hl) hvs.length_le,
      hmore⟩

/-- Where nothing is left before the end mark of the first stream, and the second one goes on, there
is nothing that would have to be read from it. -/
theorem Agree.of_nil (hus : ¬ (us ≠ [] ∨ I.Whole)) {r : Except ParseError α × Draft}
    {r' r'' : Except ParseError β × Draft} (hr : Agree I l us g r r') : Agree I l us g r r'' := by
  obtain ⟨hnil, hpart⟩ := not_or.1 hus
  obtain rfl := not_not.1 hnil
  rcases r with ⟨e | a, d⟩
  · exact fun hwhole ↦ absurd hwhole hpart
  · obtain ⟨hfile, vs, hvs, hrest, hlt, -⟩ := hr
    obtain rfl := List.suffix_nil.1 hvs
    refine ⟨hfile, [], hvs, hrest, hlt, ?_⟩
    rintro (hl | hleft)
    · exact absurd (hlt hl) (Nat.lt_irrefl _)
    · exact absurd hleft hus

/-- A parser that does not look ahead may as well look at one token. -/
theorem Transfers.loosen (hp : Transfers I l us g p q) : Transfers I .one us g p q := by
  intro d d' hd
  have hr := hp d d' hd
  generalize p d = r at hr ⊢
  rcases r with ⟨e | a, d₁⟩
  · exact hr
  · obtain ⟨hfile, vs, hvs, hrest, -, hmore⟩ := hr
    refine ⟨hfile, vs, hvs, hrest, Lookahead.noConfusion, fun hleft ↦ hmore (.inr ?_)⟩
    exact hleft.resolve_left Lookahead.noConfusion

/-- A parser that is still transfers, whatever is left. -/
theorem Still.transfers (hp : Still I g p q) (us : List Token) : Transfers I .one us g p q := by
  intro d d' hd
  obtain ⟨a, e, e', hp, hq, hstep⟩ := hp us d d' hd
  rw [hp, hq]
  exact ⟨hstep.file, us, List.suffix_rfl, hstep.cursor.rest, Lookahead.noConfusion,
    fun _ ↦ ⟨rfl, hstep⟩⟩

theorem still_pure (I : Insertion) (g : α → β) (a : α) : Still I g (pure a) (pure (g a)) :=
  fun _ d d' hd ↦ ⟨a, d, d', rfl, rfl, hd⟩

theorem Still.bind {f : α → Build γ} {f' : β → Build δ} (hp : Still I g p q)
    (hf : ∀ a, Still I h (f a) (f' (g a))) : Still I h (p >>= f) (q >>= f') := by
  intro us d d' hd
  obtain ⟨a, e, e', hp, hq, hstep⟩ := hp us d d' hd
  rw [bind_apply, bind_apply, hp, hq]
  exact hf a us e e' hstep

theorem transfers_pure (I : Insertion) (us : List Token) (g : α → β) (a : α) :
    Transfers I .one us g (pure a) (pure (g a)) :=
  (still_pure I g a).transfers us

/-- Stopping transfers: with the streams ending together, the same is said of the same token. -/
theorem transfers_stop : Transfers I l us g stop stop :=
  fun _ _ hd hwhole ↦ ⟨congrArg Except.error (hd.cursor.unexpected hwhole), hd.toMatches⟩

theorem transfers_zero {m : Nat} {q : Nat → Build β} (hq : q 0 = stop)
    (hbounds : I.Bounds 0 m) : Transfers I l us g stop (q m) := by
  intro d d' hd hwhole
  rw [← hbounds.2 hwhole, hq]
  exact transfers_stop (l := l) (g := g) d d' hd hwhole

theorem bind_of_ok {d : Draft} {a : α} (hp : (p d).1 = .ok a) (f : α → Build γ) :
    (p >>= f) d = f a (p d).2 := by
  rw [bind_apply]
  generalize p d = r at hp ⊢
  obtain ⟨x, d'⟩ := r
  obtain rfl : x = .ok a := hp
  rfl

/-- Where the first parser fails the second is not reached, and the draft is what the first has
left. -/
theorem bind_of_error {d : Draft} {e : ParseError} (hp : (p d).1 = .error e) (f : α → Build γ) :
    (p >>= f) d = (.error e, (p d).2) := by
  rw [bind_apply]
  generalize p d = r at hp ⊢
  obtain ⟨x, d'⟩ := r
  obtain rfl : x = .error e := hp
  rfl

/-- **One parser behind another.** What counts is how far the last one looks. -/
theorem Transfers.bind {f : α → Build γ} {f' : β → Build δ} (hp : Transfers I .one us g p q)
    (hf : ∀ vs a, Transfers I l vs h (f a) (f' (g a))) :
    Transfers I l us h (p >>= f) (q >>= f') := by
  intro d d' hd
  have hr := hp d d' hd
  rw [bind_apply p f]
  generalize p d = r at hr
  rcases r with ⟨e | a, d₁⟩
  · intro hwhole
    rw [bind_of_error (hr hwhole).1]
    exact ⟨rfl, (hr hwhole).2⟩
  · obtain ⟨hfile, vs, hvs, hrest, -, hmore⟩ := hr
    by_cases hleft : vs ≠ [] ∨ I.Whole
    · obtain ⟨hq, hstep⟩ := hmore (.inr hleft)
      rw [bind_of_ok hq]
      exact (hf vs a d₁ _ hstep).of_suffix hvs
    · obtain ⟨d₂, hd₂⟩ := Insertion.exists_inStep hfile hrest
      exact ((hf vs a d₁ d₂ hd₂).of_nil hleft).of_suffix hvs

/-- What is still may come behind any parser, and may use what is known of the draft there. -/
theorem Transfers.bindStill {f : α → Build γ} {f' : β → Build δ} {Q : α → Draft → Prop}
    (hp : Transfers I l us g p q) (hQ : ∀ d, Ensures p d Q)
    (hf : ∀ a vs e e', Q a e → I.InStep vs e e' →
      ∃ b e₁ e₁', f a e = (.ok b, e₁) ∧ f' (g a) e' = (.ok (h b), e₁') ∧ I.InStep vs e₁ e₁') :
    Transfers I l us h (p >>= f) (q >>= f') := by
  intro d d' hd
  have hr := hp d d' hd
  have hQ := hQ d
  rw [Ensures] at hQ
  rw [bind_apply p f]
  generalize p d = r at hr hQ
  rcases r with ⟨e | a, d₁⟩
  · intro hwhole
    rw [bind_of_error (hr hwhole).1]
    exact ⟨rfl, (hr hwhole).2⟩
  · obtain ⟨hfile, vs, hvs, hrest, hlt, hmore⟩ := hr
    obtain ⟨d₂, hd₂⟩ := Insertion.exists_inStep hfile hrest
    obtain ⟨b, e, e₂, hb, -, hstep₂⟩ := hf a vs d₁ d₂ (hQ a rfl) hd₂
    dsimp only
    rw [hb]
    refine ⟨hstep₂.file, vs, hvs, hstep₂.cursor.rest, hlt, fun hleft ↦ ?_⟩
    obtain ⟨hq, hstep⟩ := hmore hleft
    obtain ⟨b', e', e'', hb', hq', hstep'⟩ := hf a vs d₁ _ (hQ a rfl) hstep
    obtain ⟨hbb, rfl⟩ := Prod.mk.inj (hb.symm.trans hb')
    obtain rfl := Except.ok.inj hbb
    rw [bind_of_ok hq, hq']
    exact ⟨rfl, hstep'⟩

/-- What happens behind the last token transfers with it. -/
theorem Transfers.then {f : α → Build γ} {f' : β → Build δ} (hp : Transfers I l us g p q)
    (hf : ∀ a, Still I h (f a) (f' (g a))) : Transfers I l us h (p >>= f) (q >>= f') :=
  hp.bindStill (Q := fun _ _ ↦ True) (fun _ _ _ ↦ trivial) fun a vs e e' _ hstep ↦
    hf a vs e e' hstep

theorem transfers_ite {x : Prop} [Decidable x] {p₁ p₂ : Build α} {q₁ q₂ : Build β}
    (h₁ : x → Transfers I l us g p₁ q₁) (h₂ : ¬ x → Transfers I l us g p₂ q₂) :
    Transfers I l us g (if x then p₁ else p₂) (if x then q₁ else q₂) := by
  split
  · exact h₁ ‹x›
  · exact h₂ ‹¬ x›

/-- A parser that leaves the program alone. -/
theorem transfers_lift {p : Parse α} {q : Parse β} (hp : Parse.Transfers I.toStreams us g p q) :
    Transfers I .one us g (liftM p) (liftM q) := by
  intro d d' hd
  have hr := hp d.cursor d'.cursor hd.cursor
  rw [lift_apply, lift_apply]
  generalize p d.cursor = r at hr
  rcases r with e | ⟨a, c⟩
  · intro hwhole
    rw [hr hwhole]
    exact ⟨rfl, hd.toMatches⟩
  · obtain ⟨vs, hvs, hrest, hmore⟩ := hr
    refine ⟨hd.file, vs, hvs, hrest, Lookahead.noConfusion, fun hleft ↦ ?_⟩
    obtain ⟨c', hq, hc⟩ := hmore (hleft.resolve_left Lookahead.noConfusion)
    rw [hq]
    exact ⟨rfl, hd.toMatches.withCursor c c', hc⟩

theorem transfers_peek {f : Token → Build γ} {f' : Token → Build δ}
    (hf : Transfers I l us h (f (I.head us)) (f' ((I.head us).shift I.offset))) :
    Transfers I l us h (liftM peek >>= f) (liftM peek >>= f') := by
  intro d d' hd
  have hr := hf d d' hd
  show Agree I l us h (f d.cursor.current d) (f' d'.cursor.current d')
  rw [hd.cursor.current]
  by_cases hleft : us ≠ [] ∨ I.Whole
  · rwa [hd.cursor.current' hleft, hd.cursor.current]
  · exact hr.of_nil hleft

/-- A token that has to be of a kind is read if it is looked at. -/
theorem transfers_expect (hk : k ≠ .finish) : Transfers I .none us (Token.shift I.offset)
    (liftM (expect k) : Build Token) (liftM (expect k) : Build Token) := by
  intro d d' hd
  rw [lift_apply, lift_apply, expect, expect]
  by_cases hkind : d.cursor.current.kind = k
  · obtain ⟨vs, rfl⟩ := hd.cursor.eq_cons (hkind ▸ hk)
    rw [if_pos hkind, hd.cursor.current' (.inl (List.cons_ne_nil _ _)), Token.shift_kind,
      if_pos hkind]
    exact ⟨hd.file, vs, List.suffix_cons _ _, hd.cursor.next.rest,
      fun _ ↦ Nat.lt_succ_self _, fun _ ↦ ⟨rfl, hd.next⟩⟩
  · rw [if_neg hkind]
    intro hwhole
    rw [hd.cursor.current' (.inr hwhole), Token.shift_kind, if_neg hkind,
      hd.cursor.unexpectedFor hwhole]
    exact ⟨rfl, hd.toMatches⟩

theorem ifEat_apply (k : Token.Kind) (p₁ p₂ : Build α) (d : Draft) :
    (liftM (eat k) >>= fun b ↦ if b = true then p₁ else p₂ : Build α) d =
      if d.cursor.current.kind = k then p₁ { d with cursor := d.cursor.next } else p₂ d := by
  rw [bind_apply, lift_apply, eat]
  by_cases hkind : d.cursor.current.kind = k
  · rw [if_pos hkind, if_pos hkind]
    rfl
  · rw [if_neg hkind, if_neg hkind]
    rfl

/-- To stop at a token, or to go on before it. -/
theorem transfers_ifEat (hk : k ≠ .finish) {p₁ p₂ : Build α} {q₁ q₂ : Build β}
    (h₁ : Still I g p₁ q₁) (h₂ : ∀ vs, Transfers I .none vs g p₂ q₂) :
    Transfers I .none us g (liftM (eat k) >>= fun b ↦ if b = true then p₁ else p₂)
      (liftM (eat k) >>= fun b ↦ if b = true then q₁ else q₂) := by
  intro d d' hd
  rw [ifEat_apply, ifEat_apply]
  by_cases hkind : d.cursor.current.kind = k
  · obtain ⟨vs, rfl⟩ := hd.cursor.eq_cons (hkind ▸ hk)
    rw [if_pos hkind, hd.cursor.current' (.inl (List.cons_ne_nil _ _)), Token.shift_kind,
      if_pos hkind]
    obtain ⟨a, e, e', hp, hq, hstep⟩ := h₁ vs _ _ hd.next
    rw [hp, hq]
    exact ⟨hstep.file, vs, List.suffix_cons _ _, hstep.cursor.rest, fun _ ↦ Nat.lt_succ_self _,
      fun _ ↦ ⟨rfl, hstep⟩⟩
  · rw [if_neg hkind]
    by_cases hleft : us ≠ [] ∨ I.Whole
    · rw [hd.cursor.current' hleft, Token.shift_kind, if_neg hkind]
      exact h₂ us d d' hd
    · exact (h₂ us d d' hd).of_nil hleft

/-- The bounds of the two loops are the numbers of tokens that are left in the two streams. -/
theorem transfers_tokensLeft {f : Nat → Build γ} {f' : Nat → Build δ}
    (hf : ∀ n m, I.Bounds n m → Transfers I l us h (f n) (f' m)) :
    Transfers I l us h (liftM tokensLeft >>= f) (liftM tokensLeft >>= f') :=
  fun d d' hd ↦ hf _ _ hd.cursor.bounds d d' hd

/-! ### Symbols and tags -/

/-- A new symbol has the same number in both programs. -/
theorem still_newSymbol (name : Token) (kind : SymbolKind) (type? : Option Ty) (isMutable : Bool) :
    Still I id (newSymbol name kind type? isMutable)
      (newSymbol (name.shift I.offset) kind type? isMutable) := by
  intro us d d' hd
  have hlength : d'.program.symbols.length = d.program.symbols.length := by
    rw [hd.symbols, List.length_map]
  refine ⟨d.program.symbols.length, _, _, rfl, ?_, hd.toMatches.addSymbol _, hd.cursor⟩
  rw [newSymbol, hlength, Relocation.symbol, hd.file, hd.file', I.span_eq]
  rfl

theorem still_newParams (a : Ty) (names : List Token) :
    Still I id (newParams a names) (newParams a (names.map (.shift I.offset))) := by
  induction names with
  | nil => exact still_pure I id []
  | cons name names ih =>
    exact (still_newSymbol name .value (some a) true).bind fun symbol ↦
      ih.bind fun more ↦ still_pure I id ((symbol, a) :: more)

/-- Whether a tag is there already does not depend on its place. -/
theorem still_addTag (m : Metadata) (t : Tag) :
    Still I (Prod.map (Metadata.mapSpans (.shift I.offset)) id) (addTag m t)
      (addTag (m.mapSpans (.shift I.offset)) (t.mapSpans (.shift I.offset))) := by
  intro us d d' hd
  rw [addTag, addTag, Metadata.insert?_mapSpans]
  cases m.insert? t with
  | none => exact ⟨(m, false), _, _, rfl, rfl, hd.toMatches.report _ _ _, hd.cursor⟩
  | some m' => exact ⟨(m', true), d, d', rfl, rfl, hd⟩

theorem transfers_tag {S : Streams} (us : List Token) :
    Parse.Transfers S us (Tag.mapSpans (.shift S.offset)) tag tag := by
  refine (Parse.transfers_expect Token.Kind.noConfusion).bind fun vs name ↦ ?_
  refine (Parse.transfers_eat Token.Kind.noConfusion).bind fun vs b ↦ ?_
  refine Parse.transfers_ite (fun _ ↦ ?_) fun _ ↦ ?_
  · refine (Parse.transfers_expect Token.Kind.noConfusion).bind fun vs value ↦ ?_
    refine (Parse.transfers_expect Token.Kind.noConfusion).bind fun vs _ ↦ ?_
    exact Parse.transfers_pure S vs _ (Tag.mk name.word name.span
      (some ⟨String.ofList (Literal.string value.text), value.span⟩))
  · exact Parse.transfers_pure S vs _ (Tag.mk name.word name.span none)

theorem transfers_tagsTo {n m : Nat} (hbounds : I.Bounds n m) (us : List Token) (t : Metadata)
    (unique : Bool) :
    Transfers I .one us (Prod.map (Metadata.mapSpans (.shift I.offset)) id) (tagsTo n t unique)
      (tagsTo m (t.mapSpans (.shift I.offset)) unique) := by
  induction n generalizing m us t unique with
  | zero =>
    exact transfers_zero (q := fun m ↦ tagsTo m (t.mapSpans (.shift I.offset)) unique) rfl hbounds
  | succ n ih =>
    obtain ⟨m, rfl, hnm⟩ := hbounds.exists_succ
    refine (transfers_lift (transfers_tag us)).bind fun vs t₁ ↦ ?_
    refine ((still_addTag t t₁).transfers vs).bind fun vs r ↦ ?_
    refine (transfers_lift (Parse.transfers_eat Token.Kind.noConfusion)).bind fun vs b ↦ ?_
    refine transfers_ite (fun _ ↦ ih hnm vs r.1 (unique && r.2)) fun _ ↦ ?_
    refine (transfers_expect Token.Kind.noConfusion).loosen.bind fun vs _ ↦ ?_
    exact transfers_pure I vs _ (r.1, unique && r.2)

theorem transfers_metadata (us : List Token) :
    Transfers I .one us (Prod.map (Metadata.mapSpans (.shift I.offset)) id) metadata metadata := by
  refine (transfers_lift (Parse.transfers_eat Token.Kind.noConfusion)).bind fun vs b ↦ ?_
  refine transfers_ite (fun _ ↦ ?_) fun _ ↦ transfers_pure I vs _ (Metadata.empty, true)
  refine (transfers_lift (Parse.transfers_eat Token.Kind.noConfusion)).bind fun vs b ↦ ?_
  refine transfers_ite (fun _ ↦ ?_) fun _ ↦ ?_
  · exact transfers_tokensLeft fun n m hbounds ↦ transfers_tagsTo hbounds vs .empty true
  · exact (transfers_lift (transfers_tag vs)).bind fun vs t ↦ (still_addTag .empty t).transfers vs

/-! ### Variables and statements -/

theorem still_spanFrom (s : Span) : Still I (Span.shift I.offset)
    (liftM (spanFrom s) : Build Span) (liftM (spanFrom (s.shift I.offset)) : Build Span) := by
  intro us d d' hd
  refine ⟨d.cursor.spanFrom s, d, d', rfl, ?_, hd⟩
  rw [lift_apply, spanFrom, hd.cursor.spanFrom]

theorem still_variableEnd (start name : Token) (type? : Option Ty) (init? : Option Expr) :
    Still I (Variable.mapSpans (.shift I.offset)) (variableEnd start name type? init?)
      (variableEnd (start.shift I.offset) (name.shift I.offset) type?
        (init?.map (Expr.mapSpans (.shift I.offset)))) :=
  (still_newSymbol name .value type? true).bind fun symbol ↦
    (still_spanFrom start.span).bind fun span ↦
      still_pure I _ (Variable.mk span symbol init?)

theorem transfers_labelPart {S : Streams} (us : List Token) :
    Parse.Transfers S us id labelPart labelPart := by
  refine (Parse.transfers_eat Token.Kind.noConfusion).bind fun vs b ↦ ?_
  refine Parse.transfers_ite (fun _ ↦ ?_) fun _ ↦ Parse.transfers_pure S vs id none
  exact (Ty.transfers_label vs).bind fun vs a ↦ Parse.transfers_pure S vs id (some a)

theorem transfers_initPart {S : Streams} (us : List Token) (labelled : Bool) :
    Parse.Transfers S us (Option.map (Expr.mapSpans (.shift S.offset))) (initPart labelled)
      (initPart labelled) := by
  refine (Parse.transfers_at? _).bind fun vs b ↦ ?_
  refine Parse.transfers_ite (fun _ ↦ Parse.transfers_pure S vs _ none) fun _ ↦ ?_
  refine (Parse.transfers_expect Token.Kind.noConfusion).bind fun vs _ ↦ ?_
  exact (Expr.transfers_parse vs).bind fun vs e ↦ Parse.transfers_pure S vs _ (some e)

/-- **A variable transfers.** It looks at one token behind itself, for more casts or operators. -/
theorem transfers_letVariable (us : List Token) :
    Transfers I .one us (Variable.mapSpans (.shift I.offset)) letVariable letVariable := by
  rw [letVariable_eq]
  refine (transfers_expect Token.Kind.noConfusion).loosen.bind fun vs start ↦ ?_
  refine (transfers_expect Token.Kind.noConfusion).loosen.bind fun vs name ↦ ?_
  refine (transfers_lift (transfers_labelPart vs)).bind fun vs type? ↦ ?_
  refine (transfers_lift (transfers_initPart vs type?.isSome)).bind fun vs init? ↦ ?_
  exact (still_variableEnd start name type? init?).transfers vs

theorem transfers_stmt (us : List Token) :
    Transfers I .one us (Stmt.mapSpans (.shift I.offset)) stmt stmt := by
  refine (transfers_lift (Parse.transfers_at? _)).bind fun vs b ↦ ?_
  refine transfers_ite (fun _ ↦ ?_) fun _ ↦ ?_
  · refine (transfers_letVariable vs).bind fun vs v ↦ ?_
    exact (transfers_expect Token.Kind.noConfusion).loosen.bind fun vs _ ↦
      transfers_pure I vs _ (Stmt.letVar v)
  · refine (transfers_lift (Expr.transfers_parse vs)).bind fun vs e ↦ ?_
    exact (transfers_expect Token.Kind.noConfusion).loosen.bind fun vs _ ↦
      transfers_pure I vs _ (Stmt.expr e)

/-- Statements end with the brace that closes them. -/
theorem transfers_stmtsTo {n m : Nat} (hbounds : I.Bounds n m) (us : List Token) :
    Transfers I .none us (List.map (Stmt.mapSpans (.shift I.offset))) (stmtsTo n) (stmtsTo m) := by
  induction n generalizing m us with
  | zero => exact transfers_zero rfl hbounds
  | succ n ih =>
    obtain ⟨m, rfl, hnm⟩ := hbounds.exists_succ
    refine transfers_ifEat Token.Kind.noConfusion (still_pure I _ []) fun vs ↦ ?_
    refine (transfers_stmt vs).bind fun vs s ↦ ?_
    exact (ih hnm vs).then fun more ↦ still_pure I _ (s :: more)

/-- A block ends with its brace, so nothing behind it is looked at. -/
theorem transfers_block (us : List Token) :
    Transfers I .none us (Block.mapSpans (.shift I.offset)) block block := by
  refine (transfers_expect Token.Kind.noConfusion).loosen.bind fun vs start ↦ ?_
  refine transfers_tokensLeft fun n m hbounds ↦ ?_
  refine (transfers_stmtsTo hbounds vs).then fun stmts ↦ ?_
  exact (still_spanFrom start.span).bind fun span ↦ still_pure I _ (Block.mk span stmts)

/-! ### Definitions -/

theorem transfers_namesTo {S : Streams} {n m : Nat} (hbounds : S.Bounds n m) (us : List Token) :
    Parse.Transfers S us (List.map (.shift S.offset)) (namesTo n) (namesTo m) := by
  induction n generalizing m us with
  | zero => exact Parse.transfers_zero rfl hbounds
  | succ n ih =>
    obtain ⟨m, rfl, hnm⟩ := hbounds.exists_succ
    refine (Parse.transfers_expect Token.Kind.noConfusion).bind fun vs name ↦ ?_
    refine (Parse.transfers_eat Token.Kind.noConfusion).bind fun vs b ↦ ?_
    refine Parse.transfers_ite (fun _ ↦ ?_) fun _ ↦ Parse.transfers_pure S vs _ [name]
    exact (ih hnm vs).bind fun vs names ↦ Parse.transfers_pure S vs _ (name :: names)

theorem transfers_paramsTo {n m : Nat} (hbounds : I.Bounds n m) (us : List Token) :
    Transfers I .one us id (paramsTo n) (paramsTo m) := by
  induction n generalizing m us with
  | zero => exact transfers_zero rfl hbounds
  | succ n ih =>
    obtain ⟨m, rfl, hnm⟩ := hbounds.exists_succ
    refine transfers_tokensLeft fun n' m' hbounds' ↦ ?_
    refine (transfers_lift (transfers_namesTo hbounds' us)).bind fun vs names ↦ ?_
    refine (transfers_expect Token.Kind.noConfusion).loosen.bind fun vs _ ↦ ?_
    refine (transfers_lift (Ty.transfers_label vs)).bind fun vs a ↦ ?_
    refine ((still_newParams a names).transfers vs).bind fun vs params ↦ ?_
    refine (transfers_lift (Parse.transfers_eat Token.Kind.noConfusion)).bind fun vs b ↦ ?_
    refine transfers_ite (fun _ ↦ ?_) fun _ ↦ transfers_pure I vs id params
    exact (ih hnm vs).bind fun vs more ↦ transfers_pure I vs id (params ++ more)

theorem transfers_paramList (us : List Token) :
    Transfers I .one us id paramList paramList := by
  refine (transfers_expect Token.Kind.noConfusion).loosen.bind fun vs _ ↦ ?_
  refine Transfers.bind (g := id) ?_ fun vs params ↦ ?_
  · refine (transfers_lift (Parse.transfers_at? _)).bind fun vs b ↦ ?_
    refine transfers_ite (fun _ ↦ transfers_pure I vs id []) fun _ ↦ ?_
    exact transfers_tokensLeft fun n m hbounds ↦ transfers_paramsTo hbounds vs
  · exact (transfers_expect Token.Kind.noConfusion).loosen.bind fun vs _ ↦
      transfers_pure I vs id params

theorem transfers_resultLabel (us : List Token) :
    Transfers I .one us id resultLabel resultLabel := by
  refine (transfers_lift (Parse.transfers_at? _)).bind fun vs ended ↦ ?_
  refine (transfers_lift (Parse.transfers_at? _)).bind fun vs opened ↦ ?_
  exact transfers_ite (fun _ ↦ transfers_pure I vs id Ty.unit) fun _ ↦
    transfers_lift (Ty.transfers_label vs)

/-- Behind a semicolon nothing is looked at. -/
theorem bodyPart_eq : bodyPart = (do
    if ← eat (.sign .semicolon) then pure none
    else
      let opened ← at? (.sign .leftBrace)
      if opened then some <$> block else stop) := by
  funext d
  rw [ifEat_apply, bodyPart, bind_apply, lift_apply, eat]
  by_cases hkind : d.cursor.current.kind = .sign .semicolon
  · rw [if_pos hkind, if_pos hkind]
    rfl
  · rw [if_neg hkind, if_neg hkind]
    rfl

theorem transfers_bodyPart (us : List Token) :
    Transfers I .none us (Option.map (Block.mapSpans (.shift I.offset))) bodyPart bodyPart := by
  rw [bodyPart_eq]
  refine transfers_ifEat Token.Kind.noConfusion (still_pure I _ none) fun vs ↦ ?_
  refine (transfers_lift (Parse.transfers_at? _)).bind fun vs opened ↦ ?_
  refine transfers_ite (fun _ ↦ ?_) fun _ ↦ transfers_stop
  exact (transfers_block vs).then fun b ↦ still_pure I _ (some b)

theorem still_functionEnd (m : Metadata) (start name : Token) (params : List (Nat × Ty))
    (result : Ty) (body? : Option Block) :
    Still I I.relocation.definition (functionEnd m start name params result body?)
      (functionEnd (m.mapSpans (.shift I.offset)) (start.shift I.offset) (name.shift I.offset)
        params result (body?.map (Block.mapSpans (.shift I.offset)))) := by
  refine (still_newSymbol name .function _ false).bind fun symbol ↦ ?_
  refine (still_spanFrom start.span).bind fun span us d d' hd ↦ ⟨_, d, d', rfl, ?_, hd⟩
  rw [Relocation.definition, hd.file, hd.file', I.span_eq]
  rfl

/-- **A function transfers**, with nothing behind it looked at. -/
theorem transfers_function (m : Metadata) (us : List Token) :
    Transfers I .none us I.relocation.definition (function m)
      (function (m.mapSpans (.shift I.offset))) := by
  rw [function_eq, function_eq]
  refine (transfers_expect Token.Kind.noConfusion).loosen.bind fun vs start ↦ ?_
  refine (transfers_expect Token.Kind.noConfusion).loosen.bind fun vs name ↦ ?_
  refine (transfers_paramList vs).bind fun vs params ↦ ?_
  refine (transfers_resultLabel vs).bind fun vs result ↦ ?_
  exact (transfers_bodyPart vs).then fun body? ↦ still_functionEnd m start name params result body?

theorem transfers_global (m : Metadata) (us : List Token) :
    Transfers I .none us I.relocation.definition (global m)
      (global (m.mapSpans (.shift I.offset))) := by
  refine (transfers_letVariable us).bind fun vs v ↦ ?_
  refine (transfers_expect Token.Kind.noConfusion).then fun _ us d d' hd ↦ ⟨_, d, d', rfl, ?_, hd⟩
  rw [Relocation.definition, hd.file, hd.file', I.span_eq]
  rfl

/-- **A definition transfers** behind its tags. -/
theorem transfers_content (m : Metadata) (us : List Token) :
    Transfers I .none us I.relocation.definition (content m)
      (content (m.mapSpans (.shift I.offset))) := by
  refine transfers_peek ?_
  rw [Token.shift_kind]
  cases (I.head us).kind with
  | keyword w =>
    cases w with
    | func => exact transfers_function m us
    | «let» => exact transfers_global m us
    | _ => exact transfers_stop
  | _ => exact transfers_stop

/-- The symbol of a definition is **at home** if it is in the file that is being read. -/
def AtHome (i : Nat) (d : Draft) : Prop :=
  ∀ s, d.program.symbols[i]? = some s → s.file = d.file

theorem ensures_atHome_newSymbol (name : Token) (kind : SymbolKind) (type? : Option Ty)
    (isMutable : Bool) (d : Draft) : Ensures (newSymbol name kind type? isMutable) d AtHome := by
  intro i hi s hs
  obtain rfl := Except.ok.inj hi
  obtain rfl := Option.some.inj (List.getElem?_concat_length.symm.trans hs)
  rfl

theorem ensures_atHome_variable (d : Draft) :
    Ensures letVariable d fun v d' ↦ AtHome v.symbol d' := by
  rw [letVariable_eq]
  refine ensures_then fun start d ↦ ensures_then fun name d ↦ ensures_then fun type? d ↦
    ensures_then fun init? d ↦ ?_
  refine .bind ((ensures_atHome_newSymbol name .value type? true d).mono fun i d' hi ↦ ?_)
  exact .bind (ensures_lift fun span c hc ↦ ensures_pure (by
    obtain ⟨-, rfl⟩ := Prod.mk.inj (Except.ok.inj hc)
    exact hi))

/-- The symbol of a definition is one of the file that is read. -/
theorem ensures_atHome_content (m : Metadata) (d : Draft) :
    Ensures (content m) d fun x d' ↦ AtHome x.symbol d' := by
  have hfunction : Ensures (function m) d fun x d' ↦ AtHome x.symbol d' := by
    rw [function_eq]
    refine ensures_then fun start d ↦ ensures_then fun name d ↦ ensures_then fun params d ↦
      ensures_then fun result d ↦ ensures_then fun body? d ↦ ?_
    refine .bind ((ensures_atHome_newSymbol name .function _ false d).mono fun i d' hi ↦ ?_)
    refine .bind (ensures_lift fun span c hc x hx ↦ ?_)
    obtain rfl := Except.ok.inj hx
    exact hi
  have hglobal : Ensures (global m) d fun x d' ↦ AtHome x.symbol d' := by
    refine .bind ((ensures_atHome_variable d).mono fun v d' hv ↦ ?_)
    refine .bind (ensures_lift fun t c _ x hx ↦ ?_)
    obtain rfl := Except.ok.inj hx
    exact hv
  unfold Ensures at *
  rcases content_cases m d with heq | heq | heq
  · rwa [heq]
  · rwa [heq]
  · rw [heq]
    exact ensures_stop

theorem inStep_bindGlobal {i : Nat} {d d' : Draft} (hd : I.InStep us d d') (hi : AtHome i d) :
    ∃ b e e', bindGlobal i d = (.ok b, e) ∧ bindGlobal i d' = (.ok b, e') ∧ I.InStep us e e' := by
  rw [bindGlobal, bindGlobal, hd.symbols, List.getElem?_map, hd.globals]
  cases hs : d.program.symbols[i]? with
  | none => exact ⟨false, d, d', rfl, rfl, hd⟩
  | some s =>
    have hspan : (I.relocation.symbol s).span = s.span.shift I.offset := by
      rw [Relocation.symbol, hi s hs, hd.file, I.span_eq]
    dsimp only [Option.map]
    rw [hspan, show (I.relocation.symbol s).name = s.name from rfl]
    cases d.program.globals.find? s.name with
    | none => exact ⟨true, _, _, rfl, rfl, hd.toMatches.bind s.name i, hd.cursor⟩
    | some j => exact ⟨false, _, _, rfl, rfl, hd.toMatches.report _ _ _, hd.cursor⟩

/-- Whether a name is taken is the same in both programs, since the names are. -/
theorem inStep_addDefinition {x : Definition} {d d' : Draft} (hd : I.InStep us d d')
    (hx : AtHome x.symbol d) (unique : Bool) :
    ∃ e e', addDefinition x unique d = (.ok (), e) ∧
      addDefinition (I.relocation.definition x) unique d' = (.ok (), e') ∧ I.InStep us e e' := by
  obtain ⟨free, e, e', hbind, hbind', hstep⟩ := inStep_bindGlobal hd hx
  rw [addDefinition, addDefinition, bind_apply, bind_apply, Relocation.symbol_definition, hbind,
    hbind']
  cases free with
  | false => exact ⟨e, e', rfl, rfl, hstep⟩
  | true =>
    cases unique with
    | false => exact ⟨e, e', rfl, rfl, hstep⟩
    | true => exact ⟨_, _, rfl, rfl, hstep.toMatches.addDefinition x, hstep.cursor⟩

/-- **Definitions transfer**, and nothing behind them is looked at. -/
theorem transfers_definition (us : List Token) :
    Transfers I .none us id definition definition := by
  rw [definition_eq]
  refine (transfers_metadata us).bind fun vs r ↦ ?_
  refine (transfers_content r.1 vs).bindStill (ensures_atHome_content r.1) ?_
  intro x vs d d' hx hd
  exact ⟨(), inStep_addDefinition hd hx r.2⟩

/-- **What is read up to the end mark transfers.** If all can be read, reading goes on in the second
draft with what it has in place of the end mark; if not, the second draft has the same error, unless
it goes on. -/
theorem definitionsTo_inStep {n m : Nat} {d d' : Draft} (hd : I.InStep us d d')
    (hus : ∀ t ∈ us, t.kind ≠ .finish) (hn : us.length < n)
    (hm : us.length + I.tail.length ≤ m) :
    match definitionsTo n d with
    | (.ok _, e) => ∃ m' e', I.tail.length ≤ m' ∧ definitionsTo m d' = definitionsTo m' e' ∧
        I.InStep [] e e'
    | (.error x, e) => I.Whole →
        ∃ e', definitionsTo m d' = (.error (x.shift I.offset), e') ∧ I.Matches e e' := by
  induction n generalizing us m d d' with
  | zero => exact absurd hn (Nat.not_lt_zero _)
  | succ n ih =>
    rw [definitionsTo_succ, hd.cursor.current]
    cases us with
    | nil =>
      rw [if_pos (show (I.head []).kind = .finish from I.mark_kind)]
      exact ⟨m, d', by simpa using hm, rfl, hd⟩
    | cons t us =>
      have hkind : t.kind ≠ .finish := hus t List.mem_cons_self
      obtain ⟨m, rfl⟩ : ∃ m', m = m' + 1 := Nat.exists_eq_add_of_le' (by
        simp only [List.length_cons] at hm
        omega)
      rw [if_neg (show (I.head (t :: us)).kind ≠ .finish from hkind), definitionsTo_succ,
        hd.cursor.current' (.inl (List.cons_ne_nil _ _)), Token.shift_kind, hd.cursor.current,
        if_neg (show (I.head (t :: us)).kind ≠ .finish from hkind)]
      have hr := transfers_definition (t :: us) d d' hd
      rw [bind_apply definition]
      generalize definition d = r at hr
      rcases r with ⟨x | u, d₁⟩
      · intro hwhole
        obtain ⟨hq, hmatch⟩ := hr hwhole
        exact ⟨_, bind_of_error hq _, hmatch⟩
      · obtain ⟨-, vs, hvs, -, hlt, hmore⟩ := hr
        obtain ⟨hq, hstep⟩ := hmore (.inl rfl)
        have hlt := hlt rfl
        rw [bind_of_ok hq]
        refine ih hstep (fun v hv ↦ hus v (hvs.subset hv)) ?_ ?_
        · simp only [List.length_cons] at hn hlt
          omega
        · simp only [List.length_cons] at hm hlt
          omega

end Build

end FrontEnd
