import FrontEnd.Proofs.Expr.Places
import FrontEnd.Proofs.Grammar.Files
import FrontEnd.Proofs.Token.Tiling

/-!
# Faults are never read past

A fault stands in the stream of tokens like a word, and the end mark stands behind it. If a parser
took the fault for a word, or skipped it, the file would seem to end there and the rest of it would
be lost without a trace. No parser does: on its way it reads **words** only (`Cursor.Passes`), and
where it stops it blames the next token for what that token is, a fault if it is one and nothing
lexical if it is none (`ParseError.Blames`). A parser that keeps to both is careful
(`Parse.Careful`, `Build.Careful`), and all of them are.

So a fault is reported, or something before it is (`Program.parseFile_faults`).
-/

namespace FrontEnd

open Parse

/-- Whether a kind is that of a **word**: neither a fault nor the end mark. -/
def Token.Kind.isWord : Kind → Bool
  | .fault _ => false
  | .finish => false
  | _ => true

theorem Token.Kind.isWord_iff {k : Kind} : k.isWord = true ↔ k ≠ .finish ∧ k.isFault = false := by
  cases k <;> simp [isWord, isFault]

/-! ### Places -/

namespace Cursor

variable {c c' c'' : Cursor}

/-- From one place to another there are **words only**. -/
def Passes (c c' : Cursor) : Prop :=
  ∃ ts, c.rest = ts ++ c'.rest ∧ ∀ t ∈ ts, t.kind.isWord = true

theorem Passes.refl (c : Cursor) : c.Passes c :=
  ⟨[], rfl, fun _ h ↦ absurd h List.not_mem_nil⟩

theorem Passes.trans (h : c.Passes c') (h' : c'.Passes c'') : c.Passes c'' := by
  obtain ⟨ts, hts, hwords⟩ := h
  obtain ⟨us, hus, hmore⟩ := h'
  exact ⟨ts ++ us, by rw [hts, hus, List.append_assoc], List.forall_mem_append.2 ⟨hwords, hmore⟩⟩

theorem passes_cons {t : Token} (h : t.kind.isWord = true) (ts : List Token) (lastStop stop : Nat) :
    (Cursor.mk (t :: ts) lastStop).Passes ⟨ts, stop⟩ :=
  ⟨[t], rfl, List.forall_mem_singleton.2 h⟩

/-- Going on over a word passes no fault. -/
theorem passes_next (h : c.current.kind.isWord = true) : c.Passes c.next := by
  refine ⟨[c.current], ?_, List.forall_mem_singleton.2 h⟩
  exact c.rest_eq_cons (Token.Kind.isWord_iff.1 h).1

end Cursor

/-- Whether a cause is that a literal has no value. -/
def ParseError.Cause.isValue : Cause → Bool
  | .integerTooLarge => true
  | .malformedInteger _ => true
  | .floatOutOfRange => true
  | .malformedFloat _ => true
  | .malformedRune => true
  | _ => false

/-- An error **blames** the next token: it stands where the token stands, is lexical exactly if the
token is a fault, which it names, and says of a value only what is wrong with that of the token. -/
structure ParseError.Blames (e : ParseError) (c : Cursor) : Prop where
  span_eq : e.span = c.current.span
  cause_eq : ∀ f, c.current.kind = .fault f → e.cause = .fault f
  isLexical_eq : c.current.kind.isFault = false → e.isLexical = false
  constantOf?_eq : e.cause.isValue = true → Expr.constantOf? c.current = some (.error e.cause)

theorem Cursor.isValue_unexpected (c : Cursor) : c.unexpected.cause.isValue = false := by
  rw [unexpected]
  dsimp only
  split <;> rfl

/-- An error about the token at a place blames that token. -/
theorem Cursor.blames_unexpected (c : Cursor) : c.unexpected.Blames c := by
  refine ⟨rfl, fun f hf ↦ ?_, fun hf ↦ ?_, fun hvalue ↦ ?_⟩
  · rw [Cursor.unexpected, hf]
  · rw [Cursor.unexpected, ParseError.isLexical]
    cases hkind : c.current.kind with
    | fault f =>
      rw [hkind] at hf
      cases hf
    | _ => rfl
  · cases c.isValue_unexpected.symm.trans hvalue

theorem Cursor.blames_unexpectedFor (k : Token.Kind) (c : Cursor) :
    (c.unexpectedFor k).Blames c := by
  rw [unexpectedFor]
  split
  · exact c.blames_unexpected
  · exact c.blames_unexpected
  · rename_i hfault _
    refine ⟨rfl, fun f hf ↦ absurd hf (hfault f), fun _ ↦ rfl, fun hvalue ↦ ?_⟩
    cases hvalue

/-- A fault is reported as an error of the scanner. -/
theorem ParseError.category_of_fault {e : ParseError} {f : Fault} (h : e.cause = .fault f) :
    e.category = .lexical := by
  rw [category, isLexical, h]
  rfl

/-- All else is reported as an error of the grammar. -/
theorem ParseError.category_of_not_isLexical {e : ParseError} (h : e.isLexical = false) :
    e.category = .grammar := by
  rw [category, h]
  rfl

/-- **A careful outcome** of reading from a place: words have been read up to another place, or up
to one where the next token is blamed. -/
def Cursor.Careful (c : Cursor) : Except ParseError Cursor → Prop
  | .ok c' => c.Passes c'
  | .error e => ∃ c', c.Passes c' ∧ e.Blames c'

/-- An outcome stays careful with more words before it. -/
theorem Cursor.Passes.careful {c c' : Cursor} (h : c.Passes c') {r : Except ParseError Cursor}
    (hr : c'.Careful r) : c.Careful r := by
  cases r with
  | ok c'' => exact h.trans hr
  | error e =>
    obtain ⟨c'', hpasses, hblames⟩ := hr
    exact ⟨c'', h.trans hpasses, hblames⟩

theorem Cursor.careful_unexpected (c : Cursor) : c.Careful (.error c.unexpected) :=
  ⟨c, .refl c, c.blames_unexpected⟩

/-! ### Parsers -/

namespace Parse

variable {α β : Type} {p q : Parse α} {c : Cursor} {k : Token.Kind}

/-- **A parser is careful** at a place if what comes of it there is. -/
def Careful (p : Parse α) (c : Cursor) : Prop :=
  c.Careful ((p c).map (·.2))

/-- **One careful parser behind another is careful**: whichever of them fails, no fault was
passed. -/
theorem Careful.bind {f : α → Parse β} (hp : Careful p c) (hf : ∀ a c', Careful (f a) c') :
    Careful (p >>= f) c := by
  rw [Careful] at hp
  rw [Careful, bind_apply]
  generalize p c = r at hp ⊢
  rcases r with e | ⟨a, c'⟩
  · exact hp
  · exact Cursor.Passes.careful hp (hf a c')

theorem careful_pure (a : α) (c : Cursor) : Careful (pure a) c :=
  Cursor.Passes.refl c

theorem careful_failHere (c : Cursor) : Careful (failHere : Parse α) c :=
  c.careful_unexpected

/-- What is read behind a look at the next token may depend on it. -/
theorem careful_peek {f : Token → Parse α} (h : Careful (f c.current) c) :
    Careful (peek >>= f) c :=
  h

theorem careful_advance (h : c.current.kind.isWord = true) : Careful advance c :=
  Cursor.passes_next h

theorem careful_at? (k : Token.Kind) (c : Cursor) : Careful (at? k) c :=
  Cursor.Passes.refl c

theorem careful_spanFrom (s : Span) (c : Cursor) : Careful (spanFrom s) c :=
  Cursor.Passes.refl c

/-- A word that may be there is passed over, and a fault is no word. -/
theorem careful_eat (hk : k.isWord = true) (c : Cursor) : Careful (eat k) c := by
  by_cases hkind : c.current.kind = k
  · rw [Careful, eat, if_pos hkind]
    exact Cursor.passes_next (hkind ▸ hk)
  · rw [Careful, eat, if_neg hkind]
    exact Cursor.Passes.refl c

/-- A word that has to be there is read, or the error is about what stands in its place. -/
theorem careful_expect (hk : k.isWord = true) (c : Cursor) : Careful (expect k) c := by
  by_cases hkind : c.current.kind = k
  · rw [Careful, expect, if_pos hkind]
    exact Cursor.passes_next (hkind ▸ hk)
  · rw [Careful, expect, if_neg hkind]
    exact ⟨c, .refl c, c.blames_unexpectedFor k⟩

theorem careful_ite {b : Prop} [Decidable b] (hp : Careful p c) (hq : Careful q c) :
    Careful (if b then p else q) c := by
  split
  · exact hp
  · exact hq

theorem careful_ifEat (hk : k.isWord = true) (hp : ∀ c, Careful p c) (hq : ∀ c, Careful q c)
    (c : Cursor) : Careful (eat k >>= fun b ↦ if b = true then p else q) c :=
  (careful_eat hk c).bind fun _ c' ↦ careful_ite (hp c') (hq c')

end Parse

/-- Labels are read carefully: each round passes a star, a keyword or the name of a scalar type. -/
theorem Ty.careful_label (c : Cursor) : Careful label c := by
  rcases c with ⟨tokens, lastStop⟩
  rw [Careful, label]
  dsimp only
  fun_induction labelFrom lastStop tokens with
  | case1 => exact Cursor.careful_unexpected _
  | case2 lastStop t ts s hkind => exact Cursor.passes_cons (by rw [hkind]; rfl) ..
  | case3 lastStop t hkind =>
    exact (Cursor.passes_cons (by rw [hkind]; rfl) ..).careful (Cursor.careful_unexpected _)
  | case4 lastStop t hkind u us hconst a c h ih =>
    rw [h] at ih
    have hstar : t.kind.isWord = true := by rw [hkind]; rfl
    have hconst : u.kind.isWord = true := by rw [hconst]; rfl
    exact (Cursor.passes_cons hstar _ _ t.span.stop).careful
      ((Cursor.passes_cons hconst us _ u.span.stop).careful ih)
  | case5 lastStop t hkind u us hconst e h ih =>
    rw [h] at ih
    have hstar : t.kind.isWord = true := by rw [hkind]; rfl
    have hconst : u.kind.isWord = true := by rw [hconst]; rfl
    exact (Cursor.passes_cons hstar _ _ t.span.stop).careful
      ((Cursor.passes_cons hconst us _ u.span.stop).careful ih)
  | case6 lastStop t hkind u us hconst a c h ih =>
    rw [h] at ih
    exact (Cursor.passes_cons (by rw [hkind]; rfl) ..).careful ih
  | case7 lastStop t hkind u us hconst e h ih =>
    rw [h] at ih
    exact (Cursor.passes_cons (by rw [hkind]; rfl) ..).careful ih
  | case8 => exact Cursor.careful_unexpected _

/-! ### Expressions -/

namespace Expr

/-- Casts are read carefully. -/
theorem careful_casts (n : Nat) (e : Expr) (c : Cursor) : Careful (casts n e) c := by
  induction n generalizing e c with
  | zero => exact careful_failHere c
  | succ n ih =>
    refine careful_ifEat rfl (fun c ↦ ?_) (careful_pure e) c
    exact (Ty.careful_label c).bind fun _ c ↦ (careful_spanFrom _ c).bind fun _ c ↦ ih _ c

/-- A token of which an operand can be made, or not because of its value, is a word. -/
theorem isWord_of_ofToken? {t : Token} {r : Except ParseError Expr} (h : ofToken? t = some r) :
    t.kind.isWord = true := by
  cases hkind : t.kind with
  | fault f =>
    rw [ofToken?, constantOf?, hkind] at h
    cases h
  | finish =>
    rw [ofToken?, constantOf?, hkind] at h
    cases h
  | _ => rfl

/-- The error that a token makes of itself is that its literal has no value. -/
theorem constantOf?_of_ofToken? {t : Token} {err : ParseError}
    (h : ofToken? t = some (.error err)) : constantOf? t = some (.error err.cause) := by
  rw [ofToken?] at h
  split at h
  · cases h
  · obtain ⟨r, hr, he⟩ := Option.map_eq_some_iff.1 h
    cases r with
    | ok value => cases he
    | error cause =>
      obtain rfl := Except.error.inj he
      exact hr

/-- A value that a literal cannot have is no fault of the text. -/
theorem isLexical_of_ofToken? {t : Token} {err : ParseError} (h : ofToken? t = some (.error err)) :
    err.isLexical = false := by
  have hr := constantOf?_of_ofToken? h
  rw [ParseError.isLexical]
  generalize err.cause = cause at hr
  rw [constantOf?] at hr
  split at hr
  · split at hr <;> cases hr <;> rfl
  · split at hr <;> cases hr <;> rfl
  · split at hr <;> cases hr
    rfl
  all_goals cases hr

/-- The readers of expressions are careful as long as they make at most `n` calls into each
other. -/
structure CarefulTo (n : Nat) : Prop where
  parse (c : Cursor) : Careful (parseTo n) c
  row (c : Cursor) : Careful (rowTo n) c
  operand (c : Cursor) : Careful (operandTo n) c
  calls (f : Expr) (c : Cursor) : Careful (callsTo n f) c
  arguments (c : Cursor) : Careful (argumentsTo n) c
  moreArguments (c : Cursor) : Careful (moreArgumentsTo n) c
  atom (c : Cursor) : Careful (atomTo n) c

/-- With one more call a reader is careful if those that it calls are. -/
theorem CarefulTo.succ {n : Nat} (h : CarefulTo n) : CarefulTo (n + 1) where
  parse c := (h.operand c).bind fun _ c ↦ (h.row c).bind fun _ c ↦ careful_casts n _ c
  row c := by
    refine careful_peek ?_
    cases hop : BinOp.ofKind? c.current.kind with
    | none => exact careful_pure _ c
    | some op =>
      have hwords : ∀ k ∈ Grammar.binaryOperators, k.isWord = true := by decide
      have hword := hwords _ (BinOp.mem_of_ofKind?_eq_some hop)
      exact (careful_advance hword).bind fun _ c ↦ (h.operand c).bind fun _ c ↦
        (h.row c).bind fun _ c ↦ careful_pure _ c
  operand c := by
    refine careful_peek ?_
    cases hop : UnaryOp.ofKind? c.current.kind with
    | none => exact (h.atom c).bind fun e c ↦ h.calls e c
    | some op =>
      have hwords : ∀ k ∈ Grammar.unaryOperators, k.isWord = true := by decide
      have hword := hwords _ (UnaryOp.mem_of_ofKind?_eq_some hop)
      exact (careful_advance hword).bind fun _ c ↦ (h.operand c).bind fun _ c ↦
        (careful_spanFrom _ c).bind fun _ c ↦ careful_pure _ c
  calls f c := by
    refine careful_ifEat rfl (fun c ↦ ?_) (careful_pure f) c
    exact (h.arguments c).bind fun _ c ↦ (careful_spanFrom _ c).bind fun _ c ↦ h.calls _ c
  arguments c := by
    refine careful_ifEat rfl (careful_pure _) (fun c ↦ ?_) c
    exact (h.parse c).bind fun _ c ↦ (h.moreArguments c).bind fun _ c ↦ careful_pure _ c
  moreArguments c := by
    refine careful_ifEat rfl (fun c ↦ ?_) (fun c ↦ ?_) c
    · exact (h.parse c).bind fun _ c ↦ (h.moreArguments c).bind fun _ c ↦ careful_pure _ c
    · exact (careful_expect rfl c).bind fun _ c ↦ careful_pure _ c
  atom c := by
    refine careful_peek ?_
    rcases htoken : ofToken? c.current with _ | err | e
    · refine careful_ifEat rfl (fun c ↦ ?_) careful_failHere c
      exact (h.parse c).bind fun _ c ↦ (careful_expect rfl c).bind fun _ c ↦ careful_pure _ c
    · have hword := Token.Kind.isWord_iff.1 (isWord_of_ofToken? htoken)
      refine ⟨c, .refl c, span_of_ofToken?_error htoken, fun f hf ↦ ?_, fun _ ↦ ?_,
        fun _ ↦ constantOf?_of_ofToken? htoken⟩
      · rw [hf] at hword
        cases hword.2
      · exact isLexical_of_ofToken? htoken
    · exact (careful_advance (isWord_of_ofToken? htoken)).bind fun _ c ↦ careful_pure e c

theorem carefulTo (n : Nat) : CarefulTo n := by
  induction n with
  | zero =>
    exact ⟨careful_failHere, careful_failHere, careful_failHere, fun _ ↦ careful_failHere,
      careful_failHere, careful_failHere, careful_failHere⟩
  | succ n ih => exact ih.succ

/-- **Expressions are read carefully.** -/
theorem careful_parse (c : Cursor) : Careful parse c :=
  (carefulTo (callBound c.rest.length)).parse c

end Expr

/-! ### Definitions -/

namespace Build

variable {α β : Type} {p q : Build α} {d : Draft} {k : Token.Kind}

/-- **A parser that changes a program is careful** if what comes of it is. -/
def Careful (p : Build α) (d : Draft) : Prop :=
  d.cursor.Careful ((p d).1.map fun _ ↦ (p d).2.cursor)

theorem Careful.bind {f : α → Build β} (hp : Careful p d) (hf : ∀ a d', Careful (f a) d') :
    Careful (p >>= f) d := by
  rw [Careful] at hp
  rw [Careful, bind_apply]
  generalize p d = r at hp ⊢
  rcases r with ⟨e | a, d'⟩
  · exact hp
  · exact Cursor.Passes.careful hp (hf a d')

/-- What never fails and never moves is careful. -/
theorem Stays.careful (hp : Stays p) (d : Draft) : Careful p d := by
  obtain ⟨a, ha, hcursor⟩ := hp d
  rw [Careful, ha, hcursor]
  exact Cursor.Passes.refl d.cursor

theorem careful_pure (a : α) (d : Draft) : Careful (pure a) d :=
  (stays_pure a).careful d

theorem careful_stop (d : Draft) : Careful (stop : Build α) d :=
  d.cursor.careful_unexpected

/-- A parser that does not look at the program is careful in a draft if it is careful. -/
theorem careful_lift {p : Parse α} (hp : ∀ c, Parse.Careful p c) (d : Draft) :
    Careful (liftM p) d := by
  have h := hp d.cursor
  rw [Parse.Careful] at h
  rw [Careful, lift_apply]
  generalize p d.cursor = r at h ⊢
  rcases r with e | ⟨a, c⟩
  · exact h
  · exact h

theorem careful_expect (hk : k.isWord = true) (d : Draft) : Careful (liftM (expect k)) d :=
  careful_lift (Parse.careful_expect hk) d

theorem careful_ite {b : Prop} [Decidable b] (hp : Careful p d) (hq : Careful q d) :
    Careful (if b then p else q) d := by
  split
  · exact hp
  · exact hq

theorem careful_ifEat (hk : k.isWord = true) (hp : ∀ d, Careful p d) (hq : ∀ d, Careful q d)
    (d : Draft) : Careful ((liftM (eat k) : Build Bool) >>= fun b ↦ if b = true then p else q) d :=
  (careful_lift (careful_eat hk) d).bind fun _ d' ↦ careful_ite (hp d') (hq d')

theorem careful_ifAt (k : Token.Kind) (hp : ∀ d, Careful p d) (hq : ∀ d, Careful q d)
    (d : Draft) : Careful ((liftM (at? k) : Build Bool) >>= fun b ↦ if b = true then p else q) d :=
  ((stays_at? k).careful d).bind fun _ d' ↦ careful_ite (hp d') (hq d')

theorem careful_tokensLeft (d : Draft) : Careful (liftM tokensLeft) d :=
  Cursor.Passes.refl d.cursor

theorem careful_tag (c : Cursor) : Parse.Careful tag c := by
  refine (Parse.careful_expect rfl c).bind fun _ c ↦ ?_
  refine Parse.careful_ifEat rfl (fun c ↦ ?_) (Parse.careful_pure _) c
  exact (Parse.careful_expect rfl c).bind fun _ c ↦ (Parse.careful_expect rfl c).bind fun _ c ↦
    Parse.careful_pure _ c

/-- A tag that is there already is reported on the way, and that stops nothing. -/
theorem careful_tagsTo (n : Nat) (m : Metadata) (unique : Bool) (d : Draft) :
    Careful (tagsTo n m unique) d := by
  induction n generalizing m unique d with
  | zero => exact careful_stop d
  | succ n ih =>
    refine (careful_lift careful_tag d).bind fun t d ↦ ?_
    refine ((stays_addTag m t).careful d).bind fun r d ↦ ?_
    refine careful_ifEat rfl (fun d ↦ ih _ _ d) (fun d ↦ ?_) d
    exact (careful_expect rfl d).bind fun _ d ↦ careful_pure _ d

theorem careful_metadata (d : Draft) : Careful metadata d := by
  refine careful_ifEat rfl (fun d ↦ ?_) (careful_pure _) d
  refine careful_ifEat rfl (fun d ↦ ?_) (fun d ↦ ?_) d
  · exact (careful_tokensLeft d).bind fun n d ↦ careful_tagsTo n _ _ d
  · exact (careful_lift careful_tag d).bind fun t d ↦ (stays_addTag _ t).careful d

theorem careful_labelPart (c : Cursor) : Parse.Careful labelPart c := by
  refine Parse.careful_ifEat rfl (fun c ↦ ?_) (Parse.careful_pure _) c
  exact (Ty.careful_label c).bind fun _ c ↦ Parse.careful_pure _ c

theorem careful_initPart (labelled : Bool) (c : Cursor) : Parse.Careful (initPart labelled) c := by
  refine (careful_at? _ c).bind fun _ c ↦ Parse.careful_ite (Parse.careful_pure _ c) ?_
  exact (Parse.careful_expect rfl c).bind fun _ c ↦ (Expr.careful_parse c).bind fun _ c ↦
    Parse.careful_pure _ c

/-- A variable is read carefully. Behind its last word only the program is changed. -/
theorem careful_letVariable (d : Draft) : Careful letVariable d := by
  rw [letVariable_eq]
  refine (careful_expect rfl d).bind fun _ d ↦ (careful_expect rfl d).bind fun _ d ↦ ?_
  refine (careful_lift careful_labelPart d).bind fun _ d ↦ ?_
  refine (careful_lift (careful_initPart _) d).bind fun _ d ↦ ?_
  exact (stays_variableEnd _ _ _ _).careful d

theorem careful_stmt (d : Draft) : Careful stmt d := by
  refine careful_ifAt _ (fun d ↦ ?_) (fun d ↦ ?_) d
  · exact (careful_letVariable d).bind fun _ d ↦ (careful_expect rfl d).bind fun _ d ↦
      careful_pure _ d
  · exact (careful_lift Expr.careful_parse d).bind fun _ d ↦ (careful_expect rfl d).bind fun _ d ↦
      careful_pure _ d

/-- Statements are read carefully. A loop that runs out of rounds fails at the token that is
next. -/
theorem careful_stmtsTo (n : Nat) (d : Draft) : Careful (stmtsTo n) d := by
  induction n generalizing d with
  | zero => exact careful_stop d
  | succ n ih =>
    refine careful_ifEat rfl (careful_pure _) (fun d ↦ ?_) d
    exact (careful_stmt d).bind fun _ d ↦ (ih d).bind fun _ d ↦ careful_pure _ d

theorem careful_block (d : Draft) : Careful block d := by
  refine (careful_expect rfl d).bind fun _ d ↦ (careful_tokensLeft d).bind fun n d ↦ ?_
  exact (careful_stmtsTo n d).bind fun _ d ↦ ((stays_spanFrom _).careful d).bind fun _ d ↦
    careful_pure _ d

theorem careful_namesTo (n : Nat) (c : Cursor) : Parse.Careful (namesTo n) c := by
  induction n generalizing c with
  | zero => exact careful_failHere c
  | succ n ih =>
    refine (Parse.careful_expect rfl c).bind fun name c ↦ ?_
    refine Parse.careful_ifEat rfl (fun c ↦ ?_) (Parse.careful_pure _) c
    exact (ih c).bind fun _ c ↦ Parse.careful_pure _ c

theorem careful_paramsTo (n : Nat) (d : Draft) : Careful (paramsTo n) d := by
  induction n generalizing d with
  | zero => exact careful_stop d
  | succ n ih =>
    refine (careful_tokensLeft d).bind fun count d ↦ ?_
    refine (careful_lift (careful_namesTo count) d).bind fun names d ↦ ?_
    refine (careful_expect rfl d).bind fun _ d ↦ (careful_lift Ty.careful_label d).bind fun a d ↦ ?_
    refine ((stays_newParams a names).careful d).bind fun params d ↦ ?_
    refine careful_ifEat rfl (fun d ↦ ?_) (careful_pure _) d
    exact (ih d).bind fun _ d ↦ careful_pure _ d

theorem careful_paramList (d : Draft) : Careful paramList d := by
  refine (careful_expect rfl d).bind fun _ d ↦ ?_
  refine Careful.bind ?_ fun _ d ↦ (careful_expect rfl d).bind fun _ d ↦ careful_pure _ d
  refine careful_ifAt _ (careful_pure _) (fun d ↦ ?_) d
  exact (careful_tokensLeft d).bind fun n d ↦ careful_paramsTo n d

theorem careful_resultLabel (d : Draft) : Careful resultLabel d := by
  refine ((stays_at? _).careful d).bind fun _ d ↦ ((stays_at? _).careful d).bind fun _ d ↦ ?_
  exact careful_ite (careful_pure _ d) (careful_lift Ty.careful_label d)

theorem careful_bodyPart (d : Draft) : Careful bodyPart d := by
  refine (careful_lift (careful_eat rfl) d).bind fun _ d ↦ ?_
  refine ((stays_at? _).careful d).bind fun _ d ↦ ?_
  refine careful_ite (careful_pure _ d) (careful_ite ?_ (careful_stop d))
  exact (careful_block d).bind fun _ d ↦ careful_pure _ d

/-- Functions are read carefully, part by part. -/
theorem careful_function (m : Metadata) (d : Draft) : Careful (function m) d := by
  rw [function_eq]
  refine (careful_expect rfl d).bind fun _ d ↦ (careful_expect rfl d).bind fun _ d ↦ ?_
  refine (careful_paramList d).bind fun _ d ↦ (careful_resultLabel d).bind fun _ d ↦ ?_
  exact (careful_bodyPart d).bind fun _ d ↦ (stays_functionEnd _ _ _ _ _ _).careful d

theorem careful_global (m : Metadata) (d : Draft) : Careful (global m) d := by
  refine (careful_letVariable d).bind fun _ d ↦ (careful_expect rfl d).bind fun _ d ↦ ?_
  exact Cursor.Passes.refl d.cursor

/-- **Definitions are read carefully**, tags included. -/
theorem careful_definition (d : Draft) : Careful definition d := by
  rw [definition_eq]
  refine (careful_metadata d).bind fun r d ↦ Careful.bind ?_ fun x d ↦
    (stays_addDefinition x r.2).careful d
  rcases content_cases r.1 d with h | h | h
  · rw [Careful, h]
    exact careful_function r.1 d
  · rw [Careful, h]
    exact careful_global r.1 d
  · rw [Careful, h]
    exact careful_stop d

/-- **Reading a file is careful.** -/
theorem careful_definitionsTo (n : Nat) (d : Draft) : Careful (definitionsTo n) d := by
  induction n generalizing d with
  | zero => exact careful_stop d
  | succ n ih =>
    refine careful_ifAt _ (careful_pure _) (fun d ↦ ?_) d
    exact (careful_definition d).bind fun _ d ↦ ih d

end Build

/-! ### Files -/

/-- A text has one fault at most. -/
theorem Token.eq_of_isFault {text : String} {s t : Token} (hs : s ∈ scan text) (ht : t ∈ scan text)
    (hs' : s.kind.isFault = true) (ht' : t.kind.isFault = true) : s = t := by
  obtain ⟨words, fault?, hscan, hwords, -⟩ := (tiles_scanFrom 0 text.toList).eq_append
  have hmem : ∀ u ∈ scan text, u.kind.isFault = true → u ∈ fault? := by
    intro u hu hfault
    rw [scan, scanList, hscan] at hu
    rcases List.mem_append.1 hu with hu | hu
    · rcases List.mem_append.1 hu with hu | hu
      · cases (hwords u hu).2.symm.trans hfault
      · exact Option.mem_toList.1 hu
    · obtain rfl := List.mem_singleton.1 hu
      cases hfault
  exact Option.mem_unique (hmem s hs hs') (hmem t ht ht')

/-- A fault is still ahead wherever words have led. -/
theorem Cursor.Passes.mem_of_isFault {c c' : Cursor} (h : c.Passes c') {t : Token} (ht : t ∈ c.rest)
    (hfault : t.kind.isFault = true) : t ∈ c'.rest := by
  obtain ⟨ts, hts, hwords⟩ := h
  rw [hts] at ht
  rcases List.mem_append.1 ht with ht | ht
  · cases (Token.Kind.isWord_iff.1 (hwords t ht)).2.symm.trans hfault
  · exact ht

/-- **What is blamed in a text with a fault** is the fault, or a token before it. -/
theorem ParseError.Blames.fault_or_before {text : String} {e : ParseError} {c : Cursor}
    (h : e.Blames c) (hpasses : (Cursor.start (Token.scan text)).Passes c) {t : Token} {f : Fault}
    (ht : t ∈ Token.scan text) (hf : t.kind = .fault f) :
    (e.cause = .fault f ∧ e.span = t.span) ∨ (e.isLexical = false ∧ e.span.Before t.span) := by
  have hfault : t.kind.isFault = true := by rw [hf]; rfl
  have hordered := (Token.tiles_scanFrom 0 text.toList).ordered.1
  have hahead := hpasses.mem_of_isFault ht hfault
  obtain ⟨ts, hts, -⟩ := hpasses
  have hts : Token.scanFrom 0 text.toList = ts ++ c.rest := hts
  obtain ⟨u, us, hrest⟩ := List.exists_cons_of_ne_nil (List.ne_nil_of_mem hahead)
  have hcurrent : c.current = u := by rw [Cursor.current, hrest]; rfl
  rw [h.span_eq, hcurrent]
  cases hu : u.kind.isFault with
  | true =>
    have hmem : u ∈ Token.scan text := by
      rw [Token.scan, Token.scanList, hts, hrest]
      exact List.mem_append_right _ List.mem_cons_self
    obtain rfl := Token.eq_of_isFault hmem ht hu hfault
    exact .inl ⟨h.cause_eq f (hcurrent ▸ hf), rfl⟩
  | false =>
    rw [hts, hrest] at hordered
    rw [hrest] at hahead
    have hbefore := (List.pairwise_cons.1 (List.pairwise_append.1 hordered).2.1).1
    refine .inr ⟨h.isLexical_eq (hcurrent ▸ hu), hbefore t ?_⟩
    refine (List.mem_cons.1 hahead).resolve_left fun heq ↦ ?_
    cases hu.symm.trans (heq ▸ hfault)

namespace Program

/-- The place in a file that reading it has come to. -/
def cursorBehind (p : Program) (source : SourceFile) : Cursor :=
  (Build.definitionsTo (Token.scan source.text).length (p.draft source)).2.cursor

/-- What ends a file early is blamed on a token that words have led to. -/
theorem exists_blames_of_parseFile {p : Program} {source : SourceFile} {e : ParseError}
    (h : (p.parseFile source).error? = some e) :
    ∃ c, (Cursor.start (Token.scan source.text)).Passes c ∧ e.Blames c := by
  have hcareful := Build.careful_definitionsTo (p.draft source).cursor.rest.length (p.draft source)
  rw [Build.Careful] at hcareful
  rw [parseFile] at h
  generalize Build.definitionsTo (p.draft source).cursor.rest.length (p.draft source) = r
    at h hcareful
  rcases r with ⟨e' | u, d⟩
  · obtain rfl : e' = e := Option.some.inj h
    exact hcareful
  · cases h

/-- A file that can be read is read up to its end mark, and there are words only before it. -/
theorem passes_cursorBehind {p : Program} {source : SourceFile}
    (h : (p.parseFile source).error? = none) :
    (Cursor.start (Token.scan source.text)).Passes (p.cursorBehind source) ∧
      ∃ ts stop, Token.scan source.text = ts ++ [.finishAt stop] ∧
        (p.cursorBehind source).rest = [.finishAt stop] := by
  obtain ⟨u, hu⟩ := (parseFile_ok_iff p source).1 h
  have hcareful := Build.careful_definitionsTo (Token.scan source.text).length (p.draft source)
  rw [Build.Careful, hu] at hcareful
  obtain ⟨ts, stop, hscan, hts⟩ := Token.exists_scan_eq source.text
  obtain ⟨hspans, hfirst⟩ := Build.ensures_definitionsTo _ (p.draft source) u hu
  have hrest : (p.draft source).cursor.rest = ts ++ [.finishAt stop] := hscan
  rw [hrest] at hspans
  exact ⟨hcareful, ts, stop, hscan, hspans.eq_of_firstKind rfl hts hfirst⟩

/-- A file that can be read has no fault. -/
theorem faultless_of_parseFile {p : Program} {source : SourceFile}
    (h : (p.parseFile source).error? = none) :
    ∀ t ∈ Token.scan source.text, t.kind.isFault = false := by
  obtain ⟨hpasses, -, stop, -, hrest⟩ := passes_cursorBehind h
  intro t ht
  refine Bool.eq_false_iff.2 fun hfault ↦ ?_
  -- the fault would still be ahead, but there is only the end mark
  have hahead := hpasses.mem_of_isFault ht hfault
  rw [hrest] at hahead
  obtain rfl := List.mem_singleton.1 hahead
  cases hfault

/-- **A fault always shows, and shows as what it is.**

If there is a fault among the tokens of a text, the text cannot be read, and the error is the fault,
with its wording and in its place, or an error in the grammar that ends before the fault. If there
is none, an error is one in the grammar. And if a text can be read, all its tokens have been read
but the end mark. -/
theorem parseFile_faults (p : Program) (source : SourceFile) :
    (∀ t ∈ Token.scan source.text, ∀ f, t.kind = .fault f →
      ∃ e, (p.parseFile source).error? = some e ∧
        ((e.category = .lexical ∧ e.message = f.message ∧ e.span = t.span) ∨
          (e.category = .grammar ∧ e.span.stop ≤ t.span.start))) ∧
      ((∀ t ∈ Token.scan source.text, t.kind.isFault = false) →
        ∀ e, (p.parseFile source).error? = some e → e.category = .grammar) ∧
      ((p.parseFile source).error? = none →
        ∃ ts stop, Token.scan source.text = ts ++ [.finishAt stop] ∧
          (p.cursorBehind source).rest = [.finishAt stop]) := by
  refine ⟨fun t ht f hf ↦ ?_, fun hwords e he ↦ ?_, fun h ↦ (passes_cursorBehind h).2⟩
  · obtain ⟨e, he⟩ : ∃ e, (p.parseFile source).error? = some e := by
      refine Option.ne_none_iff_exists'.1 fun hnone ↦ ?_
      have hfault := faultless_of_parseFile hnone t ht
      rw [hf] at hfault
      cases hfault
    obtain ⟨c, hpasses, hblames⟩ := exists_blames_of_parseFile he
    refine ⟨e, he, ?_⟩
    rcases hblames.fault_or_before hpasses ht hf with ⟨hcause, hspan⟩ | ⟨hlexical, hbefore⟩
    · exact .inl ⟨e.category_of_fault hcause, congrArg ParseError.Cause.message hcause, hspan⟩
    · exact .inr ⟨e.category_of_not_isLexical hlexical, hbefore⟩
  · obtain ⟨c, ⟨ts, hts, -⟩, hblames⟩ := exists_blames_of_parseFile he
    have hcurrent : c.current.kind.isFault = false := by
      rcases c with ⟨_ | ⟨u, us⟩, stop⟩
      · rfl
      · refine hwords u ?_
        rw [show Token.scan source.text = _ from hts]
        exact List.mem_append_right _ List.mem_cons_self
    exact e.category_of_not_isLexical (hblames.isLexical_eq hcurrent)

/-- A rune of two characters. -/
theorem parseFile_faults_rune :
    let source : SourceFile := ⟨"test.berry", "let x = 'ab';"⟩
    ∃ t ∈ Token.scan source.text, t.kind = .fault .longRune ∧
      ∃ e, ((empty "main").parseFile source).error? = some e ∧
        ((e.category = .lexical ∧ e.message = Fault.longRune.message ∧ e.span = t.span) ∨
          (e.category = .grammar ∧ e.span.stop ≤ t.span.start)) := by
  intro source
  have hfault : ∃ t ∈ Token.scan source.text, t.kind = .fault .longRune := by decide +kernel
  obtain ⟨t, ht, hkind⟩ := hfault
  exact ⟨t, ht, hkind, (parseFile_faults (empty "main") source).1 t ht _ hkind⟩

/-- The same rune where a value is due, and behind a name that is missing. -/
example :
    ((empty "main").parseFile ⟨"test.berry", "let x = 'ab';"⟩).error?.map (·.category) =
        some .lexical ∧
      ((empty "main").parseFile ⟨"test.berry", "let = 'ab';"⟩).error?.map (·.category) =
        some .grammar := by
  decide +kernel

end Program

end FrontEnd
