import FrontEnd.Proofs.Grammar.Expressions
import FrontEnd.Proofs.Program.Parts

/-!
# Reading definitions follows the grammar

What has been read is a word, for everything from tags to files (`Build.ensures_definitionsTo` for a
whole file). What these parsers do to the program has no part in it: to give symbols, to bind a name
or to add a tag never fails and never moves the cursor (`Build.Stays`), whether or not the name or
the tag was there before.
-/

namespace FrontEnd

open Grammar

namespace Build

open Parse (at? eat expect spanFrom)

variable {α β : Type} {d : Draft} {p q : Build α} {Q : α → Draft → Prop} {k : Token.Kind}

/-! ### Parsers that read nothing -/

/-- A parser **stays** where it is, and does not fail. -/
def Stays (p : Build α) : Prop :=
  ∀ d, ∃ a, (p d).1 = .ok a ∧ (p d).2.cursor = d.cursor

theorem stays_pure (a : α) : Stays (pure a) :=
  fun _ ↦ ⟨a, rfl, rfl⟩

/-- One behind another, parsers that read nothing read nothing. -/
theorem Stays.bind {f : α → Build β} (hp : Stays p) (hf : ∀ a, Stays (f a)) : Stays (p >>= f) := by
  intro d
  obtain ⟨a, ha, hd⟩ := hp d
  rw [bind_apply]
  generalize p d = r at ha hd ⊢
  rcases r with ⟨e | a', d'⟩
  · exact nomatch ha
  · obtain ⟨b, hb, hd'⟩ := hf a' d'
    exact ⟨b, hb, hd'.trans hd⟩

theorem stays_newSymbol (name : Token) (kind : SymbolKind) (type? : Option Ty) (isMutable : Bool) :
    Stays (newSymbol name kind type? isMutable) :=
  fun _ ↦ ⟨_, rfl, rfl⟩

/-- Parameters become symbols when their group has been read, and nothing is read for it. -/
theorem stays_newParams (a : Ty) (names : List Token) : Stays (newParams a names) := by
  induction names with
  | nil => exact stays_pure _
  | cons name names ih =>
    exact (stays_newSymbol _ _ _ _).bind fun _ ↦ ih.bind fun _ ↦ stays_pure _

theorem stays_spanFrom (s : Span) : Stays (liftM (spanFrom s) : Build Span) :=
  fun _ ↦ ⟨_, rfl, rfl⟩

theorem stays_at? (k : Token.Kind) : Stays (liftM (at? k) : Build Bool) :=
  fun _ ↦ ⟨_, rfl, rfl⟩

/-- A tag that comes twice is reported, and that is all. -/
theorem stays_addTag (m : Metadata) (t : Tag) : Stays (addTag m t) := by
  intro d
  rw [addTag]
  split
  · exact ⟨_, rfl, rfl⟩
  · exact ⟨_, rfl, rfl⟩

/-- A name that is taken is reported, and that is all. -/
theorem stays_bindGlobal (symbol : Nat) : Stays (bindGlobal symbol) := by
  intro d
  rw [bindGlobal]
  split
  · exact ⟨_, rfl, rfl⟩
  · split
    · exact ⟨_, rfl, rfl⟩
    · exact ⟨_, rfl, rfl⟩

/-- Keeping a definition reads nothing, also if its name is taken. -/
theorem stays_addDefinition (x : Definition) (unique : Bool) : Stays (addDefinition x unique) := by
  refine (stays_bindGlobal _).bind fun free ↦ ?_
  cases free && unique with
  | true => exact fun _ ↦ ⟨_, rfl, rfl⟩
  | false => exact stays_pure _

theorem stays_functionEnd (m : Metadata) (start name : Token) (params : List (Nat × Ty))
    (result : Ty) (body? : Option Block) : Stays (functionEnd m start name params result body?) :=
  (stays_newSymbol _ _ _ _).bind fun _ ↦ (stays_spanFrom _).bind fun _ _ ↦ ⟨_, rfl, rfl⟩

/-! ### Rules -/

/-- Behind a parser that reads nothing the tokens are those that there were. -/
theorem Stays.ensures (hp : Stays p) (h : ∀ a d', d'.cursor = d.cursor → Q a d') :
    Ensures p d Q := by
  intro a _
  obtain ⟨-, -, hd⟩ := hp d
  exact h a _ hd

/-- A choice by a token that may be there: if it is, it has been read. -/
theorem ensures_ifEat (hk : k ≠ .finish)
    (hp : ∀ t l s, d.cursor.rest = t :: l → t.kind = k →
      Ensures p { d with cursor := ⟨l, s⟩ } Q)
    (hq : firstKind d.cursor.rest ≠ k → Ensures q d Q) :
    Ensures ((liftM (eat k) : Build Bool) >>= fun b ↦ if b = true then p else q) d Q := by
  refine .bind (ensures_lift fun b c hb ↦ ?_)
  rw [eat] at hb
  by_cases hcurrent : d.cursor.current.kind = k
  · rw [if_pos hcurrent] at hb
    obtain ⟨rfl, rfl⟩ := Prod.mk.inj (Except.ok.inj hb)
    exact hp _ _ _ (d.cursor.rest_eq_cons (hcurrent ▸ hk)) hcurrent
  · rw [if_neg hcurrent] at hb
    obtain ⟨rfl, rfl⟩ := Prod.mk.inj (Except.ok.inj hb)
    exact hq (d.cursor.current_kind ▸ hcurrent)

/-- A choice by a token that is only looked at. -/
theorem ensures_ifAt (hp : firstKind d.cursor.rest = k → Ensures p d Q)
    (hq : firstKind d.cursor.rest ≠ k → Ensures q d Q) :
    Ensures ((liftM (at? k) : Build Bool) >>= fun b ↦ if b = true then p else q) d Q := by
  refine .bind (ensures_lift (Parse.ensures_at? ?_))
  by_cases hk : firstKind d.cursor.rest = k
  · exact ensures_ite (fun _ ↦ hp hk) fun h ↦ absurd (decide_eq_true hk) h
  · exact ensures_ite (fun h ↦ absurd (of_decide_eq_true h) hk) fun _ ↦ hq hk

/-! ### What is read is a word -/

/-- **What is read as a tag is one**: a name, and a string in parentheses if there is a
parenthesis. -/
theorem ensures_tag (c : Cursor) :
    Parse.Ensures tag c fun _ c' ↦ Spans (.rule .tag) c.rest c'.rest := by
  refine .bind (Parse.ensures_expect (by decide) fun name l _ hl hname ↦ ?_)
  rw [hl]
  refine Parse.ensures_ifEat (by decide) (fun t m _ hm ht ↦ ?_) fun _ ↦ Parse.ensures_pure ?_
  · obtain rfl : l = t :: m := hm
    refine .bind (Parse.ensures_expect (by decide) fun value m₁ _ hm₁ hvalue ↦ ?_)
    obtain rfl : m = value :: m₁ := hm₁
    refine .bind (Parse.ensures_expect (by decide) fun u m₂ _ hm₂ hu ↦ Parse.ensures_pure ?_)
    obtain rfl : m₁ = u :: m₂ := hm₂
    exact .rule ((Spans.token hname (by decide) _).append (.some
      (((Spans.token ht (by decide) _).append (.token hvalue (by decide) _)).append
        (.token hu (by decide) _))))
  · exact .rule ((Spans.token hname (by decide) _).append (.none _ _))

/-- Tags in brackets are separated by commas, and there is one at least. -/
theorem ensures_tagsTo (n : Nat) (m : Metadata) (unique : Bool) (d : Draft) :
    Ensures (tagsTo n m unique) d fun _ d' ↦
      Spans (.commas (.rule .tag) ++ .sign .rightBracket) d.cursor.rest d'.cursor.rest := by
  induction n generalizing m unique d with
  | zero => exact ensures_stop
  | succ n ih =>
    refine .bind (ensures_lift ((ensures_tag _).mono fun t c ht ↦ ?_))
    refine .bind ((stays_addTag m t).ensures fun (m', new) d₁ hd₁ ↦ ?_)
    obtain rfl : d₁.cursor = c := hd₁
    refine ensures_ifEat (by decide) (fun u l _ hl hu ↦ ?_) fun _ ↦ ?_
    · refine (ih _ _ _).mono fun _ d₂ hmore ↦ ?_
      obtain ⟨l', hmore, hclose⟩ := spans_seq.1 hmore
      exact .append (spans_commas.2 (.inr ⟨u, l, hl ▸ ht, hu, hmore⟩)) hclose
    · refine .bind (ensures_lift (Parse.ensures_expect (by decide) fun u l _ hl hu ↦ ?_))
      exact ensures_pure ((spans_commas.2 (.inl ht)).append (hl ▸ .token hu (by decide) l))

/-- Tags follow the sign `@`; without it there are none, and that is a word too. -/
theorem ensures_metadata (d : Draft) : Ensures metadata d fun _ d' ↦
    Spans (.opt (.rule .metadata)) d.cursor.rest d'.cursor.rest := by
  refine ensures_ifEat (by decide) (fun t l _ hl ht ↦ ?_) fun _ ↦ ensures_pure (.none _ _)
  rw [hl]
  refine ensures_ifEat (by decide) (fun u m _ hm hu ↦ ?_) fun _ ↦ ?_
  · obtain rfl : l = u :: m := hm
    refine .bind (ensures_lift fun n c hc ↦ (ensures_tagsTo _ _ _ _).mono fun _ d₁ htags ↦ ?_)
    obtain ⟨-, rfl⟩ := Prod.mk.inj (Except.ok.inj hc)
    refine .some (.rule (.right (spans_append_assoc.2 ?_)))
    exact ((Spans.token ht (by decide) _).append (.token hu (by decide) _)).append htags
  · refine .bind (ensures_lift ((ensures_tag _).mono fun t' c htag ↦ ?_))
    refine (stays_addTag _ t').ensures fun _ d₁ hd₁ ↦ ?_
    rw [hd₁]
    exact .some (.rule (.left ((Spans.token ht (by decide) l).append htag)))

/-! #### Variables and statements -/

/-- Reads the label of a variable, if there is one. -/
def labelPart : Parse (Option Ty) := do
  if ← eat (.sign .colon) then return some (← Ty.label) else return none

/-- Reads the initial value of a variable, which only a label can replace. -/
def initPart (labelled : Bool) : Parse (Option Expr) := do
  if labelled && !(← at? (.sign .equal)) then return none
  else
    let _ ← expect (.sign .equal)
    return some (← Expr.parse)

/-- Gives a variable its symbol, when all of it has been read. -/
def variableEnd (start name : Token) (type? : Option Ty) (init? : Option Expr) :
    Build Variable := do
  let symbol ← newSymbol name .value type? true
  let span ← spanFrom start.span
  return { span, symbol, init? }

/-- **A variable is read part by part.** -/
theorem letVariable_eq : letVariable = (do
    let start ← expect (.keyword .let)
    let name ← expect .ident
    let type? ← labelPart
    let init? ← initPart type?.isSome
    variableEnd start name type? init?) :=
  rfl

theorem stays_variableEnd (start name : Token) (type? : Option Ty) (init? : Option Expr) :
    Stays (variableEnd start name type? init?) :=
  (stays_newSymbol _ _ _ _).bind fun _ ↦ (stays_spanFrom _).bind fun _ ↦ stays_pure _

/-- The initial value can be left out only behind a label. -/
theorem ensures_initPart (labelled : Bool) (c : Cursor) :
    Parse.Ensures (initPart labelled) c fun _ c' ↦
      (labelled = true ∧ c' = c) ∨ Spans (.sign .equal ++ .rule .expr) c.rest c'.rest := by
  have hvalue : Parse.Ensures (do
      let _ ← expect (.sign .equal)
      return some (← Expr.parse)) c fun _ c' ↦
        (labelled = true ∧ c' = c) ∨ Spans (.sign .equal ++ .rule .expr) c.rest c'.rest := by
    refine .bind (Parse.ensures_expect (by decide) fun t l _ hl ht ↦ ?_)
    refine .bind ((Expr.ensures_parse _).mono fun e c' he ↦ Parse.ensures_pure (.inr ?_))
    rw [hl]
    exact (Spans.token ht (by decide) l).append he
  cases labelled with
  | false => exact hvalue
  | true =>
    refine .bind (Parse.ensures_at? ?_)
    cases decide (firstKind c.rest = .sign .equal) with
    | false => exact Parse.ensures_pure (.inl ⟨rfl, rfl⟩)
    | true => exact hvalue

/-- **What is read as a variable is one**: it has a label, an initial value, or both. -/
theorem ensures_letVariable (d : Draft) : Ensures letVariable d fun _ d' ↦
    Spans (.rule .binding) d.cursor.rest d'.cursor.rest := by
  rw [letVariable_eq]
  refine .bind (ensures_lift (Parse.ensures_expect (by decide) fun start l _ hl hstart ↦ ?_))
  rw [hl]
  refine .bind (ensures_lift (Parse.ensures_expect (by decide) fun name m _ hm hname ↦ ?_))
  obtain rfl : l = name :: m := hm
  have hhead := (Spans.token hstart (by decide) _).append (.token hname (by decide) m)
  refine .bind (ensures_lift (Parse.ensures_ifEat (by decide) (fun t m₁ _ hm₁ ht ↦ ?_) fun _ ↦ ?_))
  · obtain rfl : m = t :: m₁ := hm₁
    refine .bind ((Ty.ensures_label _).mono fun a c₁ hlabel ↦ Parse.ensures_pure ?_)
    have hlabel := (Spans.token ht (by decide) _).append hlabel
    refine .bind (ensures_lift ((ensures_initPart _ _).mono fun init? c₂ hinit ↦ ?_))
    refine (stays_variableEnd _ _ _ _).ensures fun _ d' hd' ↦ .rule (hhead.append (.left ?_))
    rw [hd']
    rcases hinit with ⟨-, rfl⟩ | hinit
    · exact hlabel.append (.none _ _)
    · exact hlabel.append (.some hinit)
  · refine Parse.ensures_pure ?_
    refine .bind (ensures_lift ((ensures_initPart _ _).mono fun init? c₂ hinit ↦ ?_))
    refine (stays_variableEnd _ _ _ _).ensures fun _ d' hd' ↦ .rule (hhead.append (.right ?_))
    rw [hd']
    exact hinit.resolve_left fun h ↦ nomatch h.1

/-- A statement. -/
abbrev stmtForm : Form :=
  (.rule .binding ||| .rule .expr) ++ .sign .semicolon

/-- A statement ends with its semicolon, whichever kind it is. -/
theorem ensures_stmt (d : Draft) :
    Ensures stmt d fun _ d' ↦ Spans stmtForm d.cursor.rest d'.cursor.rest := by
  refine ensures_ifAt (fun _ ↦ ?_) fun _ ↦ ?_
  · refine .bind ((ensures_letVariable d).mono fun v d₁ hv ↦ ?_)
    refine .bind (ensures_lift (Parse.ensures_expect (by decide) fun t l _ hl ht ↦ ?_))
    exact ensures_pure ((Spans.left hv).append (hl ▸ .token ht (by decide) l))
  · refine .bind (ensures_lift ((Expr.ensures_parse _).mono fun e c he ↦ ?_))
    refine .bind (ensures_lift (Parse.ensures_expect (by decide) fun t l _ hl ht ↦ ?_))
    have hl : c.rest = t :: l := hl
    exact ensures_pure ((Spans.right he).append (hl ▸ .token ht (by decide) l))

/-- Statements go on up to the brace. The bound on rounds plays no part here: a loop that is cut
short has failed. -/
theorem ensures_stmtsTo (n : Nat) (d : Draft) : Ensures (stmtsTo n) d fun _ d' ↦
    Spans (.many stmtForm ++ .sign .rightBrace) d.cursor.rest d'.cursor.rest := by
  induction n generalizing d with
  | zero => exact ensures_stop
  | succ n ih =>
    refine ensures_ifEat (by decide) (fun t l _ hl ht ↦ ensures_pure ?_) fun _ ↦ ?_
    · exact (Spans.nil _ _).append (hl ▸ .token ht (by decide) l)
    · refine .bind ((ensures_stmt d).mono fun s d₁ hs ↦ .bind ((ih d₁).mono fun more d₂ hmore ↦ ?_))
      obtain ⟨m, hmore, hclose⟩ := spans_seq.1 hmore
      exact ensures_pure ((Spans.cons hs hmore).append hclose)

/-- **What is read as a block is one.** -/
theorem ensures_block (d : Draft) :
    Ensures block d fun _ d' ↦ Spans (.rule .block) d.cursor.rest d'.cursor.rest := by
  refine .bind (ensures_lift (Parse.ensures_expect (by decide) fun t l _ hl ht ↦ ?_))
  refine .bind (ensures_lift fun n c hc ↦ ?_)
  obtain ⟨-, rfl⟩ := Prod.mk.inj (Except.ok.inj hc)
  refine .bind ((ensures_stmtsTo _ _).mono fun ss d₁ hss ↦ ?_)
  refine .bind ((stays_spanFrom _).ensures fun span d₂ hd₂ ↦ ensures_pure (.rule ?_))
  rw [hd₂, hl]
  exact spans_append_assoc.2 ((Spans.token ht (by decide) l).append hss)

/-! #### Definitions -/

/-- A group of parameters begins with names that are separated by commas. -/
theorem ensures_namesTo (n : Nat) (c : Cursor) : Parse.Ensures (namesTo n) c fun _ c' ↦
    Spans (.commas (.kind .ident)) c.rest c'.rest := by
  induction n generalizing c with
  | zero => exact Parse.ensures_failHere
  | succ n ih =>
    refine .bind (Parse.ensures_expect (by decide) fun name l _ hl hname ↦ ?_)
    rw [hl]
    have hfirst := Spans.token hname (by decide) l
    refine Parse.ensures_ifEat (by decide) (fun t m _ hm ht ↦ ?_) fun _ ↦ Parse.ensures_pure ?_
    · obtain rfl : l = t :: m := hm
      refine .bind ((ih _).mono fun more c' hmore ↦ Parse.ensures_pure ?_)
      exact spans_commas.2 (.inr ⟨t, m, hfirst, ht, hmore⟩)
    · exact spans_commas.2 (.inl hfirst)

/-- Behind its names and a colon a group has a label, and a comma leads to the next group. -/
theorem ensures_commas_paramsTo (n : Nat) (d : Draft) : Ensures (paramsTo n) d fun _ d' ↦
    Spans (.commas (.rule .group)) d.cursor.rest d'.cursor.rest := by
  induction n generalizing d with
  | zero => exact ensures_stop
  | succ n ih =>
    refine .bind (ensures_lift fun n c hc ↦ ?_)
    obtain ⟨-, rfl⟩ := Prod.mk.inj (Except.ok.inj hc)
    refine .bind (ensures_lift ((ensures_namesTo _ _).mono fun names c₁ hnames ↦ ?_))
    refine .bind (ensures_lift (Parse.ensures_expect (by decide) fun t l _ hl ht ↦ ?_))
    refine .bind (ensures_lift ((Ty.ensures_label _).mono fun a c₂ hlabel ↦ ?_))
    have hgroup : Spans (.rule .group) d.cursor.rest c₂.rest :=
      .rule ((hnames.append (hl ▸ .token ht (by decide) l)).append hlabel)
    refine .bind ((stays_newParams a names).ensures fun params d₁ hd₁ ↦ ?_)
    obtain rfl : d₁.cursor = c₂ := hd₁
    refine ensures_ifEat (by decide) (fun u m _ hm hu ↦ ?_) fun _ ↦ ensures_pure ?_
    · refine .bind ((ih _).mono fun more d₂ hmore ↦ ensures_pure ?_)
      exact spans_commas.2 (.inr ⟨u, m, hm ▸ hgroup, hu, hmore⟩)
    · exact spans_commas.2 (.inl hgroup)

theorem ensures_word_paramList (d : Draft) : Ensures paramList d fun _ d' ↦
    Spans (.sign .leftParen ++ .opt (.commas (.rule .group)) ++ .sign .rightParen)
      d.cursor.rest d'.cursor.rest := by
  refine .bind (ensures_lift (Parse.ensures_expect (by decide) fun t l _ hl ht ↦ ?_))
  rw [hl]
  refine .bind (Ensures.mono (P := fun _ d' ↦
    Spans (.opt (.commas (.rule .group))) l d'.cursor.rest) ?_ fun params d₁ hparams ↦ ?_)
  · refine ensures_ifAt (fun _ ↦ ensures_pure (.none _ _)) fun _ ↦ ?_
    refine .bind (ensures_lift fun n c hc ↦ ?_)
    obtain ⟨-, rfl⟩ := Prod.mk.inj (Except.ok.inj hc)
    exact (ensures_commas_paramsTo _ _).mono fun _ d' h ↦ .some h
  · refine .bind (ensures_lift (Parse.ensures_expect (by decide) fun u m _ hm hu ↦ ?_))
    exact ensures_pure (((Spans.token ht (by decide) l).append hparams).append
      (hm ▸ .token hu (by decide) m))

/-- The label of a result is left out where a body or a semicolon comes next. -/
theorem ensures_resultLabel (d : Draft) : Ensures resultLabel d fun _ d' ↦
    Spans (.opt (.rule .label)) d.cursor.rest d'.cursor.rest := by
  refine .bind (ensures_lift (Parse.ensures_at? ?_))
  refine .bind (ensures_lift (Parse.ensures_at? ?_))
  refine ensures_ite (fun _ ↦ ensures_pure (.none _ _)) fun _ ↦ ?_
  exact ensures_lift ((Ty.ensures_label _).mono fun _ _ h ↦ .some h)

theorem ensures_bodyPart (d : Draft) : Ensures bodyPart d fun _ d' ↦
    Spans (.rule .block ||| .sign .semicolon) d.cursor.rest d'.cursor.rest := by
  refine .bind (ensures_lift fun ended c hc ↦ ?_)
  refine .bind (ensures_lift (Parse.ensures_at? ?_))
  rw [eat] at hc
  by_cases hended : d.cursor.current.kind = .sign .semicolon
  · rw [if_pos hended] at hc
    obtain ⟨rfl, rfl⟩ := Prod.mk.inj (Except.ok.inj hc)
    refine ensures_pure (.right ?_)
    rw [d.cursor.rest_eq_cons (hended ▸ by decide)]
    exact .token hended (by decide) _
  · rw [if_neg hended] at hc
    obtain ⟨rfl, rfl⟩ := Prod.mk.inj (Except.ok.inj hc)
    refine ensures_ite (absurd · Bool.false_ne_true) fun _ ↦
      ensures_ite (fun _ ↦ ?_) fun _ ↦ ensures_stop
    refine Ensures.bind ((ensures_block d).mono fun b d' hb ↦ ?_)
    exact ensures_pure (.left hb)

/-- **What is read as a function is one.** The parts are put together from the left, as the rule
groups them. -/
theorem ensures_word_function (m : Metadata) (d : Draft) : Ensures (function m) d fun _ d' ↦
    Spans (.rule .function) d.cursor.rest d'.cursor.rest := by
  rw [function_eq]
  refine .bind (ensures_lift (Parse.ensures_expect (by decide) fun start l _ hl hstart ↦ ?_))
  rw [hl]
  refine .bind (ensures_lift (Parse.ensures_expect (by decide) fun name l' _ hl' hname ↦ ?_))
  obtain rfl : l = name :: l' := hl'
  refine .bind ((ensures_word_paramList _).mono fun params d₁ hparams ↦ ?_)
  refine .bind ((ensures_resultLabel d₁).mono fun result d₂ hresult ↦ ?_)
  refine .bind ((ensures_bodyPart d₂).mono fun body? d₃ hbody ↦ ?_)
  refine (stays_functionEnd _ _ _ _ _ _).ensures fun _ d₄ hd₄ ↦ ?_
  rw [hd₄]
  obtain ⟨l₂, hparams, hclose⟩ := spans_seq.1 hparams
  obtain ⟨l₁, hopen, hparams⟩ := spans_seq.1 hparams
  have hname := (Spans.token hstart (by decide) _).append (.token hname (by decide) l')
  exact .rule (((((hname.append hopen).append hparams).append hclose).append hresult).append hbody)

theorem ensures_word_global (m : Metadata) (d : Draft) : Ensures (global m) d fun _ d' ↦
    Spans (.rule .binding ++ .sign .semicolon) d.cursor.rest d'.cursor.rest := by
  refine .bind ((ensures_letVariable d).mono fun v d₁ hv ↦ ?_)
  refine .bind (ensures_lift (Parse.ensures_expect (by decide) fun t l _ hl ht ↦ ?_))
  intro x hx
  exact hv.append (hl ▸ .token ht (by decide) l)

/-- **What is read as a definition is one**, with the tags in front of it. -/
theorem ensures_definition (d : Draft) : Ensures definition d fun _ d' ↦
    Spans (.rule .definition) d.cursor.rest d'.cursor.rest := by
  refine .bind ((ensures_metadata d).mono fun (m, unique) d₁ hmetadata ↦ ?_)
  refine .bind (ensures_lift (Parse.ensures_peek ?_))
  split
  · refine .bind ((ensures_word_function m _).mono fun x d₂ hx ↦ ?_)
    refine (stays_addDefinition x unique).ensures fun _ d₃ hd₃ ↦ ?_
    rw [hd₃]
    exact .rule (hmetadata.append (.left hx))
  · refine .bind ((ensures_word_global m _).mono fun x d₂ hx ↦ ?_)
    refine (stays_addDefinition x unique).ensures fun _ d₃ hd₃ ↦ ?_
    rw [hd₃]
    exact .rule (hmetadata.append (.right hx))
  · exact ensures_stop

/-- **A file that has been read is a word**, up to the end mark. -/
theorem ensures_definitionsTo (n : Nat) (d : Draft) : Ensures (definitionsTo n) d fun _ d' ↦
    Spans (.many (.rule .definition)) d.cursor.rest d'.cursor.rest ∧
      firstKind d'.cursor.rest = .finish := by
  induction n generalizing d with
  | zero => exact ensures_stop
  | succ n ih =>
    refine ensures_ifAt (fun hfinish ↦ ensures_pure ⟨.nil _ _, hfinish⟩) fun _ ↦ ?_
    refine .bind ((ensures_definition d).mono fun _ d₁ hfirst ↦ ?_)
    exact (ih d₁).mono fun _ d₂ ⟨hmore, hfinish⟩ ↦ ⟨.cons hfirst hmore, hfinish⟩

end Build

end FrontEnd
