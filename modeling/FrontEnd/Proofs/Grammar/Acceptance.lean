import FrontEnd.Proofs.Grammar.Definitions

/-!
# Files that follow the grammar are read

The other way for everything from tags to files: where the tokens begin with a word of a rule, its
parser reads just that word (`Build.reads_definitionsTo` for a whole file). As with expressions,
what comes behind must not let the parser go on; and where a parser counts down the tokens that are
left, each round reads one at least.
-/

namespace FrontEnd

open Grammar

namespace Build

open Parse (at? eat expect spanFrom peek)

variable {α β : Type} {p : Build α} {k : Token.Kind} {l m l' : List Token} {n : Nat}

/-! ### Rules -/

/-- **Where the tokens `l` are left, a parser reads** up to the tokens `l'`. -/
def Reads (p : Build α) (l l' : List Token) : Prop :=
  ∀ d : Draft, d.cursor.rest = l → ∃ a, (p d).1 = .ok a ∧ (p d).2.cursor.rest = l'

/-- A parser that stays where it is reads nothing. -/
theorem Stays.reads (hp : Stays p) (l : List Token) : Reads p l l := by
  intro d hd
  obtain ⟨a, ha, hcursor⟩ := hp d
  exact ⟨a, ha, by rw [hcursor, hd]⟩

theorem reads_pure (a : α) (l : List Token) : Reads (pure a) l l :=
  (stays_pure a).reads l

/-- **One parser behind another** reads what the two read. -/
theorem Reads.bind {f : α → Build β} (hp : Reads p l m) (hf : ∀ a, Reads (f a) m l') :
    Reads (p >>= f) l l' := by
  intro d hd
  obtain ⟨a, ha, hm⟩ := hp d hd
  rw [bind_apply]
  generalize p d = r at ha hm ⊢
  rcases r with ⟨e | a', d'⟩
  · exact nomatch ha
  · exact hf a' d' hm

/-- A parser that does not look at the program reads the same when it is run in a draft. -/
theorem reads_lift {p : Parse α} (h : Parse.Reads p l l') : Reads (liftM p) l l' := by
  intro d hd
  obtain ⟨a, c, hp, hc⟩ := h d.cursor hd
  rw [lift_apply, hp]
  exact ⟨a, rfl, hc⟩

/-- What a parser reads without regard to the program, where more than its end has to be known. -/
theorem reads_liftBind {p : Parse α} {f : α → Build β} {P : α → Prop}
    (hp : ∀ c : Cursor, c.rest = l → ∃ a c', p c = .ok (a, c') ∧ c'.rest = m ∧ P a)
    (hf : ∀ a, P a → Reads (f a) m l') : Reads (liftM p >>= f) l l' := by
  intro d hd
  obtain ⟨a, c, hpc, hc, ha⟩ := hp d.cursor hd
  rw [bind_apply, lift_apply, hpc]
  exact hf a ha _ hc

/-- A token that may be there and is there is read. -/
theorem reads_eat_pos {f : Bool → Build α} {t : Token} (hk : t.kind = k)
    (h : Reads (f true) l l') : Reads (liftM (eat k) >>= f) (t :: l) l' := by
  refine reads_liftBind (P := (· = true)) ?_ fun _ ha ↦ ha ▸ h
  rintro ⟨_, s⟩ rfl
  exact ⟨true, _, if_pos hk, rfl, rfl⟩

/-- A token that may be there and is not there is passed over. -/
theorem reads_eat_neg {f : Bool → Build α} (hk : firstKind l ≠ k) (h : Reads (f false) l l') :
    Reads (liftM (eat k) >>= f) l l' := by
  refine reads_liftBind (P := (· = false)) ?_ fun _ ha ↦ ha ▸ h
  intro c hc
  exact ⟨false, c, if_neg (by rw [c.current_kind, hc]; exact hk), hc, rfl⟩

theorem reads_at?_pos {f : Bool → Build α} (hk : firstKind l = k) (h : Reads (f true) l l') :
    Reads (liftM (at? k) >>= f) l l' := by
  refine reads_liftBind (P := (· = true)) ?_ fun _ ha ↦ ha ▸ h
  intro c hc
  exact ⟨_, c, rfl, hc, decide_eq_true (by rw [c.current_kind, hc]; exact hk)⟩

theorem reads_at?_neg {f : Bool → Build α} (hk : firstKind l ≠ k) (h : Reads (f false) l l') :
    Reads (liftM (at? k) >>= f) l l' := by
  refine reads_liftBind (P := (· = false)) ?_ fun _ ha ↦ ha ▸ h
  intro c hc
  exact ⟨_, c, rfl, hc, decide_eq_false (by rw [c.current_kind, hc]; exact hk)⟩

/-- Of the token that comes next only the kind is known. -/
theorem reads_peek {f : Token → Build α} (h : ∀ t, t.kind = firstKind l → Reads (f t) l l') :
    Reads (liftM peek >>= f) l l' := by
  refine reads_liftBind (P := fun t ↦ t.kind = firstKind l) ?_ h
  intro c hc
  exact ⟨_, c, rfl, hc, hc ▸ c.current_kind⟩

/-- The bound on a loop is the number of tokens that are left when the loop is entered. -/
theorem reads_tokensLeft {f : Nat → Build α} (h : Reads (f l.length) l l') :
    Reads (liftM tokensLeft >>= f) l l' := by
  refine reads_liftBind (P := (· = l.length)) ?_ fun _ ha ↦ ha ▸ h
  rintro c rfl
  exact ⟨_, c, rfl, rfl, rfl⟩

/-! ### Tags -/

/-- **A tag is read** as far as it goes. A parenthesis behind it would be taken for its value. -/
theorem reads_tag (h : Spans (.rule .tag) l l') (hnext : firstKind l' ≠ .sign .leftParen) :
    Parse.Reads tag l l' := by
  obtain ⟨m, hname, hvalue⟩ := spans_seq.1 (spans_rule.1 h)
  obtain ⟨name, rfl, hname, -⟩ := spans_kind.1 hname
  refine (Parse.reads_expect hname m).bind fun _ ↦ ?_
  rcases spans_opt.1 hvalue with rfl | hvalue
  · exact Parse.reads_eat_neg hnext (Parse.reads_pure _ _)
  · obtain ⟨m₂, hvalue, hclose⟩ := spans_seq.1 hvalue
    obtain ⟨m₁, hopen, hstring⟩ := spans_seq.1 hvalue
    obtain ⟨t, rfl, ht, -⟩ := spans_kind.1 hopen
    obtain ⟨v, rfl, hv, -⟩ := spans_kind.1 hstring
    obtain ⟨u, rfl, hu, -⟩ := spans_kind.1 hclose
    refine Parse.reads_eat_pos ht ((Parse.reads_expect hv _).bind fun _ ↦ ?_)
    exact (Parse.reads_expect hu _).bind fun _ ↦ Parse.reads_pure _ _

/-- Tags in brackets are read up to the bracket that closes them. Every round takes a tag at least,
so there are rounds enough for the tokens that are left. -/
theorem reads_tagsTo (h : Spans (.commas (.rule .tag) ++ .sign .rightBracket) l l')
    (hn : l.length ≤ n) (m : Metadata) (unique : Bool) : Reads (tagsTo n m unique) l l' := by
  induction n generalizing l m unique with
  | zero => exact absurd (h.length_lt 2 (by decide)) (by omega)
  | succ n ih =>
    obtain ⟨m', htags, hclose⟩ := spans_seq.1 h
    obtain ⟨u, rfl, hu, -⟩ := spans_kind.1 hclose
    have hu' : firstKind (u :: l') = .sign .rightBracket := hu
    rcases spans_commas.1 htags with htag | ⟨t, rest, htag, ht, hmore⟩
    · refine (reads_lift (reads_tag htag (hu' ▸ by decide))).bind fun tag ↦ ?_
      refine ((stays_addTag m tag).reads _).bind fun (m', new) ↦ ?_
      refine reads_eat_neg (hu' ▸ by decide) ((reads_lift (Parse.reads_expect hu l')).bind ?_)
      exact fun _ ↦ reads_pure _ _
    · have ht' : firstKind (t :: rest) = .sign .comma := ht
      have hlt := htag.length_lt 3 (by decide)
      rw [List.length_cons] at hlt
      refine (reads_lift (reads_tag htag (ht' ▸ by decide))).bind fun tag ↦ ?_
      refine ((stays_addTag m tag).reads _).bind fun (m', new) ↦ ?_
      exact reads_eat_pos ht (ih (hmore.append hclose) (by omega) _ _)

/-- What a definition begins with behind its tags. -/
def openers : List Token.Kind :=
  [.keyword .func, .keyword .let]

/-- The tags of a definition are read, whether there are none, one, or a list in brackets. -/
theorem reads_metadata (h : Spans (.opt (.rule .metadata)) l l')
    (hnext : firstKind l' ∈ openers) : Reads metadata l l' := by
  rcases spans_opt.1 h with rfl | h
  · exact reads_eat_neg (ne_of_mem_of_not_mem hnext (by decide)) (reads_pure _ _)
  · rcases spans_alt.1 (spans_rule.1 h) with h | h
    · obtain ⟨m, hat, htag⟩ := spans_seq.1 h
      obtain ⟨t, rfl, ht, -⟩ := spans_kind.1 hat
      have hfirst := htag.firstKind_mem [.ident] 4 (by decide)
      refine reads_eat_pos ht (reads_eat_neg (ne_of_mem_of_not_mem hfirst (by decide)) ?_)
      have hparen := ne_of_mem_of_not_mem hnext (by decide : Token.Kind.sign .leftParen ∉ openers)
      exact (reads_lift (reads_tag htag hparen)).bind fun tag ↦ (stays_addTag _ tag).reads _
    · obtain ⟨m, hopen, htags⟩ := spans_seq.1 (spans_append_assoc.1 h)
      obtain ⟨m', hat, hbracket⟩ := spans_seq.1 hopen
      obtain ⟨t, rfl, ht, -⟩ := spans_kind.1 hat
      obtain ⟨u, rfl, hu, -⟩ := spans_kind.1 hbracket
      exact reads_eat_pos ht (reads_eat_pos hu
        (reads_tokensLeft (reads_tagsTo htags (Nat.le_refl _) _ _)))

/-! ### Variables and statements -/

/-- A label behind a colon is read, and what comes behind it knows that there is one. -/
theorem reads_labelPart_some {f : Option Ty → Build α}
    (h : Spans (.sign .colon ++ .rule .label) l m) (hf : ∀ a, Reads (f (some a)) m l') :
    Reads (liftM labelPart >>= f) l l' := by
  obtain ⟨m', hcolon, hlabel⟩ := spans_seq.1 h
  obtain ⟨t, rfl, ht, -⟩ := spans_kind.1 hcolon
  refine reads_liftBind (P := fun type? ↦ ∃ a, type? = some a) ?_ fun _ ⟨a, ha⟩ ↦ ha ▸ hf a
  rintro ⟨_, s⟩ rfl
  obtain ⟨a, c, ha, hc⟩ := Ty.reads_label hlabel ⟨m', t.span.stop⟩ rfl
  have heat : eat (.sign .colon) ⟨t :: m', s⟩ = .ok (true, ⟨m', t.span.stop⟩) := if_pos ht
  refine ⟨some a, c, ?_, hc, a, rfl⟩
  rw [labelPart, Parse.bind_apply, heat]
  show (Ty.label >>= fun a ↦ pure (some a)) (⟨m', t.span.stop⟩ : Cursor) = _
  rw [Parse.bind_apply, ha]
  rfl

/-- Without a colon there is no label. -/
theorem reads_labelPart_none {f : Option Ty → Build α} (hk : firstKind l ≠ .sign .colon)
    (hf : Reads (f none) l l') : Reads (liftM labelPart >>= f) l l' := by
  refine reads_liftBind (P := (· = none)) ?_ fun _ ha ↦ ha ▸ hf
  intro c hc
  have heat : eat (.sign .colon) c = .ok (false, c) :=
    if_neg (by rw [c.current_kind, hc]; exact hk)
  refine ⟨none, c, ?_, hc, rfl⟩
  rw [labelPart, Parse.bind_apply, heat]
  rfl

/-- An initial value is read, whether or not there is a label in front of it. -/
theorem reads_initPart_value (h : Spans (.sign .equal ++ .rule .expr) l l')
    (hnext : firstKind l' ∈ Expr.closers) (labelled : Bool) :
    Parse.Reads (initPart labelled) l l' := by
  obtain ⟨m, hequal, hexpr⟩ := spans_seq.1 h
  obtain ⟨t, rfl, ht, -⟩ := spans_kind.1 hequal
  have hvalue : Parse.Reads (do
      let _ ← expect (.sign .equal)
      return some (← Expr.parse)) (t :: m) l' :=
    (Parse.reads_expect ht m).bind fun _ ↦ (Expr.reads_parse hexpr hnext).bind fun _ ↦
      Parse.reads_pure _ _
  cases labelled with
  | false => exact hvalue
  | true =>
    refine Parse.reads_at? ?_
    rw [decide_eq_true (show firstKind (t :: m) = .sign .equal from ht)]
    exact hvalue

/-- Behind a label the initial value can be left out. -/
theorem reads_initPart_none (h : firstKind l ≠ .sign .equal) :
    Parse.Reads (initPart true) l l := by
  refine Parse.reads_at? ?_
  rw [decide_eq_false h]
  exact Parse.reads_pure _ _

/-- **A variable is read** up to its semicolon, with a label, an initial value, or both. -/
theorem reads_letVariable (h : Spans (.rule .binding) l l')
    (hnext : firstKind l' = .sign .semicolon) : Reads letVariable l l' := by
  obtain ⟨m, hhead, hrest⟩ := spans_seq.1 (spans_rule.1 h)
  obtain ⟨m', hlet, hname⟩ := spans_seq.1 hhead
  obtain ⟨t, rfl, ht, -⟩ := spans_kind.1 hlet
  obtain ⟨name, rfl, hname, -⟩ := spans_kind.1 hname
  have hcloser : firstKind l' ∈ Expr.closers := hnext ▸ by decide
  rw [letVariable_eq]
  refine (reads_lift (Parse.reads_expect ht _)).bind fun start ↦ ?_
  refine (reads_lift (Parse.reads_expect hname m)).bind fun name ↦ ?_
  rcases spans_alt.1 hrest with h | hinit
  · obtain ⟨m₁, hlabel, hinit⟩ := spans_seq.1 h
    refine reads_labelPart_some hlabel fun a ↦ ?_
    rcases spans_opt.1 hinit with rfl | hinit
    · refine (reads_lift (reads_initPart_none (hnext ▸ by decide))).bind fun _ ↦ ?_
      exact (stays_variableEnd _ _ _ _).reads _
    · refine (reads_lift (reads_initPart_value hinit hcloser true)).bind fun _ ↦ ?_
      exact (stays_variableEnd _ _ _ _).reads _
  · have hfirst := hinit.firstKind_mem [.sign .equal] 3 (by decide)
    refine reads_labelPart_none (ne_of_mem_of_not_mem hfirst (by decide)) ?_
    refine (reads_lift (reads_initPart_value hinit hcloser false)).bind fun _ ↦ ?_
    exact (stays_variableEnd _ _ _ _).reads _

/-- A statement is read together with its semicolon. The word `let` tells the two kinds apart, since
no expression begins with it. -/
theorem reads_stmt (h : Spans stmtForm l l') : Reads stmt l l' := by
  obtain ⟨m, hstmt, hsemicolon⟩ := spans_seq.1 h
  obtain ⟨u, rfl, hu, -⟩ := spans_kind.1 hsemicolon
  have hu' : firstKind (u :: l') = .sign .semicolon := hu
  rcases spans_alt.1 hstmt with hbinding | hexpr
  · have hfirst := hbinding.firstKind_mem [.keyword .let] 5 (by decide)
    refine reads_at?_pos (List.mem_singleton.1 hfirst) ?_
    refine (reads_letVariable hbinding hu').bind fun v ↦ ?_
    exact (reads_lift (Parse.reads_expect hu l')).bind fun _ ↦ reads_pure _ _
  · refine reads_at?_neg (ne_of_mem_of_not_mem (firstKind_expr hexpr) (by decide)) ?_
    refine (reads_lift (Expr.reads_parse hexpr (hu' ▸ by decide))).bind fun e ↦ ?_
    exact (reads_lift (Parse.reads_expect hu l')).bind fun _ ↦ reads_pure _ _

/-- Statements are read up to the brace that closes their block. -/
theorem reads_stmtsTo (h : Spans (.many stmtForm ++ .sign .rightBrace) l l') (hn : l.length ≤ n) :
    Reads (stmtsTo n) l l' := by
  induction n generalizing l with
  | zero => exact absurd (h.length_lt 2 (by decide)) (by omega)
  | succ n ih =>
    obtain ⟨m, hstmts, hclose⟩ := spans_seq.1 h
    rcases spans_many.1 hstmts with rfl | ⟨m', hstmt, hmore⟩
    · obtain ⟨u, rfl, hu, -⟩ := spans_kind.1 hclose
      exact reads_eat_pos hu (reads_pure _ _)
    · have hlt := hstmt.length_lt 2 (by decide)
      have hfirst := hstmt.firstKind_mem
        (.keyword .let :: .sign .leftParen :: (unaryOperators ++ atoms)) 16 (by decide)
      refine reads_eat_neg (ne_of_mem_of_not_mem hfirst (by decide)) ?_
      refine (reads_stmt hstmt).bind fun s ↦ ?_
      exact (ih (hmore.append hclose) (by omega)).bind fun more ↦ reads_pure _ _

theorem reads_block (h : Spans (.rule .block) l l') : Reads block l l' := by
  obtain ⟨m, hopen, hstmts⟩ := spans_seq.1 (spans_append_assoc.1 (spans_rule.1 h))
  obtain ⟨t, rfl, ht, -⟩ := spans_kind.1 hopen
  refine (reads_lift (Parse.reads_expect ht m)).bind fun start ↦ reads_tokensLeft ?_
  refine (reads_stmtsTo hstmts (Nat.le_refl _)).bind fun ss ↦ ?_
  exact ((stays_spanFrom _).reads _).bind fun span ↦ reads_pure _ _

/-! ### Definitions -/

/-- The names of a group of parameters are read up to what is no comma. -/
theorem reads_namesTo (h : Spans (.commas (.kind .ident)) l l')
    (hnext : firstKind l' ≠ .sign .comma) (hn : l.length ≤ n) : Parse.Reads (namesTo n) l l' := by
  induction n generalizing l with
  | zero => exact absurd (h.length_lt 3 (by decide)) (by omega)
  | succ n ih =>
    rcases spans_commas.1 h with hname | ⟨t, m, hname, ht, hmore⟩
    · obtain ⟨name, rfl, hname, -⟩ := spans_kind.1 hname
      refine (Parse.reads_expect hname l').bind fun _ ↦ ?_
      exact Parse.reads_eat_neg hnext (Parse.reads_pure _ _)
    · obtain ⟨name, rfl, hname, -⟩ := spans_kind.1 hname
      simp only [List.length_cons] at hn
      refine (Parse.reads_expect hname _).bind fun _ ↦ Parse.reads_eat_pos ht ?_
      exact (ih hmore (by omega)).bind fun more ↦ Parse.reads_pure _ _

/-- Groups of parameters are read one behind another. The comma in a group belongs to its names, and
the one behind its label to the list. -/
theorem reads_paramsTo (h : Spans (.commas (.rule .group)) l l')
    (hnext : firstKind l' ≠ .sign .comma) (hn : l.length ≤ n) : Reads (paramsTo n) l l' := by
  induction n generalizing l with
  | zero => exact absurd (h.length_lt 6 (by decide)) (by omega)
  | succ n ih =>
    -- one group, and how to go on behind it
    have hgroup {l m l' : List Token} {f : List (Nat × Ty) → Build (List (Nat × Ty))}
        (h : Spans (.rule .group) l m) (hf : ∀ params, Reads (f params) m l') : Reads (do
          let names ← namesTo (← tokensLeft)
          let _ ← expect (.sign .colon)
          let a ← Ty.label
          let params ← newParams a names
          f params) l l' := by
      obtain ⟨m₁, hnames, hlabel⟩ := spans_seq.1 (spans_rule.1 h)
      obtain ⟨m₂, hnames, hcolon⟩ := spans_seq.1 hnames
      obtain ⟨t, rfl, ht, -⟩ := spans_kind.1 hcolon
      have ht' : firstKind (t :: m₁) = .sign .colon := ht
      refine reads_tokensLeft ?_
      have hnames := reads_namesTo hnames (ht' ▸ by decide) (Nat.le_refl _)
      refine (reads_lift hnames).bind fun names ↦ ?_
      refine (reads_lift (Parse.reads_expect ht m₁)).bind fun _ ↦ ?_
      refine (reads_lift (Ty.reads_label hlabel)).bind fun a ↦ ?_
      exact ((stays_newParams a names).reads m).bind hf
    rcases spans_commas.1 h with hfirst | ⟨t, m, hfirst, ht, hmore⟩
    · exact hgroup hfirst fun params ↦ reads_eat_neg hnext (reads_pure _ _)
    · have hlt := hfirst.length_lt 5 (by decide)
      rw [List.length_cons] at hlt
      refine hgroup hfirst fun params ↦ reads_eat_pos ht ?_
      exact (ih hmore (by omega)).bind fun more ↦ reads_pure _ _

/-- The parameters of a function are read with their parentheses, also if there are none. -/
theorem reads_paramList
    (h : Spans (.sign .leftParen ++ .opt (.commas (.rule .group)) ++ .sign .rightParen) l l') :
    Reads paramList l l' := by
  obtain ⟨m, hlist, hclose⟩ := spans_seq.1 h
  obtain ⟨m', hopen, hopt⟩ := spans_seq.1 hlist
  obtain ⟨t, rfl, ht, -⟩ := spans_kind.1 hopen
  obtain ⟨u, rfl, hu, -⟩ := spans_kind.1 hclose
  have hu' : firstKind (u :: l') = .sign .rightParen := hu
  refine (reads_lift (Parse.reads_expect ht m')).bind fun _ ↦
    Reads.bind (m := u :: l') ?_ fun params ↦ ?_
  · rcases spans_opt.1 hopt with rfl | hparams
    · exact reads_at?_pos hu' (reads_pure _ _)
    · have hfirst := hparams.firstKind_mem [.ident] 8 (by decide)
      refine reads_at?_neg (ne_of_mem_of_not_mem hfirst (by decide)) (reads_tokensLeft ?_)
      exact reads_paramsTo hparams (hu' ▸ by decide) (Nat.le_refl _)
  · exact (reads_lift (Parse.reads_expect hu l')).bind fun _ ↦ reads_pure _ _

/-- The label of a result is read, or left out where the signature ends. -/
theorem reads_resultLabel (h : Spans (.opt (.rule .label)) l l')
    (hnext : firstKind l' ∈ [Token.Kind.sign .semicolon, .sign .leftBrace]) :
    Reads resultLabel l l' := by
  rcases spans_opt.1 h with rfl | hlabel
  · rcases List.mem_cons.1 hnext with hended | hopened
    · refine reads_at?_pos hended (reads_at?_neg (hended ▸ by decide) ?_)
      exact reads_pure _ _
    · have hopened := List.mem_singleton.1 hopened
      refine reads_at?_neg (hopened ▸ by decide) (reads_at?_pos hopened ?_)
      exact reads_pure _ _
  · have hfirst := firstKind_label hlabel
    refine reads_at?_neg (ne_of_mem_of_not_mem hfirst (by decide)) ?_
    refine reads_at?_neg (ne_of_mem_of_not_mem hfirst (by decide)) ?_
    exact reads_lift (Ty.reads_label hlabel)

/-- A body is read, or the semicolon in its place. -/
theorem reads_bodyPart (h : Spans (.rule .block ||| .sign .semicolon) l l') :
    Reads bodyPart l l' := by
  rcases spans_alt.1 h with hblock | hsemicolon
  · have hfirst := List.mem_singleton.1 (hblock.firstKind_mem [.sign .leftBrace] 5 (by decide))
    refine reads_eat_neg (hfirst ▸ by decide) (reads_at?_pos hfirst ?_)
    exact (reads_block hblock).bind fun b ↦ reads_pure _ _
  · obtain ⟨t, rfl, ht, -⟩ := spans_kind.1 hsemicolon
    exact reads_eat_pos ht (((stays_at? _).reads l').bind fun opened ↦ reads_pure none l')

/-- **A function is read**, part by part. -/
theorem reads_function (m : Metadata) (h : Spans (.rule .function) l l') :
    Reads (function m) l l' := by
  obtain ⟨l₅, h, hbody⟩ := spans_seq.1 (spans_rule.1 h)
  obtain ⟨l₄, h, hlabel⟩ := spans_seq.1 h
  obtain ⟨l₃, h, hclose⟩ := spans_seq.1 h
  obtain ⟨l₂, h, hparams⟩ := spans_seq.1 h
  obtain ⟨l₁, h, hopen⟩ := spans_seq.1 h
  obtain ⟨l₀, hfunc, hname⟩ := spans_seq.1 h
  obtain ⟨t, rfl, ht, -⟩ := spans_kind.1 hfunc
  obtain ⟨name, rfl, hname, -⟩ := spans_kind.1 hname
  have hnext := hbody.firstKind_mem [.sign .semicolon, .sign .leftBrace] 6 (by decide)
  rw [function_eq]
  refine (reads_lift (Parse.reads_expect ht _)).bind fun start ↦ ?_
  refine (reads_lift (Parse.reads_expect hname l₁)).bind fun name ↦ ?_
  refine (reads_paramList ((hopen.append hparams).append hclose)).bind fun params ↦ ?_
  refine (reads_resultLabel hlabel hnext).bind fun result ↦ ?_
  exact (reads_bodyPart hbody).bind fun body? ↦ (stays_functionEnd _ _ _ _ _ _).reads l'

theorem reads_global (m : Metadata) (h : Spans (.rule .binding ++ .sign .semicolon) l l') :
    Reads (global m) l l' := by
  obtain ⟨m', hbinding, hsemicolon⟩ := spans_seq.1 h
  obtain ⟨u, rfl, hu, -⟩ := spans_kind.1 hsemicolon
  refine (reads_letVariable hbinding hu).bind fun v ↦ ?_
  exact (reads_lift (Parse.reads_expect hu l')).bind fun _ d hd ↦ ⟨_, rfl, hd⟩

/-- **A definition is read** with its tags. Whether it is a function or a variable is told by the
first word behind them. -/
theorem reads_definition (h : Spans (.rule .definition) l l') : Reads definition l l' := by
  obtain ⟨m, hmetadata, hcontent⟩ := spans_seq.1 (spans_rule.1 h)
  have hnext : firstKind m ∈ openers := hcontent.firstKind_mem _ 12 (by decide)
  refine (reads_metadata hmetadata hnext).bind fun (tags, unique) ↦ reads_peek fun t ht ↦ ?_
  rcases spans_alt.1 hcontent with hfunction | hglobal
  · have hkind : t.kind = .keyword .func :=
      ht.trans (List.mem_singleton.1 (hfunction.firstKind_mem [.keyword .func] 9 (by decide)))
    rw [hkind]
    exact (reads_function tags hfunction).bind fun x ↦ (stays_addDefinition x unique).reads l'
  · have hkind : t.kind = .keyword .let :=
      ht.trans (List.mem_singleton.1 (hglobal.firstKind_mem [.keyword .let] 9 (by decide)))
    rw [hkind]
    exact (reads_global tags hglobal).bind fun x ↦ (stays_addDefinition x unique).reads l'

/-- **A word is read as a file**, up to the end mark. -/
theorem reads_definitionsTo (h : Spans (.many (.rule .definition)) l l')
    (hnext : firstKind l' = .finish) (hn : l.length < n + l'.length) :
    Reads (definitionsTo n) l l' := by
  induction n generalizing l with
  | zero => exact absurd h.length_le (by omega)
  | succ n ih =>
    rcases spans_many.1 h with rfl | ⟨m, hfirst, hmore⟩
    · exact reads_at?_pos hnext (reads_pure _ _)
    · -- no definition begins with the end mark, so the loop goes on
      have hlt := hfirst.length_lt 12 (by decide)
      have hkind := hfirst.firstKind_mem (.sign .at :: openers) 14 (by decide)
      refine reads_at?_neg (ne_of_mem_of_not_mem hkind (by decide)) ?_
      exact (reads_definition hfirst).bind fun _ ↦ ih hmore (by omega)

end Build

end FrontEnd
