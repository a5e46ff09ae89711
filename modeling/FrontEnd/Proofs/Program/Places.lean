import FrontEnd.Proofs.Expr.Places
import FrontEnd.Proofs.Program.Layers
import FrontEnd.Proofs.Program.Tags

/-!
# Where definitions stand

What has been said of expressions is carried up to files. The span of a definition holds that of its
body, the span of a body those of its statements, in order and apart, and the span of a variable
that of its initial value; the names of everything that a definition introduces stand inside it, and
its tags stand in the same text (`Definition.Placed`). Every definition of a program stands so in
the text of the file that it names by number, and the definitions of one file stand in order
(`Program.Located`).

The file is known only by its number, and the number is that of a file which is not there yet: it
joins the program when it has been read. So what is carried along while a file is being read
(`Draft.Stands`) fixes the file and the number together. Whatever is reported on the way points into
the file at hand (`Diagnostic.PointsInto`), which is all that the report says of it.
-/

namespace FrontEnd

/-- The characters of a file. -/
def SourceFile.chars (source : SourceFile) : List Char :=
  source.text.toList

/-! ### Definitions in a text -/

/-- The parts of a tag stand where they are written. -/
structure Tag.Placed (text : List Char) (t : Tag) : Prop where
  name : t.nameSpan.Cuts text t.name.toList
  value : ∀ v, t.value? = some v →
    ∃ word, v.span.Cuts text word ∧ v.text = String.ofList (Literal.string word)

/-- A variable stands in a text, and its initial value in the variable. -/
structure Variable.Placed (text : List Char) (v : Variable) : Prop where
  cuts : ∃ word, v.span.Cuts text word
  init : ∀ e, v.init? = some e → e.Placed text ∧ e.span.Within v.span

namespace Stmt

/-- Where a statement stands; the semicolon is not counted in. -/
def span : Stmt → Span
  | letVar v => v.span
  | expr e => e.span

/-- A statement stands in a text. -/
def Placed (text : List Char) : Stmt → Prop
  | letVar v => v.Placed text
  | expr e => e.Placed text

theorem Placed.expr {text : List Char} {s : Stmt} (h : s.Placed text) {e : Expr}
    (he : s.expr? = some e) : e.Placed text ∧ e.span.Within s.span := by
  cases s with
  | letVar v => exact h.init e he
  | expr f =>
    obtain rfl := Option.some.inj he
    exact ⟨h, .refl _⟩

end Stmt

/-- A block stands in a text, and its statements stand in the block, in order and apart. -/
structure Block.Placed (text : List Char) (b : Block) : Prop where
  cuts : ∃ word, b.span.Cuts text word
  stmts : ∀ s ∈ b.stmts, s.Placed text ∧ s.span.Within b.span
  ordered : b.stmts.Pairwise fun s t ↦ s.span.Before t.span

/-- What a definition introduces stands in a text, inside a span. -/
def Definition.Content.Placed (text : List Char) (span : Span) : Definition.Content → Prop
  | .function _ _ _ body? => ∀ b, body? = some b → b.Placed text ∧ b.span.Within span
  | .global v => v.Placed text ∧ v.span.Within span

/-- A symbol is the one that a token **names**. -/
structure Symbol.Names (s : Symbol) (t : Token) : Prop where
  name_eq : s.name = t.word
  span_eq : s.span = t.span

/-- The symbol of a number is **named** in a file, and inside a span. -/
def Symbol.NamedIn (text : List Char) (file : Nat) (span : Span) (symbols : List Symbol) (i : Nat) :
    Prop :=
  ∃ s, symbols[i]? = some s ∧ s.file = file ∧ s.span.Within span ∧ s.span.Cuts text s.name.toList

/-- **A definition stands in a text**, with all that it is made of. -/
structure Definition.Placed (text : List Char) (symbols : List Symbol) (x : Definition) : Prop where
  cuts : ∃ word, x.span.Cuts text word
  content : x.content.Placed text x.span
  symbols : ∀ i ∈ x.owned, Symbol.NamedIn text x.file x.span symbols i
  tags : ∀ t ∈ x.metadata.tags, t.Placed text

theorem Symbol.NamedIn.mono {text : List Char} {file i : Nat} {span span' : Span}
    {σ τ : List Symbol} (h : NamedIn text file span σ i) (hσ : σ <+: τ)
    (hspan : span.Within span') : NamedIn text file span' τ i := by
  obtain ⟨s, hs, hfile, hwithin, hcuts⟩ := h
  refine ⟨s, ?_, hfile, hwithin.trans hspan, hcuts⟩
  obtain ⟨υ, rfl⟩ := hσ
  rw [List.getElem?_append_left (List.getElem?_eq_some_iff.1 hs).1, hs]

/-- A definition stays where it stands when more is read behind it. -/
theorem Definition.Placed.mono {text : List Char} {σ τ : List Symbol} {x : Definition}
    (h : x.Placed text σ) (hσ : σ <+: τ) : x.Placed text τ :=
  ⟨h.cuts, h.content, fun i hi ↦ (h.symbols i hi).mono hσ (.refl _), h.tags⟩

/-- The stretch of a text between the last tokens of two places. -/
def Cursor.upTo (c c' : Cursor) : Span :=
  ⟨c.lastStop, c'.lastStop⟩

theorem Cursor.upTo_within {c₁ c₂ c₃ c₄ : Cursor} (h : c₁.lastStop ≤ c₂.lastStop)
    (h' : c₃.lastStop ≤ c₄.lastStop) : (c₂.upTo c₃).Within (c₁.upTo c₄) :=
  ⟨h, h'⟩

/-! ### Tags -/

section Tags

open Parse

variable {text : List Char} {c : Cursor}

/-- A tag stands where it has been read, and so does its value. -/
theorem Build.locates_tag (hc : c.Placed text) :
    Locates text tag c fun t _ ↦ t.Placed text := by
  refine (locates_expect hc).bind ?_
  rintro _ _ hc₁ - ⟨rfl, rfl, -⟩
  have hname : c.current.span.Cuts text c.current.word.toList := by
    rw [Token.word, String.toList_ofList]
    exact hc.cuts_current
  refine locates_ifEat hc₁ (fun _ ↦ ?_) fun _ ↦ locates_pure hc₁ ⟨hname, fun v hv ↦ by cases hv⟩
  refine (locates_expect hc₁.next).bind ?_
  rintro _ _ hc₂ - ⟨rfl, rfl, -⟩
  refine (locates_expect hc₂).bind fun _ _ hc₃ _ _ ↦ locates_pure hc₃ ⟨hname, fun v hv ↦ ?_⟩
  obtain rfl := Option.some.inj hv
  exact ⟨_, hc₁.next.cuts_current, rfl⟩

namespace Tag

/-- Tags have been read in a text, and the place behind them lies in it or the error does. -/
structure ReadIn (text : List Char) (c : Cursor) (read : List Tag × Except ParseError Cursor) :
    Prop where
  tags : ∀ t ∈ read.1, t.Placed text
  behind : ∀ c', read.2 = .ok c' → c'.Placed text ∧ c.lastStop ≤ c'.lastStop
  error : ∀ e, read.2 = .error e → ∃ word, e.span.Cuts text word

theorem readIn_error {e : ParseError} (h : ∃ word, e.span.Cuts text word) :
    ReadIn text c ([], .error e) where
  tags t ht := absurd ht List.not_mem_nil
  behind c' hc' := by cases hc'
  error e' he' := Except.error.inj he' ▸ h

theorem readIn_ok {c' : Cursor} {ts : List Tag} (hts : ∀ t ∈ ts, t.Placed text)
    (hc' : c'.Placed text) (hle : c.lastStop ≤ c'.lastStop) : ReadIn text c (ts, .ok c') where
  tags := hts
  behind c'' h := Except.ok.inj h ▸ ⟨hc', hle⟩
  error e he := by cases he

/-- Tags in brackets stand one behind another, also those in front of an error. -/
theorem readIn_readTo (n : Nat) (hc : c.Placed text) : ReadIn text c (readTo n c) := by
  induction n generalizing c with
  | zero => exact readIn_error ⟨_, hc.cuts_current⟩
  | succ n ih =>
    have htag := Build.locates_tag hc
    rw [Locates] at htag
    rw [readTo]
    rcases hread : Build.tag c with e | ⟨t, c₁⟩
    · rw [hread] at htag
      exact readIn_error htag
    · rw [hread] at htag
      obtain ⟨hc₁, hle₁, ht⟩ := htag
      dsimp only
      split
      · obtain ⟨htags, hbehind, herror⟩ := ih hc₁.next
        refine ⟨List.forall_mem_cons.2 ⟨ht, htags⟩, fun c' h ↦ ?_, herror⟩
        obtain ⟨hc', hle'⟩ := hbehind c' h
        exact ⟨hc', Nat.le_trans hle₁ (Nat.le_trans hc₁.le_next hle')⟩
      · have hclose := locates_expect (k := .sign .rightBracket) hc₁
        rw [Locates] at hclose
        rcases hread : expect (.sign .rightBracket) c₁ with e | ⟨u, c₂⟩
        · rw [hread] at hclose
          exact ⟨List.forall_mem_singleton.2 ht, fun c' h ↦ (by cases h),
            fun e' he' ↦ Except.error.inj he' ▸ hclose⟩
        · rw [hread] at hclose
          exact readIn_ok (List.forall_mem_singleton.2 ht) hclose.1 (Nat.le_trans hle₁ hclose.2.1)

/-- **Tags that are written stand where they are written.** -/
theorem readIn_read (hc : c.Placed text) : ReadIn text c (read c) := by
  rw [read]
  split
  · split
    · obtain ⟨htags, hbehind, herror⟩ := readIn_readTo c.next.next.rest.length hc.next.next
      refine ⟨htags, fun c' h ↦ ?_, herror⟩
      obtain ⟨hc', hle'⟩ := hbehind c' h
      exact ⟨hc', Nat.le_trans (Nat.le_trans hc.le_next hc.next.le_next) hle'⟩
    · have htag := Build.locates_tag hc.next
      rw [Locates] at htag
      rcases hread : Build.tag c.next with e | ⟨t, c₁⟩
      · rw [hread] at htag
        exact readIn_error htag
      · rw [hread] at htag
        obtain ⟨hc₁, hle₁, ht⟩ := htag
        exact readIn_ok (List.forall_mem_singleton.2 ht) hc₁ (Nat.le_trans hc.le_next hle₁)
  · exact readIn_ok (fun t ht ↦ absurd ht List.not_mem_nil) hc (Nat.le_refl _)

end Tag

end Tags

/-! ### Drafts -/

namespace Draft

/-- **A draft stands in a file** that is being read under a number. -/
structure Stands (source : SourceFile) (file : Nat) (d : Draft) : Prop where
  source_eq : d.source = source
  file_eq : d.file = file
  placed : d.cursor.Placed source.chars

/-- **Something has been read** between two drafts: the later one stands in the same file, no less
far on, and in between nothing was reported and no file was added. -/
structure Reaches (source : SourceFile) (file : Nat) (d d' : Draft) : Prop
    extends Stands source file d' where
  le : d.cursor.lastStop ≤ d'.cursor.lastStop
  symbols : d.program.symbols <+: d'.program.symbols
  files_eq : d'.program.files = d.program.files
  name_eq : d'.program.name = d.program.name
  diagnostics_eq : d'.diagnostics = d.diagnostics

namespace Reaches

variable {source : SourceFile} {file : Nat} {d d' d'' : Draft}

theorem refl (hd : d.Stands source file) : Reaches source file d d :=
  ⟨hd, Nat.le_refl _, List.prefix_refl _, rfl, rfl, rfl⟩

theorem trans (h : Reaches source file d d') (h' : Reaches source file d' d'') :
    Reaches source file d d'' :=
  ⟨h'.toStands, Nat.le_trans h.le h'.le, h.symbols.trans h'.symbols, h'.files_eq.trans h.files_eq,
    h'.name_eq.trans h.name_eq, h'.diagnostics_eq.trans h.diagnostics_eq⟩

theorem cursor (hd : d.Stands source file) {c : Cursor} (hc : c.Placed source.chars)
    (hle : d.cursor.lastStop ≤ c.lastStop) : Reaches source file d { d with cursor := c } :=
  ⟨⟨hd.source_eq, hd.file_eq, hc⟩, hle, List.prefix_refl _, rfl, rfl, rfl⟩

end Reaches

end Draft

namespace Build

variable {source : SourceFile} {file : Nat} {α β : Type} {d : Draft} {p : Build α}
  {Q : α → Draft → Prop}

/-- **A parser stays in a file**, whether or not it reads what it is to read. If it does, that and
the draft behind it have a property; if not, the error lies in the file. -/
def StaysIn (source : SourceFile) (file : Nat) (p : Build α) (d : Draft) (Q : α → Draft → Prop) :
    Prop :=
  d.Reaches source file (p d).2 ∧
    match (p d).1 with
    | .ok a => Q a (p d).2
    | .error e => ∃ word, e.span.Cuts source.chars word

theorem StaysIn.mono {P : α → Draft → Prop} (h : StaysIn source file p d P)
    (hPQ : ∀ a d', d.Reaches source file d' → P a d' → Q a d') : StaysIn source file p d Q := by
  obtain ⟨hreaches, hresult⟩ := h
  refine ⟨hreaches, ?_⟩
  generalize p d = r at hreaches hresult ⊢
  rcases r with ⟨e | a, d'⟩
  · exact hresult
  · exact hPQ a d' hreaches hresult

/-- **One parser behind another**: the second is asked about where the first has stopped. -/
theorem StaysIn.bind {f : α → Build β} {R : β → Draft → Prop}
    (h : StaysIn source file p d fun a d' ↦ StaysIn source file (f a) d' R) :
    StaysIn source file (p >>= f) d R := by
  rw [StaysIn, bind_apply]
  obtain ⟨hreaches, hresult⟩ := h
  generalize p d = r at hreaches hresult ⊢
  rcases r with ⟨e | a, d'⟩
  · exact ⟨hreaches, hresult⟩
  · exact ⟨hreaches.trans hresult.1, hresult.2⟩

theorem staysIn_pure {a : α} (hd : d.Stands source file) (h : Q a d) :
    StaysIn source file (pure a) d Q :=
  ⟨.refl hd, h⟩

theorem staysIn_stop (hd : d.Stands source file) : StaysIn source file (stop : Build α) d Q :=
  ⟨.refl hd, _, hd.placed.cuts_current⟩

theorem staysIn_ite {c : Prop} [Decidable c] {q : Build α} (hp : c → StaysIn source file p d Q)
    (hq : ¬ c → StaysIn source file q d Q) : StaysIn source file (if c then p else q) d Q := by
  split
  · exact hp ‹c›
  · exact hq ‹¬ c›

/-- A parser that does not look at the program adds nothing to it, and where it stops is a place of
the file. -/
theorem staysIn_lift {p : Parse α} {P : α → Cursor → Prop} (hd : d.Stands source file)
    (hp : Parse.Locates source.chars p d.cursor P)
    (h : ∀ a c, d.Reaches source file { d with cursor := c } → P a c →
      Q a { d with cursor := c }) : StaysIn source file (liftM p) d Q := by
  rw [Parse.Locates] at hp
  rw [StaysIn, lift_apply]
  rcases hpc : p d.cursor with e | ⟨a, c⟩
  · rw [hpc] at hp
    exact ⟨.refl hd, hp⟩
  · rw [hpc] at hp
    obtain ⟨hc, hle, ha⟩ := hp
    exact ⟨.cursor hd hc hle, h a c (.cursor hd hc hle) ha⟩

/-- A new symbol is named where its name stands. -/
theorem staysIn_newSymbol (name : Token) (kind : SymbolKind) (type? : Option Ty) (isMutable : Bool)
    (hd : d.Stands source file) :
    StaysIn source file (newSymbol name kind type? isMutable) d fun i d' ↦ d'.cursor = d.cursor ∧
      ∃ s, d'.program.symbols[i]? = some s ∧ s.file = file ∧ s.span = name.span ∧
        s.name = name.word :=
  ⟨⟨⟨hd.source_eq, hd.file_eq, hd.placed⟩, Nat.le_refl _, List.prefix_append _ _, rfl, rfl, rfl⟩,
    rfl, _, List.getElem?_concat_length, hd.file_eq, rfl, rfl⟩

/-! ### Variables and statements -/

open Parse

/-- A variable that was read between two drafts. -/
structure VariableRead (source : SourceFile) (file : Nat) (d : Draft) (v : Variable) (d' : Draft) :
    Prop where
  placed : v.Placed source.chars
  within : v.span.Within (d.cursor.upTo d'.cursor)
  named : Symbol.NamedIn source.chars file v.span d'.program.symbols v.symbol
  name_eq : ∃ s, d'.program.symbols[v.symbol]? = some s ∧ s.Names d.cursor.next.current
  unresolved : ∀ e, v.init? = some e → e.Unresolved

theorem locates_init {text : List Char} {c : Cursor} (type? : Option Ty) (hc : c.Placed text) :
    Locates text (do
      if type?.isSome && !(← at? (.sign .equal)) then return none
      else
        let _ ← expect (.sign .equal)
        return some (← Expr.parse)) c
      fun e? c' ↦ ∀ e, e? = some e → Expr.Between text c.lastStop c'.lastStop [e] := by
  have hparse : Locates text (do
      let _ ← expect (.sign .equal)
      return some (← Expr.parse)) c
      fun e? c' ↦ ∀ e, e? = some e → Expr.Between text c.lastStop c'.lastStop [e] := by
    refine (locates_expect hc).bind fun _ c₁ hc₁ hle₁ _ ↦ ?_
    refine (Expr.locates_parse hc₁).bind fun e c₂ hc₂ hle₂ he ↦ locates_pure hc₂ fun e' he' ↦ ?_
    exact Option.some.inj he' ▸ he.widen hle₁ (Nat.le_refl _)
  refine (locates_at? hc).bind ?_
  rintro _ _ - - ⟨rfl, rfl⟩
  split
  · exact locates_pure hc fun e he ↦ by cases he
  · exact hparse

/-- **A variable that has been read stands between two places**, with its name and its initial
value. -/
theorem staysIn_letVariable (hd : d.Stands source file) :
    StaysIn source file letVariable d (VariableRead source file d) := by
  refine .bind (staysIn_lift hd (locates_expect hd.placed) ?_)
  rintro _ _ hd₁ ⟨rfl, rfl, -⟩
  refine .bind (staysIn_lift hd₁.toStands (locates_expect hd₁.placed) ?_)
  rintro _ _ hd₂ ⟨rfl, rfl, -⟩
  refine .bind (staysIn_lift (P := fun _ _ ↦ True) hd₂.toStands ?_ fun type? c₃ hd₃ _ ↦ ?_)
  · refine locates_ifEat hd₂.placed (fun _ ↦ ?_) fun _ ↦ locates_pure hd₂.placed trivial
    exact (Ty.locates_label hd₂.placed.next).bind fun _ _ hc _ _ ↦ locates_pure hc trivial
  refine .bind (staysIn_lift hd₃.toStands (locates_init type? hd₃.placed)
    fun init? c₄ hd₄ hinit ↦ ?_)
  refine .bind ((staysIn_newSymbol _ _ _ _ hd₄.toStands).mono ?_)
  rintro i d₅ hd₅ ⟨hcursor, s, hs, hfile, hspan, hname⟩
  refine .bind (staysIn_lift hd₅.toStands (locates_spanFrom hd₅.placed) ?_)
  rintro _ _ hd₆ ⟨rfl, rfl⟩
  refine staysIn_pure hd₅.toStands ?_
  have hcuts := hd.placed.cuts_current
  have hstop : d.cursor.current.span.stop ≤ d₅.cursor.lastStop :=
    (hd₂.trans (hd₃.trans (hd₄.trans hd₅))).le
  have hstop' : d.cursor.next.current.span.stop ≤ d₅.cursor.lastStop :=
    (hd₃.trans (hd₄.trans hd₅)).le
  have hstart : d.cursor.current.span.start ≤ d.cursor.next.current.span.start :=
    Nat.le_trans hcuts.le hd₁.placed.le_start
  refine ⟨⟨hd₅.placed.cuts_spanFrom hcuts hstop, fun e he ↦ ?_⟩, ?_, ?_, ⟨s, hs, hname, hspan⟩, ?_⟩
  · have hbetween := hinit e he
    refine ⟨hbetween.placed e List.mem_cons_self, ?_⟩
    rw [Cursor.spanFrom_eq hstop]
    refine ⟨?_, Nat.le_trans (hbetween.stop_le e List.mem_cons_self) hd₅.le⟩
    exact Nat.le_trans hcuts.le
      (Nat.le_trans (hd₂.trans hd₃).le (hbetween.le_start e List.mem_cons_self))
  · rw [Cursor.spanFrom_eq hstop]
    exact ⟨hd.placed.le_start, Nat.le_refl _⟩
  · rw [Cursor.spanFrom_eq hstop]
    refine ⟨s, hs, hfile, hspan ▸ ⟨hstart, hstop'⟩, ?_⟩
    rw [hspan, hname, Token.word, String.toList_ofList]
    exact hd₁.placed.cuts_current
  · exact fun e he ↦ (hinit e he).unresolved e List.mem_cons_self

/-- A statement that was read in a span, while symbols were added. -/
structure StmtRead (source : SourceFile) (file : Nat) (symbols : List Symbol) (span : Span)
    (s : Stmt) : Prop where
  placed : s.Placed source.chars
  within : s.span.Within span
  named : ∀ v, s.declared? = some v → Symbol.NamedIn source.chars file s.span symbols v.symbol
  unresolved : ∀ e, s.expr? = some e → e.Unresolved

theorem StmtRead.mono {σ τ : List Symbol} {span span' : Span} {s : Stmt}
    (h : StmtRead source file σ span s) (hσ : σ <+: τ) (hspan : span.Within span') :
    StmtRead source file τ span' s :=
  ⟨h.placed, h.within.trans hspan, fun v hv ↦ (h.named v hv).mono hσ (.refl _), h.unresolved⟩

/-- A statement ends behind its semicolon, and what it is made of stands in it. -/
theorem staysIn_stmt (hd : d.Stands source file) : StaysIn source file stmt d fun s d' ↦
    StmtRead source file d'.program.symbols (d.cursor.upTo d'.cursor) s := by
  refine .bind (staysIn_lift hd (locates_at? hd.placed) ?_)
  rintro _ _ hd₁ ⟨rfl, rfl⟩
  refine staysIn_ite (fun _ ↦ ?_) fun _ ↦ ?_
  · refine .bind ((staysIn_letVariable hd₁.toStands).mono fun v d₂ hd₂ hv ↦ ?_)
    refine .bind (staysIn_lift hd₂.toStands (locates_expect hd₂.placed) fun _ c hd₃ _ ↦ ?_)
    refine staysIn_pure hd₃.toStands ⟨hv.placed, ?_, ?_, hv.unresolved⟩
    · exact hv.within.trans (Cursor.upTo_within (Nat.le_refl _) hd₃.le)
    · rintro v' ⟨⟩
      exact hv.named
  · refine .bind (staysIn_lift hd₁.toStands (Expr.locates_parse hd₁.placed) fun e c hd₂ he ↦ ?_)
    refine .bind (staysIn_lift hd₂.toStands (locates_expect hd₂.placed) fun _ c hd₃ _ ↦ ?_)
    refine staysIn_pure hd₃.toStands ⟨he.placed e List.mem_cons_self, ?_, ?_, ?_⟩
    · exact ⟨he.le_start e List.mem_cons_self,
        Nat.le_trans (he.stop_le e List.mem_cons_self) hd₃.le⟩
    · rintro v ⟨⟩
    · rintro e' ⟨⟩
      exact he.unresolved e List.mem_cons_self

/-- Statements stand one behind another, each between the places before and behind it. -/
theorem staysIn_stmtsTo (n : Nat) (hd : d.Stands source file) :
    StaysIn source file (stmtsTo n) d fun ss d' ↦
      (∀ s ∈ ss, StmtRead source file d'.program.symbols (d.cursor.upTo d'.cursor) s) ∧
        ss.Pairwise fun s t ↦ s.span.Before t.span := by
  induction n generalizing d with
  | zero => exact staysIn_stop hd
  | succ n ih =>
    refine .bind (staysIn_lift hd (locates_eat hd.placed) ?_)
    rintro _ _ hd₁ (⟨rfl, -, rfl⟩ | ⟨rfl, -, rfl⟩)
    · exact staysIn_pure hd₁.toStands ⟨fun s hs ↦ absurd hs List.not_mem_nil, .nil⟩
    · refine .bind ((staysIn_stmt hd₁.toStands).mono fun s d₂ hd₂ hs ↦ ?_)
      refine .bind ((ih hd₂.toStands).mono fun more d₃ hd₃ ⟨hmore, hordered⟩ ↦ ?_)
      refine staysIn_pure hd₃.toStands ⟨List.forall_mem_cons.2 ⟨?_, fun t ht ↦ ?_⟩,
        List.pairwise_cons.2 ⟨fun t ht ↦ ?_, hordered⟩⟩
      · exact hs.mono hd₃.symbols (Cursor.upTo_within (Nat.le_refl _) hd₃.le)
      · exact (hmore t ht).mono (List.prefix_refl _) (Cursor.upTo_within hd₂.le (Nat.le_refl _))
      · exact Nat.le_trans hs.within.2 (hmore t ht).within.1

theorem locates_tokensLeft {text : List Char} {c : Cursor} (hc : c.Placed text) :
    Locates text tokensLeft c fun _ c' ↦ c' = c :=
  ⟨hc, Nat.le_refl _, rfl⟩

/-- A block stands from one brace to the other, and its statements stand in between. -/
theorem staysIn_block (hd : d.Stands source file) : StaysIn source file block d fun b d' ↦
    b.Placed source.chars ∧ b.span.Within (d.cursor.upTo d'.cursor) ∧
      ∀ s ∈ b.stmts, StmtRead source file d'.program.symbols b.span s := by
  refine .bind (staysIn_lift hd (locates_expect hd.placed) ?_)
  rintro _ _ hd₁ ⟨rfl, rfl, -⟩
  refine .bind (staysIn_lift hd₁.toStands (locates_tokensLeft hd₁.placed) ?_)
  rintro n _ - rfl
  refine .bind ((staysIn_stmtsTo n hd₁.toStands).mono fun ss d₃ hd₃ ⟨hss, hordered⟩ ↦ ?_)
  refine .bind (staysIn_lift hd₃.toStands (locates_spanFrom hd₃.placed) ?_)
  rintro _ _ hd₄ ⟨rfl, rfl⟩
  refine staysIn_pure hd₃.toStands ?_
  have hcuts := hd.placed.cuts_current
  have hspan := Cursor.spanFrom_eq hd₃.le
  have hread : ∀ s ∈ ss, StmtRead source file d₃.program.symbols
      (d₃.cursor.spanFrom d.cursor.current.span) s := by
    intro s hs
    refine (hss s hs).mono (List.prefix_refl _) ?_
    rw [hspan]
    exact ⟨hcuts.le, Nat.le_refl _⟩
  refine ⟨⟨hd₃.placed.cuts_spanFrom hcuts hd₃.le, fun s hs ↦ ?_, hordered⟩, ?_, hread⟩
  · exact ⟨(hread s hs).placed, (hread s hs).within⟩
  · rw [hspan]
    exact ⟨hd.placed.le_start, Nat.le_refl _⟩

/-! ### Functions -/

/-- Names that were read in a span. -/
def NamesRead (text : List Char) (span : Span) (names : List Token) : Prop :=
  ∀ t ∈ names, t.span.Cuts text t.text ∧ t.span.Within span

theorem locates_namesTo {text : List Char} (n : Nat) {c : Cursor} (hc : c.Placed text) :
    Locates text (namesTo n) c fun names c' ↦ NamesRead text (c.upTo c') names := by
  induction n generalizing c with
  | zero => exact locates_failHere hc
  | succ n ih =>
    refine (locates_expect hc).bind ?_
    rintro _ _ hc₁ hle₁ ⟨rfl, rfl, -⟩
    have hname : ∀ {c' : Cursor}, c.next.lastStop ≤ c'.lastStop →
        c.current.span.Cuts text c.current.text ∧ c.current.span.Within (c.upTo c') :=
      fun hle ↦ ⟨hc.cuts_current, hc.le_start, hle⟩
    refine locates_ifEat hc₁ (fun _ ↦ ?_) fun _ ↦ locates_pure hc₁ ?_
    · refine (ih hc₁.next).bind fun names c₂ hc₂ hle₂ hnames ↦ locates_pure hc₂ ?_
      refine List.forall_mem_cons.2 ⟨hname (Nat.le_trans hc₁.le_next hle₂), fun t ht ↦ ?_⟩
      obtain ⟨hcuts, hwithin⟩ := hnames t ht
      exact ⟨hcuts, hwithin.trans (Cursor.upTo_within (Nat.le_trans hle₁ hc₁.le_next)
        (Nat.le_refl _))⟩
    · exact List.forall_mem_singleton.2 (hname (Nat.le_refl _))

/-- Parameters whose names were read in a span. -/
def ParamsRead (source : SourceFile) (file : Nat) (symbols : List Symbol) (span : Span)
    (params : List (Nat × Ty)) : Prop :=
  ∀ x ∈ params, Symbol.NamedIn source.chars file span symbols x.1

theorem ParamsRead.mono {σ τ : List Symbol} {span span' : Span} {params : List (Nat × Ty)}
    (h : ParamsRead source file σ span params) (hσ : σ <+: τ) (hspan : span.Within span') :
    ParamsRead source file τ span' params :=
  fun x hx ↦ (h x hx).mono hσ hspan

/-- The symbols of parameters are called by the names of their group, and stand where these do. -/
theorem staysIn_newParams (a : Ty) {names : List Token} {span : Span} (hd : d.Stands source file)
    (hnames : NamesRead source.chars span names) :
    StaysIn source file (newParams a names) d fun params d' ↦ d'.cursor = d.cursor ∧
      ParamsRead source file d'.program.symbols span params := by
  induction names generalizing d with
  | nil => exact staysIn_pure hd ⟨rfl, fun x hx ↦ absurd hx List.not_mem_nil⟩
  | cons name names ih =>
    obtain ⟨⟨hcuts, hwithin⟩, hmore⟩ := List.forall_mem_cons.1 hnames
    refine .bind ((staysIn_newSymbol _ _ _ _ hd).mono ?_)
    rintro i d₁ hd₁ ⟨hcursor, s, hs, hfile, hspan, hname⟩
    refine .bind ((ih hd₁.toStands hmore).mono fun params d₂ hd₂ ⟨hcursor', hparams⟩ ↦ ?_)
    refine staysIn_pure hd₂.toStands ⟨hcursor'.trans hcursor, List.forall_mem_cons.2 ⟨?_, hparams⟩⟩
    refine Symbol.NamedIn.mono ⟨s, hs, hfile, hspan ▸ hwithin, ?_⟩ hd₂.symbols (.refl _)
    rw [hspan, hname, Token.word, String.toList_ofList]
    exact hcuts

theorem staysIn_paramsTo (n : Nat) (hd : d.Stands source file) :
    StaysIn source file (paramsTo n) d fun params d' ↦
      ParamsRead source file d'.program.symbols (d.cursor.upTo d'.cursor) params := by
  induction n generalizing d with
  | zero => exact staysIn_stop hd
  | succ n ih =>
    refine .bind (staysIn_lift hd (locates_tokensLeft hd.placed) ?_)
    rintro count _ - rfl
    refine .bind (staysIn_lift hd (locates_namesTo count hd.placed) fun names c₁ hd₁ hnames ↦ ?_)
    refine .bind (staysIn_lift hd₁.toStands (locates_expect hd₁.placed) fun _ c₂ hd₂ _ ↦ ?_)
    refine .bind (staysIn_lift hd₂.toStands (Ty.locates_label hd₂.placed) fun a c₃ hd₃ _ ↦ ?_)
    refine .bind ((staysIn_newParams a hd₃.toStands hnames).mono ?_)
    rintro params d₄ hd₄ ⟨-, hparams⟩
    have hle := (hd₂.trans (hd₃.trans hd₄)).le
    refine .bind (staysIn_lift hd₄.toStands (locates_eat hd₄.placed) ?_)
    rintro more c₅ hd₅ -
    refine staysIn_ite (fun _ ↦ ?_) fun _ ↦ staysIn_pure hd₅.toStands ?_
    · refine .bind ((ih hd₅.toStands).mono fun params' d₆ hd₆ hparams' ↦ ?_)
      refine staysIn_pure hd₆.toStands (List.forall_mem_append.2 ⟨?_, ?_⟩)
      · exact hparams.mono (hd₅.trans hd₆).symbols (Cursor.upTo_within (Nat.le_refl _)
          (Nat.le_trans hle (hd₅.trans hd₆).le))
      · exact hparams'.mono (List.prefix_refl _) (Cursor.upTo_within
          (Nat.le_trans hd₁.le (Nat.le_trans hle hd₅.le)) (Nat.le_refl _))
    · exact hparams.mono hd₅.symbols (Cursor.upTo_within (Nat.le_refl _) (Nat.le_trans hle hd₅.le))

theorem staysIn_paramList (hd : d.Stands source file) : StaysIn source file paramList d
    fun params d' ↦
      ParamsRead source file d'.program.symbols (d.cursor.upTo d'.cursor) params := by
  refine .bind (staysIn_lift hd (locates_expect hd.placed) fun _ c₁ hd₁ _ ↦ ?_)
  refine .bind (StaysIn.mono (P := fun params d' ↦
    ParamsRead source file d'.program.symbols (d.cursor.upTo d'.cursor) params) ?_
    fun params d₂ hd₂ hparams ↦ ?_)
  · refine .bind (staysIn_lift hd₁.toStands (locates_at? hd₁.placed) ?_)
    rintro _ _ - ⟨rfl, rfl⟩
    refine staysIn_ite (fun _ ↦ ?_) fun _ ↦ ?_
    · exact staysIn_pure hd₁.toStands fun x hx ↦ absurd hx List.not_mem_nil
    · refine .bind (staysIn_lift hd₁.toStands (locates_tokensLeft hd₁.placed) ?_)
      rintro n _ - rfl
      refine (staysIn_paramsTo n hd₁.toStands).mono fun params d₂ _ hparams ↦ ?_
      exact hparams.mono (List.prefix_refl _) (Cursor.upTo_within hd₁.le (Nat.le_refl _))
  · refine .bind (staysIn_lift hd₂.toStands (locates_expect hd₂.placed) fun _ c₃ hd₃ _ ↦ ?_)
    exact staysIn_pure hd₃.toStands
      (hparams.mono (List.prefix_refl _) (Cursor.upTo_within (Nat.le_refl _) hd₃.le))

theorem staysIn_resultLabel (hd : d.Stands source file) :
    StaysIn source file resultLabel d fun _ _ ↦ True := by
  refine .bind (staysIn_lift hd (locates_at? hd.placed) ?_)
  rintro _ _ - ⟨rfl, rfl⟩
  refine .bind (staysIn_lift hd (locates_at? hd.placed) ?_)
  rintro _ _ - ⟨rfl, rfl⟩
  refine staysIn_ite (fun _ ↦ staysIn_pure hd trivial) fun _ ↦ ?_
  exact staysIn_lift hd (Ty.locates_label hd.placed) fun _ _ _ _ ↦ trivial

theorem staysIn_bodyPart (hd : d.Stands source file) :
    StaysIn source file bodyPart d fun body? d' ↦ ∀ b, body? = some b → b.Placed source.chars ∧
      b.span.Within (d.cursor.upTo d'.cursor) ∧
        ∀ s ∈ b.stmts, StmtRead source file d'.program.symbols b.span s := by
  refine .bind (staysIn_lift hd (locates_eat hd.placed) fun ended c₁ hd₁ _ ↦ ?_)
  refine .bind (staysIn_lift hd₁.toStands (locates_at? hd₁.placed) ?_)
  rintro _ _ - ⟨rfl, rfl⟩
  refine staysIn_ite (fun _ ↦ ?_) fun _ ↦ staysIn_ite (fun _ ↦ ?_) fun _ ↦ staysIn_stop hd₁.toStands
  · exact staysIn_pure hd₁.toStands fun b hb ↦ by cases hb
  · refine .bind ((staysIn_block hd₁.toStands).mono fun b d₂ hd₂ ⟨hplaced, hwithin, hstmts⟩ ↦ ?_)
    refine staysIn_pure hd₂.toStands ?_
    rintro b' ⟨⟩
    exact ⟨hplaced, hwithin.trans (Cursor.upTo_within hd₁.le (Nat.le_refl _)), hstmts⟩

/-- **A definition that was read between two drafts**, behind its tags. -/
structure DefinitionRead (source : SourceFile) (file : Nat) (m : Metadata) (d : Draft)
    (x : Definition) (d' : Draft) : Prop where
  file_eq : x.file = file
  metadata_eq : x.metadata = m
  cuts : ∃ word, x.span.Cuts source.chars word
  within : x.span.Within (d.cursor.upTo d'.cursor)
  content : x.content.Placed source.chars x.span
  named : ∀ i ∈ x.owned, Symbol.NamedIn source.chars file x.span d'.program.symbols i
  name_eq : ∃ s, d'.program.symbols[x.symbol]? = some s ∧ s.Names d.cursor.next.current
  unresolved : ∀ e ∈ x.exprs, e.Unresolved

theorem mem_stmts_function {x : Definition} {symbol : Nat} {params : List Nat} {result : Ty}
    {body? : Option Block} (hx : x.content = .function symbol params result body?) {s : Stmt}
    (hs : s ∈ x.stmts) : ∃ b, body? = some b ∧ s ∈ b.stmts := by
  rw [Definition.stmts, hx] at hs
  cases body? with
  | none => exact absurd hs List.not_mem_nil
  | some b => exact ⟨b, rfl, hs⟩

/-- **A function that has been read stands between two places**, with all that it is made of. -/
theorem staysIn_function (m : Metadata) (hd : d.Stands source file) :
    StaysIn source file (function m) d (DefinitionRead source file m d) := by
  rw [function_eq]
  refine .bind (staysIn_lift hd (locates_expect hd.placed) ?_)
  rintro _ _ hd₁ ⟨rfl, rfl, -⟩
  refine .bind (staysIn_lift hd₁.toStands (locates_expect hd₁.placed) ?_)
  rintro _ _ hd₂ ⟨rfl, rfl, -⟩
  refine .bind ((staysIn_paramList hd₂.toStands).mono fun params d₃ hd₃ hparams ↦ ?_)
  refine .bind ((staysIn_resultLabel hd₃.toStands).mono fun result d₄ hd₄ _ ↦ ?_)
  refine .bind ((staysIn_bodyPart hd₄.toStands).mono fun body? d₅ hd₅ hbody ↦ ?_)
  refine .bind ((staysIn_newSymbol _ _ _ _ hd₅.toStands).mono ?_)
  rintro i d₆ hd₆ ⟨hcursor, s, hs, hfile, hspan, hname⟩
  refine .bind (staysIn_lift hd₆.toStands (locates_spanFrom hd₆.placed) ?_)
  rintro _ _ - ⟨rfl, rfl⟩
  refine ⟨.refl hd₆.toStands, ?_⟩
  have hcuts := hd.placed.cuts_current
  have hbehind := hd₃.trans (hd₄.trans (hd₅.trans hd₆))
  have hstop : d.cursor.current.span.stop ≤ d₆.cursor.lastStop := (hd₂.trans hbehind).le
  -- all that has been read behind the first word
  have hrest : ∀ {c c' : Cursor}, d.cursor.next.lastStop ≤ c.lastStop →
      c'.lastStop ≤ d₆.cursor.lastStop →
        (c.upTo c').Within (d₆.cursor.spanFrom d.cursor.current.span) := by
    intro c c' hc hc'
    rw [Cursor.spanFrom_eq hstop]
    exact ⟨Nat.le_trans hcuts.le hc, hc'⟩
  have hbody' : ∀ b, body? = some b → b.span.Within (d₆.cursor.spanFrom d.cursor.current.span) :=
    fun b hb ↦ (hbody b hb).2.1.trans (hrest (hd₂.trans (hd₃.trans hd₄)).le hd₆.le)
  refine ⟨hd₆.file_eq, rfl, hd₆.placed.cuts_spanFrom hcuts hstop, ?_, ?_, ?_, ?_, ?_⟩
  · rw [Cursor.spanFrom_eq hstop]
    exact ⟨hd.placed.le_start, Nat.le_refl _⟩
  · exact fun b hb ↦ ⟨(hbody b hb).1, hbody' b hb⟩
  · refine Definition.forall_mem_owned.2 ⟨?_, fun j hj ↦ ?_, fun j hj ↦ ?_⟩
    · refine ⟨s, hs, hfile, ?_, ?_⟩
      · rw [hspan, Cursor.spanFrom_eq hstop]
        exact ⟨Nat.le_trans hcuts.le hd₁.placed.le_start, hbehind.le⟩
      · rw [hspan, hname, Token.word, String.toList_ofList]
        exact hd₁.placed.cuts_current
    · obtain ⟨x, hx, rfl⟩ := List.mem_map.1 hj
      exact (hparams x hx).mono (hd₄.trans (hd₅.trans hd₆)).symbols
        (hrest hd₂.le (hd₄.trans (hd₅.trans hd₆)).le)
    · rw [Definition.locals_eq] at hj
      obtain ⟨t, ht, hj⟩ := List.mem_filterMap.1 hj
      obtain ⟨v, hv, rfl⟩ := Option.map_eq_some_iff.1 hj
      obtain ⟨b, hb, ht⟩ := mem_stmts_function rfl ht
      have hread := (hbody b hb).2.2 t ht
      exact (hread.named v hv).mono hd₆.symbols (hread.within.trans (hbody' b hb))
  · exact ⟨s, hs, hname, hspan⟩
  · intro e he
    obtain ⟨t, ht, he⟩ := List.mem_filterMap.1 he
    obtain ⟨b, hb, ht⟩ := mem_stmts_function rfl ht
    exact ((hbody b hb).2.2 t ht).unresolved e he

theorem staysIn_global (m : Metadata) (hd : d.Stands source file) :
    StaysIn source file (global m) d (DefinitionRead source file m d) := by
  refine .bind ((staysIn_letVariable hd).mono fun v d₁ hd₁ hv ↦ ?_)
  refine .bind (staysIn_lift hd₁.toStands (locates_expect hd₁.placed) fun _ c hd₂ _ ↦ ?_)
  refine ⟨.refl hd₂.toStands, ?_⟩
  refine ⟨hd₂.file_eq, rfl, hv.placed.cuts, ?_, ⟨hv.placed, .refl _⟩, ?_, hv.name_eq, ?_⟩
  · exact hv.within.trans (Cursor.upTo_within (Nat.le_refl _) hd₂.le)
  · refine Definition.forall_mem_owned.2 ⟨hv.named, fun j hj ↦ ?_, fun j hj ↦ ?_⟩
    · exact absurd hj List.not_mem_nil
    · exact absurd hj List.not_mem_nil
  · exact fun e he ↦ hv.unresolved e (Option.mem_toList.1 he)

/-- **So does a definition**, function or variable. -/
theorem staysIn_content (m : Metadata) (hd : d.Stands source file) :
    StaysIn source file (content m) d (DefinitionRead source file m d) := by
  rw [StaysIn]
  rcases content_cases m d with h | h | h
  · rw [h]
    exact staysIn_function m hd
  · rw [h]
    exact staysIn_global m hd
  · rw [h]
    exact staysIn_stop (Q := DefinitionRead source file m d) hd

theorem runs_content (m : Metadata) (d : Draft) :
    Runs (content m) d (OwnsFrom d.program.symbols.length) := by
  rw [Runs]
  rcases content_cases m d with h | h | h
  · rw [h]
    exact runs_owned_function m d
  · rw [h]
    exact runs_owned_global m d
  · rw [h]
    exact runs_stop

end Build

/-! ### Files -/

/-- **A diagnostic points into a file**: it carries the path, and a place in the text. -/
structure Diagnostic.PointsInto (source : SourceFile) (g : Diagnostic) : Prop where
  path_eq : g.path = source.path
  position_eq : g.position = source.position g.span
  le : g.span.start ≤ g.span.stop
  stop_le : g.span.stop ≤ source.text.utf8ByteSize
  isBoundary_start : IsBoundary source.chars g.span.start
  isBoundary_stop : IsBoundary source.chars g.span.stop

theorem Diagnostic.pointsInto_ofFile {source : SourceFile} {span : Span} {word : List Char}
    (h : span.Cuts source.chars word) (name : String) (category : Category) (message : String) :
    (ofFile name source category message span).PointsInto source where
  path_eq := rfl
  position_eq := rfl
  le := h.le
  stop_le := by
    rw [← byteLength_toList]
    exact h.stop_le
  isBoundary_start := h.isBoundary_start
  isBoundary_stop := h.isBoundary_stop

/-- **The definitions of a program stand in files**: each in that of its number, and those of one
file in order and apart. -/
structure Program.LocatedIn (files : List SourceFile) (p : Program) : Prop where
  definitions : ∀ x ∈ p.definitions,
    ∃ source, files[x.file]? = some source ∧ x.Placed source.chars p.symbols
  ordered : p.definitions.Pairwise fun x y ↦ x.file = y.file → x.span.Before y.span

namespace Draft

/-- While a file is being read, all definitions stand in the files before it or in the file itself,
and reports point into the file. -/
structure Sound (files : List SourceFile) (source : SourceFile) (d : Draft) : Prop where
  source_eq : d.source = source
  files_eq : d.program.files = files
  program : d.program.LocatedIn (files ++ [source])
  diagnostics : ∀ g ∈ d.diagnostics, g.PointsInto source

/-- Moreover the place reached lies behind the definitions of the file. -/
structure Located (files : List SourceFile) (source : SourceFile) (d : Draft) : Prop
    extends Sound files source d where
  placed : d.cursor.Placed source.chars
  stop_le : ∀ x ∈ d.program.definitions, x.file = files.length → x.span.stop ≤ d.cursor.lastStop

variable {files : List SourceFile} {source : SourceFile} {d d' : Draft}

theorem Located.stands (h : d.Located files source) : d.Stands source files.length :=
  ⟨h.source_eq, congrArg List.length h.files_eq, h.placed⟩

/-- To read on leaves everything where it is. -/
theorem Located.reaches (h : d.Located files source) (hd : d.Reaches source files.length d')
    (hdefinitions : d'.program.definitions = d.program.definitions) : d'.Located files source where
  source_eq := hd.source_eq
  files_eq := hd.files_eq.trans h.files_eq
  program := by
    refine ⟨fun x hx ↦ ?_, hdefinitions ▸ h.program.ordered⟩
    obtain ⟨f, hf, hplaced⟩ := h.program.definitions x (hdefinitions ▸ hx)
    exact ⟨f, hf, hplaced.mono hd.symbols⟩
  diagnostics := hd.diagnostics_eq ▸ h.diagnostics
  placed := hd.placed
  stop_le x hx hfile := Nat.le_trans (h.stop_le x (hdefinitions ▸ hx) hfile) hd.le

/-- To report something in the file. -/
theorem Located.report (h : d.Located files source) {span : Span} {word : List Char}
    (hspan : span.Cuts source.chars word) (category : Category) (message : String) :
    (d.report category message span).Located files source where
  source_eq := h.source_eq
  files_eq := h.files_eq
  program := h.program
  diagnostics := by
    refine List.forall_mem_append.2 ⟨h.diagnostics, List.forall_mem_singleton.2 ?_⟩
    rw [h.source_eq]
    exact Diagnostic.pointsInto_ofFile hspan _ _ _
  placed := h.placed
  stop_le := h.stop_le

end Draft

namespace Build

variable {files : List SourceFile} {source : SourceFile} {α β : Type} {d d' : Draft} {p : Build α}

/-- A definition that has been read joins the others, or is reported and dropped. -/
theorem located_addDefinition {d₀ : Draft} {m : Metadata} {x : Definition}
    (hd₀ : d₀.Located files source) (hreaches : d₀.Reaches source files.length d)
    (hdefinitions : d.program.definitions = d₀.program.definitions)
    (hx : DefinitionRead source files.length m d₀ x d) (hm : ∀ t ∈ m.tags, t.Placed source.chars)
    (unique : Bool) : (addDefinition x unique d).1 = .ok () ∧
      (addDefinition x unique d).2.Located files source := by
  have hd := hd₀.reaches hreaches hdefinitions
  obtain ⟨s, hs, -, -, hcuts⟩ := hx.named x.symbol x.symbol_mem_owned
  rw [addDefinition, bind_apply, bindGlobal, hs]
  dsimp only
  cases d.program.globals.find? s.name with
  | some _ => exact ⟨rfl, hd.report hcuts _ _⟩
  | none =>
    cases unique with
    | false =>
      exact ⟨rfl, ⟨hd.source_eq, hd.files_eq, ⟨hd.program.definitions, hd.program.ordered⟩,
        hd.diagnostics⟩, hd.placed, hd.stop_le⟩
    | true =>
      refine ⟨rfl, ⟨hd.source_eq, hd.files_eq, ⟨?_, ?_⟩, hd.diagnostics⟩, hd.placed, ?_⟩
      · refine List.forall_mem_append.2 ⟨hd.program.definitions, List.forall_mem_singleton.2 ?_⟩
        refine ⟨source, ?_, hx.cuts, hx.content, ?_, ?_⟩
        · rw [hx.file_eq, List.getElem?_concat_length]
        · rw [hx.file_eq]
          exact hx.named
        · rw [hx.metadata_eq]
          exact hm
      · refine List.pairwise_append.2 ⟨hd.program.ordered, List.pairwise_singleton _ _, ?_⟩
        intro y hy z hz hfile
        obtain rfl := List.mem_singleton.1 hz
        exact Nat.le_trans (hd₀.stop_le y (hdefinitions ▸ hy) (hfile.trans hx.file_eq)) hx.within.1
      · exact List.forall_mem_append.2
          ⟨hd.stop_le, List.forall_mem_singleton.2 fun _ ↦ hx.within.2⟩

/-- Reports of tags that stand in the file. -/
theorem sound_reports (hd : d.Sound files source) {ts : List Tag} (seen : List String) (c : Cursor)
    (hts : ∀ t ∈ ts, t.Placed source.chars) :
    Draft.Sound files source { d with
      cursor := c
      diagnostics := d.diagnostics ++
        (Tag.repeats seen ts).map (Tag.repeatReport d.program.name d.source) } where
  source_eq := hd.source_eq
  files_eq := hd.files_eq
  program := hd.program
  diagnostics := by
    refine List.forall_mem_append.2 ⟨hd.diagnostics, fun g hg ↦ ?_⟩
    obtain ⟨t, ht, rfl⟩ := List.mem_map.1 hg
    rw [hd.source_eq]
    exact Diagnostic.pointsInto_ofFile (hts t (Tag.repeats_subset _ _ ht)).name _ _ _

/-- **Definitions stay in their places**: a draft behind one more definition is one in which all
stand in files, and an error lies in the file. -/
def KeepsPlaces (files : List SourceFile) (source : SourceFile) (p : Build α) (d : Draft) : Prop :=
  (p d).2.Sound files source ∧
    match (p d).1 with
    | .ok _ => (p d).2.Located files source
    | .error e => ∃ word, e.span.Cuts source.chars word

/-- Reading a definition keeps everything in its place, also if it fails or a name is taken. -/
theorem keepsPlaces_definition (hd : d.Located files source) :
    KeepsPlaces files source definition d := by
  obtain ⟨c, hmetadata, hc⟩ := tagsDone_metadata d
  obtain ⟨htags, hbehind, herror⟩ := Tag.readIn_read hd.placed
  rw [KeepsPlaces, definition_eq, bind_apply, hmetadata]
  have hsound := sound_reports hd.toSound (Metadata.empty.tags.map (·.name)) c htags
  generalize Tag.read d.cursor = read at htags hbehind herror hc hsound ⊢
  obtain ⟨ts, e | c'⟩ := read
  · exact ⟨hsound, herror e rfl⟩
  · obtain rfl := hc c' rfl
    obtain ⟨hplaced, hle⟩ := hbehind c rfl
    have hm : ∀ t ∈ (Metadata.empty.addAll ts).tags, t.Placed source.chars :=
      fun t ht ↦ htags t (Metadata.tags_addAll_subset _ _ ht)
    have hd₁ : Draft.Located files source _ :=
      ⟨hsound, hplaced, fun x hx hfile ↦ Nat.le_trans (hd.stop_le x hx hfile) hle⟩
    show KeepsPlaces files source (content _ >>= fun x ↦ addDefinition x _) _
    generalize Draft.mk _ _ _ _ = d₁ at hd₁ ⊢
    obtain ⟨hreaches, hresult⟩ := staysIn_content (Metadata.empty.addAll ts) hd₁.stands
    have hdefinitions := (runs_content (Metadata.empty.addAll ts) d₁).1.definitions
    rw [KeepsPlaces, bind_apply]
    generalize content (Metadata.empty.addAll ts) d₁ = r at hreaches hresult hdefinitions ⊢
    rcases r with ⟨e | x, d₂⟩
    · exact ⟨(hd₁.reaches hreaches hdefinitions).toSound, hresult⟩
    · obtain ⟨hok, hlocated⟩ := located_addDefinition hd₁ hreaches hdefinitions hresult hm _
      refine ⟨hlocated.toSound, ?_⟩
      dsimp only
      rw [hok]
      exact hlocated

/-- Each definition of a file in turn, and so the whole file. -/
theorem keepsPlaces_definitionsTo (n : Nat) (hd : d.Located files source) :
    KeepsPlaces files source (definitionsTo n) d := by
  induction n generalizing d with
  | zero => exact ⟨hd.toSound, _, hd.placed.cuts_current⟩
  | succ n ih =>
    rw [KeepsPlaces, definitionsTo_succ]
    split
    · exact ⟨hd.toSound, hd⟩
    · obtain ⟨hsound, hresult⟩ := keepsPlaces_definition hd
      rw [bind_apply]
      generalize definition d = r at hsound hresult ⊢
      rcases r with ⟨e | u, d'⟩
      · exact ⟨hsound, hresult⟩
      · exact ih hresult

end Build

namespace Program

variable {p : Program}

/-- The definitions of a program stand in its files. -/
def Located (p : Program) : Prop :=
  p.LocatedIn p.files

theorem located_empty (name : String) : (empty name).Located :=
  ⟨fun _ hx ↦ absurd hx List.not_mem_nil, .nil⟩

theorem LocatedIn.append {files : List SourceFile} (h : p.LocatedIn files) (source : SourceFile) :
    p.LocatedIn (files ++ [source]) := by
  refine ⟨fun x hx ↦ ?_, h.ordered⟩
  obtain ⟨f, hf, hplaced⟩ := h.definitions x hx
  exact ⟨f, by rw [List.getElem?_append_left (List.getElem?_eq_some_iff.1 hf).1, hf], hplaced⟩

theorem Located.draft (h : p.Located) (source : SourceFile) :
    (p.draft source).Located p.files source where
  source_eq := rfl
  files_eq := rfl
  program := h.append source
  diagnostics g hg := absurd hg List.not_mem_nil
  placed := Cursor.placed_start _
  stop_le x hx hfile := by
    obtain ⟨f, hf, -⟩ := h.definitions x hx
    exact absurd (List.getElem?_eq_some_iff.1 hf).1 (hfile ▸ Nat.lt_irrefl _)

/-- **A file that is read leaves everything in its place**, and all that is reported points into
it. -/
theorem Located.parseFile (h : p.Located) (source : SourceFile) :
    (p.parseFile source).program.Located ∧
      (p.parseFile source).program.files = p.files ++ [source] ∧
      ∀ g ∈ (p.parseFile source).diagnostics, g.PointsInto source := by
  obtain ⟨hsound, hresult⟩ :=
    Build.keepsPlaces_definitionsTo (p.draft source).cursor.rest.length (h.draft source)
  rw [Program.parseFile]
  generalize Build.definitionsTo (p.draft source).cursor.rest.length (p.draft source) = r
    at hsound hresult ⊢
  have hfiles : r.2.program.files ++ [source] = p.files ++ [source] := by rw [hsound.files_eq]
  have hlocated : ({ r.2.program with files := r.2.program.files ++ [source] } : Program).Located :=
    ⟨hfiles ▸ hsound.program.definitions, hsound.program.ordered⟩
  rcases r with ⟨e | u, d⟩
  · obtain ⟨word, hword⟩ := hresult
    refine ⟨hlocated, hfiles, List.forall_mem_append.2 ⟨hsound.diagnostics, ?_⟩⟩
    refine List.forall_mem_singleton.2 ?_
    rw [hsound.source_eq]
    exact Diagnostic.pointsInto_ofFile hword _ _ _
  · exact ⟨hlocated, hfiles, hsound.diagnostics⟩

/-- **So all files of a program are read with everything in its place**, one behind another. -/
theorem Located.parseFiles (h : p.Located) (sources : List SourceFile) :
    (p.parseFiles sources).1.Located ∧ (p.parseFiles sources).1.files = p.files ++ sources := by
  induction sources generalizing p with
  | nil => exact ⟨h, (List.append_nil _).symm⟩
  | cons source sources ih =>
    obtain ⟨hlocated, hfiles, -⟩ := h.parseFile source
    obtain ⟨hlocated', hfiles'⟩ := ih hlocated
    exact ⟨hlocated', by rw [Program.parseFiles, hfiles', hfiles, List.append_assoc]; rfl⟩

end Program

end FrontEnd
