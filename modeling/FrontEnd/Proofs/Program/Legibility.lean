import FrontEnd.Proofs.Grammar.Definitions
import FrontEnd.Proofs.Program.Globals
import FrontEnd.Proofs.Token.LineFeeds

/-!
# What a file can show

A text has line feeds, and what is said about the text quotes it. Most of what is quoted has no line
feed: names are tokens that have none, and so are the numbers that cannot be read. What is left is
told by the cause of an error alone (`ParseError.Cause.breaksLine`): an escape code that is a line
feed, and the rune of the line feed where no rune can stand.

A parser keeps to that if its tokens do, whatever it reads and however it ends (`Parse.Legible`,
`Build.Legible`). So the reading of a file does (`Reading.Legible`), and with it the symbols of a
program.
-/

namespace FrontEnd

open Parse

/-! ### Causes -/

namespace ParseError.Cause

/-- Whether a cause **breaks its line**: it quotes a line feed. -/
def breaksLine : Cause → Bool
  | fault f => f = .invalidEscape '\n'
  | expected _ found => found = Token.lineFeedRune
  | unexpected found => found = Token.lineFeedRune
  | _ => false

/-- A cause is **legible** if it is worded on one line whenever it does not break it. -/
def Legible (cause : Cause) : Prop :=
  OneLine cause.message ↔ cause.breaksLine = false

end ParseError.Cause

/-- The names of scalar types are written on one line. -/
theorem Scalar.oneLine_name (s : Scalar) : OneLine s.name := by
  rcases s with ⟨w, b⟩ | w | _
  · cases w <;> cases b <;> decide
  · cases w <;> decide
  · decide

namespace Token

variable {t : Token}

/-- The name of a kind of token is on one line. A fault is called an invalid token, whatever its
text. -/
theorem Kind.oneLine_describe (k : Kind) : OneLine k.describe := by
  cases k with
  | keyword w => cases w <;> decide
  | scalar s =>
    exact oneLine_append.2 ⟨oneLine_append.2 ⟨by decide, s.oneLine_name⟩, by decide⟩
  | sign s => cases s <;> decide
  | fault f => exact (by decide : OneLine "invalid token")
  | _ => decide

/-- The spelling of a legible token is on one line unless it is the rune of the line feed. -/
theorem Legible.oneLine_ofList_iff (h : t.Legible) (hfault : t.kind.isFault = false) :
    OneLine (String.ofList t.text) ↔ t.text ≠ lineFeedRune := by
  rw [oneLine_ofList]
  constructor
  · intro hmem htext
    rw [htext] at hmem
    exact absurd hmem (by decide)
  · exact fun htext hmem ↦ htext (h hfault hmem).2

/-- An error that a token cannot stand where it does quotes the token, and breaks its line only with
the rune of the line feed. -/
theorem Legible.unexpected (h : t.Legible) (hfault : t.kind.isFault = false) :
    (ParseError.Cause.unexpected t.text).Legible := by
  have hmessage : OneLine (ParseError.Cause.unexpected t.text).message ↔
      OneLine (String.ofList t.text) :=
    oneLine_append.trans (and_iff_right (by decide))
  exact hmessage.trans ((h.oneLine_ofList_iff hfault).trans decide_eq_false_iff_not.symm)

/-- The same if the error says what could stand there. -/
theorem Legible.expected (h : t.Legible) (hfault : t.kind.isFault = false) (k : Kind) :
    (ParseError.Cause.expected k t.text).Legible := by
  have hfront : OneLine ("expected " ++ k.describe ++ ", found '") :=
    oneLine_append.2 ⟨oneLine_append.2 ⟨by decide, k.oneLine_describe⟩, by decide⟩
  have hmessage : OneLine (ParseError.Cause.expected k t.text).message ↔
      OneLine (String.ofList t.text) :=
    oneLine_append.trans ((and_iff_left (by decide)).trans
      (oneLine_append.trans (and_iff_right hfront)))
  exact hmessage.trans ((h.oneLine_ofList_iff hfault).trans decide_eq_false_iff_not.symm)

/-- What is said of a literal that cannot be read. -/
theorem Legible.constantOf? (h : t.Legible) {cause : ParseError.Cause}
    (hcause : Expr.constantOf? t = some (.error cause)) : cause.Legible := by
  have hquoted : ∀ {front : String}, OneLine front → t.kind.isFault = false → t.kind ≠ .rune →
      OneLine (front ++ String.ofList t.text) := fun hfront hfault hrune ↦
    oneLine_append.2 ⟨hfront, h.oneLine_word hfault hrune⟩
  rw [Expr.constantOf?] at hcause
  split at hcause
  · rename_i hkind
    split at hcause
    · cases hcause
    · obtain rfl := Except.error.inj (Option.some.inj hcause)
      exact iff_of_true (by decide) rfl
    · obtain rfl := Except.error.inj (Option.some.inj hcause)
      exact iff_of_true (hquoted (by decide) (by rw [hkind]; rfl) (by rw [hkind]; decide)) rfl
  · rename_i hkind
    split at hcause
    · cases hcause
    · obtain rfl := Except.error.inj (Option.some.inj hcause)
      exact iff_of_true (by decide) rfl
    · obtain rfl := Except.error.inj (Option.some.inj hcause)
      exact iff_of_true (hquoted (by decide) (by rw [hkind]; rfl) (by rw [hkind]; decide)) rfl
  · split at hcause
    · cases hcause
    · obtain rfl := Except.error.inj (Option.some.inj hcause)
      exact iff_of_true (by decide) rfl
  all_goals cases hcause

end Token

/-! ### Parsers -/

/-- A place is **legible** if the tokens behind it are. -/
def Cursor.Legible (c : Cursor) : Prop :=
  ∀ t ∈ c.rest, t.Legible

namespace Cursor.Legible

variable {c : Cursor}

/-- The token at a legible place is legible, and so is the end mark behind the last one. -/
theorem current (h : c.Legible) : c.current.Legible := by
  rcases c with ⟨_ | ⟨t, l⟩, s⟩
  · exact fun _ hmem ↦ absurd hmem List.not_mem_nil
  · exact h t List.mem_cons_self

/-- Going on leads from legible places to legible places. -/
theorem next (h : c.Legible) : c.next.Legible :=
  fun t ht ↦ h t (List.mem_of_mem_tail ht)

/-- **What is said of the token that comes next** is legible: a fault is worded in its own way, at
the end of a file there is nothing to quote, and any other token is quoted. -/
theorem unexpected (h : c.Legible) : c.unexpected.cause.Legible := by
  rw [Cursor.unexpected]
  dsimp only
  split
  · exact (Fault.oneLine_message_iff _).trans decide_eq_false_iff_not.symm
  · exact iff_of_true (by decide) rfl
  · rename_i hfault _
    refine h.current.unexpected ?_
    cases hkind : c.current.kind with
    | fault f => exact absurd hkind (hfault f)
    | _ => rfl

/-- What is said of it where only one kind of token can stand is legible too. -/
theorem unexpectedFor (h : c.Legible) (k : Token.Kind) : (c.unexpectedFor k).cause.Legible := by
  rw [Cursor.unexpectedFor]
  split
  · exact h.unexpected
  · exact h.unexpected
  · rename_i hfault _
    refine h.current.expected ?_ k
    cases hkind : c.current.kind with
    | fault f => exact absurd hkind (hfault f)
    | _ => rfl

end Cursor.Legible

namespace Parse

variable {α β : Type} {p q : Parse α} {P Q : α → Prop}

/-- **A parser is legible** if it goes from legible places to legible places, and its errors are
legible. What it reads has a property. -/
def Legible (p : Parse α) (Q : α → Prop) : Prop :=
  ∀ c : Cursor, c.Legible →
    match p c with
    | .ok (a, c') => c'.Legible ∧ Q a
    | .error e => e.cause.Legible

/-- **One parser behind another**: the second starts from what the first has read and from where it
has stopped. -/
theorem Legible.bind {f : α → Parse β} {R : β → Prop} (hp : Legible p P)
    (hf : ∀ a, P a → Legible (f a) R) : Legible (p >>= f) R := by
  intro c hc
  have h := hp c hc
  rw [bind_apply]
  rcases hpc : p c with e | ⟨a, c'⟩
  · rw [hpc] at h
    exact h
  · rw [hpc] at h
    exact hf a h.2 c' h.1

/-- What is known of what a parser reads can be weakened. -/
theorem Legible.mono (hp : Legible p P) (hPQ : ∀ a, P a → Q a) : Legible p Q := by
  intro c hc
  have h := hp c hc
  rcases hpc : p c with e | ⟨a, c'⟩
  · rw [hpc] at h
    exact h
  · rw [hpc] at h
    exact ⟨h.1, hPQ a h.2⟩

theorem legible_pure {a : α} (h : Q a) : Legible (pure a) Q :=
  fun _ hc ↦ ⟨hc, h⟩

theorem legible_ite {c : Prop} [Decidable c] (hp : Legible p Q) (hq : Legible q Q) :
    Legible (if c then p else q) Q := by
  split
  · exact hp
  · exact hq

/-- Stopping is legible, since the token that it is about is. -/
theorem legible_failHere : Legible (failHere : Parse α) Q :=
  fun _ hc ↦ hc.unexpected

/-- Looking at a token gives a legible one. -/
theorem legible_peek : Legible peek Token.Legible :=
  fun _ hc ↦ ⟨hc, hc.current⟩

theorem legible_advance : Legible advance fun _ ↦ True :=
  fun _ hc ↦ ⟨hc.next, trivial⟩

theorem legible_at? (k : Token.Kind) : Legible (at? k) fun _ ↦ True :=
  fun _ hc ↦ ⟨hc, trivial⟩

theorem legible_spanFrom (s : Span) : Legible (spanFrom s) fun _ ↦ True :=
  fun _ hc ↦ ⟨hc, trivial⟩

/-- A token that may be there is passed over or left. -/
theorem legible_eat (k : Token.Kind) : Legible (eat k) fun _ ↦ True := by
  intro c hc
  by_cases hkind : c.current.kind = k
  · rw [eat, if_pos hkind]
    exact ⟨hc.next, trivial⟩
  · rw [eat, if_neg hkind]
    exact ⟨hc, trivial⟩

/-- A token that has to be there is legible and of the kind that is asked for; if it is not there,
what is found in its place is quoted. -/
theorem legible_expect (k : Token.Kind) : Legible (expect k) fun t ↦ t.Legible ∧ t.kind = k := by
  intro c hc
  by_cases hkind : c.current.kind = k
  · rw [expect, if_pos hkind]
    exact ⟨hc.next, hc.current, hkind⟩
  · rw [expect, if_neg hkind]
    exact hc.unexpectedFor k

/-- **Names are on one line.** This is where they come from, and all that is known of them. -/
theorem legible_expect_ident : Legible (expect .ident) fun t ↦ OneLine t.word := by
  refine (legible_expect .ident).mono fun t ⟨ht, hkind⟩ ↦ ht.oneLine_word ?_ ?_
  · rw [hkind]
    rfl
  · rw [hkind]
    decide

theorem legible_ifEat {k : Token.Kind} (hp : Legible p Q) (hq : Legible q Q) :
    Legible (eat k >>= fun b ↦ if b = true then p else q) Q :=
  (legible_eat k).bind fun _ _ ↦ legible_ite hp hq

end Parse

/-- Labels are made of keywords, so all that can be said about them is what stands where they cannot
go on. -/
theorem Ty.legible_label : Legible label fun _ ↦ True := by
  rintro ⟨tokens, lastStop⟩ hc
  rw [label]
  dsimp only
  fun_induction labelFrom lastStop tokens with
  | case1 => exact hc.unexpected
  | case2 => exact ⟨hc.next, trivial⟩
  | case3 => exact hc.next.unexpected
  | case4 lastStop t hkind u us hconst a c h ih =>
    have hread := ih hc.next.next
    rw [h] at hread
    exact hread
  | case5 lastStop t hkind u us hconst e h ih =>
    have herror := ih hc.next.next
    rw [h] at herror
    exact herror
  | case6 lastStop t hkind u us hconst a c h ih =>
    have hread := ih hc.next
    rw [h] at hread
    exact hread
  | case7 lastStop t hkind u us hconst e h ih =>
    have herror := ih hc.next
    rw [h] at herror
    exact herror
  | case8 => exact hc.unexpected

/-! ### Expressions -/

namespace Expr

/-- Casts name labels, and there is nothing else in them to read. -/
theorem legible_casts (n : Nat) (e : Expr) : Legible (casts n e) fun _ ↦ True := by
  induction n generalizing e with
  | zero => exact legible_failHere
  | succ n ih =>
    refine legible_ifEat ?_ (legible_pure trivial)
    exact Ty.legible_label.bind fun _ _ ↦ (legible_spanFrom _).bind fun _ _ ↦ ih _

/-- The readers of expressions are legible as long as they make at most `n` calls into each
other. -/
structure LegibleTo (n : Nat) : Prop where
  parse : Legible (parseTo n) fun _ ↦ True
  row : Legible (rowTo n) fun _ ↦ True
  operand : Legible (operandTo n) fun _ ↦ True
  calls (f : Expr) : Legible (callsTo n f) fun _ ↦ True
  arguments : Legible (argumentsTo n) fun _ ↦ True
  moreArguments : Legible (moreArgumentsTo n) fun _ ↦ True
  atom : Legible (atomTo n) fun _ ↦ True

/-- If a token that is an expression by itself cannot be read, it is a literal. -/
theorem legible_ofToken? {t : Token} (ht : t.Legible) {e : ParseError}
    (h : ofToken? t = some (.error e)) : e.cause.Legible := by
  rw [ofToken?] at h
  split at h
  · cases h
  · obtain ⟨r, hr, he⟩ := Option.map_eq_some_iff.1 h
    cases r with
    | ok value => cases he
    | error cause =>
      obtain rfl := Except.error.inj he
      exact ht.constantOf? hr

/-- With one more call a reader is legible if those that it calls are. -/
theorem LegibleTo.succ {n : Nat} (h : LegibleTo n) : LegibleTo (n + 1) where
  parse := h.operand.bind fun _ _ ↦ h.row.bind fun _ _ ↦ legible_casts n _
  row := by
    refine legible_peek.bind fun t _ ↦ ?_
    rcases BinOp.ofKind? t.kind with _ | op
    · exact legible_pure trivial
    · exact legible_advance.bind fun _ _ ↦ h.operand.bind fun _ _ ↦ h.row.bind fun _ _ ↦
        legible_pure trivial
  operand := by
    refine legible_peek.bind fun t _ ↦ ?_
    rcases UnaryOp.ofKind? t.kind with _ | op
    · exact h.atom.bind fun e _ ↦ h.calls e
    · exact legible_advance.bind fun _ _ ↦ h.operand.bind fun _ _ ↦
        (legible_spanFrom _).bind fun _ _ ↦ legible_pure trivial
  calls f := by
    refine legible_ifEat ?_ (legible_pure trivial)
    exact h.arguments.bind fun _ _ ↦ (legible_spanFrom _).bind fun _ _ ↦ h.calls _
  arguments := legible_ifEat (legible_pure trivial)
    (h.parse.bind fun _ _ ↦ h.moreArguments.bind fun _ _ ↦ legible_pure trivial)
  moreArguments := legible_ifEat
    (h.parse.bind fun _ _ ↦ h.moreArguments.bind fun _ _ ↦ legible_pure trivial)
    ((legible_expect _).bind fun _ _ ↦ legible_pure trivial)
  atom := by
    refine legible_peek.bind fun t ht ↦ ?_
    rcases htoken : ofToken? t with _ | err | e
    · refine legible_ifEat ?_ legible_failHere
      exact h.parse.bind fun _ _ ↦ (legible_expect _).bind fun _ _ ↦ legible_pure trivial
    · exact fun _ _ ↦ legible_ofToken? ht htoken
    · exact legible_advance.bind fun _ _ ↦ legible_pure trivial

/-- So the readers of expressions are legible, whatever the bound on their calls. -/
theorem legibleTo (n : Nat) : LegibleTo n := by
  induction n with
  | zero =>
    exact ⟨legible_failHere, legible_failHere, legible_failHere, fun _ ↦ legible_failHere,
      legible_failHere, legible_failHere, legible_failHere⟩
  | succ n ih => exact ih.succ

/-- **An expression is read legibly.** No names are declared in it, so nothing has to be said of
what is read. -/
theorem legible_parse : Legible parse fun _ ↦ True :=
  fun c ↦ (legibleTo (callBound c.rest.length)).parse c

end Expr

/-! ### Definitions -/

/-- A draft is **legible** if what is left of its file is, and all names so far are on one line. -/
structure Draft.Legible (d : Draft) : Prop where
  cursor : d.cursor.Legible
  names : ∀ s ∈ d.program.symbols, OneLine s.name

namespace Build

variable {α β : Type} {p q : Build α} {P Q : α → Prop}

/-- **A parser that changes a program is legible** if it keeps drafts legible, whether or not it
reads what it is to read, and its errors are legible. -/
def Legible (p : Build α) (Q : α → Prop) : Prop :=
  ∀ d : Draft, d.Legible → (p d).2.Legible ∧
    match (p d).1 with
    | .ok a => Q a
    | .error e => e.cause.Legible

/-- One parser behind another. Where the first one fails, what it has added to the program stays. -/
theorem Legible.bind {f : α → Build β} {R : β → Prop} (hp : Legible p P)
    (hf : ∀ a, P a → Legible (f a) R) : Legible (p >>= f) R := by
  intro d hd
  have h := hp d hd
  rw [bind_apply]
  generalize p d = r at h ⊢
  rcases r with ⟨e | a, d'⟩
  · exact h
  · exact hf a h.2 d' h.1

theorem legible_pure {a : α} (h : Q a) : Legible (pure a) Q :=
  fun _ hd ↦ ⟨hd, h⟩

theorem legible_stop : Legible (stop : Build α) Q :=
  fun _ hd ↦ ⟨hd, hd.cursor.unexpected⟩

theorem legible_ite {c : Prop} [Decidable c] (hp : Legible p Q) (hq : Legible q Q) :
    Legible (if c then p else q) Q := by
  split
  · exact hp
  · exact hq

/-- A parser that does not look at the program is legible in a draft if it is legible. -/
theorem legible_lift {p : Parse α} (hp : Parse.Legible p Q) : Legible (liftM p) Q := by
  intro d hd
  have h := hp d.cursor hd.cursor
  rw [lift_apply]
  rcases hpc : p d.cursor with e | ⟨a, c⟩
  · rw [hpc] at h
    exact ⟨hd, h⟩
  · rw [hpc] at h
    exact ⟨⟨h.1, hd.names⟩, h.2⟩

/-- A new symbol keeps a draft legible if its name is on one line. -/
theorem legible_newSymbol {name : Token} (hname : OneLine name.word) (kind : SymbolKind)
    (type? : Option Ty) (isMutable : Bool) :
    Legible (newSymbol name kind type? isMutable) fun _ ↦ True :=
  fun _ hd ↦ ⟨⟨hd.cursor, List.forall_mem_append.2 ⟨hd.names, List.forall_mem_singleton.2 hname⟩⟩,
    trivial⟩

/-- So do the parameters of a group, one symbol for each name. -/
theorem legible_newParams (a : Ty) {names : List Token} (hnames : ∀ t ∈ names, OneLine t.word) :
    Legible (newParams a names) fun _ ↦ True := by
  induction names with
  | nil => exact legible_pure trivial
  | cons name names ih =>
    obtain ⟨hname, hmore⟩ := List.forall_mem_cons.1 hnames
    exact (legible_newSymbol hname _ _ _).bind fun _ _ ↦ (ih hmore).bind fun _ _ ↦
      legible_pure trivial

theorem legible_tokensLeft : Parse.Legible tokensLeft fun _ ↦ True :=
  fun _ hc ↦ ⟨hc, trivial⟩

theorem legible_labelPart : Parse.Legible labelPart fun _ ↦ True :=
  legible_ifEat (Ty.legible_label.bind fun _ _ ↦ Parse.legible_pure trivial)
    (Parse.legible_pure trivial)

theorem legible_initPart (labelled : Bool) : Parse.Legible (initPart labelled) fun _ ↦ True := by
  refine (legible_at? _).bind fun _ _ ↦ Parse.legible_ite (Parse.legible_pure trivial) ?_
  exact (legible_expect _).bind fun _ _ ↦ Expr.legible_parse.bind fun _ _ ↦
    Parse.legible_pure trivial

/-- A variable is read legibly. Its name is that of the symbol it adds. -/
theorem legible_letVariable : Legible letVariable fun _ ↦ True := by
  rw [letVariable_eq]
  refine (legible_lift (legible_expect _)).bind fun start _ ↦ ?_
  refine (legible_lift legible_expect_ident).bind fun name hname ↦ ?_
  refine (legible_lift legible_labelPart).bind fun type? _ ↦ ?_
  refine (legible_lift (legible_initPart _)).bind fun init? _ ↦ ?_
  exact (legible_newSymbol hname _ _ _).bind fun _ _ ↦
    (legible_lift (legible_spanFrom _)).bind fun _ _ ↦ legible_pure trivial

theorem legible_stmt : Legible stmt fun _ ↦ True := by
  refine (legible_lift (legible_at? _)).bind fun _ _ ↦ legible_ite ?_ ?_
  · exact legible_letVariable.bind fun _ _ ↦ (legible_lift (legible_expect _)).bind fun _ _ ↦
      legible_pure trivial
  · exact (legible_lift Expr.legible_parse).bind fun _ _ ↦
      (legible_lift (legible_expect _)).bind fun _ _ ↦ legible_pure trivial

/-- Statements are read legibly, however many of them are read before the block ends. -/
theorem legible_stmtsTo (n : Nat) : Legible (stmtsTo n) fun _ ↦ True := by
  induction n with
  | zero => exact legible_stop
  | succ n ih =>
    refine (legible_lift (legible_eat _)).bind fun _ _ ↦ legible_ite (legible_pure trivial) ?_
    exact legible_stmt.bind fun _ _ ↦ ih.bind fun _ _ ↦ legible_pure trivial

theorem legible_block : Legible block fun _ ↦ True :=
  (legible_lift (legible_expect _)).bind fun _ _ ↦ (legible_lift legible_tokensLeft).bind fun n _ ↦
    (legible_stmtsTo n).bind fun _ _ ↦ (legible_lift (legible_spanFrom _)).bind fun _ _ ↦
      legible_pure trivial

/-- All names of a group of parameters are on one line. -/
theorem legible_namesTo (n : Nat) :
    Parse.Legible (namesTo n) fun names ↦ ∀ t ∈ names, OneLine t.word := by
  induction n with
  | zero => exact legible_failHere
  | succ n ih =>
    refine legible_expect_ident.bind fun name hname ↦ legible_ifEat ?_ ?_
    · exact ih.bind fun names hnames ↦
        Parse.legible_pure (List.forall_mem_cons.2 ⟨hname, hnames⟩)
    · exact Parse.legible_pure (List.forall_mem_singleton.2 hname)

theorem legible_paramsTo (n : Nat) : Legible (paramsTo n) fun _ ↦ True := by
  induction n with
  | zero => exact legible_stop
  | succ n ih =>
    refine (legible_lift legible_tokensLeft).bind fun count _ ↦ ?_
    refine (legible_lift (legible_namesTo count)).bind fun names hnames ↦ ?_
    refine (legible_lift (legible_expect _)).bind fun _ _ ↦ ?_
    refine (legible_lift Ty.legible_label).bind fun a _ ↦ ?_
    refine (legible_newParams a hnames).bind fun _ _ ↦ ?_
    exact (legible_lift (legible_eat _)).bind fun _ _ ↦
      legible_ite (ih.bind fun _ _ ↦ legible_pure trivial) (legible_pure trivial)

theorem legible_paramList : Legible paramList fun _ ↦ True := by
  refine (legible_lift (legible_expect _)).bind fun _ _ ↦ ?_
  refine Legible.bind (P := fun _ ↦ True) ?_ fun _ _ ↦
    (legible_lift (legible_expect _)).bind fun _ _ ↦ legible_pure trivial
  exact (legible_lift (legible_at? _)).bind fun _ _ ↦ legible_ite (legible_pure trivial)
    ((legible_lift legible_tokensLeft).bind fun n _ ↦ legible_paramsTo n)

theorem legible_resultLabel : Legible resultLabel fun _ ↦ True :=
  (legible_lift (legible_at? _)).bind fun _ _ ↦ (legible_lift (legible_at? _)).bind fun _ _ ↦
    legible_ite (legible_pure trivial) (legible_lift Ty.legible_label)

theorem legible_bodyPart : Legible bodyPart fun _ ↦ True :=
  (legible_lift (legible_eat _)).bind fun _ _ ↦ (legible_lift (legible_at? _)).bind fun _ _ ↦
    legible_ite (legible_pure trivial)
      (legible_ite (legible_block.bind fun _ _ ↦ legible_pure trivial) legible_stop)

/-- **A function is read legibly**: its own name, its parameters and its local variables are on one
line. -/
theorem legible_function (m : Metadata) : Legible (function m) fun _ ↦ True := by
  rw [function_eq]
  refine (legible_lift (legible_expect _)).bind fun _ _ ↦ ?_
  refine (legible_lift legible_expect_ident).bind fun name hname ↦ ?_
  refine legible_paramList.bind fun _ _ ↦ legible_resultLabel.bind fun _ _ ↦ ?_
  refine legible_bodyPart.bind fun _ _ ↦ (legible_newSymbol hname _ _ _).bind fun _ _ ↦ ?_
  exact (legible_lift (legible_spanFrom _)).bind fun _ _ _ hd ↦ ⟨hd, trivial⟩

theorem legible_global (m : Metadata) : Legible (global m) fun _ ↦ True :=
  legible_letVariable.bind fun _ _ ↦ (legible_lift (legible_expect _)).bind fun _ _ _ hd ↦
    ⟨hd, trivial⟩

/-- A definition is a function or a variable, or ends with an error at its first word. -/
theorem legible_content (m : Metadata) : Legible (content m) fun _ ↦ True := by
  refine (legible_lift legible_peek).bind fun t _ ↦ ?_
  split
  · exact legible_function m
  · exact legible_global m
  · exact legible_stop

/-- The name of a tag is on one line. Its value need not be: a string can have an escaped line
feed. -/
theorem legible_tag : Parse.Legible tag fun t ↦ OneLine t.name := by
  refine legible_expect_ident.bind fun name hname ↦ legible_ifEat ?_ (Parse.legible_pure hname)
  exact (legible_expect _).bind fun _ _ ↦ (legible_expect _).bind fun _ _ ↦
    Parse.legible_pure hname

end Build

/-! ### Readings -/

/-- **Tags are legible** if their names are on one line; behind them the place is legible, or the
error. -/
structure Tag.ReadLegibly (read : List Tag × Except ParseError Cursor) : Prop where
  tags : ∀ t ∈ read.1, OneLine t.name
  behind : ∀ c, read.2 = .ok c → c.Legible
  error : ∀ e, read.2 = .error e → e.cause.Legible

namespace Tag.ReadLegibly

variable {c : Cursor} {t : Tag} {ts : List Tag} {e : ParseError}

/-- Tags that end with an error. -/
theorem failed (hts : ∀ t ∈ ts, OneLine t.name) (he : e.cause.Legible) :
    ReadLegibly (ts, .error e) :=
  ⟨hts, fun _ h ↦ (by cases h), fun _ h ↦ Except.error.inj h ▸ he⟩

/-- Tags that end at a place. -/
theorem ended (hts : ∀ t ∈ ts, OneLine t.name) (hc : c.Legible) : ReadLegibly (ts, .ok c) :=
  ⟨hts, fun _ h ↦ Except.ok.inj h ▸ hc, fun _ h ↦ (by cases h)⟩

end Tag.ReadLegibly

namespace Tag

variable {c : Cursor}

/-- Tags in brackets are read legibly, also those in front of an error. -/
theorem readLegibly_readTo (n : Nat) (hc : c.Legible) : ReadLegibly (readTo n c) := by
  induction n generalizing c with
  | zero => exact .failed (fun _ h ↦ absurd h List.not_mem_nil) hc.unexpected
  | succ n ih =>
    have htag := Build.legible_tag c hc
    rw [readTo]
    rcases hread : Build.tag c with e | ⟨t, c₁⟩
    · rw [hread] at htag
      exact .failed (fun _ h ↦ absurd h List.not_mem_nil) htag
    · rw [hread] at htag
      obtain ⟨hc₁, ht⟩ := htag
      dsimp only
      split
      · obtain ⟨htags, hbehind, herror⟩ := ih hc₁.next
        exact ⟨List.forall_mem_cons.2 ⟨ht, htags⟩, hbehind, herror⟩
      · have hclose := legible_expect (.sign .rightBracket) c₁ hc₁
        rcases hread : expect (.sign .rightBracket) c₁ with e | ⟨u, c₂⟩
        · rw [hread] at hclose
          exact .failed (List.forall_mem_singleton.2 ht) hclose
        · rw [hread] at hclose
          exact .ended (List.forall_mem_singleton.2 ht) hclose.1

/-- **The tags of a definition are read legibly**, in each of their three forms. -/
theorem readLegibly_read (hc : c.Legible) : ReadLegibly (read c) := by
  rw [read]
  split
  · split
    · exact readLegibly_readTo _ hc.next.next
    · have htag := Build.legible_tag c.next hc.next
      rcases hread : Build.tag c.next with e | ⟨t, c₁⟩
      · rw [hread] at htag
        exact .failed (fun _ h ↦ absurd h List.not_mem_nil) htag
      · rw [hread] at htag
        exact .ended (List.forall_mem_singleton.2 htag.2) htag.1
  · exact .ended (fun _ h ↦ absurd h List.not_mem_nil) hc

end Tag

/-- **A reading is legible** if all names in it are on one line, and what ended it is legible. -/
structure Reading.Legible (r : Reading) : Prop where
  names : ∀ s ∈ r.symbols, OneLine s.name
  tags : ∀ e ∈ r.entries, ∀ t ∈ e.definition.metadata.tags, OneLine t.name
  error : ∀ e, r.error? = some e → e.cause.Legible

/-- **The reading of a file is legible** if its tokens are. The induction is on the bound on rounds,
and carries along that the draft is legible and stands in its file: the tags of an entry are those
that were read, without those that were there already. -/
theorem Build.legible_readTo {source : SourceFile} {file : Nat} {d : Draft} (n : Nat)
    (hstands : d.Stands source file) (hd : d.Legible) : (readTo n d).Legible := by
  have hnone : ∀ {P : Entry → Prop}, ∀ e ∈ ([] : List Entry), P e :=
    fun _ h ↦ absurd h List.not_mem_nil
  induction n generalizing d with
  | zero => exact ⟨hd.names, hnone, fun _ h ↦ Option.some.inj h ▸ hd.cursor.unexpected⟩
  | succ n ih =>
    rw [readTo]
    split
    · exact ⟨hd.names, hnone, fun _ h ↦ by cases h⟩
    · obtain ⟨htags, hbehind, herror⟩ := Tag.readLegibly_read hd.cursor
      obtain ⟨-, hplaced, -⟩ := Tag.readIn_read hstands.placed
      generalize Tag.read d.cursor = read at htags hbehind herror hplaced ⊢
      rcases read with ⟨tags, e | c⟩
      · exact ⟨hd.names, hnone, fun _ h ↦ Option.some.inj h ▸ herror e rfl⟩
      · have hstands₁ : Draft.Stands source file { d with cursor := c } :=
          ⟨hstands.source_eq, hstands.file_eq, (hplaced c rfl).1⟩
        obtain ⟨hd₂, hresult⟩ := legible_content (Metadata.empty.addAll tags) { d with cursor := c }
          ⟨hbehind c rfl, hd.names⟩
        obtain ⟨hreaches, hread⟩ := staysIn_content (Metadata.empty.addAll tags) hstands₁
        dsimp only
        generalize content (Metadata.empty.addAll tags) { d with cursor := c } = r
          at hd₂ hresult hreaches hread ⊢
        rcases r with ⟨e | x, d₂⟩
        · exact ⟨hd₂.names, hnone, fun _ h ↦ Option.some.inj h ▸ hresult⟩
        · obtain ⟨hnames, hentries, herror⟩ := ih hreaches.toStands hd₂
          refine ⟨hnames, List.forall_mem_cons.2 ⟨fun t ht ↦ ?_, hentries⟩, herror⟩
          rw [hread.metadata_eq] at ht
          exact htags t (Metadata.tags_addAll_subset .empty tags ht)

end FrontEnd
