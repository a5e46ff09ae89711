import FrontEnd.Proofs.Expr.Parsed
import FrontEnd.Proofs.Token.Tiling

/-!
# Where expressions stand

The span of an expression cuts a word out of its text. It holds the spans of the parts, which stand
in order and apart, and the span of a single word cuts out just that word (`Expr.Stands`). All
expressions that are read stand so, node by node, and if none can be read the error points at a
place of the text, too (`Expr.locates_parse`).

Two offsets carry this: where the last token ended before an expression was read, and where the last
one ends behind it. Everything that has been read in the meantime lies between them
(`Expr.Between`), so what is read first ends before what is read next starts. Parentheses leave no
trace in the tree, but they only move the two offsets further apart.
-/

namespace FrontEnd

/-- A token is the piece of the text that its span cuts out. -/
theorem Token.cuts_of_mem_scanList {text : List Char} {t : Token} (h : t ∈ scanList text) :
    t.span.Cuts text t.text :=
  (tiles_scanFrom 0 text).cuts byteLength_nil.symm t h

/-! ### Places between tokens -/

namespace Cursor

variable {text : List Char} {c : Cursor}

/-- **A place between the tokens of a text**: the last token ends there or before. -/
structure Placed (text : List Char) (c : Cursor) : Prop where
  suffix : c.rest <:+ Token.scanList text
  lastStop_le : ∀ t ∈ c.rest, c.lastStop ≤ t.span.start
  isBoundary : IsBoundary text c.lastStop

/-- A span from a token that has been read reaches to the end of the last one. -/
theorem spanFrom_eq {s : Span} (h : s.stop ≤ c.lastStop) :
    c.spanFrom s = ⟨s.start, c.lastStop⟩ := by
  rw [spanFrom, Nat.max_eq_left h]

theorem placed_start (text : List Char) : (start (Token.scanList text)).Placed text :=
  ⟨List.suffix_refl _, fun _ _ ↦ Nat.zero_le _, isBoundary_zero text⟩

namespace Placed

/-- The token at a place is one of the text, unless it is the end mark that goes on for ever. -/
theorem current_mem (h : c.Placed text) (hkind : c.current.kind ≠ .finish) :
    c.current ∈ Token.scanList text := by
  rcases c with ⟨_ | ⟨t, l⟩, s⟩
  · exact absurd rfl hkind
  · exact h.suffix.subset List.mem_cons_self

theorem cuts_current (h : c.Placed text) : c.current.span.Cuts text c.current.text := by
  rcases c with ⟨_ | ⟨t, l⟩, s⟩
  · obtain ⟨before, after, rfl, rfl⟩ := h.isBoundary
    exact ⟨before, after, rfl, rfl⟩
  · exact Token.cuts_of_mem_scanList (h.suffix.subset List.mem_cons_self)

/-- The next token begins where the last one ends, or behind it. -/
theorem le_start (h : c.Placed text) : c.lastStop ≤ c.current.span.start := by
  rcases c with ⟨_ | ⟨t, l⟩, s⟩
  · exact Nat.le_refl _
  · exact h.lastStop_le t List.mem_cons_self

theorem le_next (h : c.Placed text) : c.lastStop ≤ c.next.lastStop :=
  Nat.le_trans h.le_start h.cuts_current.le

/-- Going on leads from a place to a place. -/
theorem next (h : c.Placed text) : c.next.Placed text := by
  refine ⟨(List.tail_suffix _).trans h.suffix, fun u hu ↦ ?_, h.cuts_current.isBoundary_stop⟩
  rcases c with ⟨_ | ⟨t, l⟩, s⟩
  · exact absurd hu List.not_mem_nil
  · have hordered := (Token.tiles_scanFrom 0 text).ordered.1.sublist h.suffix.sublist
    exact (List.pairwise_cons.1 hordered).1 u hu

/-- From a place before the last token to the last token. -/
theorem cuts_spanFrom (h : c.Placed text) {s : Span} {word : List Char} (hs : s.Cuts text word)
    (hstop : s.stop ≤ c.lastStop) : ∃ word, (c.spanFrom s).Cuts text word := by
  rw [spanFrom_eq hstop]
  exact Span.exists_cuts_iff.2 ⟨hs.isBoundary_start, h.isBoundary, Nat.le_trans hs.le hstop⟩

end Placed

end Cursor

/-! ### Parsers -/

namespace Parse

variable {α β : Type} {text : List Char} {c : Cursor} {p q : Parse α} {P Q : α → Cursor → Prop}
  {k : Token.Kind}

/-- **A parser stays in a text**: it fails at a place of the text, or it reads something and goes on
to a place that is not further to the front, and both have a property. -/
def Locates (text : List Char) (p : Parse α) (c : Cursor) (Q : α → Cursor → Prop) : Prop :=
  match p c with
  | .ok (a, c') => c'.Placed text ∧ c.lastStop ≤ c'.lastStop ∧ Q a c'
  | .error e => ∃ word, e.span.Cuts text word

/-- **One parser behind another.** The second starts from a place that is not in front of the first
one's. -/
theorem Locates.bind {f : α → Parse β} {R : β → Cursor → Prop} (hp : Locates text p c P)
    (hf : ∀ a c', c'.Placed text → c.lastStop ≤ c'.lastStop → P a c' → Locates text (f a) c' R) :
    Locates text (p >>= f) c R := by
  rw [Locates] at hp
  rw [Locates, bind_apply]
  rcases hpc : p c with e | ⟨a, d⟩
  · rw [hpc] at hp
    exact hp
  · rw [hpc] at hp
    obtain ⟨hd, hle, ha⟩ := hp
    have hnext := hf a d hd hle ha
    rw [Locates] at hnext
    dsimp only
    rcases hfd : f a d with e | ⟨b, c'⟩
    · rw [hfd] at hnext
      exact hnext
    · rw [hfd] at hnext
      exact ⟨hnext.1, Nat.le_trans hle hnext.2.1, hnext.2.2⟩

theorem locates_pure {a : α} (hc : c.Placed text) (h : Q a c) : Locates text (pure a) c Q :=
  ⟨hc, Nat.le_refl _, h⟩

/-- An error is about the token at the place, and points to it. -/
theorem locates_failHere (hc : c.Placed text) : Locates text (failHere : Parse α) c Q :=
  ⟨_, hc.cuts_current⟩

theorem locates_peek {f : Token → Parse α} (h : Locates text (f c.current) c Q) :
    Locates text (peek >>= f) c Q :=
  h

theorem locates_advance (hc : c.Placed text) :
    Locates text advance c fun t c' ↦ t = c.current ∧ c' = c.next :=
  ⟨hc.next, hc.le_next, rfl, rfl⟩

theorem locates_spanFrom {s : Span} (hc : c.Placed text) :
    Locates text (spanFrom s) c fun s' c' ↦ s' = c.spanFrom s ∧ c' = c :=
  ⟨hc, Nat.le_refl _, rfl, rfl⟩

theorem locates_at? (hc : c.Placed text) :
    Locates text (at? k) c fun b c' ↦ b = decide (c.current.kind = k) ∧ c' = c :=
  ⟨hc, Nat.le_refl _, rfl, rfl⟩

/-- An error points to the same token, whatever is said of it. -/
theorem span_unexpectedFor (k : Token.Kind) (c : Cursor) :
    (c.unexpectedFor k).span = c.current.span := by
  rw [Cursor.unexpectedFor]
  split <;> rfl

/-- A token that is asked for is the one at the place, and reading goes on behind it. -/
theorem locates_expect (hc : c.Placed text) : Locates text (expect k) c fun t c' ↦
    t = c.current ∧ c' = c.next ∧ t.kind = k := by
  by_cases hkind : c.current.kind = k
  · rw [Locates, expect, if_pos hkind]
    exact ⟨hc.next, hc.le_next, rfl, rfl, hkind⟩
  · rw [Locates, expect, if_neg hkind]
    exact ⟨_, span_unexpectedFor k c ▸ hc.cuts_current⟩

theorem locates_eat (hc : c.Placed text) : Locates text (eat k) c fun b c' ↦
    b = true ∧ c.current.kind = k ∧ c' = c.next ∨ b = false ∧ c.current.kind ≠ k ∧ c' = c := by
  by_cases hkind : c.current.kind = k
  · rw [Locates, eat, if_pos hkind]
    exact ⟨hc.next, hc.le_next, .inl ⟨rfl, hkind, rfl⟩⟩
  · rw [Locates, eat, if_neg hkind]
    exact ⟨hc, Nat.le_refl _, .inr ⟨rfl, hkind, rfl⟩⟩

theorem locates_ifEat (hc : c.Placed text)
    (hp : c.current.kind = k → Locates text p c.next Q)
    (hq : c.current.kind ≠ k → Locates text q c Q) :
    Locates text (eat k >>= fun b ↦ if b = true then p else q) c Q := by
  refine (locates_eat hc).bind ?_
  rintro b c' - - (⟨rfl, hkind, rfl⟩ | ⟨rfl, hkind, rfl⟩)
  · exact hp hkind
  · exact hq hkind

end Parse

open Parse

/-- A label is read from place to place. Nothing is said of the type, since it has no span. -/
theorem Ty.locates_label {text : List Char} {c : Cursor} (hc : c.Placed text) :
    Locates text label c fun _ _ ↦ True := by
  obtain ⟨tokens, lastStop⟩ := c
  rw [Locates, label]
  dsimp only
  fun_induction labelFrom lastStop tokens with
  | case1 => exact ⟨_, hc.cuts_current⟩
  | case2 lastStop t ts s hkind => exact ⟨hc.next, hc.le_next, trivial⟩
  | case3 lastStop t hkind => exact ⟨_, hc.next.cuts_current⟩
  | case4 lastStop t hkind u us hconst a c h ih =>
    obtain ⟨hplaced, hle, -⟩ := h ▸ ih hc.next.next
    exact ⟨hplaced, Nat.le_trans (Nat.le_trans hc.le_next hc.next.le_next) hle, trivial⟩
  | case5 lastStop t hkind u us hconst e h ih =>
    have herror := ih hc.next.next
    rw [h] at herror
    exact herror
  | case6 lastStop t hkind u us hconst a c h ih =>
    obtain ⟨hplaced, hle, -⟩ := h ▸ ih hc.next
    exact ⟨hplaced, Nat.le_trans hc.le_next hle, trivial⟩
  | case7 lastStop t hkind u us hconst e h ih =>
    have herror := ih hc.next
    rw [h] at herror
    exact herror
  | case8 lastStop t ts hscalar hstar => exact ⟨_, hc.cuts_current⟩

/-! ### Nodes and their parts -/

namespace Expr

/-- What a token has to be for an expression to be just that token. -/
def IsToken (t : Token) : Expr → Prop
  | constant _ value => constantOf? t = some (.ok value)
  | ident _ name _ => t.kind = .ident ∧ t.text = name.toList
  | _ => True

/-- **An expression stands in a text.** Its span cuts something out, and what it is made of lies
inside, in order and apart; if it is not made of anything, its span is that of a token which is
spelled so. -/
structure Stands (text : List Char) (e : Expr) : Prop where
  cuts : ∃ word, e.span.Cuts text word
  within : ∀ x ∈ e.parts, x.span.Within e.span
  ordered : e.parts.Pairwise fun x y ↦ x.span.Before y.span
  token : e.parts = [] → ∃ t ∈ Token.scanList text,
    t.span = e.span ∧ e.span.Cuts text t.text ∧ e.IsToken t

/-- An expression is **placed** in a text if all of it stands there. -/
def Placed (text : List Char) (e : Expr) : Prop :=
  ∀ x ∈ e.nodes, x.Stands text

/-- The symbol that an expression was found to name. -/
def symbol? : Expr → Option Nat
  | ident _ _ symbol => symbol
  | _ => none

/-- Nothing in an expression has been looked up. -/
def Unresolved (e : Expr) : Prop :=
  ∀ x ∈ e.nodes, x.symbol? = none

section Nodes

variable {text : List Char} {e : Expr}

theorem Placed.stands (h : e.Placed text) : e.Stands text :=
  h e (nodes_eq e ▸ List.mem_cons_self)

/-- The parts of a tree that is placed are placed. -/
theorem Placed.part {x : Expr} (h : e.Placed text) (hx : x ∈ e.parts) : x.Placed text :=
  fun y hy ↦ h y (nodes_subset_of_mem_parts hx hy)

theorem Placed.le (h : e.Placed text) : e.span.start ≤ e.span.stop := by
  obtain ⟨word, hword⟩ := h.stands.cuts
  exact hword.le

end Nodes

/-! ### What has been read between two offsets -/

/-- **Expressions have been read one behind another** between two offsets. -/
structure Between (text : List Char) (lo hi : Nat) (es : List Expr) : Prop where
  placed : ∀ e ∈ es, e.Placed text
  unresolved : ∀ e ∈ es, e.Unresolved
  ordered : es.Pairwise fun e f ↦ e.span.Before f.span
  le_start : ∀ e ∈ es, lo ≤ e.span.start
  stop_le : ∀ e ∈ es, e.span.stop ≤ hi

namespace Between

variable {text : List Char} {lo lo' mid hi hi' : Nat} {e : Expr} {es : List Expr}

theorem nil (text : List Char) (lo hi : Nat) : Between text lo hi [] :=
  ⟨by simp, by simp, .nil, by simp, by simp⟩

/-- What is between two offsets is between any that are further apart. -/
theorem widen (h : Between text lo hi es) (hlo : lo' ≤ lo) (hhi : hi ≤ hi') :
    Between text lo' hi' es where
  placed := h.placed
  unresolved := h.unresolved
  ordered := h.ordered
  le_start e he := Nat.le_trans hlo (h.le_start e he)
  stop_le e he := Nat.le_trans (h.stop_le e he) hhi

theorem single (hplaced : e.Placed text) (hunresolved : e.Unresolved) (hlo : lo ≤ e.span.start)
    (hhi : e.span.stop ≤ hi) : Between text lo hi [e] where
  placed := List.forall_mem_singleton.2 hplaced
  unresolved := List.forall_mem_singleton.2 hunresolved
  ordered := List.pairwise_singleton _ _
  le_start := List.forall_mem_singleton.2 hlo
  stop_le := List.forall_mem_singleton.2 hhi

/-- What is between two offsets and what is between the second and a third one stand in this
order. -/
theorem cons (h : Between text lo mid [e]) (h' : Between text mid hi es) (hlo : lo ≤ mid)
    (hhi : mid ≤ hi) : Between text lo hi (e :: es) where
  placed := List.forall_mem_cons.2 ⟨h.placed e List.mem_cons_self, h'.placed⟩
  unresolved := List.forall_mem_cons.2 ⟨h.unresolved e List.mem_cons_self, h'.unresolved⟩
  ordered := List.pairwise_cons.2
    ⟨fun f hf ↦ Nat.le_trans (h.stop_le e List.mem_cons_self) (h'.le_start f hf), h'.ordered⟩
  le_start := List.forall_mem_cons.2 ⟨h.le_start e List.mem_cons_self,
    fun f hf ↦ Nat.le_trans hlo (h'.le_start f hf)⟩
  stop_le := List.forall_mem_cons.2 ⟨Nat.le_trans (h.stop_le e List.mem_cons_self) hhi, h'.stop_le⟩

/-- What stands in order can be taken apart. -/
theorem of_append {fs : List Expr} (h : Between text lo hi (es ++ fs)) : Between text lo hi es ∧
    Between text lo hi fs ∧ ∀ e ∈ es, ∀ f ∈ fs, e.span.Before f.span := by
  obtain ⟨hes, hfs, hacross⟩ := List.pairwise_append.1 h.ordered
  refine ⟨⟨?_, ?_, hes, ?_, ?_⟩, ⟨?_, ?_, hfs, ?_, ?_⟩, hacross⟩
  · exact (List.forall_mem_append.1 h.placed).1
  · exact (List.forall_mem_append.1 h.unresolved).1
  · exact (List.forall_mem_append.1 h.le_start).1
  · exact (List.forall_mem_append.1 h.stop_le).1
  · exact (List.forall_mem_append.1 h.placed).2
  · exact (List.forall_mem_append.1 h.unresolved).2
  · exact (List.forall_mem_append.1 h.le_start).2
  · exact (List.forall_mem_append.1 h.stop_le).2

theorem le (h : Between text lo hi [e]) : lo ≤ hi :=
  Nat.le_trans (h.le_start e List.mem_cons_self)
    (Nat.le_trans (h.placed e List.mem_cons_self).le (h.stop_le e List.mem_cons_self))

/-- One expression between its own ends. -/
theorem self (h : Between text lo hi [e]) : Between text e.span.start e.span.stop [e] :=
  single (h.placed e List.mem_cons_self) (h.unresolved e List.mem_cons_self) (Nat.le_refl _)
    (Nat.le_refl _)

/-- **To put parts together**: what holds them all between its ends is placed with them. -/
theorem node (h : Between text lo hi e.parts) (hne : e.parts ≠ []) (hsymbol : e.symbol? = none)
    (hcuts : ∃ word, e.span.Cuts text word) (hlo : e.span.start ≤ lo) (hhi : hi ≤ e.span.stop) :
    e.Placed text ∧ e.Unresolved := by
  have hstands : e.Stands text := by
    refine ⟨hcuts, fun x hx ↦ ?_, h.ordered, fun h ↦ absurd h hne⟩
    exact ⟨Nat.le_trans hlo (h.le_start x hx), Nat.le_trans (h.stop_le x hx) hhi⟩
  exact ⟨forall_mem_nodes hstands h.placed, forall_mem_nodes hsymbol h.unresolved⟩

end Between

variable {text : List Char} {c : Cursor}

/-! ### Single words -/

/-- A literal that cannot be read is pointed to as a whole. -/
theorem span_of_ofToken?_error {t : Token} {err : ParseError} (h : ofToken? t = some (.error err)) :
    err.span = t.span := by
  rw [ofToken?] at h
  split at h
  · cases h
  · obtain ⟨r, -, hr⟩ := Option.map_eq_some_iff.1 h
    cases r with
    | ok value => cases hr
    | error cause =>
      obtain rfl := Except.error.inj hr
      rfl

theorem isToken_of_ofToken? {t : Token} {e : Expr} (h : ofToken? t = some (.ok e)) :
    e.span = t.span ∧ e.IsToken t ∧ e.parts = [] ∧ e.symbol? = none ∧ t.kind ≠ .finish := by
  rw [ofToken?] at h
  split at h
  · rename_i hkind
    obtain rfl := Except.ok.inj (Option.some.inj h)
    exact ⟨rfl, ⟨hkind, String.toList_ofList.symm⟩, rfl, rfl, hkind ▸ by decide⟩
  · obtain ⟨r, hconstant, hr⟩ := Option.map_eq_some_iff.1 h
    cases r with
    | ok value =>
      obtain rfl := Except.ok.inj hr
      refine ⟨rfl, hconstant, rfl, rfl, fun hkind ↦ ?_⟩
      rw [constantOf?, hkind] at hconstant
      cases hconstant
    | error cause => cases hr

/-- An expression that is a single token stands where the token does. -/
theorem between_ofToken? (hc : c.Placed text) {e : Expr} (h : ofToken? c.current = some (.ok e)) :
    Between text c.lastStop c.next.lastStop [e] := by
  obtain ⟨hspan, htoken, hparts, hsymbol, hkind⟩ := isToken_of_ofToken? h
  have hcuts : e.span.Cuts text c.current.text := hspan ▸ hc.cuts_current
  have hnone : ∀ y ∈ e.parts, False := by simp [hparts]
  refine .single (forall_mem_nodes ?_ fun y hy ↦ absurd hy (hnone y))
    (forall_mem_nodes hsymbol fun y hy ↦ absurd hy (hnone y)) ?_ ?_
  · refine ⟨⟨_, hcuts⟩, fun y hy ↦ absurd hy (hnone y), ?_, fun _ ↦ ?_⟩
    · rw [hparts]
      exact .nil
    · exact ⟨c.current, hc.current_mem hkind, hspan.symm, hcuts, htoken⟩
  · rw [hspan]
    exact hc.le_start
  · rw [hspan]
    exact Nat.le_refl _

end Expr

/-! ### Rows -/

namespace OpTree

variable {text : List Char} {lo hi : Nat}

/-- Operands come in from the right, so the leaves stay in the order of the text. -/
theorem leaves_attach (op : BinOp) (e : Expr) (t : OpTree) :
    (attach op e t).leaves = t.leaves ++ [e] := by
  induction t with
  | leaf _ => rfl
  | node op' l r _ ih =>
    rw [attach]
    split
    · rw [leaves, leaves, ih, List.append_assoc]
    · rfl

theorem leaves_foldl_attach (more : List (BinOp × Expr)) (t : OpTree) :
    (more.foldl (fun tree p ↦ attach p.1 p.2 tree) t).leaves = t.leaves ++ more.map (·.2) := by
  induction more generalizing t with
  | nil => exact (List.append_nil _).symm
  | cons p more ih => rw [List.foldl_cons, ih, leaves_attach, List.append_assoc]; rfl

/-- A group starts where one of its operands starts. -/
theorem exists_start_eq (t : OpTree) : ∃ e ∈ t.leaves, t.toExpr.span.start = e.span.start := by
  induction t with
  | leaf e => exact ⟨e, List.mem_singleton_self e, rfl⟩
  | node op l r ihl ihr =>
    obtain ⟨a, ha, hla⟩ := ihl
    obtain ⟨b, hb, hrb⟩ := ihr
    have hspan : (node op l r).toExpr.span.start =
        min l.toExpr.span.start r.toExpr.span.start := rfl
    rcases Nat.le_total l.toExpr.span.start r.toExpr.span.start with h | h
    · exact ⟨a, List.mem_append_left _ ha, by rw [hspan, Nat.min_eq_left h, hla]⟩
    · exact ⟨b, List.mem_append_right _ hb, by rw [hspan, Nat.min_eq_right h, hrb]⟩

/-- A group ends where one of its operands ends. -/
theorem exists_stop_eq (t : OpTree) : ∃ e ∈ t.leaves, t.toExpr.span.stop = e.span.stop := by
  induction t with
  | leaf e => exact ⟨e, List.mem_singleton_self e, rfl⟩
  | node op l r ihl ihr =>
    obtain ⟨a, ha, hla⟩ := ihl
    obtain ⟨b, hb, hrb⟩ := ihr
    have hspan : (node op l r).toExpr.span.stop =
        max l.toExpr.span.stop r.toExpr.span.stop := rfl
    rcases Nat.le_total l.toExpr.span.stop r.toExpr.span.stop with h | h
    · exact ⟨b, List.mem_append_right _ hb, by rw [hspan, Nat.max_eq_right h, hrb]⟩
    · exact ⟨a, List.mem_append_left _ ha, by rw [hspan, Nat.max_eq_left h, hla]⟩

/-- **A grouped row stands where its operands stand.** -/
theorem between_toExpr {t : OpTree} (h : Expr.Between text lo hi t.leaves) :
    Expr.Between text lo hi [t.toExpr] := by
  induction t with
  | leaf e => exact h
  | node op l r ihl ihr =>
    obtain ⟨hl, hr, hacross⟩ := h.of_append
    have hlhs := ihl hl
    have hrhs := ihr hr
    obtain ⟨a, ha, hstop⟩ := l.exists_stop_eq
    obtain ⟨b, hb, hstart⟩ := r.exists_start_eq
    have hbefore : l.toExpr.span.stop ≤ r.toExpr.span.start := by
      rw [hstop, hstart]
      exact hacross a ha b hb
    have hle := (hlhs.placed _ List.mem_cons_self).le
    have hle' := (hrhs.placed _ List.mem_cons_self).le
    have hspan : (node op l r).toExpr.span = ⟨l.toExpr.span.start, r.toExpr.span.stop⟩ := by
      show Span.merge _ _ = _
      rw [Span.merge, Nat.min_eq_left (by omega), Nat.max_eq_right (by omega)]
    obtain ⟨word, hword⟩ := (hlhs.placed _ List.mem_cons_self).stands.cuts
    obtain ⟨word', hword'⟩ := (hrhs.placed _ List.mem_cons_self).stands.cuts
    have hparts : Expr.Between text l.toExpr.span.start r.toExpr.span.stop
        (node op l r).toExpr.parts :=
      hlhs.self.cons (hrhs.self.widen hbefore (Nat.le_refl _)) hle (by omega)
    have hcuts : ∃ word, (node op l r).toExpr.span.Cuts text word := by
      rw [hspan]
      refine Span.exists_cuts_iff.2 ⟨hword.isBoundary_start, hword'.isBoundary_stop, ?_⟩
      show l.toExpr.span.start ≤ r.toExpr.span.stop
      omega
    obtain ⟨hplaced, hunresolved⟩ := hparts.node (List.cons_ne_nil _ _) rfl hcuts
      (hspan ▸ Nat.le_refl _) (hspan ▸ Nat.le_refl _)
    refine .single hplaced hunresolved ?_ ?_
    · rw [hspan]
      exact hlhs.le_start _ List.mem_cons_self
    · rw [hspan]
      exact hrhs.stop_le _ List.mem_cons_self

end OpTree

/-! ### The grammar -/

namespace Expr

variable {text : List Char} {lo : Nat} {c : Cursor}

/-- **A row stands where its operands do**, however it is grouped, since grouping keeps their
order. -/
theorem between_ofRow {hi : Nat} {first : Expr} {more : List (BinOp × Expr)}
    (h : Between text lo hi (first :: more.map (·.2))) :
    Between text lo hi [ofRow first more] := by
  refine OpTree.between_toExpr ?_
  rw [OpTree.leaves_foldl_attach]
  exact h

/-- **A node that goes on to the last token** and starts before its parts. -/
theorem between_spanFrom {e : Expr} {s : Span} {word : List Char} (hc : c.Placed text)
    (h : Between text s.start c.lastStop e.parts) (hne : e.parts ≠ []) (hsymbol : e.symbol? = none)
    (hs : s.Cuts text word) (hlo : lo ≤ s.start) (hstop : s.stop ≤ c.lastStop)
    (hspan : e.span = c.spanFrom s) : Between text lo c.lastStop [e] := by
  have hmax : e.span = ⟨s.start, c.lastStop⟩ := hspan.trans (Cursor.spanFrom_eq hstop)
  have hcuts : ∃ word, e.span.Cuts text word := hspan ▸ hc.cuts_spanFrom hs hstop
  obtain ⟨hplaced, hunresolved⟩ := h.node hne hsymbol hcuts (hmax ▸ Nat.le_refl _)
    (hmax ▸ Nat.le_refl _)
  refine .single hplaced hunresolved ?_ ?_
  · rw [hmax]
    exact hlo
  · exact hmax ▸ Nat.le_refl _

/-- A node that starts where its first part does. -/
theorem between_spanFrom_first {e f : Expr} {es : List Expr} (hc : c.Placed text)
    (h : Between text lo c.lastStop (f :: es)) (hparts : e.parts = f :: es)
    (hsymbol : e.symbol? = none) (hspan : e.span = c.spanFrom f.span) :
    Between text lo c.lastStop [e] := by
  obtain ⟨word, hword⟩ := (h.placed f List.mem_cons_self).stands.cuts
  refine between_spanFrom hc ?_ (by simp [hparts]) hsymbol hword
    (h.le_start f List.mem_cons_self) (h.stop_le f List.mem_cons_self) hspan
  rw [hparts]
  refine ⟨h.placed, h.unresolved, h.ordered, ?_, h.stop_le⟩
  refine List.forall_mem_cons.2 ⟨Nat.le_refl _, fun x hx ↦ ?_⟩
  exact Nat.le_trans hword.le ((List.pairwise_cons.1 h.ordered).1 x hx)

/-- A cast begins where its operand does and ends behind its label. -/
theorem locates_casts (n : Nat) {e : Expr} (hc : c.Placed text)
    (he : Between text lo c.lastStop [e]) :
    Locates text (casts n e) c fun e' c' ↦ Between text lo c'.lastStop [e'] := by
  induction n generalizing e c with
  | zero => exact locates_failHere hc
  | succ n ih =>
    refine locates_ifEat hc (fun _ ↦ ?_) fun _ ↦ locates_pure hc he
    refine (Ty.locates_label hc.next).bind fun dest c₁ hc₁ hle₁ _ ↦ ?_
    refine (locates_spanFrom hc₁).bind ?_
    rintro _ _ - - ⟨rfl, rfl⟩
    refine ih hc₁ (between_spanFrom_first hc₁ (he.widen (Nat.le_refl _) ?_) rfl rfl rfl)
    exact Nat.le_trans hc.le_next hle₁

/-- The readers stay in the text as long as they make at most `n` calls into each other. -/
structure LocatesTo (n : Nat) : Prop where
  parse {text : List Char} {c : Cursor} : c.Placed text → Locates text (parseTo n) c
    fun e c' ↦ Between text c.lastStop c'.lastStop [e]
  row {text : List Char} {c : Cursor} : c.Placed text → Locates text (rowTo n) c
    fun more c' ↦ Between text c.lastStop c'.lastStop (more.map (·.2))
  operand {text : List Char} {c : Cursor} : c.Placed text → Locates text (operandTo n) c
    fun e c' ↦ Between text c.lastStop c'.lastStop [e]
  calls {text : List Char} {c : Cursor} {lo : Nat} {f : Expr} : c.Placed text →
    Between text lo c.lastStop [f] → Locates text (callsTo n f) c
      fun e c' ↦ Between text lo c'.lastStop [e]
  arguments {text : List Char} {c : Cursor} : c.Placed text → Locates text (argumentsTo n) c
    fun args c' ↦ Between text c.lastStop c'.lastStop args
  moreArguments {text : List Char} {c : Cursor} : c.Placed text →
    Locates text (moreArgumentsTo n) c fun args c' ↦ Between text c.lastStop c'.lastStop args
  atom {text : List Char} {c : Cursor} : c.Placed text → Locates text (atomTo n) c
    fun e c' ↦ Between text c.lastStop c'.lastStop [e]

theorem locatesTo_zero : LocatesTo 0 where
  parse := locates_failHere
  row := locates_failHere
  operand := locates_failHere
  calls hc _ := locates_failHere hc
  arguments := locates_failHere
  moreArguments := locates_failHere
  atom := locates_failHere

namespace LocatesTo

variable {n : Nat}

/-- With one more call an expression is placed: first its operands and then the casts behind it. -/
theorem succ_parse (h : LocatesTo n) (hc : c.Placed text) : Locates text (parseTo (n + 1)) c
    fun e c' ↦ Between text c.lastStop c'.lastStop [e] := by
  rw [parseTo]
  refine (h.operand hc).bind fun first c₁ hc₁ hle₁ hfirst ↦ ?_
  refine (h.row hc₁).bind fun more c₂ hc₂ hle₂ hmore ↦ ?_
  exact locates_casts n hc₂ (between_ofRow (hfirst.cons hmore hle₁ hle₂))

theorem succ_row (h : LocatesTo n) (hc : c.Placed text) : Locates text (rowTo (n + 1)) c
    fun more c' ↦ Between text c.lastStop c'.lastStop (more.map (·.2)) := by
  rw [rowTo]
  refine locates_peek ?_
  rcases BinOp.ofKind? c.current.kind with _ | op
  · exact locates_pure hc (.nil _ _ _)
  · refine (locates_advance hc).bind ?_
    rintro _ _ - hle ⟨rfl, rfl⟩
    refine (h.operand hc.next).bind fun e c₁ hc₁ hle₁ he ↦ ?_
    refine (h.row hc₁).bind fun more c₂ hc₂ hle₂ hmore ↦ ?_
    exact locates_pure hc₂ ((he.cons hmore hle₁ hle₂).widen hle (Nat.le_refl _))

theorem succ_operand (h : LocatesTo n) (hc : c.Placed text) :
    Locates text (operandTo (n + 1)) c fun e c' ↦ Between text c.lastStop c'.lastStop [e] := by
  rw [operandTo]
  refine locates_peek ?_
  rcases UnaryOp.ofKind? c.current.kind with _ | op
  · exact (h.atom hc).bind fun e c₁ hc₁ _ he ↦ h.calls hc₁ he
  · refine (locates_advance hc).bind ?_
    rintro _ _ - - ⟨rfl, rfl⟩
    refine (h.operand hc.next).bind fun e c₁ hc₁ hle₁ he ↦ ?_
    refine (locates_spanFrom hc₁).bind ?_
    rintro _ _ - - ⟨rfl, rfl⟩
    refine locates_pure hc₁ (between_spanFrom hc₁ ?_ (List.cons_ne_nil e []) rfl hc.cuts_current
      hc.le_start hle₁ rfl)
    exact he.widen hc.cuts_current.le (Nat.le_refl _)

/-- The first list of arguments belongs to the function, the next one to this call, and so on. -/
theorem succ_calls (h : LocatesTo n) {f : Expr} (hc : c.Placed text)
    (hf : Between text lo c.lastStop [f]) : Locates text (callsTo (n + 1) f) c
      fun e c' ↦ Between text lo c'.lastStop [e] := by
  rw [callsTo]
  refine locates_ifEat hc (fun _ ↦ ?_) fun _ ↦ locates_pure hc hf
  refine (h.arguments hc.next).bind fun args c₁ hc₁ hle₁ hargs ↦ ?_
  refine (locates_spanFrom hc₁).bind ?_
  rintro _ _ - - ⟨rfl, rfl⟩
  refine h.calls hc₁ (between_spanFrom_first hc₁ ?_ rfl rfl rfl)
  exact hf.cons (hargs.widen hc.le_next (Nat.le_refl _)) hf.le (Nat.le_trans hc.le_next hle₁)

theorem succ_arguments (h : LocatesTo n) (hc : c.Placed text) :
    Locates text (argumentsTo (n + 1)) c
      fun args c' ↦ Between text c.lastStop c'.lastStop args := by
  rw [argumentsTo]
  refine locates_ifEat hc (fun _ ↦ locates_pure hc.next (.nil _ _ _)) fun _ ↦ ?_
  refine (h.parse hc).bind fun e c₁ hc₁ hle₁ he ↦ ?_
  refine (h.moreArguments hc₁).bind fun more c₂ hc₂ hle₂ hmore ↦ ?_
  exact locates_pure hc₂ (he.cons hmore hle₁ hle₂)

theorem succ_moreArguments (h : LocatesTo n) (hc : c.Placed text) :
    Locates text (moreArgumentsTo (n + 1)) c
      fun args c' ↦ Between text c.lastStop c'.lastStop args := by
  rw [moreArgumentsTo]
  refine locates_ifEat hc (fun _ ↦ ?_) fun _ ↦ ?_
  · refine (h.parse hc.next).bind fun e c₁ hc₁ hle₁ he ↦ ?_
    refine (h.moreArguments hc₁).bind fun more c₂ hc₂ hle₂ hmore ↦ ?_
    exact locates_pure hc₂ ((he.cons hmore hle₁ hle₂).widen hc.le_next (Nat.le_refl _))
  · exact (locates_expect hc).bind fun _ _ hc₁ _ _ ↦ locates_pure hc₁ (.nil _ _ _)

/-- In parentheses an expression keeps its own span, which is between the two. -/
theorem succ_atom (h : LocatesTo n) (hc : c.Placed text) : Locates text (atomTo (n + 1)) c
    fun e c' ↦ Between text c.lastStop c'.lastStop [e] := by
  rw [atomTo]
  refine locates_peek ?_
  rcases htoken : ofToken? c.current with _ | err | e
  · refine locates_ifEat hc (fun _ ↦ ?_) fun _ ↦ locates_failHere hc
    refine (h.parse hc.next).bind fun e c₁ hc₁ _ he ↦ ?_
    refine (locates_expect hc₁).bind ?_
    rintro _ _ hc₂ hle₂ -
    exact locates_pure hc₂ (he.widen hc.le_next hle₂)
  · exact ⟨_, span_of_ofToken?_error htoken ▸ hc.cuts_current⟩
  · refine (locates_advance hc).bind ?_
    rintro _ _ hc₁ - ⟨rfl, rfl⟩
    exact locates_pure hc₁ (between_ofToken? hc htoken)

end LocatesTo

/-- So all that is read is placed, whatever the bound on calls. -/
theorem locatesTo (n : Nat) : LocatesTo n := by
  induction n with
  | zero => exact locatesTo_zero
  | succ n ih =>
    exact ⟨ih.succ_parse, ih.succ_row, ih.succ_operand, ih.succ_calls, ih.succ_arguments,
      ih.succ_moreArguments, ih.succ_atom⟩

/-- **What is read stands where it was read**, between the token before it and its last token. -/
theorem locates_parse (hc : c.Placed text) : Locates text parse c
    fun e c' ↦ Between text c.lastStop c'.lastStop [e] :=
  (locatesTo _).parse hc

end Expr

end FrontEnd
