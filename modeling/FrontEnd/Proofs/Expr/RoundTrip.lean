import FrontEnd.Proofs.Expr.Printing
import FrontEnd.Proofs.Grammar.Expressions

/-!
# Reading an expression undoes writing it

A phrase that has been written is read as the expression that it stands for
(`Expr.parse_text`), whatever operators, calls and casts it is made of and however deep it is. So
the parentheses that writing leaves out were not needed, and those that it keeps have no effect
beyond grouping.

The reader meets its words from left to right, and the proof follows it with the parts that a phrase
has been taken apart into: a row and the casts behind it, an operand and the calls behind it,
arguments and what follows them. Each function of the reader has to know what stands behind its
words, and needs a bound on its calls that the number of words gives; both are as in the proof that
every word of the grammar is read.
-/

namespace FrontEnd

open Grammar

/-! ### Written words -/

/-- **The tokens `l` begin with words**, behind which the tokens `l'` stand. -/
def Writes (ws : List Lexeme) (l l' : List Token) : Prop :=
  ∃ ts, l = ts ++ l' ∧ ts.map Token.lexeme = ws

section Writes

variable {w : Lexeme} {ws vs : List Lexeme} {l l' : List Token}

theorem writes_nil (h : Writes [] l l') : l = l' := by
  obtain ⟨ts, rfl, hts⟩ := h
  rw [List.map_eq_nil_iff.1 hts, List.nil_append]

theorem writes_cons (h : Writes (w :: ws) l l') :
    ∃ t m, l = t :: m ∧ t.lexeme = w ∧ Writes ws m l' := by
  obtain ⟨ts, rfl, hts⟩ := h
  obtain ⟨t, ts, rfl, ht, hts⟩ := List.map_eq_cons_iff.1 hts
  exact ⟨t, ts ++ l', rfl, ht, ts, rfl, hts⟩

/-- What has been written in two parts can be taken apart. -/
theorem writes_append (h : Writes (ws ++ vs) l l') : ∃ m, Writes ws l m ∧ Writes vs m l' := by
  obtain ⟨ts, rfl, hts⟩ := h
  obtain ⟨ts, us, rfl, hts, hus⟩ := List.map_eq_append_iff.1 hts
  exact ⟨us ++ l', ⟨ts, List.append_assoc .., hts⟩, us, rfl, hus⟩

theorem Writes.firstKind_eq (h : Writes (w :: ws) l l') : firstKind l = w.kind := by
  obtain ⟨t, m, rfl, rfl, -⟩ := writes_cons h
  rfl

/-- Every word is one token. -/
theorem Writes.length_eq (h : Writes ws l l') : l.length = ws.length + l'.length := by
  obtain ⟨ts, rfl, rfl⟩ := h
  rw [List.length_append, List.length_map]

end Writes

open Parse

/-! ### Single tokens and labels -/

theorem Label.kind_ne_const (d : Label) {l l' : List Token} (h : Writes d.words l l') :
    ∃ t m, l = t :: m ∧ t.kind ≠ .keyword .const := by
  have hhead : ∃ w ws, d.words = w :: ws ∧ w.kind ≠ .keyword .const := by
    fun_cases words d with
    | case1 s => exact ⟨_, _, rfl, by simp [Lexeme.scalar]⟩
    | case2 target => exact ⟨_, _, rfl, by decide⟩
    | case3 target => exact ⟨_, _, rfl, by decide⟩
  obtain ⟨w, ws, hwords, hw⟩ := hhead
  rw [hwords] at h
  obtain ⟨t, m, rfl, rfl, -⟩ := writes_cons h
  exact ⟨t, m, rfl, hw⟩

/-- **A label that has been written is read back.** The induction is on the label, as the reader
goes. -/
theorem Ty.exists_labelFrom_words {d : Label} {l l' : List Token} (h : Writes d.words l l')
    (lastStop : Nat) : ∃ s, labelFrom lastStop l = .ok (d.ty, ⟨l', s⟩) := by
  induction d generalizing l lastStop with
  | scalar s =>
    obtain ⟨t, m, rfl, ht, hm⟩ := writes_cons h
    have hkind : t.kind = .scalar s := congrArg Lexeme.kind ht
    rw [writes_nil hm, labelFrom.eq_def]
    simp only [hkind]
    exact ⟨_, rfl⟩
  | pointer isConst target ih =>
    cases isConst with
    | true =>
      obtain ⟨t, m, rfl, ht, hm⟩ := writes_cons h
      obtain ⟨u, m, rfl, hu, hm⟩ := writes_cons hm
      have hstar : t.kind = .sign .star := congrArg Lexeme.kind ht
      have hconst : u.kind = .keyword .const := congrArg Lexeme.kind hu
      obtain ⟨s, hs⟩ := ih hm u.span.stop
      rw [labelFrom, hstar]
      dsimp only
      rw [if_pos hconst, hs]
      exact ⟨s, rfl⟩
    | false =>
      obtain ⟨t, m, rfl, ht, hm⟩ := writes_cons h
      have hstar : t.kind = .sign .star := congrArg Lexeme.kind ht
      obtain ⟨s, hs⟩ := ih hm t.span.stop
      obtain ⟨u, us, rfl, hconst⟩ := target.kind_ne_const hm
      rw [labelFrom, hstar]
      dsimp only
      rw [if_neg hconst, hs]
      exact ⟨s, rfl⟩

theorem Ty.finds_label {d : Label} {l l' : List Token} (h : Writes d.words l l') :
    Finds label l l' (· = d.ty) := by
  rintro ⟨_, s⟩ rfl
  obtain ⟨s', hs'⟩ := exists_labelFrom_words h s
  exact ⟨d.ty, _, hs', rfl, rfl⟩

namespace Atom

theorem kind_lexeme_mem (a : Atom) : a.lexeme.kind ∈ atoms := by
  cases a with
  | bool b => cases b <;> decide
  | _ => simp [lexeme, Lexeme.int, Lexeme.rune, Lexeme.keyword, atoms]

/-- A literal that has a value is read as an expression that is this value. -/
theorem exists_ofToken?_constant {t : Token} {v : Constant} (hkind : t.kind ≠ .ident)
    (h : Expr.constantOf? t = some (.ok v)) :
    ∃ e, Expr.ofToken? t = some (.ok e) ∧ e.plain = .constant default v := by
  refine ⟨.constant ⟨t.span, v.type?⟩ v, ?_, rfl⟩
  rw [Expr.ofToken?, if_neg hkind, h]
  rfl

theorem rune?_text (c : Char) : Literal.rune? (Lexeme.rune c).text = some c := by
  rw [Lexeme.rune]
  dsimp only
  split
  · rename_i code hcode
    exact Lexeme.value?_of_code? hcode
  · rename_i hcode
    exact Literal.rune?_plain (Lexeme.ne_of_code?_eq_none hcode).2

/-- **A single word is read as what it stands for.** -/
theorem exists_ofToken? (a : Atom) {t : Token} (h : t.lexeme = a.lexeme) :
    ∃ e, Expr.ofToken? t = some (.ok e) ∧ e.plain = a.expr := by
  have hkind : t.kind = a.lexeme.kind := congrArg Lexeme.kind h
  have htext : t.text = a.lexeme.text := congrArg Lexeme.text h
  cases a with
  | name n =>
    refine ⟨.ident (.untyped t.span) t.word none, if_pos hkind, ?_⟩
    rw [Token.word, htext]
    rfl
  | int value =>
    refine exists_ofToken?_constant (hkind ▸ by simp [lexeme, Lexeme.int]) ?_
    have hvalue : Literal.integer t.text = .ok value.toNat :=
      htext ▸ Literal.integer_toDigits value.toNat_lt
    simp only [Expr.constantOf?, hkind, lexeme, Lexeme.int, hvalue]
  | float f =>
    refine exists_ofToken?_constant (hkind ▸ by simp [lexeme]) ?_
    have hvalue : Literal.float t.text = .ok f.value := htext ▸ f.float_text
    simp only [Expr.constantOf?, hkind, lexeme, hvalue]
  | rune c =>
    refine exists_ofToken?_constant (hkind ▸ by simp [lexeme, Lexeme.rune]) ?_
    have hvalue : Literal.rune? t.text = some c := htext ▸ rune?_text c
    simp only [Expr.constantOf?, hkind, lexeme, Lexeme.rune, hvalue]
  | bool b =>
    cases b <;> refine exists_ofToken?_constant (hkind ▸ by decide) ?_ <;>
      simp only [Expr.constantOf?, hkind, lexeme, Lexeme.keyword]
  | null =>
    refine exists_ofToken?_constant (hkind ▸ by decide) ?_
    simp only [Expr.constantOf?, hkind, lexeme, Lexeme.keyword]

end Atom

/-! ### What stands behind -/

namespace Phrase

theorem words_ne_nil (p : Phrase) : p.words ≠ [] := by
  cases p <;> simp [words]

theorem length_wordsAt_pos (m : Nat) (p : Phrase) : 0 < (p.wordsAt m).length := by
  rw [wordsAt, enclosed]
  split
  · exact Nat.succ_pos _
  · exact List.length_pos_iff.2 p.words_ne_nil

variable {l l' : List Token}

/-- Behind an expression comes a cast, or what comes behind its casts. -/
theorem firstKind_castWords {ds : List Label} (h : Writes (castWords ds) l l') :
    l = l' ∨ firstKind l = .keyword .as := by
  cases ds with
  | nil => exact .inl (writes_nil h)
  | cons d ds => exact .inr h.firstKind_eq

/-- Behind an operand there is an operator, or what is behind the row. -/
theorem firstKind_rowWords {items : List (BinOp × Phrase)} (h : Writes (rowWords items) l l')
    (hnext : firstKind l' ∉ .sign .leftParen :: binaryOperators) :
    firstKind l ≠ .sign .leftParen := by
  cases items with
  | nil =>
    obtain rfl := writes_nil h
    exact fun h ↦ hnext (h ▸ List.mem_cons_self)
  | cons p items =>
    have hkind : firstKind l = p.1.word.kind := h.firstKind_eq
    rw [hkind]
    cases p.1 <;> decide

/-- An operand that takes arguments begins with a parenthesis or is a single word. -/
theorem firstKind_head {p : Phrase} (h : Writes (p.head.wordsAt 7) l l') :
    firstKind l ∈ .sign .leftParen :: atoms := by
  rcases p.head_cases with ⟨a, ha⟩ | hwords
  · rw [ha] at h
    have hkind : firstKind l = a.lexeme.kind := h.firstKind_eq
    rw [hkind]
    exact List.mem_cons_of_mem _ a.kind_lexeme_mem
  · rw [hwords] at h
    rw [h.firstKind_eq]
    exact List.mem_cons_self

theorem firstKind_words {p : Phrase} (h : Writes p.words l l') :
    firstKind l ≠ .sign .rightParen := by
  rw [words_eq_base, ← wordsAt_of_le p.one_le_level_base,
    wordsAt_eq_first (Nat.le_refl 1) (by decide)] at h
  obtain ⟨m, hrow, -⟩ := writes_append h
  obtain ⟨m', hfirst, -⟩ := writes_append hrow
  rcases (p.base.first 1).unary_or_wordsAt_six with ⟨op, q, hunary⟩ | hwords
  · rw [hunary, wordsAt_of_le (Nat.le_refl 6), words] at hfirst
    rw [hfirst.firstKind_eq]
    cases op <;> decide
  · rw [hwords, wordsAt_eq_head] at hfirst
    obtain ⟨m, hhead, -⟩ := writes_append hfirst
    exact ne_of_mem_of_not_mem (firstKind_head hhead) (by decide)

end Phrase

/-! ### Reading what has been written -/

namespace Expr

open Phrase

/-- Casts that have been written are read back, each around the one before it. -/
theorem finds_casts {n : Nat} {l l' : List Token} {ds : List Label}
    (h : Writes (castWords ds) l l') (hnext : firstKind l' ≠ .keyword .as)
    (hn : l.length < n + l'.length) (e : Expr) : Finds (casts n e) l l' fun e' ↦
      e'.plain = ds.foldl (fun e d ↦ cast default e d.ty) e.plain := by
  induction ds generalizing n l e with
  | nil =>
    obtain rfl := writes_nil h
    obtain ⟨k, rfl⟩ : ∃ k, n = k + 1 := ⟨n - 1, by omega⟩
    exact finds_eat_neg hnext (finds_pure e l (by rfl))
  | cons d ds ih =>
    obtain ⟨t, m, rfl, ht, hm⟩ := writes_cons h
    obtain ⟨m', hlabel, hmore⟩ := writes_append hm
    have hlength := hlabel.length_eq
    have hlength' := hmore.length_eq
    rw [List.length_cons] at hn
    obtain ⟨k, rfl⟩ : ∃ k, n = k + 1 := ⟨n - 1, by omega⟩
    refine finds_eat_pos (congrArg Lexeme.kind ht) ((Ty.finds_label hlabel).bind ?_)
    rintro _ rfl
    refine (finds_spanFrom _ m').bind fun span _ ↦ ih hmore ?_ _
    omega

/-- The kinds of tokens that an expression would go on with. -/
def continuations : List Token.Kind :=
  .keyword .as :: .sign .leftParen :: binaryOperators

theorem firstKind_moreWords {ps : List Phrase} {l l' : List Token}
    (h : Writes (moreWords ps ++ [.sign .rightParen]) l l') : firstKind l ∉ continuations := by
  cases ps with
  | nil =>
    have hkind : firstKind l = .sign .rightParen := h.firstKind_eq
    rw [hkind]
    decide
  | cons p ps =>
    have hkind : firstKind l = .sign .comma := h.firstKind_eq
    rw [hkind]
    decide

/-- The expressions without what is noted in them. -/
def plainAll (es : List Expr) : List Expr :=
  mapNotesAll (fun _ ↦ default) es

/-- **The functions of the reader find what has been written**, if the bound on their calls is large
enough for the words. -/
structure RecoversTo (n : Nat) : Prop where
  parse {l l' : List Token} {p : Phrase} (h : Writes p.words l l')
    (hnext : firstKind l' ∉ continuations) (hn : 4 * l.length + 2 ≤ n + 4 * l'.length) :
    Finds (parseTo n) l l' (·.plain = p.expr)
  row {l l' : List Token} {items : List (BinOp × Phrase)} (h : Writes (rowWords items) l l')
    (hnext : firstKind l' ∉ .sign .leftParen :: binaryOperators)
    (hn : 4 * l.length + 1 ≤ n + 4 * l'.length) : Finds (rowTo n) l l' fun more ↦
      (more.map fun p ↦ (p.1, p.2.plain)) = items.map fun p ↦ (p.1, p.2.expr)
  operand {l l' : List Token} {p : Phrase} (h : Writes (p.wordsAt 6) l l')
    (hnext : firstKind l' ≠ .sign .leftParen) (hn : 4 * l.length + 1 ≤ n + 4 * l'.length) :
    Finds (operandTo n) l l' (·.plain = p.expr)
  calls {l l' : List Token} {argss : List (List Phrase)} (h : Writes (callWords argss) l l')
    (hnext : firstKind l' ≠ .sign .leftParen) (hn : 4 * l.length + 1 ≤ n + 4 * l'.length)
    (e : Expr) : Finds (callsTo n e) l l' fun e' ↦
      e'.plain = argss.foldl (fun e args ↦ call default e (exprs args)) e.plain
  arguments {l l' : List Token} {ps : List Phrase}
    (h : Writes (argumentWords ps ++ [.sign .rightParen]) l l')
    (hn : 4 * l.length ≤ n + 4 * l'.length) :
    Finds (argumentsTo n) l l' (plainAll · = exprs ps)
  moreArguments {l l' : List Token} {ps : List Phrase}
    (h : Writes (moreWords ps ++ [.sign .rightParen]) l l')
    (hn : 4 * l.length ≤ n + 4 * l'.length) :
    Finds (moreArgumentsTo n) l l' (plainAll · = exprs ps)
  atom {l l' : List Token} {p : Phrase} (h : Writes (p.head.wordsAt 7) l l')
    (hn : 4 * l.length ≤ n + 4 * l'.length) : Finds (atomTo n) l l' (·.plain = p.head.expr)

/-- Without calls nothing is found, but no bound is zero for words. -/
theorem recoversTo_zero : RecoversTo 0 where
  parse h _ hn := absurd h.length_eq (by omega)
  row h _ hn := absurd h.length_eq (by omega)
  operand h _ hn := absurd h.length_eq (by omega)
  calls h _ hn := absurd h.length_eq (by omega)
  arguments h hn := absurd h.length_eq (by rw [List.length_append, List.length_singleton]; omega)
  moreArguments h hn :=
    absurd h.length_eq (by rw [List.length_append, List.length_singleton]; omega)
  atom {_ _ p} h hn := absurd h.length_eq (by have := p.head.length_wordsAt_pos 7; omega)

namespace RecoversTo

/-! One lemma for each function: with one more call it finds what has been written, if the functions
that it calls do with the calls they have. -/

variable {n : Nat} (ih : RecoversTo n) {l l' : List Token}

include ih

/-- An expression is a row and the casts behind it. -/
theorem parse_succ {p : Phrase} (h : Writes p.words l l') (hnext : firstKind l' ∉ continuations)
    (hn : 4 * l.length + 2 ≤ n + 1 + 4 * l'.length) :
    Finds (parseTo (n + 1)) l l' (·.plain = p.expr) := by
  rw [words_eq_base, ← wordsAt_of_le p.one_le_level_base,
    wordsAt_eq_first (Nat.le_refl 1) (by decide)] at h
  obtain ⟨m, hrow, hcasts⟩ := writes_append h
  obtain ⟨m', hfirst, hmore⟩ := writes_append hrow
  have hpos := (p.base.first 1).length_wordsAt_pos 6
  have hlength := hfirst.length_eq
  have hlength' := hmore.length_eq
  have hlength'' := hcasts.length_eq
  have hm : firstKind m ∉ .sign .leftParen :: binaryOperators := by
    rcases firstKind_castWords hcasts with rfl | hm
    · exact fun h ↦ hnext (List.mem_cons_of_mem _ h)
    · rw [hm]
      decide
  have hm' := firstKind_rowWords hmore hm
  rw [parseTo]
  refine (ih.operand hfirst hm' (by omega)).bind fun first hfirst ↦ ?_
  refine (ih.row hmore hm (by omega)).bind fun more hmore ↦ ?_
  have hrow : (ofRow first more).plain = p.base.expr := by
    rw [← toPlain_tree 1]
    refine plain_ofRow (grouped_tree 1 p.base) ?_ ?_
    · rw [first_tree, hfirst]
    · rw [more_tree, hmore]
  rw [expr_eq_base, ← hrow]
  exact finds_casts hcasts (fun h ↦ hnext (h ▸ List.mem_cons_self)) (by omega) _

/-- A row is read back operand by operand. -/
theorem row_succ {items : List (BinOp × Phrase)} (h : Writes (rowWords items) l l')
    (hnext : firstKind l' ∉ .sign .leftParen :: binaryOperators)
    (hn : 4 * l.length + 1 ≤ n + 1 + 4 * l'.length) : Finds (rowTo (n + 1)) l l' fun more ↦
      (more.map fun p ↦ (p.1, p.2.plain)) = items.map fun p ↦ (p.1, p.2.expr) := by
  rw [rowTo]
  cases items with
  | nil =>
    obtain rfl := writes_nil h
    refine finds_peek fun t ht ↦ ?_
    rw [ht, BinOp.ofKind?_eq_none_iff.2 fun hmem ↦ hnext (List.mem_cons_of_mem _ hmem)]
    exact finds_pure [] l (by rfl)
  | cons p items =>
    obtain ⟨t, m, rfl, ht, hm⟩ := writes_cons h
    obtain ⟨m', hoperand, hmore⟩ := writes_append hm
    have hpos := p.2.length_wordsAt_pos 6
    have hlength := hoperand.length_eq
    have hlength' : m'.length = (rowWords items).length + l'.length := hmore.length_eq
    rw [List.length_cons] at hn
    have hm' := firstKind_rowWords hmore hnext
    have hop : BinOp.ofKind? t.kind = some p.1 := by
      have hkind : t.kind = p.1.word.kind := congrArg Lexeme.kind ht
      rw [hkind]
      cases p.1 <;> rfl
    refine finds_peek_cons ?_
    rw [hop]
    refine (finds_advance t m).bind fun _ _ ↦ ?_
    refine (ih.operand hoperand hm' (by omega)).bind fun e he ↦ ?_
    refine (ih.row hmore hnext (by omega)).bind fun more hmore ↦ finds_pure _ l' ?_
    rw [List.map_cons, List.map_cons, he, hmore]

/-- An operand has an operator in front of it, or it is something with the calls behind it. -/
theorem operand_succ {p : Phrase} (h : Writes (p.wordsAt 6) l l')
    (hnext : firstKind l' ≠ .sign .leftParen)
    (hn : 4 * l.length + 1 ≤ n + 1 + 4 * l'.length) :
    Finds (operandTo (n + 1)) l l' (·.plain = p.expr) := by
  rw [operandTo]
  rcases p.unary_or_wordsAt_six with ⟨op, q, rfl⟩ | hwords
  · rw [wordsAt_of_le (Nat.le_refl 6), words] at h
    obtain ⟨t, m, rfl, ht, hm⟩ := writes_cons h
    rw [List.length_cons] at hn
    have hop : UnaryOp.ofKind? t.kind = some op := by
      have hkind : t.kind = op.word.kind := congrArg Lexeme.kind ht
      rw [hkind]
      cases op <;> rfl
    refine finds_peek_cons ?_
    rw [hop]
    refine (finds_advance t m).bind fun _ _ ↦ ?_
    refine (ih.operand (p := q) hm hnext (by omega)).bind fun e he ↦ ?_
    refine (finds_spanFrom _ l').bind fun span _ ↦ finds_pure _ l' ?_
    rw [expr, ← he]
    rfl
  · rw [hwords, wordsAt_eq_head] at h
    obtain ⟨m, hhead, hcalls⟩ := writes_append h
    have hpos := p.head.length_wordsAt_pos 7
    have hlength := hhead.length_eq
    have hlength' := hcalls.length_eq
    refine finds_peek fun t ht ↦ ?_
    rw [ht, UnaryOp.ofKind?_eq_none_iff.2 ((by decide :
      ∀ k ∈ .sign .leftParen :: atoms, k ∉ unaryOperators) _ (firstKind_head hhead))]
    refine (ih.atom hhead (by omega)).bind fun e he ↦ ?_
    rw [expr_eq_head, ← he]
    exact ih.calls hcalls hnext (by omega) e

/-- Lists of arguments are read back one behind another, each with the call before it as its
function. -/
theorem calls_succ {argss : List (List Phrase)} (h : Writes (callWords argss) l l')
    (hnext : firstKind l' ≠ .sign .leftParen)
    (hn : 4 * l.length + 1 ≤ n + 1 + 4 * l'.length) (e : Expr) :
    Finds (callsTo (n + 1) e) l l' fun e' ↦
      e'.plain = argss.foldl (fun e args ↦ call default e (exprs args)) e.plain := by
  rw [callsTo]
  cases argss with
  | nil =>
    obtain rfl := writes_nil h
    exact finds_eat_neg hnext (finds_pure e l (by rfl))
  | cons args argss =>
    obtain ⟨t, m, rfl, ht, hm⟩ := writes_cons h
    obtain ⟨m', hargs, hmore⟩ := writes_append hm
    have hlength := hargs.length_eq
    have hlength' : m'.length = (callWords argss).length + l'.length := hmore.length_eq
    rw [List.length_append, List.length_singleton] at hlength
    rw [List.length_cons] at hn
    refine finds_eat_pos (congrArg Lexeme.kind ht) ?_
    refine (ih.arguments hargs (by omega)).bind fun es hes ↦ ?_
    refine (finds_spanFrom _ m').bind fun span _ ↦ ?_
    have hcall : (call (.untyped span) e es).plain = call default e.plain (exprs args) := by
      rw [← hes]
      rfl
    rw [List.foldl_cons, ← hcall]
    exact ih.calls hmore hnext (by omega) _

/-- An argument and those behind it are found alike, whether it is the first one or not. -/
theorem argumentList {p : Phrase} {ps : List Phrase}
    (h : Writes (argumentWords (p :: ps) ++ [.sign .rightParen]) l l')
    (hn : 4 * l.length ≤ n + 1 + 4 * l'.length) :
    Finds (do return (← parseTo n) :: (← moreArgumentsTo n)) l l'
      (plainAll · = exprs (p :: ps)) := by
  rw [argumentWords, List.append_assoc] at h
  obtain ⟨m, hexpr, hmore⟩ := writes_append h
  have hpos := List.length_pos_iff.2 p.words_ne_nil
  have hlength := hexpr.length_eq
  have hlength' := hmore.length_eq
  rw [List.length_append, List.length_singleton] at hlength'
  refine (ih.parse hexpr (firstKind_moreWords hmore) (by omega)).bind fun e he ↦ ?_
  refine (ih.moreArguments hmore (by omega)).bind fun es hes ↦ finds_pure _ l' ?_
  rw [exprs, ← he, ← hes]
  rfl

theorem arguments_succ {ps : List Phrase}
    (h : Writes (argumentWords ps ++ [.sign .rightParen]) l l')
    (hn : 4 * l.length ≤ n + 1 + 4 * l'.length) :
    Finds (argumentsTo (n + 1)) l l' (plainAll · = exprs ps) := by
  rw [argumentsTo]
  cases ps with
  | nil =>
    obtain ⟨t, m, rfl, ht, hm⟩ := writes_cons h
    obtain rfl := writes_nil hm
    exact finds_eat_pos (congrArg Lexeme.kind ht) (finds_pure [] m (by rfl))
  | cons p ps =>
    have hparen : firstKind l ≠ .sign .rightParen := by
      rw [argumentWords, List.append_assoc] at h
      obtain ⟨m, hexpr, -⟩ := writes_append h
      exact firstKind_words hexpr
    exact finds_eat_neg hparen (ih.argumentList h hn)

theorem moreArguments_succ {ps : List Phrase}
    (h : Writes (moreWords ps ++ [.sign .rightParen]) l l')
    (hn : 4 * l.length ≤ n + 1 + 4 * l'.length) :
    Finds (moreArgumentsTo (n + 1)) l l' (plainAll · = exprs ps) := by
  rw [moreArgumentsTo]
  cases ps with
  | nil =>
    have hcomma : firstKind l ≠ .sign .comma :=
      h.firstKind_eq ▸ (by decide : Token.Kind.sign .rightParen ≠ .sign .comma)
    obtain ⟨t, m, rfl, ht, hm⟩ := writes_cons h
    obtain rfl := writes_nil hm
    have hkind : t.kind = .sign .rightParen := congrArg Lexeme.kind ht
    refine finds_eat_neg hcomma ?_
    exact (finds_expect hkind m).bind fun _ _ ↦ finds_pure [] m (by rfl)
  | cons p ps =>
    obtain ⟨t, m, rfl, ht, hm⟩ := writes_cons h
    rw [List.length_cons] at hn
    exact finds_eat_pos (congrArg Lexeme.kind ht) (ih.argumentList (p := p) hm (by omega))

/-- What is called is a single word, or it stands in parentheses. -/
theorem atom_succ {p : Phrase} (h : Writes (p.head.wordsAt 7) l l')
    (hn : 4 * l.length ≤ n + 1 + 4 * l'.length) :
    Finds (atomTo (n + 1)) l l' (·.plain = p.head.expr) := by
  rw [atomTo]
  rcases p.head_cases with ⟨a, ha⟩ | hwords
  · rw [ha] at h ⊢
    obtain ⟨t, m, rfl, ht, hm⟩ := writes_cons h
    obtain rfl := writes_nil hm
    obtain ⟨e, he, hplain⟩ := a.exists_ofToken? ht
    refine finds_peek_cons ?_
    rw [he]
    exact (finds_advance t m).bind fun _ _ ↦ finds_pure e m hplain
  · rw [hwords] at h
    obtain ⟨t, m, rfl, ht, hm⟩ := writes_cons h
    obtain ⟨m', hexpr, hclose⟩ := writes_append hm
    obtain ⟨u, m'', rfl, hu, hm''⟩ := writes_cons hclose
    obtain rfl := writes_nil hm''
    have hopen : t.kind = .sign .leftParen := congrArg Lexeme.kind ht
    have hclose : u.kind = .sign .rightParen := congrArg Lexeme.kind hu
    have hnext : firstKind (u :: m'') ∉ continuations := by
      show u.kind ∉ continuations
      rw [hclose]
      decide
    rw [List.length_cons] at hn
    refine finds_peek_cons ?_
    rw [ofToken?_eq_none (hopen ▸ by decide)]
    refine finds_eat_pos hopen ((ih.parse hexpr hnext ?_).bind fun e he ↦ ?_)
    · rw [List.length_cons]
      omega
    · exact (finds_expect hclose m'').bind fun _ _ ↦ finds_pure e m'' he

theorem succ : RecoversTo (n + 1) where
  parse := ih.parse_succ
  row := ih.row_succ
  operand := ih.operand_succ
  calls := ih.calls_succ
  arguments := ih.arguments_succ
  moreArguments := ih.moreArguments_succ
  atom := ih.atom_succ

end RecoversTo

/-- So all readers find what has been written, whatever the bound, as long as it suffices. -/
theorem recoversTo (n : Nat) : RecoversTo n := by
  induction n with
  | zero => exact recoversTo_zero
  | succ n ih => exact ih.succ

/-- **Reading undoes writing**: the text of a phrase is read to its end as an expression, and that
is the expression of the phrase. -/
theorem parse_text (p : Phrase) : ∃ e c, parse (.start (Token.scan p.text)) = .ok (e, c) ∧
    c.rest = [Token.finishAt p.text.utf8ByteSize] ∧ e.plain = p.expr := by
  obtain ⟨ts, hscan, hwords⟩ := Token.exists_scanFrom_spaced p.lexes_words 0
  have htext : p.text.toList = Lexeme.spaced p.words := String.toList_ofList
  rw [← htext, byteLength_toList, Nat.zero_add] at hscan
  have hwrites : Writes p.words (Token.scan p.text) [Token.finishAt p.text.utf8ByteSize] :=
    ⟨ts, hscan, hwords⟩
  have hnext : firstKind [Token.finishAt p.text.utf8ByteSize] ∉ continuations := by
    show Token.Kind.finish ∉ continuations
    decide
  refine (recoversTo _).parse hwrites hnext ?_ _ rfl
  show 4 * (Token.scan p.text).length + 2 ≤ 4 * (Token.scan p.text).length + 8 + _
  omega

example : (Phrase.binary .sub (.atom (.int 1)) (.binary .sub (.unary .negate (.atom (.int 2)))
    (.cast (.call (.atom .null) []) (.pointer true (.scalar .bool))))).text =
      "1 - ( - 2 - ( null ( ) as * const bool ) )" := by
  decide +kernel

example :
    (Phrase.binary .bitOr (.atom (.int 1)) (.binary .bitXor (.atom (.int 2))
      (.binary .bitAnd (.atom (.int 3)) (.binary .add (.atom (.int 4))
        (.binary .mul (.atom (.int 5)) (.atom (.int 6))))))).text = "1 | 2 ^ 3 & 4 + 5 * 6" ∧
    (Phrase.binary .div (.binary .sub (.binary .bitAnd (.binary .bitXor
      (.binary .bitOr (.atom (.int 1)) (.atom (.int 2))) (.atom (.int 3))) (.atom (.int 4)))
        (.atom (.int 5))) (.atom (.int 6))).text = "( ( ( ( 1 | 2 ) ^ 3 ) & 4 ) - 5 ) / 6" := by
  decide +kernel

end Expr

end FrontEnd
