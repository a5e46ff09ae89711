import FrontEnd.Expr.Parser
import FrontEnd.Proofs.Expr.Grouping
import FrontEnd.Proofs.Token.Rescanning

/-!
# Writing expressions

A **phrase** is an expression as it can be written: names that are not reserved, numbers that fit,
types that have labels. It is written with parentheses only where leaving them out would make
another expression of it (`Phrase.words`). What decides that is the **level** of a phrase, which
says how tightly it holds together: from casts, which are the loosest, through the operators between
two operands and those in front of one up to calls and single words.

A reader does not see the phrase, but meets its words from left to right, as they would be read: a
row of operands, with casts behind it, and an operand with its calls. The second half of this
module takes a phrase apart in that way, once for casts (`Phrase.words_eq_base`), once for the row
(`Phrase.wordsAt_eq_first`) and once for calls (`Phrase.wordsAt_eq_head`), and shows each time that
putting the parts together again gives the expression of the phrase.
-/

namespace FrontEnd

/-! ### Labels and single words -/

/-- A type as it can be written. -/
inductive Label where
  /-- A type with a name. -/
  | scalar (s : Scalar)
  /-- A pointer. -/
  | pointer (isConst : Bool) (target : Label)

namespace Label

/-- The type of a label. -/
def ty : Label → Ty
  | scalar s => .scalar s
  | pointer isConst target => .pointer isConst target.ty

/-- How a label is written. -/
def words : Label → List Lexeme
  | scalar s => [.scalar s]
  | pointer true target => .sign .star :: .keyword .const :: target.words
  | pointer false target => .sign .star :: target.words

end Label

/-- A name that is not reserved. -/
structure Name where
  /-- Its first character. -/
  first : Char
  /-- Its other characters. -/
  others : List Char
  isNameStart_first : Token.isNameStart first = true
  isNamePart_others : ∀ c ∈ others, Token.isNamePart c = true
  ofWord?_eq_none : Token.Kind.ofWord? (String.ofList (first :: others)) = none

/-- A text that is a float by itself, and its value. -/
structure FloatText where
  /-- The text. -/
  text : List Char
  /-- What it stands for. -/
  value : Binary64
  map_lexeme_scanList : (Token.scanList text).map Token.lexeme = [⟨.float, text⟩, .finish]
  float_text : Literal.float text = .ok value

/-- An expression of a single word. -/
inductive Atom where
  /-- A name. -/
  | name (n : Name)
  /-- An integer. -/
  | int (value : UInt64)
  /-- A float. -/
  | float (f : FloatText)
  /-- A character. -/
  | rune (c : Char)
  /-- A truth value. -/
  | bool (b : Bool)
  /-- The literal that fits every type. -/
  | null

namespace Atom

/-- The word. -/
def lexeme : Atom → Lexeme
  | name n => ⟨.ident, n.first :: n.others⟩
  | int value => .int value.toNat
  | float f => ⟨.float, f.text⟩
  | rune c => .rune c
  | bool true => .keyword .true
  | bool false => .keyword .false
  | null => .keyword .null

/-- The expression, with nothing noted in it. -/
def expr : Atom → Expr
  | name n => .ident default (String.ofList (n.first :: n.others)) none
  | int value => .constant default (.int value.toNat)
  | float f => .constant default (.float f.value)
  | rune c => .constant default (.rune c)
  | bool b => .constant default (.bool b)
  | null => .constant default .null

end Atom

/-! ### Phrases -/

/-- An expression as it can be written. -/
inductive Phrase where
  /-- A single word. -/
  | atom (a : Atom)
  /-- An operator in front of its operand. -/
  | unary (op : UnaryOp) (operand : Phrase)
  /-- An operator between its operands. -/
  | binary (op : BinOp) (lhs rhs : Phrase)
  /-- A call. -/
  | call (callee : Phrase) (args : List Phrase)
  /-- A cast. -/
  | cast (operand : Phrase) (dest : Label)

namespace BinOp

/-- The operators **from loose to tight**. Those that stand together are equally tight. -/
def fromLoose : List (List BinOp) :=
  [[.bitOr], [.bitXor], [.bitAnd], [.add, .sub], [.mul, .div, .mod]]

/-- How tightly an operator holds its operands together: its place in that order, from one on. -/
def rank (op : BinOp) : Nat :=
  fromLoose.findIdx (op ∈ ·) + 1

/-- How an operator is written. -/
def word : BinOp → Lexeme
  | .add => ⟨.sign .plus, ['+']⟩
  | .sub => ⟨.sign .minus, ['-']⟩
  | .mul => ⟨.sign .star, ['*']⟩
  | .div => ⟨.sign .slash, ['/']⟩
  | .mod => ⟨.sign .percent, ['%']⟩
  | .bitAnd => ⟨.sign .amp, ['&']⟩
  | .bitOr => ⟨.sign .pipe, ['|']⟩
  | .bitXor => ⟨.sign .caret, ['^']⟩

/-- What is written is grouped by the same order when it is read. -/
theorem rank_eq_level (op : BinOp) : op.rank = op.level := by
  cases op <;> rfl

theorem rank_lt (op : BinOp) : op.rank < 6 := by
  cases op <;> decide

end BinOp

/-- How an operator in front of its operand is written. -/
def UnaryOp.word : UnaryOp → Lexeme
  | .negate => ⟨.sign .minus, ['-']⟩
  | .address => ⟨.sign .amp, ['&']⟩
  | .deref => ⟨.sign .star, ['*']⟩

namespace Phrase

/-- How tightly a phrase holds together. -/
def level : Phrase → Nat
  | cast _ _ => 0
  | binary op _ _ => op.rank
  | unary _ _ => 6
  | call _ _ => 7
  | atom _ => 7

/-- Words in parentheses, where those are needed. -/
def enclosed (needed : Bool) (ws : List Lexeme) : List Lexeme :=
  if needed then .sign .leftParen :: (ws ++ [.sign .rightParen]) else ws

mutual

/-- **How a phrase is written.** A left operand is enclosed if it is looser than its operator, and a
right one unless it is tighter. What stands behind an operator in front is enclosed if it is a cast
or two operands, and what is called unless it is a call or a single word. -/
def words : Phrase → List Lexeme
  | atom a => [a.lexeme]
  | unary op p => op.word :: enclosed (p.level < 6) p.words
  | binary op l r =>
    enclosed (l.level < op.rank) l.words ++
      op.word :: enclosed (r.level < op.rank + 1) r.words
  | call f args =>
    enclosed (f.level < 7) f.words ++
      .sign .leftParen :: (argumentWords args ++ [.sign .rightParen])
  | cast p dest => p.words ++ .keyword .as :: dest.words

/-- How arguments are written. -/
def argumentWords : List Phrase → List Lexeme
  | [] => []
  | p :: ps => p.words ++ moreWords ps

/-- How arguments are written behind another one. -/
def moreWords : List Phrase → List Lexeme
  | [] => []
  | p :: ps => .sign .comma :: (p.words ++ moreWords ps)

end

mutual

/-- The expression of a phrase, with nothing noted in it. -/
def expr : Phrase → Expr
  | atom a => a.expr
  | unary op p => .unary default op p.expr
  | binary op l r => .binary default op l.expr r.expr
  | call f args => .call default f.expr (exprs args)
  | cast p dest => .cast default p.expr dest.ty

/-- The expressions of phrases. -/
def exprs : List Phrase → List Expr
  | [] => []
  | p :: ps => p.expr :: exprs ps

end

/-- The text of a phrase: its words, with blanks between them. -/
def text (p : Phrase) : String :=
  String.ofList (Lexeme.spaced p.words)

/-- How a phrase is written where it has to hold together at least as tightly as a level says. -/
def wordsAt (m : Nat) (p : Phrase) : List Lexeme :=
  enclosed (p.level < m) p.words

theorem wordsAt_of_le {m : Nat} {p : Phrase} (h : m ≤ p.level) : p.wordsAt m = p.words := by
  rw [wordsAt, decide_eq_false (Nat.not_lt.2 h)]
  rfl

theorem wordsAt_of_lt {m : Nat} {p : Phrase} (h : p.level < m) :
    p.wordsAt m = .sign .leftParen :: (p.words ++ [.sign .rightParen]) := by
  rw [wordsAt, decide_eq_true h]
  rfl

/-! ### Casts

`p as A as B`: the first of the casts is the innermost. -/

/-- The phrase without the casts behind it. -/
def base : Phrase → Phrase
  | cast p _ => p.base
  | p => p

/-- The casts behind a phrase. -/
def labels : Phrase → List Label
  | cast p dest => p.labels ++ [dest]
  | _ => []

/-- How casts are written. -/
def castWords (ds : List Label) : List Lexeme :=
  ds.flatMap fun d ↦ .keyword .as :: d.words

theorem words_eq_base (p : Phrase) : p.words = p.base.words ++ castWords p.labels := by
  fun_induction base p with
  | case1 p dest ih =>
    rw [words, ih, labels, castWords, castWords, List.flatMap_append, List.flatMap_singleton,
      List.append_assoc]
  | case2 p h =>
    rw [labels]
    · exact (List.append_nil _).symm
    · exact h

theorem expr_eq_base (p : Phrase) :
    p.expr = p.labels.foldl (fun e d ↦ .cast default e d.ty) p.base.expr := by
  fun_induction base p with
  | case1 p dest ih =>
    rw [expr, ih, labels, List.foldl_append, List.foldl_cons, List.foldl_nil]
  | case2 p h =>
    rw [labels]
    · rfl
    · exact h

theorem one_le_level_base (p : Phrase) : 1 ≤ p.base.level := by
  fun_induction base p with
  | case1 p dest ih => exact ih
  | case2 p h =>
    cases p with
    | cast q dest => exact absurd rfl (h q dest)
    | binary op l r => exact Nat.succ_pos _
    | _ => exact Nat.le_add_left 1 _

/-! ### Rows

What is not enclosed in a row belongs to it. -/

/-- The first operand of the row that a phrase is written as at a level. -/
def first (m : Nat) : Phrase → Phrase
  | binary op l r => if m ≤ op.rank then l.first op.rank else binary op l r
  | p => p

/-- The row behind its first operand. -/
def more (m : Nat) : Phrase → List (BinOp × Phrase)
  | binary op l r =>
    if m ≤ op.rank then
      l.more op.rank ++ (op, r.first (op.rank + 1)) :: r.more (op.rank + 1)
    else []
  | _ => []

/-- The groups of the row. -/
def tree (m : Nat) : Phrase → OpTree
  | binary op l r =>
    if m ≤ op.rank then .node op (l.tree op.rank) (r.tree (op.rank + 1))
    else .leaf (binary op l r).expr
  | p => .leaf p.expr

/-- How a row is written behind its first operand. -/
def rowWords (items : List (BinOp × Phrase)) : List Lexeme :=
  items.flatMap fun p ↦ p.1.word :: p.2.wordsAt 6

/-- A phrase that is no row by itself is written as an operand. -/
theorem wordsAt_eq_wordsAt_six {m : Nat} {p : Phrase} (hsix : m ≤ 6)
    (h : p.level < m ∨ 6 ≤ p.level) : p.wordsAt m = p.wordsAt 6 := by
  rcases h with h | h
  · rw [wordsAt_of_lt h, wordsAt_of_lt (Nat.lt_of_lt_of_le h hsix)]
  · rw [wordsAt_of_le (Nat.le_trans hsix h), wordsAt_of_le h]

theorem wordsAt_eq_first {m : Nat} (hone : 1 ≤ m) (hsix : m ≤ 6) (p : Phrase) :
    p.wordsAt m = (p.first m).wordsAt 6 ++ rowWords (p.more m) := by
  fun_induction tree m p with
  | case1 m op l r hle ihl ihr =>
    have hwords : (binary op l r).wordsAt m =
        l.wordsAt op.rank ++ op.word :: r.wordsAt (op.rank + 1) := by
      rw [wordsAt_of_le hle, words]
      rfl
    rw [hwords, ihl (Nat.succ_pos _) op.rank_lt.le, ihr (Nat.succ_pos _) op.rank_lt,
      first, if_pos hle, more, if_pos hle, List.append_assoc]
    simp only [rowWords, List.flatMap_append, List.flatMap_cons, List.cons_append]
  | case2 m op l r hlt =>
    have hlevel : (binary op l r).level < m := Nat.not_le.1 hlt
    rw [first, if_neg hlt, more, if_neg hlt, wordsAt_eq_wordsAt_six hsix (.inl hlevel)]
    exact (List.append_nil _).symm
  | case3 m p h =>
    have hlevel : p.level < m ∨ 6 ≤ p.level := by
      cases p with
      | binary op l r => exact absurd rfl (h op l r)
      | cast q dest => exact .inl hone
      | _ => exact .inr (Nat.le_add_left 6 _)
    rw [wordsAt_eq_wordsAt_six hsix hlevel, first, more]
    · exact (List.append_nil _).symm
    · exact h
    · exact h

theorem le_level_tree {m : Nat} (h : m ≤ 6) (p : Phrase) : m ≤ (p.tree m).level := by
  fun_cases tree m p with
  | case1 op _ _ hle => exact hle.trans_eq op.rank_eq_level
  | _ => exact h

theorem grouped_tree (m : Nat) (p : Phrase) : (p.tree m).Grouped := by
  fun_induction tree m p with
  | case1 m op l r hle ihl ihr =>
    have hl := l.le_level_tree op.rank_lt.le
    have hr := r.le_level_tree (Nat.succ_le_of_lt op.rank_lt)
    exact ⟨⟨op.rank_eq_level ▸ hl, ihl⟩, op.rank_eq_level ▸ hr, ihr⟩
  | _ => trivial

theorem first_tree (m : Nat) (p : Phrase) : (p.tree m).first = (p.first m).expr := by
  fun_induction tree m p with
  | case1 m op l r hle ihl ihr => rw [first, if_pos hle, ← ihl, OpTree.first]
  | case2 m op l r hlt => rw [first, if_neg hlt, OpTree.first]
  | case3 m p h => rw [first, OpTree.first]; exact h

theorem more_tree (m : Nat) (p : Phrase) :
    (p.tree m).more = (p.more m).map fun q ↦ (q.1, q.2.expr) := by
  fun_induction tree m p with
  | case1 m op l r hle ihl ihr =>
    rw [more, if_pos hle, OpTree.more, ihl, ihr, first_tree, List.map_append, List.map_cons]
  | case2 m op l r hlt =>
    rw [more, if_neg hlt]
    rfl
  | case3 m p h =>
    rw [more]
    · rfl
    · exact h

theorem toPlain_tree (m : Nat) (p : Phrase) : (p.tree m).toPlain = p.expr := by
  fun_induction tree m p with
  | case1 m op l r hle ihl ihr => rw [OpTree.toPlain, ihl, ihr, expr]
  | _ => rfl

/-! ### Calls -/

/-- What is called first of all in a phrase. -/
def head : Phrase → Phrase
  | call f _ => f.head
  | p => p

/-- The arguments of the calls behind it, call by call. -/
def calls : Phrase → List (List Phrase)
  | call f args => f.calls ++ [args]
  | _ => []

/-- How calls are written. -/
def callWords (argss : List (List Phrase)) : List Lexeme :=
  argss.flatMap fun args ↦ .sign .leftParen :: (argumentWords args ++ [.sign .rightParen])

theorem wordsAt_eq_head (p : Phrase) : p.wordsAt 7 = p.head.wordsAt 7 ++ callWords p.calls := by
  fun_induction head p with
  | case1 f args ih =>
    have hwords : (call f args).wordsAt 7 = f.wordsAt 7 ++ callWords [args] := by
      rw [wordsAt_of_le (Nat.le_refl 7), words, callWords, List.flatMap_singleton]
      rfl
    rw [hwords, ih, calls, callWords, callWords, callWords, List.flatMap_append,
      List.append_assoc]
  | case2 p h =>
    rw [calls]
    · exact (List.append_nil _).symm
    · exact h

theorem expr_eq_head (p : Phrase) :
    p.expr = p.calls.foldl (fun e args ↦ .call default e (exprs args)) p.head.expr := by
  fun_induction head p with
  | case1 f args ih => rw [expr, ih, calls, List.foldl_append, List.foldl_cons, List.foldl_nil]
  | case2 p h =>
    rw [calls]
    · rfl
    · exact h

/-- An operand has an operator in front, or it is something with calls. -/
theorem unary_or_wordsAt_six (p : Phrase) :
    (∃ op q, p = unary op q) ∨ p.wordsAt 6 = p.wordsAt 7 := by
  cases p with
  | unary op q => exact .inl ⟨op, q, rfl⟩
  | binary op l r =>
    exact .inr ((wordsAt_of_lt op.rank_lt).trans
      (wordsAt_of_lt (Nat.lt_succ_of_lt op.rank_lt)).symm)
  | _ => exact .inr rfl

/-- Calls are behind something else. -/
theorem head_ne_call (p f : Phrase) (args : List Phrase) : p.head ≠ call f args := by
  fun_induction head p with
  | case1 _ _ ih => exact ih
  | case2 p h => exact h f args

/-- What is called is a single word, or it is enclosed. -/
theorem head_cases (p : Phrase) : (∃ a, p.head = atom a) ∨
    p.head.wordsAt 7 = .sign .leftParen :: (p.head.words ++ [.sign .rightParen]) := by
  cases hp : p.head with
  | atom a => exact .inl ⟨a, rfl⟩
  | unary op q => exact .inr (wordsAt_of_lt (Nat.lt_succ_self 6))
  | binary op l r => exact .inr (wordsAt_of_lt (Nat.lt_succ_of_lt op.rank_lt))
  | call f args => exact absurd hp (p.head_ne_call f args)
  | cast q dest => exact .inr (wordsAt_of_lt (Nat.succ_pos 6))

end Phrase

/-! ### All words are scanned back -/

open Lexeme

theorem Label.lexes_words (d : Label) : ∀ w ∈ d.words, w.Lexes := by
  fun_induction words d with
  | case1 s => exact List.forall_mem_singleton.2 (lexes_scalar s)
  | case2 target ih =>
    exact List.forall_mem_cons.2 ⟨lexes_sign _, List.forall_mem_cons.2 ⟨lexes_keyword _, ih⟩⟩
  | case3 target ih => exact List.forall_mem_cons.2 ⟨lexes_sign _, ih⟩

theorem BinOp.lexes_word (op : BinOp) : op.word.Lexes := by
  cases op <;> exact lexes_sign _

theorem UnaryOp.lexes_word (op : UnaryOp) : op.word.Lexes := by
  cases op <;> exact lexes_sign _

theorem Atom.lexes_lexeme (a : Atom) : a.lexeme.Lexes := by
  cases a with
  | name n =>
    have h := lexes_name n.isNameStart_first n.isNamePart_others
    rw [n.ofWord?_eq_none] at h
    exact h
  | int value => exact lexes_int value.toNat
  | float f =>
    exact Token.lexes_of_map_lexeme_scanList (by simp [lexeme]) rfl f.map_lexeme_scanList
  | rune c => exact lexes_rune c
  | bool b => cases b <;> exact lexes_keyword _
  | null => exact lexes_keyword _

namespace Phrase

theorem lexes_enclosed {ws : List Lexeme} (h : ∀ w ∈ ws, w.Lexes) (needed : Bool) :
    ∀ w ∈ enclosed needed ws, w.Lexes := by
  cases needed with
  | false => exact h
  | true =>
    exact List.forall_mem_cons.2 ⟨lexes_sign _,
      List.forall_mem_append.2 ⟨h, List.forall_mem_singleton.2 (lexes_sign _)⟩⟩

mutual

theorem lexes_words : ∀ p : Phrase, ∀ w ∈ p.words, w.Lexes
  | atom a => List.forall_mem_singleton.2 a.lexes_lexeme
  | unary op p => by
    rw [words]
    exact List.forall_mem_cons.2 ⟨op.lexes_word, lexes_enclosed (lexes_words p) _⟩
  | binary op l r => by
    rw [words]
    exact List.forall_mem_append.2 ⟨lexes_enclosed (lexes_words l) _,
      List.forall_mem_cons.2 ⟨op.lexes_word, lexes_enclosed (lexes_words r) _⟩⟩
  | call f args => by
    rw [words]
    exact List.forall_mem_append.2 ⟨lexes_enclosed (lexes_words f) _,
      lexes_enclosed (lexes_argumentWords args) true⟩
  | cast p dest => by
    rw [words]
    exact List.forall_mem_append.2 ⟨lexes_words p,
      List.forall_mem_cons.2 ⟨lexes_keyword _, dest.lexes_words⟩⟩

theorem lexes_argumentWords : ∀ ps : List Phrase, ∀ w ∈ argumentWords ps, w.Lexes
  | [] => fun _ hw ↦ absurd hw List.not_mem_nil
  | p :: ps => by
    rw [argumentWords]
    exact List.forall_mem_append.2 ⟨lexes_words p, lexes_moreWords ps⟩

theorem lexes_moreWords : ∀ ps : List Phrase, ∀ w ∈ moreWords ps, w.Lexes
  | [] => fun _ hw ↦ absurd hw List.not_mem_nil
  | p :: ps => by
    rw [moreWords]
    exact List.forall_mem_cons.2 ⟨lexes_sign _,
      List.forall_mem_append.2 ⟨lexes_words p, lexes_moreWords ps⟩⟩

end

end Phrase

end FrontEnd
