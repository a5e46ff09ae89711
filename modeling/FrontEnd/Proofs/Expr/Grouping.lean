import FrontEnd.Expr.Operators

/-!
# A row is grouped as its tree asks for

`Expr.ofRow` puts operands and operators into a tree one by one, from the left. Which tree comes out
is said here without regard to that order: the one in which no operator stands above a looser one,
and none above an equal one on its right (`OpTree.Grouped`). There is such a tree for every row, and
reading off the row of one and grouping it again gives it back (`OpTree.foldl_attach_eq`).

An operator that comes in displaces only what is at the right edge of the tree. So the proof lets a
whole tree come in at once (`OpTree.graft`), and shows that its operands, coming in one by one, end
up in the same places.

Another way to find the groups is to **climb**: to read on behind an operator as long as the next
one has more power than it, and to put the two operands together then (`Expr.climb`). What this
builds is a tree of groups, too, so it is the same expression (`Expr.climb_eq_ofRow`).
-/

namespace FrontEnd

namespace Expr

/-- The expression without what is noted in it: no places and no types. -/
def plain (e : Expr) : Expr :=
  e.mapNotes fun _ ↦ default

theorem plain_binary (note : Note) (op : BinOp) (l r : Expr) :
    (binary note op l r).plain = binary default op l.plain r.plain :=
  mapNotes.eq_4 ..

end Expr

namespace OpTree

/-- How tightly a group holds together. An operand holds more tightly than any operator. -/
def level : OpTree → Nat
  | leaf _ => 6
  | node op _ _ => op.level

/-- **A tree of groups**: a left operand holds at least as tightly as the operator, and a right one
more tightly. -/
def Grouped : OpTree → Prop
  | leaf _ => True
  | node op l r => (op.level ≤ l.level ∧ l.Grouped) ∧ op.level < r.level ∧ r.Grouped

/-- The first operand of the row of a tree. -/
def first : OpTree → Expr
  | leaf e => e
  | node _ l _ => l.first

/-- The row of a tree behind its first operand. -/
def more : OpTree → List (BinOp × Expr)
  | leaf _ => []
  | node op l r => l.more ++ (op, r.first) :: r.more

/-- The tree of a row that has one more operator and a whole group at its end. -/
def graft (op : BinOp) (t : OpTree) : OpTree → OpTree
  | leaf e => node op (leaf e) t
  | node op' l r =>
    if op'.level < op.level then node op' l (graft op t r) else node op (node op' l r) t

variable {op op' : BinOp} {t l r : OpTree}

theorem attach_eq_graft (op : BinOp) (e : Expr) (s : OpTree) :
    attach op e s = graft op (leaf e) s := by
  induction s with
  | leaf _ => rfl
  | node op' l r _ ih => rw [attach, graft, ih]

/-- A group that holds tightly enough becomes a left operand as a whole. -/
theorem graft_eq_node (h : op.level ≤ l.level) : graft op t l = node op l t := by
  cases l with
  | leaf _ => rfl
  | node op' l r => exact if_neg (Nat.not_lt.2 h)

/-- To come in as one group or as its two halves is the same. -/
theorem graft_graft (hop : op.level < op'.level) (hl : op'.level ≤ l.level) (s : OpTree) :
    graft op' r (graft op l s) = graft op (node op' l r) s := by
  have hnode : ∀ s, graft op' r (node op s l) = node op s (node op' l r) := by
    intro s
    rw [graft, if_pos hop, graft_eq_node hl]
  induction s with
  | leaf e => exact hnode (leaf e)
  | node op'' a b _ ih =>
    rw [graft, graft]
    split
    · rename_i hlt
      rw [graft, if_pos (Nat.lt_trans hlt hop), ih]
    · exact hnode (node op'' a b)

/-- The operands of a group come in one by one as they do all at once. -/
theorem foldl_attach_more (ht : t.Grouped) (hop : op.level < t.level) (s : OpTree) :
    t.more.foldl (fun tree p ↦ attach p.1 p.2 tree) (attach op t.first s) = graft op t s := by
  induction t generalizing op s with
  | leaf e => exact attach_eq_graft op e s
  | node op' l r ihl ihr =>
    obtain ⟨⟨hl, hlgrouped⟩, hr, hrgrouped⟩ := ht
    rw [more, List.foldl_append, first, ihl hlgrouped (Nat.lt_of_lt_of_le hop hl), List.foldl_cons,
      ihr hrgrouped hr, graft_graft hop hl]

/-- **A tree of groups is what its row is grouped to.** -/
theorem foldl_attach_eq (ht : t.Grouped) :
    t.more.foldl (fun tree p ↦ attach p.1 p.2 tree) (leaf t.first) = t := by
  induction t with
  | leaf e => rfl
  | node op l r ihl ihr =>
    obtain ⟨⟨hl, hlgrouped⟩, hr, hrgrouped⟩ := ht
    rw [more, List.foldl_append, first, ihl hlgrouped, List.foldl_cons,
      foldl_attach_more hrgrouped hr, graft_eq_node hl]

/-! ### Operands up to their notes -/

/-- The tree with `f` applied to its operands. -/
def map (f : Expr → Expr) : OpTree → OpTree
  | leaf e => leaf (f e)
  | node op l r => node op (l.map f) (r.map f)

theorem map_attach (f : Expr → Expr) (op : BinOp) (e : Expr) (t : OpTree) :
    (attach op e t).map f = attach op (f e) (t.map f) := by
  induction t with
  | leaf _ => rfl
  | node op' l r _ ih =>
    rw [attach, map, attach]
    split
    · rw [map, ih]
    · rfl

theorem map_foldl_attach (f : Expr → Expr) (more : List (BinOp × Expr)) (t : OpTree) :
    (more.foldl (fun tree p ↦ attach p.1 p.2 tree) t).map f =
      (more.map fun p ↦ (p.1, f p.2)).foldl (fun tree p ↦ attach p.1 p.2 tree) (t.map f) := by
  induction more generalizing t with
  | nil => rfl
  | cons p more ih => rw [List.foldl_cons, ih, map_attach, List.map_cons, List.foldl_cons]

/-- The expression of a grouped row, with nothing noted in the groups. -/
def toPlain : OpTree → Expr
  | leaf e => e
  | node op l r => .binary default op l.toPlain r.toPlain

theorem plain_toExpr (t : OpTree) : t.toExpr.plain = (t.map Expr.plain).toPlain := by
  induction t with
  | leaf e => rfl
  | node op l r ihl ihr => rw [toExpr, Expr.plain_binary, ihl, ihr, map, toPlain]

end OpTree

/-- **A row is grouped to the tree of groups whose row it is**, up to notes. -/
theorem Expr.plain_ofRow {first : Expr} {more : List (BinOp × Expr)} {t : OpTree} (ht : t.Grouped)
    (hfirst : first.plain = t.first) (hmore : (more.map fun p ↦ (p.1, p.2.plain)) = t.more) :
    (ofRow first more).plain = t.toPlain := by
  rw [ofRow, OpTree.plain_toExpr, OpTree.map_foldl_attach, hmore, OpTree.map, hfirst,
    OpTree.foldl_attach_eq ht]

/-! ### Climbing -/

namespace BinOp

/-- The **powers** of an operator, over what is on its left and over what is on its right. The
second one is greater, so that of two equal operators the left one comes first. -/
def powers : BinOp → Nat × Nat
  | .bitOr => (1, 2)
  | .bitXor => (3, 4)
  | .bitAnd => (5, 6)
  | .add => (7, 8)
  | .sub => (7, 8)
  | .mul => (9, 10)
  | .div => (9, 10)
  | .mod => (9, 10)

theorem powers_fst_lt_iff (op : BinOp) (k : Nat) : op.powers.1 < 2 * k ↔ op.level ≤ k := by
  have hpowers : op.powers.1 + 1 = 2 * op.level := by cases op <;> rfl
  omega

theorem powers_snd (op : BinOp) : op.powers.2 = 2 * op.level := by
  cases op <;> rfl

theorem level_pos (op : BinOp) : 0 < op.level := by
  cases op <;> decide

theorem level_lt (op : BinOp) : op.level < 6 := by
  cases op <;> decide

end BinOp

namespace Expr

/-- **Climbs** along a row behind a left operand, and gives the expression that is built and what is
left of the row. An operator with less power over the left operand than the least that is asked for
is left. Behind any other one the right operand is built by climbing, where its power over the right
is asked for; the two operands together are the left one of what follows. -/
def climb (least : Nat) (lhs : Expr) (row : List (BinOp × Expr)) :
    Expr × { rest : List (BinOp × Expr) // rest.length ≤ row.length } :=
  match row with
  | [] => (lhs, ⟨[], Nat.le_refl _⟩)
  | (op, operand) :: more =>
    if op.powers.1 < least then (lhs, ⟨(op, operand) :: more, Nat.le_refl _⟩)
    else
      let (rhs, ⟨rest, hrest⟩) := climb op.powers.2 operand more
      let (e, ⟨rest', hrest'⟩) :=
        climb least (.binary (.untyped (lhs.span.merge rhs.span)) op lhs rhs) rest
      (e, ⟨rest', Nat.le_succ_of_le (Nat.le_trans hrest' hrest)⟩)
termination_by row.length
decreasing_by
  · exact Nat.lt_succ_self _
  · exact Nat.lt_succ_of_le hrest

/-- What climbing with a least power of `2 * k` has built from the group `t` and a row: a group that
holds more tightly than `k`, and an operator that does not is next. -/
structure Climbed (k : Nat) (t : OpTree) (row : List (BinOp × Expr)) (e : Expr)
    (rest : List (BinOp × Expr)) (group : OpTree) : Prop where
  grouped : group.Grouped
  lt_level : k < group.level
  toExpr_eq : e = group.toExpr
  first_eq : group.first = t.first
  more_eq : group.more ++ rest = t.more ++ row
  next_le : ∀ p ∈ rest.head?, p.1.level ≤ k

/-- The invariant of climbing: what is on the left is a group that holds more tightly than asked
for, and at least as tightly as what is next. -/
theorem exists_climbed {least k : Nat} {lhs : Expr} {t : OpTree} {row : List (BinOp × Expr)}
    (hleast : least = 2 * k) (hlhs : lhs = t.toExpr) (ht : t.Grouped) (hk : k < t.level)
    (hnext : ∀ p ∈ row.head?, p.1.level ≤ t.level) :
    ∃ group, Climbed k t row (climb least lhs row).1 (climb least lhs row).2.1 group := by
  fun_induction climb least lhs row generalizing k t with
  | case1 least lhs => exact ⟨t, ht, hk, hlhs, rfl, rfl, nofun⟩
  | case2 least lhs op operand more hlt =>
    refine ⟨t, ht, hk, hlhs, rfl, rfl, fun p hp ↦ ?_⟩
    obtain rfl := Option.mem_some.1 hp
    exact (op.powers_fst_lt_iff k).1 (hleast ▸ hlt)
  | case3 least lhs op operand more hge rhs rest hrest hrhs e rest' hrest' he ihrhs ih =>
    rw [hrhs] at ihrhs
    rw [he] at ih
    have hop : k < op.level :=
      Nat.not_le.1 fun h ↦ hge (hleast ▸ (op.powers_fst_lt_iff k).2 h)
    obtain ⟨r, hr⟩ := ihrhs (t := .leaf operand) op.powers_snd rfl trivial op.level_lt
      fun p _ ↦ Nat.le_of_lt p.1.level_lt
    -- the two operands are a group again, and what is next holds no more tightly than it
    have hjoined : .binary (.untyped (lhs.span.merge rhs.span)) op lhs rhs =
        (OpTree.node op t r).toExpr := by
      rw [OpTree.toExpr, ← hlhs, ← hr.toExpr_eq]
    have hgrouped : (OpTree.node op t r).Grouped :=
      ⟨⟨hnext _ rfl, ht⟩, hr.lt_level, hr.grouped⟩
    obtain ⟨group, h⟩ := ih hleast hjoined hgrouped hop hr.next_le
    have hrow : r.more ++ rest = more := hr.more_eq
    have hfirst : r.first = operand := hr.first_eq
    refine ⟨group, h.grouped, h.lt_level, h.toExpr_eq, h.first_eq, h.more_eq.trans ?_, h.next_le⟩
    rw [OpTree.more, List.append_assoc, List.cons_append, hrow, hfirst]

/-- **Climbing along a whole row builds the expression of the row.** -/
theorem climb_eq_ofRow (first : Expr) (more : List (BinOp × Expr)) :
    (climb 0 first more).1 = ofRow first more ∧ (climb 0 first more).2.1 = [] := by
  have hnext : ∀ p ∈ more.head?, p.1.level ≤ (OpTree.leaf first).level :=
    fun p _ ↦ Nat.le_of_lt p.1.level_lt
  obtain ⟨group, h⟩ : ∃ group, Climbed 0 (.leaf first) more (climb 0 first more).1
      (climb 0 first more).2.1 group :=
    exists_climbed rfl rfl trivial (Nat.succ_pos _) hnext
  have hrest : (climb 0 first more).2.1 = [] := by
    refine List.head?_eq_none_iff.1 (Option.eq_none_iff_forall_not_mem.2 fun p hp ↦ ?_)
    exact absurd (h.next_le p hp) (Nat.not_le.2 p.1.level_pos)
  have hmore : group.more = more := by
    have hmore := h.more_eq
    rw [hrest, List.append_nil] at hmore
    exact hmore
  have hfirst : group.first = first := h.first_eq
  refine ⟨h.toExpr_eq.trans ?_, hrest⟩
  rw [ofRow, ← hmore, ← hfirst, OpTree.foldl_attach_eq h.grouped]

end Expr

end FrontEnd
