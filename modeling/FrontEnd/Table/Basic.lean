import FrontEnd.Ty.HoleKind

/-!
# The table of holes

While a statement is checked, its literals have holes for types, and this table keeps what is known
of them. Holes that have to agree form a **class**; a class has a limit (`HoleKind`) and, once
something decides it, the type it is committed to.

The table stores the representative of every hole directly, and what is known of a class at its
representative. There are no chains of parents to follow, so looking something up is one step and
needs no argument that it ends; merging two classes gives all their members one representative. That
the representative of a representative is itself is part of the type.

Which member represents a class that has been merged from two is no business of the rules of the
language. It is a parameter (`RootChoice`), with a default that keeps the representative of the
class that has seen more merges.
-/

namespace FrontEnd

/-- What is known of a class of holes. -/
structure HoleClass where
  /-- The limit on the types it may take. -/
  kind : HoleKind
  /-- The type it is committed to, if it is. -/
  type? : Option Ty
deriving DecidableEq, Repr, Inhabited

namespace HoleClass

/-- The common commitment of two classes; `none` if they are committed to different types. -/
def commonType? : Option Ty → Option Ty → Option (Option Ty)
  | some a, some b => if a = b then some (some a) else none
  | some a, none => some (some a)
  | none, b? => some b?

/-- What is known of two classes taken together; `none` if the two cannot hold together. The
commitment has to be one that the stricter limit still admits. -/
def merge? (a b : HoleClass) : Option HoleClass := do
  let kind ← a.kind.meet? b.kind
  let type? ← commonType? a.type? b.type?
  if type?.all kind.admits then some { kind, type? } else none

end HoleClass

/-- A table of holes. Holes are numbered from zero in the order in which they were made. -/
structure Table where
  /-- The representative of each hole. -/
  roots : List Nat
  /-- The number of merges of equals that a representative has come through. -/
  ranks : List Nat
  /-- What is known of the class of each representative; entries of other holes are not read. -/
  classes : List HoleClass
  /-- Every hole has a rank. -/
  ranks_length : ranks.length = roots.length
  /-- Every hole has a class. -/
  classes_length : classes.length = roots.length
  /-- A representative represents itself. -/
  root_of_root : ∀ r ∈ roots, roots[r]? = some r

namespace Table

/-- The table without holes. -/
def empty : Table where
  roots := []
  ranks := []
  classes := []
  ranks_length := rfl
  classes_length := rfl
  root_of_root := by simp

instance : Inhabited Table :=
  ⟨empty⟩

/-- The number of holes. -/
def size (t : Table) : Nat :=
  t.roots.length

/-- Whether there is no hole. -/
def isEmpty (t : Table) : Bool :=
  t.size == 0

/-! ### Looking up -/

/-- The representative of the class of a hole. -/
def find (t : Table) (i : Nat) : Nat :=
  t.roots[i]?.getD i

/-- The rank of the class of a hole. -/
def rank (t : Table) (i : Nat) : Nat :=
  t.ranks[t.find i]?.getD 0

/-- What is known of the class of a hole. -/
def classOf (t : Table) (i : Nat) : HoleClass :=
  t.classes[t.find i]?.getD default

/-- The limit on a hole. -/
def kind (t : Table) (i : Nat) : HoleKind :=
  (t.classOf i).kind

/-- The type that a hole is committed to. -/
def type? (t : Table) (i : Nat) : Option Ty :=
  (t.classOf i).type?

/-- Whether a hole could be, or is, committed to a type. -/
def accepts (t : Table) (i : Nat) (a : Ty) : Bool :=
  match t.type? i with
  | some b => b = a
  | none => (t.kind i).admits a

/-- The types that classes are committed to. -/
def committed (t : Table) : List Ty :=
  (t.roots.zip t.classes).zipIdx.filterMap fun p ↦ if p.1.1 = p.2 then p.1.2.type? else none

/-- The least hole of the class of a hole. -/
def least (t : Table) (i : Nat) : Nat :=
  ((List.range t.size).find? fun j ↦ t.find j == t.find i).getD i

theorem find_of_lt {t : Table} {i : Nat} (h : i < t.size) : t.roots[i]? = some (t.find i) := by
  simp [find, List.getElem?_eq_getElem (show i < t.roots.length from h)]

theorem roots_find {t : Table} {i : Nat} (h : i < t.size) :
    t.roots[t.find i]? = some (t.find i) :=
  t.root_of_root _ (List.mem_of_getElem? (find_of_lt h))

/-! ### Making and changing -/

/-- The table with one more hole, in a class of its own; the hole is the old `size`. -/
def fresh (t : Table) (kind : HoleKind) : Table where
  roots := t.roots ++ [t.size]
  ranks := t.ranks ++ [0]
  classes := t.classes ++ [{ kind, type? := none }]
  ranks_length := by simp [t.ranks_length]
  classes_length := by simp [t.classes_length]
  root_of_root r hr := by
    rcases List.mem_append.1 hr with h | h
    · have hlt : r < t.roots.length := by
        have := t.root_of_root r h
        exact (List.getElem?_eq_some_iff.1 this).1
      rw [List.getElem?_append_left hlt]
      exact t.root_of_root r h
    · obtain rfl := List.mem_singleton.1 h
      simp [size]

/-- The table with something else known of the class of a hole. -/
def putClass (t : Table) (i : Nat) (c : HoleClass) : Table :=
  { t with
    classes := t.classes.set (t.find i) c
    classes_length := by simp [t.classes_length] }

/-- The table in which what is known of a hole is joined with `c`; `none` if they cannot hold
together. -/
def refine? (t : Table) (i : Nat) (c : HoleClass) : Option Table :=
  ((t.classOf i).merge? c).map (t.putClass i)

/-- The table in which a hole is committed to a type. A class is committed at most once, and only to
a type that its limit admits. -/
def commit? (t : Table) (i : Nat) (a : Ty) : Option Table :=
  match t.type? i with
  | some _ => none
  | none => t.refine? i { kind := t.kind i, type? := some a }

/-- The table in which a hole is under one more limit. -/
def limit? (t : Table) (i : Nat) (kind : HoleKind) : Option Table :=
  t.refine? i { kind, type? := none }

/-- The rank of a class made from classes of two ranks. -/
def joinedRank (m n : Nat) : Nat :=
  if m = n then m + 1 else max m n

/-- The table in which the classes represented by `a` and `b` have become one, which `w`, a member
of either, represents, and `c` is known of it. -/
def fuse (t : Table) (a b w : Nat) (c : HoleClass)
    (hw : t.roots[w]? = some a ∨ t.roots[w]? = some b) : Table where
  roots := t.roots.map fun r ↦ if r = a ∨ r = b then w else r
  ranks := t.ranks.set w (joinedRank (t.rank a) (t.rank b))
  classes := t.classes.set w c
  ranks_length := by simp [t.ranks_length]
  classes_length := by simp [t.classes_length]
  root_of_root r hr := by
    obtain ⟨s, hs, rfl⟩ := List.mem_map.1 hr
    by_cases h : s = a ∨ s = b
    · rcases hw with hw | hw <;> simp [h, hw]
    · simp [h, t.root_of_root s hs]

/-- The choice of a representative when two classes merge: any member of either. -/
class RootChoice where
  /-- The member that represents the class made from those of two holes. -/
  root : Table → Nat → Nat → Nat
  /-- It is a member of one of them. -/
  root_mem : ∀ (t : Table) {i j : Nat}, i < t.size → j < t.size →
    t.roots[root t i j]? = some (t.find i) ∨ t.roots[root t i j]? = some (t.find j)

/-- The representative of higher rank stays one, and of two equal ones the second. -/
instance byRank : RootChoice where
  root t i j := if t.rank j < t.rank i then t.find i else t.find j
  root_mem t i j hi hj := by
    split
    · exact .inl (roots_find hi)
    · exact .inr (roots_find hj)

/-- The table in which two holes are in one class; `none` if what is known of them cannot hold
together. -/
def join? [RootChoice] (t : Table) (i j : Nat) : Option Table :=
  -- two members of one class agree already, whatever is known of them
  if t.find i = t.find j then some t
  else if h : i < t.size ∧ j < t.size then
    ((t.classOf i).merge? (t.classOf j)).map fun c ↦
      t.fuse (t.find i) (t.find j) (RootChoice.root t i j) c (RootChoice.root_mem t h.1 h.2)
  else none

/-- The table in which an open hole has taken the default of its limit, if there is one. -/
def settle (t : Table) (i : Nat) : Table :=
  match t.type? i, (t.kind i).default? with
  | none, some a => (t.commit? i a).getD t
  | _, _ => t

/-- The table in which every open hole has taken the default of its limit. -/
def settleAll (t : Table) : Table :=
  (List.range t.size).foldl settle t

end Table

end FrontEnd
