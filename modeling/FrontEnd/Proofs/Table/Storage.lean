import FrontEnd.Proofs.Table.Disagreement
import FrontEnd.Proofs.Table.Histories

/-!
# Reading leaves a table as it is

To expand or to describe a type is only to look things up, and looking up is no change to a table.
But a table may be kept in a form that looking up does change: where holes are linked to each other
and the links lead to a representative, a look-up may shorten the way for the next one. A
**storage** (`Storage`) is any such form. It has look-ups that tell what stands in the table and
leave the table, and whatever else it has may be rearranged by them. Programs that only look up
inherit this from their steps (`Storage.Reads`), so what they give is what the table gives, and the
table is there afterwards with every class, limit and commitment.

Links that are shortened are one storage (`Forest`).

Expanding and describing follow the same commitments, and a description is the text of the expanded
type with its holes named by their limits (`Table.describe_eq_textBy_expand`).
-/

namespace FrontEnd

/-! ### Types, part by part -/

namespace Ty

variable {m : Type → Type} [Monad m]

mutual

/-- The type with every hole replaced by what a program gives for it, from left to right. -/
def substM (f : Nat → m Ty) : Ty → m Ty
  | pointer c a => do return pointer c (← a.substM f)
  | func ps r => do
    let qs ← substAllM f ps
    return func qs (← r.substM f)
  | hole i => f i
  | a => return a

/-- The types of a list with every hole replaced. -/
def substAllM (f : Nat → m Ty) : List Ty → m (List Ty)
  | [] => return []
  | a :: as => do
    let b ← a.substM f
    return b :: (← substAllM f as)

end

mutual

/-- The text of a type in which a hole is written as a program says, from left to right. -/
def renderM (f : Nat → m String) : Ty → m String
  | pointer true a => do return "*const " ++ (← a.renderM f)
  | pointer false a => do return "*" ++ (← a.renderM f)
  | func ps r => do
    let texts ← renderAllM f ps
    return renderParams texts ++ " -> " ++ (← r.renderM f)
  | hole i => f i
  | a => return a.text

/-- The texts of the types of a list. -/
def renderAllM (f : Nat → m String) : List Ty → m (List String)
  | [] => return []
  | a :: as => do
    let text ← a.renderM f
    return text :: (← renderAllM f as)

end

end Ty

namespace Table

/-! ### Storages -/

/-- **A storage** of tables. Looking up may change what is kept, but not the table that is kept. -/
structure Storage (σ : Type) where
  /-- The table that is kept. -/
  table : σ → Table
  /-- Looks up the representative of a hole. -/
  find : Nat → StateM σ Nat
  /-- Looks up what is known of the class of a hole. -/
  classOf : Nat → StateM σ HoleClass
  /-- A representative that is looked up is that of the table. -/
  find_fst : ∀ s i, i < (table s).size → ((find i).run s).1 = (table s).find i
  /-- Looking up a representative leaves the table. -/
  find_snd : ∀ s i, i < (table s).size → table ((find i).run s).2 = table s
  /-- A class that is looked up is that of the table. -/
  classOf_fst : ∀ s i, i < (table s).size → ((classOf i).run s).1 = (table s).classOf i
  /-- Looking up a class leaves the table. -/
  classOf_snd : ∀ s i, i < (table s).size → table ((classOf i).run s).2 = table s

namespace Storage

variable {σ : Type} (m : Storage σ)

/-- The type behind a hole, following at most `n` commitments on every way into it. -/
def image : Nat → Nat → StateM σ Ty
  | 0, i => return .hole (← m.find i)
  | n + 1, i => do
    match (← m.classOf i).type? with
    | none => return .hole (← m.find i)
    | some a => a.substM (image n)

/-- The type with every committed hole replaced by its type, all the way down. -/
def expand (n : Nat) (a : Ty) : StateM σ Ty :=
  a.substM (m.image n)

/-- The text of a hole, following at most `n` commitments on every way into it. -/
def holeName : Nat → Nat → StateM σ String
  | 0, i => return (← m.classOf i).kind.name
  | n + 1, i => do
    match (← m.classOf i).type? with
    | none => return (← m.classOf (← m.find i)).kind.name
    | some a => a.renderM (holeName n)

/-- The text of a type in a message. -/
def describe (n : Nat) (a : Ty) : StateM σ String :=
  a.renderM (m.holeName n)

/-! ### Programs that only look up -/

/-- **A program reads a value off a table**: from whatever keeps the table it gives the value, and
the table is kept. -/
def Reads {α : Type} (t : Table) (p : StateM σ α) (v : α) : Prop :=
  ∀ s, m.table s = t → (p.run s).1 = v ∧ m.table (p.run s).2 = t

variable {m} {α β : Type} {t : Table} {i : Nat} {a : Ty}

theorem reads_pure (v : α) : m.Reads t (pure v) v :=
  fun _ hs ↦ ⟨rfl, hs⟩

/-- **Steps that read are a program that reads.** -/
theorem Reads.bind {p : StateM σ α} {f : α → StateM σ β} {v : α} {w : β} (hp : m.Reads t p v)
    (hf : m.Reads t (f v) w) : m.Reads t (p >>= f) w := by
  intro s hs
  obtain ⟨hv, htable⟩ := hp s hs
  have hrun : (p >>= f).run s = (f v).run (p.run s).2 := by
    rw [← hv]
    rfl
  rw [hrun]
  exact hf _ htable

theorem reads_find (hi : i < t.size) : m.Reads t (m.find i) (t.find i) := by
  rintro s rfl
  exact ⟨m.find_fst s i hi, m.find_snd s i hi⟩

theorem reads_classOf (hi : i < t.size) : m.Reads t (m.classOf i) (t.classOf i) := by
  rintro s rfl
  exact ⟨m.classOf_fst s i hi, m.classOf_snd s i hi⟩

mutual

theorem reads_substM {f : Nat → StateM σ Ty} {g : Nat → Ty} :
    ∀ a : Ty, (∀ i ∈ a.holes, m.Reads t (f i) (g i)) → m.Reads t (a.substM f) (a.subst g)
  | .scalar _, _ => reads_pure _
  | .unit, _ => reads_pure _
  | .pointer _ a, h => (reads_substM a h).bind (reads_pure _)
  | .func ps r, h =>
    (reads_substAllM ps fun a ha i hi ↦ h i (Ty.mem_holes_func.2 (.inl ⟨a, ha, hi⟩))).bind
      ((reads_substM r fun i hi ↦ h i (Ty.mem_holes_func.2 (.inr hi))).bind (reads_pure _))
  | .hole i, h => h i (List.mem_singleton.2 rfl)

theorem reads_substAllM {f : Nat → StateM σ Ty} {g : Nat → Ty} :
    ∀ as : List Ty, (∀ a ∈ as, ∀ i ∈ a.holes, m.Reads t (f i) (g i)) →
      m.Reads t (Ty.substAllM f as) (Ty.substAll g as)
  | [], _ => reads_pure _
  | a :: as, h =>
    have h := List.forall_mem_cons.1 h
    (reads_substM a h.1).bind ((reads_substAllM as h.2).bind (reads_pure _))

end

mutual

theorem reads_renderM {f : Nat → StateM σ String} {g : Nat → String} :
    ∀ a : Ty, (∀ i ∈ a.holes, m.Reads t (f i) (g i)) → m.Reads t (a.renderM f) (a.render g)
  | .scalar _, _ => reads_pure _
  | .unit, _ => reads_pure _
  | .pointer true a, h => (reads_renderM a h).bind (reads_pure _)
  | .pointer false a, h => (reads_renderM a h).bind (reads_pure _)
  | .func ps r, h =>
    (reads_renderAllM ps fun a ha i hi ↦ h i (Ty.mem_holes_func.2 (.inl ⟨a, ha, hi⟩))).bind
      ((reads_renderM r fun i hi ↦ h i (Ty.mem_holes_func.2 (.inr hi))).bind (reads_pure _))
  | .hole i, h => h i (List.mem_singleton.2 rfl)

theorem reads_renderAllM {f : Nat → StateM σ String} {g : Nat → String} :
    ∀ as : List Ty, (∀ a ∈ as, ∀ i ∈ a.holes, m.Reads t (f i) (g i)) →
      m.Reads t (Ty.renderAllM f as) (Ty.renderAll g as)
  | [], _ => reads_pure _
  | a :: as, h =>
    have h := List.forall_mem_cons.1 h
    (reads_renderM a h.1).bind ((reads_renderAllM as h.2).bind (reads_pure _))

end

theorem reads_image (ht : t.Valid) (n : Nat) (hi : i < t.size) :
    m.Reads t (m.image n i) (t.image n i) := by
  induction n generalizing i with
  | zero => exact (reads_find hi).bind (reads_pure _)
  | succ n ih =>
    refine (reads_classOf hi).bind ?_
    cases htype : t.type? i with
    | none =>
      rw [image_of_none htype, show (t.classOf i).type? = none from htype]
      exact (reads_find hi).bind (reads_pure _)
    | some a =>
      rw [image_succ_of_some htype, show (t.classOf i).type? = some a from htype]
      exact reads_substM a fun j hj ↦ ih (ht.covers htype j hj)

theorem reads_holeName (ht : t.Valid) (n : Nat) (hi : i < t.size) :
    m.Reads t (m.holeName n i) (t.holeName n i) := by
  induction n generalizing i with
  | zero => exact (reads_classOf hi).bind (reads_pure _)
  | succ n ih =>
    refine (reads_classOf hi).bind ?_
    cases htype : t.type? i with
    | none =>
      rw [holeName_of_none htype, show (t.classOf i).type? = none from htype, ← kind_find]
      exact (reads_find hi).bind ((reads_classOf (find_lt hi)).bind (reads_pure _))
    | some a =>
      rw [holeName_succ_of_some htype, show (t.classOf i).type? = some a from htype]
      exact reads_renderM a fun j hj ↦ ih (ht.covers htype j hj)

end Storage

/-! ### Links between holes -/

/-- Where the way over `n` links from a hole ends. -/
def climb (links : List Nat) : Nat → Nat → Nat
  | 0, i => i
  | n + 1, i => climb links n (links[i]?.getD i)

section Climb

variable {links : List Nat} {i j r : Nat}

theorem climb_add (m n i : Nat) : climb links (m + n) i = climb links n (climb links m i) := by
  induction m generalizing i with
  | zero => rw [Nat.zero_add, climb]
  | succ m ih => rw [Nat.succ_add, climb, climb, ih]

theorem climb_of_linked (hr : links[r]? = some r) (n : Nat) : climb links n r = r := by
  induction n with
  | zero => rfl
  | succ n ih => rw [climb, hr, Option.getD_some, ih]

/-- All ways from a hole that end at the end of their links end at the same place. -/
theorem climb_unique {m n s : Nat} (hr : links[r]? = some r) (hs : links[s]? = some s)
    (hm : climb links m i = r) (hn : climb links n i = s) : r = s := by
  rw [← climb_of_linked hr n, ← climb_of_linked hs m, ← hm, ← hn, ← climb_add, ← climb_add,
    Nat.add_comm]

/-- **Shortening one way** leaves the ends of all ways where they are. -/
theorem climb_set {m n s : Nat} (hi : i < links.length) (hr : links[r]? = some r)
    (hm : climb links m i = r) (hs : links[s]? = some s) (hn : climb links n j = s) :
    climb (links.set i r) n j = s := by
  have hr' : (links.set i r)[r]? = some r := by
    by_cases hir : i = r
    · rw [hir, List.getElem?_set_self (hir ▸ hi)]
    · rw [List.getElem?_set_ne hir, hr]
  induction n generalizing j with
  | zero => exact hn
  | succ n ih =>
    rw [climb]
    by_cases hij : i = j
    · subst hij
      rw [List.getElem?_set_self hi, Option.getD_some, climb_of_linked hr']
      exact climb_unique hr hs hm hn
    · rw [List.getElem?_set_ne hij]
      exact ih hn

end Climb

/-- **A forest** keeps the representatives of a table in links between holes. -/
structure Forest where
  /-- The table. -/
  table : Table
  /-- The hole to which each hole is linked. -/
  links : List Nat
  /-- Every hole is linked. -/
  length_links : links.length = table.size
  /-- A representative is linked to itself. -/
  linked : ∀ i < table.size, links[table.find i]? = some (table.find i)
  /-- Links lead to representatives. -/
  leads : ∀ i < table.size, climb links table.size i = table.find i

namespace Forest

/-- The forest in which the way from one hole has been shortened to one link. -/
def shorten (f : Forest) (i : Nat) : Forest :=
  if hi : i < f.table.size then
    { f with
      links := f.links.set i (climb f.links f.table.size i)
      length_links := by rw [List.length_set, f.length_links]
      linked := fun j hj ↦ by
        rw [f.leads i hi]
        by_cases hij : i = f.table.find j
        · rw [hij, find_find, List.getElem?_set_self (by rw [f.length_links]; exact find_lt hj)]
        · rw [List.getElem?_set_ne hij, f.linked j hj]
      leads := fun j hj ↦ climb_set (by rw [f.length_links]; exact hi)
        (by rw [f.leads i hi]; exact f.linked i hi) rfl (f.linked j hj) (f.leads j hj) }
  else f

@[simp] theorem table_shorten (f : Forest) (i : Nat) : (f.shorten i).table = f.table := by
  rw [shorten]
  split <;> rfl

/-- **Forests are a storage**, of which every look-up shortens a way. -/
def storage : Storage Forest where
  table := table
  find i := modifyGet fun f : Forest ↦ (climb f.links f.table.size i, f.shorten i)
  classOf i := modifyGet fun f : Forest ↦
    (f.table.classes[climb f.links f.table.size i]?.getD default, f.shorten i)
  find_fst f i hi := f.leads i hi
  find_snd f i _ := f.table_shorten i
  classOf_fst f i hi := by
    show f.table.classes[climb f.links f.table.size i]?.getD default = _
    rw [f.leads i hi, classOf]
  classOf_snd f i _ := f.table_shorten i

end Forest

/-! ### Descriptions -/

variable {t : Table} {a : Ty}

section Bounds

variable {n : Nat} (ht : t.Valid) (hacyclic : t.Acyclic) (hn : t.size ≤ n) (ha : t.Covers a)

include ht hacyclic hn ha

/-- **Expanding needs no larger bound** than the number of holes. -/
theorem subst_image : a.subst (t.image n) = t.expand a := by
  refine Ty.subst_congr fun i hi ↦ ?_
  have hlt := reachCount_lt_size hacyclic (ha i hi)
  exact follow_stable (f := t.image) hacyclic ht (fun _ _ _ ↦ image_succ_congr)
    (Nat.lt_of_lt_of_le hlt hn) hlt

/-- **Describing needs no larger bound** than the number of holes. -/
theorem render_holeName : a.render (t.holeName n) = t.describe a := by
  refine Ty.render_congr fun i hi ↦ ?_
  have hlt := reachCount_lt_size hacyclic (ha i hi)
  exact follow_stable (f := t.holeName) hacyclic ht (fun _ _ _ ↦ holeName_succ_congr)
    (Nat.lt_of_lt_of_le hlt hn) hlt

end Bounds

/-- **The holes that are left** in an expanded type are open representatives. -/
theorem open_of_mem_holes_expand (ht : t.Valid) (hacyclic : t.Acyclic) (ha : t.Covers a) :
    ∀ i ∈ (t.expand a).holes, i < t.size ∧ t.find i = i ∧ t.type? i = none := by
  have hparts {a : Ty} (h : ∀ j ∈ a.holes, ∀ i ∈ (t.expand (.hole j)).holes,
      i < t.size ∧ t.find i = i ∧ t.type? i = none) :
      ∀ i ∈ (t.expand a).holes, i < t.size ∧ t.find i = i ∧ t.type? i = none := by
    intro i hi
    obtain ⟨j, hj, hij⟩ := Ty.mem_holes_subst.1 hi
    exact h j hj i hij
  refine hparts fun j hj ↦ hole_induction ht hacyclic (P := fun a ↦ ∀ i ∈ (t.expand a).holes,
    i < t.size ∧ t.find i = i ∧ t.type? i = none) ?_ ?_ (ha j hj)
  · intro j hj hnone i hi
    rw [expand_of_none hnone] at hi
    obtain rfl := List.mem_singleton.1 hi
    exact ⟨find_lt hj, find_find t j, by rw [type?_find, hnone]⟩
  · intro j a _ hsome ih
    rw [expand_of_some ht hacyclic hsome]
    exact hparts ih

/-- A concrete type is described by its text, whatever the table. -/
theorem describe_of_isConcrete (t : Table) (ha : a.isConcrete = true) : t.describe a = a.text := by
  rw [Ty.text_eq_render]
  exact Ty.render_congr fun i hi ↦ absurd hi (Ty.not_mem_holes_of_isConcrete ha i)

/-- **A description is the text of the expanded type.** Where commitments do not run in a circle,
expanding and describing come to an end. What is described is the expanded type, with the holes that
are left, which are open, named by the limits of their classes; so a concrete type is described by
its text. And whatever keeps the table, with any bound that is not below the number of holes both
give just that, and the table is kept. -/
theorem describe_eq_textBy_expand (ht : t.Valid) (hacyclic : t.Acyclic) (ha : t.Covers a) :
    (t.ExpandsTo a (t.expand a) ∧ t.DescribesTo a (t.describe a)) ∧
    t.describe a = ((t.expand a).textBy fun i ↦ (t.kind i).name) ∧
    (∀ i ∈ (t.expand a).holes, i < t.size ∧ t.find i = i ∧ t.type? i = none) ∧
    (∀ b : Ty, b.isConcrete = true → t.describe b = b.text) ∧
    ∀ (σ : Type) (m : Storage σ) (s : σ), m.table s = t → ∀ n, t.size ≤ n →
      (((m.expand n a).run s).1 = t.expand a ∧ m.table ((m.expand n a).run s).2 = t) ∧
      ((m.describe n a).run s).1 = t.describe a ∧ m.table ((m.describe n a).run s).2 = t := by
  refine ⟨⟨expandsTo_expand ht hacyclic ha, describesTo_describe ht hacyclic ha⟩, ?_,
    open_of_mem_holes_expand ht hacyclic ha, fun b hb ↦ describe_of_isConcrete t hb,
    fun σ m s hs n hn ↦ ⟨?_, ?_⟩⟩
  · rw [describe_eq_render ht hacyclic ha, Ty.textBy_eq_render]
  · rw [← subst_image ht hacyclic hn ha]
    exact Storage.reads_substM a (fun i hi ↦ Storage.reads_image ht n (ha i hi)) s hs
  · rw [← render_holeName ht hacyclic hn ha]
    exact Storage.reads_renderM a (fun i hi ↦ Storage.reads_holeName ht n (ha i hi)) s hs

/-- The history of four holes that are joined by twos and then all, and committed to a const pointer
to a fifth one. -/
def joined : List Action :=
  [.fresh .number, .fresh .null, .fresh .null, .fresh .null, .fresh .null, .join 1 2, .join 3 4,
    .join 1 3, .commit 1 (.pointer true (.hole 0))]

/-- The links that such joining makes: it takes two of them from the hole `1`. -/
def Forest.joined : Forest where
  table := empty.acts Table.joined
  links := [0, 2, 4, 4, 4]
  length_links := by decide
  linked := by decide
  leads := by decide

/-- A function with a parameter behind two links, which are one after it has been described. -/
theorem describe_eq_textBy_expand_joined :
    let f := Forest.joined
    let a := Ty.func [.hole 1, .bool] .unit
    f.table.describe a = "(*const untyped number, bool) -> ()" ∧
      f.table.describe a = ((f.table.expand a).textBy fun i ↦ (f.table.kind i).name) ∧
      f.table.describe .i64 = Ty.i64.text ∧
      ((Forest.storage.describe 5 a).run f).1 = f.table.describe a ∧
      ((Forest.storage.describe 5 a).run f).2.table = f.table ∧
      ((Forest.storage.describe 5 a).run f).2.links = [0, 4, 4, 4, 4] := by
  intro f a
  have hvalid : f.table.Valid := (gains_acts valid_empty (by decide)).1
  have hacyclic : f.table.Acyclic := by
    have hlt : ∀ i < f.table.size, ∀ a ∈ f.table.type? i, ∀ k ∈ a.holes,
        f.table.find k < f.table.find i := by decide
    exact acyclic_of_find_lt hlt
  obtain ⟨-, htext, -, hconcrete, hstored⟩ :=
    describe_eq_textBy_expand (a := a) hvalid hacyclic (by decide)
  obtain ⟨-, hdescribe, htable⟩ := hstored Forest Forest.storage f rfl 5 (by decide)
  exact ⟨by decide, htext, hconcrete .i64 rfl, hdescribe, htable, by decide⟩

end Table

end FrontEnd
