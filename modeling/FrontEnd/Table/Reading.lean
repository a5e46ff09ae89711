import FrontEnd.Table.Basic
import FrontEnd.Ty.Printer

/-!
# Reading types through a table

A type with holes means what the table makes of it. `head` uncovers only the outermost constructor,
`expand` replaces every committed hole all the way down, and `describe` writes the expanded type,
with open holes named by their limits.

Commitments may mention further holes, so all three follow commitments from class to class. Nothing
stops a table from being committed in a circle, and then following would not end; each function
therefore follows at most as many commitments on one way as there are holes. Where commitments do
not run in a circle, no way is longer than that and the bound is never met.
-/

namespace FrontEnd.Table

/-- What stands behind a hole, following at most `n` commitments to further holes. -/
def headOf (t : Table) : Nat → Nat → Ty
  | 0, i => .hole (t.find i)
  | n + 1, i =>
    match t.type? i with
    | none => .hole (t.find i)
    | some (.hole j) => t.headOf n j
    | some a => a

/-- The type with its outermost constructor uncovered: a committed hole gives way to its type, an
open one to its representative. -/
def head (t : Table) : Ty → Ty
  | .hole i => t.headOf t.size i
  | a => a

/-- The type behind a hole, following at most `n` commitments on every way into it. -/
def image (t : Table) : Nat → Nat → Ty
  | 0, i => .hole (t.find i)
  | n + 1, i =>
    match t.type? i with
    | none => .hole (t.find i)
    | some a => a.subst (t.image n)

/-- The type with every committed hole replaced by its type, all the way down, and every open hole
by its representative. -/
def expand (t : Table) (a : Ty) : Ty :=
  a.subst (t.image t.size)

/-- The text of a hole, following at most `n` commitments on every way into it. -/
def holeName (t : Table) : Nat → Nat → String
  | 0, i => (t.kind i).name
  | n + 1, i =>
    match t.type? i with
    | none => (t.kind i).name
    | some a => a.render (t.holeName n)

/-- The text of a type in a message. -/
def describe (t : Table) (a : Ty) : String :=
  a.render (t.holeName t.size)

/-- The type with every hole replaced by the least of its class, so that types which differ only in
the choice of members look the same. -/
def canonical (t : Table) (a : Ty) : Ty :=
  a.subst fun i ↦ .hole (t.least i)

end FrontEnd.Table
