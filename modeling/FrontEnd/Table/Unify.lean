import FrontEnd.Table.Reading

/-!
# Making types agree

The questions that checking asks of two types, or of one, all may leave something behind in the
table: open holes are merged, committed or limited so that the answer stays true. Each operation
returns its answer together with the table as it is then. A failed operation keeps what it did
before it failed, except where a single step fails: merging, committing and limiting change all or
nothing.

`unify` descends through commitments, not only into parts of its arguments, so what bounds it is the
size of the expanded types. `unifyDepth` is such a bound for tables without circular commitments:
on any way into an expanded type there are at most as many commitments as holes, and between two of
them at most the height of one stored type.
-/

namespace FrontEnd.Table

/-- The answer of an operation that either happens or leaves the table alone. -/
def orElseSame (t : Table) : Option Table → Bool × Table
  | some u => (true, u)
  | none => (false, t)

/-- Makes two lists of types agree in order with `step`, up to the first pair that fails. -/
def unifyAll (step : Table → Ty → Ty → Bool × Table) : Table → List Ty → List Ty → Bool × Table
  | t, [], [] => (true, t)
  | t, a :: as, b :: bs =>
    match step t a b with
    | (true, u) => unifyAll step u as bs
    | (false, u) => (false, u)
  | t, _, _ => (false, t)

/-- Makes two types agree, going at most `n` constructors deep. Two open holes merge, an open hole
is committed to the type it meets, and other types agree part by part. -/
def unifyTo [RootChoice] : Nat → Table → Ty → Ty → Bool × Table
  | 0, t, _, _ => (false, t)
  | n + 1, t, a, b =>
    match t.head a, t.head b with
    | .hole i, .hole j => t.orElseSame (t.join? i j)
    | .hole i, b => t.orElseSame (t.commit? i b)
    | a, .hole j => t.orElseSame (t.commit? j a)
    | .pointer c a, .pointer d b => if c = d then unifyTo n t a b else (false, t)
    | .func ps r, .func qs s =>
      if ps.length = qs.length then
        -- a failure among the parameters keeps what the parameters before it decided
        match unifyAll (unifyTo n) t ps qs with
        | (true, u) => unifyTo n u r s
        | (false, u) => (false, u)
      else (false, t)
    | a, b => (a = b, t)

/-- The greatest height of a type that a class is committed to. -/
def maxHeight (t : Table) : Nat :=
  (t.committed.map Ty.height).foldl max 0

/-- How deep `unify` has to go at most. -/
def unifyDepth (t : Table) (a b : Ty) : Nat :=
  (t.size + 1) * (t.maxHeight + a.height + b.height + 1)

/-- Makes two types agree. -/
def unify [RootChoice] (t : Table) (a b : Ty) : Bool × Table :=
  unifyTo (t.unifyDepth a b) t a b

/-- Makes a value of type `actual` usable where `expected` is asked for. There is no implicit
widening, so the two have to agree. -/
def convert [RootChoice] (t : Table) (expected actual : Ty) : Bool × Table :=
  t.unify expected actual

/-- Makes a type a number type. -/
def requireNumber (t : Table) (a : Ty) : Bool × Table :=
  match t.head a with
  | .hole i => t.orElseSame (t.limit? i .number)
  | a => (a.isNumeric, t)

/-- Makes a type an integer type. -/
def requireInteger (t : Table) (a : Ty) : Bool × Table :=
  match t.head a with
  | .hole i => t.orElseSame (t.limit? i .int)
  | a => (a.isInt, t)

/-- An explicit cast of an open hole: the hole takes the type it is cast to if it can; any other
number type is a conversion and leaves it open; a boolean or a pointer is made from an integer. -/
def castHole (t : Table) (dest : Ty) (i : Nat) : Bool × Table :=
  if t.kind i = .null || t.accepts i dest then t.orElseSame (t.commit? i dest)
  -- a float literal cast to an integer type, say: it keeps a type of its own
  else if dest.isNumeric then (true, t)
  else if dest.isBool || dest.isPointer then t.orElseSame (t.limit? i .int)
  else (false, t)

/-- An explicit cast between types that are not open: numbers to numbers, integers to booleans and
back, pointers to pointers of the same element that do not lose `const`, and any type to itself. -/
def castKnown [RootChoice] (t : Table) (dest src : Ty) : Bool × Table :=
  if src.isNumeric && dest.isNumeric then (true, t)
  else if (src.isInt && dest.isBool) || (src.isBool && dest.isInt) then (true, t)
  else
    match src, dest with
    | .pointer c a, .pointer d b => if !c || d then t.unify a b else (false, t)
    | src, dest => t.unify dest src

/-- Casts a value of type `src` to `dest`. -/
def cast [RootChoice] (t : Table) (dest src : Ty) : Bool × Table :=
  match t.head src with
  | .hole i => t.castHole (t.head dest) i
  | src => t.castKnown (t.head dest) src

end FrontEnd.Table
