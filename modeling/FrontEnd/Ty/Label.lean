import FrontEnd.Token.Parse
import FrontEnd.Ty.Basic

/-!
# Type labels

The types that a program can write down: scalars, and pointers to types that can be written down. A
label is read from the left, one star at a time.
-/

namespace FrontEnd.Ty

/-- Reads a type label from tokens, of which the one before ended at `lastStop`. -/
def labelFrom (lastStop : Nat) : List Token → Except ParseError (Ty × Cursor)
  | [] => .error (Cursor.mk [] lastStop).unexpected
  | t :: ts =>
    match t.kind with
    | .scalar s => .ok (scalar s, ⟨ts, t.span.stop⟩)
    | .sign .star =>
      match ts with
      | [] => .error (Cursor.mk [] t.span.stop).unexpected
      | u :: us =>
        if u.kind = .keyword .const then
          match labelFrom u.span.stop us with
          | .ok (a, c) => .ok (pointer true a, c)
          | .error e => .error e
        else
          match labelFrom t.span.stop (u :: us) with
          | .ok (a, c) => .ok (pointer false a, c)
          | .error e => .error e
    | _ => .error (Cursor.mk (t :: ts) lastStop).unexpected

/-- Reads a type label. -/
def label : Parse Ty :=
  fun c ↦ labelFrom c.lastStop c.rest

end FrontEnd.Ty
