/-!
# Scopes

Names of symbols, by **frame**: a function body and each block in it have a frame of their own, and
a name means the innermost binding. Behind the frames stand the global names, which are not part of
the stack and never change while names are looked up.

Within one frame a name is bound once. Binding it again is refused, and the binding that is there is
handed back; binding a name of an outer frame or of a global hides that one.
-/

namespace FrontEnd

/-- Names with the symbols they are bound to, the oldest binding last. -/
abbrev Bindings :=
  List (String × Nat)

namespace Bindings

/-- The symbol that a name is bound to. -/
def find? (b : Bindings) (name : String) : Option Nat :=
  b.lookup name

end Bindings

/-- A stack of frames, the innermost first. -/
structure Scope where
  /-- The frames. -/
  frames : List Bindings
deriving DecidableEq, Repr, Inhabited

namespace Scope

/-- The stack without frames. -/
def empty : Scope :=
  ⟨[]⟩

/-- The stack with a new innermost frame. -/
def push (s : Scope) : Scope :=
  ⟨[] :: s.frames⟩

/-- The stack without its innermost frame, if it has one. -/
def pop (s : Scope) : Scope :=
  ⟨s.frames.tail⟩

/-- The number of frames. -/
def depth (s : Scope) : Nat :=
  s.frames.length

/-- Binds a name in the innermost frame; a stack without frames gets one first. If the frame binds
the name already, that binding is the error. -/
def declare (s : Scope) (name : String) (symbol : Nat) : Except Nat Scope :=
  match s.frames with
  | [] => .ok ⟨[[(name, symbol)]]⟩
  | frame :: outer =>
    match Bindings.find? frame name with
    | some existing => .error existing
    | none => .ok ⟨((name, symbol) :: frame) :: outer⟩

/-- The symbol that a name means: that of the innermost frame which binds it, or the global one. -/
def lookup (s : Scope) (globals : Bindings) (name : String) : Option Nat :=
  (s.frames.findSome? fun frame ↦ Bindings.find? frame name).or (Bindings.find? globals name)

end Scope

end FrontEnd
