import FrontEnd.Scope
import Mathlib.Data.List.Infix

/-!
# Scopes under any sequence of actions

An **action** is one thing that can be done to a stack of frames or asked of it. Two laws hold of
every sequence of actions, from every stack.

What a push opens, the matching pop closes: behind a sequence that is bracketed between them
(`Bracketed`) the stack is the one that was there before. In between there is always a frame on top
of those that were there, so a declaration never opens one by itself and a pop is never ignored.

What stands in a frame can be told without the stack. The **journal** of a sequence notes for each
frame, counted from the innermost one, all that was declared while it was innermost, refused
declarations and all. A frame binds a name to what was declared first for it there, and looking a
name up finds the innermost frame that has such a declaration.
-/

namespace FrontEnd.Scope

/-! ### Actions -/

/-- Something that is done to a stack of frames or asked of it. -/
inductive Action where
  | push
  | pop
  | declare (name : String) (symbol : Nat)
  | lookup (name : String)
deriving DecidableEq, Repr

/-- The answer to an action. -/
inductive Answer where
  /-- A frame has been opened or closed. -/
  | done
  /-- The name has been bound. -/
  | bound
  /-- The frame binds the name already, to this symbol. -/
  | taken (existing : Nat)
  /-- The symbol that the name means. -/
  | found (symbol? : Option Nat)
deriving DecidableEq, Repr

/-- The answer to an action, and the stack as it is then. -/
def act (globals : Bindings) (s : Scope) : Action → Answer × Scope
  | .push => (.done, s.push)
  | .pop => (.done, s.pop)
  | .declare name symbol =>
    match s.declare name symbol with
    | .ok t => (.bound, t)
    | .error existing => (.taken existing, s)
  | .lookup name => (.found (s.lookup globals name), s)

/-- The stack that a sequence of actions leaves behind. -/
def acts (globals : Bindings) (s : Scope) (xs : List Action) : Scope :=
  xs.foldl (fun u x ↦ (u.act globals x).2) s

variable {globals : Bindings} {s u : Scope} {name : String} {symbol : Nat}

theorem acts_append (xs ys : List Action) :
    s.acts globals (xs ++ ys) = (s.acts globals xs).acts globals ys := by
  rw [acts, List.foldl_append]
  rfl

/-- **What a declaration can do**: open the only frame, be refused, or bind a name that the
innermost frame does not bind. -/
theorem act_declare_cases (globals : Bindings) (s : Scope) (name : String) (symbol : Nat) :
    (s.frames = [] ∧ s.act globals (.declare name symbol) = (.bound, ⟨[[(name, symbol)]]⟩)) ∨
      ∃ frame outer, s.frames = frame :: outer ∧
        ((∃ existing, Bindings.find? frame name = some existing ∧
            s.act globals (.declare name symbol) = (.taken existing, s)) ∨
          Bindings.find? frame name = none ∧
            s.act globals (.declare name symbol) =
              (.bound, ⟨((name, symbol) :: frame) :: outer⟩)) := by
  obtain ⟨frames⟩ := s
  cases frames with
  | nil => exact .inl ⟨rfl, rfl⟩
  | cons frame outer =>
    refine .inr ⟨frame, outer, rfl, ?_⟩
    cases hfind : Bindings.find? frame name with
    | some existing => exact .inl ⟨existing, rfl, by simp only [act, declare, hfind]⟩
    | none => exact .inr ⟨rfl, by simp only [act, declare, hfind]⟩

/-! ### Brackets -/

/-- A sequence of actions is **bracketed** if no part of it from the start closes more frames than
it opens, and the whole of it closes as many as it opens. -/
def Bracketed (xs : List Action) : Prop :=
  (∀ ys, ys <+: xs → ys.count .pop ≤ ys.count .push) ∧ xs.count .pop = xs.count .push

instance (xs : List Action) : Decidable (Bracketed xs) :=
  decidable_of_iff ((∀ ys ∈ xs.inits, ys.count .pop ≤ ys.count .push) ∧
    xs.count .pop = xs.count .push) (by simp only [Bracketed, List.mem_inits])

/-- A stack has so many frames **above** others. -/
def Above (base : List Bindings) (n : Nat) (s : Scope) : Prop :=
  ∃ inner : List Bindings, s.frames = inner ++ base ∧ inner.length = n

/-- **One action** with a frame above the others leaves the others as they are: a push adds a frame
above them, a pop takes one away, and whatever else happens happens in the innermost one. -/
theorem Above.act {base : List Bindings} {n : Nat} (h : Above base (n + 1) s) (globals : Bindings)
    (x : Action) :
    ∃ m, m + [x].count .pop = n + 1 + [x].count .push ∧ Above base m (s.act globals x).2 := by
  obtain ⟨inner, hframes, hlength⟩ := h
  obtain ⟨top, inner, rfl⟩ := List.exists_cons_of_length_eq_add_one hlength
  have hlength : inner.length = n := Nat.succ.inj hlength
  cases x with
  | push =>
    refine ⟨n + 2, rfl, [] :: top :: inner, ?_, by simp [hlength]⟩
    rw [Scope.act, push, hframes]
    rfl
  | pop =>
    refine ⟨n, rfl, inner, ?_, hlength⟩
    rw [Scope.act, pop, hframes]
    rfl
  | lookup name => exact ⟨n + 1, rfl, top :: inner, hframes, by simp [hlength]⟩
  | declare name symbol =>
    rcases act_declare_cases globals s name symbol with
      ⟨hnil, -⟩ | ⟨frame, outer, hcons, ⟨existing, -, hact⟩ | ⟨-, hact⟩⟩
    · cases hframes.symm.trans hnil
    · rw [hact]
      exact ⟨n + 1, rfl, top :: inner, hframes, by simp [hlength]⟩
    · obtain ⟨-, rfl⟩ := List.cons.inj (hcons.symm.trans hframes)
      rw [hact]
      exact ⟨n + 1, rfl, ((name, symbol) :: frame) :: inner, rfl, by simp [hlength]⟩

/-- **A sequence of actions** leaves the frames that were there as they are, as long as it closes no
more frames than are above them. -/
theorem Above.acts {base : List Bindings} (globals : Bindings) (xs : List Action) :
    ∀ {n : Nat} {s : Scope}, Above base (n + 1) s →
      (∀ ys, ys <+: xs → ys.count .pop ≤ n + ys.count .push) →
      ∃ m, m + xs.count .pop = n + xs.count .push ∧ Above base (m + 1) (s.acts globals xs) := by
  induction xs with
  | nil => exact fun {n s} h _ ↦ ⟨n, rfl, h⟩
  | cons x xs ih =>
    intro n s h hprefix
    obtain ⟨m, hm, habove⟩ := h.act globals x
    have hsplit : ∀ (ys : List Action) a, (x :: ys).count a = [x].count a + ys.count a :=
      fun ys a ↦ by rw [← List.singleton_append, List.count_append]
    have hfirst := hprefix [x] ⟨xs, rfl⟩
    obtain ⟨m, rfl⟩ : ∃ k, m = k + 1 := ⟨m - 1, by omega⟩
    obtain ⟨k, hk, hrest⟩ := ih habove fun ys hys ↦ by
      have hle := hprefix (x :: ys) ((List.prefix_cons_inj x).2 hys)
      rw [hsplit ys, hsplit ys] at hle
      omega
    refine ⟨k, ?_, hrest⟩
    rw [hsplit xs, hsplit xs]
    omega

/-- **A bracketed sequence between a push and a pop restores the stack.** -/
theorem acts_of_bracketed {xs : List Action} (h : Bracketed xs) (globals : Bindings) (s : Scope) :
    s.acts globals (.push :: (xs ++ [.pop])) = s := by
  have hpush : Above s.frames 1 s.push := ⟨[[]], rfl, rfl⟩
  obtain ⟨m, hm, inner, hframes, hlength⟩ := Above.acts globals xs (n := 0) hpush fun ys hys ↦ by
    rw [Nat.zero_add]
    exact h.1 ys hys
  obtain rfl : m = 0 := by
    have := h.2
    omega
  obtain ⟨top, rfl⟩ := List.length_eq_one_iff.1 hlength
  have hstart : s.acts globals (.push :: (xs ++ [.pop])) = (s.push.acts globals xs).pop := by
    rw [show s.acts globals (.push :: (xs ++ [.pop])) = s.push.acts globals (xs ++ [.pop]) from rfl,
      acts_append]
    rfl
  rw [hstart, pop, hframes]
  rfl

/-! ### Journals -/

/-- What an action adds to what has been declared in each frame. Refused declarations are noted as
well, behind those that refuse them. -/
def note (journal : Nat → Option Bindings) : Action → Nat → Option Bindings
  | .push, 0 => some []
  | .push, k + 1 => journal k
  | .pop, k => journal (k + 1)
  | .declare name symbol, 0 => some ((journal 0).getD [] ++ [(name, symbol)])
  | .declare _ _, k + 1 => journal (k + 1)
  | .lookup _, k => journal k

/-- **The journal** of a sequence of actions: what has been declared in each frame, counted from the
innermost, in the order in which it was declared, behind what stood in the frame at the start. -/
def journal (s : Scope) (xs : List Action) : Nat → Option Bindings :=
  xs.foldl note fun k ↦ s.frames[k]?

/-- The symbol that was **first declared** for a name in a frame. -/
def firstDeclared (s : Scope) (xs : List Action) (k : Nat) (name : String) : Option Nat :=
  (s.journal xs k).bind (List.lookup name)

/-- The symbol to which a frame, counted from the innermost, binds a name. -/
def bindingAt (s : Scope) (k : Nat) (name : String) : Option Nat :=
  s.frames[k]?.bind fun frame ↦ Bindings.find? frame name

/-- There are as many frames as a journal has entries for, and each binds names to what its entry
has first for them. -/
def Follows (frames : List Bindings) (journal : Nat → Option Bindings) : Prop :=
  ∀ k : Nat, Option.Rel (fun frame noted ↦ ∀ name, Bindings.find? frame name = noted.lookup name)
    frames[k]? (journal k)

theorem follows_getElem? (frames : List Bindings) : Follows frames fun k ↦ frames[k]? := by
  intro k
  beta_reduce
  cases frames[k]? with
  | none => exact .none
  | some frame => exact .some fun name ↦ rfl

theorem Follows.eq_none {journal : Nat → Option Bindings} (h : Follows [] journal) (k : Nat) :
    journal k = none := by
  have hk := h k
  generalize journal k = noted? at hk
  cases hk
  rfl

theorem follows_cons_iff {frame : Bindings} {outer : List Bindings}
    {journal : Nat → Option Bindings} : Follows (frame :: outer) journal ↔
      (∃ noted, journal 0 = some noted ∧
        ∀ name, Bindings.find? frame name = noted.lookup name) ∧
      Follows outer fun k ↦ journal (k + 1) := by
  refine ⟨fun h ↦ ⟨?_, fun k ↦ h (k + 1)⟩, fun ⟨⟨noted, hnoted, hframe⟩, houter⟩ k ↦ ?_⟩
  · have hzero := h 0
    generalize journal 0 = noted? at hzero
    cases hzero with
    | some hframe => exact ⟨_, rfl, hframe⟩
  · cases k with
    | zero =>
      rw [hnoted]
      exact .some hframe
    | succ k => exact houter k

theorem lookup_singleton (name : String) (symbol : Nat) (other : String) :
    [(name, symbol)].lookup other = if other = name then some symbol else none := by
  rw [List.lookup_cons]
  by_cases h : other = name
  · rw [h, beq_self_eq_true, if_pos rfl]
  · rw [beq_false_of_ne h, if_neg h]
    rfl

/-- What is noted for a name that is noted already makes no difference. -/
theorem lookup_concat_of_taken {noted : Bindings} {existing : Nat}
    (h : noted.lookup name = some existing) (symbol : Nat) (other : String) :
    (noted ++ [(name, symbol)]).lookup other = noted.lookup other := by
  rw [List.lookup_append, lookup_singleton]
  split
  · subst other
    rw [h, Option.some_or]
  · exact Option.or_none

/-- What is noted for a name that is not noted yet may as well be noted in front. -/
theorem lookup_concat_of_free {noted : Bindings} (h : noted.lookup name = none) (symbol : Nat)
    (other : String) :
    (noted ++ [(name, symbol)]).lookup other = ([(name, symbol)] ++ noted).lookup other := by
  rw [List.lookup_append, List.lookup_append, lookup_singleton]
  split
  · subst other
    rw [h, Option.none_or, Option.some_or]
  · rw [Option.or_none, Option.none_or]

/-- **A declaration** keeps to the journal: a name that is noted again is bound to what came
first. -/
theorem Follows.declare {journal : Nat → Option Bindings} (h : Follows s.frames journal)
    (name : String) (symbol : Nat) :
    Follows (s.act globals (.declare name symbol)).2.frames
      (note journal (.declare name symbol)) := by
  rcases act_declare_cases globals s name symbol with
    ⟨hnil, hact⟩ | ⟨frame, outer, hcons, hcases⟩
  · rw [hnil] at h
    rw [hact]
    refine follows_cons_iff.2 ⟨⟨[(name, symbol)], ?_, fun other ↦ rfl⟩, fun k ↦ h (k + 1)⟩
    rw [note, h.eq_none 0]
    rfl
  · rw [hcons] at h
    obtain ⟨⟨noted, hnoted, hframe⟩, houter⟩ := follows_cons_iff.1 h
    have hnote : note journal (.declare name symbol) 0 = some (noted ++ [(name, symbol)]) := by
      rw [note, hnoted, Option.getD_some]
    rcases hcases with ⟨existing, hfind, hact⟩ | ⟨hfind, hact⟩
    · rw [hact, hcons]
      refine follows_cons_iff.2 ⟨⟨_, hnote, fun other ↦ ?_⟩, houter⟩
      rw [lookup_concat_of_taken (hframe name ▸ hfind), hframe]
    · rw [hact]
      refine follows_cons_iff.2 ⟨⟨_, hnote, fun other ↦ ?_⟩, houter⟩
      rw [lookup_concat_of_free (hframe name ▸ hfind), List.lookup_append, ← hframe,
        Bindings.find?, Bindings.find?, ← List.lookup_append]
      rfl

/-- **One action** keeps to the journal. -/
theorem Follows.act {journal : Nat → Option Bindings} (h : Follows s.frames journal) (x : Action) :
    Follows (s.act globals x).2.frames (note journal x) := by
  cases x with
  | push => exact follows_cons_iff.2 ⟨⟨[], rfl, fun name ↦ rfl⟩, h⟩
  | pop =>
    intro k
    rw [Scope.act, pop, List.getElem?_tail]
    exact h (k + 1)
  | declare name symbol => exact h.declare name symbol
  | lookup name => exact h

/-- **A sequence of actions** keeps to its journal. -/
theorem Follows.acts {journal : Nat → Option Bindings} (h : Follows s.frames journal)
    (xs : List Action) : Follows (s.acts globals xs).frames (xs.foldl note journal) := by
  induction xs generalizing s journal with
  | nil => exact h
  | cons x xs ih => exact ih (h.act x)

/-- **A frame binds a name to what was first declared for it there.** -/
theorem bindingAt_acts (globals : Bindings) (s : Scope) (xs : List Action) (k : Nat)
    (name : String) : (s.acts globals xs).bindingAt k name = s.firstDeclared xs k name := by
  have h : Follows (s.acts globals xs).frames (s.journal xs) := (follows_getElem? s.frames).acts xs
  have hk := h k
  rw [bindingAt, firstDeclared]
  generalize (s.acts globals xs).frames[k]? = frame?, s.journal xs k = noted? at hk
  cases hk with
  | none => rfl
  | some hframe => exact hframe name

/-! ### Looking up -/

/-- A name means what the innermost frame that binds it binds it to. -/
theorem lookup_of_innermost {k i : Nat} (hk : s.bindingAt k name = some i)
    (hinner : ∀ j < k, s.bindingAt j name = none) : s.lookup globals name = some i := by
  obtain ⟨frame, hframe, hfind⟩ := Option.bind_eq_some_iff.1 hk
  obtain ⟨hlt, hget⟩ := List.getElem?_eq_some_iff.1 hframe
  have hsome : (s.frames.findSome? fun frame ↦ Bindings.find? frame name) = some i := by
    refine List.findSome?_eq_some_iff.2 ⟨s.frames.take k, frame, s.frames.drop (k + 1), ?_, hfind,
      fun x hx ↦ ?_⟩
    · rw [← hget, ← List.drop_eq_getElem_cons hlt, List.take_append_drop]
    · obtain ⟨j, hj, rfl⟩ := List.mem_take_iff_getElem.1 hx
      have hnone := hinner j (by omega)
      rwa [bindingAt, List.getElem?_eq_getElem (by omega), Option.bind_some] at hnone
  rw [lookup, hsome, Option.some_or]

/-- A name that no frame binds means what it means globally. -/
theorem lookup_of_unbound (h : ∀ k, s.bindingAt k name = none) :
    s.lookup globals name = Bindings.find? globals name := by
  have hnone : (s.frames.findSome? fun frame ↦ Bindings.find? frame name) = none := by
    refine List.findSome?_eq_none_iff.2 fun frame hframe ↦ ?_
    obtain ⟨k, hk⟩ := List.getElem?_of_mem hframe
    have hfind := h k
    rwa [bindingAt, hk, Option.bind_some] at hfind
  rw [lookup, hnone, Option.none_or]

/-- The answer to a declaration is told by the innermost frame. -/
theorem act_declare_fst (globals : Bindings) (s : Scope) (name : String) (symbol : Nat) :
    (s.act globals (.declare name symbol)).1 =
      ((s.bindingAt 0 name).map Answer.taken).getD .bound := by
  rw [bindingAt]
  rcases act_declare_cases globals s name symbol with
    ⟨hnil, hact⟩ | ⟨frame, outer, hcons, ⟨existing, hfind, hact⟩ | ⟨hfind, hact⟩⟩
  · rw [hact, hnil]
    rfl
  · rw [hact, hcons, List.getElem?_cons_zero, Option.bind_some, hfind]
    rfl
  · rw [hact, hcons, List.getElem?_cons_zero, Option.bind_some, hfind]
    rfl

/-- A declaration that is refused changes nothing. -/
theorem act_declare_snd {existing : Nat}
    (h : (s.act globals (.declare name symbol)).1 = .taken existing) :
    (s.act globals (.declare name symbol)).2 = s := by
  rcases act_declare_cases globals s name symbol with
    ⟨-, hact⟩ | ⟨frame, outer, -, ⟨existing, -, hact⟩ | ⟨-, hact⟩⟩
  · rw [hact] at h
    cases h
  · rw [hact]
  · rw [hact] at h
    cases h

/-- **Brackets restore the stack, and frames keep what comes first.** From any stack, a bracketed
sequence of actions between a push and a pop leaves the stack as it was, and every name means what
it meant. And behind any sequence of actions

* each frame binds a name to the symbol that was first declared for it in that frame;
* a name that is looked up means what was first declared for it in the innermost frame in which it
  was declared, or else what it means globally;
* a declaration is refused exactly if the innermost frame has one of that name, with the symbol of
  the first, and then nothing changes. -/
theorem bracketed_acts (globals : Bindings) (s : Scope) :
    (∀ xs, Bracketed xs → s.acts globals (.push :: (xs ++ [.pop])) = s ∧
      ∀ name, (s.acts globals (.push :: (xs ++ [.pop]))).lookup globals name =
        s.lookup globals name) ∧
    ∀ xs, let u := s.acts globals xs
      (∀ k name, u.bindingAt k name = s.firstDeclared xs k name) ∧
      (∀ name k i, s.firstDeclared xs k name = some i →
        (∀ j < k, s.firstDeclared xs j name = none) →
        (u.act globals (.lookup name)).1 = .found (some i)) ∧
      (∀ name, (∀ k, s.firstDeclared xs k name = none) →
        (u.act globals (.lookup name)).1 = .found (Bindings.find? globals name)) ∧
      (∀ name symbol, (u.act globals (.declare name symbol)).1 =
        ((s.firstDeclared xs 0 name).map Answer.taken).getD .bound) ∧
      ∀ name symbol existing, (u.act globals (.declare name symbol)).1 = .taken existing →
        (u.act globals (.declare name symbol)).2 = u := by
  refine ⟨fun xs hxs ↦ ?_, fun xs ↦ ?_⟩
  · have hrestored : s.acts globals (.push :: (xs ++ [.pop])) = s := acts_of_bracketed hxs globals s
    exact ⟨hrestored, fun name ↦ by rw [hrestored]⟩
  · intro u
    have hframes : ∀ k name, u.bindingAt k name = s.firstDeclared xs k name :=
      bindingAt_acts globals s xs
    refine ⟨hframes, fun name k i hk hinner ↦ ?_, fun name hnone ↦ ?_, fun name symbol ↦ ?_,
      fun name symbol existing ↦ act_declare_snd⟩
    · rw [act, lookup_of_innermost ((hframes k name).trans hk)
        fun j hj ↦ (hframes j name).trans (hinner j hj)]
    · rw [act, lookup_of_unbound fun k ↦ (hframes k name).trans (hnone k)]
    · rw [act_declare_fst, hframes]

/-- From a stack without frames, a name that means something globally is declared in two frames, in
the inner one twice. -/
theorem bracketed_acts_shadowed :
    let globals : Bindings := [("x", 0)]
    let inner : List Action := [.declare "x" 1, .push, .declare "x" 2, .declare "x" 3]
    let u := (⟨[]⟩ : Scope).acts globals (.push :: inner)
    Bracketed (inner ++ [.pop]) ∧
      (⟨[]⟩ : Scope).acts globals (.push :: ((inner ++ [.pop]) ++ [.pop])) = ⟨[]⟩ ∧
      (u.act globals (.lookup "x")).1 = .found (some 2) ∧
      (u.act globals (.declare "x" 4)).1 = .taken 2 ∧
      (u.act globals (.declare "x" 4)).2 = u := by
  intro globals inner u
  have hbracketed : Bracketed (inner ++ [.pop]) := by decide
  obtain ⟨hbrackets, hany⟩ := bracketed_acts globals ⟨[]⟩
  obtain ⟨-, hlookup, -, hdeclare, hrefused⟩ := hany (.push :: inner)
  have htaken : (u.act globals (.declare "x" 4)).1 = .taken 2 := hdeclare "x" 4
  exact ⟨hbracketed, (hbrackets _ hbracketed).1, hlookup "x" 0 2 rfl (by decide), htaken,
    hrefused "x" 4 2 htaken⟩

end FrontEnd.Scope
