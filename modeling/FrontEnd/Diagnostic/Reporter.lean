import FrontEnd.Diagnostic.Basic

/-!
# Reporters

A **reporter** is where diagnostics are collected on their way from reading and checking to the
screen. It keeps them in the order in which they came, and counts them; nothing is ever taken back.
-/

namespace FrontEnd

/-- The diagnostics that have been reported, and their number. -/
structure Reporter where
  /-- What has been reported, in order. -/
  held : List Diagnostic
  /-- How much has been reported. -/
  count : Nat
  /-- Nothing is held that has not been counted. -/
  count_eq : count = held.length

namespace Reporter

/-- The reporter to which nothing has been reported. -/
def empty : Reporter :=
  ⟨[], 0, rfl⟩

/-- Reports one thing more. -/
def report (r : Reporter) (d : Diagnostic) : Reporter where
  held := r.held ++ [d]
  count := r.count + 1
  count_eq := by rw [r.count_eq, List.length_append, List.length_singleton]

/-- Reports things in order. -/
def reportAll (r : Reporter) (ds : List Diagnostic) : Reporter :=
  ds.foldl report r

/-- Whether anything has been reported. -/
def hasErrors (r : Reporter) : Bool :=
  0 < r.count

@[simp]
theorem held_empty : empty.held = [] :=
  rfl

@[simp]
theorem held_reportAll (r : Reporter) (ds : List Diagnostic) :
    (r.reportAll ds).held = r.held ++ ds := by
  induction ds generalizing r with
  | nil => rw [reportAll, List.foldl_nil, List.append_nil]
  | cons d ds ih =>
    rw [reportAll, List.foldl_cons, ← reportAll, ih, report, List.append_assoc,
      List.singleton_append]

end Reporter

end FrontEnd
