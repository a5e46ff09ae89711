import FrontEnd.Proofs.Program.Parsed

/-!
# The parts of a definition

Parsers that change a program obey the laws of a monad, so a long one may be taken apart: a function
is read as its parameters, the label of its result and its body, one behind another
(`Build.function_eq`), and what is said about each part may be put together (`Build.Ensures`).
-/

namespace FrontEnd

namespace Build

open Parse

variable {α β : Type} {d : Draft} {p : Build α} {Q : α → Draft → Prop}

instance : LawfulMonad Build :=
  .mk' Build
    (fun p ↦ by
      funext d
      show (p >>= fun a ↦ pure a) d = p d
      rw [bind_apply]
      rcases p d with ⟨e | a, d'⟩ <;> rfl)
    (fun _ _ ↦ rfl)
    (fun p f g ↦ by
      funext d
      rw [bind_apply, bind_apply, bind_apply]
      rcases p d with ⟨e | a, d'⟩ <;> rfl)

theorem ite_bind {c : Prop} [Decidable c] (p q : Build α) (f : α → Build β) :
    (if c then p else q) >>= f = if c then p >>= f else q >>= f := by
  split <;> rfl

/-! ### Functions -/

/-- Reads the parameters of a function, with the parentheses around them. -/
def paramList : Build (List (Nat × Ty)) := do
  let _ ← expect (.sign .leftParen)
  let params ← (do if ← at? (.sign .rightParen) then pure [] else paramsTo (← tokensLeft))
  let _ ← expect (.sign .rightParen)
  return params

/-- Reads the type label of the result of a function, if there is one. -/
def resultLabel : Build Ty := do
  let ended ← at? (.sign .semicolon)
  let opened ← at? (.sign .leftBrace)
  if ended || opened then pure .unit else (Ty.label : Build Ty)

/-- Reads the body of a function, or the semicolon in its place. -/
def bodyPart : Build (Option Block) := do
  let ended ← eat (.sign .semicolon)
  let opened ← at? (.sign .leftBrace)
  if ended then pure none else if opened then some <$> block else stop

/-- Gives a function its symbol, when all of it has been read. -/
def functionEnd (m : Metadata) (start name : Token) (params : List (Nat × Ty)) (result : Ty)
    (body? : Option Block) : Build Definition := do
  let symbol ← newSymbol name .function (some (.func (params.map (·.2)) result)) false
  let span ← spanFrom start.span
  fun d ↦
    (.ok { file := d.file, span, metadata := m
           content := .function symbol (params.map (·.1)) result body? }, d)

/-- **A function is read part by part.** -/
theorem function_eq (m : Metadata) : function m = (do
    let start ← expect (.keyword .func)
    let name ← expect .ident
    let params ← paramList
    let result ← resultLabel
    let body? ← bodyPart
    functionEnd m start name params result body?) := by
  simp only [function, paramList, resultLabel, bodyPart, functionEnd, bind_assoc, pure_bind,
    ite_bind]

/-! ### Definitions -/

/-- Reads what a definition introduces, behind its tags. -/
def content (m : Metadata) : Build Definition := do
  let t ← peek
  match t.kind with
  | .keyword .func => function m
  | .keyword .let => global m
  | _ => stop

theorem content_cases (m : Metadata) (d : Draft) :
    content m d = function m d ∨ content m d = global m d ∨ content m d = stop d := by
  rw [content, bind_apply, lift_apply, peek]
  dsimp only
  cases d.cursor.current.kind with
  | keyword w =>
    cases w with
    | func => exact .inl rfl
    | «let» => exact .inr (.inl rfl)
    | _ => exact .inr (.inr rfl)
  | _ => exact .inr (.inr rfl)

/-- **A definition is read behind its tags**, and joins the program when all of it has been read. -/
theorem definition_eq : definition = (do
    let r ← metadata
    let x ← content r.1
    addDefinition x r.2) := by
  rw [definition]
  congr 1
  funext ⟨m, unique⟩
  simp only [content, bind_assoc]
  congr 1
  funext t
  cases t.kind with
  | keyword w => cases w <;> rfl
  | _ => rfl

/-- Definitions are read one by one until the file ends. -/
theorem definitionsTo_succ (n : Nat) (d : Draft) : definitionsTo (n + 1) d =
    (if d.cursor.current.kind = .finish then pure ()
      else definition >>= fun _ ↦ definitionsTo n) d := by
  show (if decide (d.cursor.current.kind = .finish) = true then pure ()
    else definition >>= fun _ ↦ definitionsTo n) d = _
  simp only [decide_eq_true_eq]

/-! ### What has been read -/

/-- **If a parser reads something**, that and the draft behind it have a property. -/
def Ensures (p : Build α) (d : Draft) (Q : α → Draft → Prop) : Prop :=
  ∀ a, (p d).1 = .ok a → Q a (p d).2

theorem Ensures.mono {P : α → Draft → Prop} (h : Ensures p d P) (hPQ : ∀ a d', P a d' → Q a d') :
    Ensures p d Q :=
  fun a ha ↦ hPQ a _ (h a ha)

theorem ensures_pure {a : α} (h : Q a d) : Ensures (pure a) d Q := by
  intro b hb
  obtain rfl := Except.ok.inj hb
  exact h

theorem Ensures.bind {f : α → Build β} {R : β → Draft → Prop}
    (h : Ensures p d fun a d' ↦ Ensures (f a) d' R) : Ensures (p >>= f) d R := by
  rw [Ensures, bind_apply]
  rw [Ensures] at h
  generalize p d = r at h ⊢
  rcases r with ⟨e | a, d'⟩
  · exact fun b hb ↦ nomatch hb
  · exact h a rfl

/-- Where nothing has to be known of the first part. -/
theorem ensures_then {f : α → Build β} {R : β → Draft → Prop} (h : ∀ a d', Ensures (f a) d' R) :
    Ensures (p >>= f) d R :=
  .bind fun a _ ↦ h a _

theorem ensures_lift {p : Parse α}
    (h : ∀ a c, p d.cursor = .ok (a, c) → Q a { d with cursor := c }) :
    Ensures (liftM p) d Q := by
  rw [Ensures, lift_apply]
  rcases hp : p d.cursor with e | ⟨a, c⟩
  · exact fun b hb ↦ nomatch hb
  · intro b hb
    obtain rfl := Except.ok.inj hb
    exact h a c hp

theorem ensures_ite {c : Prop} [Decidable c] {q : Build α} (hp : c → Ensures p d Q)
    (hq : ¬ c → Ensures q d Q) : Ensures (if c then p else q) d Q := by
  split
  · exact hp ‹c›
  · exact hq ‹¬ c›

theorem ensures_stop : Ensures (stop : Build α) d Q :=
  fun _ h ↦ nomatch h

end Build

end FrontEnd
