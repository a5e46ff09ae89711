import FrontEnd.Proofs.Expr.Parsed
import FrontEnd.Proofs.Token.Lexemes

/-!
# The text of a label is a label

A label is written with a star for every pointer and the word `const` behind those that are const,
and it is read from the left, one star at a time. Nothing but the blank behind `const` separates
the words, and nothing else has to: a star ends wherever it stands, and the name of a scalar type
comes last. So the words of the text are those of the type in the same order, and reading them
gives the type back and leaves nothing but the end mark (`Ty.label_scan_text`).

Reading can tell a star with `const` from one without since no text of a label starts with that
word (`Ty.exists_scanFrom_text`).
-/

namespace FrontEnd

/-- A star is a token by itself, whatever follows it. -/
theorem Token.scanFrom_star (offset : Nat) (cs : List Char) : scanFrom offset ('*' :: cs) =
    (Lexeme.sign .star).tokenAt offset :: scanFrom (offset + 1) cs := by
  have htrivia : triviaLength ('*' :: ([] ++ cs)) = 0 :=
    triviaLength_eq_zero rfl fun h ↦ absurd h (by decide)
  exact scanFrom_append htrivia rfl rfl offset

namespace Ty

open Token

variable {a b : Ty}

theorem toList_text_pointer (a : Ty) :
    (pointer false a).text.toList = '*' :: a.text.toList :=
  String.toList_append

theorem toList_text_const (a : Ty) : (pointer true a).text.toList =
    '*' :: ((Lexeme.keyword .const).text ++ ' ' :: a.text.toList) :=
  String.toList_append

/-- The word `const` between a star and the element of its pointer. -/
theorem scanFrom_const (offset : Nat) (cs : List Char) :
    scanFrom offset ((Lexeme.keyword .const).text ++ ' ' :: cs) =
      (Lexeme.keyword .const).tokenAt offset :: scanFrom (offset + 6) cs := by
  have hblank : Ends (' ' :: cs) := fun c hc ↦ (Option.some.inj hc).symm
  rw [Lexeme.lexes_keyword .const _ hblank, scanFrom_space]
  rfl

theorem scanFrom_scalar (offset : Nat) (s : Scalar) : scanFrom offset (scalar s).text.toList =
    [(Lexeme.scalar s).tokenAt offset,
      finishAt (offset + byteLength (scalar s).text.toList)] :=
  (Lexeme.lexes_scalar s).scanFrom_eq offset

/-- The text of a label starts with the name of a scalar type or with a star. -/
theorem exists_scanFrom_text (h : a.isLabel = true) (offset : Nat) :
    ∃ t ts, scanFrom offset a.text.toList = t :: ts ∧ t.kind ≠ .keyword .const := by
  cases a with
  | scalar s => exact ⟨_, _, scanFrom_scalar offset s, by simp [Lexeme.tokenAt, Lexeme.scalar]⟩
  | pointer c a =>
    cases c with
    | true =>
      rw [toList_text_const, scanFrom_star]
      exact ⟨_, _, rfl, Kind.noConfusion⟩
    | false =>
      rw [toList_text_pointer, scanFrom_star]
      exact ⟨_, _, rfl, Kind.noConfusion⟩
  | _ => cases h

/-- **The words of a label are read as the label.** The induction is on the type; every star of the
text takes one constructor off it. -/
theorem labelFrom_scanFrom_text (h : a.isLabel = true) (offset lastStop : Nat) :
    labelFrom lastStop (scanFrom offset a.text.toList) =
      .ok (a, ⟨[finishAt (offset + byteLength a.text.toList)],
        offset + byteLength a.text.toList⟩) := by
  induction a using induct generalizing offset lastStop with
  | scalar s =>
    rw [scanFrom_scalar]
    rfl
  | pointer c a ih =>
    cases c with
    | true =>
      have hlength : offset + byteLength (pointer true a).text.toList =
          offset + 1 + 6 + byteLength a.text.toList := by
        rw [toList_text_const, byteLength_cons, byteLength_append, byteLength_cons]
        show offset + (1 + (5 + (1 + _))) = _
        omega
      rw [hlength, toList_text_const, scanFrom_star, scanFrom_const, labelFrom.eq_def]
      dsimp only [Lexeme.tokenAt, Lexeme.sign, Lexeme.keyword]
      rw [if_pos rfl, ih h]
    | false =>
      have hlength : offset + byteLength (pointer false a).text.toList =
          offset + 1 + byteLength a.text.toList := by
        rw [toList_text_pointer, byteLength_cons, ← Nat.add_assoc]
        rfl
      obtain ⟨t, ts, hts, hconst⟩ := exists_scanFrom_text (a := a) h (offset + 1)
      rw [hlength, toList_text_pointer, scanFrom_star, hts, labelFrom.eq_def]
      dsimp only [Lexeme.tokenAt, Lexeme.sign]
      rw [if_neg hconst, ← hts, ih h]
  | _ => cases h

/-- **Labels can be written down and read back.** The text of a label is read as that label, and the
end mark follows; so different labels have different texts. And nothing but labels is ever read. -/
theorem label_scan_text :
    (∀ a : Ty, a.isLabel = true → label (Cursor.start (Token.scan a.text)) =
      .ok (a, ⟨[finishAt a.text.utf8ByteSize], a.text.utf8ByteSize⟩)) ∧
    (∀ a b : Ty, a.isLabel = true → b.isLabel = true → a.text = b.text → a = b) ∧
    ∀ (c c' : Cursor) (a : Ty), label c = .ok (a, c') → a.isLabel = true := by
  have hread (a : Ty) (h : a.isLabel = true) : label (Cursor.start (Token.scan a.text)) =
      .ok (a, ⟨[finishAt a.text.utf8ByteSize], a.text.utf8ByteSize⟩) := by
    have hread := labelFrom_scanFrom_text h 0 0
    rwa [Nat.zero_add, byteLength_toList] at hread
  refine ⟨hread, fun a b ha hb htext ↦ ?_, fun c c' a h ↦ gives_label c a c' h⟩
  have hsame := (hread a ha).symm.trans (htext ▸ hread b hb)
  exact congrArg Prod.fst (Except.ok.inj hsame)

/-- A const pointer to a pointer to a const pointer, and a type that differs in which of the
pointers are const. -/
theorem label_scan_text_stars :
    let a := pointer true (pointer false (pointer true (scalar (.int .w8 false))))
    let b := pointer false (pointer true (pointer true (scalar (.int .w8 false))))
    label (Cursor.start (Token.scan a.text)) = .ok (a, ⟨[finishAt 17], 17⟩) ∧
      a.text ≠ b.text ∧ a.isLabel = true := by
  intro a b
  have hread := label_scan_text.1 a rfl
  refine ⟨hread, fun htext ↦ ?_, label_scan_text.2.2 _ _ a hread⟩
  exact absurd (label_scan_text.2.1 a b rfl rfl htext) (by decide)

end Ty

end FrontEnd
