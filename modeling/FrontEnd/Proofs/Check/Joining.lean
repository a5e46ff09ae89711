import FrontEnd.Proofs.Check.Relocation
import FrontEnd.Proofs.Program.Joining

/-!
# Where a file ends does not matter

A program may be cut into files between any two definitions: it makes no difference to what is read
from it, to what is reported and to what checking finds. Two files of a program, of which the first
one can be read, may be joined by a line feed, whatever the first one ends with and whatever the
second one holds (`Program.check_joined`).

Only the places differ. The files behind the first one count one less, and the spans of the second
one lie further on, by the length of the first one and of the line feed (`Relocation.joining`).
-/

namespace FrontEnd

open Table

/-- The files `n` and `n + 1` are **joined**: what stands in the second one moves on by `k`. -/
def Relocation.joining (n k : Nat) : Relocation where
  file i := if i ≤ n then i else i - 1
  span i := .shift (if i = n + 1 then k else 0)

namespace Relocation

variable (n k : Nat)

theorem file_joining {i : Nat} (h : i ≤ n) : (joining n k).file i = i :=
  if_pos h

theorem file_joining_succ : (joining n k).file (n + 1) = n :=
  if_neg (Nat.not_succ_le_self n)

theorem span_joining {i : Nat} (h : i ≤ n) : (joining n k).span i = .shift 0 :=
  congrArg Span.shift (if_neg (Nat.ne_of_lt (Nat.lt_succ_of_le h)))

theorem span_joining_succ : (joining n k).span (n + 1) = .shift k :=
  congrArg Span.shift (if_pos rfl)

/-- The files before stay where they are. -/
theorem leads_joining (name : String) (before : List SourceFile) :
    (joining before.length k).Leads (.ofFiles name before) (.ofFiles name before) := by
  refine leads_parseFiles (Program.located_empty name) ⟨rfl, rfl, rfl⟩ before fun i hi ↦ ?_
  have hle : i ≤ before.length := by
    rw [show (Program.empty name).files.length = 0 from rfl, Nat.zero_add] at hi
    exact hi.le
  exact ⟨file_joining _ k hle, span_joining _ k hle⟩

end Relocation

namespace Program

/-- **Joining**. If the first of two files can be read, reading both of them, one behind the other,
gives the same as reading them joined by a line feed: the same symbols, definitions and global names
in the same order, the same error if the second one cannot be read, and the same reports. Checking
finds the same errors, cuts the same definitions short, and gives the same type to every symbol and
to every node. Throughout, only places differ. -/
theorem check_joined [RootChoice] (name : String) (before : List SourceFile)
    (pathA pathB pathC f₁ f₂ : String) :
    let p := ofFiles name before
    let first := p.parseFile ⟨pathA, f₁⟩
    let second := first.program.parseFile ⟨pathB, f₂⟩
    let joined := p.parseFile ⟨pathC, f₁ ++ "\n" ++ f₂⟩
    let k := f₁.utf8ByteSize + 1
    let ρ := Relocation.joining before.length k
    first.error? = none →
      ρ.Leads second.program joined.program ∧
        joined.error? = second.error?.map (.shift k) ∧
        joined.diagnostics.map Diagnostic.gist =
          (first.diagnostics ++ second.diagnostics.map (Diagnostic.shift k)).map Diagnostic.gist ∧
        ρ.Leads second.program.check.program joined.program.check.program ∧
        joined.program.check.findings = second.program.check.findings.map ρ.finding ∧
        joined.program.check.aborted = second.program.check.aborted := by
  intro p first second joined k ρ hfirst
  obtain ⟨hp, hfiles⟩ := located_ofFiles name before
  have hlength : p.files.length = before.length := congrArg List.length hfiles
  obtain ⟨m, d, hm, hrun, hcount, hhalfway⟩ := Relocation.exists_halfway hp
    (Relocation.leads_joining k name before) pathA pathC hfirst f₂
    (hlength ▸ Relocation.file_joining _ k (Nat.le_refl _))
    (hlength ▸ Relocation.span_joining _ k (Nat.le_refl _))
    (hlength ▸ Relocation.file_joining_succ _ k)
  have hspan : ρ.span first.program.files.length = .shift k := by
    rw [hcount, hlength]
    exact Relocation.span_joining_succ _ k
  obtain ⟨hleads, herror, hgists⟩ :=
    hhalfway.parsed hm hspan pathB ⟨pathC, f₁ ++ "\n" ++ f₂⟩
  rw [← hrun] at hleads herror hgists
  have hlocated : second.program.Located := ((hp.parseFile _).1.parseFile _).1
  exact ⟨hleads, herror, hgists, check_of_leads hlocated hleads⟩

/-- The first file ends in a comment. The second one takes a name again, holds a function that is
cut short, and breaks off. -/
theorem check_joined_comment :
    let p := ofFiles "main" [⟨"a.berry", "let z: i64;"⟩]
    let f₁ := "func f(x: i64) {} // é"
    let f₂ := "let f: i64;\nfunc g() { f(true); } let"
    let first := p.parseFile ⟨"b.berry", f₁⟩
    let second := first.program.parseFile ⟨"c.berry", f₂⟩
    let joined := p.parseFile ⟨"b.berry", f₁ ++ "\n" ++ f₂⟩
    first.error? = none ∧ second.error? = some ⟨.endOfFile, ⟨37, 37⟩⟩ ∧
      joined.error? = some ⟨.endOfFile, ⟨61, 61⟩⟩ ∧ second.diagnostics.length = 2 ∧
      second.program.check.findings = [⟨2, .notConvertible "bool" "i64" ⟨25, 29⟩⟩] ∧
      joined.program.check.findings = [⟨1, .notConvertible "bool" "i64" ⟨49, 53⟩⟩] ∧
      joined.program.check.aborted = second.program.check.aborted := by
  intro p f₁ f₂ first second joined
  have hfirst : first.error? = none := by decide +kernel
  have hsecond : second.error? = some ⟨.endOfFile, ⟨37, 37⟩⟩ := by decide +kernel
  have hcheck : second.program.check.findings =
      [⟨2, .notConvertible "bool" "i64" ⟨25, 29⟩⟩] := by decide +kernel
  obtain ⟨-, herror, -, -, hfindings, haborted⟩ := check_joined "main"
    [⟨"a.berry", "let z: i64;"⟩] "b.berry" "c.berry" "b.berry" f₁ f₂ hfirst
  refine ⟨hfirst, hsecond, ?_, by decide +kernel, hcheck, ?_, haborted⟩
  · exact herror.trans (congrArg (Option.map _) hsecond)
  · exact hfindings.trans (congrArg (List.map _) hcheck)

end Program

end FrontEnd
