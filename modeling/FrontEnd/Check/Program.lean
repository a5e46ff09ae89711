import FrontEnd.Check.Definition
import FrontEnd.Diagnostic.Reporter
import FrontEnd.Program.Parser

/-!
# Checking programs

Definitions are checked one after another, whatever was wrong with those before. The result is the
program with the types that were found, everything that is wrong with it, and the definitions that a
fatal error cut short.
-/

namespace FrontEnd

namespace Walk

/-- Checks definitions in order, and collects the symbols of those that a fatal error cut short. -/
def definitions [Table.RootChoice] (w : Walk) (globals : Bindings) :
    List Definition → List Definition × List Nat × Walk
  | [] => ([], [], w)
  | d :: ds =>
    let (d', w) := w.definition globals d
    -- the flag lasts only until the next definition is entered
    let halted := w.halted
    let (ds', aborted, w) := w.definitions globals ds
    (d' :: ds', if halted then d.symbol :: aborted else aborted, w)

end Walk

/-- What checking a program gives. -/
structure Report where
  /-- The program, with types. -/
  program : Program
  /-- What was found wrong, in order. -/
  findings : List Finding
  /-- The symbols of the definitions that were cut short, in order. -/
  aborted : List Nat

namespace Report

/-- The errors of a report. -/
def errors (r : Report) : List CheckError :=
  r.findings.map (·.error)

/-- Whether nothing was found wrong. -/
def isOk (r : Report) : Bool :=
  r.findings.isEmpty

end Report

namespace Program

/-- The diagnostic of something found wrong in a program. -/
def diagnostic (p : Program) (f : Finding) : Diagnostic :=
  Diagnostic.ofFile p.name (p.files[f.file]?.getD default) f.error.category f.error.message
    f.error.span

/-- Checks every definition of a program. -/
def check [Table.RootChoice] (p : Program) : Report :=
  let (definitions, aborted, w) := (Walk.start p.symbols).definitions p.globals p.definitions
  { program := { p with definitions, symbols := w.symbols }
    findings := w.findings
    aborted }

/-- Reads files in order into a program. -/
def parseFiles (p : Program) :
    List SourceFile → Program × List Diagnostic × List (Option ParseError)
  | [] => (p, [], [])
  | source :: sources =>
    let parsed := p.parseFile source
    let (program, diagnostics, errors) := parsed.program.parseFiles sources
    (program, parsed.diagnostics ++ diagnostics, parsed.error? :: errors)

end Program

namespace Report

/-- The diagnostics of what was found wrong, in order. -/
def diagnostics (r : Report) : List Diagnostic :=
  r.findings.map r.program.diagnostic

end Report

/-- Checks every definition of a program and reports what is wrong. -/
def Program.checkInto [Table.RootChoice] (p : Program) (reporter : Reporter) : Report × Reporter :=
  let report := p.check
  (report, reporter.reportAll report.diagnostics)

end FrontEnd
