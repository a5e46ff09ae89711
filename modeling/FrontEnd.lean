import FrontEnd.Main
import FrontEnd.Proofs.Check.Accounting
import FrontEnd.Proofs.Check.Disagreements
import FrontEnd.Proofs.Check.Failures
import FrontEnd.Proofs.Check.Frame
import FrontEnd.Proofs.Check.Hygiene
import FrontEnd.Proofs.Check.Inference
import FrontEnd.Proofs.Check.Joining
import FrontEnd.Proofs.Check.Literals
import FrontEnd.Proofs.Check.Places
import FrontEnd.Proofs.Check.Representatives
import FrontEnd.Proofs.Check.Resolution
import FrontEnd.Proofs.Command.Skipping
import FrontEnd.Proofs.Diagnostic.Lines
import FrontEnd.Proofs.Expr.RoundTrip
import FrontEnd.Proofs.Grammar.Files
import FrontEnd.Proofs.Literal.Decimals
import FrontEnd.Proofs.Literal.Integers
import FrontEnd.Proofs.Literal.Quotations
import FrontEnd.Proofs.Metadata.Acceptance
import FrontEnd.Proofs.Program.Faults
import FrontEnd.Proofs.Program.Globals
import FrontEnd.Proofs.Scope.Brackets
import FrontEnd.Proofs.Source.Positions
import FrontEnd.Proofs.Table.Casts
import FrontEnd.Proofs.Table.Expansion
import FrontEnd.Proofs.Table.Histories
import FrontEnd.Proofs.Table.MostGeneral
import FrontEnd.Proofs.Table.Representatives
import FrontEnd.Proofs.Table.Storage
import FrontEnd.Proofs.Ty.RoundTrip
