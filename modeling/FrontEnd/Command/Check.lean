import FrontEnd.Command.Folder
import FrontEnd.Command.Listing
import FrontEnd.Diagnostic.Render

/-!
# The command that checks files

Reads the files it is given in order, as one module, checks them, and reports. What cannot be read
is reported first and left out, and the rest is checked all the same. The command succeeds exactly
if everything could be read and nothing is wrong.

How a path is read is a parameter, so that everything the command decides is decided here.
-/

namespace FrontEnd.Command

/-- How diagnostics are shown. -/
inductive Style where
  /-- For reading. -/
  | card
  /-- One plain line each. -/
  | plain
  /-- One JSON object each. -/
  | json
deriving DecidableEq, Repr

/-- What the command is asked to do. -/
structure Options where
  /-- The files. -/
  paths : List String
  /-- The name of the module. -/
  moduleName : String
  /-- How diagnostics are shown. -/
  style : Style
  /-- Whether the types of definitions are asked for. -/
  listTypes : Bool
deriving Repr

/-- The name of the module if none is given. -/
def defaultModule : String :=
  "main"

/-- What the command leaves behind. -/
structure Output where
  /-- The exit status: zero for success, one if something is wrong, two for a bad request. -/
  status : Nat
  /-- What it writes to standard output. -/
  stdout : String
  /-- What it writes to standard error. -/
  stderr : String
deriving DecidableEq, Repr

/-- Lines as one text. -/
def ofLines (lines : List String) : String :=
  String.join (lines.map (· ++ "\n"))

/-- A failure to read as a JSON value, with members in the order of their names. -/
def readErrorJson (path : String) (e : ReadError) : JsonText :=
  .object
    [("code", .string "C0001"),
     ("file", .string path),
     ("message", .string ("cannot read file: " ++ e.message)),
     ("severity", .string "error"),
     ("spans", .array [])]

/-- The line for a path that cannot be read. -/
def readErrorLine (style : Style) (path : String) (e : ReadError) : String :=
  match style with
  | .json => (readErrorJson path e).render
  | _ => "error: cannot read '" ++ path ++ "': " ++ e.message

/-- The lines of a card. Label and hint are indented. -/
def cardLines (c : Card) : List String :=
  [c.header, c.title, "   " ++ c.label] ++ (c.help?.map ("   Help: " ++ ·)).toList

/-- The lines for a diagnostic. -/
def diagnosticLines (style : Style) (d : Diagnostic) : List String :=
  match style with
  | .plain => [d.plain]
  | .json => [d.json.render]
  | .card => cardLines d.card

/-- The paths that cannot be read, each with the reason. -/
def unreadable (read : String → Except ReadError String) (paths : List String) :
    List (String × ReadError) :=
  paths.filterMap fun path ↦
    match read path with
    | .ok _ => none
    | .error e => some (path, e)

/-- The files that can be read. -/
def readable (read : String → Except ReadError String) (paths : List String) : List SourceFile :=
  paths.filterMap fun path ↦
    match read path with
    | .ok text => some { path, text }
    | .error _ => none

/-- Runs the command. -/
def run (o : Options) (read : String → Except ReadError String) : Output :=
  let failures := unreadable read o.paths
  let (program, reported, _) :=
    (Program.empty o.moduleName).parseFiles (readable read o.paths)
  let (report, reporter) := program.checkInto (Reporter.empty.reportAll reported)
  { status := if failures.isEmpty && !reporter.hasErrors then 0 else 1
    stdout := if o.listTypes then ofLines report.listing else ""
    stderr :=
      ofLines (failures.map fun f ↦ readErrorLine o.style f.1 f.2)
        ++ ofLines (reporter.held.flatMap (diagnosticLines o.style)) }

end FrontEnd.Command
