import FrontEnd.Command.Check

/-!
# The arguments of the command

`check` is the only command. Behind it stand files and options in any order. A **switch** is turned
on by its name behind two dashes, or by its letter behind one, where letters may be put together.
The name of the module is the next argument behind `--module`, or follows an equals sign. A dash
alone is the name of a file, and so is everything behind two dashes alone.

Nothing may be given twice except files. Arguments are read from left to right and the first one
that makes no sense ends the reading, so a request for help counts only if everything before it made
sense; how options suit each other is asked only at the end.
-/

namespace FrontEnd.Command

/-! ### Single arguments -/

/-- An option without a value. -/
inductive Switch where
  /-- One JSON object for each diagnostic. -/
  | json
  /-- One plain line for each diagnostic. -/
  | plain
  /-- No colours. -/
  | noColor
  /-- The types of definitions. -/
  | listTypes
  /-- What goes on inside. -/
  | verbose
  /-- Help instead of a check. -/
  | help
deriving DecidableEq, Repr

namespace Switch

/-- The name of a switch. -/
def name : Switch → String
  | json => "json"
  | plain => "plain"
  | noColor => "no-color"
  | listTypes => "dump-types"
  | verbose => "verbose"
  | help => "help"

/-- The letter of a switch, if it has one. -/
def letter? : Switch → Option Char
  | verbose => some 'v'
  | help => some 'h'
  | _ => none

/-- Every switch once. -/
def all : List Switch :=
  [json, plain, noColor, listTypes, verbose, help]

/-- The switch of a name. -/
def ofName? (word : String) : Option Switch :=
  all.find? (·.name = word)

/-- The switch of a letter. -/
def ofLetter? (letter : Char) : Option Switch :=
  all.find? (·.letter? = some letter)

end Switch

/-- What an argument is by itself. -/
inductive Argument where
  /-- A file. -/
  | path (p : String)
  /-- The mark behind which there are only files. -/
  | divider
  /-- A switch by its name. -/
  | switch (s : Switch)
  /-- Switches by their letters. -/
  | letters (cs : List Char)
  /-- The name of the module. -/
  | moduleName (name : String)
  /-- The option whose value, the name of the module, comes next. -/
  | moduleOption
  /-- An option that is not known, or a value for a switch. -/
  | unknown
deriving DecidableEq, Repr

namespace Argument

/-- An option by its name, with what follows an equals sign. -/
def ofOption (name : String) (value? : Option String) : Argument :=
  match value? with
  | none =>
    if name = "module" then moduleOption else ((Switch.ofName? name).map switch).getD unknown
  | some value => if name = "module" then moduleName value else unknown

/-- The text behind the first equals sign. -/
def valueOf? (cs : List Char) : Option String :=
  (cs.dropWhile (· ≠ '=')).tail?.map String.ofList

/-- What an argument is by itself. -/
def ofString (argument : String) : Argument :=
  match argument.toList with
  | ['-', '-'] => divider
  | '-' :: '-' :: cs => ofOption (String.ofList (cs.takeWhile (· ≠ '='))) (valueOf? cs)
  | '-' :: c :: cs => letters (c :: cs)
  | _ => path argument

/-- Whether an argument can be the value of the option before it. -/
def isValue (argument : String) : Bool :=
  ofString argument = path argument

end Argument

/-! ### All arguments -/

/-- Why arguments do not lead to a check. -/
inductive Detour where
  /-- They ask for help. -/
  | help
  /-- They make no sense. -/
  | misuse
deriving DecidableEq, Repr

/-- What has been gathered from arguments. -/
structure Gathered where
  /-- The files, in order. -/
  paths : List String
  /-- The switches that are on. -/
  switches : List Switch
  /-- The name of the module. -/
  moduleName? : Option String
deriving DecidableEq, Repr

namespace Gathered

/-- Nothing yet. -/
def empty : Gathered :=
  { paths := [], switches := [], moduleName? := none }

/-- Adds a file; a file has a name. -/
def addPath (g : Gathered) (path : String) : Except Detour Gathered :=
  if path = "" then .error .misuse else .ok { g with paths := g.paths ++ [path] }

/-- Turns a switch on. -/
def turnOn (g : Gathered) (s : Switch) : Except Detour Gathered :=
  if s = .help then .error .help
  else if s ∈ g.switches then .error .misuse
  else .ok { g with switches := s :: g.switches }

/-- Turns on the switch of a letter. -/
def turnOnLetter (g : Gathered) (letter : Char) : Except Detour Gathered :=
  match Switch.ofLetter? letter with
  | some s => g.turnOn s
  | none => .error .misuse

/-- Names the module. -/
def nameModule (g : Gathered) (name : String) : Except Detour Gathered :=
  if g.moduleName?.isSome then .error .misuse else .ok { g with moduleName? := some name }

/-- Reads arguments behind those from which `g` has been gathered. -/
def read (g : Gathered) : List String → Except Detour Gathered
  | [] => .ok g
  | argument :: rest =>
    match Argument.ofString argument with
    | .path path => do (← g.addPath path).read rest
    | .divider => rest.foldlM addPath g
    | .switch s => do (← g.turnOn s).read rest
    | .letters cs => do (← cs.foldlM turnOnLetter g).read rest
    | .moduleName name => do (← g.nameModule name).read rest
    | .moduleOption =>
      match rest with
      | [] => .error .misuse
      | name :: rest =>
        if Argument.isValue name then do (← g.nameModule name).read rest else .error .misuse
    | .unknown => .error .misuse

/-- The style that switches ask for; `none` if they ask for two. -/
def style? (g : Gathered) : Option Style :=
  match g.switches.contains .json, g.switches.contains .plain with
  | true, true => none
  | true, false => some .json
  | false, true => some .plain
  | false, false => some .card

/-- The options of a check. There has to be a file. -/
def options (g : Gathered) : Except Detour Options :=
  match g.style? with
  | none => .error .misuse
  | some style =>
    if g.paths.isEmpty then .error .misuse
    else
      .ok
        { paths := g.paths
          moduleName := g.moduleName?.getD defaultModule
          style
          listTypes := g.switches.contains .listTypes }

end Gathered

/-- The options that the arguments behind `check` ask for. -/
def checkOptions (arguments : List String) : Except Detour Options := do
  (← Gathered.empty.read arguments).options

/-- The options that the arguments of the program ask for. Of the switches only `verbose` and `help`
may also stand before the command; the flag tells whether `verbose` has. -/
def programOptions (verbose : Bool) : List String → Except Detour Options
  | [] => .error .misuse
  | argument :: rest =>
    if argument = "check" then checkOptions rest
    else if argument = "-v" || argument = "--verbose" then
      if verbose then .error .misuse else programOptions true rest
    else if argument = "-h" || argument = "--help" || argument = "help" then .error .help
    else .error .misuse

/-- What is said about the use of the program. -/
def usage : String :=
  "usage: check [--module NAME] [--json | --plain] [--no-color] [--dump-types] [-v] FILE...\n"

/-- The paths that arguments ask to read. -/
def requestedPaths (arguments : List String) : List String :=
  match programOptions false arguments with
  | .ok options => options.paths
  | .error _ => []

/-- Runs the program on its arguments. -/
def execute (arguments : List String) (read : String → Except ReadError String) : Output :=
  match programOptions false arguments with
  | .ok options => run options read
  | .error .help => { status := 0, stdout := usage, stderr := "" }
  | .error .misuse => { status := 2, stdout := "", stderr := usage }

end FrontEnd.Command
