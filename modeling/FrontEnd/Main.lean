import FrontEnd.Command.Arguments

/-!
# The program

Reads the files named by its arguments and runs the command on them.
-/

namespace FrontEnd

/-- Whether a code of the operating system, which may come with either sign, is a number. -/
def isSystemCode (code number : UInt32) : Bool :=
  code == number || code == 0 - number

/-- Why a file could not be read, from what the operating system reports. -/
def ReadError.ofSystem (e : IO.Error) : ReadError :=
  match e with
  | .noFileOrDirectory _ _ _ => .missing
  | .inappropriateType _ code _ => if isSystemCode code 20 then .notFolder else .isFolder
  | .invalidArgument _ code _ =>
    if isSystemCode code 36 then .tooLong else .other (toString e)
  | _ => .other (toString e)

/-- Reads the text of a file. -/
def readText (path : String) : IO (Except ReadError String) := do
  try
    let bytes ← IO.FS.readBinFile path
    return decodeText bytes
  catch e => return .error (.ofSystem e)

/-- Reads the texts of files, each under its path. -/
def readTexts (paths : List String) : IO (List (String × Except ReadError String)) :=
  paths.mapM fun path ↦ do return (path, ← readText path)

end FrontEnd

/-- Runs the command on the arguments of the program. -/
def main (args : List String) : IO UInt32 := do
  let texts ← FrontEnd.readTexts (FrontEnd.Command.requestedPaths args)
  let output := FrontEnd.Command.execute args fun path ↦
    (texts.lookup path).getD (.error .missing)
  IO.print output.stdout
  IO.eprint output.stderr
  return output.status.toUInt32
