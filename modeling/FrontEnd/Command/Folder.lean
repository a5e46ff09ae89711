/-!
# Reading files

A folder as a list of files, each at the end of the way that leads to it, and what reading a path
from within the folder gives. Paths are followed name by name, as the operating system does: a path
may step into a folder and out again, a file has nothing below it, and what goes wrong first is what
is reported.

A path may also leave the folder, upwards or from the root. Out there only what every system has is
known: the root, the standard folders below it, and the device that holds nothing. Every other name
is taken to be missing.
-/

namespace FrontEnd

/-- Why a path cannot be read. -/
inductive ReadError where
  /-- Nothing is there. -/
  | missing
  /-- The path goes through a file as if it were a folder. -/
  | notFolder
  /-- A folder is there. -/
  | isFolder
  /-- The path, or a name in it, is longer than any can be. -/
  | tooLong
  /-- The bytes are not UTF-8. -/
  | notText
  /-- Something else, in the words of the operating system. -/
  | other (message : String)
deriving DecidableEq, Repr

/-- The wording of a failure to read. -/
def ReadError.message : ReadError → String
  | .missing => "No such file or directory (os error 2)"
  | .notFolder => "Not a directory (os error 20)"
  | .isFolder => "Is a directory (os error 21)"
  | .tooLong => "File name too long (os error 36)"
  | .notText => "stream did not contain valid UTF-8"
  | .other message => message

/-- The text of bytes in UTF-8. -/
def decodeText (bytes : ByteArray) : Except ReadError String :=
  match String.fromUTF8? bytes with
  | some text => .ok text
  | none => .error .notText

/-- The names in a path. -/
def pathNames (path : String) : List String :=
  (path.splitToList (· == '/')).filter (· ≠ "")

/-- The greatest number of bytes in a name. -/
def maxNameBytes : Nat :=
  255

/-- The greatest number of bytes in a path. -/
def maxPathBytes : Nat :=
  4095

/-- The folders that every system has below its root, with the exception of `dev`. -/
def systemFolders : List String :=
  ["bin", "boot", "etc", "home", "lib", "media", "mnt", "opt", "proc", "root", "run", "sbin", "srv",
   "sys", "tmp", "usr", "var"]

/-- A file in a folder. -/
structure StoredFile where
  /-- The names on the way to it, its own last. -/
  way : List String
  /-- What it holds. -/
  bytes : ByteArray

/-- A folder with everything below it. -/
structure Folder where
  /-- The files, the newest first; an older one at the end of the same way has been overwritten. -/
  files : List StoredFile
  /-- The ways to the folders below it. -/
  folders : List (List String)

/-- Where following a path has led. -/
inductive Place where
  /-- The end of a way from the folder. -/
  | inside (way : List String)
  /-- The root of the system. -/
  | root
  /-- The folder of devices. -/
  | devices
  /-- The device that holds nothing. -/
  | nothing
  /-- Some other folder, of whose contents nothing is known. -/
  | elsewhere
deriving DecidableEq, Repr

namespace Folder

/-! ### Making -/

/-- The folder in which nothing is. -/
def empty : Folder :=
  ⟨[], []⟩

/-- Goes on by a name from the end of a way, and makes the folder if it is not there. -/
def enter : Folder × List String → String → Folder × List String
  | (f, way), name =>
    if name = "." then (f, way)
    else if name = ".." then (f, way.dropLast)
    else ({ f with folders := (way ++ [name]) :: f.folders }, way ++ [name])

/-- The folder with a file at a path, and with the folders on the way to it. -/
def write (f : Folder) (path : String) (bytes : ByteArray) : Folder :=
  let names := pathNames path
  let (g, way) := names.dropLast.foldl enter (f, [])
  { g with files := ⟨way ++ names.getLast?.toList, bytes⟩ :: g.files }

/-- The folder after files have been written in order. -/
def ofFiles (files : List (String × ByteArray)) : Folder :=
  files.foldl (fun f file ↦ f.write file.1 file.2) empty

/-! ### Reading -/

/-- The file at the end of a way. -/
def file? (f : Folder) (way : List String) : Option StoredFile :=
  f.files.find? (·.way = way)

/-- Whether a way ends at the folder or at one below it. -/
def hasFolder (f : Folder) (way : List String) : Bool :=
  way.isEmpty || f.folders.contains way

/-- Whether a place is a folder. -/
def isFolder (f : Folder) : Place → Bool
  | .inside way => f.hasFolder way
  | .nothing => false
  | _ => true

/-- The folder above a folder. The root is above itself. -/
def parent : Place → Place
  | .inside [] => .elsewhere
  | .inside way => .inside way.dropLast
  | .devices => .root
  | .root => .root
  | _ => .elsewhere

/-- What a folder has under a name. -/
def entry? (f : Folder) (place : Place) (name : String) : Option Place :=
  match place with
  | .inside way =>
    let next := way ++ [name]
    if f.hasFolder next || (f.file? next).isSome then some (.inside next) else none
  | .root =>
    if name = "dev" then some .devices
    else if name ∈ systemFolders then some .elsewhere
    else none
  | .devices => if name = "null" then some .nothing else none
  | _ => none

/-- Goes on from a place by a name. -/
def step (f : Folder) (place : Place) (name : String) : Except ReadError Place :=
  if !f.isFolder place then .error .notFolder
  else if name = "." then .ok place
  else if name = ".." then .ok (parent place)
  -- a name is measured before it is looked up, and after what it is looked up in
  else if maxNameBytes < name.utf8ByteSize then .error .tooLong
  else
    match f.entry? place name with
    | some next => .ok next
    | none => .error .missing

/-- Where a path leads. -/
def follow (f : Folder) (path : String) : Except ReadError Place :=
  if path = "" then .error .missing
  else if maxPathBytes < path.utf8ByteSize then .error .tooLong
  else (pathNames path).foldlM f.step (if path.startsWith "/" then .root else .inside [])

/-- What a place that is no folder holds. -/
def contents (f : Folder) : Place → Except ReadError String
  | .inside way =>
    match f.file? way with
    | some file => decodeText file.bytes
    | none => .error .missing
  | _ => .ok ""

/-- Reads the text at a path. -/
def read (f : Folder) (path : String) : Except ReadError String :=
  match f.follow path with
  | .error e => .error e
  | .ok place =>
    if f.isFolder place then .error .isFolder
    -- a slash at the end asks for a folder
    else if path.endsWith "/" then .error .notFolder
    else f.contents place

end Folder

end FrontEnd
