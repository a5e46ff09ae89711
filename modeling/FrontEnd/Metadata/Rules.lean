import FrontEnd.Metadata.Basic

/-!
# Which tags a definition may have

Two kinds of rules. Each tag by itself has to be known, and to have a text exactly if it takes one,
from a fixed list. Then the tags of a definition have to suit each other and what they are put on.
Rules are tried in order and the first one that is broken is reported: first the tags one by one in
the order of the source, then the rules on their combination.
-/

namespace FrontEnd

/-- What tags are put on. -/
inductive Tagged where
  /-- A function, with or without a body. -/
  | function (hasBody : Bool)
  /-- A global variable, with or without an initial value. -/
  | global (hasInit : Bool)
deriving DecidableEq, Repr

/-- How the tags of a definition break a rule. -/
inductive TagError where
  /-- There is no tag of that name. -/
  | unknown (name : String)
  /-- A tag has a text and takes none. -/
  | unwantedValue (name : String)
  /-- A tag has no text and takes one. -/
  | missingValue (name : String)
  /-- A tag has a text that is not on its list. -/
  | invalidValue (name value : String)
  /-- An external function has a body. -/
  | externalBody
  /-- An external function is an entry point. -/
  | externalEntry
  /-- An external function is to be inlined. -/
  | externalInline
  /-- A function that is not external has a calling convention. -/
  | internalConvention
  /-- A variable has a calling convention. -/
  | variableConvention
  /-- A variable is to be inlined. -/
  | variableInline
  /-- An external variable has an initial value. -/
  | externalInit
  /-- An external variable is an entry point. -/
  | externalVariableEntry
deriving DecidableEq, Repr

/-- The wording of a broken rule. -/
def TagError.message : TagError → String
  | .unknown name => "unsupported metadata tag: '" ++ name ++ "'"
  | .unwantedValue name => "metadata tag '" ++ name ++ "' does not take a value"
  | .missingValue name => "@" ++ name ++ " requires an argument"
  | .invalidValue name value =>
    "'" ++ value ++ "' is not a valid value for metadata tag '" ++ name ++ "'"
  | .externalBody => "@extern function cannot have a body"
  | .externalEntry => "@abientry function cannot be marked @extern"
  | .externalInline => "@inline function cannot be marked @extern"
  | .internalConvention => "@callconv can only be applied to external functions"
  | .variableConvention => "global variable cannot be marked @callconv"
  | .variableInline => "global variable cannot be marked @inline"
  | .externalInit => "@extern global variable cannot have an initializer"
  | .externalVariableEntry => "global variable cannot be marked both @extern and @abientry"

namespace Tag

/-- The texts that a tag of a name takes: `some []` if it takes none, `none` if there is no tag of
that name. -/
def texts? (name : String) : Option (List String) :=
  if name = "extern" ∨ name = "abientry" ∨ name = "inline" then some []
  else if name = "callconv" then some ["c", "win64", "stdcall"]
  else none

/-- The rule that a tag breaks by itself, with the place to point at. -/
def error? (tag : Tag) : Option (TagError × Span) :=
  match texts? tag.name, tag.value? with
  | none, _ => some (.unknown tag.name, tag.nameSpan)
  | some [], some value => some (.unwantedValue tag.name, value.span)
  | some [], none => none
  | some (_ :: _), none => some (.missingValue tag.name, tag.nameSpan)
  | some (text :: more), some value =>
    if value.text ∈ text :: more then none
    else some (.invalidValue tag.name value.text, value.span)

end Tag

/-- A rule on a combination of tags. -/
structure TagRule where
  /-- Whether it is broken. -/
  broken : Bool
  /-- The tag to point at. -/
  tagName : String
  /-- What is wrong. -/
  error : TagError

namespace Metadata

/-- The rules on combinations of tags, in the order in which they are tried. -/
def rules (m : Metadata) : Tagged → List TagRule
  | .function hasBody =>
    let external := m.contains "extern"
    [⟨external && hasBody, "extern", .externalBody⟩,
     ⟨external && m.contains "abientry", "abientry", .externalEntry⟩,
     ⟨external && m.contains "inline", "inline", .externalInline⟩,
     ⟨!external && m.contains "callconv", "callconv", .internalConvention⟩]
  | .global hasInit =>
    let external := m.contains "extern"
    [⟨m.contains "callconv", "callconv", .variableConvention⟩,
     ⟨m.contains "inline", "inline", .variableInline⟩,
     ⟨external && hasInit, "extern", .externalInit⟩,
     ⟨external && m.contains "abientry", "abientry", .externalVariableEntry⟩]

/-- The place of the tag of a name. -/
def spanOf (m : Metadata) (name : String) : Span :=
  ((m.get? name).map (·.nameSpan)).getD default

/-- The first rule that the tags of a definition break, with the place to point at. -/
def error? (m : Metadata) (on : Tagged) : Option (TagError × Span) :=
  (m.tags.findSome? Tag.error?).or
    (((m.rules on).find? (·.broken)).map fun rule ↦ (rule.error, m.spanOf rule.tagName))

end Metadata

end FrontEnd
