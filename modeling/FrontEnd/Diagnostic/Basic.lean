import FrontEnd.Source.File

/-!
# Diagnostics

A **diagnostic** is one thing that is wrong with a program, ready to be shown: where it is, in which
file of which module, what kind of error it is, and what there is to say about it. Everything the
library finds wrong ends up as a diagnostic, and a program is good exactly if there is none.
-/

namespace FrontEnd

/-- The kinds of errors, by the rule that is broken. -/
inductive Category where
  /-- The text is not made of tokens. -/
  | lexical
  /-- The tokens do not form definitions. -/
  | grammar
  /-- A name is unknown or taken. -/
  | name
  /-- Two types should agree and do not. -/
  | typeMismatch
  /-- An operation does not apply to its operands. -/
  | unsupportedOperation
  /-- A cast is not allowed. -/
  | cast
  /-- A call has too few or too many arguments. -/
  | arity
  /-- A type cannot be found out. -/
  | inference
  /-- The tags of a definition are wrong. -/
  | metadata
deriving DecidableEq, Repr

namespace Category

/-- The code of a category, which never changes. -/
def code : Category → String
  | .lexical => "E0001"
  | .grammar => "E0002"
  | .name => "E0003"
  | .typeMismatch => "E0004"
  | .unsupportedOperation => "E0005"
  | .cast => "E0006"
  | .arity => "E0007"
  | .inference => "E0008"
  | .metadata => "E0009"

/-- The name of a category in machine-readable reports. -/
def title : Category → String
  | .lexical => "Lexical"
  | .grammar => "Syntax"
  | .name => "Name"
  | .typeMismatch => "TypeMismatch"
  | .unsupportedOperation => "UnsupportedOperation"
  | .cast => "Cast"
  | .arity => "Arity"
  | .inference => "Inference"
  | .metadata => "Metadata"

/-- Every category once, in the order of the codes. -/
def all : List Category :=
  [.lexical, .grammar, .name, .typeMismatch, .unsupportedOperation, .cast, .arity, .inference,
   .metadata]

/-- What is said at the marked place. -/
def label : Category → String
  | .lexical => "malformed token"
  | .grammar => "unexpected here"
  | .name => "in this name"
  | .typeMismatch => "type does not match"
  | .unsupportedOperation => "operation not supported"
  | .cast => "cannot be cast"
  | .arity => "wrong number of arguments"
  | .inference => "type cannot be inferred"
  | .metadata => "invalid metadata"

end Category

/-- One thing that is wrong with a program. -/
structure Diagnostic where
  /-- The kind of error. -/
  category : Category
  /-- What there is to say about it. -/
  message : String
  /-- The name of the module. -/
  moduleName : String
  /-- The path of the file. -/
  path : String
  /-- Where it is in the file. -/
  span : Span
  /-- The line and the column at which it starts. -/
  position : Position
deriving DecidableEq, Repr

namespace Diagnostic

/-- The diagnostic for a place in a file. -/
def ofFile (moduleName : String) (file : SourceFile) (category : Category) (message : String)
    (span : Span) : Diagnostic :=
  { category, message, moduleName, path := file.path, span, position := file.position span }

end Diagnostic

end FrontEnd
