import FrontEnd.Diagnostic.Basic
import FrontEnd.Expr.Basic
import FrontEnd.Metadata.Rules

/-!
# What checking finds wrong

Types stand in these errors as texts. A hole means something only beside its table, and the table is
gone when the statement has been checked, so a type is written out at the moment it gives offence.

An error that leaves the expression with a usable type is recorded and checking goes on; the three
errors on operators are of that sort. Every other error is **fatal** and ends the definition in
which it is found, and that definition only.
-/

namespace FrontEnd

/-- An error in a definition. -/
inductive CheckError where
  /-- A name that nothing binds. -/
  | undefinedName (name : String) (span : Span)
  /-- A parameter or local variable whose name is taken in its frame. -/
  | repeatedName (name : String) (span : Span)
  /-- Two operands whose types do not agree. -/
  | mismatch (expected found : String) (span : Span)
  /-- A value of a type other than the one that is asked for. -/
  | notConvertible (source target : String) (span : Span)
  /-- An operator between operands to which it does not apply. -/
  | binaryOperator (op : BinOp) (lhs rhs : String) (span : Span)
  /-- A negation of what is not a number. -/
  | negation (operand : String) (span : Span)
  /-- A dereference of what is not a pointer. -/
  | notPointer (span : Span)
  /-- A cast that is not allowed. -/
  | invalidCast (source target : String) (span : Span)
  /-- A call with a wrong number of arguments. -/
  | arity (expected found : Nat) (span : Span)
  /-- Something whose type cannot be found out. -/
  | cannotInfer (what : String) (span : Span)
  /-- A global variable without a type label. -/
  | missingLabel (span : Span)
  /-- Tags that break a rule. -/
  | metadata (error : TagError) (span : Span)
deriving DecidableEq, Repr

namespace CheckError

/-- Where an error is. -/
def span : CheckError → Span
  | undefinedName _ s => s
  | repeatedName _ s => s
  | mismatch _ _ s => s
  | notConvertible _ _ s => s
  | binaryOperator _ _ _ s => s
  | negation _ s => s
  | notPointer s => s
  | invalidCast _ _ s => s
  | arity _ _ s => s
  | cannotInfer _ s => s
  | missingLabel s => s
  | metadata _ s => s

/-- The kind of an error. -/
def category : CheckError → Category
  | undefinedName _ _ => .name
  | repeatedName _ _ => .name
  | mismatch _ _ _ => .typeMismatch
  | notConvertible _ _ _ => .typeMismatch
  | binaryOperator _ _ _ _ => .unsupportedOperation
  | negation _ _ => .unsupportedOperation
  | notPointer _ => .unsupportedOperation
  | invalidCast _ _ _ => .cast
  | arity _ _ _ => .arity
  | cannotInfer _ _ => .inference
  | missingLabel _ => .inference
  | metadata _ _ => .metadata

/-- Whether an error ends the definition in which it is found. -/
def isFatal : CheckError → Bool
  | mismatch _ _ _ => false
  | binaryOperator _ _ _ _ => false
  | negation _ _ => false
  | _ => true

/-- The wording of an error. -/
def message : CheckError → String
  | undefinedName name _ => "undefined symbol: '" ++ name ++ "'"
  | repeatedName name _ => "multiple symbols with name '" ++ name ++ "' defined in same scope"
  | mismatch expected found _ => "type mismatch: " ++ expected ++ " v. " ++ found
  | notConvertible source target _ => source ++ " cannot be implicitly converted to " ++ target
  | binaryOperator op lhs rhs _ => "cannot apply '" ++ op.text ++ "' to " ++ lhs ++ " and " ++ rhs
  | negation operand _ => "cannot apply '-' to type " ++ operand
  | notPointer _ => "expected a pointer"
  | invalidCast source target _ => "cannot cast '" ++ source ++ "' to '" ++ target ++ "'"
  | arity expected found _ =>
    "expected " ++ toString expected ++ " parameters, received " ++ toString found
  | cannotInfer what _ => "unable to infer type of '" ++ what ++ "'"
  | missingLabel _ => "global variable missing type label"
  | metadata error _ => error.message

end CheckError

end FrontEnd
