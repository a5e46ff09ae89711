import FrontEnd.Expr.Operators
import FrontEnd.Literal.Float
import FrontEnd.Literal.Quoted
import FrontEnd.Ty.Label

/-!
# Reading expressions

From loose to tight: casts, the operators between operands by level, the operators in front of one
operand, calls, and atoms. A row of operands and operators is read flat and grouped afterwards
(`Expr.ofRow`), so precedence plays no part in what is read, only in what is built.

The functions below call each other, and each round through them reads at least one token. They
count their calls down from a bound that the number of tokens gives (`callBound`): on any way into
an expression there are at most four calls for each token, so the bound is never met.
-/

namespace FrontEnd.Expr

open Parse

/-- The value of a literal token; `none` if the token is no literal. -/
def constantOf? (t : Token) : Option (Except ParseError.Cause Constant) :=
  match t.kind with
  | .int =>
    some <|
      match Literal.integer t.text with
      | .ok value => .ok (.int value)
      | .error .tooLarge => .error .integerTooLarge
      | .error .malformed => .error (.malformedInteger t.text)
  | .float =>
    some <|
      match Literal.float t.text with
      | .ok value => .ok (.float value)
      | .error .outOfRange => .error .floatOutOfRange
      | .error .malformed => .error (.malformedFloat t.text)
  | .rune =>
    some <|
      match Literal.rune? t.text with
      | some value => .ok (.rune value)
      | none => .error .malformedRune
  | .keyword .true => some (.ok (.bool true))
  | .keyword .false => some (.ok (.bool false))
  | .keyword .null => some (.ok .null)
  | _ => none

/-- The expression of a single token: a name or a literal; `none` if the token is neither. -/
def ofToken? (t : Token) : Option (Except ParseError Expr) :=
  if t.kind = .ident then some (.ok (ident (.untyped t.span) t.word none))
  else
    (constantOf? t).map fun
      | .ok value => .ok (constant { span := t.span, type? := value.type? } value)
      | .error cause => .error { cause, span := t.span }

/-- Reads the casts behind an expression. -/
def casts : Nat → Expr → Parse Expr
  | 0, _ => failHere
  | n + 1, e => do
    if ← eat (.keyword .as) then
      let dest ← Ty.label
      let span ← spanFrom e.span
      casts n (cast (.untyped span) e dest)
    else return e

mutual

/-- Reads an expression. -/
def parseTo : Nat → Parse Expr
  | 0 => failHere
  | n + 1 => do
    let first ← operandTo n
    let more ← rowTo n
    casts n (ofRow first more)

/-- Reads what follows the first operand of a row. -/
def rowTo : Nat → Parse (List (BinOp × Expr))
  | 0 => failHere
  | n + 1 => do
    match BinOp.ofKind? (← peek).kind with
    | none => return []
    | some op =>
      let _ ← advance
      let e ← operandTo n
      let more ← rowTo n
      return (op, e) :: more

/-- Reads an operand: operators in front, an atom, and its calls. -/
def operandTo : Nat → Parse Expr
  | 0 => failHere
  | n + 1 => do
    let t ← peek
    match UnaryOp.ofKind? t.kind with
    | some op =>
      let _ ← advance
      let e ← operandTo n
      let span ← spanFrom t.span
      return unary (.untyped span) op e
    | none =>
      let e ← atomTo n
      callsTo n e

/-- Reads the calls behind an atom. -/
def callsTo : Nat → Expr → Parse Expr
  | 0, _ => failHere
  | n + 1, callee => do
    if ← eat (.sign .leftParen) then
      let args ← argumentsTo n
      let span ← spanFrom callee.span
      callsTo n (call (.untyped span) callee args)
    else return callee

/-- Reads arguments and the parenthesis that closes them. -/
def argumentsTo : Nat → Parse (List Expr)
  | 0 => failHere
  | n + 1 => do
    if ← eat (.sign .rightParen) then return []
    else
      let e ← parseTo n
      let more ← moreArgumentsTo n
      return e :: more

/-- Reads what follows an argument. -/
def moreArgumentsTo : Nat → Parse (List Expr)
  | 0 => failHere
  | n + 1 => do
    if ← eat (.sign .comma) then
      let e ← parseTo n
      let more ← moreArgumentsTo n
      return e :: more
    else
      let _ ← expect (.sign .rightParen)
      return []

/-- Reads a name, a literal, or an expression in parentheses. -/
def atomTo : Nat → Parse Expr
  | 0 => failHere
  | n + 1 => do
    let t ← peek
    match ofToken? t with
    | some (.ok e) =>
      let _ ← advance
      return e
    | some (.error e) => fail e
    | none =>
      if ← eat (.sign .leftParen) then
        let e ← parseTo n
        let _ ← expect (.sign .rightParen)
        return e
      else failHere

end

/-- A bound on the calls on any way into an expression that is read from a number of tokens. -/
def callBound (tokens : Nat) : Nat :=
  4 * tokens + 8

/-- Reads an expression. -/
def parse : Parse Expr :=
  fun c ↦ parseTo (callBound c.rest.length) c

end FrontEnd.Expr
