import FrontEnd.Token.Basic

/-!
# Reading a stream of tokens

A **cursor** is a place in a stream: the tokens that are left, and the offset where the last token
that was read ends. A parser reads from a cursor and either fails for good or hands on the cursor
behind what it read; one token of lookahead is all that the grammar needs, so nothing is ever
tried twice.

Neither a fault nor the end mark is ever read past. Where one of them stands in the way the error
says so, and not that something else was expected.
-/

namespace FrontEnd

namespace ParseError

/-- Why a text is not a sequence of definitions. -/
inductive Cause where
  /-- The text has a lexical fault. -/
  | fault (f : Fault)
  /-- A token of another kind stands where only one kind can. -/
  | expected (kind : Token.Kind) (found : List Char)
  /-- The text ends too early. -/
  | endOfFile
  /-- A token that cannot stand where it does. -/
  | unexpected (found : List Char)
  /-- An integer literal that does not fit in 64 bits. -/
  | integerTooLarge
  /-- An integer literal that does not spell an integer. -/
  | malformedInteger (text : List Char)
  /-- A float literal that has no finite double. -/
  | floatOutOfRange
  /-- A float literal that does not spell a number. -/
  | malformedFloat (text : List Char)
  /-- A rune literal that does not spell a character. -/
  | malformedRune
deriving DecidableEq, Repr

/-- The wording of a cause. -/
def Cause.message : Cause → String
  | .fault f => f.message
  | .expected kind found =>
    "expected " ++ kind.describe ++ ", found '" ++ String.ofList found ++ "'"
  | .endOfFile => "unexpected end of file"
  | .unexpected found => "unexpected token: " ++ String.ofList found
  | .integerTooLarge => "integer value too large"
  | .malformedInteger text => "malformed integer literal: " ++ String.ofList text
  | .floatOutOfRange => "float value out of range"
  | .malformedFloat text => "malformed float literal: " ++ String.ofList text
  | .malformedRune => "malformed rune literal"

end ParseError

/-- A failure to read a text, with the place where it shows. -/
structure ParseError where
  /-- What is wrong. -/
  cause : ParseError.Cause
  /-- Where it is. -/
  span : Span
deriving DecidableEq, Repr

namespace ParseError

/-- The wording of an error. -/
def message (e : ParseError) : String :=
  e.cause.message

/-- Whether an error is a lexical fault. -/
def isLexical (e : ParseError) : Bool :=
  match e.cause with
  | .fault _ => true
  | _ => false

end ParseError

/-- A place in a stream of tokens. -/
structure Cursor where
  /-- The tokens that are left. -/
  rest : List Token
  /-- Where the last token that was read ends. -/
  lastStop : Nat
deriving Repr

namespace Cursor

/-- The place before the first token. -/
def start (tokens : List Token) : Cursor :=
  ⟨tokens, 0⟩

/-- The next token. A stream ends with an end mark that is never read, so there always is one. -/
def current (c : Cursor) : Token :=
  c.rest.headD (Token.finishAt c.lastStop)

/-- The place behind the next token. -/
def next (c : Cursor) : Cursor :=
  ⟨c.rest.tail, c.current.span.stop⟩

/-- The error that the next token makes where it cannot stand. -/
def unexpected (c : Cursor) : ParseError :=
  { cause :=
      match c.current.kind with
      | .fault f => .fault f
      | .finish => .endOfFile
      | _ => .unexpected c.current.text
    span := c.current.span }

/-- The error that the next token makes where only `kind` can stand. -/
def unexpectedFor (kind : Token.Kind) (c : Cursor) : ParseError :=
  match c.current.kind with
  | .fault _ => c.unexpected
  | .finish => c.unexpected
  | _ => { cause := .expected kind c.current.text, span := c.current.span }

/-- The span from the start of `s` to the last token that was read. -/
def spanFrom (c : Cursor) (s : Span) : Span :=
  ⟨s.start, max c.lastStop s.stop⟩

end Cursor

/-- A parser of `α`: it fails, or reads an `α` and hands on the place behind it. -/
def Parse (α : Type) : Type :=
  Cursor → Except ParseError (α × Cursor)

namespace Parse

instance : Monad Parse where
  pure a := fun c ↦ .ok (a, c)
  bind p f := fun c ↦
    match p c with
    | .ok (a, d) => f a d
    | .error e => .error e

/-- Fails with an error. -/
def fail {α : Type} (e : ParseError) : Parse α :=
  fun _ ↦ .error e

/-- Fails because of the next token. -/
def failHere {α : Type} : Parse α :=
  fun c ↦ .error c.unexpected

/-- The next token, which is not read. -/
def peek : Parse Token :=
  fun c ↦ .ok (c.current, c)

/-- Reads the next token, whatever it is. -/
def advance : Parse Token :=
  fun c ↦ .ok (c.current, c.next)

/-- Whether the next token is of a kind. -/
def at? (kind : Token.Kind) : Parse Bool :=
  fun c ↦ .ok (c.current.kind = kind, c)

/-- Reads the next token if it is of a kind, and tells whether it was. -/
def eat (kind : Token.Kind) : Parse Bool :=
  fun c ↦ if c.current.kind = kind then .ok (true, c.next) else .ok (false, c)

/-- Reads a token that has to be of a kind. -/
def expect (kind : Token.Kind) : Parse Token :=
  fun c ↦ if c.current.kind = kind then .ok (c.current, c.next) else .error (c.unexpectedFor kind)

/-- The span from the start of `s` to the last token that was read. -/
def spanFrom (s : Span) : Parse Span :=
  fun c ↦ .ok (c.spanFrom s, c)

end Parse

end FrontEnd
