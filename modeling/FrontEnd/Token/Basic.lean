import FrontEnd.Source.Span
import FrontEnd.Token.Fault
import FrontEnd.Ty.Scalar

/-!
# Tokens

A **token** is a word of the language with the place where it stands. Words with a fixed spelling
(keywords, names of scalar types, signs) are kinds of their own; the others are told apart by class
and keep their spelling in the token.

A stream of tokens always ends with an end mark, and a fault stands in the stream as a token of its
own just before that mark. A reader of the stream therefore needs no second channel to learn how the
text ended.
-/

namespace FrontEnd

/-- The reserved words other than the names of scalar types. -/
inductive Keyword where
  | func
  | let
  | as
  | null
  | const
  | true
  | false
deriving DecidableEq, Repr

namespace Keyword

/-- The spelling of a keyword. -/
def spelling : Keyword → String
  | .func => "func"
  | .let => "let"
  | .as => "as"
  | .null => "null"
  | .const => "const"
  | .true => "true"
  | .false => "false"

/-- Every keyword once. -/
def all : List Keyword :=
  [.func, .let, .as, .null, .const, .true, .false]

/-- The keyword of a spelling. -/
def ofSpelling? (word : String) : Option Keyword :=
  all.find? (·.spelling == word)

end Keyword

/-- The signs, each of one character. -/
inductive Sign where
  | plus
  | minus
  | star
  | slash
  | percent
  | amp
  | pipe
  | caret
  | equal
  | leftParen
  | rightParen
  | leftBracket
  | rightBracket
  | leftBrace
  | rightBrace
  | comma
  | dot
  | semicolon
  | colon
  | at
deriving DecidableEq, Repr

namespace Sign

/-- The character of a sign. -/
def char : Sign → Char
  | .plus => '+'
  | .minus => '-'
  | .star => '*'
  | .slash => '/'
  | .percent => '%'
  | .amp => '&'
  | .pipe => '|'
  | .caret => '^'
  | .equal => '='
  | .leftParen => '('
  | .rightParen => ')'
  | .leftBracket => '['
  | .rightBracket => ']'
  | .leftBrace => '\x7b'
  | .rightBrace => '\x7d'
  | .comma => ','
  | .dot => '.'
  | .semicolon => ';'
  | .colon => ':'
  | .at => '@'

/-- Every sign once. -/
def all : List Sign :=
  [.plus, .minus, .star, .slash, .percent, .amp, .pipe, .caret, .equal, .leftParen, .rightParen,
   .leftBracket, .rightBracket, .leftBrace, .rightBrace, .comma, .dot, .semicolon, .colon, .at]

/-- The sign of a character. -/
def ofChar? (c : Char) : Option Sign :=
  all.find? (·.char == c)

end Sign

namespace Token

/-- The kinds of tokens. -/
inductive Kind where
  /-- A keyword. -/
  | keyword (k : Keyword)
  /-- The name of a scalar type. -/
  | scalar (s : Scalar)
  /-- A sign. -/
  | sign (s : Sign)
  /-- A name that is not reserved. -/
  | ident
  /-- An integer literal. -/
  | int
  /-- A float literal. -/
  | float
  /-- A rune literal. -/
  | rune
  /-- A string literal. -/
  | string
  /-- The place where reading stopped. -/
  | fault (f : Fault)
  /-- The end mark. -/
  | finish
deriving DecidableEq, Repr

namespace Kind

/-- Whether a kind is a fault. -/
def isFault : Kind → Bool
  | .fault _ => true
  | _ => false

/-- The kind of a word, `none` if the word is not reserved. -/
def ofWord? (word : String) : Option Kind :=
  match Keyword.ofSpelling? word with
  | some k => some (.keyword k)
  | none => (Scalar.ofName? word).map .scalar

/-- How a message names a kind: a fixed spelling in quotes, or the name of the class. -/
def describe : Kind → String
  | .keyword k => "'" ++ k.spelling ++ "'"
  | .scalar s => "'" ++ s.name ++ "'"
  | .sign s => "'" ++ s.char.toString ++ "'"
  | .ident => "identifier"
  | .int => "integer literal"
  | .float => "float literal"
  | .rune => "rune literal"
  | .string => "string literal"
  | .fault _ => "invalid token"
  | .finish => "end of file"

end Kind

end Token

/-- A word of a text. -/
structure Token where
  /-- What kind of word it is. -/
  kind : Token.Kind
  /-- Where it stands. -/
  span : Span
  /-- How it is spelled there. -/
  text : List Char
deriving DecidableEq, Repr

namespace Token

/-- The end mark at an offset. -/
def finishAt (offset : Nat) : Token :=
  { kind := .finish, span := .point offset, text := [] }

instance : Inhabited Token :=
  ⟨finishAt 0⟩

/-- The spelling of a token as a string. -/
def word (t : Token) : String :=
  String.ofList t.text

/-- The same token in a text that has `offset` more bytes in front. -/
def shift (offset : Nat) (t : Token) : Token :=
  { t with span := t.span.shift offset }

end Token

end FrontEnd
