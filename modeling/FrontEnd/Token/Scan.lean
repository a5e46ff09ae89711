import FrontEnd.Text.Alphabetic
import FrontEnd.Text.Numeric
import FrontEnd.Token.Escape
import FrontEnd.Token.Number

/-!
# Reading tokens

A text is cut into **trivia** and tokens in turn. Trivia are blanks and comments; they separate
tokens and are dropped. Which token starts at a place is decided by its first character alone, and
how far it reaches by a scanner of its own.

Scanners tell lengths and never hand out text: the text of a token is what `List.take` gives for
the length, and reading goes on with what `List.drop` gives. Nothing can be lost or read twice, and
the loop ends because each token takes at least its first character.
-/

namespace FrontEnd.Token

/-! ### Trivia -/

/-- Whether a character is a blank between tokens. -/
def isBlank (c : Char) : Bool :=
  c == ' ' || c == '\t' || c == '\r' || c == '\n'

/-- The number of characters of a line comment behind its two slashes. The line feed is not part of
the comment. -/
def lineCommentLength (cs : List Char) : Nat :=
  (cs.takeWhile (· ≠ '\n')).length

/-- The number of characters of a block comment behind its opening, with the closing counted in;
`none` if it is never closed. Block comments do not nest. -/
def blockCommentLength? : List Char → Option Nat
  | '*' :: '/' :: _ => some 2
  | _ :: cs => (blockCommentLength? cs).map (· + 1)
  | [] => none

/-- The number of characters of trivia at the head of a text. A block comment that is never closed
is not trivia. -/
def triviaLength (cs : List Char) : Nat :=
  match cs with
  | '/' :: '/' :: ds =>
    lineCommentLength ds + 2 + triviaLength (ds.drop (lineCommentLength ds))
  | '/' :: '*' :: ds =>
    match blockCommentLength? ds with
    | some n => n + 2 + triviaLength (ds.drop n)
    | none => 0
  | c :: ds => if isBlank c then triviaLength ds + 1 else 0
  | [] => 0
termination_by cs.length
decreasing_by all_goals simp only [List.length_cons, List.length_drop]; omega

/-! ### Names, runes and strings -/

/-- Whether a character may start a name. -/
def isNameStart (c : Char) : Bool :=
  Text.isAlphabetic c || c == '_'

/-- Whether a character may stand in a name. -/
def isNamePart (c : Char) : Bool :=
  Text.isAlphabetic c || Text.isNumeric c || c == '_'

/-- A name or a reserved word that starts with `c`. -/
def nameExtent (c : Char) (cs : List Char) : Extent :=
  let run := cs.takeWhile isNamePart
  { kind := (Kind.ofWord? (String.ofList (c :: run))).getD .ident
    length := run.length }

/-- A rune literal of which the quote and the character have been read. -/
def runeCloseExtent : List Char → Extent
  | [] => ⟨.fault .unclosedRune, 0⟩
  | c :: _ => if c = '\'' then ⟨.rune, 1⟩ else ⟨.fault .longRune, 1⟩

/-- A rune literal behind its quote. -/
def runeExtent : List Char → Extent
  | [] => ⟨.fault .unclosedRune, 0⟩
  | '\'' :: _ => ⟨.fault .emptyRune, 1⟩
  | '\\' :: [] => ⟨.fault .missingEscape, 1⟩
  | '\\' :: code :: cs =>
    if (Escape.value? code).isSome then (runeCloseExtent cs).grow 2
    else ⟨.fault (.invalidEscape code), 2⟩
  | _ :: cs => (runeCloseExtent cs).grow 1

/-- A string literal behind its quote. A line feed ends the search and is not taken. -/
def stringExtent : List Char → Extent
  | [] => ⟨.fault .unclosedString, 0⟩
  | '\n' :: _ => ⟨.fault .newlineInString, 0⟩
  | '"' :: _ => ⟨.string, 1⟩
  | '\\' :: [] => ⟨.fault .missingEscape, 1⟩
  | '\\' :: code :: cs =>
    if (Escape.value? code).isSome then (stringExtent cs).grow 2
    else ⟨.fault (.invalidEscape code), 2⟩
  | _ :: cs => (stringExtent cs).grow 1

/-! ### Tokens -/

/-- Whether a block comment opens with `c`. Where a token is due, it is one that is never closed. -/
def opensComment (c : Char) (cs : List Char) : Bool :=
  c == '/' && cs.head? == some '*'

/-- The token that starts with `c`: its kind, and the number of characters it takes behind `c`. -/
def extent (c : Char) (cs : List Char) : Extent :=
  -- a comment that is closed is trivia and has been dropped before a token is due
  if opensComment c cs then ⟨.fault .unclosedComment, cs.length⟩
  else
    match Sign.ofChar? c with
    | some s => ⟨.sign s, 0⟩
    | none =>
      if c.isDigit then numberExtent c cs
      else if c = '\'' then runeExtent cs
      else if c = '"' then stringExtent cs
      else if isNameStart c then nameExtent c cs
      else ⟨.fault (.unknownCharacter c), 0⟩

/-- The token that starts with `c` at an offset. -/
def read (offset : Nat) (c : Char) (cs : List Char) : Token :=
  let e := extent c cs
  let text := c :: cs.take e.length
  { kind := e.kind, span := ⟨offset, offset + byteLength text⟩, text }

/-- The tokens of a text that starts at an offset: up to the end of the text, or up to the first
fault, and then the end mark. -/
def scanFrom (offset : Nat) (cs : List Char) : List Token :=
  let gap := triviaLength cs
  let start := offset + byteLength (cs.take gap)
  match _h : cs.drop gap with
  | [] => [finishAt start]
  | c :: ds =>
    let t := read start c ds
    -- nothing behind a fault is read, however much of the text is left
    if t.kind.isFault then [t, finishAt t.span.stop]
    else t :: scanFrom t.span.stop (ds.drop (extent c ds).length)
termination_by cs.length
decreasing_by
  have := congrArg List.length _h
  simp only [List.length_drop, List.length_cons] at this ⊢
  omega

/-- The tokens of a text given by its characters. -/
def scanList (text : List Char) : List Token :=
  scanFrom 0 text

/-- The tokens of a text. -/
def scan (text : String) : List Token :=
  scanList text.toList

end FrontEnd.Token
