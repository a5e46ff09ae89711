import FrontEnd.Diagnostic.Basic
import FrontEnd.Expr.Parser
import FrontEnd.Program.Basic
import FrontEnd.Token.Scan

/-!
# Reading files into a program

A file is a sequence of definitions. Reading it changes the program as it goes: parameters, local
variables and definitions get their symbols, each as soon as it has been read, and a definition that
has been read to its end binds its name and joins the program.

Two things are wrong with a definition without making the text unreadable: its name is taken, or a
tag comes twice. They are reported, the definition is dropped, and reading goes on; a dropped
definition still binds its name if that was free. Everything else ends the file. What was read
before stays, and so do the symbols of what was cut short.
-/

namespace FrontEnd

/-- A program while a file is being read into it. -/
structure Draft where
  /-- The file. -/
  source : SourceFile
  /-- The place reached in it. -/
  cursor : Cursor
  /-- The program so far. -/
  program : Program
  /-- What has been reported so far. -/
  diagnostics : List Diagnostic

namespace Draft

/-- The number of the file. -/
def file (d : Draft) : Nat :=
  d.program.files.length

/-- Reports something wrong at a place in the file. -/
def report (d : Draft) (category : Category) (message : String) (span : Span) : Draft :=
  { d with
    diagnostics :=
      d.diagnostics ++ [Diagnostic.ofFile d.program.name d.source category message span] }

/-- Adds a symbol to the program. -/
def addSymbol (d : Draft) (s : Symbol) : Draft :=
  { d with program := { d.program with symbols := d.program.symbols ++ [s] } }

/-- Adds a definition to the program. -/
def addDefinition (d : Draft) (x : Definition) : Draft :=
  { d with program := { d.program with definitions := d.program.definitions ++ [x] } }

/-- Binds a global name. -/
def bind (d : Draft) (name : String) (symbol : Nat) : Draft :=
  { d with program := { d.program with globals := (name, symbol) :: d.program.globals } }

end Draft

/-- A parser of `α` that changes a program as it reads. What it changed stays also if it fails. -/
def Build (α : Type) : Type :=
  Draft → Except ParseError α × Draft

namespace Build

instance : Monad Build where
  pure a := fun d ↦ (.ok a, d)
  bind p f := fun d ↦
    match p d with
    | (.ok a, d') => f a d'
    | (.error e, d') => (.error e, d')

instance : MonadLift Parse Build where
  monadLift p := fun d ↦
    match p d.cursor with
    | .ok (a, c) => (.ok a, { d with cursor := c })
    | .error e => (.error e, d)

open Parse

/-- Fails because of the next token. -/
def stop {α : Type} : Build α :=
  fun d ↦ (.error d.cursor.unexpected, d)

/-! ### Symbols -/

/-- Gives a new symbol to the name that a token spells. -/
def newSymbol (name : Token) (kind : SymbolKind) (type? : Option Ty) (isMutable : Bool) :
    Build Nat :=
  fun d ↦
    (.ok d.program.symbols.length,
      d.addSymbol { name := name.word, file := d.file, span := name.span, kind, type?, isMutable })

/-- Gives a new symbol of one type to each of several names. -/
def newParams (a : Ty) : List Token → Build (List (Nat × Ty))
  | [] => return []
  | name :: names => do
    let symbol ← newSymbol name .value (some a) true
    let more ← newParams a names
    return (symbol, a) :: more

/-- Binds the global name of a symbol and tells whether it was free; if not, that is reported. -/
def bindGlobal (symbol : Nat) : Build Bool :=
  fun d ↦
    match d.program.symbols[symbol]? with
    | none => (.ok false, d)
    | some s =>
      match d.program.globals.find? s.name with
      | none => (.ok true, d.bind s.name symbol)
      | some _ =>
        (.ok false,
          d.report .name ("multiple symbols with name '" ++ s.name ++ "' defined in same scope")
            s.span)

/-! ### Tags -/

/-- Reads one tag. -/
def tag : Parse Tag := do
  let name ← expect .ident
  if ← eat (.sign .leftParen) then
    let value ← expect .string
    let _ ← expect (.sign .rightParen)
    let text := String.ofList (Literal.string value.text)
    return { name := name.word, nameSpan := name.span, value? := some ⟨text, value.span⟩ }
  else return { name := name.word, nameSpan := name.span, value? := none }

/-- Adds a tag to others and tells whether its name was free; if not, that is reported. -/
def addTag (m : Metadata) (t : Tag) : Build (Metadata × Bool) :=
  fun d ↦
    match m.insert? t with
    | some m' => (.ok (m', true), d)
    | none =>
      (.ok (m, false), d.report .metadata "multiple meta tags with same name" t.nameSpan)

/-- Reads tags up to the bracket that closes them, and tells whether all names were different. -/
def tagsTo : Nat → Metadata → Bool → Build (Metadata × Bool)
  | 0, _, _ => stop
  | n + 1, m, unique => do
    let t ← tag
    let (m, new) ← addTag m t
    if ← eat (.sign .comma) then tagsTo n m (unique && new)
    else
      let _ ← expect (.sign .rightBracket)
      return (m, unique && new)

/-- The number of tokens that are left. -/
def tokensLeft : Parse Nat :=
  fun c ↦ .ok (c.rest.length, c)

/-- Reads the tags of a definition, if it has any, and tells whether all names were different. -/
def metadata : Build (Metadata × Bool) := do
  if ← eat (.sign .at) then
    if ← eat (.sign .leftBracket) then tagsTo (← tokensLeft) .empty true
    else
      let t ← tag
      addTag .empty t
  else return (.empty, true)

/-! ### Variables and statements -/

/-- Reads a variable up to its initial value. A variable without a type label has to have one. -/
def letVariable : Build Variable := do
  let start ← expect (.keyword .let)
  let name ← expect .ident
  let type? ← (do if ← eat (.sign .colon) then return some (← Ty.label) else return none : Parse _)
  let init? ← (do
    if type?.isSome && !(← at? (.sign .equal)) then return none
    else
      let _ ← expect (.sign .equal)
      return some (← Expr.parse) : Parse _)
  let symbol ← newSymbol name .value type? true
  let span ← spanFrom start.span
  return { span, symbol, init? }

/-- Reads a statement. -/
def stmt : Build Stmt := do
  if ← at? (.keyword .let) then
    let v ← letVariable
    let _ ← expect (.sign .semicolon)
    return .letVar v
  else
    let e ← Expr.parse
    let _ ← expect (.sign .semicolon)
    return .expr e

/-- Reads statements up to the brace that closes them. -/
def stmtsTo : Nat → Build (List Stmt)
  | 0 => stop
  | n + 1 => do
    if ← eat (.sign .rightBrace) then return []
    else
      let s ← stmt
      let more ← stmtsTo n
      return s :: more

/-- Reads a block. -/
def block : Build Block := do
  let start ← expect (.sign .leftBrace)
  let stmts ← stmtsTo (← tokensLeft)
  let span ← spanFrom start.span
  return { span, stmts }

/-! ### Definitions -/

/-- Reads names with commas between them. -/
def namesTo : Nat → Parse (List Token)
  | 0 => failHere
  | n + 1 => do
    let name ← expect .ident
    if ← eat (.sign .comma) then return name :: (← namesTo n)
    else return [name]

/-- Reads parameters: groups of names, each with a type label for all of its names. -/
def paramsTo : Nat → Build (List (Nat × Ty))
  | 0 => stop
  | n + 1 => do
    let names ← namesTo (← tokensLeft)
    let _ ← expect (.sign .colon)
    let a ← Ty.label
    let params ← newParams a names
    if ← eat (.sign .comma) then return params ++ (← paramsTo n)
    else return params

/-- Reads a function. Its result is the unit type unless there is a type label. -/
def function (metadata : Metadata) : Build Definition := do
  let start ← expect (.keyword .func)
  let name ← expect .ident
  let _ ← expect (.sign .leftParen)
  let params ← if ← at? (.sign .rightParen) then pure [] else paramsTo (← tokensLeft)
  let _ ← expect (.sign .rightParen)
  let noLabel := (← at? (.sign .semicolon)) || (← at? (.sign .leftBrace))
  let result ← if noLabel then pure .unit else (Ty.label : Build Ty)
  let body? ←
    if ← eat (.sign .semicolon) then pure none
    else if ← at? (.sign .leftBrace) then some <$> block
    else stop
  -- the symbol of a function comes after those of its parameters and local variables
  let type := Ty.func (params.map (·.2)) result
  let symbol ← newSymbol name .function (some type) false
  let span ← spanFrom start.span
  fun d ↦
    (.ok { file := d.file, span, metadata
           content := .function symbol (params.map (·.1)) result body? }, d)

/-- Reads a global variable. -/
def global (metadata : Metadata) : Build Definition := do
  let v ← letVariable
  let _ ← expect (.sign .semicolon)
  fun d ↦ (.ok { file := d.file, span := v.span, metadata, content := .global v }, d)

/-- Adds a definition to the program, unless its name is taken or its tags are not unique. -/
def addDefinition (x : Definition) (uniqueTags : Bool) : Build Unit := do
  let free ← bindGlobal x.symbol
  -- the name has been bound by now, also if the tags make the definition one to drop
  if free && uniqueTags then fun d ↦ (.ok (), d.addDefinition x) else return ()

/-- Reads a definition and adds it to the program. -/
def definition : Build Unit := do
  let (m, unique) ← metadata
  let t ← peek
  match t.kind with
  | .keyword .func =>
    let x ← function m
    addDefinition x unique
  | .keyword .let =>
    let x ← global m
    addDefinition x unique
  | _ => stop

/-- Reads definitions up to the end of the file. -/
def definitionsTo : Nat → Build Unit
  | 0 => stop
  | n + 1 => do
    if ← at? .finish then return ()
    else
      definition
      definitionsTo n

end Build

/-- What reading a file gives. -/
structure Parsed where
  /-- The program with what was read. -/
  program : Program
  /-- What was reported, in order. -/
  diagnostics : List Diagnostic
  /-- What ended the file early. -/
  error? : Option ParseError

/-- The category of a failure to read a text. -/
def ParseError.category (e : ParseError) : Category :=
  if e.isLexical then .lexical else .grammar

namespace Program

/-- The draft with which reading a file starts. -/
def draft (p : Program) (source : SourceFile) : Draft :=
  { source, cursor := .start (Token.scan source.text), program := p, diagnostics := [] }

/-- Reads a file into a program. The file belongs to the program also if it cannot be read to its
end. -/
def parseFile (p : Program) (source : SourceFile) : Parsed :=
  let start := p.draft source
  let (result, d) := Build.definitionsTo start.cursor.rest.length start
  let program := { d.program with files := d.program.files ++ [source] }
  match result with
  | .ok () => { program, diagnostics := d.diagnostics, error? := none }
  | .error e =>
    { program
      diagnostics := (d.report e.category e.message e.span).diagnostics
      error? := some e }

end Program

end FrontEnd
