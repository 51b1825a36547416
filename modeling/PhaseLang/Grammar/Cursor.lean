import PhaseLang.Diagnostic
import PhaseLang.Token
import PhaseLang.Tree

/-!
# Reading tokens

A `Parser` reads tokens from a `Cursor` and stops at the first violation of the grammar.
The cursor holds what is left to read, the token read last, the two things that the
grammar depends on besides the tokens (whether we are in a namespace, and whether a method
may come without a body), and the next unused expression id.

`iterate` is the one loop of the grammar. Every round but the last reads a token, so the
number of tokens left bounds the rounds.
-/

namespace PhaseLang

inductive SyntaxProblem where
  | expected (what : String)
  | unexpected (lexeme : String)
  | unexpectedEnd
  | unexpectedNewline
  | misplacedAttributes
  | nestedNamespace
  | useOutsideNamespace
  | groupAlias
  | repeatedExtends
  | interfaceImplements
  | wrappedType
  | repeatedModifier (modifier : Modifier)
  | repeatedAccessor (name : String)
  | abstractAssignment
  | uninitializedConstant
  | functionNotInline
  | lambdaNotInline
  | assignmentTarget
  | pipeTarget
  | nullableType
  | brokenInterpolation
  | statementCount (found : Nat)
  /-- A loop or a rule has used up its bound. The bounds are such that no row of tokens leads
  to this. -/
  | stalled
deriving DecidableEq, Repr

namespace SyntaxProblem

def message : SyntaxProblem → String
  | expected what => s!"Expected {what}"
  | unexpected lexeme => s!"Unexpected `{lexeme}`"
  | unexpectedEnd => "Unexpected end of file"
  | unexpectedNewline => "Unexpected newline"
  | misplacedAttributes => "Attributes are only allowed on declarations"
  | nestedNamespace => "Namespaces cannot be nested"
  | useOutsideNamespace => "`use` is only allowed inside a namespace"
  | groupAlias => "Cannot alias a group of imports"
  | repeatedExtends => "Can only extend once"
  | interfaceImplements => "Interfaces can only extend other interfaces"
  | wrappedType => "Enums can only wrap `String` or `Int`"
  | repeatedModifier m => s!"Only one `{m.text}` declaration is allowed per field"
  | repeatedAccessor name => s!"`{name}` already defined"
  | abstractAssignment => "No assignment allowed on abstract fields"
  | uninitializedConstant => "Constants must be initialized"
  | functionNotInline => "Inline functions must contain only one expression"
  | lambdaNotInline => "Inline lambdas must contain only one expression"
  | assignmentTarget => "Invalid assignment target"
  | pipeTarget => "Expected a function/method call or a lambda"
  | nullableType => "Nullable types are not allowed here"
  | brokenInterpolation => "Unexpected end of interpolated string"
  | statementCount found => s!"Expected a single statement, found {found}"
  | stalled => "The grammar does not move on"

end SyntaxProblem

structure SyntaxError where
  pos : Position
  problem : SyntaxProblem
deriving DecidableEq, Repr

namespace SyntaxError

def diagnostic (e : SyntaxError) : Diagnostic := ⟨e.pos, e.problem.message⟩

def text (e : SyntaxError) : String := s!"syntax error at {e.pos.text}: {e.problem.message}"

end SyntaxError

/-! ## Cursors -/

structure Cursor where
  /-- The token read last; at the start, the first one. -/
  previous : Token
  /-- The tokens left to read, without the closing `eof`. -/
  rest : List Token
  eof : Token
  inNamespace : Bool := false
  inInterface : Bool := false
  nextId : Nat

namespace Cursor

def ofTokens? (tokens : List Token) (nextId : Nat) : Option Cursor :=
  match tokens.getLast? with
  | none => none
  | some last =>
    some
      { previous := tokens.headD last
        rest := tokens.takeWhile (·.kind ≠ .eof)
        eof := (tokens.find? (·.kind = .eof)).getD last
        nextId }

def peek (c : Cursor) : Token := c.rest.headD c.eof

def peekNext (c : Cursor) : Token := (c.rest.drop 1).headD c.eof

def advance (c : Cursor) : Cursor :=
  match c.rest with
  | [] => c
  | t :: ts => { c with previous := t, rest := ts }

def skipNewlines (c : Cursor) : Cursor :=
  go c.previous c.rest
where
  go (previous : Token) : List Token → Cursor
    | [] => { c with previous, rest := [] }
    | t :: ts => if t.kind = .newline then go t ts else { c with previous, rest := t :: ts }

end Cursor

/-! ## Parsers -/

abbrev Parser := StateT Cursor (Except SyntaxError)

namespace Parser

variable {α σ : Type}

def peek : Parser Token := return (← get).peek

def peekNext : Parser Token := return (← get).peekNext

def previous : Parser Token := return (← get).previous

def failAt (token : Token) (problem : SyntaxProblem) : Parser α :=
  throw ⟨token.pos, problem⟩

def fail (problem : SyntaxProblem) : Parser α := do failAt (← peek) problem

def advance : Parser Token := do
  let token ← peek
  modify (·.advance)
  return token

def atKind (kind : TokenKind) : Parser Bool := return (← peek).kind == kind

def atEnd : Parser Bool := atKind .eof

def take (kind : TokenKind) : Parser Bool := do
  if ← atKind kind then
    let _ ← advance
    return true
  else return false

def consume (kind : TokenKind) (problem : SyntaxProblem) : Parser Token := do
  if ← atKind kind then advance else fail problem

/-- `consume`, for what the message names as expected. -/
def expect (kind : TokenKind) (what : String) : Parser Token := consume kind (.expected what)

def newlines : Parser Unit := modify (·.skipNewlines)

/-- `take` behind any number of line breaks, which are read only with the token. -/
def takeOnNextLine (kind : TokenKind) : Parser Bool := do
  let ahead := (← get).skipNewlines
  if ahead.peek.kind == kind then
    set ahead.advance
    return true
  else return false

/-- Reads line breaks if the line after them continues the expression. -/
def continueLine : Parser Unit := do
  let ahead := (← get).skipNewlines
  if ahead.peek.kind.isContinuation then set ahead

/-- The end of a statement: a line break or `;` is read, a closing brace or the end of the
file is left. -/
def endStatement : Parser Unit := do
  match (← peek).kind with
  | .rightBrace | .eof => return ()
  | .newline | .semicolon =>
    let _ ← advance
    newlines
  | _ => fail (.expected "a newline or `;` after statement")

/-- From the start of a token to the end of the token read last. -/
def spanFrom (start : Token) : Parser Position := return start.pos.merge (← previous).pos

def node (kind : ExprKind) (pos : Position) : Parser Expr := do
  let c ← get
  set { c with nextId := c.nextId + 1 }
  return ⟨c.nextId, pos, kind⟩

/-! ## Loops -/

inductive Round (σ α : Type) where
  | again (state : σ)
  | done (result : α)

/-- A loop of at most the given number of rounds. -/
def iterateFor (round : σ → Parser (Round σ α)) : Nat → σ → Parser α
  | 0, _ => fail .stalled
  | rounds + 1, state => do
    match ← round state with
    | .again state => iterateFor round rounds state
    | .done result => return result

def iterate (round : σ → Parser (Round σ α)) (state : σ) : Parser α := do
  iterateFor round ((← get).rest.length + 1) state

/-- Items up to a token at which to stop, or the end; line breaks after items are read. -/
def itemsUntil (stop : TokenKind → Bool) (item : Parser α) : Parser (List α) :=
  iterate
    (fun (items : List α) => do
      let kind := (← peek).kind
      if stop kind || kind == .eof then return .done items.reverse
      else
        let x ← item
        newlines
        return .again (x :: items))
    []

/-- One or more items with commas between them, and line breaks anywhere. -/
def separated (item : Parser α) : Parser (List α) :=
  iterate
    (fun (items : List α) => do
      newlines
      let x ← item
      newlines
      if ← take .comma then return .again (x :: items)
      else return .done (x :: items).reverse)
    []

/-- Items with commas between them, up to and including a closing parenthesis. A comma may
come last. -/
def parenthesized (item : Parser α) (what : String) : Parser (List α) := do
  newlines
  let items ← iterate
    (fun (items : List α) => do
      if ← atKind .rightParen then return .done items.reverse
      else
        let x ← item
        newlines
        if ← take .comma then
          newlines
          return .again (x :: items)
        else return .done (x :: items).reverse)
    []
  let _ ← expect .rightParen what
  return items

def after? (kind : TokenKind) (p : Parser α) : Parser (Option α) := do
  if ← take kind then return some (← p) else return none

end Parser

end PhaseLang
