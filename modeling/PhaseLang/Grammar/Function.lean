import PhaseLang.Grammar.Rules

/-!
# Functions and lambdas

Parameter lists, bodies and the two forms of lambda. A body that starts on the line of its
brace with an expression is an inline body: it returns that expression and holds nothing
else.
-/

namespace PhaseLang.Grammar

open PhaseLang.Parser

variable (r : Rules)

def param (allowPromotion : Bool) : Parser Param := do
  let start ← peek
  let promoted ← if allowPromotion then take .thisKw else pure false
  if promoted then
    let _ ← expect .dot "`.` after `this`"
  let name ← expect .identifier "a parameter name"
  let type ← annotation? r
  let default ← after? .equal r.expression
  return { name := name.lexeme, type, default, promoted, pos := ← spanFrom start }

def params (allowPromotion : Bool) : Parser (List Param) :=
  parenthesized (param r allowPromotion) "`)` after parameters"

def block : Parser Stmt := do
  let opening ← previous
  newlines
  let stmts ← itemsUntil (· == .rightBrace) r.declaration
  let _ ← expect .rightBrace "`\x7d` at the end of a block"
  return ⟨← spanFrom opening, .block stmts⟩

/-- Kinds that start a statement which is no expression. -/
def startsStatement : TokenKind → Bool
  | .varKw | .globalKw | .whileKw | .doKw | .forKw | .switchKw | .throwKw | .tryKw => true
  | _ => false

def atInlineBody : Parser Bool := do
  match (← peek).kind with
  | .newline | .returnKw | .rightBrace => return false
  | kind => return !startsStatement kind

def inlineBody (opening : Token) (problem : SyntaxProblem) : Parser Stmt := do
  let e ← r.expression
  newlines
  let _ ← consume .rightBrace problem
  return ⟨← spanFrom opening, .block [⟨e.pos, .ret (some e)⟩]⟩

def functionBody : Parser Stmt := do
  let opening ← previous
  if ← take .rightBrace then return ⟨← spanFrom opening, .block []⟩
  else if ← atInlineBody then inlineBody r opening .functionNotInline
  else block r

def function (anonymous : Bool) (attributes : List Expr) : Parser Func := do
  let keyword ← previous
  let name ←
    if !anonymous || (← atKind .identifier) then
      pure (← expect .identifier "a function name").lexeme
    else pure ""
  let _ ← expect .leftParen "`(` after function name"
  let params ← params r false
  let result ← annotation? r
  let _ ← expect .leftBrace "`\x7b` before function body"
  let body ← functionBody r
  return { name, params, body := some body, result, attributes, pos := ← spanFrom keyword }

def bareParam (name : String) (pos : Position) : Param :=
  { name, type := none, default := none, promoted := false, pos }

def lambdaParams? : Parser (Option (List Param)) :=
  after? .bar do
    let params ←
      if ← atKind .bar then pure []
      else separated do
        let name ← expect .identifier "a parameter name"
        return bareParam name.lexeme name.pos
    let _ ← expect .bar "`|` after lambda parameters"
    return params

/-- `|a, b| ...` after the opening brace, up to and including the closing one. Without bars
the lambda has the one parameter `it`. -/
def shortLambda : Parser Expr := do
  let opening ← previous
  let sameLine := !(← atKind .newline)
  newlines
  let (params, inline) ← match ← lambdaParams? with
    | some params => pure (params, !(← atKind .newline))
    | none => pure ([bareParam "it" opening.pos], sameLine)
  let body ←
    if inline && (← atInlineBody) then inlineBody r opening .lambdaNotInline
    else
      -- The block spans from its brace, or from the bar that closes the parameters.
      block r
  let pos ← spanFrom opening
  node
    (.lambda { name := "", params, body := some body, result := none, attributes := [], pos }) pos

end PhaseLang.Grammar
