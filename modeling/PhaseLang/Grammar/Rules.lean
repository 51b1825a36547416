import PhaseLang.Grammar.Cursor

/-!
# The recursive rules

The rules of the grammar call each other. `Rules` holds the five of them through which all
recursion goes; every other rule is an ordinary definition that takes them as an argument,
and calls them only after it has read a token. The first of those are the rules for type paths,
`?::A::B<C, D>`: a mark for nullable types, a mark for absolute paths, segments, and type
parameters.
-/

namespace PhaseLang

structure Rules where
  /-- A type path; the flag says whether it may be nullable. -/
  typePath : Bool → Parser TypePath
  expression : Parser Expr
  /-- An expression without infix operators. -/
  unary : Parser Expr
  statement : Parser Stmt
  declaration : Parser Stmt

namespace Rules

def exhausted : Rules where
  typePath _ := Parser.fail .stalled
  expression := Parser.fail .stalled
  unary := Parser.fail .stalled
  statement := Parser.fail .stalled
  declaration := Parser.fail .stalled

end Rules

namespace Grammar

open PhaseLang.Parser

def path : Parser TypePath := do
  let absolute ← take .colonColon
  let segments ← iterate
    (fun (segments : List String) => do
      let segment ← expect .typeIdentifier "a type name"
      let segments := segments ++ [segment.lexeme]
      if (← atKind .colonColon) && (← peekNext).kind == .typeIdentifier then
        let _ ← advance
        return .again segments
      else return .done segments)
    []
  return { ns := segments.dropLast, name := segments.getLastD "", absolute }

variable (r : Rules)

def typePath (allowNullable : Bool) : Parser TypePath := do
  let nullable ← take .question
  if nullable && !allowNullable then failAt (← previous) .nullableType
  let path ← path
  let params ← after? .less do
    let params ← separated (r.typePath true)
    let _ ← expect .greater "`>` after type parameters"
    return params
  return { path with nullable, params := params.getD [] }

/-- A type after a colon, if there is a colon. -/
def annotation? : Parser (Option TypePath) := after? .colon (typePath r true)

end Grammar

end PhaseLang
