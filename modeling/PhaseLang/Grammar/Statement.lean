import PhaseLang.Grammar.Expression

/-!
# Statements

Variables, branches, loops, handlers and expression statements. The rules for keywords
start after the keyword.
-/

namespace PhaseLang.Grammar

open PhaseLang.Parser

variable (r : Rules)

def variableDeclaration : Parser Stmt := do
  let keyword ← previous
  let name ← expect .identifier "a variable name"
  let type ← annotation? r
  let init ← after? .equal do
    newlines
    r.expression
  let pos ← spanFrom keyword
  endStatement
  return ⟨pos, .var name.lexeme type init⟩

def globalDeclaration : Parser Stmt := do
  let keyword ← previous
  let name ← expect .identifier "a variable name"
  endStatement
  return ⟨keyword.pos.merge name.pos, .global name.lexeme⟩

def ifStatement : Parser Stmt := do
  let keyword ← previous
  let cond ← condition r "if"
  let yes ← r.statement
  let no ←
    if ← takeOnNextLine .elseKw then
      newlines
      pure (some (← r.statement).toBlock)
    else pure none
  return ⟨← spanFrom keyword, .branch cond yes.toBlock no⟩

def returnStatement : Parser Stmt := do
  let keyword ← previous
  let value ← match (← peek).kind with
    | .semicolon | .newline | .rightBrace | .eof => pure none
    | _ => pure (some (← r.expression))
  let pos ← spanFrom keyword
  endStatement
  return ⟨pos, .ret value⟩

def throwStatement : Parser Stmt := do
  let keyword ← previous
  let value ← r.expression
  let pos ← spanFrom keyword
  endStatement
  return ⟨pos, .raise value⟩

def whileStatement : Parser Stmt := do
  let keyword ← previous
  let cond ← condition r "while"
  let body ← r.statement
  return ⟨← spanFrom keyword, .loop cond body false⟩

def doStatement : Parser Stmt := do
  let keyword ← previous
  newlines
  let body ← r.statement
  if ← takeOnNextLine .whileKw then
    let _ ← expect .leftParen "`(` after `while`"
    let cond ← r.expression
    let _ ← expect .rightParen "`)` after `while` condition"
    let pos ← spanFrom keyword
    endStatement
    return ⟨pos, .loop cond body true⟩
  else fail (.expected "`while` after a `do` body")

def forStatement : Parser Stmt := do
  let keyword ← previous
  let _ ← expect .leftParen "`(` after `for`"
  let key ← expect .identifier "a loop variable"
  let value ← after? .colon do
    return (← expect .identifier "a loop variable after `:`").lexeme
  let _ ← expect .inKw "`in` after loop variables"
  let target ← r.expression
  let _ ← expect .rightParen "`)` after loop target"
  newlines
  let body ← r.statement
  return ⟨← spanFrom keyword, .forIn key.lexeme value target body⟩

/-- The label of a switch case before its colon, if there is one: a condition, or none for
the default. -/
def caseLabel? : Parser (Option (Option Expr)) := do
  if ← take .caseKw then
    newlines
    return some (some (← r.expression))
  else if ← take .defaultKw then return some none
  else return none

def endsCase : TokenKind → Bool
  | .caseKw | .defaultKw | .rightBrace => true
  | _ => false

def switchStatement : Parser Stmt := do
  let keyword ← previous
  let target ← condition r "switch"
  let _ ← expect .leftBrace "`\x7b` before switch cases"
  newlines
  let cases ← iterate
    (fun (cases : List Case) => do
      match ← caseLabel? r with
      | none => return .done cases
      | some condition =>
        let _ ← expect .colon "`:` after case condition"
        newlines
        let body ← itemsUntil endsCase r.statement
        return .again (cases ++ [⟨condition, body⟩]))
    []
  let _ ← expect .rightBrace "`\x7d` at the end of a switch"
  return ⟨← spanFrom keyword, .switch target cases⟩

def handler : Parser Stmt := do
  let keyword ← previous
  let _ ← expect .leftParen "`(` after `catch`"
  let name ← expect .identifier "a name for the caught value"
  let type ← after? .colon (typePath r false)
  let _ ← expect .rightParen "`)` after caught value"
  newlines
  let _ ← expect .leftBrace "`\x7b` before catch body"
  let body ← block r
  return ⟨← spanFrom keyword, .handler name.lexeme type body⟩

def tryStatement : Parser Stmt := do
  let keyword ← previous
  newlines
  let _ ← expect .leftBrace "`\x7b` after `try`"
  let body ← block r
  let handlers ← iterate
    (fun (handlers : List Stmt) => do
      if ← takeOnNextLine .catchKw then return .again (handlers ++ [← handler r])
      else return .done handlers)
    []
  return ⟨← spanFrom keyword, .attempt body handlers⟩

def expressionStatement : Parser Stmt := do
  let e ← expression r
  endStatement
  return ⟨e.pos, .expr e⟩

def statement : Parser Stmt := do
  match (← peek).kind with
  | .varKw => advance *> variableDeclaration r
  | .globalKw => advance *> globalDeclaration
  | .ifKw => advance *> ifStatement r
  | .returnKw => advance *> returnStatement r
  | .whileKw => advance *> whileStatement r
  | .doKw => advance *> doStatement r
  | .forKw => advance *> forStatement r
  | .switchKw => advance *> switchStatement r
  | .throwKw => advance *> throwStatement r
  | .tryKw => advance *> tryStatement r
  | .leftBrace => advance *> block r
  | _ => expressionStatement r

end PhaseLang.Grammar
