import PhaseLang.Grammar.Class
import PhaseLang.Grammar.Statement

/-!
# Declarations

Namespaces, imports, functions and classes, each with attributes in front where they are
allowed, and all statements. A namespace either has braces or takes the rest of the file;
imports stand in namespaces only, and namespaces do not stand in each other.
-/

namespace PhaseLang.Grammar

open PhaseLang.Parser

variable (r : Rules)

def setInNamespace (value : Bool) : Parser Unit := modify fun c => { c with inNamespace := value }

def namespaceDeclaration : Parser Stmt := do
  let keyword ← advance
  if (← get).inNamespace then failAt keyword .nestedNamespace
  let path ← typePath r false
  setInNamespace true
  let decls ←
    if ← take .leftBrace then
      newlines
      let decls ← itemsUntil (· == .rightBrace) r.declaration
      let _ ← expect .rightBrace "`\x7d` at the end of a namespace"
      setInNamespace false
      pure decls
    else
      endStatement
      itemsUntil (fun _ => false) r.declaration
  return ⟨← spanFrom keyword, .inNamespace path decls⟩

/-! ## Imports -/

def useTarget : Parser UseTarget := do
  let token ← advance
  match token.kind with
  | .typeIdentifier => return .type token.lexeme
  | .identifier => return .func token.lexeme
  | _ => failAt token (.expected "a type or function name")

/-- The segments of an import, and the names after the last of them. -/
def usePath : Parser (List String × UseKind) :=
  iterate
    (fun (segments : List String) => do
      let token ← peek
      match token.kind with
      | .typeIdentifier =>
        let _ ← advance
        let segments := segments ++ [token.lexeme]
        if ← take .colonColon then return .again segments else return .done (segments, .plain)
      | .identifier =>
        let _ ← advance
        return .done (segments, .group [.func token.lexeme])
      | .leftBrace =>
        if segments.isEmpty then failAt token (.expected "a package, type or function name")
        else
          let _ ← advance
          let targets ← separated useTarget
          newlines
          let _ ← expect .rightBrace "`\x7d` after imported names"
          return .done (segments, .group targets)
      | _ => failAt token (.expected "a package, type or function name"))
    []

/-- Gives an import another name. A single imported name becomes part of the path. -/
def useAlias (segments : List String) (kind : UseKind) : Parser (List String × UseKind) := do
  let target ← useTarget
  match kind with
  | .group [single] => return (segments ++ [single.name], .alias target)
  | .group _ => failAt (← previous) .groupAlias
  | _ => return (segments, .alias target)

def useDeclaration (attributes : List Expr) : Parser Stmt := do
  let keyword ← advance
  if !(← get).inNamespace then failAt keyword .useOutsideNamespace
  let absolute ← take .colonColon
  let (segments, kind) ← usePath
  let (segments, kind) ←
    if ← take .asKw then useAlias segments kind else pure (segments, kind)
  match segments.getLast? with
  | none => failAt keyword (.expected "a package name")
  | some name =>
    endStatement
    let path : TypePath := { ns := segments.dropLast, name, absolute }
    return ⟨← spanFrom keyword, .use path kind attributes⟩

/-! ## All declarations -/

def functionDeclaration (attributes : List Expr) : Parser Stmt := do
  let func ← function r false attributes
  return ⟨func.pos, .func func⟩

def declaration : Parser Stmt := do
  let attributes ← attributes r
  let token ← peek
  let next ← peekNext
  match token.kind with
  | .useKw => useDeclaration attributes
  | .classKw => advance *> classDeclaration r attributes
  | .interfaceKw => advance *> interfaceDeclaration r attributes
  | .traitKw => advance *> traitDeclaration r attributes
  | .enumKw => advance *> enumDeclaration r attributes
  | kind =>
    if kind == .functionKw && next.kind == .identifier then
      advance *> functionDeclaration r attributes
    else if !attributes.isEmpty then failAt token .misplacedAttributes
    else if kind == .namespaceKw then namespaceDeclaration r
    else statement r

end PhaseLang.Grammar
