import PhaseLang.Grammar.Expression
import PhaseLang.Grammar.Synthesis

/-!
# Classes, interfaces, traits and enums

All four become a `Class`. A constructor parameter written `this.name` gets a public field
of that name, unless one stands before it, and an assignment at the start of the body. An
enum over `String` or `Int` becomes a class of constants, any other enum a class of static
factories.
-/

namespace PhaseLang.Grammar

open PhaseLang.Parser

variable (r : Rules)

/-! ## Members -/

def traitUse (start : Token) : Parser Member := do
  let path ← typePath r false
  endStatement
  return { name := path.qualifiedName, kind := .use path, modifiers := [], attributes := [],
           pos := ← spanFrom start }

def constant (start : Token) : Parser Member := do
  let name ← expect .typeIdentifier "an uppercase constant name"
  let type ← annotation? r
  let _ ← consume .equal .uninitializedConstant
  newlines
  let init ← r.expression
  let pos ← spanFrom start
  endStatement
  return { name := name.lexeme, kind := .field type (some init), modifiers := [.isConst],
           attributes := [], pos }

def modifier? : TokenKind → Option Modifier
  | .staticKw => some .isStatic
  | .publicKw => some .isPublic
  | .privateKw => some .isPrivate
  | .abstractKw => some .isAbstract
  | _ => none

def writtenModifiers : Parser (List Modifier) :=
  iterate
    (fun (found : List Modifier) => do
      let token ← peek
      match modifier? token.kind with
      | none => return .done found
      | some m =>
        if found.contains m then failAt token (.repeatedModifier m)
        else
          let _ ← advance
          return .again (found ++ [m]))
    []

/-- Members are public unless they say otherwise. -/
def withVisibility (ms : List Modifier) : List Modifier :=
  if ms.contains .isPublic || ms.contains .isPrivate then ms else .isPublic :: ms

def setterParam (type : Option TypePath) (pos : Position) : Param :=
  { name := "value", type, default := none, promoted := false, pos }

def accessor (type : Option TypePath) (getter setter : Option Func) :
    Parser (Option Func × Option Func) := do
  let mode ← expect .identifier "`get` or `set`"
  let body : Parser Stmt := do
    let _ ← expect .leftBrace "`\x7b` before accessor body"
    functionBody r
  if mode.lexeme == "get" then
    if getter.isSome then failAt mode (.repeatedAccessor mode.lexeme)
    let body ← body
    let func : Func := { name := mode.lexeme, params := [], body := some body, result := type,
                         attributes := [], pos := ← spanFrom mode }
    return (some func, setter)
  else if mode.lexeme == "set" then
    if setter.isSome then failAt mode (.repeatedAccessor mode.lexeme)
    let body ← body
    let func : Func := { name := mode.lexeme, params := [setterParam type mode.pos],
                         body := some body, result := none, attributes := [],
                         pos := ← spanFrom mode }
    return (getter, some func)
  else failAt mode (.expected "`get` or `set`")

def property (type : Option TypePath) : Parser MemberKind := do
  newlines
  let (getter, setter) ← iterate
    (fun ((getter, setter) : Option Func × Option Func) => do
      if (← atKind .rightBrace) || (← atEnd) then return .done (getter, setter)
      else
        let found ← accessor r type getter setter
        newlines
        return .again found)
    (none, none)
  let _ ← expect .rightBrace "`\x7d` after property accessors"
  endStatement
  return .property type getter setter

def promotions (params : List Param) : Parser (List Stmt) := do
  let c ← get
  let names := (params.filter (·.promoted)).map (·.name)
  set { c with nextId := c.nextId + names.length * Synthesis.promotionIds }
  return names.mapIdx fun i name => Synthesis.promotion (c.nextId + i * Synthesis.promotionIds) name

def prepend (stmts : List Stmt) (body : Stmt) : Stmt :=
  match body.kind with
  | .block rest => ⟨body.pos, .block (stmts ++ rest)⟩
  | _ => ⟨body.pos, .block (stmts ++ [body])⟩

/-- A method after its opening parenthesis. Abstract methods have no body, and methods of an
interface may do without one. -/
def method (start : Token) (name : String) (isAbstract : Bool) (attributes : List Expr) :
    Parser Func := do
  let isConstructor := name == Class.constructorName
  let params ← params r isConstructor
  let result ← annotation? r
  let body ←
    if isAbstract || ((← get).inInterface && !(← atKind .leftBrace)) then
      endStatement
      pure none
    else
      let _ ← expect .leftBrace "`\x7b` before method body"
      pure (some (← functionBody r))
  let pos ← spanFrom start
  let body ← match body with
    | some body =>
      if isConstructor then pure (some (prepend (← promotions params) body))
      else pure (some body)
    | none => pure none
  return { name, params, body, result, attributes, pos }

/-- A field, property or method. -/
def valueMember (start : Token) : Parser Member := do
  let attributes ← attributes r
  let modifiers := withVisibility (← writtenModifiers)
  let isAbstract := modifiers.contains .isAbstract
  let name := (← expect .identifier "a field name").lexeme
  let type ← annotation? r
  let token ← peek
  let kind ← match token.kind with
    | .leftBrace => advance *> property r type
    | .equal => do
      let _ ← advance
      if isAbstract then failAt token .abstractAssignment
      newlines
      let init ← r.expression
      endStatement
      pure (.field type (some init))
    | .leftParen => do
      let _ ← advance
      pure (.method (← method r start name isAbstract attributes))
    | _ => do
      endStatement
      pure (.field type none)
  return { name, kind, modifiers, attributes, pos := ← spanFrom start }

def member : Parser Member := do
  let start ← peek
  if ← take .useKw then traitUse r start
  else if ← take .constKw then constant r start
  else valueMember r start

/-- The fields that a member's promoted parameters call for, beyond those there are. -/
def promotedFields (m : Member) (found : List Member) : List Member :=
  match m.kind with
  | .method func =>
    (func.params.filter (·.promoted)).foldl
      (fun fields p =>
        if (found ++ fields).any (·.name == p.name) then fields
        else
          fields ++ [{ name := p.name, kind := .field p.type none, modifiers := [.isPublic],
                       attributes := [], pos := p.pos }])
      []
  | _ => []

def withPromotedFields (ms : List Member) : List Member :=
  ms.foldl (fun found m => found ++ promotedFields m found ++ [m]) []

def classBody : Parser (List Member) := do
  newlines
  let members ← itemsUntil (· == .rightBrace) (member r)
  let _ ← expect .rightBrace "`\x7d` at the end of a class body"
  return withPromotedFields members

/-! ## Declarations, after their keyword -/

def finishClass (keyword : Token) (cls : Position → Class) : Parser Stmt := do
  let pos ← spanFrom keyword
  return ⟨pos, .cls (cls pos)⟩

def heritage : Parser (Option TypePath × List TypePath) :=
  iterate
    (fun ((parent, interfaces) : Option TypePath × List TypePath) => do
      newlines
      if ← take .extendsKw then
        if parent.isSome then failAt (← previous) .repeatedExtends
        return .again (some (← typePath r false), interfaces)
      else if ← take .implementsKw then
        return .again (parent, interfaces ++ (← separated (typePath r false)))
      else return .done (parent, interfaces))
    (none, [])

def classDeclaration (attributes : List Expr) : Parser Stmt := do
  let keyword ← previous
  let name ← expect .typeIdentifier "a class name"
  let (parent, interfaces) ← heritage r
  let _ ← expect .leftBrace "`\x7b` before class body"
  let members ← classBody r
  finishClass keyword fun pos =>
    { name := name.lexeme, kind := .plain, parent, interfaces, members, attributes, pos }

def asAbstract (m : Member) : Member :=
  if m.has .isAbstract then m else { m with modifiers := m.modifiers ++ [.isAbstract] }

def setInInterface (value : Bool) : Parser Unit := modify fun c => { c with inInterface := value }

def interfaceDeclaration (attributes : List Expr) : Parser Stmt := do
  let keyword ← previous
  let name ← expect .typeIdentifier "an interface name"
  newlines
  let interfaces ← after? .extendsKw do
    let interfaces ← separated (typePath r false)
    newlines
    return interfaces
  if ← atKind .implementsKw then fail .interfaceImplements
  let _ ← expect .leftBrace "`\x7b` before interface body"
  setInInterface true
  let members ← classBody r
  setInInterface false
  finishClass keyword fun pos =>
    { name := name.lexeme, kind := .interface, parent := none, interfaces := interfaces.getD [],
      members := members.map asAbstract, attributes, pos }

def traitDeclaration (attributes : List Expr) : Parser Stmt := do
  let keyword ← previous
  let name ← expect .typeIdentifier "a trait name"
  newlines
  let _ ← expect .leftBrace "`\x7b` before trait body"
  let members ← classBody r
  finishClass keyword fun pos =>
    { name := name.lexeme, kind := .trait, parent := none, interfaces := [], members, attributes,
      pos }

/-! ## Enums -/

/-- Cases up to and including the closing brace; each learns its place in the row. -/
def enumCases (case : Nat → Parser Member) : Parser (List Member) := do
  newlines
  let members ← iterate
    (fun (members : List Member) => do
      if (← atKind .rightBrace) || (← atEnd) then return .done members
      else return .again (members ++ [← case members.length]))
    []
  let _ ← expect .rightBrace "`\x7d` at the end of an enum body"
  return members

def caseName : Parser Token := expect .typeIdentifier "an uppercase case name"

/-- A constant case. Without a value it stands for its name or its place. -/
def valueCase (overString : Bool) (index : Nat) : Parser Member := do
  let name ← caseName
  let value ←
    if ← take .equal then
      newlines
      r.expression
    else
      let literal := if overString then .string name.lexeme else .number (toString index)
      node (.literal literal) name.pos
  endStatement
  return { name := name.lexeme, kind := .field none (some value), modifiers := [.isConst],
           attributes := [], pos := ← spanFrom name }

def factoryCase (enumName : String) (index : Nat) : Parser Member := do
  let name ← caseName
  let params := (← after? .leftParen (params r false)).getD []
  let names := params.map (·.name)
  let c ← get
  set { c with nextId := c.nextId + Synthesis.factoryIds names }
  let body := Synthesis.factory c.nextId enumName name.lexeme index names
  endStatement
  let pos ← spanFrom name
  let func : Func := { name := name.lexeme, params, body := some body,
                       result := some (.ofName enumName), attributes := [], pos }
  return { name := name.lexeme, kind := .method func, modifiers := [.isPublic, .isStatic],
           attributes := [], pos }

def enumBase : TypePath := .ofQualified "Std::PhaseEnum"

def enumDeclaration (attributes : List Expr) : Parser Stmt := do
  let keyword ← previous
  let name := (← expect .typeIdentifier "an enum name").lexeme
  let wrapped ← after? .asKw do
    let wrapped ← expect .typeIdentifier "a wrapped type name"
    if wrapped.lexeme == "String" || wrapped.lexeme == "Int" then return wrapped.lexeme
    else failAt wrapped .wrappedType
  newlines
  let _ ← expect .leftBrace "`\x7b` before enum body"
  let members ← match wrapped with
    | some wrapped => enumCases (valueCase r (wrapped == "String"))
    | none => enumCases (factoryCase r name)
  finishClass keyword fun pos =>
    { name, kind := .plain, parent := if wrapped.isSome then none else some enumBase,
      interfaces := [], members, attributes, pos }

end PhaseLang.Grammar
