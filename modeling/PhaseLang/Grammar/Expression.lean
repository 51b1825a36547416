import PhaseLang.Grammar.Function

/-!
# Expressions

From the loosest binding to the tightest: assignment, `||`, `&&`, equality, comparison and
`is`, addition, multiplication, range, pipe, prefix and postfix operators, calls and member
access, primary expressions. Operators of one level associate to the left.

A line break may follow an operator. It may stand before one only where the line after it
starts with a token that continues an expression.
-/

namespace PhaseLang.Grammar

open PhaseLang.Parser

variable (r : Rules)

/-! ## Calls -/

def argument : Parser Arg := do
  if (← atKind .identifier) && (← peekNext).kind == .colon then
    let name ← advance
    let _ ← advance
    newlines
    return ⟨some name.lexeme, ← r.expression⟩
  else return ⟨none, ← r.expression⟩

def arguments : Parser (List Arg) := parenthesized (argument r) "`)` after arguments"

/-- A call after its opening parenthesis. A lambda right after it is the last argument. -/
def finishCall (callee : Expr) : Parser Expr := do
  let args ← arguments r
  let trailing ← after? .leftBrace (shortLambda r)
  let args := args ++ trailing.toList.map (⟨none, ·⟩)
  node (.call callee args) (callee.pos.merge (← previous).pos)

def fieldName : Parser Expr := do
  let token ← advance
  match token.kind with
  | .identifier | .typeIdentifier | .classKw => node (.ident token.lexeme) token.pos
  | .leftBrace =>
    newlines
    let name ← r.expression
    newlines
    let close ← expect .rightBrace "`\x7d` after dynamic name"
    if name.ident?.isSome then node (.group name) (token.pos.merge close.pos) else return name
  | _ => failAt token (.expected "a property name after `.`")

def finishIndex (target : Expr) : Parser Expr := do
  let index ←
    if ← atKind .rightBracket then pure none
    else
      newlines
      let index ← r.expression
      newlines
      pure (some index)
  let close ← expect .rightBracket "`]` after index"
  node (.indexGet target index) (target.pos.merge close.pos)

/-- One step of a chain of calls, members and indices. -/
def postfixStep (e : Expr) : Parser (Round Expr Expr) := do
  continueLine
  match (← peek).kind with
  | .leftParen =>
    let _ ← advance
    return .again (← finishCall r e)
  | .leftBrace =>
    let _ ← advance
    let lambda ← shortLambda r
    return .again (← node (.call e [⟨none, lambda⟩]) (e.pos.merge lambda.pos))
  | .dot =>
    let _ ← advance
    newlines
    let field ← fieldName r
    return .again (← node (.get e field) (e.pos.merge field.pos))
  | .leftBracket =>
    let _ ← advance
    return .again (← finishIndex r e)
  | _ => return .done e

/-! ## Primary expressions -/

def stringLiteral (token : Token) : Parser Expr :=
  node (.literal (.string token.text)) token.pos

def sum (lhs rhs : Expr) : Parser Expr := node (.binary lhs .add rhs) (lhs.pos.merge rhs.pos)

/-- An interpolated string after its first fragment: the sum of its fragments and of its
embedded expressions, each in a group. Empty fragments after the first are left out. -/
def interpolation (first : Token) : Parser Expr := do
  iterate
    (fun e => do
      let embedded ← r.expression
      let e ← sum e (← node (.group embedded) embedded.pos)
      let fragment ← advance
      match fragment.kind with
      | .string | .interpolation =>
        let e ← if fragment.text.isEmpty then pure e else sum e (← stringLiteral fragment)
        if fragment.kind == .string then return .done e else return .again e
      | _ => failAt fragment .brokenInterpolation)
    (← stringLiteral first)

/-- A list literal as an argument; without items it stands at the given position. -/
def listArgument (items : List Expr) (pos : Position) : Parser Arg := do
  let pos := match items.head?, items.getLast? with
    | some first, some last => first.pos.merge last.pos
    | _, _ => pos
  return ⟨none, ← node (.list items false) pos⟩

/-- A tagged template after its tag: a call of the tag with the list of fragments and the
list of embedded expressions. -/
def taggedTemplate (tag : Token) : Parser Expr := do
  let callee ← node (.ident tag.lexeme) tag.pos
  let (fragments, embedded) ← iterate
    (fun ((fragments, embedded) : List Expr × List Expr) => do
      let fragment ← advance
      match fragment.kind with
      | .string =>
        return .done (fragments ++ [← stringLiteral fragment], embedded)
      | .interpolation =>
        let fragments := fragments ++ [← stringLiteral fragment]
        return .again (fragments, embedded ++ [← r.expression])
      | _ => failAt fragment (.expected "a template string"))
    ([], [])
  let pos ← spanFrom tag
  let args := [← listArgument fragments pos, ← listArgument embedded pos]
  node (.call callee args) pos

def moreItems {α : Type} (item : Parser α) (first : α) : Parser (List α) := do
  let items ← iterate
    (fun (items : List α) => do
      newlines
      if ← take .comma then
        newlines
        if ← atKind .rightBracket then return .done items.reverse
        else return .again ((← item) :: items)
      else return .done items.reverse)
    [first]
  let _ ← expect .rightBracket "`]` at the end of a literal"
  return items

/-- A list or map literal after its opening bracket; `[:]` is the empty map. -/
def collection (native : Bool) : Parser Expr := do
  let opening ← previous
  newlines
  if (← atKind .colon) && (← peekNext).kind == .rightBracket then
    let _ ← advance
    let _ ← advance
    node (.map [] native) (← spanFrom opening)
  else if ← take .rightBracket then
    node (.list [] native) (← spanFrom opening)
  else
    let first ← r.expression
    if ← take .colon then
      newlines
      let value ← r.expression
      let entries ← moreItems
        (do
          let key ← r.expression
          let _ ← expect .colon "`:` after map key"
          newlines
          return (⟨key, ← r.expression⟩ : Entry))
        ⟨first, value⟩
      node (.map entries native) (← spanFrom opening)
    else
      let items ← moreItems r.expression first
      node (.list items native) (← spanFrom opening)

def condition (keyword : String) : Parser Expr := do
  let _ ← expect .leftParen s!"`(` after `{keyword}`"
  newlines
  let cond ← r.expression
  newlines
  let _ ← expect .rightParen s!"`)` after `{keyword}` condition"
  newlines
  return cond

def ternary : Parser Expr := do
  let keyword ← previous
  let cond ← condition r "if"
  let yes ← r.expression
  if ← takeOnNextLine .elseKw then
    newlines
    let no ← r.expression
    node (.ternary cond yes no) (← spanFrom keyword)
  else fail (.expected "an `else` branch")

def arm : Parser Case := do
  let condition ←
    if ← take .defaultKw then pure none
    else pure (some (← r.expression))
  let _ ← expect .arrow "`->` after match condition"
  newlines
  return ⟨condition, [← r.statement]⟩

def choice : Parser Expr := do
  let keyword ← previous
  let target ← condition r "match"
  let _ ← expect .leftBrace "`\x7b` before match arms"
  newlines
  let arms ← itemsUntil (· == .rightBrace) (arm r)
  let _ ← expect .rightBrace "`\x7d` at the end of a match"
  node (.choose target arms) (← spanFrom keyword)

def primary : Parser Expr := do
  let token ← peek
  match token.kind with
  | .trueKw => advance *> node (.literal .true) token.pos
  | .falseKw => advance *> node (.literal .false) token.pos
  | .nullKw => advance *> node (.literal .null) token.pos
  | .number => advance *> node (.literal (.number token.lexeme)) token.pos
  | .string => advance *> stringLiteral token
  | .colonColon | .typeIdentifier =>
    let path ← path
    node (.path path) (← spanFrom token)
  | .identifier => advance *> node (.ident token.lexeme) token.pos
  | .thisKw => advance *> node .this token.pos
  | .staticKw => advance *> node .static token.pos
  | .superKw =>
    let _ ← advance
    let _ ← expect .dot "`.` after `super`"
    newlines
    let method ← expect .identifier "a superclass method name"
    node (.super method.lexeme) (token.pos.merge method.pos)
  | .interpolation => advance *> interpolation r token
  | .templateTag => advance *> taggedTemplate r token
  | .leftParen =>
    let _ ← advance
    newlines
    let inner ← r.expression
    newlines
    let close ← expect .rightParen "`)` after expression"
    node (.group inner) (token.pos.merge close.pos)
  | .dollar =>
    let _ ← advance
    let _ ← expect .leftBracket "`[` after `$`"
    collection r true
  | .leftBracket => advance *> collection r false
  | .leftBrace => advance *> shortLambda r
  | .functionKw =>
    let _ ← advance
    let func ← function r true []
    node (.lambda func) func.pos
  | .ifKw => advance *> ternary r
  | .matchKw => advance *> choice r
  | .eof => failAt token .unexpectedEnd
  | .newline => failAt token .unexpectedNewline
  | _ => failAt token (.unexpected token.lexeme)

/-! ## Operators -/

def call : Parser Expr := do iterate (postfixStep r) (← primary r)

def prefixOp? : TokenKind → Option UnaryOp
  | .bang => some .not
  | .minus => some .negate
  | .plusPlus => some .increment
  | .minusMinus => some .decrement
  | _ => none

def postfixOp? : TokenKind → Option UnaryOp
  | .plusPlus => some .increment
  | .minusMinus => some .decrement
  | _ => none

def unary : Parser Expr := do
  let token ← peek
  match prefixOp? token.kind with
  | some op =>
    let _ ← advance
    newlines
    let operand ← r.unary
    node (.unary op operand true) (token.pos.merge operand.pos)
  | none =>
    let operand ← call r
    match postfixOp? (← peek).kind with
    | some op =>
      let token ← advance
      node (.unary op operand false) (operand.pos.merge token.pos)
    | none => return operand

/-- `input |> stage`: the input becomes the last argument of a call, or the argument of a
lambda. The result stands where the stage stands. -/
def pipeInto (operator : Token) (input stage : Expr) : Parser Expr := do
  match stage.kind with
  | .call callee args => node (.call callee (args ++ [⟨none, input⟩])) stage.pos
  | .lambda func =>
    let lambda ← node (.lambda func) stage.pos
    let callee ← node (.group lambda) stage.pos
    node (.call callee [⟨none, input⟩]) stage.pos
  | _ => failAt operator .pipeTarget

def pipe : Parser Expr := do
  iterate
    (fun input => do
      if ← atKind .pipe then
        let operator ← advance
        newlines
        let stage ← unary r
        return .again (← pipeInto operator input stage)
      else return .done input)
    (← unary r)

abbrev Joint := Expr → Expr → ExprKind

def chainFrom (joint? : TokenKind → Option Joint) (operand : Parser Expr) (first : Expr) :
    Parser Expr :=
  iterate
    (fun lhs => do
      match joint? (← peek).kind with
      | none => return .done lhs
      | some joint =>
        let _ ← advance
        newlines
        let rhs ← operand
        return .again (← node (joint lhs rhs) (lhs.pos.merge rhs.pos)))
    first

def chain (joint? : TokenKind → Option Joint) (operand : Parser Expr) : Parser Expr := do
  chainFrom joint? operand (← operand)

def binaryJoint (op : BinaryOp) : Joint := fun lhs rhs => .binary lhs op rhs

def rangeJoint? : TokenKind → Option Joint
  | .range => some .range
  | _ => none

def factorJoint? : TokenKind → Option Joint
  | .star => some (binaryJoint .mul)
  | .slash => some (binaryJoint .div)
  | _ => none

def termJoint? : TokenKind → Option Joint
  | .plus => some (binaryJoint .add)
  | .minus => some (binaryJoint .sub)
  | .concat => some (binaryJoint .concat)
  | _ => none

def comparisonJoint? : TokenKind → Option Joint
  | .greater => some (binaryJoint .greater)
  | .greaterEqual => some (binaryJoint .greaterEq)
  | .less => some (binaryJoint .less)
  | .lessEqual => some (binaryJoint .lessEq)
  | _ => none

def equalityJoint? : TokenKind → Option Joint
  | .equalEqual => some (binaryJoint .eq)
  | .bangEqual => some (binaryJoint .notEq)
  | _ => none

def andJoint? : TokenKind → Option Joint
  | .andAnd => some fun lhs rhs => .logical lhs .and rhs
  | _ => none

def orJoint? : TokenKind → Option Joint
  | .orOr => some fun lhs rhs => .logical lhs .or rhs
  | _ => none

def range : Parser Expr := chain rangeJoint? (pipe r)

def multiplication : Parser Expr := chain factorJoint? (range r)

def addition : Parser Expr := chain termJoint? (multiplication r)

/-- One type test, or a row of comparisons. -/
def comparison : Parser Expr := do
  let first ← addition r
  if ← take .isKw then
    let type ← typePath r true
    node (.isType first type) (first.pos.merge (← previous).pos)
  else chainFrom comparisonJoint? (addition r) first

def equality : Parser Expr := chain equalityJoint? (comparison r)

def conjunction : Parser Expr := chain andJoint? (equality r)

def disjunction : Parser Expr := chain orJoint? (conjunction r)

/-! ## Assignment -/

/-- What assigning a value to an expression means, if it can be assigned to. -/
def assignment? (target value : Expr) : Option ExprKind :=
  match target.kind with
  | .ident name => some (.assign name value)
  | .get object field => some (.set object field value)
  | .indexGet list index => some (.indexSet list index value)
  | _ => none

/-- An assignment after its operator. `a += b` stands for `a = a + b`. -/
def finishAssignment (operator : Token) (compound : Bool) (target : Expr) : Parser Expr := do
  newlines
  let value ← r.expression
  let value ← if compound then sum target value else pure value
  match assignment? target value with
  | some kind => node kind (target.pos.merge value.pos)
  | none => failAt operator .assignmentTarget

def expression : Parser Expr := do
  let target ← disjunction r
  match (← peek).kind with
  | .equal => do finishAssignment r (← advance) false target
  | .plusEqual => do finishAssignment r (← advance) true target
  | _ => return target

/-! ## Attribute lists

`[Path(args), Other]` in front of a declaration or member, any number of times. -/

/-- Whether an attribute list comes next, rather than a list literal. -/
def atAttributes : Parser Bool := do
  let next := (← peekNext).kind
  return (← atKind .leftBracket) && (next == .typeIdentifier || next == .colonColon)

def attributeEntry : Parser Expr := do
  let start ← peek
  let path ← typePath r false
  let args ← after? .leftParen (arguments r)
  let pos ← spanFrom start
  node (.attribute path (args.getD [])) pos

/-- All attribute lists at the front, as one list. -/
def attributes : Parser (List Expr) :=
  iterate
    (fun (found : List Expr) => do
      if ← atAttributes then
        let _ ← advance
        let entries ← separated (attributeEntry r)
        newlines
        let _ ← expect .rightBracket "`]` at the end of an attribute list"
        newlines
        return .again (found ++ entries)
      else return .done found)
    []

end PhaseLang.Grammar
