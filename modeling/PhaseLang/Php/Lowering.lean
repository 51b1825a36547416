import PhaseLang.Captures
import PhaseLang.Php.Access

/-!
# Lowering to PHP

A typed program as a PHP tree. The types decide between `.` and `+`, `->` and `::`, `new`
and a plain call; where they say nothing the most common form is taken. Lowering follows the
order of the PHP text, and it never fails.
-/

namespace PhaseLang.Php

/-- What lowering is run in. Something may be done about each expression that it comes to. -/
class Lowering (L : Type → Type) where
  visit : Scene → Nat → L Expr → L Expr

@[default_instance] instance : Lowering Lower where
  visit _ _ run := run

namespace Lower

/-! ## Single nodes -/

def binaryOp : PhaseLang.BinaryOp → BinaryOp
  | .add => .add
  | .sub => .sub
  | .mul => .mul
  | .div => .div
  | .concat => .concat
  | .eq => .identical
  | .notEq => .notIdentical
  | .greater => .greater
  | .greaterEq => .greaterEq
  | .less => .less
  | .lessEq => .lessEq

def logicalOp : LogicalOp → BinaryOp
  | .and => .and
  | .or => .or

def positional (e : Expr) : Arg := ⟨none, e⟩

/-- The first character of a leading sign or number, if the expression starts with one. -/
def leadingChar? (e : PhaseLang.Expr) : Option Char :=
  match e.kind with
  | .unary op _ true => op.text.toList.head?
  | .literal (.number digits) => digits.toList.head?
  | _ => none

/-- Whether an operator right before an operand would read as another operator, as `-`
before `-1` does. -/
def mergesWith (op : UnaryOp) (operand : PhaseLang.Expr) : Bool :=
  match op.text.toList.getLast? with
  | some c => (c == '-' || c == '+') && leadingChar? operand == some c
  | none => false

/-- Operands of a conditional that are conditionals take parentheses. -/
def ternaryOperand (source : PhaseLang.Expr) (e : Expr) : Expr :=
  match source.kind with
  | .ternary _ _ _ => .group e
  | _ => e

/-- The function that tests for a type that is no class. -/
def typeTest? (type : TypePath) : Option String :=
  if !type.ns.isEmpty then none
  else match type.name with
    | "String" => some "\\is_string"
    | "Int" => some "\\is_int"
    | "Bool" => some "\\is_bool"
    | "Null" => some "\\is_null"
    | _ => none

inductive CallForm where
  | inherited (method : String)
  | function (name : String)
  | create
  | value

def callForm (scene : Scene) (callee : PhaseLang.Expr) : CallForm :=
  match callee.kind with
  | .super method => .inherited (methodName method)
  | .path _ => .create
  | kind =>
    match kind, (scene.typeOf callee).nonNull with
    | .ident name, type =>
      if scene.names.contains callee.id name then .function name
      else match type with
        | .classOf _ => .create
        | _ => .value
    | _, .classOf _ => .create
    | _, _ => .value

/-- An object of a class of the standard library around a plain array. -/
def wrapped (cls : String) (native : Bool) (array : Expr) : Expr :=
  if native then array else .create (.name cls) [positional array]

def stringMember (target : Expr) (name : String) : Expr :=
  .member (.call (.name "\\Std\\PhaseString::wrap") [positional target]) name

def imports (path : TypePath) : UseKind → List Import
  | .plain => [.single (startsLower path.name) (pathName path)]
  | .alias (.func name) => [.renamed true (pathName path) name]
  | .alias (.type name) => [.renamed false (pathName path) name]
  | .group targets =>
    let types := targets.filterMap fun
      | .type name => some name
      | .func _ => none
    let functions := targets.filterMap fun
      | .func name => some name
      | .type _ => none
    line false types ++ line true functions
where
  /-- The imports of one kind, on one line. -/
  line (isFunction : Bool) : List String → List Import
    | [] => []
    | [name] => [.single isFunction (pathName path ++ "\\" ++ name)]
    | names => [.group isFunction (pathName path) names]

/-! ## Classes -/

def typeNames (scene : Scene) (type : Option TypePath) : Option String :=
  if scene.typed then type.map typeName else none

/-- The modifiers of a member. What is private may be used by subclasses. -/
def modifiers (isInterface : Bool) (m : PhaseLang.Member) : List String :=
  m.modifiers.filterMap fun
    | .isAbstract => if isInterface then none else some "abstract"
    | .isPrivate => some "protected"
    | .isPublic => some "public"
    | .isStatic => some "static"
    | .isConst => some "const"

/-- Whether the body of a function stores `this.name` itself. -/
def assignsField (f : Func) (name : String) : Bool :=
  match f.body with
  | some ⟨_, .block stmts⟩ => stmts.any fun s =>
    match s.kind with
    | .expr ⟨_, _, .set ⟨_, _, .this⟩ field _⟩ => field.ident? == some name
    | _ => false
  | _ => false

def storeField (name : String) (value : Expr) : Stmt := .expr (.assign (.member .this name) value)

/-- The assignments of promoted parameters that the body of a constructor lacks. -/
def missingPromotions (f : Func) : List Stmt :=
  (f.params.filter fun p => p.promoted && !assignsField f p.name).map fun p =>
    storeField p.name (.var p.name)

def defaultConstructor (inherits : Bool) (inits : List Stmt) : Member :=
  let passOn : Stmt := .expr (.call (.parent "__construct") [positional (.spread (.var "args"))])
  let body := if inherits then passOn :: inits else inits
  ⟨[], .methods [⟨["public"], "__construct", [⟨none, "args", none, true⟩], none, some body⟩]⟩

/-- The methods that hand reads and writes of properties to their accessors. -/
def dispatchers : List Member :=
  let param (name : String) : Param := ⟨none, name, none, false⟩
  let accessor (kind : String) : Expr :=
    .computed .this (.binary (.literal (.string kind)) .concat (.var "name"))
  let getter : Stmt := .ret (some (.call (accessor "__get_") []))
  let setter : Stmt := .expr (.call (accessor "__set_") [positional (.var "value")])
  [⟨[], .methods [⟨["public"], "__get", [param "name"], none, some [getter]⟩]⟩,
    ⟨[], .methods [⟨["public"], "__set", [param "name", param "value"], none, some [setter]⟩]⟩]

def classKeyword (c : PhaseLang.Class) : String :=
  match c.kind with
  | .plain => if c.members.any (·.has .isAbstract) then "abstract class" else "class"
  | .interface => "interface"
  | .trait => "trait"

def isState (m : PhaseLang.Member) : Bool :=
  match m.kind with
  | .field _ _ | .property _ _ _ => true
  | _ => false

def isProperty (m : PhaseLang.Member) : Bool :=
  match m.kind with
  | .property _ _ _ => true
  | _ => false

/-! ## Programs -/

section
variable {L : Type → Type} [Monad L] [MonadLiftT Lower L] [Lowering L]

mutual

def expr (scene : Scene) : PhaseLang.Expr → L Expr
  | ⟨id, _, .ident name⟩ =>
    Lowering.visit scene id (return if scene.names.contains id name then .functionRef name else .var name)
  | ⟨id, _, kind⟩ => Lowering.visit scene id (exprKind scene kind)

def exprKind (scene : Scene) : ExprKind → L Expr
  | .attribute path args => return .attribute (typeName path) (← arguments scene args)
  | .assign name value => return .assign (.var name) (← expr scene value)
  | .binary lhs op rhs => do
    let joins ← if op = .add then isString scene lhs else pure false
    let left ← expr scene lhs
    let right ← expr scene rhs
    return .binary left (if joins then .concat else binaryOp op) right
  | .unary op operand leading => do
    let e ← expr scene operand
    if leading then return .before op (if mergesWith op operand then .group e else e)
    else return .after e op
  | .isType operand type => do
    let e ← expr scene operand
    match typeTest? type with
    | some test => return .call (.name test) [positional e]
    | none => return .instanceOf e (typeName type)
  | .logical lhs op rhs => do
    let left ← expr scene lhs
    let right ← expr scene rhs
    return .binary left (logicalOp op) right
  | .range lower upper => do
    let first ← expr scene lower
    let stop ← expr scene upper
    let last : Expr := .binary stop .sub (.literal (.number "1"))
    return .call (.name "\\range") [positional first, positional last]
  | .call callee args =>
    match callForm scene callee with
    | .inherited method => return .call (.parent method) (← arguments scene args)
    | .function name => return .call (.name name) (← arguments scene args)
    | .create => do
      let cls ← expr scene callee
      return .create cls (← arguments scene args)
    | .value => do
      let f ← expr scene callee
      return .call f (← arguments scene args)
  | .get target ⟨_, _, .ident name⟩ => do
    if ← isString scene target then return stringMember (← expr scene target) name
    else
      let access ← accessTo scene target name
      return access.apply (← expr scene target) name
  | .get target field => do
    let object ← expr scene target
    return .computed object (← expr scene field)
  | .set target ⟨_, _, .ident name⟩ value => do
    let access ← accessTo scene target name
    let object ← expr scene target
    return .assign (access.apply object name) (← expr scene value)
  | .set target field value => do
    let object ← expr scene target
    let name ← expr scene field
    return .assign (.computed object name) (← expr scene value)
  | .indexGet target index => do
    let array ← expr scene target
    return .index array (← optional scene index)
  | .indexSet target index value => do
    let array ← expr scene target
    let key ← optional scene index
    return .assign (.index array key) (← expr scene value)
  | .ternary cond yes no => do
    let c ← expr scene cond
    let y ← expr scene yes
    let n ← expr scene no
    return .ternary (ternaryOperand cond c) (ternaryOperand yes y) (ternaryOperand no n)
  | .super method => return .parent (methodName method)
  | .path path => return .name (typeName path)
  | .this => return .this
  | .static => return .static
  | .group inner => return .group (← expr scene inner)
  | .literal value => return .literal value
  | .list items native => return wrapped "\\Std\\PhaseArray" native (.list (← exprs scene items))
  | .map es native => return wrapped "\\Std\\PhaseMap" native (.map (← entries scene es))
  | .lambda f => closure scene f
  | .ident name => return .var name
  | .choose target cs => do
    let value ← expr scene target
    return .choose value (← arms scene cs)

def optional (scene : Scene) : Option PhaseLang.Expr → L (Option Expr)
  | none => return none
  | some e => return some (← expr scene e)

def exprs (scene : Scene) : List PhaseLang.Expr → L (List Expr)
  | [] => return []
  | e :: es => return (← expr scene e) :: (← exprs scene es)

def arguments (scene : Scene) : List PhaseLang.Arg → L (List Arg)
  | [] => return []
  | ⟨name, value⟩ :: as => return ⟨name, ← expr scene value⟩ :: (← arguments scene as)

def entries (scene : Scene) : List PhaseLang.Entry → L (List Entry)
  | [] => return []
  | ⟨key, value⟩ :: es => return ⟨← expr scene key, ← expr scene value⟩ :: (← entries scene es)

def closure (scene : Scene) : Func → L Expr
  | ⟨name, ps, body, result, as, pos⟩ => do
    let captures := capturesOf scene.names ⟨name, ps, body, result, as, pos⟩
    let parameters ← params scene true ps
    return .closure parameters captures (typeNames scene result) (← bodyStmts scene body)

/-- Arms are expressions. Anything but a single expression, `return` or `throw` becomes a
closure that is called at once. -/
def arms (scene : Scene) : List PhaseLang.Case → L (List Arm)
  | [] => return []
  | ⟨condition, [⟨_, .expr e⟩]⟩ :: cs => do
    let test ← optional scene condition
    return ⟨test, ← expr scene e⟩ :: (← arms scene cs)
  | ⟨condition, [⟨_, .ret (some e)⟩]⟩ :: cs => do
    let test ← optional scene condition
    return ⟨test, ← expr scene e⟩ :: (← arms scene cs)
  | ⟨condition, [⟨_, .raise e⟩]⟩ :: cs => do
    let test ← optional scene condition
    return ⟨test, .raise (← expr scene e)⟩ :: (← arms scene cs)
  | ⟨condition, body⟩ :: cs => do
    let test ← optional scene condition
    let code : Expr := .closure [] (capturesIn scene.names body) none (← stmts scene body)
    return ⟨test, .call (.group code) []⟩ :: (← arms scene cs)

/-- Parameters. In a lambda, those without a type and a default may be left out. -/
def params (scene : Scene) (inLambda : Bool) : List PhaseLang.Param → L (List Param)
  | [] => return []
  | ⟨name, type, default, _, _⟩ :: ps => do
    let given ← optional scene default
    let value := if inLambda && type.isNone then given.or (some (.literal .null)) else given
    return ⟨type.map typeName, name, value, false⟩ :: (← params scene inLambda ps)

def attributes (scene : Scene) : List PhaseLang.Expr → L (List Expr)
  | [] => return []
  | e :: es => do
    if scene.typed then return (← expr scene e) :: (← exprs scene es) else return []

def stmt (scene : Scene) : PhaseLang.Stmt → L Stmt
  | ⟨_, kind⟩ => stmtKind scene kind

def stmtKind (scene : Scene) : StmtKind → L Stmt
  | .expr e => return .expr (← expr scene e)
  | .use path kind _ => return .imports (imports path kind)
  | .inNamespace path decls =>
    return .inNamespace (pathName path) (← stmts { scene with ns := path.segments } decls)
  | .var name _ init => do
    let value ← optional scene init
    return .expr (.assign (.var name) (value.getD (.literal .null)))
  | .global name => return .global name
  | .raise e => return .expr (.raise (← expr scene e))
  | .attempt body handlers => do
    let tried ← stmt scene body
    return .attempt tried (← stmts scene handlers)
  | .handler name type body =>
    return .handler ((type.map typeName).getD "\\Throwable") name (← stmt scene body)
  | .loop cond body false => do
    let test ← expr scene cond
    return .whileLoop test (← stmt scene body)
  | .loop cond body true => do
    let code ← stmt scene body
    return .doLoop code (← expr scene cond)
  | .forIn key none ⟨_, _, .range lower upper⟩ body => do
    let first ← expr scene lower
    let stop ← expr scene upper
    return .forRange key first stop (← stmt scene body)
  | .forIn key value target body => do
    let items ← expr scene target
    return .forEach items key value (← stmt scene body)
  | .branch cond yes no => do
    let test ← expr scene cond
    let y ← stmt scene yes
    return .branch test y (← alternative scene no)
  | .switch target cs => do
    let value ← expr scene target
    return .switch value (← cases scene cs)
  | .block body => return .block (← stmts scene body)
  | .ret value => return .ret (← optional scene value)
  | .func ⟨name, ps, body, result, as, _⟩ => do
    let written ← attributes scene as
    let parameters ← params scene false ps
    let code ← bodyStmts scene body
    return .func written ⟨name, parameters, typeNames scene result, code⟩
  | .cls c => return .cls (← cls scene c)

def stmts (scene : Scene) : List PhaseLang.Stmt → L (List Stmt)
  | [] => return []
  | s :: ss => return (← stmt scene s) :: (← stmts scene ss)

def alternative (scene : Scene) : Option PhaseLang.Stmt → L (Option Stmt)
  | none => return none
  | some s => return some (← stmt scene s)

def cases (scene : Scene) : List PhaseLang.Case → L (List Case)
  | [] => return []
  | ⟨condition, body⟩ :: cs => do
    let test ← optional scene condition
    let code ← stmts scene body
    return ⟨test, code⟩ :: (← cases scene cs)

def bodyStmts (scene : Scene) : Option PhaseLang.Stmt → L (List Stmt)
  | none => return []
  | some ⟨_, .block body⟩ => stmts scene body
  | some s => return [← stmt scene s]

/-- The constructor comes first, and the initial values that PHP cannot evaluate in a
declaration are assigned in it, or after the class if they are static. -/
def cls (scene : Scene) : PhaseLang.Class → L Class
  | ⟨name, kind, parent, interfaces, ms, as, pos⟩ => do
    let c : PhaseLang.Class := ⟨name, kind, parent, interfaces, ms, as, pos⟩
    let isInterface := kind = .interface
    let written ← attributes scene as
    let inits := if isInterface then pure [] else deferred scene none ms
    let hasDeferred := !isInterface && ms.any fun m => m.isDeferred && !m.has .isStatic
    let first ←
      if c.constructor?.isSome then constructor scene isInterface inits ms
      else if hasDeferred then pure [defaultConstructor parent.isSome (← inits)]
      else pure []
    let others ← members scene isInterface false ms
    let routed := !isInterface &&
      (ms.eraseP (·.name = PhaseLang.Class.constructorName)).any isProperty
    let afterwards ← if isInterface then pure [] else deferred scene (some name) ms
    return {
      attributes := written
      keyword := classKeyword c
      name
      parent := parent.map typeName
      interfaces := interfaces.map typeName
      isInterface
      members := first ++ others ++ if routed then dispatchers else []
      afterwards }

/-- Assignments of the initial values that cannot stand in the declaration: those of the
object's fields, or the static ones of the given class. -/
def deferred (scene : Scene) (ofClass : Option String) : List PhaseLang.Member → L (List Stmt)
  | [] => return []
  | ⟨name, .field type (some init), modifiers, as, pos⟩ :: ms => do
    let m : PhaseLang.Member := ⟨name, .field type (some init), modifiers, as, pos⟩
    if m.isDeferred && m.has .isStatic == ofClass.isSome then
      let value ← expr scene init
      let store := match ofClass with
        | none => storeField name value
        | some c => .expr (.assign (.classVar (.name c) name) value)
      return store :: (← deferred scene ofClass ms)
    else deferred scene ofClass ms
  | _ :: ms => deferred scene ofClass ms

def constructor (scene : Scene) (isInterface : Bool) (inits : L (List Stmt)) :
    List PhaseLang.Member → L (List Member)
  | [] => return []
  | m :: ms =>
    if m.name = PhaseLang.Class.constructorName then return [← member scene isInterface inits m]
    else constructor scene isInterface inits ms

/-- The members apart from the first constructor, which was `seen` before or not. -/
def members (scene : Scene) (isInterface seen : Bool) :
    List PhaseLang.Member → L (List Member)
  | [] => return []
  | m :: ms => do
    if m.name = PhaseLang.Class.constructorName && !seen then members scene isInterface true ms
    else if isInterface && isState m then members scene isInterface seen ms
    else
      let written ← member scene isInterface (pure []) m
      return written :: (← members scene isInterface seen ms)

/-- One member; a method starts with the given assignments. -/
def member (scene : Scene) (isInterface : Bool) (inits : L (List Stmt)) :
    PhaseLang.Member → L Member
  | ⟨name, kind, mods, as, pos⟩ => do
    let m : PhaseLang.Member := ⟨name, kind, mods, as, pos⟩
    let written ← attributes scene as
    return ⟨written, ← memberKind scene m (modifiers isInterface m) isInterface inits kind⟩

def memberKind (scene : Scene) (m : PhaseLang.Member) (words : List String) (isInterface : Bool)
    (inits : L (List Stmt)) : PhaseLang.MemberKind → L MemberKind
  | .use path => return .use (typeName path)
  | .field type init => do
    let isConst := m.has .isConst
    let head :=
      if isConst then words ++ [m.name]
      else words ++ (typeNames scene type).toList ++ ["$" ++ m.name]
    let value ← if m.isDeferred then pure none else optional scene init
    let startsNull := init.isNone && type.any (·.nullable)
    return .field head (if startsNull then some (.literal .null) else value)
  | .property type getter setter => do
    let reads ← accessor scene words ("__get_" ++ m.name) (typeNames scene type) false getter
    let writes ← accessor scene words ("__set_" ++ m.name) none true setter
    return .methods (reads ++ writes)
  | .method f => method scene m words isInterface inits f

/-- An accessor of a property, with the parameters it was declared with if `takes`. -/
def accessor (scene : Scene) (words : List String) (name : String) (result : Option String)
    (takes : Bool) : Option Func → L (List Method)
  | none => return []
  | some ⟨_, ps, body, _, _, _⟩ => do
    let parameters ← if takes then params scene false ps else pure []
    return [⟨words, name, parameters, result, some (← bodyStmts scene body)⟩]

def method (scene : Scene) (m : PhaseLang.Member) (words : List String) (isInterface : Bool)
    (inits : L (List Stmt)) : Func → L MemberKind
  | ⟨name, ps, body, result, as, pos⟩ => do
    let isConstructor := m.name = PhaseLang.Class.constructorName
    let parameters ← params scene false ps
    let resultName := if isConstructor then none else typeNames scene result
    if m.has .isAbstract || isInterface || body.isNone then
      return .methods [⟨words, methodName m.name, parameters, resultName, none⟩]
    else
      let stores ← inits
      let promotions :=
        if isConstructor then missingPromotions ⟨name, ps, body, result, as, pos⟩ else []
      let code ← bodyStmts scene body
      return .methods
        [⟨words, methodName m.name, parameters, resultName, some (stores ++ promotions ++ code)⟩]

end

end

end Lower

end PhaseLang.Php
