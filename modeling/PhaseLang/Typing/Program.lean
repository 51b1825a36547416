import PhaseLang.Typing.Resolve

/-!
# Typing programs

Every expression gets a type, in the order of the source text. Typing never stops: what
cannot be told is `any`, and names that nothing declares and members that a class lacks are
reported.
-/

namespace PhaseLang

namespace Typer

def use (path : TypePath) : UseKind → Typer Unit
  | .plain => do declare path.name (← load path)
  | .alias target => do declare target.name (← load path)
  | .group targets => targets.forM fun target => do
    declare target.name (← load { ns := path.segments, name := target.name })

/-- A `match` has the type of its first arm that is a bare expression. -/
def firstArm (table : TypeTable) (cases : List Case) : Ty :=
  let arm? (c : Case) : Option Ty := match c.body with
    | [⟨_, .expr e⟩] => table.typeOf? e
    | _ => none
  (cases.findSome? arm?).getD .any

mutual

def expr : Expr → Typer Ty
  | ⟨id, pos, kind⟩ => do
    let type ← exprKind pos kind
    record id type
    return type

def exprKind (pos : Position) : ExprKind → Typer Ty
  | .attribute _ args => do
    arguments args
    return .any
  | .assign _ value => expr value
  | .binary lhs op rhs => do
    let type ← expr lhs
    let _ ← expr rhs
    if op.isComparison then builtin .bool
    else if op = .concat then builtin .string
    else return type
  | .unary op operand _ => do
    let type ← expr operand
    if op = .not then builtin .bool else return type
  | .isType operand _ => do
    let _ ← expr operand
    builtin .bool
  | .logical lhs _ rhs => do
    let _ ← expr lhs
    let _ ← expr rhs
    builtin .bool
  | .range lower upper => do
    let _ ← expr lower
    let _ ← expr upper
    builtin .int
  | .call callee args => do
    let type ← expr callee
    arguments args
    callResult type
  | .get target ⟨_, fieldPos, .ident name⟩ => do
    let type ← expr target
    member type name fieldPos
  | .get target field => do
    let _ ← expr target
    let _ ← expr field
    return .any
  | .set target ⟨_, _, .ident _⟩ value => do
    let _ ← expr target
    let _ ← expr value
    return .void
  | .set target field value => do
    let _ ← expr target
    let _ ← expr field
    let _ ← expr value
    return .void
  | .indexGet target index => do
    let _ ← expr target
    let _ ← optional index
    return .any
  | .indexSet target index value => do
    let _ ← expr target
    let _ ← optional index
    let _ ← expr value
    return .void
  | .ternary cond yes no => do
    let _ ← expr cond
    let type ← expr yes
    let _ ← expr no
    return type
  | .super method => superMember method
  | .path path => resolve path
  | .this => classBinding "this" pos
  | .static => classBinding "static" pos
  | .group inner => expr inner
  | .literal value => builtin (.ofLiteral value)
  | .list items native => do
    exprs items
    builtin (if native then .nativeArray else .array)
  | .map es native => do
    entries es
    builtin (if native then .nativeMap else .map)
  | .lambda f => do
    function f
    return .func f
  | .ident name => named name pos
  | .choose target cs => do
    let _ ← expr target
    cases cs
    return firstArm (← get).table cs

def optional : Option Expr → Typer (Option Ty)
  | none => return none
  | some e => return some (← expr e)

def exprs : List Expr → Typer Unit
  | [] => return
  | e :: es => do
    let _ ← expr e
    exprs es

def arguments : List Arg → Typer Unit
  | [] => return
  | ⟨_, e⟩ :: as => do
    let _ ← expr e
    arguments as

def entries : List Entry → Typer Unit
  | [] => return
  | ⟨key, value⟩ :: es => do
    let _ ← expr key
    let _ ← expr value
    entries es

def cases : List Case → Typer Unit
  | [] => return
  | ⟨condition, body⟩ :: cs => do
    inFrame do
      let _ ← optional condition
      stmts body
    cases cs

def stmt : Stmt → Typer Unit
  | ⟨_, kind⟩ => stmtKind kind

def stmtKind : StmtKind → Typer Unit
  | .expr e => do
    let _ ← expr e
  | .raise e => do
    let _ ← expr e
  | .use path kind _ => use path kind
  | .inNamespace path decls => Typer.inNamespace path.segments (stmts decls)
  | .var name type init => do
    let declared ← type.mapM resolve
    let inferred ← optional init
    declare name ((declared.or inferred).getD .any)
  | .global name => declare name .any
  | .attempt body handlers => inFrame do
    stmt body
    stmts handlers
  | .handler name type body => inFrame do
    declare name (← resolveOr .any type)
    stmt body
  | .loop cond body _ => inFrame do
    let _ ← expr cond
    stmt body
  | .forIn key value target body => inFrame do
    let _ ← expr target
    let keyType ← match target.kind, value with
      | .range _ _, none => builtin .int
      | _, _ => pure .any
    declare key keyType
    match value with
    | none => pure ()
    | some value => declare value .any
    stmt body
  | .branch cond yes no => inFrame do
    let _ ← expr cond
    inFrame (stmt yes)
    alternative no
  | .switch target cs => inFrame do
    let _ ← expr target
    cases cs
  | .block body => inFrame (stmts body)
  | .ret value => do
    let _ ← optional value
  | .func f => do
    declare f.name (.func f)
    function f
  | .cls c => cls c

def stmts : List Stmt → Typer Unit
  | [] => return
  | s :: ss => do
    stmt s
    stmts ss

def alternative : Option Stmt → Typer Unit
  | none => return
  | some s => inFrame (stmt s)

def body : Option Stmt → Typer Unit
  | none => return
  | some s => stmt s

def function : Func → Typer Unit
  | ⟨_, ps, b, _, attributes, _⟩ => inFrame do
    exprs attributes
    params ps
    body b

/-- A parameter without a type has the type of its default value. -/
def params : List Param → Typer Unit
  | [] => return
  | ⟨name, type, default, _, _⟩ :: ps => do
    let declared ← type.mapM resolve
    let inferred ← optional default
    declare name ((declared.or inferred).getD .any)
    params ps

def cls : Class → Typer Unit
  | ⟨name, kind, parent, interfaces, ms, attributes, pos⟩ => do
    let c : Class := ⟨name, kind, parent, interfaces, ms, attributes, pos⟩
    declare name (.classOf c)
    inFrame do
      declare "this" (.objectOf c)
      declare "static" (.objectOf c)
      exprs attributes
      members ms

def members : List Member → Typer Unit
  | [] => return
  | ⟨_, kind, _, attributes, _⟩ :: ms => do
    exprs attributes
    memberKind kind
    members ms

def memberKind : MemberKind → Typer Unit
  | .use _ => return
  | .field _ init => do
    let _ ← optional init
  | .property _ getter setter => do
    accessor getter
    accessor setter
  | .method f => function f

def accessor : Option Func → Typer Unit
  | none => return
  | some f => function f

end

end Typer

structure TypedProgram where
  surface : Surface
  table : TypeTable
  context : Context
  diagnostics : List Diagnostic

/-- The state before the first statement: every declaration is known, and visible by its own
name in the outermost scope. -/
def Typing.start (program : List Stmt) (context : Context) : Typing :=
  let declarations := Declaration.ofStmts [] program
  { scopes := declarations.foldl (fun s d => s.declare d.name d.type) {}
    surface := .ofProgram program
    context }

/-- Types a program. Its surface is part of the context afterwards. -/
def typeProgram (program : List Stmt) (context : Context) : TypedProgram :=
  let typing := ((Typer.stmts program).run (.start program context)).2
  { surface := typing.surface
    table := typing.table
    context := typing.context.addTypes typing.surface
    diagnostics := typing.diagnostics }

end PhaseLang
