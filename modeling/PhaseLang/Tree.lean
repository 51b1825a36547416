import PhaseLang.Position
import PhaseLang.TypePath

/-!
# Syntax trees

Statements, expressions and declarations as the parser builds them. Every node has a
position; every expression also has an id, under which its type is kept. Two nodes share
an id only where one piece of source text stands in the tree twice.
-/

namespace PhaseLang

inductive Literal where
  | string (value : String)
  /-- A number exactly as written. -/
  | number (digits : String)
  | true
  | false
  | null
deriving DecidableEq, Repr

inductive BinaryOp where
  | add | sub | mul | div | concat | eq | notEq | greater | greaterEq | less | lessEq
deriving DecidableEq, Repr

inductive LogicalOp where
  | and | or
deriving DecidableEq, Repr

inductive UnaryOp where
  | not | negate | increment | decrement
deriving DecidableEq, Repr

inductive ClassKind where
  | plain | interface | trait
deriving DecidableEq, Repr

inductive Modifier where
  | isStatic | isPublic | isPrivate | isConst | isAbstract
deriving DecidableEq, Repr

inductive UseTarget where
  | type (name : String)
  | func (name : String)
deriving DecidableEq, Repr

inductive UseKind where
  /-- `use A::B` -/
  | plain
  /-- `use A::B as C` -/
  | alias (target : UseTarget)
  /-- `use A::{B, c}` or `use A::c` -/
  | group (targets : List UseTarget)
deriving DecidableEq, Repr

/-! ## Nodes -/

mutual

structure Expr where
  /-- Not bounded, so no two expressions of a session get one id however many there are. -/
  id : Nat
  pos : Position
  kind : ExprKind

inductive ExprKind where
  /-- An entry of an attribute list. -/
  | attribute (path : TypePath) (args : List Arg)
  | assign (name : String) (value : Expr)
  | binary (lhs : Expr) (op : BinaryOp) (rhs : Expr)
  /-- The operator stands before its operand if `leading`, else after it. -/
  | unary (op : UnaryOp) (operand : Expr) (leading : Bool)
  | isType (operand : Expr) (type : TypePath)
  | logical (lhs : Expr) (op : LogicalOp) (rhs : Expr)
  | range (lower upper : Expr)
  | call (callee : Expr) (args : List Arg)
  /-- Member access. The field is an `ident` for a plain name, and any other expression
  for a computed one. -/
  | get (target field : Expr)
  | set (target field value : Expr)
  | indexGet (target : Expr) (index : Option Expr)
  | indexSet (target : Expr) (index : Option Expr) (value : Expr)
  | ternary (cond yes no : Expr)
  | super (method : String)
  | path (path : TypePath)
  | this
  | static
  | group (inner : Expr)
  | literal (value : Literal)
  | list (items : List Expr) (native : Bool)
  | map (entries : List Entry) (native : Bool)
  | lambda (func : Func)
  | ident (name : String)
  | choose (target : Expr) (cases : List Case)

structure Arg where
  name : Option String
  value : Expr

structure Entry where
  key : Expr
  value : Expr

/-- An arm of a `switch` or a `match`; without a condition it is the default. -/
structure Case where
  condition : Option Expr
  body : List Stmt

structure Stmt where
  pos : Position
  kind : StmtKind

inductive StmtKind where
  | expr (e : Expr)
  | use (path : TypePath) (kind : UseKind) (attributes : List Expr)
  | inNamespace (path : TypePath) (decls : List Stmt)
  | var (name : String) (type : Option TypePath) (init : Option Expr)
  | global (name : String)
  | raise (e : Expr)
  /-- The handlers are `handler` statements. -/
  | attempt (body : Stmt) (handlers : List Stmt)
  | handler (name : String) (type : Option TypePath) (body : Stmt)
  /-- The body runs before the first test if `inverted`. -/
  | loop (cond : Expr) (body : Stmt) (inverted : Bool)
  | forIn (key : String) (value : Option String) (target : Expr) (body : Stmt)
  | branch (cond : Expr) (yes : Stmt) (no : Option Stmt)
  | switch (target : Expr) (cases : List Case)
  | block (stmts : List Stmt)
  | ret (value : Option Expr)
  | func (func : Func)
  | cls (cls : Class)

/-- A function, method, accessor or lambda. Lambdas have an empty name. -/
structure Func where
  name : String
  params : List Param
  body : Option Stmt
  result : Option TypePath
  attributes : List Expr
  pos : Position

structure Param where
  name : String
  type : Option TypePath
  default : Option Expr
  /-- Written `this.name`: the parameter is stored in the field of that name. -/
  promoted : Bool
  pos : Position

structure Class where
  name : String
  kind : ClassKind
  parent : Option TypePath
  interfaces : List TypePath
  members : List Member
  attributes : List Expr
  pos : Position

structure Member where
  name : String
  kind : MemberKind
  modifiers : List Modifier
  attributes : List Expr
  pos : Position

inductive MemberKind where
  | use (path : TypePath)
  | field (type : Option TypePath) (init : Option Expr)
  | property (type : Option TypePath) (getter setter : Option Func)
  | method (func : Func)

end

/-! ## Views -/

namespace BinaryOp

def text : BinaryOp → String
  | add => "+" | sub => "-" | mul => "*" | div => "/" | concat => "+++"
  | eq => "==" | notEq => "!=" | greater => ">" | greaterEq => ">=" | less => "<"
  | lessEq => "<="

def isComparison : BinaryOp → Bool
  | eq | notEq | greater | greaterEq | less | lessEq => true
  | _ => false

end BinaryOp

namespace LogicalOp

def text : LogicalOp → String
  | and => "&&" | or => "||"

end LogicalOp

namespace UnaryOp

def text : UnaryOp → String
  | not => "!" | negate => "-" | increment => "++" | decrement => "--"

end UnaryOp

namespace Modifier

def text : Modifier → String
  | isStatic => "static" | isPublic => "public" | isPrivate => "private"
  | isConst => "const" | isAbstract => "abstract"

end Modifier

namespace UseTarget

def name : UseTarget → String
  | type n => n
  | func n => n

end UseTarget

namespace Expr

def ident? (e : Expr) : Option String :=
  match e.kind with
  | .ident name => some name
  | _ => none

end Expr

namespace Stmt

def toBlock (s : Stmt) : Stmt :=
  match s.kind with
  | .block _ => s
  | _ => ⟨s.pos, .block [s]⟩

end Stmt

namespace Member

def has (m : Member) (modifier : Modifier) : Bool := m.modifiers.contains modifier

end Member

namespace Class

/-- Members of this name are constructors. -/
def constructorName : String := "new"

def member? (c : Class) (name : String) : Option Member := c.members.find? (·.name == name)

def constructor? (c : Class) : Option Member := c.member? constructorName

def traits (c : Class) : List TypePath :=
  c.members.filterMap fun m =>
    match m.kind with
    | .use path => some path
    | _ => none

/-- The first member of a name that is not a used trait. -/
def ownMember? (c : Class) (name : String) : Option Member :=
  c.members.find? fun m =>
    m.name == name && match m.kind with
      | .use _ => false
      | _ => true

end Class

section
variable {α β : Type}

/-- A function that goes through a list of trees is known from what it does at the front. -/
theorem eq_flatMap_of_cons {f : α → List β} {g : List α → List β} (nil : g [] = [])
    (cons : ∀ a as, g (a :: as) = f a ++ g as) (as : List α) : g as = as.flatMap f := by
  induction as with
  | nil => exact nil
  | cons a as ih => rw [cons, ih, List.flatMap_cons]

theorem eq_map_of_cons {f : α → β} {g : List α → List β} (nil : g [] = [])
    (cons : ∀ a as, g (a :: as) = f a :: g as) (as : List α) : g as = as.map f := by
  induction as with
  | nil => exact nil
  | cons a as ih => rw [cons, ih, List.map_cons]

end

end PhaseLang
