import PhaseLang.Grammar.Class
import PhaseLang.Grammar.Program

/-!
# Trees without positions

A `Sketch` of a tree leaves out where its nodes stand, save for the token that a class starts with, and
puts other ids in the place of those that the expressions have. The grammar looks only at what a
sketch keeps.
-/

namespace PhaseLang

/-- What is kept of ids, and of the bytes at which classes start. -/
structure Sketch where
  id : Nat → Nat
  start : Nat → Nat

namespace Sketch

def nowhere : Position := ⟨0, 0, ""⟩

def place (v : Sketch) (pos : Position) : Position := ⟨v.start pos.start, 0, ""⟩

mutual

def expr (v : Sketch) : Expr → Expr
  | ⟨id, _, kind⟩ => ⟨v.id id, nowhere, v.exprKind kind⟩

def exprKind (v : Sketch) : ExprKind → ExprKind
  | .attribute path args => .attribute path (v.args args)
  | .assign name value => .assign name (v.expr value)
  | .binary lhs op rhs => .binary (v.expr lhs) op (v.expr rhs)
  | .unary op operand leading => .unary op (v.expr operand) leading
  | .isType operand type => .isType (v.expr operand) type
  | .logical lhs op rhs => .logical (v.expr lhs) op (v.expr rhs)
  | .range lower upper => .range (v.expr lower) (v.expr upper)
  | .call callee args => .call (v.expr callee) (v.args args)
  | .get target field => .get (v.expr target) (v.expr field)
  | .set target field value => .set (v.expr target) (v.expr field) (v.expr value)
  | .indexGet target index => .indexGet (v.expr target) (v.option index)
  | .indexSet target index value => .indexSet (v.expr target) (v.option index) (v.expr value)
  | .ternary cond yes no => .ternary (v.expr cond) (v.expr yes) (v.expr no)
  | .super method => .super method
  | .path path => .path path
  | .this => .this
  | .static => .static
  | .group inner => .group (v.expr inner)
  | .literal value => .literal value
  | .list items native => .list (v.exprs items) native
  | .map entries native => .map (v.entries entries) native
  | .lambda f => .lambda (v.func f)
  | .ident name => .ident name
  | .choose target cases => .choose (v.expr target) (v.cases cases)

def option (v : Sketch) : Option Expr → Option Expr
  | none => none
  | some e => some (v.expr e)

def exprs (v : Sketch) : List Expr → List Expr
  | [] => []
  | e :: es => v.expr e :: v.exprs es

def args (v : Sketch) : List Arg → List Arg
  | [] => []
  | ⟨name, e⟩ :: as => ⟨name, v.expr e⟩ :: v.args as

def entries (v : Sketch) : List Entry → List Entry
  | [] => []
  | ⟨key, value⟩ :: es => ⟨v.expr key, v.expr value⟩ :: v.entries es

def cases (v : Sketch) : List Case → List Case
  | [] => []
  | ⟨condition, body⟩ :: cs => ⟨v.option condition, v.stmts body⟩ :: v.cases cs

def stmt (v : Sketch) : Stmt → Stmt
  | ⟨_, kind⟩ => ⟨nowhere, v.stmtKind kind⟩

def stmtKind (v : Sketch) : StmtKind → StmtKind
  | .expr e => .expr (v.expr e)
  | .use path kind attributes => .use path kind (v.exprs attributes)
  | .inNamespace path decls => .inNamespace path (v.stmts decls)
  | .var name type init => .var name type (v.option init)
  | .global name => .global name
  | .raise e => .raise (v.expr e)
  | .attempt body handlers => .attempt (v.stmt body) (v.stmts handlers)
  | .handler name type body => .handler name type (v.stmt body)
  | .loop cond body inverted => .loop (v.expr cond) (v.stmt body) inverted
  | .forIn key value target body => .forIn key value (v.expr target) (v.stmt body)
  | .branch cond yes no => .branch (v.expr cond) (v.stmt yes) (v.body no)
  | .switch target cases => .switch (v.expr target) (v.cases cases)
  | .block stmts => .block (v.stmts stmts)
  | .ret value => .ret (v.option value)
  | .func f => .func (v.func f)
  | .cls c => .cls (v.cls c)

def stmts (v : Sketch) : List Stmt → List Stmt
  | [] => []
  | s :: ss => v.stmt s :: v.stmts ss

def body (v : Sketch) : Option Stmt → Option Stmt
  | none => none
  | some s => some (v.stmt s)

def func (v : Sketch) : Func → Func
  | ⟨name, params, body, result, attributes, _⟩ =>
    ⟨name, v.params params, v.body body, result, v.exprs attributes, nowhere⟩

def params (v : Sketch) : List Param → List Param
  | [] => []
  | ⟨name, type, default, promoted, _⟩ :: ps => ⟨name, type, v.option default, promoted, nowhere⟩ :: v.params ps

def cls (v : Sketch) : Class → Class
  | ⟨name, kind, parent, interfaces, members, attributes, pos⟩ =>
    ⟨name, kind, parent, interfaces, v.members members, v.exprs attributes, v.place pos⟩

def members (v : Sketch) : List Member → List Member
  | [] => []
  | m :: ms => v.member m :: v.members ms

def member (v : Sketch) : Member → Member
  | ⟨name, kind, modifiers, attributes, _⟩ => ⟨name, v.memberKind kind, modifiers, v.exprs attributes, nowhere⟩

def memberKind (v : Sketch) : MemberKind → MemberKind
  | .use path => .use path
  | .field type init => .field type (v.option init)
  | .property type getter setter => .property type (v.accessor getter) (v.accessor setter)
  | .method f => .method (v.func f)

def accessor (v : Sketch) : Option Func → Option Func
  | none => none
  | some f => some (v.func f)

end

attribute [simp, grind =] expr exprKind stmt stmtKind func cls member memberKind

section
variable (v : Sketch)

def arg (a : Arg) : Arg := ⟨a.name, v.expr a.value⟩

def entry (e : Entry) : Entry := ⟨v.expr e.key, v.expr e.value⟩

def case (c : Case) : Case := ⟨v.option c.condition, v.stmts c.body⟩

def param (p : Param) : Param := ⟨p.name, p.type, v.option p.default, p.promoted, nowhere⟩

@[simp] theorem ident?_expr (e : Expr) : (v.expr e).ident? = e.ident? := by
  obtain ⟨_, _, kind⟩ := e
  cases kind <;> rfl

@[simp, grind =] theorem option_eq (e : Option Expr) : v.option e = e.map v.expr := by
  cases e <;> simp [option]

@[simp, grind =] theorem body_eq (s : Option Stmt) : v.body s = s.map v.stmt := by
  cases s <;> simp [body]

@[simp, grind =] theorem accessor_eq (f : Option Func) : v.accessor f = f.map v.func := by
  cases f <;> simp [accessor]

@[simp, grind =] theorem exprs_eq (es : List Expr) : v.exprs es = es.map v.expr :=
  eq_map_of_cons rfl (fun _ _ => rfl) es

@[simp, grind =] theorem args_eq (as : List Arg) : v.args as = as.map v.arg :=
  eq_map_of_cons rfl (fun x _ => by cases x; rfl) as

@[simp, grind =] theorem entries_eq (es : List Entry) : v.entries es = es.map v.entry :=
  eq_map_of_cons rfl (fun x _ => by cases x; rfl) es

@[simp, grind =] theorem stmts_eq (ss : List Stmt) : v.stmts ss = ss.map v.stmt :=
  eq_map_of_cons rfl (fun _ _ => rfl) ss

@[simp, grind =] theorem cases_eq (cs : List Case) : v.cases cs = cs.map v.case :=
  eq_map_of_cons rfl (fun x _ => by cases x; rfl) cs

@[simp, grind =] theorem params_eq (ps : List Param) : v.params ps = ps.map v.param :=
  eq_map_of_cons rfl (fun x _ => by cases x; rfl) ps

@[simp, grind =] theorem members_eq (ms : List Member) : v.members ms = ms.map v.member :=
  eq_map_of_cons rfl (fun _ _ => rfl) ms

end

end Sketch

end PhaseLang
