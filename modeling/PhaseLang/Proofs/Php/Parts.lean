import PhaseLang.Php.Lowering
import PhaseLang.Php.Printer

/-!
# Parts of PHP trees

`Asks` are properties of PHP expressions and statements and of the texts in them. `Asks.Parts` and
`Asks.StmtParts` ask for them in the parts of a tree. `Makes Sum Shape kind p` lists what lowering can make of
an expression of a kind, if it makes of its parts something of a known `Shape` and a sum only where the left
operand is a `Sum`. `Added` lists what it writes besides.
-/

namespace PhaseLang.Php

structure Asks where
  expr : Expr → Prop
  stmt : Stmt → Prop
  text : String → Prop
  literal : Literal → Prop

namespace Asks

def any : Asks := ⟨fun _ => True, fun _ => True, fun _ => True, fun _ => True⟩

variable (G : Asks)

structure Arg (a : Php.Arg) : Prop where
  name : ∀ name ∈ a.name, G.text name
  value : G.expr a.value

structure Entry (e : Php.Entry) : Prop where
  key : G.expr e.key
  value : G.expr e.value

structure Arm (a : Php.Arm) : Prop where
  condition : ∀ e ∈ a.condition, G.expr e
  value : G.expr a.value

structure Param (p : Php.Param) : Prop where
  type : ∀ type ∈ p.type, G.text type
  name : G.text p.name
  default : ∀ e ∈ p.default, G.expr e

structure Case (c : Php.Case) : Prop where
  condition : ∀ e ∈ c.condition, G.expr e
  body : ∀ s ∈ c.body, G.stmt s

structure Function (f : Php.Function) : Prop where
  name : G.text f.name
  params : ∀ p ∈ f.params, G.Param p
  result : ∀ type ∈ f.result, G.text type
  body : ∀ s ∈ f.body, G.stmt s

structure Method (m : Php.Method) : Prop where
  modifiers : ∀ word ∈ m.modifiers, G.text word
  name : G.text m.name
  params : ∀ p ∈ m.params, G.Param p
  result : ∀ type ∈ m.result, G.text type
  body : ∀ ss ∈ m.body, ∀ s ∈ ss, G.stmt s

def MemberKind : Php.MemberKind → Prop
  | .use type => G.text type
  | .field words init => (∀ word ∈ words, G.text word) ∧ ∀ e ∈ init, G.expr e
  | .methods methods => ∀ m ∈ methods, G.Method m

structure Member (m : Php.Member) : Prop where
  attributes : ∀ e ∈ m.attributes, G.expr e
  kind : G.MemberKind m.kind

structure Class (c : Php.Class) : Prop where
  attributes : ∀ e ∈ c.attributes, G.expr e
  keyword : G.text c.keyword
  name : G.text c.name
  parent : ∀ type ∈ c.parent, G.text type
  interfaces : ∀ type ∈ c.interfaces, G.text type
  members : ∀ m ∈ c.members, G.Member m
  afterwards : ∀ s ∈ c.afterwards, G.stmt s

def Parts : Expr → Prop
  | .this | .static => True
  | .var text | .name text | .parent text | .functionRef text => G.text text
  | .literal value => G.literal value
  | .list items => ∀ e ∈ items, G.expr e
  | .map entries => ∀ e ∈ entries, G.Entry e
  | .group e | .before _ e | .after e _ | .spread e | .raise e => G.expr e
  | .assign e e' | .binary e _ e' | .computed e e' => G.expr e ∧ G.expr e'
  | .ternary e e' e'' => G.expr e ∧ G.expr e' ∧ G.expr e''
  | .instanceOf e text | .member e text | .classMember e text | .classVar e text => G.expr e ∧ G.text text
  | .call e args | .create e args => G.expr e ∧ ∀ a ∈ args, G.Arg a
  | .attribute text args => G.text text ∧ ∀ a ∈ args, G.Arg a
  | .index e index => G.expr e ∧ ∀ e ∈ index, G.expr e
  | .closure params captures result body =>
    (∀ p ∈ params, G.Param p) ∧ (∀ name ∈ captures, G.text name) ∧ (∀ type ∈ result, G.text type) ∧
      ∀ s ∈ body, G.stmt s
  | .choose e arms => G.expr e ∧ ∀ a ∈ arms, G.Arm a

def StmtParts : Stmt → Prop
  | .expr e => G.expr e
  | .imports lines => ∀ line ∈ lines, G.text (Printer.importLine line)
  | .inNamespace name decls => G.text name ∧ ∀ s ∈ decls, G.stmt s
  | .global name => G.text name
  | .attempt body handlers => G.stmt body ∧ ∀ s ∈ handlers, G.stmt s
  | .handler type name body => G.text type ∧ G.text name ∧ G.stmt body
  | .whileLoop e body | .doLoop body e => G.expr e ∧ G.stmt body
  -- The loop is written with a comparison of its own.
  | .forRange key lower upper body =>
    G.text key ∧ G.expr lower ∧ G.expr upper ∧ G.expr (.binary (.var key) .less upper) ∧ G.stmt body
  | .forEach e key value body => G.expr e ∧ G.text key ∧ (∀ name ∈ value, G.text name) ∧ G.stmt body
  | .branch e yes no => G.expr e ∧ G.stmt yes ∧ ∀ s ∈ no, G.stmt s
  | .switch e cases => G.expr e ∧ ∀ c ∈ cases, G.Case c
  | .block stmts => ∀ s ∈ stmts, G.stmt s
  | .ret value => ∀ e ∈ value, G.expr e
  | .func attributes f => (∀ e ∈ attributes, G.expr e) ∧ G.Function f
  | .cls c => G.Class c

end Asks

/-! ## Single steps -/

section
variable (Sum : PhaseLang.Expr → Prop) (Shape : ExprKind → Expr → Prop)

inductive Makes : ExprKind → Expr → Prop
  | attributed (path args as) : Makes (.attribute path args) (.attribute (typeName path) as)
  | assign (name value p) : Makes (.assign name value) (.assign (.var name) p)
  | binary {lhs rhs : PhaseLang.Expr} {p q : Expr} (op) (hp : Shape lhs.kind p) (hq : Shape rhs.kind q)
      (sum : op = .add → Sum lhs) : Makes (.binary lhs op rhs) (.binary p (Lower.binaryOp op) q)
  | join {lhs rhs : PhaseLang.Expr} {p q : Expr} (hp : Shape lhs.kind p) (hq : Shape rhs.kind q) :
      Makes (.binary lhs .add rhs) (.binary p .concat q)
  | before {e : PhaseLang.Expr} {p : Expr} {op} (hp : Shape e.kind p) (apart : Lower.mergesWith op e = false) :
      Makes (.unary op e true) (.before op p)
  | beforeGroup (op e p) : Makes (.unary op e true) (.before op (.group p))
  | after {e : PhaseLang.Expr} {p : Expr} (op) (hp : Shape e.kind p) : Makes (.unary op e false) (.after p op)
  | test (e type name as) : Makes (.isType e type) (.call (.name name) as)
  | instanceOf {e : PhaseLang.Expr} {p : Expr} (type name) (hp : Shape e.kind p) :
      Makes (.isType e type) (.instanceOf p name)
  | logical {lhs rhs : PhaseLang.Expr} {p q : Expr} (op) (hp : Shape lhs.kind p) (hq : Shape rhs.kind q) :
      Makes (.logical lhs op rhs) (.binary p (Lower.logicalOp op) q)
  | range (lower upper as) : Makes (.range lower upper) (.call (.name "\\range") as)
  | inherited (callee args method as) : Makes (.call callee args) (.call (.parent method) as)
  | function {callee : PhaseLang.Expr} {name} (args as) (named : callee.kind = .ident name) :
      Makes (.call callee args) (.call (.name name) as)
  | create {callee : PhaseLang.Expr} {p : Expr} (args as) (hp : Shape callee.kind p) :
      Makes (.call callee args) (.create p as)
  | call {callee : PhaseLang.Expr} {p : Expr} (args as) (hp : Shape callee.kind p) :
      Makes (.call callee args) (.call p as)
  | stringMember (target field p name) : Makes (.get target field) (Lower.stringMember p name)
  | get {target : PhaseLang.Expr} {p : Expr} (field access name) (hp : Shape target.kind p) :
      Makes (.get target field) (Access.apply access p name)
  | computed {target : PhaseLang.Expr} {p : Expr} (field q) (hp : Shape target.kind p) :
      Makes (.get target field) (.computed p q)
  | set (target field value p q) : Makes (.set target field value) (.assign p q)
  | indexGet {target : PhaseLang.Expr} {p : Expr} (index q) (hp : Shape target.kind p) :
      Makes (.indexGet target index) (.index p q)
  | indexSet (target index value p q) : Makes (.indexSet target index value) (.assign p q)
  | ternary {cond yes no : PhaseLang.Expr} {p q r : Expr} (hp : Shape cond.kind p) (hq : Shape yes.kind q)
      (hr : Shape no.kind r) : Makes (.ternary cond yes no)
        (.ternary (Lower.ternaryOperand cond p) (Lower.ternaryOperand yes q) (Lower.ternaryOperand no r))
  | super (method) : Makes (.super method) (.parent (methodName method))
  | path (path) : Makes (.path path) (.name (typeName path))
  | this : Makes .this .this
  | static : Makes .static .static
  | group {e : PhaseLang.Expr} {p : Expr} (hp : Shape e.kind p) : Makes (.group e) (.group p)
  | literal (value) : Makes (.literal value) (.literal value)
  | list (es native cls ps) : Makes (.list es native) (Lower.wrapped cls native (.list ps))
  | map (es native cls ps) : Makes (.map es native) (Lower.wrapped cls native (.map ps))
  | lambda (f params captures result body) : Makes (.lambda f) (.closure params captures result body)
  | var (name) : Makes (.ident name) (.var name)
  | functionRef (name) : Makes (.ident name) (.functionRef name)
  | choose (target cases p arms) : Makes (.choose target cases) (.choose p arms)

end

/-- What is written besides the results of single steps. -/
inductive Added : Expr → Prop
  | var (name) : Added (.var name)
  | this : Added .this
  | name (text) : Added (.name text)
  | parent (method) : Added (.parent method)
  | literal (value) : Added (.literal value)
  | group (p) : Added (.group p)
  | list (ps) : Added (.list ps)
  | map (es) : Added (.map es)
  | closure (params captures result body) : Added (.closure params captures result body)
  | spread (p) : Added (.spread p)
  | raise (p) : Added (.raise p)
  | assign (p q) : Added (.assign p q)
  | callName (name as) : Added (.call (.name name) as)
  | callParent (method as) : Added (.call (.parent method) as)
  | callGroup (p as) : Added (.call (.group p) as)
  | callComputed (p as) : Added (.call (.computed .this p) as)
  | field (name) : Added (.member .this name)
  | computed (p) : Added (.computed .this p)
  | classVar (cls name) : Added (.classVar (.name cls) name)
  | accessor (text name) : Added (.binary (.literal (.string text)) .concat (.var name))

end PhaseLang.Php
