import PhaseLang.Proofs.Code
import PhaseLang.FunctionNames
import PhaseLang.Typing.Program

/-!
# What typing visits

Typing goes through a program from left to right and gives every expression it comes to a
type. `Visits` lists these expressions in the order in which their types are recorded, each
with the state in which it was typed and with its `Place`: how every name that is visible
there was bound, and which of the scopes around it PHP runs as closures.
-/

namespace PhaseLang

/-! ## Places -/

inductive BindingKind where
  | var | global | param | loop | caught | func | cls
  | imported (isFunction : Bool)
  /-- `this` or `static` -/
  | self
deriving DecidableEq, Repr

namespace BindingKind

def isVariable : BindingKind → Bool
  | var | global | param | loop | caught => true
  | _ => false

def isFunction : BindingKind → Bool
  | func | imported true => true
  | _ => false

end BindingKind

/-- Code that is a function of its own in PHP, and sees of what is around it only what it
captures. -/
inductive Closure where
  | lambda (f : Func)
  | arm (body : List Stmt)

inductive Opener where
  | block
  | closure (code : Closure)
  /-- A named function or a class, or attributes. -/
  | declaration

/-- A part of an arm is evaluated where the arm stands if it is a single expression. -/
def Opener.ofArm : List Stmt → Opener
  | [⟨_, .expr _⟩] | [⟨_, .ret (some _)⟩] | [⟨_, .raise _⟩] => block
  | body => closure (.arm body)

structure Scope where
  opener : Opener
  bindings : Bindings BindingKind := []
  /-- The code at hand stands in a namespace that was opened in this scope. -/
  hidden : Bool := false

abbrev Place := List Scope

namespace Place

def enter (p : Place) (opener : Opener) : Place := ⟨opener, [], false⟩ :: p

def bind (p : Place) (new : Bindings BindingKind) : Place :=
  p.modifyHead fun scope => { scope with bindings := scope.bindings.insertAll new }

def hide (p : Place) : Place := p.modifyHead fun scope => { scope with hidden := true }

def kindOf? (p : Place) (name : String) : Option BindingKind := p.findSome? (·.bindings.get? name)

end Place

/-! ## Binders -/

def UseKind.binders (path : TypePath) : UseKind → Bindings BindingKind
  | .plain => [(path.name, .imported (Php.startsLower path.name))]
  | .alias target => [(target.name, .imported target.function?.isSome)]
  | .group targets => targets.map fun target => (target.name, .imported target.function?.isSome)

namespace Binders

mutual

def ofStmt : Stmt → Bindings BindingKind
  | ⟨_, .use path kind _⟩ => kind.binders path
  | ⟨_, .inNamespace _ decls⟩ => ofStmts decls
  | ⟨_, .var name _ _⟩ => [(name, .var)]
  | ⟨_, .global name⟩ => [(name, .global)]
  | ⟨_, .func f⟩ => [(f.name, .func)]
  | ⟨_, .cls c⟩ => [(c.name, .cls)]
  | _ => []

def ofStmts : List Stmt → Bindings BindingKind
  | [] => []
  | s :: ss => ofStmt s ++ ofStmts ss

end

def ofParams (ps : List Param) : Bindings BindingKind := ps.map fun p => (p.name, .param)

def ofLoop (key : String) (value : Option String) : Bindings BindingKind :=
  (key, .loop) :: value.toList.map fun name => (name, .loop)

def ofClassBody : Bindings BindingKind := [("this", .self), ("static", .self)]

def ofDeclarations (program : List Stmt) : Bindings BindingKind :=
  (Declaration.ofStmts [] program).map fun d =>
    (d.name, match d.type with
      | .func _ => .func
      | _ => .cls)

end Binders

/-! ## Fields -/

namespace Typer

variable {target field value : Expr}

theorem exprKind_get (pos : Position) (h : field.ident? = none) :
    exprKind pos (.get target field) = (do
      let _ ← expr target
      let _ ← expr field
      return .any) := by
  obtain ⟨_, _, kind⟩ := field
  cases kind with
  | ident _ => simp [Expr.ident?] at h
  | _ => rfl

theorem exprKind_set (pos : Position) (h : field.ident? = none) :
    exprKind pos (.set target field value) = (do
      let _ ← expr target
      let _ ← expr field
      let _ ← expr value
      return .void) := by
  obtain ⟨_, _, kind⟩ := field
  cases kind with
  | ident _ => simp [Expr.ident?] at h
  | _ => rfl

end Typer

/-! ## States -/

namespace Typing

def enter (s : Typing) : Typing := { s with scopes := s.scopes.enter }

def leave (s : Typing) : Typing := { s with scopes := s.scopes.leave }

end Typing

namespace Typer

def after {α : Type} (m : Typer α) (s : Typing) : Typing := (m.run s).2

def loopKeyType (value : Option String) (target : Expr) : Typer Ty :=
  match target.kind, value with
  | .range _ _, none => builtin .int
  | _, _ => pure .any

def bindLoop (key : String) (value : Option String) (target : Expr) : Typer Unit := do
  declare key (← loopKeyType value target)
  match value with
  | none => pure ()
  | some value => declare value .any

def bindCaught (name : String) (type : Option TypePath) : Typer Unit := do
  declare name (← resolveOr .any type)

def bindSelf (c : Class) : Typer Unit := do
  declare "this" (.objectOf c)
  declare "static" (.objectOf c)

end Typer

/-! ## Visits -/

structure Visit where
  expr : Expr
  place : Place
  typing : Typing

namespace Visits

open Typer (after)

mutual

def ofExpr (p : Place) (s : Typing) : Expr → List Visit
  | ⟨id, pos, kind⟩ => ofKind p s kind ++ [⟨⟨id, pos, kind⟩, p, s⟩]

def ofKind (p : Place) (s : Typing) : ExprKind → List Visit
  | .attribute _ args => ofArgs p s args
  | .assign _ value => ofExpr p s value
  | .binary lhs _ rhs => ofExpr p s lhs ++ ofExpr p (after (Typer.expr lhs) s) rhs
  | .unary _ operand _ => ofExpr p s operand
  | .isType operand _ => ofExpr p s operand
  | .logical lhs _ rhs => ofExpr p s lhs ++ ofExpr p (after (Typer.expr lhs) s) rhs
  | .range lower upper => ofExpr p s lower ++ ofExpr p (after (Typer.expr lower) s) upper
  | .call callee args => ofExpr p s callee ++ ofArgs p (after (Typer.expr callee) s) args
  | .get target ⟨_, _, .ident _⟩ => ofExpr p s target
  | .get target field => ofExpr p s target ++ ofExpr p (after (Typer.expr target) s) field
  | .set target ⟨_, _, .ident _⟩ value =>
    ofExpr p s target ++ ofExpr p (after (Typer.expr target) s) value
  | .set target field value =>
    ofExpr p s target ++ ofExpr p (after (Typer.expr target) s) field ++
      ofExpr p (after (Typer.expr field) (after (Typer.expr target) s)) value
  | .indexGet target index =>
    ofExpr p s target ++ ofOption p (after (Typer.expr target) s) index
  | .indexSet target index value =>
    ofExpr p s target ++ ofOption p (after (Typer.expr target) s) index ++
      ofExpr p (after (Typer.optional index) (after (Typer.expr target) s)) value
  | .ternary cond yes no =>
    ofExpr p s cond ++ ofExpr p (after (Typer.expr cond) s) yes ++
      ofExpr p (after (Typer.expr yes) (after (Typer.expr cond) s)) no
  | .group inner => ofExpr p s inner
  | .list items _ => ofExprs p s items
  | .map entries _ => ofEntries p s entries
  | .lambda f => ofFunc (.closure (.lambda f)) p s f
  | .choose target cases => ofExpr p s target ++ ofCases .ofArm p (after (Typer.expr target) s) cases
  | .super _ | .path _ | .this | .static | .literal _ | .ident _ => []

def ofOption (p : Place) (s : Typing) : Option Expr → List Visit
  | none => []
  | some e => ofExpr p s e

def ofExprs (p : Place) (s : Typing) : List Expr → List Visit
  | [] => []
  | e :: es => ofExpr p s e ++ ofExprs p (after (Typer.expr e) s) es

def ofArgs (p : Place) (s : Typing) : List Arg → List Visit
  | [] => []
  | ⟨_, e⟩ :: as => ofExpr p s e ++ ofArgs p (after (Typer.expr e) s) as

def ofEntries (p : Place) (s : Typing) : List Entry → List Visit
  | [] => []
  | ⟨key, value⟩ :: es =>
    ofExpr p s key ++ ofExpr p (after (Typer.expr key) s) value ++
      ofEntries p (after (Typer.expr value) (after (Typer.expr key) s)) es

def ofCases (opener : List Stmt → Opener) (p : Place) (s : Typing) : List Case → List Visit
  | [] => []
  | ⟨condition, body⟩ :: cs =>
    ofOption (p.enter .block) s.enter condition ++
      ofStmts (p.enter (opener body)) (after (Typer.optional condition) s.enter) body ++
      ofCases opener p (after (Typer.cases [⟨condition, body⟩]) s) cs

def ofStmt (p : Place) (s : Typing) : Stmt → List Visit
  | ⟨_, kind⟩ => ofStmtKind p s kind

def ofStmtKind (p : Place) (s : Typing) : StmtKind → List Visit
  | .expr e => ofExpr p s e
  | .raise e => ofExpr p s e
  | .use _ _ _ => []
  | .inNamespace path decls => ofStmts p.hide { s with ns := path.segments } decls
  | .var _ type init => ofOption p (after (type.mapM Typer.resolve) s) init
  | .global _ => []
  | .attempt body handlers =>
    ofStmt (p.enter .block) s.enter body ++
      ofStmts ((p.enter .block).bind (Binders.ofStmt body)) (after (Typer.stmt body) s.enter) handlers
  | .handler name type body =>
    ofStmt ((p.enter .block).bind [(name, .caught)]) (after (Typer.bindCaught name type) s.enter) body
  | .loop cond body _ =>
    ofExpr (p.enter .block) s.enter cond ++
      ofStmt (p.enter .block) (after (Typer.expr cond) s.enter) body
  | .forIn key value target body =>
    ofExpr (p.enter .block) s.enter target ++
      ofStmt ((p.enter .block).bind (Binders.ofLoop key value))
        (after (Typer.bindLoop key value target) (after (Typer.expr target) s.enter)) body
  | .branch cond yes no =>
    ofExpr (p.enter .block) s.enter cond ++
      ofStmt ((p.enter .block).enter .block) (after (Typer.expr cond) s.enter).enter yes ++
      ofAlternative (p.enter .block)
        (after (Typer.stmt yes) (after (Typer.expr cond) s.enter).enter).leave no
  | .switch target cases =>
    ofExpr (p.enter .block) s.enter target ++
      ofCases (fun _ => .block) (p.enter .block) (after (Typer.expr target) s.enter) cases
  | .block body => ofStmts (p.enter .block) s.enter body
  | .ret value => ofOption p s value
  | .func f =>
    ofFunc .declaration (p.bind [(f.name, .func)]) (after (Typer.declare f.name (.func f)) s) f
  | .cls c => ofClass p s c

def ofStmts (p : Place) (s : Typing) : List Stmt → List Visit
  | [] => []
  | x :: xs => ofStmt p s x ++ ofStmts (p.bind (Binders.ofStmt x)) (after (Typer.stmt x) s) xs

def ofAlternative (p : Place) (s : Typing) : Option Stmt → List Visit
  | none => []
  | some x => ofStmt (p.enter .block) s.enter x

def ofBody (p : Place) (s : Typing) : Option Stmt → List Visit
  | none => []
  | some x => ofStmt p s x

def ofFunc (opener : Opener) (p : Place) (s : Typing) : Func → List Visit
  | ⟨_, ps, body, _, attributes, _⟩ =>
    ofExprs (p.enter .declaration) s.enter attributes ++
      ofParams (p.enter opener) (after (Typer.exprs attributes) s.enter) ps ++
      ofBody ((p.enter opener).bind (Binders.ofParams ps))
        (after (Typer.params ps) (after (Typer.exprs attributes) s.enter)) body

def ofParams (p : Place) (s : Typing) : List Param → List Visit
  | [] => []
  | ⟨name, type, default, promoted, pos⟩ :: ps =>
    ofOption p (after (type.mapM Typer.resolve) s) default ++
      ofParams (p.bind [(name, .param)]) (after (Typer.params [⟨name, type, default, promoted, pos⟩]) s) ps

def ofClass (p : Place) (s : Typing) : Class → List Visit
  | ⟨name, kind, parent, interfaces, members, attributes, pos⟩ =>
    let c : Class := ⟨name, kind, parent, interfaces, members, attributes, pos⟩
    let inner := ((p.bind [(name, .cls)]).enter .declaration).bind Binders.ofClassBody
    let s := after (Typer.bindSelf c) (after (Typer.declare name (.classOf c)) s).enter
    ofExprs inner s attributes ++ ofMembers inner (after (Typer.exprs attributes) s) members

def ofMembers (p : Place) (s : Typing) : List Member → List Visit
  | [] => []
  | ⟨_, kind, _, attributes, _⟩ :: ms =>
    ofExprs p s attributes ++ ofMemberKind p (after (Typer.exprs attributes) s) kind ++
      ofMembers p (after (Typer.memberKind kind) (after (Typer.exprs attributes) s)) ms

def ofMemberKind (p : Place) (s : Typing) : MemberKind → List Visit
  | .use _ => []
  | .field _ init => ofOption p s init
  | .property _ getter setter =>
    ofAccessor p s getter ++ ofAccessor p (after (Typer.accessor getter) s) setter
  | .method f => ofFunc .declaration p s f

def ofAccessor (p : Place) (s : Typing) : Option Func → List Visit
  | none => []
  | some f => ofFunc .declaration p s f

end

variable {target field value : Expr}

theorem ofKind_get (h : field.ident? = none) (p : Place) (s : Typing) :
    ofKind p s (.get target field) =
      ofExpr p s target ++ ofExpr p (after (Typer.expr target) s) field := by
  obtain ⟨_, _, kind⟩ := field
  cases kind with
  | ident _ => simp [Expr.ident?] at h
  | _ => rfl

theorem ofKind_set (h : field.ident? = none) (p : Place) (s : Typing) :
    ofKind p s (.set target field value) =
      ofExpr p s target ++ ofExpr p (after (Typer.expr target) s) field ++
        ofExpr p (after (Typer.expr field) (after (Typer.expr target) s)) value := by
  obtain ⟨_, _, kind⟩ := field
  cases kind with
  | ident _ => simp [Expr.ident?] at h
  | _ => rfl

end Visits

def Place.start (program : List Stmt) : Place :=
  [⟨.block, Bindings.insertAll [] (Binders.ofDeclarations program), false⟩]

def visits (program : List Stmt) (context : Context) : List Visit :=
  Visits.ofStmts (.start program) (.start program context) program

def FunctionNames.ofProgram (program : List Stmt) (context : Context) : FunctionNames where
  types := (typeProgram program context).table
  imported := importedFunctions program

def programOf (source : String) : List Stmt :=
  match (readSource source "" 0).result with
  | .ok (program, _) => program
  | .error _ => []

theorem exists_read_programOf (source : String) (h : (readSource source "" 0).result.isOk = true) :
    ∃ next, (readSource source "" 0).result = .ok (programOf source, next) := by
  unfold programOf
  cases read : (readSource source "" 0).result with
  | ok parsed => exact ⟨parsed.2, rfl⟩
  | error e => simp [read, Except.isOk, Except.toBool] at h

end PhaseLang
