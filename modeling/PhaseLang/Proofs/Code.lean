import PhaseLang.Typing.Type

/-!
# Code

A piece of a program of any sort is `Code`. What is said of all code, in the order in which it is
gone through, is said by induction on its `parts`.
-/

namespace PhaseLang

theorem Expr.eq_of_ident? {e : Expr} {name : String} (h : e.ident? = some name) :
    ∃ id pos, e = ⟨id, pos, .ident name⟩ := by
  obtain ⟨id, pos, kind⟩ := e
  unfold Expr.ident? at h
  split at h
  · rename_i hk
    simp only [Option.some.injEq] at h hk
    exact ⟨id, pos, by rw [← h, ← hk]⟩
  · simp at h

theorem Expr.ident_or (e : Expr) : (∃ id pos name, e = ⟨id, pos, .ident name⟩) ∨ e.ident? = none := by
  cases h : e.ident? with
  | none => exact .inr rfl
  | some name =>
    obtain ⟨id, pos, same⟩ := e.eq_of_ident? h
    exact .inl ⟨id, pos, name, same⟩

inductive Code where
  | expr (e : Expr)
  | optional (e : Option Expr)
  | exprs (es : List Expr)
  | arguments (as : List Arg)
  | entries (es : List Entry)
  | cases (cs : List Case)
  | arm (c : Case)
  | stmt (x : Stmt)
  | stmts (xs : List Stmt)
  | alternative (x : Option Stmt)
  | body (x : Option Stmt)
  | function (f : Func)
  | params (ps : List Param)
  | param (p : Param)
  | classBody (c : Class)
  | members (ms : List Member)
  | memberKind (kind : MemberKind)
  | accessor (f : Option Func)
  | typed (type : Option TypePath)
  /-- The variables of a loop. -/
  | loopNames (key : String) (value : Option String) (target : Expr)
  /-- The variable of a handler. -/
  | caught (name : String) (type : Option TypePath)
  /-- `this` and `static` -/
  | self (c : Class)
  | declared (name : String) (type : Ty)

namespace Code

def ofKind : ExprKind → List Code
  | .attribute _ args => [arguments args]
  | .assign _ value => [expr value]
  | .binary lhs _ rhs | .logical lhs _ rhs | .range lhs rhs => [expr lhs, expr rhs]
  | .unary _ operand _ | .isType operand _ | .group operand => [expr operand]
  | .call callee args => [expr callee, arguments args]
  | .get target ⟨_, _, .ident _⟩ => [expr target]
  | .get target field => [expr target, expr field]
  | .set target ⟨_, _, .ident _⟩ value => [expr target, expr value]
  | .set target field value => [expr target, expr field, expr value]
  | .indexGet target index => [expr target, optional index]
  | .indexSet target index value => [expr target, optional index, expr value]
  | .ternary cond yes no => [expr cond, expr yes, expr no]
  | .list items _ => [exprs items]
  | .map es _ => [entries es]
  | .lambda f => [function f]
  | .choose target cs => [expr target, cases cs]
  | .super _ | .path _ | .this | .static | .literal _ | .ident _ => []

def ofStmtKind : StmtKind → List Code
  | .expr e | .raise e => [expr e]
  | .use _ _ _ | .global _ => []
  | .inNamespace _ decls => [stmts decls]
  | .var _ type init => [typed type, optional init]
  | .attempt b handlers => [stmt b, stmts handlers]
  | .handler name type b => [caught name type, stmt b]
  | .loop cond b _ => [expr cond, stmt b]
  | .forIn key value target b => [expr target, loopNames key value target, stmt b]
  | .branch cond yes no => [expr cond, alternative (some yes), alternative no]
  | .switch target cs => [expr target, cases cs]
  | .block b => [stmts b]
  | .ret value => [optional value]
  | .func f => [declared f.name (.func f), function f]
  | .cls c => [declared c.name (.classOf c), classBody c]

/-- The parts of a piece of code, in the order in which typing goes through them. -/
def parts : Code → List Code
  | expr e => ofKind e.kind
  | optional e => e.toList.map expr
  | exprs es => es.map expr
  | arguments as => as.map fun a => expr a.value
  | entries es => es.flatMap fun e => [expr e.key, expr e.value]
  | cases cs => cs.map arm
  | arm c => [optional c.condition, stmts c.body]
  | stmt x => ofStmtKind x.kind
  | stmts xs => xs.map stmt
  | alternative x | body x => x.toList.map stmt
  | function f => [exprs f.attributes, params f.params, body f.body]
  | params ps => ps.map param
  | param p => [typed p.type, optional p.default]
  | classBody c => [self c, exprs c.attributes, members c.members]
  | members ms => ms.flatMap fun m => [exprs m.attributes, memberKind m.kind]
  | memberKind (.use _) => []
  | memberKind (.field _ init) => [optional init]
  | memberKind (.property _ getter setter) => [accessor getter, accessor setter]
  | memberKind (.method f) => [function f]
  | accessor f => f.toList.map function
  | typed _ | loopNames _ _ _ | caught _ _ | self _ | declared _ _ => []

theorem ofKind_get {target field : Expr} (computed : field.ident? = none) :
    ofKind (.get target field) = [expr target, expr field] := by
  obtain ⟨_, _, kind⟩ := field
  cases kind with
  | ident _ => simp [Expr.ident?] at computed
  | _ => rfl

theorem ofKind_set {target field value : Expr} (computed : field.ident? = none) :
    ofKind (.set target field value) = [expr target, expr field, expr value] := by
  obtain ⟨_, _, kind⟩ := field
  cases kind with
  | ident _ => simp [Expr.ident?] at computed
  | _ => rfl

noncomputable def size : Code → Nat
  | expr e => sizeOf e
  | optional e => sizeOf e
  | exprs es => sizeOf es
  | arguments as => sizeOf as
  | entries es => sizeOf es
  | cases cs => sizeOf cs
  | arm c => sizeOf c
  | stmt x => sizeOf x
  | stmts xs => sizeOf xs
  | alternative x | body x => sizeOf x
  | function f => sizeOf f
  | params ps => sizeOf ps
  | param p => sizeOf p
  | classBody c => sizeOf c
  | members ms => sizeOf ms
  | memberKind kind => sizeOf kind
  | accessor f => sizeOf f
  | typed _ | loopNames _ _ _ | caught _ _ | self _ | declared _ _ => 0

theorem size_ofKind {kind : ExprKind} {d : Code} (h : d ∈ ofKind kind) : d.size < sizeOf kind := by
  unfold ofKind at h
  split at h <;> simp only [List.mem_cons, List.not_mem_nil, or_false] at h
  all_goals
    rcases h with rfl | rfl | rfl <;> simp [size] <;> omega

theorem size_ofStmtKind {kind : StmtKind} {d : Code} (h : d ∈ ofStmtKind kind) : d.size < sizeOf kind := by
  cases kind with
  | branch cond yes no =>
    obtain ⟨⟩ := cond
    simp only [ofStmtKind, List.mem_cons, List.not_mem_nil, or_false] at h
    rcases h with rfl | rfl | rfl <;> simp [size] <;> omega
  | use _ _ _ | global _ => cases h
  | _ =>
    simp only [ofStmtKind, List.mem_cons, List.not_mem_nil, or_false] at h
    rcases h with rfl | rfl | rfl <;> simp [size] <;> omega

theorem size_lt {c d : Code} (h : d ∈ c.parts) : d.size < c.size := by
  cases c with
  | expr e =>
    obtain ⟨id, pos, kind⟩ := e
    have : _ < sizeOf kind := size_ofKind h
    change d.size < sizeOf (Expr.mk id pos kind)
    simp only [Expr.mk.sizeOf_spec]
    omega
  | stmt x =>
    obtain ⟨pos, kind⟩ := x
    have : _ < sizeOf kind := size_ofStmtKind h
    change d.size < sizeOf (Stmt.mk pos kind)
    simp only [Stmt.mk.sizeOf_spec]
    omega
  | exprs xs | arguments xs | cases xs | stmts xs | params xs =>
    obtain ⟨⟨⟩, mem, rfl⟩ := List.mem_map.mp h
    have := List.sizeOf_lt_of_mem mem
    simp [size] at this ⊢
    omega
  | entries xs | members xs =>
    obtain ⟨x, mem, h⟩ := List.mem_flatMap.mp h
    have := List.sizeOf_lt_of_mem mem
    obtain ⟨⟩ := x
    simp only [List.mem_cons, List.not_mem_nil, or_false] at h
    rcases h with rfl | rfl <;> simp [size] at this ⊢ <;> omega
  | optional x | alternative x | body x | accessor x =>
    obtain ⟨x, mem, rfl⟩ := List.mem_map.mp h
    rw [Option.mem_toList] at mem
    subst mem
    simp [size]
  | function x | arm x | param x | classBody x =>
    obtain ⟨⟩ := x
    simp only [parts, List.mem_cons, List.not_mem_nil, or_false] at h
    rcases h with rfl | rfl | rfl <;> simp [size] <;> omega
  | memberKind kind =>
    cases kind <;> simp only [parts, List.mem_cons, List.not_mem_nil, or_false] at h
    all_goals
      rcases h with rfl | rfl <;> simp [size] <;> omega
  | typed _ | loopNames _ _ _ | caught _ _ | self _ | declared _ _ => cases h

/-- Induction on the parts of code. -/
theorem partsInduction {P : Code → Prop} (step : ∀ c, (∀ d ∈ c.parts, P d) → P c) (c : Code) : P c := by
  induction size : c.size using Nat.strongRecOn generalizing c with
  | ind n ih => exact step c fun d mem => ih d.size (size ▸ size_lt mem) d rfl

end Code

end PhaseLang
