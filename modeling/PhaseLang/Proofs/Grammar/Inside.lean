import PhaseLang.Tree

/-!
# The classes inside a tree

`Inside.ofExpr` and its companions list the classes that are declared anywhere inside a tree, each
before those inside it. What stands in a tree twice is listed twice.
-/

namespace PhaseLang

namespace Inside

mutual

def ofExpr : Expr → List Class
  | ⟨_, _, kind⟩ => ofKind kind

def ofKind : ExprKind → List Class
  | .attribute _ args => ofArgs args
  | .assign _ e | .unary _ e _ | .isType e _ | .group e => ofExpr e
  | .binary a _ b | .logical a _ b | .range a b | .get a b => ofExpr a ++ ofExpr b
  | .call callee args => ofExpr callee ++ ofArgs args
  | .indexGet target index => ofExpr target ++ ofOption index
  | .indexSet target index value => ofExpr target ++ ofOption index ++ ofExpr value
  | .set a b c | .ternary a b c => ofExpr a ++ ofExpr b ++ ofExpr c
  | .list items _ => ofExprs items
  | .map entries _ => ofEntries entries
  | .lambda f => ofFunc f
  | .choose target cases => ofExpr target ++ ofCases cases
  | .super _ | .path _ | .this | .static | .literal _ | .ident _ => []

def ofOption : Option Expr → List Class
  | none => []
  | some e => ofExpr e

def ofExprs : List Expr → List Class
  | [] => []
  | e :: es => ofExpr e ++ ofExprs es

def ofArgs : List Arg → List Class
  | [] => []
  | ⟨_, e⟩ :: as => ofExpr e ++ ofArgs as

def ofEntries : List Entry → List Class
  | [] => []
  | ⟨key, value⟩ :: es => ofExpr key ++ ofExpr value ++ ofEntries es

def ofCases : List Case → List Class
  | [] => []
  | ⟨condition, body⟩ :: cs => ofOption condition ++ ofStmts body ++ ofCases cs

def ofStmt : Stmt → List Class
  | ⟨_, kind⟩ => ofStmtKind kind

def ofStmtKind : StmtKind → List Class
  | .expr e | .raise e => ofExpr e
  | .use _ _ attributes => ofExprs attributes
  | .inNamespace _ decls => ofStmts decls
  | .var _ _ init => ofOption init
  | .global _ => []
  | .attempt body handlers => ofStmt body ++ ofStmts handlers
  | .handler _ _ body => ofStmt body
  | .loop e body _ | .forIn _ _ e body => ofExpr e ++ ofStmt body
  | .branch cond yes no => ofExpr cond ++ ofStmt yes ++ ofBody no
  | .switch target cases => ofExpr target ++ ofCases cases
  | .block stmts => ofStmts stmts
  | .ret value => ofOption value
  | .func f => ofFunc f
  | .cls c => ofClass c

def ofStmts : List Stmt → List Class
  | [] => []
  | s :: ss => ofStmt s ++ ofStmts ss

def ofBody : Option Stmt → List Class
  | none => []
  | some s => ofStmt s

def ofFunc : Func → List Class
  | ⟨_, params, body, _, attributes, _⟩ => ofExprs attributes ++ ofParams params ++ ofBody body

def ofParams : List Param → List Class
  | [] => []
  | ⟨_, _, default, _, _⟩ :: ps => ofOption default ++ ofParams ps

def ofClass : Class → List Class
  | ⟨name, kind, parent, interfaces, members, attributes, pos⟩ =>
    ⟨name, kind, parent, interfaces, members, attributes, pos⟩ :: (ofExprs attributes ++ ofMembers members)

def ofMembers : List Member → List Class
  | [] => []
  | m :: ms => ofMember m ++ ofMembers ms

def ofMember : Member → List Class
  | ⟨_, kind, _, attributes, _⟩ => ofExprs attributes ++ ofMemberKind kind

def ofMemberKind : MemberKind → List Class
  | .use _ => []
  | .field _ init => ofOption init
  | .property _ getter setter => ofAccessor getter ++ ofAccessor setter
  | .method f => ofFunc f

def ofAccessor : Option Func → List Class
  | none => []
  | some f => ofFunc f

end

attribute [simp, grind =] ofExpr ofKind ofOption ofExprs ofArgs ofEntries ofCases ofStmt ofStmtKind ofStmts ofBody
  ofFunc ofParams ofClass ofMembers ofMember ofMemberKind ofAccessor

theorem ofExprs_eq (es : List Expr) : ofExprs es = es.flatMap ofExpr := eq_flatMap_of_cons rfl (fun _ _ => rfl) es

theorem ofArgs_eq (as : List Arg) : ofArgs as = as.flatMap fun a => ofExpr a.value :=
  eq_flatMap_of_cons rfl (fun x _ => by cases x; rfl) as

theorem ofEntries_eq (es : List Entry) : ofEntries es = es.flatMap fun e => ofExpr e.key ++ ofExpr e.value :=
  eq_flatMap_of_cons rfl (fun x _ => by cases x; rfl) es

theorem ofCases_eq (cs : List Case) : ofCases cs = cs.flatMap fun c => ofOption c.condition ++ ofStmts c.body :=
  eq_flatMap_of_cons rfl (fun x _ => by cases x; rfl) cs

theorem ofStmts_eq (ss : List Stmt) : ofStmts ss = ss.flatMap ofStmt := eq_flatMap_of_cons rfl (fun _ _ => rfl) ss

theorem ofParams_eq (ps : List Param) : ofParams ps = ps.flatMap fun p => ofOption p.default :=
  eq_flatMap_of_cons rfl (fun x _ => by cases x; rfl) ps

theorem ofMembers_eq (ms : List Member) : ofMembers ms = ms.flatMap ofMember :=
  eq_flatMap_of_cons rfl (fun _ _ => rfl) ms

theorem mem_ofClass {x y : Class} : y ∈ ofClass x ↔ y = x ∨ y ∈ ofExprs x.attributes ++ ofMembers x.members := by
  cases x
  simp

@[simp, grind =] theorem ofStmt_toBlock (s : Stmt) : ofStmt s.toBlock = ofStmt s := by
  unfold Stmt.toBlock
  split
  · rfl
  · simp

end Inside

end PhaseLang
