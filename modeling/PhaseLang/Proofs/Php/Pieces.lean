import PhaseLang.Php.Tree

/-!
# The expressions of a PHP tree

`Pieces.ofStmts` and its companions list the expressions that are written for a tree, inner ones
included. `Every F` says that each of them has a property.
-/

namespace PhaseLang.Php

namespace Pieces

mutual

def ofExpr : Expr → List Expr
  | .var name => [.var name]
  | .this => [.this]
  | .static => [.static]
  | .name text => [.name text]
  | .parent method => [.parent method]
  | .literal value => [.literal value]
  | .functionRef name => [.functionRef name]
  | .list items => .list items :: ofExprs items
  | .map entries => .map entries :: ofEntries entries
  | .group inner => .group inner :: ofExpr inner
  | .assign target value => .assign target value :: (ofExpr target ++ ofExpr value)
  | .binary lhs op rhs => .binary lhs op rhs :: (ofExpr lhs ++ ofExpr rhs)
  | .before op operand => .before op operand :: ofExpr operand
  | .after operand op => .after operand op :: ofExpr operand
  | .ternary cond yes no => .ternary cond yes no :: (ofExpr cond ++ ofExpr yes ++ ofExpr no)
  | .instanceOf operand type => .instanceOf operand type :: ofExpr operand
  | .call callee args => .call callee args :: (ofExpr callee ++ ofArgs args)
  | .create cls args => .create cls args :: (ofExpr cls ++ ofArgs args)
  | .attribute type args => .attribute type args :: ofArgs args
  | .member target name => .member target name :: ofExpr target
  | .computed target field => .computed target field :: (ofExpr target ++ ofExpr field)
  | .classMember target name => .classMember target name :: ofExpr target
  | .classVar target name => .classVar target name :: ofExpr target
  | .index target index => .index target index :: (ofExpr target ++ ofOption index)
  | .spread inner => .spread inner :: ofExpr inner
  | .raise inner => .raise inner :: ofExpr inner
  | .closure params captures result body =>
    .closure params captures result body :: (ofParams params ++ ofStmts body)
  | .choose target arms => .choose target arms :: (ofExpr target ++ ofArms arms)

def ofOption : Option Expr → List Expr
  | none => []
  | some e => ofExpr e

def ofExprs : List Expr → List Expr
  | [] => []
  | e :: es => ofExpr e ++ ofExprs es

def ofArgs : List Arg → List Expr
  | [] => []
  | ⟨_, e⟩ :: as => ofExpr e ++ ofArgs as

def ofEntries : List Entry → List Expr
  | [] => []
  | ⟨key, value⟩ :: es => ofExpr key ++ ofExpr value ++ ofEntries es

def ofArms : List Arm → List Expr
  | [] => []
  | ⟨condition, value⟩ :: as => ofOption condition ++ ofExpr value ++ ofArms as

def ofParams : List Param → List Expr
  | [] => []
  | ⟨_, _, default, _⟩ :: ps => ofOption default ++ ofParams ps

def ofStmt : Stmt → List Expr
  | .imports _ | .global _ => []
  | .expr e => ofExpr e
  | .inNamespace _ decls => ofStmts decls
  | .attempt body handlers => ofStmt body ++ ofStmts handlers
  | .handler _ _ body => ofStmt body
  | .whileLoop cond body => ofExpr cond ++ ofStmt body
  | .doLoop body cond => ofStmt body ++ ofExpr cond
  -- The loop is written with a comparison of its own.
  | .forRange key lower upper body =>
    .binary (.var key) .less upper :: (ofExpr lower ++ ofExpr upper ++ ofStmt body)
  | .forEach target _ _ body => ofExpr target ++ ofStmt body
  | .branch cond yes no => ofExpr cond ++ ofStmt yes ++ ofAlternative no
  | .switch target cases => ofExpr target ++ ofCases cases
  | .block stmts => ofStmts stmts
  | .ret value => ofOption value
  | .func attributes ⟨_, params, _, body⟩ => ofExprs attributes ++ ofParams params ++ ofStmts body
  | .cls c => ofClass c

def ofStmts : List Stmt → List Expr
  | [] => []
  | s :: ss => ofStmt s ++ ofStmts ss

def ofAlternative : Option Stmt → List Expr
  | none => []
  | some s => ofStmt s

def ofCases : List Case → List Expr
  | [] => []
  | ⟨condition, body⟩ :: cs => ofOption condition ++ ofStmts body ++ ofCases cs

def ofClass : Class → List Expr
  | ⟨attributes, _, _, _, _, _, members, afterwards⟩ =>
    ofExprs attributes ++ ofMembers members ++ ofStmts afterwards

def ofMembers : List Member → List Expr
  | [] => []
  | m :: ms => ofMember m ++ ofMembers ms

def ofMember : Member → List Expr
  | ⟨attributes, kind⟩ => ofExprs attributes ++ ofMemberKind kind

def ofMemberKind : MemberKind → List Expr
  | .use _ => []
  | .field _ init => ofOption init
  | .methods methods => ofMethods methods

def ofMethods : List Method → List Expr
  | [] => []
  | ⟨_, _, params, _, body⟩ :: ms => ofParams params ++ ofCode body ++ ofMethods ms

def ofCode : Option (List Stmt) → List Expr
  | none => []
  | some stmts => ofStmts stmts

end

attribute [simp] ofExpr ofOption ofExprs ofArgs ofEntries ofArms ofParams ofStmt ofStmts
  ofAlternative ofCases ofClass ofMembers ofMember ofMemberKind ofMethods ofCode

theorem ofOption_eq (e : Option Expr) : ofOption e = e.toList.flatMap ofExpr := by cases e <;> simp

theorem ofAlternative_eq (s : Option Stmt) : ofAlternative s = s.toList.flatMap ofStmt := by cases s <;> simp

theorem ofCode_eq (body : Option (List Stmt)) : ofCode body = body.toList.flatMap ofStmts := by cases body <;> simp

theorem ofExprs_eq : ∀ es, ofExprs es = es.flatMap ofExpr := eq_flatMap_of_cons rfl fun _ _ => rfl

theorem ofArgs_eq : ∀ as, ofArgs as = as.flatMap fun a => ofExpr a.value :=
  eq_flatMap_of_cons rfl fun a _ => by cases a; rfl

theorem ofEntries_eq : ∀ es, ofEntries es = es.flatMap fun e => ofExpr e.key ++ ofExpr e.value :=
  eq_flatMap_of_cons rfl fun e _ => by cases e; rfl

theorem ofArms_eq : ∀ as, ofArms as = as.flatMap fun a => ofOption a.condition ++ ofExpr a.value :=
  eq_flatMap_of_cons rfl fun a _ => by cases a; rfl

theorem ofParams_eq : ∀ ps, ofParams ps = ps.flatMap fun p => ofOption p.default :=
  eq_flatMap_of_cons rfl fun p _ => by cases p; rfl

theorem ofStmts_eq : ∀ ss, ofStmts ss = ss.flatMap ofStmt := eq_flatMap_of_cons rfl fun _ _ => rfl

theorem ofCases_eq : ∀ cs, ofCases cs = cs.flatMap fun c => ofOption c.condition ++ ofStmts c.body :=
  eq_flatMap_of_cons rfl fun c _ => by cases c; rfl

theorem ofMembers_eq : ∀ ms, ofMembers ms = ms.flatMap ofMember := eq_flatMap_of_cons rfl fun _ _ => rfl

theorem ofMethods_eq : ∀ ms, ofMethods ms = ms.flatMap fun m => ofParams m.params ++ ofCode m.body :=
  eq_flatMap_of_cons rfl fun m _ => by cases m; rfl

end Pieces

def Every (F : Expr → Prop) (ps : List Expr) : Prop := ∀ p ∈ ps, F p

section
variable {F : Expr → Prop}

@[simp] theorem every_nil : Every F [] := by simp [Every]

@[simp] theorem every_cons {p : Expr} {ps : List Expr} : Every F (p :: ps) ↔ F p ∧ Every F ps := by
  simp [Every]

@[simp] theorem every_append {ps ps' : List Expr} : Every F (ps ++ ps') ↔ Every F ps ∧ Every F ps' := by
  simp [Every, or_imp, forall_and]

theorem every_flatMap {α : Type} {f : α → List Expr} {xs : List α} :
    Every F (xs.flatMap f) ↔ ∀ x ∈ xs, Every F (f x) := by
  simp only [Every, List.mem_flatMap]
  exact ⟨fun h x hx p hp => h p ⟨x, hx, hp⟩, fun h p ⟨x, hx, hp⟩ => h x hx p hp⟩

end

end PhaseLang.Php
