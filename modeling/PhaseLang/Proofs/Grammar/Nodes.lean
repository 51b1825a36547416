import PhaseLang.Tree
import Mathlib.Tactic.Tauto

/-!
# The expressions of a tree

`Nodes.ofExpr` and its companions list the expressions of a tree, each after its parts. What
the grammar puts into a tree twice is listed once: the target of a compound assignment, and
the attributes of a method, which are those of its member.

`Built lo hi es` says of such a list what the grammar promises: no two expressions have one
id, all ids are from `lo` to `hi`, and operands stand where their operators can take them.
-/

namespace PhaseLang

/-! ## Tiers -/

/-- The rule of the grammar that reads the operator, from the loosest to the tightest. -/
def BinaryOp.tier : BinaryOp → Nat
  | .eq | .notEq => 3
  | .greater | .greaterEq | .less | .lessEq => 4
  | .add | .sub | .concat => 5
  | .mul | .div => 6

def LogicalOp.tier : LogicalOp → Nat
  | .or => 1
  | .and => 2

def ExprKind.tier : ExprKind → Nat
  | .assign _ _ | .set _ _ _ | .indexSet _ _ _ => 0
  | .logical _ op _ => op.tier
  | .isType _ _ => 4
  | .binary _ op _ => op.tier
  | .range _ _ => 7
  | .unary _ _ _ => 8
  | _ => 9

/-- Whether the expression is a string literal or a sum that starts with one. -/
def ExprKind.isTemplate : ExprKind → Bool
  | .literal (.string _) => true
  | .binary ⟨_, _, kind⟩ .add _ => kind.isTemplate
  | _ => false

/-- Whether the rule of a tier can give the expression. Interpolated strings are sums that
stand wherever a literal does. -/
def Expr.StandsAt (tier : Nat) (e : Expr) : Prop := tier ≤ e.kind.tier ∨ e.kind.isTemplate = true

theorem ExprKind.isTemplate_cases {kind : ExprKind} (h : kind.isTemplate = true) :
    (∃ text, kind = .literal (.string text)) ∨ ∃ lhs rhs, kind = .binary lhs .add rhs := by
  unfold isTemplate at h
  split at h
  · exact .inl ⟨_, rfl⟩
  · exact .inr ⟨_, _, rfl⟩
  · cases h

theorem Expr.StandsAt.mono {k n : Nat} {e : Expr} (h : e.StandsAt n) (hk : k ≤ n) : e.StandsAt k :=
  h.imp_left (Nat.le_trans hk)

/-- Operands stand where their operator takes them, and what is called or has a member or an
item taken is a primary expression. What follows a `+` may be anything, since `a += b` is read as
a sum. -/
def ExprKind.Layered : ExprKind → Prop
  | .binary lhs op rhs => lhs.StandsAt op.tier ∧ (op = .add ∨ rhs.StandsAt (op.tier + 1))
  | .logical lhs op rhs => lhs.StandsAt op.tier ∧ rhs.StandsAt (op.tier + 1)
  | .isType operand _ => operand.StandsAt 5
  | .range lower upper => lower.StandsAt 7 ∧ upper.StandsAt 8
  | .unary _ operand true => operand.StandsAt 8
  | .unary op operand false => operand.StandsAt 9 ∧ (op = .increment ∨ op = .decrement)
  | .call target _ | .get target _ | .set target _ _ | .indexGet target _ | .indexSet target _ _ =>
    target.StandsAt 9
  | _ => True

/-! ## Nodes -/

/-- Whether a value adds something to a piece of code, as the value of `code += x` does. -/
def Expr.AddsTo (code : ExprKind) (value : Expr) : Prop :=
  ∃ id pos more, value.kind = .binary ⟨id, pos, code⟩ .add more

namespace Nodes

noncomputable section
open scoped Classical

mutual

def ofExpr : Expr → List Expr
  | ⟨id, pos, kind⟩ => ofKind kind ++ [⟨id, pos, kind⟩]

def ofKind : ExprKind → List Expr
  | .attribute _ args => ofArgs args
  | .assign _ e | .unary _ e _ | .isType e _ | .group e => ofExpr e
  | .binary a _ b | .logical a _ b | .range a b | .get a b => ofExpr a ++ ofExpr b
  | .call callee args => ofExpr callee ++ ofArgs args
  | .set target field value =>
    (if value.AddsTo (.get target field) then [] else ofExpr target ++ ofExpr field) ++ ofExpr value
  | .indexGet target index => ofExpr target ++ ofOption index
  | .indexSet target index value =>
    (if value.AddsTo (.indexGet target index) then [] else ofExpr target ++ ofOption index) ++
      ofExpr value
  | .ternary cond yes no => ofExpr cond ++ ofExpr yes ++ ofExpr no
  | .list items _ => ofExprs items
  | .map entries _ => ofEntries entries
  | .lambda f => ofFunc f
  | .choose target cases => ofExpr target ++ ofCases cases
  | .super _ | .path _ | .this | .static | .literal _ | .ident _ => []

def ofOption : Option Expr → List Expr
  | none => []
  | some e => ofExpr e

def ofExprs : List Expr → List Expr
  | [] => []
  | e :: es => ofExpr e ++ ofExprs es

def ofArgs : List Arg → List Expr
  | [] => []
  | ⟨_, e⟩ :: as => ofExpr e ++ ofArgs as

def ofEntries : List Entry → List Expr
  | [] => []
  | ⟨key, value⟩ :: es => ofExpr key ++ ofExpr value ++ ofEntries es

def ofCases : List Case → List Expr
  | [] => []
  | ⟨condition, body⟩ :: cs => ofOption condition ++ ofStmts body ++ ofCases cs

def ofStmt : Stmt → List Expr
  | ⟨_, kind⟩ => ofStmtKind kind

def ofStmtKind : StmtKind → List Expr
  | .expr e | .raise e => ofExpr e
  | .use _ _ attributes => ofExprs attributes
  | .inNamespace _ decls => ofStmts decls
  | .var _ _ init => ofOption init
  | .global _ => []
  | .attempt body handlers => ofStmt body ++ ofStmts handlers
  | .handler _ _ body => ofStmt body
  | .loop e body _ | .forIn _ _ e body => ofExpr e ++ ofStmt body
  | .branch cond yes no => ofExpr cond ++ ofStmt yes ++ ofBody no
  | .switch target cases => ofExpr target ++ ofCases cases
  | .block stmts => ofStmts stmts
  | .ret value => ofOption value
  | .func f => ofFunc f
  | .cls c => ofClass c

def ofStmts : List Stmt → List Expr
  | [] => []
  | s :: ss => ofStmt s ++ ofStmts ss

def ofBody : Option Stmt → List Expr
  | none => []
  | some s => ofStmt s

def ofFunc : Func → List Expr
  | ⟨_, params, body, _, attributes, _⟩ => ofExprs attributes ++ ofParams params ++ ofBody body

def ofParams : List Param → List Expr
  | [] => []
  | ⟨_, _, default, _, _⟩ :: ps => ofOption default ++ ofParams ps

def ofClass : Class → List Expr
  | ⟨_, _, _, _, members, attributes, _⟩ => ofExprs attributes ++ ofMembers members

def ofMembers : List Member → List Expr
  | [] => []
  | m :: ms => ofMember m ++ ofMembers ms

def ofMember : Member → List Expr
  | ⟨_, kind, _, attributes, _⟩ => ofExprs attributes ++ ofMemberKind attributes kind

def ofMemberKind (attributes : List Expr) : MemberKind → List Expr
  | .use _ => []
  | .field _ init => ofOption init
  | .property _ getter setter => ofAccessor getter ++ ofAccessor setter
  | .method ⟨_, params, body, _, own, _⟩ =>
    (if own = attributes then [] else ofExprs own) ++ ofParams params ++ ofBody body

def ofAccessor : Option Func → List Expr
  | none => []
  | some f => ofFunc f

end
end

attribute [simp] ofExpr ofKind ofOption ofExprs ofArgs ofEntries ofCases ofStmt ofStmtKind ofStmts
  ofBody ofFunc ofParams ofClass ofMembers ofMember ofMemberKind ofAccessor

theorem mem_ofExpr_self (e : Expr) : e ∈ ofExpr e := by
  obtain ⟨id, pos, kind⟩ := e
  simp

theorem ofExprs_eq : ∀ es : List Expr, ofExprs es = es.flatMap ofExpr := eq_flatMap_of_cons rfl fun _ _ => rfl

theorem ofArgs_eq : ∀ as : List Arg, ofArgs as = as.flatMap fun a => ofExpr a.value :=
  eq_flatMap_of_cons rfl fun x _ => by cases x; rfl

theorem ofEntries_eq : ∀ es : List Entry,
    ofEntries es = es.flatMap fun e => ofExpr e.key ++ ofExpr e.value :=
  eq_flatMap_of_cons rfl fun x _ => by cases x; rfl

theorem ofCases_eq : ∀ cs : List Case,
    ofCases cs = cs.flatMap fun c => ofOption c.condition ++ ofStmts c.body :=
  eq_flatMap_of_cons rfl fun x _ => by cases x; rfl

theorem ofStmts_eq : ∀ ss : List Stmt, ofStmts ss = ss.flatMap ofStmt := eq_flatMap_of_cons rfl fun _ _ => rfl

theorem ofParams_eq : ∀ ps : List Param, ofParams ps = ps.flatMap fun p => ofOption p.default :=
  eq_flatMap_of_cons rfl fun x _ => by cases x; rfl

theorem ofMembers_eq : ∀ ms : List Member, ofMembers ms = ms.flatMap ofMember :=
  eq_flatMap_of_cons rfl fun _ _ => rfl

@[simp] theorem ofStmt_toBlock (s : Stmt) : ofStmt s.toBlock = ofStmt s := by
  unfold Stmt.toBlock
  split
  · rfl
  · simp

open scoped Classical in
/-- In `t += e` the target stands only in the sum that is the value. -/
theorem compound_subset (target : ExprKind) (value : Expr) :
    ofKind target ++ ofExpr value ⊆ (if value.AddsTo target then [] else ofKind target) ++ ofExpr value := by
  split
  case isFalse => exact List.Subset.refl _
  case isTrue h =>
    obtain ⟨id, pos, more, hv⟩ := h
    obtain ⟨vid, vpos, kind⟩ := value
    obtain rfl : kind = _ := hv
    intro e
    simp only [ofExpr, ofKind, List.nil_append, List.mem_append]
    tauto

end Nodes

/-! ## Built trees -/

/-- What the grammar promises of the expressions it has read, if ids were counted from `lo`
to `hi`. -/
structure Built (lo hi : Nat) (es : List Expr) : Prop where
  ordered : lo ≤ hi
  distinct : (es.map (·.id)).Nodup
  within : ∀ e ∈ es, lo ≤ e.id ∧ e.id < hi
  layered : ∀ e ∈ es, e.kind.Layered

namespace Built

variable {lo hi : Nat} {es es' : List Expr}

theorem nil (h : lo ≤ hi) : Built lo hi [] := ⟨h, by simp, by simp, by simp⟩

theorem perm (h : Built lo hi es) (p : es.Perm es') : Built lo hi es' where
  ordered := h.ordered
  distinct := (p.map _).nodup_iff.mp h.distinct
  within e he := h.within e (p.mem_iff.mpr he)
  layered e he := h.layered e (p.mem_iff.mpr he)

theorem sublist (h : Built lo hi es) (s : es'.Sublist es) : Built lo hi es' where
  ordered := h.ordered
  distinct := h.distinct.sublist (s.map _)
  within e he := h.within e (s.subset he)
  layered e he := h.layered e (s.subset he)

theorem mono {hi' : Nat} (h : Built lo hi es) (le : hi ≤ hi') : Built lo hi' es where
  ordered := Nat.le_trans h.ordered le
  distinct := h.distinct
  within e he := ⟨(h.within e he).1, Nat.lt_of_lt_of_le (h.within e he).2 le⟩
  layered := h.layered

theorem snoc {e : Expr} (h : Built lo hi es) (id : e.id = hi) (layered : e.kind.Layered) :
    Built lo (hi + 1) (es ++ [e]) where
  ordered := Nat.le_succ_of_le h.ordered
  distinct := by
    simp only [List.map_append, List.map_cons, List.map_nil]
    refine List.nodup_append.mpr ⟨h.distinct, by simp, fun i hi j hj => ?_⟩
    obtain ⟨e', he', rfl⟩ := List.mem_map.mp hi
    have := h.within e' he'
    simp only [List.mem_singleton] at hj
    omega
  within e' he' := by
    rcases List.mem_append.mp he' with he' | he'
    · have := h.within e' he'; omega
    · have := h.ordered
      obtain rfl := List.mem_singleton.mp he'
      omega
  layered e' he' := by
    rcases List.mem_append.mp he' with he' | he'
    · exact h.layered e' he'
    · obtain rfl := List.mem_singleton.mp he'
      exact layered

end Built

end PhaseLang
