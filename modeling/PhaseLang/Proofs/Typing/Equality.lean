import PhaseLang.Typing.Type

/-!
# Trees are the same as themselves
-/

namespace PhaseLang

mutual

theorem Expr.same_self : ∀ e : Expr, e.same e = true
  | ⟨_, _, kind⟩ => by simp [Expr.same, kind.same_self]

theorem ExprKind.same_self (kind : ExprKind) : kind.same kind = true := by
  cases kind <;> simp [ExprKind.same, Expr.same_self, Func.same_self, sameOption_self, sameExprs_self, sameArgs_self,
    sameEntries_self, sameCases_self]

theorem sameOption_self : ∀ e : Option Expr, sameOption e e = true
  | none => rfl
  | some e => e.same_self

theorem sameExprs_self : ∀ es : List Expr, sameExprs es es = true
  | [] => rfl
  | e :: es => by simp [sameExprs, e.same_self, sameExprs_self es]

theorem sameArgs_self : ∀ as : List Arg, sameArgs as as = true
  | [] => rfl
  | ⟨_, e⟩ :: as => by simp [sameArgs, e.same_self, sameArgs_self as]

theorem sameEntries_self : ∀ es : List Entry, sameEntries es es = true
  | [] => rfl
  | ⟨key, value⟩ :: es => by simp [sameEntries, key.same_self, value.same_self, sameEntries_self es]

theorem sameCases_self : ∀ cs : List Case, sameCases cs cs = true
  | [] => rfl
  | ⟨condition, body⟩ :: cs => by
    simp [sameCases, sameOption_self condition, sameStmts_self body, sameCases_self cs]

theorem Stmt.same_self : ∀ s : Stmt, s.same s = true
  | ⟨_, kind⟩ => by simp [Stmt.same, kind.same_self]

theorem StmtKind.same_self (kind : StmtKind) : kind.same kind = true := by
  cases kind <;> simp [StmtKind.same, Expr.same_self, Stmt.same_self, Func.same_self, Class.same_self, sameOption_self,
    sameExprs_self, sameStmts_self, sameBody_self, sameCases_self]

theorem sameStmts_self : ∀ ss : List Stmt, sameStmts ss ss = true
  | [] => rfl
  | s :: ss => by simp [sameStmts, s.same_self, sameStmts_self ss]

theorem sameBody_self : ∀ s : Option Stmt, sameBody s s = true
  | none => rfl
  | some s => s.same_self

theorem Func.same_self : ∀ f : Func, f.same f = true
  | ⟨_, ps, body, _, attributes, _⟩ => by
    simp [Func.same, sameParams_self ps, sameBody_self body, sameExprs_self attributes]

theorem sameAccessor_self : ∀ f : Option Func, sameAccessor f f = true
  | none => rfl
  | some f => f.same_self

theorem sameParams_self : ∀ ps : List Param, sameParams ps ps = true
  | [] => rfl
  | ⟨_, _, default, _, _⟩ :: ps => by simp [sameParams, sameOption_self default, sameParams_self ps]

theorem Class.same_self : ∀ c : Class, c.same c = true
  | ⟨_, _, _, _, members, attributes, _⟩ => by
    simp [Class.same, sameMembers_self members, sameExprs_self attributes]

theorem sameMembers_self : ∀ ms : List Member, sameMembers ms ms = true
  | [] => rfl
  | ⟨_, kind, _, attributes, _⟩ :: ms => by
    simp [sameMembers, kind.same_self, sameExprs_self attributes, sameMembers_self ms]

theorem MemberKind.same_self (kind : MemberKind) : kind.same kind = true := by
  cases kind <;> simp [MemberKind.same, sameOption_self, sameAccessor_self, Func.same_self]

end

@[simp] theorem Ty.same_self (t : Ty) : t.same t = true := by
  induction t <;> simp_all [Ty.same, Func.same_self, Class.same_self]

end PhaseLang
