import PhaseLang.Captures
import PhaseLang.Proofs.Grammar.Citations
import PhaseLang.Proofs.Redraw
import PhaseLang.Proofs.Typing.Visits

/-!
# Names and captures of a redrawn program

A redrawn program imports the functions that the program imports. If a name stands for a function in
both or in neither, the closures of the two capture the same.
-/

namespace PhaseLang

variable {D : Redraw}

/-! ## Imported functions -/

mutual

theorem Stmt.importedFunctions_redraw (lawful : D.Lawful) :
    ∀ s : Stmt, (D.stmt s).importedFunctions = s.importedFunctions
  | ⟨_, kind⟩ => by
    rw [lawful.stmt]
    cases kind with
    | inNamespace path decls => exact PhaseLang.importedFunctions_redraw lawful decls
    | _ => rfl

theorem importedFunctions_redraw (lawful : D.Lawful) :
    ∀ ss : List Stmt, importedFunctions (ss.map D.stmt) = importedFunctions ss
  | [] => rfl
  | s :: ss => congrArg₂ (· ++ ·) (Stmt.importedFunctions_redraw lawful s) (importedFunctions_redraw lawful ss)

end

/-! ## Captures -/

namespace Captures

/-- The redrawing is lawful, and the names that are visited stand for functions in both programs or in neither. -/
structure Kindred (D : Redraw) (names names' : FunctionNames) (Q : Visit → Prop) : Prop where
  lawful : D.Lawful
  contains : ∀ {e : Expr} {p s name}, Q ⟨D.expr e, p, s⟩ → e.kind = .ident name →
    names'.contains (D.id e.id) name = names.contains e.id name

variable {names names' : FunctionNames} {Q : Visit → Prop}

theorem concat_congr {as bs cs ds : List Mention} (h : as = bs) (h' : cs = ds) : as ++ cs = bs ++ ds := congrArg₂ _ h h'

mutual

theorem ofExpr_redraw (k : Kindred D names names' Q) {p s} : ∀ e : Expr, Fits Q (Visits.ofExpr p s (D.expr e)) →
    ofExpr names' (D.expr e) = ofExpr names e
  | ⟨id, pos, kind⟩, h => by
    rw [k.lawful.expr] at h ⊢
    have inner := ofKind_redraw k kind h.left
    cases kind with
    | ident name =>
      have known := k.contains (e := ⟨id, pos, .ident name⟩) (by rw [k.lawful.expr]; exact h.right.head) rfl
      simp only [Redraw.exprKind, ofExpr, known]
    | _ => exact inner

theorem ofKind_redraw (k : Kindred D names names' Q) {p s} :
    ∀ kind : ExprKind, Fits Q (Visits.ofKind p s (D.exprKind kind)) →
    ofKind names' (D.exprKind kind) = ofKind names kind
  | .attribute _ args, h => ofArgs_redraw k args h
  | .assign _ e, h => congrArg (· ++ _) (ofExpr_redraw k e h)
  | .unary _ e _, h | .isType e _, h | .group e, h => ofExpr_redraw k e h
  | .binary lhs _ rhs, h | .logical lhs _ rhs, h | .range lhs rhs, h =>
    concat_congr (ofExpr_redraw k lhs h.left) (ofExpr_redraw k rhs h.right)
  | .call callee args, h => concat_congr (ofExpr_redraw k callee h.left) (ofArgs_redraw k args h.right)
  | .get target ⟨id, pos, kind⟩, h => by
    have inner {s : Typing} := ofExpr_redraw k (p := p) (s := s) ⟨id, pos, kind⟩
    rw [Redraw.exprKind, k.lawful.expr] at h ⊢
    rw [k.lawful.expr] at inner
    cases kind with
    | ident name => exact ofExpr_redraw k target h
    | _ => exact concat_congr (ofExpr_redraw k target h.left) (inner h.right)
  | .set target ⟨id, pos, kind⟩ value, h => by
    have inner {s : Typing} := ofExpr_redraw k (p := p) (s := s) ⟨id, pos, kind⟩
    rw [Redraw.exprKind, k.lawful.expr] at h ⊢
    rw [k.lawful.expr] at inner
    cases kind with
    | ident name => exact concat_congr (ofExpr_redraw k target h.left) (ofExpr_redraw k value h.right)
    | _ =>
      refine concat_congr ?_ (ofExpr_redraw k value h.right)
      exact concat_congr (ofExpr_redraw k target h.left.left) (inner h.left.right)
  | .indexGet target index, h => concat_congr (ofExpr_redraw k target h.left) (ofOption_redraw k index h.right)
  | .indexSet target index value, h => by
    refine concat_congr ?_ (ofExpr_redraw k value h.right)
    exact concat_congr (ofExpr_redraw k target h.left.left) (ofOption_redraw k index h.left.right)
  | .ternary cond yes no, h => by
    refine concat_congr ?_ (ofExpr_redraw k no h.right)
    exact concat_congr (ofExpr_redraw k cond h.left.left) (ofExpr_redraw k yes h.left.right)
  | .list items _, h => ofExprs_redraw k items h
  | .map entries _, h => ofEntries_redraw k entries h
  | .lambda f, h => congrArg (fun ms => (Mention.free ms).map Mention.use) (ofFunc_redraw k f h)
  | .choose target cases, h => concat_congr (ofExpr_redraw k target h.left) (ofCases_redraw k cases h.right)
  | .super _, _ | .path _, _ | .this, _ | .static, _ | .literal _, _ | .ident _, _ => rfl

theorem ofOption_redraw (k : Kindred D names names' Q) {p s} :
    ∀ e : Option Expr, Fits Q (Visits.ofOption p s (e.map D.expr)) →
    ofOption names' (e.map D.expr) = ofOption names e
  | none, _ => rfl
  | some e, h => ofExpr_redraw k e h

theorem ofExprs_redraw (k : Kindred D names names' Q) {p s} :
    ∀ es : List Expr, Fits Q (Visits.ofExprs p s (es.map D.expr)) →
    ofExprs names' (es.map D.expr) = ofExprs names es
  | [], _ => rfl
  | e :: es, h => concat_congr (ofExpr_redraw k e h.left) (ofExprs_redraw k es h.right)

theorem ofArgs_redraw (k : Kindred D names names' Q) {p s} :
    ∀ as : List Arg, Fits Q (Visits.ofArgs p s (as.map D.arg)) →
    ofArgs names' (as.map D.arg) = ofArgs names as
  | [], _ => rfl
  | ⟨_, e⟩ :: as, h => concat_congr (ofExpr_redraw k e h.left) (ofArgs_redraw k as h.right)

theorem ofEntries_redraw (k : Kindred D names names' Q) {p s} :
    ∀ es : List Entry, Fits Q (Visits.ofEntries p s (es.map D.entry)) →
    ofEntries names' (es.map D.entry) = ofEntries names es
  | [], _ => rfl
  | ⟨key, value⟩ :: es, h => by
    refine concat_congr ?_ (ofEntries_redraw k es h.right)
    exact concat_congr (ofExpr_redraw k key h.left.left) (ofExpr_redraw k value h.left.right)

theorem ofCases_redraw (k : Kindred D names names' Q) {opener : List Stmt → Opener} {p s} : ∀ cs : List Case,
    Fits Q (Visits.ofCases opener p s (cs.map D.case)) → ofCases names' (cs.map D.case) = ofCases names cs
  | [], _ => rfl
  | ⟨condition, body⟩ :: cs, h => by
    refine concat_congr ?_ (ofCases_redraw k cs h.right)
    exact concat_congr (ofOption_redraw k condition h.left.left) (ofStmts_redraw k body h.left.right)

theorem ofStmt_redraw (k : Kindred D names names' Q) {p s} : ∀ x : Stmt, Fits Q (Visits.ofStmt p s (D.stmt x)) →
    ofStmt names' (D.stmt x) = ofStmt names x
  | ⟨pos, kind⟩, h => by
    rw [k.lawful.stmt] at h ⊢
    match kind, h with
    | .expr e, h | .raise e, h => exact ofExpr_redraw k e h
    | .var _ _ init, h => exact congrArg (· ++ _) (ofOption_redraw k init h)
    | .attempt body handlers, h => exact concat_congr (ofStmt_redraw k body h.left) (ofStmts_redraw k handlers h.right)
    | .handler _ _ body, h => exact congrArg _ (ofStmt_redraw k body h)
    | .loop cond body _, h => exact concat_congr (ofExpr_redraw k cond h.left) (ofStmt_redraw k body h.right)
    | .forIn key value target body, h =>
      refine concat_congr ?_ (ofStmt_redraw k body h.right)
      exact congrArg (· ++ _) (ofExpr_redraw k target h.left)
    | .branch cond yes no, h =>
      refine concat_congr ?_ (ofAlternative_redraw k no h.right)
      exact concat_congr (ofExpr_redraw k cond h.left.left) (ofStmt_redraw k yes h.left.right)
    | .switch target cases, h => exact concat_congr (ofExpr_redraw k target h.left) (ofCases_redraw k cases h.right)
    | .block stmts, h => exact ofStmts_redraw k stmts h
    | .ret value, h => exact ofOption_redraw k value h
    | .func ⟨_, _, _, _, _, _⟩, _ =>
      rw [Redraw.stmtKind, k.lawful.func]
      rfl
    | .global _, _ | .use _ _ _, _ | .inNamespace _ _, _ | .cls _, _ => rfl

theorem ofStmts_redraw (k : Kindred D names names' Q) {p s} :
    ∀ xs : List Stmt, Fits Q (Visits.ofStmts p s (xs.map D.stmt)) →
    ofStmts names' (xs.map D.stmt) = ofStmts names xs
  | [], _ => rfl
  | x :: xs, h => concat_congr (ofStmt_redraw k x h.left) (ofStmts_redraw k xs h.right)

theorem ofAlternative_redraw (k : Kindred D names names' Q) {p s} : ∀ x : Option Stmt,
    Fits Q (Visits.ofAlternative p s (x.map D.stmt)) → ofBody names' (x.map D.stmt) = ofBody names x
  | none, _ => rfl
  | some x, h => ofStmt_redraw k x h

theorem ofBody_redraw (k : Kindred D names names' Q) {p s} :
    ∀ x : Option Stmt, Fits Q (Visits.ofBody p s (x.map D.stmt)) →
    ofBody names' (x.map D.stmt) = ofBody names x
  | none, _ => rfl
  | some x, h => ofStmt_redraw k x h

theorem ofFunc_redraw (k : Kindred D names names' Q) {opener : Opener} {p s} : ∀ f : Func,
    Fits Q (Visits.ofFunc opener p s (D.func f)) → ofFunc names' (D.func f) = ofFunc names f
  | ⟨_, ps, body, _, _, _⟩, h => by
    have bound : (ps.map D.param).map (fun p => Mention.bind p.name) = ps.map fun p => Mention.bind p.name := by
      rw [List.map_map]
      rfl
    rw [k.lawful.func] at h ⊢
    refine concat_congr ?_ (ofBody_redraw k body h.right)
    exact concat_congr bound (ofDefaults_redraw k ps h.left.right)

theorem ofDefaults_redraw (k : Kindred D names names' Q) {p s} :
    ∀ ps : List Param, Fits Q (Visits.ofParams p s (ps.map D.param)) →
    ofDefaults names' (ps.map D.param) = ofDefaults names ps
  | [], _ => rfl
  | ⟨_, _, default, _, _⟩ :: ps, h => concat_congr (ofOption_redraw k default h.left) (ofDefaults_redraw k ps h.right)

end

end Captures

end PhaseLang
