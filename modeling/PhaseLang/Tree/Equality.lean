import PhaseLang.Tree

/-!
# Equality of trees

Two trees are the same when they agree in every part, ids and positions included. So two
readings of one text give trees that are not the same as soon as they hold an expression.
-/

namespace PhaseLang

mutual

def Expr.same : Expr → Expr → Bool
  | ⟨id, pos, kind⟩, ⟨id', pos', kind'⟩ => id == id' && pos == pos' && kind.same kind'
termination_by structural x => x

def ExprKind.same : ExprKind → ExprKind → Bool
  | .attribute p as, .attribute p' as' => p == p' && sameArgs as as'
  | .assign n v, .assign n' v' => n == n' && v.same v'
  | .binary l op r, .binary l' op' r' => l.same l' && op == op' && r.same r'
  | .unary op e b, .unary op' e' b' => op == op' && e.same e' && b == b'
  | .isType e t, .isType e' t' => e.same e' && t == t'
  | .logical l op r, .logical l' op' r' => l.same l' && op == op' && r.same r'
  | .range a b, .range a' b' => a.same a' && b.same b'
  | .call f as, .call f' as' => f.same f' && sameArgs as as'
  | .get t f, .get t' f' => t.same t' && f.same f'
  | .set t f v, .set t' f' v' => t.same t' && f.same f' && v.same v'
  | .indexGet t i, .indexGet t' i' => t.same t' && sameOption i i'
  | .indexSet t i v, .indexSet t' i' v' => t.same t' && sameOption i i' && v.same v'
  | .ternary c y n, .ternary c' y' n' => c.same c' && y.same y' && n.same n'
  | .super m, .super m' => m == m'
  | .path p, .path p' => p == p'
  | .this, .this => true
  | .static, .static => true
  | .group e, .group e' => e.same e'
  | .literal v, .literal v' => v == v'
  | .list es b, .list es' b' => sameExprs es es' && b == b'
  | .map es b, .map es' b' => sameEntries es es' && b == b'
  | .lambda f, .lambda f' => f.same f'
  | .ident n, .ident n' => n == n'
  | .choose t cs, .choose t' cs' => t.same t' && sameCases cs cs'
  | _, _ => false
termination_by structural x => x

def sameOption : Option Expr → Option Expr → Bool
  | none, none => true
  | some e, some e' => e.same e'
  | _, _ => false
termination_by structural x => x

def sameExprs : List Expr → List Expr → Bool
  | [], [] => true
  | e :: es, e' :: es' => e.same e' && sameExprs es es'
  | _, _ => false
termination_by structural x => x

def sameArgs : List Arg → List Arg → Bool
  | [], [] => true
  | ⟨n, v⟩ :: as, ⟨n', v'⟩ :: as' => n == n' && v.same v' && sameArgs as as'
  | _, _ => false
termination_by structural x => x

def sameEntries : List Entry → List Entry → Bool
  | [], [] => true
  | ⟨k, v⟩ :: es, ⟨k', v'⟩ :: es' => k.same k' && v.same v' && sameEntries es es'
  | _, _ => false
termination_by structural x => x

def sameCases : List Case → List Case → Bool
  | [], [] => true
  | ⟨c, b⟩ :: cs, ⟨c', b'⟩ :: cs' => sameOption c c' && sameStmts b b' && sameCases cs cs'
  | _, _ => false
termination_by structural x => x

def Stmt.same : Stmt → Stmt → Bool
  | ⟨pos, kind⟩, ⟨pos', kind'⟩ => pos == pos' && kind.same kind'
termination_by structural x => x

def StmtKind.same : StmtKind → StmtKind → Bool
  | .expr e, .expr e' => e.same e'
  | .use p k as, .use p' k' as' => p == p' && k == k' && sameExprs as as'
  | .inNamespace p ds, .inNamespace p' ds' => p == p' && sameStmts ds ds'
  | .var n t i, .var n' t' i' => n == n' && t == t' && sameOption i i'
  | .global n, .global n' => n == n'
  | .raise e, .raise e' => e.same e'
  | .attempt b hs, .attempt b' hs' => b.same b' && sameStmts hs hs'
  | .handler n t b, .handler n' t' b' => n == n' && t == t' && b.same b'
  | .loop c b i, .loop c' b' i' => c.same c' && b.same b' && i == i'
  | .forIn k v t b, .forIn k' v' t' b' => k == k' && v == v' && t.same t' && b.same b'
  | .branch c y n, .branch c' y' n' => c.same c' && y.same y' && sameBody n n'
  | .switch t cs, .switch t' cs' => t.same t' && sameCases cs cs'
  | .block ss, .block ss' => sameStmts ss ss'
  | .ret e, .ret e' => sameOption e e'
  | .func f, .func f' => f.same f'
  | .cls c, .cls c' => c.same c'
  | _, _ => false
termination_by structural x => x

def sameStmts : List Stmt → List Stmt → Bool
  | [], [] => true
  | s :: ss, s' :: ss' => s.same s' && sameStmts ss ss'
  | _, _ => false
termination_by structural x => x

def sameBody : Option Stmt → Option Stmt → Bool
  | none, none => true
  | some s, some s' => s.same s'
  | _, _ => false
termination_by structural x => x

def Func.same : Func → Func → Bool
  | ⟨n, ps, b, r, as, pos⟩, ⟨n', ps', b', r', as', pos'⟩ =>
    n == n' && sameParams ps ps' && sameBody b b' && r == r' && sameExprs as as' && pos == pos'
termination_by structural x => x

def sameAccessor : Option Func → Option Func → Bool
  | none, none => true
  | some f, some f' => f.same f'
  | _, _ => false
termination_by structural x => x

def sameParams : List Param → List Param → Bool
  | [], [] => true
  | ⟨n, t, d, p, pos⟩ :: ps, ⟨n', t', d', p', pos'⟩ :: ps' =>
    n == n' && t == t' && sameOption d d' && p == p' && pos == pos' && sameParams ps ps'
  | _, _ => false
termination_by structural x => x

def Class.same : Class → Class → Bool
  | ⟨n, k, p, is, ms, as, pos⟩, ⟨n', k', p', is', ms', as', pos'⟩ =>
    n == n' && k == k' && p == p' && is == is' && sameMembers ms ms' && sameExprs as as' &&
      pos == pos'
termination_by structural x => x

def sameMembers : List Member → List Member → Bool
  | [], [] => true
  | ⟨n, k, ms, as, pos⟩ :: rest, ⟨n', k', ms', as', pos'⟩ :: rest' =>
    n == n' && k.same k' && ms == ms' && sameExprs as as' && pos == pos' && sameMembers rest rest'
  | _, _ => false
termination_by structural x => x

def MemberKind.same : MemberKind → MemberKind → Bool
  | .use p, .use p' => p == p'
  | .field t i, .field t' i' => t == t' && sameOption i i'
  | .property t g s, .property t' g' s' => t == t' && sameAccessor g g' && sameAccessor s s'
  | .method f, .method f' => f.same f'
  | _, _ => false
termination_by structural x => x

end

end PhaseLang
