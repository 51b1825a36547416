import PhaseLang.Proofs.Grammar.Nodes
import PhaseLang.Typing.Type

/-!
# What a tree mentions

`Cited.ofExpr` and its companions list what typing meets in a tree: its expressions, the types and
namespaces that it names, what it imports and what it declares. `Fits A` says that everything that
is mentioned has a property.
-/

namespace PhaseLang

inductive Citation where
  | node (e : Expr)
  /-- A type. -/
  | path (path : TypePath)
  /-- The namespace of some declarations. -/
  | scope (path : TypePath)
  /-- What an import looks for. -/
  | imported (path : TypePath)
  /-- The name of a class or function, where it is declared. -/
  | declared (name : String)

namespace Cited

def ofUse (path : TypePath) : UseKind → List Citation
  | .plain => [.imported path]
  | .alias _ => [.imported path]
  | .group targets => targets.map fun target => .imported { ns := path.segments, name := target.name }

def ofPath (path : Option TypePath) : List Citation := path.toList.map .path

def ofPaths (paths : List TypePath) : List Citation := paths.map .path

mutual

def ofExpr : Expr → List Citation
  | ⟨id, pos, kind⟩ => .node ⟨id, pos, kind⟩ :: ofKind kind

def ofKind : ExprKind → List Citation
  | .attribute path args => .path path :: ofArgs args
  | .assign _ e | .unary _ e _ | .group e => ofExpr e
  | .binary a _ b | .logical a _ b | .range a b | .get a b => ofExpr a ++ ofExpr b
  | .isType operand type => ofExpr operand ++ [.path type]
  | .call callee args => ofExpr callee ++ ofArgs args
  | .indexGet target index => ofExpr target ++ ofOption index
  | .indexSet target index value => ofExpr target ++ ofOption index ++ ofExpr value
  | .set a b c | .ternary a b c => ofExpr a ++ ofExpr b ++ ofExpr c
  | .path path => [.path path]
  | .list items _ => ofExprs items
  | .map entries _ => ofEntries entries
  | .lambda f => ofFunc f
  | .choose target cases => ofExpr target ++ ofCases cases
  | .super _ | .this | .static | .literal _ | .ident _ => []

def ofOption : Option Expr → List Citation
  | none => []
  | some e => ofExpr e

def ofExprs : List Expr → List Citation
  | [] => []
  | e :: es => ofExpr e ++ ofExprs es

def ofArgs : List Arg → List Citation
  | [] => []
  | ⟨_, e⟩ :: as => ofExpr e ++ ofArgs as

def ofEntries : List Entry → List Citation
  | [] => []
  | ⟨key, value⟩ :: es => ofExpr key ++ ofExpr value ++ ofEntries es

def ofCases : List Case → List Citation
  | [] => []
  | ⟨condition, body⟩ :: cs => ofOption condition ++ ofStmts body ++ ofCases cs

def ofStmt : Stmt → List Citation
  | ⟨_, kind⟩ => ofStmtKind kind

def ofStmtKind : StmtKind → List Citation
  | .expr e | .raise e => ofExpr e
  | .use path kind _ => ofUse path kind
  | .inNamespace path decls => .scope path :: ofStmts decls
  | .var _ type init => ofPath type ++ ofOption init
  | .global _ => []
  | .attempt body handlers => ofStmt body ++ ofStmts handlers
  | .handler _ type body => ofPath type ++ ofStmt body
  | .loop e body _ | .forIn _ _ e body => ofExpr e ++ ofStmt body
  | .branch cond yes no => ofExpr cond ++ ofStmt yes ++ ofBody no
  | .switch target cases => ofExpr target ++ ofCases cases
  | .block stmts => ofStmts stmts
  | .ret value => ofOption value
  | .func f => .declared f.name :: ofFunc f
  | .cls c => .declared c.name :: ofClass c

def ofStmts : List Stmt → List Citation
  | [] => []
  | s :: ss => ofStmt s ++ ofStmts ss

def ofBody : Option Stmt → List Citation
  | none => []
  | some s => ofStmt s

def ofFunc : Func → List Citation
  | ⟨_, params, body, result, attributes, _⟩ =>
    ofParams params ++ ofBody body ++ ofPath result ++ ofExprs attributes

def ofParams : List Param → List Citation
  | [] => []
  | ⟨_, type, default, _, _⟩ :: ps => ofPath type ++ ofOption default ++ ofParams ps

def ofClass : Class → List Citation
  | ⟨_, _, parent, interfaces, members, attributes, _⟩ =>
    ofPath parent ++ ofPaths interfaces ++ ofMembers members ++ ofExprs attributes

def ofMembers : List Member → List Citation
  | [] => []
  | m :: ms => ofMember m ++ ofMembers ms

def ofMember : Member → List Citation
  | ⟨_, kind, _, attributes, _⟩ => ofMemberKind kind ++ ofExprs attributes

def ofMemberKind : MemberKind → List Citation
  | .use path => [.path path]
  | .field type init => ofPath type ++ ofOption init
  | .property type getter setter => ofPath type ++ ofAccessor getter ++ ofAccessor setter
  | .method f => ofFunc f

def ofAccessor : Option Func → List Citation
  | none => []
  | some f => ofFunc f

end

/-! ## Expressions -/

section
variable {x : Expr}

@[simp] theorem node_notMem_ofPath {path : Option TypePath} : .node x ∉ ofPath path := by simp [ofPath]

@[simp] theorem node_notMem_ofPaths {paths : List TypePath} : .node x ∉ ofPaths paths := by simp [ofPaths]

end

end Cited

/-! ## Properties of what is mentioned -/

def Fits {α : Type} (A : α → Prop) (cs : List α) : Prop := ∀ c ∈ cs, A c

section
variable {α : Type} {A : α → Prop}

@[simp] theorem fits_nil : Fits A [] := by simp [Fits]

@[simp] theorem fits_cons {c : α} {cs : List α} : Fits A (c :: cs) ↔ A c ∧ Fits A cs := by
  simp [Fits]

@[simp] theorem fits_append {cs cs' : List α} : Fits A (cs ++ cs') ↔ Fits A cs ∧ Fits A cs' := by
  simp [Fits, or_imp, forall_and]

theorem fits_true {cs : List α} : Fits (fun _ => True) cs := fun _ _ => trivial

namespace Fits

variable {c : α} {cs cs' : List α}

theorem head (h : Fits A (c :: cs)) : A c := (fits_cons.mp h).1

theorem tail (h : Fits A (c :: cs)) : Fits A cs := (fits_cons.mp h).2

theorem left (h : Fits A (cs ++ cs')) : Fits A cs := (fits_append.mp h).1

theorem right (h : Fits A (cs ++ cs')) : Fits A cs' := (fits_append.mp h).2

end Fits

end

section
variable {A : Citation → Prop}

namespace Cited

@[simp] theorem fits_ofPath {path : Option TypePath} : Fits A (ofPath path) ↔ ∀ p ∈ path, A (.path p) := by
  simp [Fits, ofPath]

@[simp] theorem fits_ofPaths {paths : List TypePath} : Fits A (ofPaths paths) ↔ ∀ p ∈ paths, A (.path p) := by
  simp [Fits, ofPaths]

end Cited

end

/-- The paths that typing may come to resolve when it meets the type. -/
def Ty.cited : Ty → List Citation
  | .nullable inner => inner.cited
  | .void | .any => []
  | .unknown path => Cited.ofPath path
  | .func f => Cited.ofFunc f
  | .classOf c | .objectOf c => Cited.ofClass c

def Ty.Fits (A : Citation → Prop) (t : Ty) : Prop := ∀ p, .path p ∈ t.cited → A (.path p)

end PhaseLang
