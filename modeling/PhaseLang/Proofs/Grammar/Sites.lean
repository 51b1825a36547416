import PhaseLang.Proofs.Grammar.Inside

/-!
# Where statements and members stand

`Placed.ofExpr` and its companions list the statements and the members of classes anywhere inside a
tree, each with what surrounds it: whether it is in a namespace, and whether a method there is exempt
from having a body.

An exemption starts with the body of an interface. It ends behind a member that has another
interface inside, though the body goes on.
-/

namespace PhaseLang

/-! ## Sites -/

def Class.isInterface (c : Class) : Bool := c.kind == .interface

def Member.holdsInterface (m : Member) : Bool := (Inside.ofMember m).any Class.isInterface

structure Site where
  inNamespace : Bool
  /-- A method may come without a body. -/
  exempt : Bool
deriving DecidableEq, Repr

namespace Site

def outermost : Site := ⟨false, false⟩

def inBody (site : Site) (kind : ClassKind) : Site := { site with exempt := kind == .interface || site.exempt }

def behind (site : Site) (m : Member) : Site := { site with exempt := site.exempt && !m.holdsInterface }

end Site

/-! ## Items -/

inductive Item where
  | stmt (s : Stmt)
  | member (kind : ClassKind) (m : Member)

structure Placed where
  site : Site
  item : Item

namespace Placed

mutual

def ofExpr (site : Site) : Expr → List Placed
  | ⟨_, _, kind⟩ => ofKind site kind

def ofKind (site : Site) : ExprKind → List Placed
  | .attribute _ args => ofArgs site args
  | .assign _ e | .unary _ e _ | .isType e _ | .group e => ofExpr site e
  | .binary a _ b | .logical a _ b | .range a b | .get a b => ofExpr site a ++ ofExpr site b
  | .call callee args => ofExpr site callee ++ ofArgs site args
  | .indexGet target index => ofExpr site target ++ ofOption site index
  | .indexSet target index value => ofExpr site target ++ ofOption site index ++ ofExpr site value
  | .set a b c | .ternary a b c => ofExpr site a ++ ofExpr site b ++ ofExpr site c
  | .list items _ => ofExprs site items
  | .map entries _ => ofEntries site entries
  | .lambda f => ofFunc site f
  | .choose target cases => ofExpr site target ++ ofCases site cases
  | .super _ | .path _ | .this | .static | .literal _ | .ident _ => []

def ofOption (site : Site) : Option Expr → List Placed
  | none => []
  | some e => ofExpr site e

def ofExprs (site : Site) : List Expr → List Placed
  | [] => []
  | e :: es => ofExpr site e ++ ofExprs site es

def ofArgs (site : Site) : List Arg → List Placed
  | [] => []
  | ⟨_, e⟩ :: as => ofExpr site e ++ ofArgs site as

def ofEntries (site : Site) : List Entry → List Placed
  | [] => []
  | ⟨key, value⟩ :: es => ofExpr site key ++ ofExpr site value ++ ofEntries site es

def ofCases (site : Site) : List Case → List Placed
  | [] => []
  | ⟨condition, body⟩ :: cs => ofOption site condition ++ ofStmts site body ++ ofCases site cs

def ofStmt (site : Site) : Stmt → List Placed
  | ⟨pos, kind⟩ => ⟨site, .stmt ⟨pos, kind⟩⟩ :: ofStmtKind site kind

def ofStmtKind (site : Site) : StmtKind → List Placed
  | .expr e | .raise e => ofExpr site e
  | .use _ _ attributes => ofExprs site attributes
  | .inNamespace _ decls => ofStmts { site with inNamespace := true } decls
  | .var _ _ init => ofOption site init
  | .global _ => []
  | .attempt body handlers => ofStmt site body ++ ofStmts site handlers
  | .handler _ _ body => ofStmt site body
  | .loop e body _ | .forIn _ _ e body => ofExpr site e ++ ofStmt site body
  | .branch cond yes no => ofExpr site cond ++ ofStmt site yes ++ ofBody site no
  | .switch target cases => ofExpr site target ++ ofCases site cases
  | .block stmts => ofStmts site stmts
  | .ret value => ofOption site value
  | .func f => ofFunc site f
  | .cls c => ofClass site c

def ofStmts (site : Site) : List Stmt → List Placed
  | [] => []
  | s :: ss => ofStmt site s ++ ofStmts site ss

def ofBody (site : Site) : Option Stmt → List Placed
  | none => []
  | some s => ofStmt site s

def ofFunc (site : Site) : Func → List Placed
  | ⟨_, params, body, _, attributes, _⟩ => ofExprs site attributes ++ ofParams site params ++ ofBody site body

def ofParams (site : Site) : List Param → List Placed
  | [] => []
  | ⟨_, _, default, _, _⟩ :: ps => ofOption site default ++ ofParams site ps

def ofClass (site : Site) : Class → List Placed
  | ⟨_, kind, _, _, members, attributes, _⟩ => ofExprs site attributes ++ ofMembers (site.inBody kind) kind members

def ofMembers (site : Site) (kind : ClassKind) : List Member → List Placed
  | [] => []
  | m :: ms => ⟨site, .member kind m⟩ :: (ofMember site m ++ ofMembers (site.behind m) kind ms)

def ofMember (site : Site) : Member → List Placed
  | ⟨_, kind, _, attributes, _⟩ => ofExprs site attributes ++ ofMemberKind site kind

def ofMemberKind (site : Site) : MemberKind → List Placed
  | .use _ => []
  | .field _ init => ofOption site init
  | .property _ getter setter => ofAccessor site getter ++ ofAccessor site setter
  | .method f => ofFunc site f

def ofAccessor (site : Site) : Option Func → List Placed
  | none => []
  | some f => ofFunc site f

end

attribute [simp, grind =] ofExpr ofKind ofOption ofExprs ofArgs ofEntries ofCases ofStmt ofStmtKind ofStmts ofBody
  ofFunc ofParams ofClass ofMembers ofMember ofMemberKind ofAccessor

variable (site : Site)

theorem ofExprs_eq : ∀ es : List Expr, ofExprs site es = es.flatMap (ofExpr site) :=
  eq_flatMap_of_cons rfl fun _ _ => rfl

theorem ofArgs_eq : ∀ as : List Arg, ofArgs site as = as.flatMap fun a => ofExpr site a.value :=
  eq_flatMap_of_cons rfl fun x _ => by cases x; rfl

theorem ofEntries_eq : ∀ es : List Entry,
    ofEntries site es = es.flatMap fun e => ofExpr site e.key ++ ofExpr site e.value :=
  eq_flatMap_of_cons rfl fun x _ => by cases x; rfl

theorem ofCases_eq : ∀ cs : List Case,
    ofCases site cs = cs.flatMap fun c => ofOption site c.condition ++ ofStmts site c.body :=
  eq_flatMap_of_cons rfl fun x _ => by cases x; rfl

theorem ofStmts_eq : ∀ ss : List Stmt, ofStmts site ss = ss.flatMap (ofStmt site) :=
  eq_flatMap_of_cons rfl fun _ _ => rfl

theorem ofStmts_append (ss ts : List Stmt) : ofStmts site (ss ++ ts) = ofStmts site ss ++ ofStmts site ts := by
  simp [ofStmts_eq]

theorem ofParams_eq : ∀ ps : List Param, ofParams site ps = ps.flatMap fun p => ofOption site p.default :=
  eq_flatMap_of_cons rfl fun x _ => by cases x; rfl

/-! ## Interfaces -/

def closes : Placed → Bool
  | ⟨_, .stmt ⟨_, .cls c⟩⟩ => c.isInterface
  | _ => false

abbrev Shows (xs : List Placed) (cs : List Class) : Prop := xs.any closes = cs.any Class.isInterface

mutual

theorem shows_ofExpr (site : Site) : ∀ e, Shows (ofExpr site e) (Inside.ofExpr e)
  | ⟨_, _, kind⟩ => shows_ofKind site kind

theorem shows_ofKind (site : Site) (kind : ExprKind) : Shows (ofKind site kind) (Inside.ofKind kind) := by
  cases kind <;> simp [Shows, shows_ofExpr, shows_ofOption, shows_ofExprs, shows_ofArgs, shows_ofEntries, shows_ofCases,
    shows_ofFunc]

theorem shows_ofOption (site : Site) : ∀ e, Shows (ofOption site e) (Inside.ofOption e)
  | none => rfl
  | some e => shows_ofExpr site e

theorem shows_ofExprs (site : Site) : ∀ es, Shows (ofExprs site es) (Inside.ofExprs es)
  | [] => rfl
  | e :: es => by simp [Shows, shows_ofExpr site e, shows_ofExprs site es]

theorem shows_ofArgs (site : Site) : ∀ as, Shows (ofArgs site as) (Inside.ofArgs as)
  | [] => rfl
  | ⟨_, e⟩ :: as => by simp [Shows, shows_ofExpr site e, shows_ofArgs site as]

theorem shows_ofEntries (site : Site) : ∀ es, Shows (ofEntries site es) (Inside.ofEntries es)
  | [] => rfl
  | ⟨key, value⟩ :: es => by simp [Shows, shows_ofExpr site key, shows_ofExpr site value, shows_ofEntries site es]

theorem shows_ofCases (site : Site) : ∀ cs, Shows (ofCases site cs) (Inside.ofCases cs)
  | [] => rfl
  | ⟨condition, body⟩ :: cs => by
    simp [Shows, shows_ofOption site condition, shows_ofStmts site body, shows_ofCases site cs]

theorem shows_ofStmt (site : Site) : ∀ s, Shows (ofStmt site s) (Inside.ofStmt s)
  | ⟨_, kind⟩ => by
    cases kind with
    | cls c =>
      obtain ⟨⟩ := c
      simp [Shows, closes, shows_ofExprs, shows_ofMembers, Class.isInterface]
    | _ => simp [Shows, closes, shows_ofExpr, shows_ofOption, shows_ofExprs, shows_ofCases, shows_ofStmt, shows_ofStmts,
        shows_ofBody, shows_ofFunc]

theorem shows_ofStmts (site : Site) : ∀ ss, Shows (ofStmts site ss) (Inside.ofStmts ss)
  | [] => rfl
  | s :: ss => by simp [Shows, shows_ofStmt site s, shows_ofStmts site ss]

theorem shows_ofBody (site : Site) : ∀ s, Shows (ofBody site s) (Inside.ofBody s)
  | none => rfl
  | some s => shows_ofStmt site s

theorem shows_ofFunc (site : Site) : ∀ f, Shows (ofFunc site f) (Inside.ofFunc f)
  | ⟨_, params, body, _, attributes, _⟩ => by
    simp [Shows, shows_ofExprs site attributes, shows_ofParams site params, shows_ofBody site body]

theorem shows_ofParams (site : Site) : ∀ ps, Shows (ofParams site ps) (Inside.ofParams ps)
  | [] => rfl
  | ⟨_, _, default, _, _⟩ :: ps => by simp [Shows, shows_ofOption site default, shows_ofParams site ps]

theorem shows_ofMembers (site : Site) (kind : ClassKind) : ∀ ms, Shows (ofMembers site kind ms) (Inside.ofMembers ms)
  | [] => rfl
  | m :: ms => by simp [Shows, closes, shows_ofMember site m, shows_ofMembers (site.behind m) kind ms]

theorem shows_ofMember (site : Site) : ∀ m, Shows (ofMember site m) (Inside.ofMember m)
  | ⟨_, kind, _, attributes, _⟩ => by simp [Shows, shows_ofExprs site attributes, shows_ofMemberKind site kind]

theorem shows_ofMemberKind (site : Site) (kind : MemberKind) :
    Shows (ofMemberKind site kind) (Inside.ofMemberKind kind) := by
  cases kind <;> simp [Shows, shows_ofOption, shows_ofAccessor, shows_ofFunc]

theorem shows_ofAccessor (site : Site) : ∀ f, Shows (ofAccessor site f) (Inside.ofAccessor f)
  | none => rfl
  | some f => shows_ofFunc site f

end

end Placed

/-! ## What the grammar asks of an item -/

/-- A method is abstract exactly if it has no body, save that an exempt one may have none either. -/
def Member.Bodied (site : Site) (m : Member) : Prop :=
  ∀ f, m.kind = .method f → (m.has .isAbstract = true → f.body = none) ∧
    (f.body = none → m.has .isAbstract = true ∨ site.exempt = true)

/-- Imports stand in namespaces and namespaces outside of them; methods have bodies, except in
interfaces, all of whose members are abstract. -/
def Placed.Good : Placed → Prop
  | ⟨site, .stmt ⟨_, .use _ _ _⟩⟩ => site.inNamespace = true
  | ⟨site, .stmt ⟨_, .inNamespace _ _⟩⟩ => site.inNamespace = false
  | ⟨_, .stmt _⟩ => True
  | ⟨site, .member kind m⟩ => kind ≠ .interface → m.Bodied site

end PhaseLang
