import Mathlib.Logic.Basic
import PhaseLang.Php.Lowering

/-!
# Redrawn trees

A `Redraw` goes through a tree and puts other ids and positions in it. Whatever lowering reads off single
nodes stays the same.
-/

namespace PhaseLang

structure Redraw where
  id : Nat → Nat
  pos : Position → Position
  /-- What becomes of the position of a class. -/
  place : Position → Position
  expr : Expr → Expr
  stmt : Stmt → Stmt
  func : Func → Func
  cls : Class → Class
  member : Member → Member

namespace Redraw

section
variable (D : Redraw)

/-! ## One level -/

def arg (a : Arg) : Arg := ⟨a.name, D.expr a.value⟩

def entry (e : Entry) : Entry := ⟨D.expr e.key, D.expr e.value⟩

def case (c : Case) : Case := ⟨c.condition.map D.expr, c.body.map D.stmt⟩

def param (p : Param) : Param := ⟨p.name, p.type, p.default.map D.expr, p.promoted, D.pos p.pos⟩

def exprKind : ExprKind → ExprKind
  | .attribute path args => .attribute path (args.map D.arg)
  | .assign name value => .assign name (D.expr value)
  | .binary lhs op rhs => .binary (D.expr lhs) op (D.expr rhs)
  | .unary op operand leading => .unary op (D.expr operand) leading
  | .isType operand type => .isType (D.expr operand) type
  | .logical lhs op rhs => .logical (D.expr lhs) op (D.expr rhs)
  | .range lower upper => .range (D.expr lower) (D.expr upper)
  | .call callee args => .call (D.expr callee) (args.map D.arg)
  | .get target field => .get (D.expr target) (D.expr field)
  | .set target field value => .set (D.expr target) (D.expr field) (D.expr value)
  | .indexGet target index => .indexGet (D.expr target) (index.map D.expr)
  | .indexSet target index value => .indexSet (D.expr target) (index.map D.expr) (D.expr value)
  | .ternary cond yes no => .ternary (D.expr cond) (D.expr yes) (D.expr no)
  | .group inner => .group (D.expr inner)
  | .list items native => .list (items.map D.expr) native
  | .map entries native => .map (entries.map D.entry) native
  | .lambda f => .lambda (D.func f)
  | .choose target cases => .choose (D.expr target) (cases.map D.case)
  | .super method => .super method
  | .path path => .path path
  | .this => .this
  | .static => .static
  | .literal value => .literal value
  | .ident name => .ident name

def stmtKind : StmtKind → StmtKind
  | .expr e => .expr (D.expr e)
  | .use path kind attributes => .use path kind (attributes.map D.expr)
  | .inNamespace path decls => .inNamespace path (decls.map D.stmt)
  | .var name type init => .var name type (init.map D.expr)
  | .global name => .global name
  | .raise e => .raise (D.expr e)
  | .attempt body handlers => .attempt (D.stmt body) (handlers.map D.stmt)
  | .handler name type body => .handler name type (D.stmt body)
  | .loop cond body inverted => .loop (D.expr cond) (D.stmt body) inverted
  | .forIn key value target body => .forIn key value (D.expr target) (D.stmt body)
  | .branch cond yes no => .branch (D.expr cond) (D.stmt yes) (no.map D.stmt)
  | .switch target cases => .switch (D.expr target) (cases.map D.case)
  | .block stmts => .block (stmts.map D.stmt)
  | .ret value => .ret (value.map D.expr)
  | .func f => .func (D.func f)
  | .cls c => .cls (D.cls c)

def memberKind : MemberKind → MemberKind
  | .use path => .use path
  | .field type init => .field type (init.map D.expr)
  | .property type getter setter => .property type (getter.map D.func) (setter.map D.func)
  | .method f => .method (D.func f)

/-- The map of each sort is that of its parts. -/
structure Lawful : Prop where
  expr : ∀ id pos kind, D.expr ⟨id, pos, kind⟩ = ⟨D.id id, D.pos pos, D.exprKind kind⟩
  stmt : ∀ pos kind, D.stmt ⟨pos, kind⟩ = ⟨D.pos pos, D.stmtKind kind⟩
  func : ∀ name ps body result as pos, D.func ⟨name, ps, body, result, as, pos⟩ =
    ⟨name, ps.map D.param, body.map D.stmt, result, as.map D.expr, D.pos pos⟩
  cls : ∀ name kind parent interfaces ms as pos, D.cls ⟨name, kind, parent, interfaces, ms, as, pos⟩ =
    ⟨name, kind, parent, interfaces, ms.map D.member, as.map D.expr, D.place pos⟩
  member : ∀ name kind mods as pos, D.member ⟨name, kind, mods, as, pos⟩ =
    ⟨name, D.memberKind kind, mods, as.map D.expr, D.pos pos⟩

end

/-- The map that leaves everything as it is. -/
def refl : Redraw where
  id n := n
  pos p := p
  place p := p
  expr e := e
  stmt s := s
  func f := f
  cls c := c
  member m := m

@[simp] theorem refl_expr : refl.expr = fun e => e := rfl

@[simp] theorem refl_stmt : refl.stmt = fun s => s := rfl

@[simp] theorem refl_func : refl.func = fun f => f := rfl

@[simp] theorem refl_member : refl.member = fun m => m := rfl

@[simp] theorem refl_arg : refl.arg = fun a => a := by funext a; cases a; rfl

@[simp] theorem refl_entry : refl.entry = fun e => e := by funext e; cases e; rfl

@[simp] theorem refl_case : refl.case = fun c => c := by funext c; cases c; simp [case]

@[simp] theorem refl_param : refl.param = fun p => p := by funext p; cases p; simp [param]; rfl

@[simp] theorem refl_exprKind (kind : ExprKind) : refl.exprKind kind = kind := by cases kind <;> simp [exprKind]

@[simp] theorem refl_stmtKind (kind : StmtKind) : refl.stmtKind kind = kind := by
  cases kind <;> simp [stmtKind]
  rfl

@[simp] theorem refl_memberKind (kind : MemberKind) : refl.memberKind kind = kind := by
  cases kind <;> simp [memberKind]

theorem lawful_refl : refl.Lawful where
  expr _ _ _ := by simp; exact ⟨rfl, rfl⟩
  stmt _ _ := by simp; rfl
  func _ _ _ _ _ _ := by simp; rfl
  cls _ _ _ _ _ _ _ := by simp; rfl
  member _ _ _ _ _ := by simp; rfl

section
variable {D : Redraw}

/-! ## What is read off a node -/

theorem Lawful.ident? (h : D.Lawful) (e : Expr) : (D.expr e).ident? = e.ident? := by
  obtain ⟨_, _, kind⟩ := e
  rw [h.expr]
  cases kind <;> rfl

mutual

theorem Lawful.isConstant (h : D.Lawful) : ∀ e : Expr, (D.expr e).isConstant = e.isConstant
  | ⟨id, pos, kind⟩ => by
    rw [h.expr]
    exact Lawful.isConstant_kind h kind

theorem Lawful.isConstant_kind (h : D.Lawful) : ∀ kind : ExprKind, (D.exprKind kind).isConstant = kind.isConstant
  | .unary op operand _ => by
    have inner := Lawful.isConstant h operand
    cases op with
    | not => exact inner
    | negate => exact inner
    | increment => rfl
    | decrement => rfl
  | .group inner => Lawful.isConstant h inner
  | .binary lhs _ rhs | .logical lhs _ rhs =>
    congrArg₂ (· && ·) (Lawful.isConstant h lhs) (Lawful.isConstant h rhs)
  | .list items native => by
    have inner := Lawful.allConstant h items
    cases native with
    | true => exact inner
    | false => rfl
  | .map entries native => by
    have inner := Lawful.allConstantEntries h entries
    cases native with
    | true => exact inner
    | false => rfl
  | .get ⟨_, _, target⟩ ⟨_, _, field⟩ => by
    rw [exprKind, h.expr, h.expr]
    cases target with
    | path _ => cases field <;> rfl
    | _ => rfl
  | .literal _ | .attribute _ _ | .assign _ _ | .isType _ _ | .range _ _ | .call _ _ | .set _ _ _ | .indexGet _ _
  | .indexSet _ _ _ | .ternary _ _ _ | .super _ | .path _ | .this | .static | .lambda _ | .ident _ | .choose _ _ => rfl

theorem Lawful.allConstant (h : D.Lawful) :
    ∀ es : List Expr, PhaseLang.allConstant (es.map D.expr) = PhaseLang.allConstant es
  | [] => rfl
  | e :: es => congrArg₂ (· && ·) (Lawful.isConstant h e) (Lawful.allConstant h es)

theorem Lawful.allConstantEntries (h : D.Lawful) :
    ∀ es : List Entry, PhaseLang.allConstantEntries (es.map D.entry) = PhaseLang.allConstantEntries es
  | [] => rfl
  | ⟨key, value⟩ :: es =>
    congrArg₂ (· && ·) (congrArg₂ (· && ·) (Lawful.isConstant h key) (Lawful.isConstant h value))
      (Lawful.allConstantEntries h es)

end

variable (h : D.Lawful)
include h

theorem Lawful.isDeferred (m : Member) : (D.member m).isDeferred = m.isDeferred := by
  obtain ⟨_, kind, _, _, _⟩ := m
  rw [h.member]
  cases kind with
  | field _ init =>
    cases init with
    | none => rfl
    | some e => exact congrArg (fun b => _ && !b) (h.isConstant e)
  | _ => rfl

theorem Lawful.has (m : Member) (modifier : Modifier) : (D.member m).has modifier = m.has modifier := by
  obtain ⟨_, _, _, _, _⟩ := m
  rw [h.member]
  rfl

theorem Lawful.name (m : Member) : (D.member m).name = m.name := by
  obtain ⟨_, _, _, _, _⟩ := m
  rw [h.member]

theorem Lawful.ownMember? (c : Class) (name : String) :
    (D.cls c).ownMember? name = (c.ownMember? name).map D.member := by
  obtain ⟨_, _, _, _, members, _, _⟩ := c
  simp only [Class.ownMember?, h.cls, List.find?_map]
  congr 2
  funext m
  obtain ⟨_, kind, _, _, _⟩ := m
  rw [Function.comp_apply, h.member]
  cases kind <;> rfl

theorem Lawful.traits (c : Class) : (D.cls c).traits = c.traits := by
  obtain ⟨_, _, _, _, members, _, _⟩ := c
  simp only [Class.traits, h.cls, List.filterMap_map]
  congr 1
  funext m
  obtain ⟨_, kind, _, _, _⟩ := m
  rw [Function.comp_apply, h.member]
  cases kind <;> rfl

end

end Redraw

namespace Php.Lower

section
variable {D : Redraw} (h : D.Lawful)
include h

theorem mergesWith_redraw (op : UnaryOp) (e : PhaseLang.Expr) : mergesWith op (D.expr e) = mergesWith op e := by
  have leading : leadingChar? (D.expr e) = leadingChar? e := by
    obtain ⟨_, _, kind⟩ := e
    rw [h.expr]
    cases kind with
    | unary _ _ leading => cases leading <;> rfl
    | _ => rfl
  unfold mergesWith
  rw [leading]

theorem ternaryOperand_redraw (source : PhaseLang.Expr) (e : Expr) :
    ternaryOperand (D.expr source) e = ternaryOperand source e := by
  obtain ⟨_, _, kind⟩ := source
  rw [h.expr]
  cases kind <;> rfl

theorem assignsField_redraw (f : Func) (name : String) : assignsField (D.func f) name = assignsField f name := by
  obtain ⟨_, _, body, _, _, _⟩ := f
  rw [h.func]
  cases body with
  | none => rfl
  | some body =>
    obtain ⟨_, kind⟩ := body
    simp only [Option.map_some, h.stmt]
    cases kind with
    | block stmts =>
      simp only [assignsField, Redraw.stmtKind, List.any_map]
      congr 1
      funext s
      obtain ⟨_, kind⟩ := s
      rw [Function.comp_apply, h.stmt]
      cases kind with
      | expr e =>
        obtain ⟨_, _, kind⟩ := e
        rw [Redraw.stmtKind, h.expr]
        cases kind with
        | set target field _ =>
          obtain ⟨_, _, kind⟩ := target
          rw [Redraw.exprKind, h.expr]
          cases kind with
          | this => exact congrArg (· == some name) (h.ident? field)
          | _ => rfl
        | _ => rfl
      | _ => rfl
    | _ => rfl

theorem missingPromotions_redraw (f : Func) : missingPromotions (D.func f) = missingPromotions f := by
  have assigns := assignsField_redraw h f
  obtain ⟨name, params, body, result, attributes, pos⟩ := f
  unfold missingPromotions
  simp only [assigns]
  simp only [h.func, List.filter_map, List.map_map]
  rfl

theorem isState_redraw (m : PhaseLang.Member) : isState (D.member m) = isState m := by
  obtain ⟨_, kind, _, _, _⟩ := m
  rw [h.member]
  cases kind <;> rfl

theorem isProperty_redraw (m : PhaseLang.Member) : isProperty (D.member m) = isProperty m := by
  obtain ⟨_, kind, _, _, _⟩ := m
  rw [h.member]
  cases kind <;> rfl

theorem classParts_redraw (c : PhaseLang.Class) :
    (D.cls c).constructor?.isSome = c.constructor?.isSome ∧ classKeyword (D.cls c) = classKeyword c ∧
      ((D.cls c).members.any fun m => m.isDeferred && !m.has .isStatic) =
        (c.members.any fun m => m.isDeferred && !m.has .isStatic) ∧
      ((D.cls c).members.eraseP (·.name = PhaseLang.Class.constructorName)).any isProperty =
        (c.members.eraseP (·.name = PhaseLang.Class.constructorName)).any isProperty := by
  obtain ⟨name, kind, parent, interfaces, ms, as, pos⟩ := c
  simp only [h.cls]
  refine ⟨?_, ?_, ?_, ?_⟩
  · simp only [PhaseLang.Class.constructor?, PhaseLang.Class.member?, List.find?_map, Option.isSome_map,
      Function.comp_def, h.name]
  · simp only [classKeyword, List.any_map, Function.comp_def, h.has]
  · simp only [List.any_map, Function.comp_def, h.has, h.isDeferred]
  · simp only [List.eraseP_map, List.any_map, Function.comp_def, h.name, isProperty_redraw h]

end

end Php.Lower

end PhaseLang
