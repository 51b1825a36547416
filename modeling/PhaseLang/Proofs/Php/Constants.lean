import PhaseLang.Proofs.Php.ClassMembers
import PhaseLang.Proofs.Php.Sessions
import PhaseLang.Proofs.Php.Words

/-!
# Initial values in declarations

An initial value is left in the declaration of a field if its source has the shape of a constant. Main result:
its text then consists of literals, operators, brackets and the members that it reads from classes, and PHP takes
it as constant exactly if each of these members is written as a constant of its class. It is, unless the class is
taken for that of texts or the member is found to be a variable.
-/

namespace PhaseLang.Php

/-- A member that is read from a class, and the progress with which lowering comes to it. -/
structure Use where
  target : PhaseLang.Expr
  cls : String
  name : String
  progress : Progress

namespace Use
variable (scene : Scene) (use : Use)

def asked : Bool × Progress := (isString scene use.target).run use.progress

def isVariable : Bool := ((memberOf scene use.target use.name).run (use.asked scene).2).1.any (·.isVariable)

/-- The member is a constant of its class, for all that lowering finds. -/
def isDirect : Bool := !(use.asked scene).1 && !use.isVariable scene

def constant : String := use.cls ++ "::" ++ use.name

def text : String := classText scene (use.asked scene) use.target use.cls use.name

theorem text_eq_constant_iff : use.text scene = use.constant ↔ use.isDirect scene = true := by
  rw [isDirect, Bool.and_eq_true, Bool.not_eq_true', Bool.not_eq_true']
  unfold text classText constant
  constructor
  · intro same
    have same := congrArg (·.toList.length) same
    split at same
    · simp [String.toList_append] at same
      omega
    · rename_i direct
      refine ⟨eq_false_of_ne_true direct, Bool.eq_false_iff.mpr fun found => ?_⟩
      rw [isVariable] at found
      simp [found, String.toList_append] at same
  · rintro ⟨direct, other⟩
    rw [isVariable] at other
    simp [direct, other]

end Use

/-- Texts of literals, operators and brackets around some uses, in order, which are written in some way. Strings are
quoted, and numbers are digits. -/
inductive Composed (W : Use → String → Prop) : List Use → String → Prop
  | use {use text} : W use text → Composed W [use] text
  | literal {value : Literal} : value.Clean → Composed W [] (Printer.literal value)
  | before {op : UnaryOp} {us t} : op ∈ [.not, .negate] → Composed W us t → Composed W us (op.text ++ t)
  | after {op : UnaryOp} {us t} : op ∈ [.not, .negate] → Composed W us t → Composed W us (t ++ op.text)
  | binary {us vs t u} (op : BinaryOp) : Composed W us t → Composed W vs u →
      Composed W (us ++ vs) (t ++ " " ++ op.text ++ " " ++ u)
  | group {us t} : Composed W us t → Composed W us ("(" ++ t ++ ")")
  | empty : Composed W [] ""
  | joined {us vs t u mark} : mark ∈ [", ", ",", " => "] → Composed W us t → Composed W vs u →
      Composed W (us ++ vs) (t ++ mark ++ u)
  | list {us t} : Composed W us t → Composed W us ("[" ++ t ++ "]")
  | indented {us t} (depth : Nat) : Composed W us t → Composed W us (Printer.newline depth ++ t)
  | map {us t} (depth : Nat) : Composed W us t → Composed W us ("[" ++ t ++ Printer.newline depth ++ "]")

mutual

/-- The trees that PHP takes as constant. There are no variables in them, no members of objects, no `new`, no
closures and no calls. -/
def Expr.isConstant : Expr → Bool
  | .literal _ => true
  | .list items => allConstant items
  | .map es => allConstantEntries es
  | .group inner => inner.isConstant
  | .binary lhs _ rhs => lhs.isConstant && rhs.isConstant
  | .before op operand | .after operand op => (op == .not || op == .negate) && operand.isConstant
  | .classMember (.name _) _ => true
  | _ => false

def allConstant : List Expr → Bool
  | [] => true
  | e :: es => e.isConstant && allConstant es

def allConstantEntries : List Entry → Bool
  | [] => true
  | ⟨key, value⟩ :: es => key.isConstant && value.isConstant && allConstantEntries es

end

/-! ## Uses of an expression -/

def afterSum (scene : Scene) (s : Progress) (lhs : PhaseLang.Expr) (op : PhaseLang.BinaryOp) : Progress :=
  ((if op = .add then isString scene lhs else pure false : Lower Bool).run s).2

mutual

/-- What a constant expression reads from classes, if it is lowered with the given progress. -/
def usesOf (scene : Scene) (s : Progress) : PhaseLang.Expr → List Use
  | ⟨_, _, kind⟩ => usesOfKind scene s kind

def usesOfKind (scene : Scene) (s : Progress) : ExprKind → List Use
  | .unary _ operand _ | .group operand => usesOf scene s operand
  | .binary lhs op rhs =>
    usesOf scene (afterSum scene s lhs op) lhs ++
      usesOf scene ((Lower.expr scene lhs).run (afterSum scene s lhs op)).2 rhs
  | .logical lhs _ rhs => usesOf scene s lhs ++ usesOf scene ((Lower.expr scene lhs).run s).2 rhs
  | .list items _ => usesOfAll scene s items
  | .map es _ => usesOfEntries scene s es
  | .get target ⟨_, _, .ident name⟩ => ((className? target.kind).map (⟨target, ·, name, s⟩)).toList
  | _ => []

def usesOfAll (scene : Scene) (s : Progress) : List PhaseLang.Expr → List Use
  | [] => []
  | e :: es => usesOf scene s e ++ usesOfAll scene ((Lower.expr scene e).run s).2 es

def usesOfEntries (scene : Scene) (s : Progress) : List PhaseLang.Entry → List Use
  | [] => []
  | ⟨key, value⟩ :: es =>
    let s' := ((Lower.expr scene key).run s).2
    usesOf scene s key ++ usesOf scene s' value ++ usesOfEntries scene ((Lower.expr scene value).run s').2 es

end

/-! ## Texts -/

section
variable {scene : Scene} {I : Progress → Prop} {W : Use → String → Prop} (given : Lasting I ∧
  ∀ use : Use, I use.progress → startsUpper use.name = true → IsWord use.name →
    (∃ path : TypePath, path.Clean ∧ use.cls = typeName path) → W use (use.text scene))
include given

mutual

theorem expr_composed (depth : Nat) {s : Progress} (h : I s) : ∀ e : PhaseLang.Expr, Worded.Clean (Worded.ofExpr e) →
    e.isConstant = true → Composed W (usesOf scene s e) (Printer.expr depth ((Lower.expr scene e).run s).1)
  | ⟨_, _, .literal value⟩, clean, _ => .literal clean.head
  | ⟨_, _, .group inner⟩, clean, constant => (expr_composed depth h inner clean constant).group
  | ⟨_, _, .unary op operand leading⟩, clean, constant => by
    have parts : op ∈ [.not, .negate] ∧ operand.isConstant = true := by
      cases op <;> simp_all [PhaseLang.Expr.isConstant, ExprKind.isConstant]
    have inner := expr_composed depth h operand clean parts.2
    cases leading with
    | false => exact .after parts.1 inner
    | true =>
      show Composed W _ (op.text ++ Printer.expr depth (if Lower.mergesWith op operand then _ else _))
      split
      · exact .before parts.1 inner.group
      · exact .before parts.1 inner
  | ⟨_, _, .binary lhs op rhs⟩, clean, constant => by
    obtain ⟨left, right⟩ := Bool.and_eq_true_iff.mp constant
    have first {s : Progress} (h : I s) := expr_composed depth h lhs clean.left left
    have second {s : Progress} (h : I s) :=
      expr_composed depth (expr_lasting given.1 scene lhs s h).2 rhs clean.right right
    cases op with
    | add =>
      have asked := (isString_ensures given.1 scene lhs s h).2
      exact .binary _ (first asked) (second asked)
    | _ => exact .binary _ (first h) (second h)
  | ⟨_, _, .logical lhs op rhs⟩, clean, constant => by
    obtain ⟨left, right⟩ := Bool.and_eq_true_iff.mp constant
    exact .binary _ (expr_composed depth h lhs clean.left left)
      (expr_composed depth (expr_lasting given.1 scene lhs s h).2 rhs clean.right right)
  | ⟨_, _, .list items true⟩, clean, constant => (exprs_composed depth h items clean constant).list
  | ⟨_, _, .map [] true⟩, _, _ => .list .empty
  | ⟨_, _, .map (⟨key, value⟩ :: es) true⟩, clean, constant =>
    (entries_composed depth h (⟨key, value⟩ :: es) clean constant).map depth
  | ⟨id, pos, .get ⟨i, at', .path path⟩ ⟨j, k, .ident name⟩⟩, clean, constant => by
    obtain ⟨-, text⟩ :=
      text_of_read scene (e := ⟨id, pos, .get ⟨i, at', .path path⟩ ⟨j, k, .ident name⟩⟩) rfl rfl rfl s depth
    exact .use (text ▸ given.2 ⟨⟨i, at', .path path⟩, typeName path, name, s⟩ h constant clean.right.head
      ⟨path, clean.left.head, rfl⟩)

theorem exprs_composed (depth : Nat) {s : Progress} (h : I s) : ∀ es : List PhaseLang.Expr,
    Worded.Clean (Worded.ofExprs es) → PhaseLang.allConstant es = true →
    Composed W (usesOfAll scene s es) (Printer.commas (Printer.exprs depth ((Lower.exprs scene es).run s).1))
  | [], _, _ => .empty
  | e :: es, clean, constant => by
    obtain ⟨first, rest⟩ := Bool.and_eq_true_iff.mp constant
    have head := expr_composed depth h e clean.left first
    have tail := exprs_composed depth (expr_lasting given.1 scene e s h).2 es clean.right rest
    cases es with
    | nil =>
      rw [usesOfAll, usesOfAll, List.append_nil]
      exact head
    | cons e' es =>
      show Composed W _ (Printer.commas (_ :: _ :: _))
      rw [Printer.commas, String.intercalate_cons_cons]
      exact .joined (by simp) head tail

theorem entries_composed (depth : Nat) {s : Progress} (h : I s) : ∀ es : List PhaseLang.Entry,
    Worded.Clean (Worded.ofEntries es) → PhaseLang.allConstantEntries es = true →
    Composed W (usesOfEntries scene s es) (Printer.entries (depth + 1) ((Lower.entries scene es).run s).1)
  | [], _, _ => .empty
  | ⟨key, value⟩ :: es, clean, constant => by
    obtain ⟨⟨first, second⟩, rest⟩ := Bool.and_eq_true_iff.mp constant |>.imp_left Bool.and_eq_true_iff.mp
    have next := (expr_lasting given.1 scene key s h).2
    exact .joined (by simp) (.joined (by simp) (.indented _ (expr_composed (depth + 1) h key clean.left.left first))
        (expr_composed (depth + 1) next value clean.left.right second))
      (entries_composed depth (expr_lasting given.1 scene value _ next).2 es clean.right rest)

end

end

/-! ## Trees -/

theorem isConstant_of_read (scene : Scene) (s : Progress) {target : PhaseLang.Expr} {path : TypePath}
    (named : target.kind = .path path) (id j : Nat) (pos k : Position) (name : String) :
    ((Lower.expr scene ⟨id, pos, .get target ⟨j, k, .ident name⟩⟩).run s).1.isConstant =
      Use.isDirect scene ⟨target, typeName path, name, s⟩ := by
  obtain ⟨i, at', _⟩ := target
  obtain rfl := named
  rw [Use.isDirect, Use.isVariable, Use.asked, lower_read]
  generalize (isString scene ⟨i, at', .path path⟩).run s = asked
  split
  · rename_i text
    rw [text]
    rfl
  · rename_i direct
    rw [eq_false_of_ne_true direct, accessTo_eq, namesClass_of_className? rfl]
    show Expr.isConstant
      ((Access.choose true ((memberOf scene ⟨i, at', .path path⟩ name).run asked.2).1).apply _ name) = _
    rw [choose_of_class]
    split <;> simp_all <;> rfl

mutual

theorem expr_isConstant (scene : Scene) (s : Progress) : ∀ e : PhaseLang.Expr, e.isConstant = true →
    ((Lower.expr scene e).run s).1.isConstant = (usesOf scene s e).all (·.isDirect scene)
  | ⟨_, _, .literal value⟩, _ => rfl
  | ⟨_, _, .group inner⟩, constant => expr_isConstant scene s inner constant
  | ⟨_, _, .unary op operand leading⟩, constant => by
    have parts : (op == .not || op == .negate) = true ∧ operand.isConstant = true := by
      cases op <;> simp_all [PhaseLang.Expr.isConstant, ExprKind.isConstant]
    have inner := expr_isConstant scene s operand parts.2
    cases leading with
    | false =>
      show ((op == .not || op == .negate) && _) = _
      rw [parts.1]
      exact inner
    | true =>
      show ((op == .not || op == .negate) && Expr.isConstant (if Lower.mergesWith op operand then _ else _)) = _
      rw [parts.1]
      split <;> exact inner
  | ⟨_, _, .binary lhs op rhs⟩, constant | ⟨_, _, .logical lhs op rhs⟩, constant => by
    obtain ⟨left, right⟩ := Bool.and_eq_true_iff.mp constant
    rw [usesOf, usesOfKind, List.all_append, ← expr_isConstant scene _ lhs left, ← expr_isConstant scene _ rhs right]
    cases op <;> rfl
  | ⟨_, _, .list items true⟩, constant => exprs_isConstant scene s items constant
  | ⟨_, _, .map es true⟩, constant => entries_isConstant scene s es constant
  | ⟨id, pos, .get ⟨i, at', .path path⟩ ⟨j, k, .ident name⟩⟩, constant => by
    rw [usesOf, usesOfKind, className?, Option.map_some, Option.toList_some, List.all_cons, List.all_nil, Bool.and_true]
    exact isConstant_of_read scene s rfl id j pos k name

theorem exprs_isConstant (scene : Scene) (s : Progress) : ∀ es : List PhaseLang.Expr, PhaseLang.allConstant es = true →
    allConstant ((Lower.exprs scene es).run s).1 = (usesOfAll scene s es).all (·.isDirect scene)
  | [], _ => rfl
  | e :: es, constant => by
    obtain ⟨first, rest⟩ := Bool.and_eq_true_iff.mp constant
    rw [usesOfAll, List.all_append, ← expr_isConstant scene s e first, ← exprs_isConstant scene _ es rest]
    rfl

theorem entries_isConstant (scene : Scene) (s : Progress) : ∀ es : List PhaseLang.Entry,
    PhaseLang.allConstantEntries es = true →
    allConstantEntries ((Lower.entries scene es).run s).1 = (usesOfEntries scene s es).all (·.isDirect scene)
  | [], _ => rfl
  | ⟨key, value⟩ :: es, constant => by
    obtain ⟨⟨first, second⟩, rest⟩ := Bool.and_eq_true_iff.mp constant |>.imp_left Bool.and_eq_true_iff.mp
    rw [usesOfEntries, List.all_append, List.all_append, ← expr_isConstant scene s key first,
      ← expr_isConstant scene _ value second, ← entries_isConstant scene _ es rest]
    rfl

end

/-- How a member is written that is read from a class: as a constant if and only if the class is not that of
texts and the member is not found to be a variable. Where the declarations are known at the start, they
tell the class of texts and the member. -/
def Use.Written (scene : Scene) (start : Progress) (use : Use) (text : String) : Prop :=
  startsUpper use.name = true ∧ IsWord use.name ∧ (∃ path : TypePath, path.Clean ∧ use.cls = typeName path) ∧
  text = use.text scene ∧ (text = use.constant ↔ use.isDirect scene = true) ∧
  ∀ declared, start.context.Knows declared →
    (use.asked scene).1 = (settled declared (scene.typeOf use.target)).same (answer declared "String") ∧
    use.isVariable scene = ((scene.typeOf use.target).class?.bind fun c =>
      (firstMember? use.name (lineage declared scene.ns inheritanceLimit c)).map MemberInfo.ofMember).any (·.isVariable)

/-- What has the shape of a constant is written with literals, operators, brackets and what it reads from
classes. It is a constant of PHP if and only if all that it reads are constants of their classes. -/
theorem composed_of_isConstant {source file : String} {nextId next : Nat} {program : List PhaseLang.Stmt}
    (read : (readSource source file nextId).result = .ok (program, next)) {e : PhaseLang.Expr}
    (inside : .expr e ∈ Code.Route.whole.pieces (.stmts program)) (constant : e.isConstant = true) (scene : Scene)
    (progress : Progress) (depth : Nat) :
    let p := ((Lower.expr scene e).run progress).1
    Composed (Use.Written scene progress) (usesOf scene progress e) (Printer.expr depth p) ∧
      (p.isConstant = true ↔ ∀ use ∈ usesOf scene progress e, use.isDirect scene = true) := by
  intro p
  have lasting : Lasting fun s => ∀ declared, progress.context.Knows declared → s.context.Knows declared :=
    fun s name h declared knows => ((h declared knows).getType name).2
  have clean : Worded.Clean (Worded.ofExpr e) := Worded.fits_piece (c := .stmts program) (readSource_clean read) inside
  refine ⟨expr_composed
    ⟨lasting, fun use known upper word cls => ⟨upper, word, cls, rfl, use.text_eq_constant_iff scene, ?_⟩⟩
    depth (fun _ knows => knows) e clean constant, by rw [expr_isConstant scene progress e constant, List.all_eq_true]⟩
  · intro declared knows
    obtain ⟨asked, known⟩ := isString_evals scene declared use.target use.progress (known declared knows)
    have member := (memberOf_evals scene declared use.target use.name _ known).1
    exact ⟨asked, congrArg (·.any (·.isVariable)) member⟩

/-- The initial values of the fields of the classes at the top of a program. -/
def initialValues (program : List PhaseLang.Stmt) : List PhaseLang.Expr := program.flatMap fun s =>
  match s.kind with
  | .cls c => c.members.flatMap fun m =>
    match m.kind with
    | .field _ init => init.toList
    | _ => []
  | _ => []

theorem inside_of_initialValues {program : List PhaseLang.Stmt} {e : PhaseLang.Expr} (mem : e ∈ initialValues program) :
    .expr e ∈ Code.Route.whole.pieces (.stmts program) := by
  obtain ⟨s, top, mem⟩ := List.mem_flatMap.mp mem
  split at mem
  · rename_i c cls
    obtain ⟨m, member, mem⟩ := List.mem_flatMap.mp mem
    split at mem
    · rename_i type init field
      have inner : Code.memberKind m.kind ∈ (Code.members c.members).parts := List.mem_flatMap.mpr ⟨m, member, by simp⟩
      refine Code.Route.mem_of_next (d := .stmt s) (List.mem_map_of_mem top) ?_
      refine Code.Route.mem_of_next (d := .classBody c)
        (by simp [Code.Route.whole, Code.parts, cls, Code.ofStmtKind]) ?_
      refine Code.Route.mem_of_next (d := .members c.members) (by simp [Code.Route.whole, Code.parts]) ?_
      refine Code.Route.mem_of_next inner ?_
      refine Code.Route.mem_of_next (d := .optional init) (by simp [Code.Route.whole, Code.parts, field]) ?_
      exact Code.Route.mem_of_next (List.mem_map_of_mem mem) (Code.Route.self_mem _ _)
    · cases mem
  · cases mem

/-- `B.MAX` is written as a constant, and so the whole is one. -/
theorem composed_of_isConstant_sum :
    let program := programOf "class B \x7b const MAX = 1 \x7d\nclass A \x7b x = -(B.MAX + 1) \x7d"
    let scene : Scene := ⟨true, .ofProgram program {}, []⟩
    let progress : Progress := ⟨(typeProgram program {}).context, []⟩
    ∃ e ∈ initialValues program, e.isConstant = true ∧
      (usesOf scene progress e).map (·.constant) = ["B::MAX"] ∧
      Composed (Use.Written scene progress) (usesOf scene progress e) "-(B::MAX + 1)" ∧
      ((Lower.expr scene e).run progress).1.isConstant = true := by
  intro program scene progress
  obtain ⟨next, read⟩ :=
    exists_read_programOf "class B \x7b const MAX = 1 \x7d\nclass A \x7b x = -(B.MAX + 1) \x7d" (by decide +kernel)
  have some_value : ((initialValues program).any fun e => e.isConstant &&
      (usesOf scene progress e).map (·.constant) == ["B::MAX"] && (usesOf scene progress e).all (·.isDirect scene) &&
      Printer.expr 0 ((Lower.expr scene e).run progress).1 == "-(B::MAX + 1)") = true := by
    decide +kernel
  obtain ⟨e, mem, h⟩ := List.any_eq_true.mp some_value
  simp only [Bool.and_eq_true, beq_iff_eq, List.all_eq_true] at h
  obtain ⟨⟨⟨constant, uses⟩, direct⟩, text⟩ := h
  obtain ⟨composed, whole⟩ := composed_of_isConstant read (inside_of_initialValues mem) constant scene progress 0
  exact ⟨e, mem, constant, uses, text ▸ composed, whole.mpr direct⟩

/-- The initial value is a member of a wrapped text. -/
theorem initial_value_not_constant :
    (compile "class A \x7b x = String.MAX \x7d" "main.phs" 8 {}).outcome.php? =
      some "<?php\nclass A\n\x7b\n    public $x = \\Std\\PhaseString::wrap(string)->MAX;\n\x7d\n" := by
  decide +kernel

end PhaseLang.Php
