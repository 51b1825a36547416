import PhaseLang.Proofs.Php.Members
import PhaseLang.Proofs.Typing.Retyping

/-!
# Members of a class name

What is read from a class that is named, or from `static`, or assigned to there, is a member of the class
and takes `::`. Main result: it is written so unless its name is computed, or it is read where the
class is found to be that of texts, for which the read goes through the wrapper of texts.
-/

namespace PhaseLang.Php

/-! ## Accesses -/

/-- Whether a member is read or assigned to, its target and its name. -/
def access? : ExprKind → Option (Bool × PhaseLang.Expr × PhaseLang.Expr)
  | .get target field => some (true, target, field)
  | .set target field _ => some (false, target, field)
  | _ => none

/-- How a class is written that an expression names. -/
def className? : ExprKind → Option String
  | .path path => some (typeName path)
  | .static => some "static"
  | _ => none

/-- The member itself, if it is assigned to. -/
def Expr.place : Expr → Expr
  | .assign place _ => place
  | e => e

def MemberInfo.isVariable (info : MemberInfo) : Bool := info.isState && !info.isConst

def memberOf (scene : Scene) (target : PhaseLang.Expr) (name : String) : Lower (Option MemberInfo) :=
  match (scene.typeOf target).class? with
  | none => pure none
  | some c => findMember scene name inheritanceLimit c

/-- Whether a target is taken for a text; only reads ask for it. -/
def asksForText (scene : Scene) (reads : Bool) (target : PhaseLang.Expr) : Lower Bool :=
  if reads then isString scene target else pure false

theorem accessTo_eq (scene : Scene) (target : PhaseLang.Expr) (name : String) :
    accessTo scene target name = (do return .choose (namesClass scene target) (← memberOf scene target name)) := by
  unfold accessTo memberOf
  cases (scene.typeOf target).class? with
  | none => rfl
  | some c => rfl

theorem choose_of_class (info : Option MemberInfo) :
    Access.choose true info = if info.any (·.isVariable) then .classVar else .classMember := by
  cases info with
  | none => rfl
  | some info =>
    obtain ⟨isConst, isStatic, isState⟩ := info
    cases isConst <;> cases isStatic <;> cases isState <;> rfl

section
variable {scene : Scene} {target field : PhaseLang.Expr} {cls : String}

theorem namesClass_of_className? (named : className? target.kind = some cls) : namesClass scene target = true := by
  obtain ⟨_, _, kind⟩ := target
  cases kind <;> simp_all [className?, namesClass]

theorem expr_of_className? (scene : Scene) (named : className? target.kind = some cls) (progress : Progress)
    (depth : Nat) : Printer.expr depth ((Lower.expr scene target).run progress).1 = cls ∧
      ((Lower.expr scene target).run progress).2 = progress := by
  obtain ⟨_, _, kind⟩ := target
  cases kind with
  | path path | static =>
    obtain rfl := Option.some.inj named
    exact ⟨rfl, rfl⟩
  | _ => cases named

/-! ## Texts -/

variable {reads : Bool}

theorem text_of_computed (scene : Scene) (e : PhaseLang.Expr) (access : access? e.kind = some (reads, target, field))
    (named : className? target.kind = some cls) (computed : field.ident? = none) (progress : Progress) (depth : Nat) :
    ∃ name, Printer.expr depth ((Lower.expr scene e).run progress).1.place =
      cls ++ "->" ++ Printer.braces name := by
  refine ⟨Printer.expr depth ((Lower.expr scene field).run ((Lower.expr scene target).run progress).2).1, ?_⟩
  rw [← (expr_of_className? scene named progress depth).1]
  obtain ⟨_, _, kind⟩ := e
  obtain ⟨_, _, field⟩ := field
  cases kind with
  | get | set =>
    cases access
    cases field with
    | ident name => cases computed
    | _ => rfl
  | _ => cases access

theorem colons_dollar (cls name : String) : cls ++ "::$" ++ name = cls ++ "::" ++ ("$" ++ name) := by
  apply String.toList_inj.mp
  simp [String.toList_append]

theorem place_apply (access : Access) (p : Expr) (name : String) :
    (access.apply p name).place = access.apply p name := by
  cases access <;> rfl

theorem text_apply (named : className? target.kind = some cls) (name : String) (progress : Progress) (depth : Nat) :
    Printer.expr depth (((do
      let access ← accessTo scene target name
      return access.apply (← Lower.expr scene target) name : Lower Expr)).run progress).1 =
      cls ++ "::" ++
        if ((memberOf scene target name).run progress).1.any (·.isVariable) then "$" ++ name else name := by
  rw [accessTo_eq, namesClass_of_className? named]
  show Printer.expr depth ((Access.choose true ((memberOf scene target name).run progress).1).apply
    ((Lower.expr scene target).run ((memberOf scene target name).run progress).2).1 name) = _
  rw [choose_of_class, ← (expr_of_className? scene named ((memberOf scene target name).run progress).2 depth).1]
  split
  · exact colons_dollar _ name
  · rfl

/-- How a member of a named class is written, if the class is asked first whether it is that of texts. -/
def classText (scene : Scene) (asked : Bool × Progress) (target : PhaseLang.Expr) (cls name : String) : String :=
  if asked.1 then "\\Std\\PhaseString::wrap(" ++ cls ++ ")->" ++ name
  else cls ++ "::" ++ if ((memberOf scene target name).run asked.2).1.any (·.isVariable) then "$" ++ name else name

theorem lower_read (scene : Scene) (target : PhaseLang.Expr) (id i : Nat) (pos at' : Position) (name : String)
    (progress : Progress) :
    ((Lower.expr scene ⟨id, pos, .get target ⟨i, at', .ident name⟩⟩).run progress).1 =
      ((if ((isString scene target).run progress).1 then
          do return Lower.stringMember (← Lower.expr scene target) name
        else do
          let access ← accessTo scene target name
          return access.apply (← Lower.expr scene target) name : Lower Expr).run
        ((isString scene target).run progress).2).1 := rfl

theorem text_of_read (scene : Scene) {e : PhaseLang.Expr} (read : e.kind = .get target field)
    (named : className? target.kind = some cls) {name : String} (plain : field.ident? = some name) (progress : Progress)
    (depth : Nat) :
    let p := ((Lower.expr scene e).run progress).1
    p.place = p ∧ Printer.expr depth p = classText scene ((isString scene target).run progress) target cls name := by
  intro p
  obtain ⟨id, pos, kind⟩ := e
  obtain ⟨i, at', rfl⟩ := field.eq_of_ident? plain
  obtain rfl : kind = _ := read
  have lowered : p = _ := lower_read scene target id i pos at' name progress
  generalize (isString scene target).run progress = asked at lowered ⊢
  rw [lowered, classText]
  split
  · have text := (expr_of_className? scene named asked.2 depth).1
    have written (p : Expr) : Printer.expr depth (Lower.stringMember p name) =
        "\\Std\\PhaseString::wrap" ++ ("(" ++ Printer.expr depth p ++ ")") ++ "->" ++ name := rfl
    refine ⟨rfl, (written _).trans ?_⟩
    rw [StateT.run] at text
    rw [text]
    apply String.toList_inj.mp
    simp [String.toList_append]
  · exact ⟨place_apply _ _ name, text_apply named name asked.2 depth⟩

theorem text_of_plain (scene : Scene) (e : PhaseLang.Expr) (access : access? e.kind = some (reads, target, field))
    (named : className? target.kind = some cls) {name : String} (plain : field.ident? = some name) (progress : Progress)
    (depth : Nat) :
    Printer.expr depth ((Lower.expr scene e).run progress).1.place =
      classText scene ((asksForText scene reads target).run progress) target cls name := by
  cases kind : e.kind with
  | get =>
    rw [kind] at access
    cases access
    obtain ⟨self, text⟩ := text_of_read scene kind named plain progress depth
    rw [self]
    exact text
  | set =>
    obtain ⟨_, _, _⟩ := e
    obtain rfl := kind
    cases access
    obtain ⟨_, _, rfl⟩ := field.eq_of_ident? plain
    exact text_apply named name progress depth
  | _ =>
    rw [kind] at access
    cases access

/-! ## Contexts without files -/

/-- What a type comes down to where some declarations are known. -/
def settled (declared : String → Option Ty) (type : Ty) : Ty :=
  match type.nonNull with
  | .unknown (some path) => answer declared (QualifiedName.key path.qualifiedName)
  | type => type

theorem isString_evals (scene : Scene) (declared : String → Option Ty) (e : PhaseLang.Expr) :
    Evals declared (isString scene e)
    ((settled declared (scene.typeOf e)).same (answer declared "String")) := by
  have compared (type : Ty) : Evals declared (do return type.same (← lookUp "String"))
      (type.same (answer declared "String")) := (lookUp_evals "String").bind (evals_pure _)
  unfold isString settled
  generalize (scene.typeOf e).nonNull = type
  cases type with
  | unknown path =>
    cases path with
    | none => exact compared _
    | some path => exact (lookUp_evals _).bind (compared _)
  | _ => exact compared _

theorem memberOf_evals (scene : Scene) (declared : String → Option Ty) (target : PhaseLang.Expr) (name : String) :
    Evals declared (memberOf scene target name)
    ((scene.typeOf target).class?.bind fun c =>
      (firstMember? name (lineage declared scene.ns inheritanceLimit c)).map .ofMember) := by
  unfold memberOf
  cases (scene.typeOf target).class? with
  | none => exact evals_pure _
  | some c => exact findMember_evals scene name inheritanceLimit c

end

/-! ## Class names -/

/-- The text has `::` between a class and the member of a plain or computed name. -/
def IsStatic (cls : String) (field : PhaseLang.Expr) (text : String) : Prop :=
  ∃ member, text = cls ++ "::" ++ member ∧ ∀ name ∈ field.ident?, member = name ∨ member = "$" ++ name

theorem not_isStatic_wrapped {cls name : String} {field : PhaseLang.Expr} (plain : field.ident? = some name) :
    ¬IsStatic cls field ("\\Std\\PhaseString::wrap(" ++ cls ++ ")->" ++ name) := by
  rintro ⟨member, same, names⟩
  have same := congrArg (·.toList.length) same
  rcases names name plain with rfl | rfl <;> simp [String.toList_append] at same <;> omega

/-- A member of a named class is written with `::` if and only if its name is plain and it is not read from
the class of texts; and with `::$` if and only if in addition it is found to be a variable. Where the
declarations are known, the class of texts is what `String` means from the root, and the member is
the first of its name in the lineage of the class. -/
theorem isStatic_iff (scene : Scene) (progress : Progress) (depth : Nat) {e target field : PhaseLang.Expr}
    {reads : Bool}
    {cls : String} (access : access? e.kind = some (reads, target, field)) (named : className? target.kind = some cls) :
    let text := Printer.expr depth ((Lower.expr scene e).run progress).1.place
    let asked := (asksForText scene reads target).run progress
    (IsStatic cls field text ↔ field.ident? ≠ none ∧ asked.1 = false) ∧
    (∀ name ∈ field.ident?, text = cls ++ "::$" ++ name ↔
      asked.1 = false ∧ ∃ info ∈ ((memberOf scene target name).run asked.2).1, info.isVariable = true) ∧
    ∀ declared, progress.context.Knows declared →
      asked.1 = (reads && (settled declared (scene.typeOf target)).same (answer declared "String")) ∧
      ∀ name, ((memberOf scene target name).run asked.2).1 = (scene.typeOf target).class?.bind fun c =>
        (firstMember? name (lineage declared scene.ns inheritanceLimit c)).map .ofMember := by
  intro text asked
  have plainText {name : String} (plain : field.ident? = some name) : text = classText scene asked target cls name :=
    text_of_plain scene e access named plain progress depth
  have static : IsStatic cls field text ↔ field.ident? ≠ none ∧ asked.1 = false := by
    constructor
    · intro static
      cases plain : field.ident? with
      | none =>
        obtain ⟨member, same, _⟩ := static
        obtain ⟨name, written⟩ := text_of_computed scene e access named plain progress depth
        have same := congrArg String.toList (written.symm.trans same)
        simp [String.toList_append] at same
      | some name =>
        refine ⟨by simp, Bool.eq_false_iff.mpr fun wraps => ?_⟩
        rw [plainText plain, classText, if_pos wraps] at static
        exact not_isStatic_wrapped plain static
    · rintro ⟨some, direct⟩
      obtain ⟨name, plain⟩ := Option.ne_none_iff_exists'.mp some
      rw [plainText plain, classText, if_neg (Bool.eq_false_iff.mp direct)]
      refine ⟨_, rfl, ?_⟩
      split <;> simp [plain]
  refine ⟨static, fun name plain => ?_, fun declared knows => ?_⟩
  · rw [colons_dollar]
    constructor
    · intro written
      have direct := (static.mp ⟨"$" ++ name, written, by simp [Option.mem_def.mp plain]⟩).2
      refine ⟨direct, Option.any_eq_true _ _ |>.mp ?_⟩
      by_contra other
      rw [plainText plain, classText, if_neg (Bool.eq_false_iff.mp direct), if_neg other] at written
      have written := congrArg (·.toList.length) written
      simp [String.toList_append] at written
    · rintro ⟨direct, info⟩
      rw [plainText plain, classText, if_neg (Bool.eq_false_iff.mp direct), if_pos (Option.any_eq_true _ _ |>.mpr info)]
  · cases reads with
    | false => exact ⟨rfl, fun name => (memberOf_evals scene declared target name progress knows).1⟩
    | true =>
      obtain ⟨value, known⟩ := isString_evals scene declared target progress knows
      exact ⟨value, fun name => (memberOf_evals scene declared target name _ known).1⟩

theorem isStatic_iff_inherited :
    let program := programOf "class A \x7b static x = 1 \x7d\nclass B extends A \x7b\x7d\nB.x"
    let scene : Scene := ⟨true, .ofProgram program {}, []⟩
    let progress : Progress := ⟨(typeProgram program {}).context, []⟩
    ∃ e ∈ Nodes.ofStmts program, Printer.expr 0 ((Lower.expr scene e).run progress).1.place = "B::$x" := by
  intro program scene progress
  have some_access : ((Nodes.ofStmts program).any fun e => (access? e.kind).any fun a =>
      className? a.2.1.kind == some "B" && a.2.2.ident? == some "x" &&
      !((asksForText scene a.1 a.2.1).run progress).1 &&
        ((memberOf scene a.2.1 "x").run ((asksForText scene a.1 a.2.1).run progress).2).1.any (·.isVariable)) =
        true := by
    decide +kernel
  obtain ⟨e, mem, h⟩ := List.any_eq_true.mp some_access
  obtain ⟨⟨reads, target, field⟩, access, h⟩ := Option.any_eq_true _ _ |>.mp h
  simp only [Bool.and_eq_true, beq_iff_eq, Bool.not_eq_true'] at h
  obtain ⟨⟨⟨named, plain⟩, direct⟩, found⟩ := h
  refine ⟨e, mem, ?_⟩
  exact ((isStatic_iff scene progress 0 access named).2.1 "x" plain).mpr ⟨direct, Option.any_eq_true _ _ |>.mp found⟩

/-- What is read from `String` is read from a wrapped text, and a computed name takes `->`. -/
theorem class_members_of_objects :
    (compile "String.x" "main.phs" 8 {}).outcome.php? = some "<?php\n\\Std\\PhaseString::wrap(string)->x;\n" ∧
    (compile "class A \x7b\x7d\nA.\x7b\x22x\x22\x7d = String.\x7b1\x7d" "main.phs" 8 {}).outcome.php? =
      some "<?php\nclass A\n\x7b\n\x7d\nA->\x7b\x22x\x22\x7d = string->\x7b1\x7d;\n" := by
  decide +kernel

end PhaseLang.Php
