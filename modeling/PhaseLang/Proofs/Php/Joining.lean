import PhaseLang.Proofs.Php.Sessions
import PhaseLang.Proofs.Typing.Equality
import PhaseLang.Proofs.Typing.Texts

/-!
# Joined strings

PHP adds with `+` and joins strings with `.`, and which of the two a sum becomes is asked of a
context that may have changed since the sum was typed. Main result: in every session a sum that
starts with a text is joined, and so an interpolated string is a row of its parts with `.` between them.
-/

namespace PhaseLang.Php

variable {e lhs rhs : PhaseLang.Expr}

/-! ## Asking for strings -/

variable {s : Progress}

theorem run_lookUp_of_known {name : String} {t : Ty}
    (known : s.context.types.get? (QualifiedName.key name) = some t) : (lookUp name).run s = (t, s) := by
  have asked : s.context.getType name = (t, s.context, []) := by simp only [Context.getType, known]
  have looked : (lookUp name).run s = ((s.context.getType name).1,
      ⟨(s.context.getType name).2.1, s.diagnostics ++ (s.context.getType name).2.2⟩) := rfl
  rw [looked, asked, List.append_nil]

theorem isString_of_known {scene : Scene} {t : Ty}
    (entry : scene.names.types.get? e.id = some t) (answers : t.Answers "String")
    (known : s.context.types.get? "String" = some t) : ((isString scene e).run s).1 = true := by
  have type : scene.typeOf e = t := by rw [Scene.typeOf, TypeTable.typeOf?, entry, Option.getD_some]
  have asked : (lookUp "String").run s = (t, s) := run_lookUp_of_known known
  have compared : t.same ((lookUp "String").run s).1 = true := by rw [asked, Ty.same_self]
  unfold isString
  rw [type]
  rcases answers with declared | rfl
  · cases t with
    | classOf c => exact compared
    | func f => exact compared
    | _ => exact declared.elim
  · have path : (TypePath.ofQualified "String").qualifiedName = "String" := by decide
    show Ty.same ((lookUp _).run s).1 ((lookUp "String").run ((lookUp _).run s).2).1 = true
    rw [path, asked]
    exact compared

/-! ## What an expression becomes -/

/-- Where the lowering of a program can stand: in any namespace, after any names were looked up. -/
structure Underway (program : List PhaseLang.Stmt) (typing : Context) (scene : Scene) (s : Progress) : Prop where
  names : scene.names = .ofProgram program typing
  context : ∃ looked, s.context = (typeProgram program typing).context.afterLookUps looked

def LowersTo (program : List PhaseLang.Stmt) (typing : Context) (e : PhaseLang.Expr) (p : Expr) : Prop :=
  ∃ scene s, Underway program typing scene s ∧ ((Lower.expr scene e).run s).1 = p

theorem lasting_afterLookUps (c : Context) : Context.Lasting fun c' => ∃ looked, c' = c.afterLookUps looked := by
  rintro _ name ⟨looked, rfl⟩
  refine ⟨looked ++ [name], ?_⟩
  rw [Context.afterLookUps, Context.afterLookUps, List.foldl_append]
  rfl

section
variable {program : List PhaseLang.Stmt} {typing : Context} {e : PhaseLang.Expr} {p : Expr}

theorem LowersTo.literal {value : Literal} (h : LowersTo program typing e p) (kind : e.kind = .literal value) :
    p = .literal value := by
  obtain ⟨scene, s, _, rfl⟩ := h
  obtain ⟨id, pos, _⟩ := e
  cases kind
  rfl

theorem LowersTo.group {inner : PhaseLang.Expr} (h : LowersTo program typing e p) (kind : e.kind = .group inner) :
    ∃ q, p = .group q ∧ LowersTo program typing inner q := by
  obtain ⟨scene, s, here, rfl⟩ := h
  obtain ⟨id, pos, _⟩ := e
  cases kind
  refine ⟨((Lower.expr scene inner).run s).1, ?_, scene, s, here, rfl⟩
  rfl

theorem LowersTo.joined (h : LowersTo program typing e p)
    (kind : e.kind = .binary lhs .add rhs)
    (joins : ∀ scene s, Underway program typing scene s → ((isString scene lhs).run s).1 = true) :
    ∃ l r, p = .binary l .concat r ∧ LowersTo program typing lhs l ∧ LowersTo program typing rhs r := by
  obtain ⟨scene, s, here, rfl⟩ := h
  obtain ⟨id, pos, _⟩ := e
  cases kind
  have lasting := lasting_of_context (lasting_afterLookUps (typeProgram program typing).context)
  -- the question comes first, then the left operand, then the right one
  let asked := ((isString scene lhs).run s).2
  let left := (Lower.expr scene lhs).run asked
  have before : Underway program typing scene asked :=
    ⟨here.names, (isString_ensures lasting scene lhs s here.context).2⟩
  have between : Underway program typing scene left.2 :=
    ⟨here.names, (expr_lasting lasting scene lhs asked before.context).2⟩
  refine ⟨left.1, ((Lower.expr scene rhs).run left.2).1, ?_, ⟨scene, asked, before, rfl⟩, scene, left.2, between, rfl⟩
  have lowered : ((Lower.expr scene ⟨id, pos, .binary lhs .add rhs⟩).run s).1 = .binary left.1
      (if ((isString scene lhs).run s).1 then .concat else .add) ((Lower.expr scene rhs).run left.2).1 := by
    rfl
  rw [lowered, joins scene s here, if_pos rfl]

end

/-! ## Interpolated strings -/

inductive Part (program : List PhaseLang.Stmt) (typing : Context) : PhaseLang.Expr → Expr → Prop
  | fragment {part : PhaseLang.Expr} {text : String} (h : part.kind = .literal (.string text)) :
      Part program typing part (.literal (.string text))
  | embedded {part inner : PhaseLang.Expr} {p : Expr} (h : part.kind = .group inner)
      (hp : LowersTo program typing inner p) : Part program typing part (.group p)

def joinAll (p : Expr) (ps : List Expr) : Expr := ps.foldl (fun p q => .binary p .concat q) p

theorem print_join (depth : Nat) (p q : Expr) :
    Printer.expr depth (.binary p .concat q) = Printer.expr depth p ++ " . " ++ Printer.expr depth q := by
  have spaced : " " ++ "." ++ " " = " . " := by decide
  rw [Printer.expr, BinaryOp.text, ← spaced]
  simp only [String.append_assoc]

theorem print_joinAll (depth : Nat) (ps : List Expr) : ∀ p,
    Printer.expr depth (joinAll p ps) = " . ".intercalate ((p :: ps).map (Printer.expr depth)) := by
  induction ps with
  | nil =>
    intro p
    rfl
  | cons q ps ih =>
    intro p
    have step : joinAll p (q :: ps) = joinAll (.binary p .concat q) ps := rfl
    rw [step, ih, List.map_cons, print_join]
    rfl

theorem joinAll_concat (p : Expr) (ps : List Expr) (q : Expr) :
    joinAll p (ps ++ [q]) = .binary (joinAll p ps) .concat q := by
  rw [joinAll, List.foldl_append]
  rfl

/-! ## Sums -/

/-- The expression starts with a string literal. -/
def Expr.OpensText : Expr → Prop
  | .literal (.string _) => True
  | .group p => p.OpensText
  | .binary p op _ => (op = .add ∨ op = .concat) ∧ p.OpensText
  | _ => False

def Adds (p : Expr) : Prop := ∀ l r, p = .binary l .add r → ¬ l.OpensText

theorem makes_adds {kind : ExprKind} {p : Expr}
    (m : Makes (fun lhs => ¬ lhs.kind.IsText) (fun kind p => p.OpensText → kind.IsText) kind p) :
    (p.OpensText → kind.IsText) ∧ Adds p := by
  cases m with
  | binary op hp hq sum =>
    cases op with
    | add =>
      refine ⟨fun ho => .add (hp ho.2) _, fun l r same ho => ?_⟩
      cases same
      exact sum rfl (hp ho)
    | concat => exact ⟨fun _ => .concat _ _, by simp [Adds, Lower.binaryOp]⟩
    | _ => exact ⟨by simp [Expr.OpensText, Lower.binaryOp], by simp [Adds, Lower.binaryOp]⟩
  | join hp hq => exact ⟨fun ho => .add (hp ho.2) _, by simp [Adds]⟩
  | group hp => exact ⟨fun ho => .group (hp ho), by simp [Adds]⟩
  | literal value =>
    refine ⟨fun ho => ?_, by simp [Adds]⟩
    cases value with
    | string text => exact .literal text
    | _ => exact ho.elim
  | logical op => cases op <;> exact ⟨by simp [Expr.OpensText, Lower.logicalOp], by simp [Adds, Lower.logicalOp]⟩
  | get field access => cases access <;> exact ⟨by simp [Expr.OpensText, Access.apply], by simp [Adds, Access.apply]⟩
  | list es native | map es native =>
    cases native <;> exact ⟨by simp [Expr.OpensText, Lower.wrapped], by simp [Adds, Lower.wrapped]⟩
  | _ => exact ⟨by simp [Expr.OpensText, Lower.stringMember], by simp [Adds, Lower.stringMember]⟩

/-! ## Programs -/

theorem node_lhs_cited {program : List PhaseLang.Stmt} {op : PhaseLang.BinaryOp}
    (cited : .node e ∈ Cited.ofStmts program) (kind : e.kind = .binary lhs op rhs) :
    .node lhs ∈ Cited.ofStmts program := by
  refine (visits_faithful program {}).whole e cited _ ?_
  obtain ⟨id, pos, _⟩ := e
  obtain ⟨id', pos', kind'⟩ := lhs
  cases kind
  simp [Cited.ofExpr, Cited.ofKind]

section
variable {loader : Option Loader} (declares : ∀ l ∈ loader, l.Declares) {typing : Context}
  (provides : typing.Provides loader) {source file : String} {nextId next : Nat} {program : List PhaseLang.Stmt}
  (read : (readSource source file nextId).result = .ok (program, next))
include declares provides read

theorem isString_of_text (cited : .node e ∈ Cited.ofStmts program) (text : e.kind.IsText)
    {scene : Scene} (here : Underway program typing scene s) : ((isString scene e).run s).1 = true := by
  obtain ⟨t, entry, known⟩ := typeProgram_text read typing cited text
  have answers := (provides.typeProgram declares read).answers "String" t known
  obtain ⟨looked, same⟩ := here.context
  refine isString_of_known (by rw [here.names]; exact entry) answers ?_
  rw [same]
  exact (Context.lasting_known "String" t).afterLookUps looked known

theorem text_joined {p : Expr} (cited : .node e ∈ Cited.ofStmts program)
    (kind : e.kind = .binary lhs .add rhs) (text : lhs.kind.IsText) (h : LowersTo program typing e p) :
    ∃ l r, p = .binary l .concat r ∧ LowersTo program typing lhs l ∧ LowersTo program typing rhs r :=
  h.joined kind fun _ _ here => isString_of_text declares provides read (node_lhs_cited cited kind) text here

variable {parts : List PhaseLang.Expr}

theorem joined_snoc {part : PhaseLang.Expr} {first : Expr}
    (cited : .node e ∈ Cited.ofStmts program) (kind : e.kind = .binary lhs .add part) (text : lhs.kind.IsText)
    (before : ∀ l, LowersTo program typing lhs l →
      ∃ ps, List.Forall₂ (Part program typing) parts ps ∧ l = joinAll first ps)
    (last : ∀ r, LowersTo program typing part r → Part program typing part r) (p : Expr)
    (h : LowersTo program typing e p) :
    ∃ ps, List.Forall₂ (Part program typing) (parts ++ [part]) ps ∧ p = joinAll first ps := by
  obtain ⟨l, r, rfl, hl, hr⟩ := text_joined declares provides read cited kind text h
  obtain ⟨ps, hps, rfl⟩ := before l hl
  exact ⟨ps ++ [r], List.rel_append hps (.cons (last r hr) .nil), (joinAll_concat first ps r).symm⟩

theorem template_joined {text : String} (h : Template text e parts)
    (cited : .node e ∈ Cited.ofStmts program) : ∀ p, LowersTo program typing e p →
    ∃ ps, List.Forall₂ (Part program typing) parts ps ∧ p = joinAll (.literal (.string text)) ps := by
  induction h with
  | first he => exact fun p hp => ⟨[], .nil, hp.literal he⟩
  | fragment h he hpart ih =>
    have earlier := ih (node_lhs_cited cited he)
    refine joined_snoc declares provides read cited he h.isText earlier fun r hr => ?_
    rw [hr.literal hpart]
    exact .fragment hpart
  | embedded h he hpart ih =>
    have earlier := ih (node_lhs_cited cited he)
    refine joined_snoc declares provides read cited he h.isText earlier fun r hr => ?_
    obtain ⟨q, rfl, hq⟩ := hr.group hpart
    exact .embedded hpart hq

theorem making_adds : Making (fun s => ∃ looked, s.context = (typeProgram program typing).context.afterLookUps looked)
    (.ofProgram program typing)
    (fun kind => ∀ lhs op rhs, kind = .binary lhs op rhs → .node lhs ∈ Cited.ofStmts program)
    (fun lhs => ¬ lhs.kind.IsText) (fun kind p => p.OpensText → kind.IsText) Adds where
  lasting := lasting_of_context (lasting_afterLookUps _)
  sum names cited context plain text := by
    rw [isString_of_text declares provides read (cited _ _ _ rfl) text ⟨names, context⟩] at plain
    exact Bool.noConfusion plain
  made _ m := makes_adds m
  read _ := by simp
  readIndex _ := by simp
  added h := by cases h <;> simp [Adds]
  bound _ _ := by simp [Adds]
  loop _ _ := by simp [Adds]

theorem program_adds (version : Nat) (start : s.context = (typeProgram program typing).context) :
    Every Adds (Pieces.ofStmts ((Lower.stmts (.start program typing version) program).run s).1) := by
  have making := making_adds declares provides read
  refine (stmts_makes making rfl program ?_ s ⟨[], start⟩).1
  exact fun e cited lhs op rhs kind => node_lhs_cited cited kind

end

/-- In a session whose loader finds declarations, every sum that starts with a text is joined.
An interpolated string is a row of its fragments and of its embedded expressions in parentheses, and
no sum that is printed starts with a string. -/
theorem session_joins_texts {loader : Option Loader} (declares : ∀ l ∈ loader, l.Declares) {context : Context}
    (session : Session loader context) {source file : String} {nextId : Nat} {program : List PhaseLang.Stmt}
    (read : (readSource source file context.nextId).result = .ok (program, nextId)) (version : Nat) :
    let typing : Context := { context with nextId }
    let php := ((Lower.stmts (.start program typing version) program).run ⟨(typeProgram program typing).context, []⟩).1
    (∀ e lhs rhs, .node e ∈ Cited.ofStmts program → e.kind = .binary lhs .add rhs → lhs.kind.IsText →
      ∀ p, LowersTo program typing e p → ∃ l r, p = .binary l .concat r ∧
        LowersTo program typing lhs l ∧ LowersTo program typing rhs r ∧
        ∀ depth, Printer.expr depth p = Printer.expr depth l ++ " . " ++ Printer.expr depth r) ∧
    (∀ rules first c c' e, (Grammar.interpolation rules first).run c = .ok (e, c') → .node e ∈ Cited.ofStmts program →
      ∀ p, LowersTo program typing e p → ∃ parts ps, Template first.text e parts ∧
        List.Forall₂ (Part program typing) parts ps ∧ p = joinAll (.literal (.string first.text)) ps ∧
        ∀ depth, Printer.expr depth p =
          " . ".intercalate ((.literal (.string first.text) :: ps).map (Printer.expr depth))) ∧
    (compile source file version context).outcome.php? = some (Printer.program php) ∧
    ∀ p q, .binary p .add q ∈ Pieces.ofStmts php → ¬ p.OpensText := by
  intro typing php
  have provides : typing.Provides loader := ⟨(session.provides declares).loader, (session.provides declares).answers⟩
  refine ⟨?_, ?_, (compile_of_read version read).1, ?_⟩
  · intro e lhs rhs cited kind text p hp
    obtain ⟨l, r, rfl, hl, hr⟩ := text_joined declares provides read cited kind text hp
    exact ⟨l, r, rfl, hl, hr, fun depth => print_join depth l r⟩
  · intro rules first c c' e made cited p hp
    obtain ⟨parts, h⟩ := Grammar.interpolation_template rules first c e c' made
    obtain ⟨ps, hps, rfl⟩ := template_joined declares provides read h cited p hp
    exact ⟨parts, ps, h, hps, rfl, fun depth => print_joinAll depth ps _⟩
  · intro p q hmem
    exact program_adds declares provides read version rfl _ hmem p q rfl

def addsToText : Citation → Bool
  | .node ⟨_, _, .binary lhs .add _⟩ => decide lhs.kind.IsText
  | _ => false

theorem exists_of_addsToText {c : Citation} (h : addsToText c = true) :
    ∃ e lhs rhs, c = .node e ∧ e.kind = .binary lhs .add rhs ∧ lhs.kind.IsText := by
  unfold addsToText at h
  split at h
  · exact ⟨_, _, _, rfl, rfl, of_decide_eq_true h⟩
  · simp at h

/-- The first run keeps `String` as a name that nothing declares, and then a program declares it. -/
theorem session_joins_texts_own_class :
    let loader : Loader := { root := "lib", read := fun _ => .error .notFound }
    let context := (compile "var a = 'x'" "a.phs" 8 { loader := some loader }).context
    let source := "class String \x7b\x7d\nvar n = 1\nvar s = \"a $\x7bn\x7d b\" + n"
    (context.types.get? "String").map Ty.text = some "::String" ∧
    (compile source "b.phs" 8 context).outcome.php? =
      some "<?php\nclass String\n\x7b\n\x7d\n$n = 1;\n$s = \"a \" . ($n) . \" b\" . $n;\n" ∧
    ∃ program nextId, (readSource source "b.phs" context.nextId).result = .ok (program, nextId) ∧
      ∃ e lhs rhs, .node e ∈ Cited.ofStmts program ∧ e.kind = .binary lhs .add rhs ∧ lhs.kind.IsText ∧
        ∀ p, LowersTo program { context with nextId } e p → ∃ l r, p = .binary l .concat r := by
  intro loader context source
  have sums : ((readSource source "b.phs" context.nextId).result.toOption.map fun out =>
      (Cited.ofStmts out.1).any addsToText) = some true := by decide +kernel
  refine ⟨by decide +kernel, by decide +kernel, ?_⟩
  cases read : (readSource source "b.phs" context.nextId).result with
  | error e => simp [read, Except.toOption] at sums
  | ok out =>
    obtain ⟨program, nextId⟩ := out
    rw [read] at sums
    obtain ⟨c, cited, found⟩ := List.any_eq_true.mp (Option.some.inj sums)
    obtain ⟨e, lhs, rhs, rfl, kind, text⟩ := exists_of_addsToText found
    have declares : ∀ l ∈ some loader, l.Declares := by
      intro l hl
      obtain rfl := Option.some.inj hl
      exact Loader.declares_files "lib" "phs" _
    have joined := (session_joins_texts declares (.compiled .fresh "var a = 'x'" "a.phs" 8) read 8).1
    refine ⟨program, nextId, rfl, e, lhs, rhs, cited, kind, text, fun p hp => ?_⟩
    obtain ⟨l, r, same, _⟩ := joined e lhs rhs cited kind text p hp
    exact ⟨l, r, same⟩

end PhaseLang.Php
