import PhaseLang.Compile
import PhaseLang.Proofs.Grammar.Numbering
import PhaseLang.Proofs.Php.Making

/-!
# Targets of members, items and calls

PHP takes `->`, `::`, `[..]` and `(..)` after some expressions only. Lowering writes them after
whatever the target is lowered to. Main result: the targets that PHP does not take are those
whose text is of a kind in `Head.broken`, and each of these comes up before each suffix.
-/

namespace PhaseLang.Php

inductive Suffix where
  | arrow
  | colons
  | bracket
  | arguments
  /-- Arguments after `new` and the target. -/
  | creation
deriving DecidableEq, Repr

/-- What the text of an expression is, as far as a suffix is concerned. -/
inductive Head where
  | var
  /-- A class, a function, `static` or `parent::method`. -/
  | name
  | text
  | array
  /-- Something with a suffix of its own. -/
  | chain
  | group
  | number
  | constant
  | creation
  | closure
  | sum
  | ternary
  | choice
  /-- Any other operator. -/
  | operator
deriving DecidableEq, Repr

namespace Head

def isLegal : Head → Bool
  | var | name | text | array | chain | group => true
  | _ => false

/-- The kinds of text that are written before a suffix although PHP takes none after them. -/
def broken : List Head := [number, constant, creation, closure, sum, ternary, choice]

theorem isLegal_iff {head : Head} (h : head ≠ operator) : head.isLegal = true ↔ head ∉ broken := by
  cases head <;> revert h <;> decide

end Head

def Expr.head : Expr → Head
  | .var _ | .this => .var
  | .static | .name _ | .parent _ => .name
  | .literal (.string _) => .text
  | .literal (.number _) => .number
  | .literal _ => .constant
  | .list _ | .map _ => .array
  | .group _ => .group
  | .call _ _ | .attribute _ _ | .functionRef _ | .member _ _ | .computed _ _ | .classMember _ _
  | .classVar _ _ | .index _ _ => .chain
  | .create _ _ => .creation
  | .closure _ _ _ _ => .closure
  | .binary _ .add _ | .binary _ .concat _ => .sum
  | .ternary _ _ _ => .ternary
  | .choose _ _ => .choice
  | _ => .operator

structure Target where
  suffix : Suffix
  expr : Expr

namespace Target

def row (t : Target) : Suffix × Head := (t.suffix, t.expr.head)

def isLegal (t : Target) : Bool := t.expr.head.isLegal

end Target

def Expr.target? : Expr → Option Target
  | .member target _ | .computed target _ => some ⟨.arrow, target⟩
  | .classMember target _ | .classVar target _ => some ⟨.colons, target⟩
  | .index target _ => some ⟨.bracket, target⟩
  | .call callee _ => some ⟨.arguments, callee⟩
  | .create cls _ => some ⟨.creation, cls⟩
  | _ => none

/-! ## One step -/

/-- What is read as a primary expression is not lowered to an operator. -/
def Primary (kind : ExprKind) (p : Expr) : Prop :=
  (9 ≤ kind.tier ∨ kind.isTemplate = true) → p.head ≠ .operator

def Aimed (p : Expr) : Prop := ∀ t ∈ p.target?, t.expr.head ≠ .operator

theorem makes_aimed {kind : ExprKind} {p : Expr} (layered : kind.Layered) (m : Makes (fun _ => True) Primary kind p) :
    Primary kind p ∧ Aimed p := by
  -- Targets are read as primary expressions.
  have aimed {e : PhaseLang.Expr} {q : Expr} (hs : e.StandsAt 9) (hq : Primary e.kind q) : q.head ≠ .operator := hq hs
  cases m with
  | binary op hp hq =>
    refine ⟨fun h => ?_, by simp [Aimed, Expr.target?]⟩
    cases op <;> simp_all [ExprKind.tier, PhaseLang.BinaryOp.tier, ExprKind.isTemplate, Lower.binaryOp, Expr.head]
  | logical op hp hq =>
    refine ⟨fun h => ?_, by simp [Aimed, Expr.target?]⟩
    cases op <;> simp [ExprKind.tier, LogicalOp.tier, ExprKind.isTemplate] at h
  | create args as hp | call args as hp | computed field q hp | indexGet index q hp =>
    refine ⟨fun _ => by simp [Expr.head], ?_⟩
    simpa [Aimed, Expr.target?] using aimed layered hp
  | get field access name hp =>
    cases access <;> refine ⟨fun _ => by simp [Access.apply, Expr.head], ?_⟩ <;>
      simpa [Access.apply, Aimed, Expr.target?] using aimed layered hp
  | literal value => cases value <;> simp [Primary, Aimed, Expr.head, Expr.target?]
  | list es native cls ps | map es native cls ps =>
    cases native <;> simp [Primary, Aimed, Lower.wrapped, Expr.head, Expr.target?]
  | _ => simp [Primary, Aimed, ExprKind.tier, ExprKind.isTemplate, Lower.stringMember, Expr.head, Expr.target?]

theorem closed_aimed : Closed Primary Aimed where
  made := makes_aimed
  added h := by
    cases h <;> simp [Aimed, Expr.target?, Expr.head]
  bound _ _ := by simp [Aimed, Expr.target?]
  loop _ _ := by simp [Aimed, Expr.target?]

/-! ## Programs that were read -/

/-- Some program that can be read is lowered, under some types, to one in which a suffix follows
a text of a kind. -/
def ComesUp (suffix : Suffix) (head : Head) : Prop :=
  ∃ source file nextId program next scene progress,
    (readSource source file nextId).result = .ok (program, next) ∧
    ∃ p ∈ Pieces.ofStmts ((Lower.stmts scene program).run progress).1,
      ∃ t ∈ p.target?, t.row = (suffix, head)

/-- The suffixes in a text and what they follow. The expressions of the given ids are taken for
classes, and nothing is known of the others. -/
def targetsOf (classes : List Nat) (source : String) : List (Suffix × Head) :=
  match (readSource source "" 0).result with
  | .ok (program, _) =>
    let cls : PhaseLang.Class := ⟨"C", .plain, none, [], [], [], default⟩
    let names : FunctionNames := ⟨⟨classes.map (·, .classOf cls)⟩, []⟩
    ((Pieces.ofStmts ((Lower.stmts ⟨true, names, []⟩ program).run ⟨{}, []⟩).1).filterMap (·.target?)).map (·.row)
  | .error _ => []

theorem comesUp_of_mem_targetsOf {classes : List Nat} {source : String} {suffix : Suffix} {head : Head}
    (h : (suffix, head) ∈ targetsOf classes source) : ComesUp suffix head := by
  unfold targetsOf at h
  split at h
  · rename_i program next hread
    obtain ⟨t, ht, hrow⟩ := List.mem_map.mp h
    obtain ⟨p, hp, htarget⟩ := List.mem_filterMap.mp ht
    exact ⟨_, _, _, program, next, _, _, hread, p, hp, t, htarget, hrow⟩
  · simp at h

/-- All that is listed in `Head.broken`, with a suffix after it. A conditional ends before a
suffix only after an operator or a type. -/
def brokenBefore (suffix : String) : String :=
  "[1" ++ suffix ++ ", true" ++ suffix ++ ", A()" ++ suffix ++ ", \x7b 1 \x7d" ++ suffix ++
    ", \"a$\x7bb\x7d\"" ++ suffix ++ ", if (a) b else c++ " ++ suffix ++
    ", match (a) \x7b default -> b \x7d" ++ suffix ++ "]"

def Suffix.sample : Suffix → List Nat × String
  | arrow => ([], brokenBefore ".x")
  | colons => (List.range 64, brokenBefore ".x")
  | bracket => ([], brokenBefore "[0]")
  | arguments => ([], brokenBefore "(x)")
  | creation => (List.range 64, brokenBefore "(x)")

theorem mem_targetsOf_sample (suffix : Suffix) :
    ∀ head ∈ Head.broken, (suffix, head) ∈ targetsOf suffix.sample.1 suffix.sample.2 := by
  cases suffix <;> decide +kernel

/-- A target is one that PHP takes a suffix after if and only if its kind of text is not listed, and every kind that
is listed comes up before every suffix. -/
theorem isLegal_iff_not_broken {source file : String} {nextId next : Nat} {program : List PhaseLang.Stmt}
    (h : (readSource source file nextId).result = .ok (program, next)) (scene : Scene) (progress : Progress)
    (p : Expr) (hp : p ∈ Pieces.ofStmts ((Lower.stmts scene program).run progress).1)
    (t : Target) (ht : t ∈ p.target?) :
    (t.isLegal = true ↔ t.expr.head ∉ Head.broken) ∧
    ∀ (suffix : Suffix) (head : Head), head ∈ Head.broken → ComesUp suffix head := by
  have aimed := stmts_made closed_aimed scene program (readSource_built h).layered progress p hp t ht
  refine ⟨Head.isLegal_iff aimed, fun suffix head hh => ?_⟩
  exact comesUp_of_mem_targetsOf (mem_targetsOf_sample suffix head hh)

theorem isLegal_iff_not_broken_grouped :
    ∃ program next, (readSource "(A()).b[0].c(d)" "" 0).result = .ok (program, next) ∧
      ∃ p ∈ Pieces.ofStmts ((Lower.stmts ⟨true, ⟨{}, []⟩, []⟩ program).run ⟨{}, []⟩).1,
        ∃ t ∈ p.target?, t.row = (.arrow, .group) ∧ (t.isLegal = true ↔ t.expr.head ∉ Head.broken) := by
  have row : (.arrow, .group) ∈ targetsOf [] "(A()).b[0].c(d)" := by decide +kernel
  unfold targetsOf at row
  split at row
  · rename_i program next hread
    obtain ⟨t, ht, hrow⟩ := List.mem_map.mp row
    obtain ⟨p, hp, htarget⟩ := List.mem_filterMap.mp ht
    exact ⟨program, next, hread, p, hp, t, htarget, hrow, (isLegal_iff_not_broken hread _ _ p hp t htarget).1⟩
  · simp at row

/-- A method is called on an object that was just made. -/
theorem creation_before_arrow :
    let source := "class Foo \x7b bar() \x7b\x7d \x7d\nFoo().bar()"
    (compile source "main.phs" 8 {}).outcome.php? =
      some ("<?php\nclass Foo\n\x7b\n    public function bar()\n    \x7b\n    \x7d\n\x7d\n" ++
        "new Foo()->bar();\n") ∧
    (.arrow, .creation) ∈ targetsOf [] source ∧ Head.creation.isLegal = false := by
  decide +kernel

end PhaseLang.Php
