import PhaseLang.Compile
import PhaseLang.Proofs.Grammar.Phrases
import PhaseLang.Proofs.Php.Making

/-!
# Signs in a row

A sign right before another, as in `- -1`, is kept apart by parentheses, which lowering decides
on from the operand alone. Main result: two signs join exactly where the operand starts with a
conditional whose condition starts with the second, since the condition is what is written first.
-/

namespace PhaseLang.Php

def opensPlain (text : String) : Bool := text.toList.head?.any fun c => c != '+' && c != '-'

/-- The text starts with the last character of an operator. -/
def Joins (op : UnaryOp) (text : String) : Prop := text.toList.head? = op.text.toList.getLast?

section
variable {op : UnaryOp} {text : String}

theorem plain_append (h : opensPlain text = true) (rest : String) : opensPlain (text ++ rest) = true := by
  rw [opensPlain, String.toList_append]
  rw [opensPlain] at h
  cases opened : text.toList with
  | nil => simp [opened] at h
  | cons c cs => simpa [opened] using h

theorem plain_optional {b : Bool} {mark : String} (hm : opensPlain mark = true) (h : opensPlain text = true) :
    opensPlain ((if b then mark else "") ++ text) = true := by
  cases b with
  | true => exact plain_append hm text
  | false => simpa using h

theorem plain_of_forall {P : Char → Prop} (h : text ≠ "" ∧ ∀ c ∈ text.toList, P c) (plus : ¬P '+') (minus : ¬P '-') :
    opensPlain text = true := by
  rw [opensPlain]
  cases opened : text.toList with
  | nil => exact absurd (String.toList_eq_nil_iff.mp opened) h.1
  | cons c cs =>
    have first : P c := h.2 c (by simp [opened])
    have : c ≠ '+' ∧ c ≠ '-' := ⟨fun same => plus (same ▸ first), fun same => minus (same ▸ first)⟩
    simpa using this

theorem plain_of_isWord (h : IsWord text) : opensPlain text = true := plain_of_forall h (by decide) (by decide)

theorem plain_of_isNumber (h : IsNumber text) : opensPlain text = true := plain_of_forall h (by decide) (by decide)

theorem plain_typeName {p : TypePath} (h : p.Clean) : opensPlain (typeName p) = true := by
  have path : opensPlain (pathName p) = true := by
    unfold pathName
    cases segments : p.segments with
    | nil => simp [TypePath.segments] at segments
    | cons s rest =>
      have word := plain_of_isWord (h s (by simp [segments]))
      cases rest with
      | nil => simpa using word
      | cons t rest => simpa [String.append_assoc] using plain_append word _
  unfold typeName
  dsimp only
  split
  · rename_i builtin found
    refine plain_optional (by decide) ?_
    unfold builtinType? at found
    split at found <;> cases found <;> decide
  · rw [String.append_assoc]
    exact plain_optional (by decide) (plain_optional (by decide) path)

theorem not_joins_of_plain (sign : op ≠ .not) (h : opensPlain text = true) : ¬Joins op text := by
  intro joins
  rw [opensPlain, joins] at h
  cases op <;> simp_all [UnaryOp.text]

end

/-! ## Leading conditionals -/

/-- The part with which the text of an expression starts. -/
def Expr.first? : Expr → Option Expr
  | .assign p _ | .binary p _ _ | .after p _ | .instanceOf p _ | .call p _ | .member p _ | .computed p _
  | .classMember p _ | .classVar p _ | .index p _ => some p
  | _ => none

/-- The expression starts with a conditional, which starts with a condition. -/
inductive Expr.Leads : Expr → Expr → Prop
  | here (cond yes no) : Leads (.ternary cond yes no) cond
  | step {p q cond} (first : p.first? = some q) (h : Leads q cond) : Leads p cond

section
variable {op : UnaryOp} {p q cond : Expr} (depth : Nat)

theorem text_of_first (h : p.first? = some q) : ∃ rest, Printer.expr depth p = Printer.expr depth q ++ rest := by
  cases p <;> simp only [Expr.first?, reduceCtorEq, Option.some.injEq] at h <;> subst h <;>
    simp only [Printer.expr, String.append_assoc] <;> exact ⟨_, rfl⟩

theorem text_of_leads (h : p.Leads cond) :
    ∃ rest, Printer.expr depth p = Printer.expr depth cond ++ (" ? " ++ rest) := by
  induction h with
  | here cond yes no =>
    simp only [Printer.expr, String.append_assoc]
    exact ⟨_, rfl⟩
  | step first _ ih =>
    obtain ⟨after, hp⟩ := text_of_first depth first
    obtain ⟨rest, hq⟩ := ih
    exact ⟨rest ++ after, by simp only [hp, hq, String.append_assoc]⟩

theorem joins_iff_of_leads (h : p.Leads cond) :
    Joins op (Printer.expr depth p) ↔ Joins op (Printer.expr depth cond) := by
  obtain ⟨rest, same⟩ := text_of_leads depth h
  rw [same, Joins, Joins, String.toList_append]
  cases (Printer.expr depth cond).toList with
  | nil => cases op <;> simp [UnaryOp.text]
  | cons c cs => simp

end

/-! ## One step -/

/-- What is read as an operand opens with a sign of its own, with a conditional or with no sign. -/
def Begins (kind : ExprKind) (p : Expr) : Prop :=
  8 ≤ kind.tier ∨ kind.isTemplate = true →
    (∃ op e q, kind = .unary op e true ∧ p = .before op q) ∨ (∃ cond, p.Leads cond) ∨
      ∀ depth, opensPlain (Printer.expr depth p) = true

/-- A sign and its operand join only where a condition comes first. -/
def Apart : Expr → Prop
  | .before op q => op ≠ .not → ∀ depth,
    (Joins op (Printer.expr depth q) ↔ ∃ cond, q.Leads cond ∧ Joins op (Printer.expr depth cond))
  | _ => True

section
variable {op : UnaryOp} {kind : ExprKind} {e : PhaseLang.Expr} {p q : Expr}

theorem Begins.plain (h : ∀ depth, opensPlain (Printer.expr depth p) = true) : Begins kind p := fun _ => .inr (.inr h)

/-- What is read before a suffix has no sign of its own. -/
theorem Begins.of_first (stands : e.StandsAt 9) (hq : Begins e.kind q) (first : p.first? = some q) : Begins kind p := by
  intro _
  rcases hq (stands.mono (by decide)) with ⟨op, operand, _, sign, _⟩ | ⟨cond, h⟩ | plain
  · simp [Expr.StandsAt, sign, ExprKind.tier, ExprKind.isTemplate] at stands
  · exact .inr (.inl ⟨cond, .step first h⟩)
  · refine .inr (.inr fun depth => ?_)
    obtain ⟨rest, text⟩ := text_of_first depth first
    exact text ▸ plain_append (plain depth) rest

/-- A sum that starts with a string literal starts with a quote. -/
theorem Begins.sum {rhs : PhaseLang.Expr} (hq : Begins e.kind q) (first : p.first? = some q) :
    Begins (.binary e .add rhs) p := by
  intro template
  refine Begins.of_first (.inr ?_) hq first template
  cases e
  simpa [ExprKind.tier, PhaseLang.BinaryOp.tier, ExprKind.isTemplate] using template

theorem apart_before (h : op ≠ .not → ∀ depth, Joins op (Printer.expr depth q) → ∃ cond, q.Leads cond) :
    Apart (.before op q) := by
  intro sign depth
  refine ⟨fun joins => ?_, fun leads => ?_⟩
  · obtain ⟨cond, leads⟩ := h sign depth joins
    exact ⟨cond, leads, (joins_iff_of_leads depth leads).mp joins⟩
  · obtain ⟨cond, leads, joins⟩ := leads
    exact (joins_iff_of_leads depth leads).mpr joins

theorem apart_of_not_mergesWith (stands : e.StandsAt 8) (hq : Begins e.kind q) (apart : Lower.mergesWith op e = false) :
    Apart (.before op q) := by
  refine apart_before fun sign depth joins => ?_
  rcases hq stands with ⟨op', operand, q, kind, rfl⟩ | leads | plain
  · rw [Lower.mergesWith, Lower.leadingChar?, kind] at apart
    cases op <;> cases op' <;> simp_all [Joins, Printer.expr, UnaryOp.text]
  · exact leads
  · exact absurd joins (not_joins_of_plain sign (plain depth))

end

/-- Operands stand where they are read, and names and numbers are as the scanner gives them. -/
def Readable (kind : ExprKind) : Prop := kind.Layered ∧ PhaseLang.Fits Wording.Clean (Worded.ofKind kind)

theorem makes_apart {kind : ExprKind} {p : Expr} (readable : Readable kind) (m : Makes (fun _ => True) Begins kind p) :
    Begins kind p ∧ Apart p := by
  obtain ⟨layered, clean⟩ := readable
  cases m with
  | before hp apart => exact ⟨fun _ => .inl ⟨_, _, _, rfl, rfl⟩, apart_of_not_mergesWith layered hp apart⟩
  | beforeGroup op e p =>
    refine ⟨fun _ => .inl ⟨_, _, _, rfl, rfl⟩, apart_before fun sign depth joins => ?_⟩
    exact absurd joins (not_joins_of_plain sign (by simp [opensPlain, Printer.expr]))
  | after op hp => exact ⟨.of_first layered.1 hp rfl, trivial⟩
  | call args as hp | computed field q hp | indexGet index q hp => exact ⟨.of_first layered hp rfl, trivial⟩
  | get field access name hp => cases access <;> exact ⟨.of_first layered hp rfl, trivial⟩
  | ternary hp hq hr => exact ⟨fun _ => .inr (.inl ⟨_, .here _ _ _⟩), trivial⟩
  | binary op hp hq =>
    cases op with
    | add => exact ⟨.sum hp rfl, trivial⟩
    | _ => exact ⟨by simp [Begins, ExprKind.tier, PhaseLang.BinaryOp.tier, ExprKind.isTemplate], trivial⟩
  | join hp hq => exact ⟨.sum hp rfl, trivial⟩
  | logical op hp hq =>
    cases op <;> exact ⟨by simp [Begins, ExprKind.tier, LogicalOp.tier, ExprKind.isTemplate], trivial⟩
  | attributed path args as =>
    have named := plain_typeName (clean (.path path) (by simp [Worded.ofKind]))
    refine ⟨.plain fun depth => ?_, trivial⟩
    cases as with
    | nil => exact named
    | cons a as => exact plain_append named _
  | path path => exact ⟨.plain fun _ => plain_typeName (clean (.path path) (by simp [Worded.ofKind])), trivial⟩
  | functionRef name =>
    have word : IsWord name := clean (.name name) (by simp [Worded.ofKind])
    exact ⟨.plain fun _ => plain_append (plain_of_isWord word) _, trivial⟩
  | @function callee name args as named =>
    have word : IsWord name := clean (.name name) (by cases callee; cases named; simp [Worded.ofKind, Worded.ofExpr])
    exact ⟨.plain fun _ => plain_append (plain_of_isWord word) _, trivial⟩
  | literal value =>
    have written : value.Clean := clean (.literal value) (by simp [Worded.ofKind])
    refine ⟨.plain fun depth => ?_, trivial⟩
    cases value with
    | number digits => exact plain_of_isNumber written
    | _ => simp [Printer.expr, Printer.literal, quoted, opensPlain]
  | list es native cls ps =>
    cases native <;> exact ⟨.plain fun depth => by simp [Lower.wrapped, Printer.expr, opensPlain], trivial⟩
  | map es native cls ps =>
    cases native <;> cases ps <;>
      exact ⟨.plain fun depth => by simp [Lower.wrapped, Printer.expr, opensPlain], trivial⟩
  | inherited | create | stringMember | super | this | static | group | lambda | var | choose =>
    exact ⟨.plain fun depth => by simp [Lower.stringMember, Printer.expr, opensPlain], trivial⟩
  | _ => exact ⟨by simp [Begins, ExprKind.tier, ExprKind.isTemplate], trivial⟩

theorem making_apart (names : FunctionNames) : Making (fun _ => True) names Readable (fun _ => True) Begins Apart where
  lasting _ _ _ := trivial
  sum _ _ _ _ := trivial
  made := makes_apart
  read h := ⟨h.1, h.2.left⟩
  readIndex h := ⟨h.1, h.2.left⟩
  added h := by cases h <;> trivial
  bound _ _ := trivial
  loop _ _ := trivial

/-- A sign runs into the text of its operand if and only if the operand starts with a conditional whose condition
starts with that sign. -/
theorem joins_iff_leads {source file : String} {nextId next : Nat} {program : List PhaseLang.Stmt}
    (h : (readSource source file nextId).result = .ok (program, next)) (scene : Scene) (progress : Progress)
    (op : UnaryOp) (q : Expr) (hq : .before op q ∈ Pieces.ofStmts ((Lower.stmts scene program).run progress).1)
    (sign : op ≠ .not) (depth : Nat) :
    Joins op (Printer.expr depth q) ↔ ∃ cond, q.Leads cond ∧ Joins op (Printer.expr depth cond) := by
  have readable : Arranged Readable (Cited.ofStmts program) := fun e he =>
    ⟨(readSource_built h).layered e ((visits_faithful program {}).mem e he),
      by cases e; exact readSource_spelled h (.node _) he⟩
  exact (stmts_makes (making_apart scene.names) rfl program readable).gives progress _ hq sign depth

def Expr.sign? : Expr → Option UnaryOp
  | .before op _ => some op
  | _ => none

theorem joins_iff_leads_conditional :
    let source := "var a = - -1\nvar b = -if (-a - 1) -a else 3"
    let pieces := Pieces.ofStmts ((Lower.stmts ⟨true, ⟨{}, []⟩, []⟩ (programOf source)).run ⟨{}, []⟩).1
    (readSource source "" 0).result.isOk = true ∧
    ∃ q, .before .negate q ∈ pieces ∧ Printer.expr 0 (.before .negate q) = "--$a - 1 ? -$a : 3" ∧
      ∃ cond, q.Leads cond ∧ Joins .negate (Printer.expr 0 cond) := by
  intro source pieces
  have readable : (readSource source "" 0).result.isOk = true := by decide +kernel
  obtain ⟨next, read⟩ := exists_read_programOf source readable
  have found : (pieces.any fun p => p.sign? == some .negate && Printer.expr 0 p == "--$a - 1 ? -$a : 3") = true := by
    decide +kernel
  obtain ⟨p, hp, h⟩ := List.any_eq_true.mp found
  simp only [Bool.and_eq_true, beq_iff_eq] at h
  cases p with
  | before op q =>
    obtain ⟨sign, text⟩ := h
    obtain rfl : op = .negate := Option.some.inj sign
    refine ⟨readable, q, hp, text, (joins_iff_leads read _ _ _ q hp (by decide) 0).mp ?_⟩
    have second := congrArg (fun text => text.toList.tail.head?) text
    simpa [Joins, Printer.expr, UnaryOp.text] using second
  | _ => simp [Expr.sign?] at h

/-- The condition of the operand starts with a minus. -/
theorem signs_joined :
    (compile "var a = 1\nvar b = -if (-a) 1 else 2" "main.phs" 8 {}).outcome.php? =
      some "<?php\n$a = 1;\n$b = --$a ? 1 : 2;\n" := by
  decide +kernel

end PhaseLang.Php
