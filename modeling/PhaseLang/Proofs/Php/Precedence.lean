import PhaseLang.Compile
import PhaseLang.Proofs.Grammar.Numbering
import PhaseLang.Proofs.Php.Levels
import PhaseLang.Proofs.Php.Making

/-!
# Operands that PHP reads differently

Main result: in the lowering of any program that was read, under any types, an operand fits
its place if and only if its level is in neither of the place's lists, `Slot.loose` and
`Slot.stacked`; and every entry of the lists comes up in some program.
-/

namespace PhaseLang.Php

/-! ## One step -/

/-- The operands of one expression have levels that come up in their places. -/
def Fits : Expr → Prop
  | .binary lhs op rhs => (Slot.left op).admits lhs.level = true ∧ (Slot.right op).admits rhs.level = true
  | .before op operand => (Slot.leading op).admits operand.level = true
  | .after operand op => (Slot.trailing op).admits operand.level = true
  | .ternary cond _ no => Slot.condition.admits cond.level = true ∧ Slot.otherwise.admits no.level = true
  | .instanceOf operand _ => Slot.tested.admits operand.level = true
  | _ => True

theorem makes_fits {kind : ExprKind} {p : Expr} (layered : kind.Layered)
    (m : Makes (fun _ => True) (fun kind p => p.level ∈ levelsOf kind) kind p) : p.level ∈ levelsOf kind ∧ Fits p := by
  have tier {k : Nat} {e : PhaseLang.Expr} {p : Expr} (hs : e.StandsAt k) (hk : k ≤ 9)
      (hp : p.level ∈ levelsOf e.kind) : k ≤ p.level.tier := le_tier_of_standsAt hs hk hp
  have head {e : PhaseLang.Expr} {p : Expr} (hs : e.StandsAt 9) (hp : p.level ∈ levelsOf e.kind) :
      p.level ∈ [.atom, .sum, .concat, .ternary] := mem_of_le_tier (tier hs (by decide) hp)
  cases m with
  | binary op hp hq =>
    refine ⟨by cases op <;> simp [levelsOf, Expr.level, Lower.binaryOp, BinaryOp.level], ?_, ?_⟩
    · exact Slot.admits_left (tier layered.1 (by cases op <;> decide) hp)
    · exact Slot.admits_right (layered.2.imp_right fun hs => tier hs (by cases op <;> decide) hq)
  | join hp hq =>
    refine ⟨by simp [levelsOf, Expr.level, BinaryOp.level], ?_, Slot.admits_right_concat⟩
    exact Slot.admits_left_concat (tier layered.1 (by decide) hp)
  | before hp =>
    exact ⟨by simp [levelsOf, Expr.level], Slot.admits_leading (tier layered (by decide) hp)⟩
  | beforeGroup op e p => exact ⟨by simp [levelsOf, Expr.level], Slot.admits_atom⟩
  | after op hp =>
    exact ⟨by simp [levelsOf, Expr.level], Slot.admits_trailing layered.2 (tier layered.1 (by decide) hp)⟩
  | instanceOf type name hp =>
    exact ⟨by simp [levelsOf, Expr.level], Slot.admits_tested (tier layered (by decide) hp)⟩
  | logical op hp hq =>
    refine ⟨by simp [levelsOf, Expr.level], ?_, ?_⟩
    · exact Slot.admits_logical_left (tier layered.1 (by cases op <;> decide) hp)
    · exact Slot.admits_logical_right (tier layered.2 (by cases op <;> decide) hq)
  | ternary hp hq hr =>
    exact ⟨by simp [levelsOf, Expr.level], Slot.admits_condition, Slot.admits_otherwise⟩
  | get field access name hp => cases access <;> exact ⟨head layered hp, trivial⟩
  | create args as hp | call args as hp | computed field q hp | indexGet index q hp =>
    exact ⟨head layered hp, trivial⟩
  | list es native cls ps | map es native cls ps =>
    cases native <;> exact ⟨by simp [levelsOf, Expr.level, Lower.wrapped], trivial⟩
  | _ => exact ⟨by simp [levelsOf, Expr.level, Lower.stringMember], trivial⟩

theorem closed_fits : Closed (fun kind p => p.level ∈ levelsOf kind) Fits where
  made := makes_fits
  added h := by
    cases h with
    | accessor text name => exact ⟨Slot.admits_atom, Slot.admits_atom⟩
    | _ => exact trivial
  bound hs hp := by
    have tier : PhaseLang.BinaryOp.sub.tier ≤ _ :=
      Nat.le_trans (by decide) (le_tier_of_standsAt hs (by decide) hp)
    exact ⟨Slot.admits_left tier, Slot.admits_atom⟩
  loop key h := ⟨Slot.admits_atom, Slot.admits_bound h.1⟩

/-! ## Programs that were read -/

theorem admits_of_fits {p : Expr} (h : Fits p) {o : Operand} (mem : o ∈ p.operands) :
    o.slot.admits o.expr.level = true := by
  cases p with
  | binary lhs op rhs =>
    rcases List.mem_pair.mp mem with rfl | rfl
    · exact h.1
    · exact h.2
  | before op operand | after operand op | instanceOf operand type =>
    obtain rfl := List.mem_singleton.mp mem
    exact h
  | ternary cond yes no =>
    simp only [Expr.operands, List.mem_cons, List.not_mem_nil, or_false] at mem
    rcases mem with rfl | rfl | rfl
    · exact h.1
    · rfl
    · exact h.2
  | _ => cases mem

/-- Some program that can be read is lowered, under some types, to one in which an operand of
a level stands in a place. -/
def Emitted (slot : Slot) (level : Level) : Prop :=
  ∃ source file nextId program next scene progress,
    (readSource source file nextId).result = .ok (program, next) ∧
    ∃ o ∈ Operands.ofStmts ((Lower.stmts scene program).run progress).1, o.row = (slot, level)

/-- The places and levels of a text's operands, if the expressions of the given ids are
strings and nothing is known of the others. -/
def rowsOf (strings : List Nat) (source : String) : List (Slot × Level) :=
  match (readSource source "" 0).result with
  | .ok (program, _) =>
    let names : FunctionNames := ⟨⟨strings.map (·, .builtin "String")⟩, []⟩
    (Operands.ofStmts ((Lower.stmts ⟨true, names, []⟩ program).run ⟨{}, []⟩).1).map (·.row)
  | .error _ => []

theorem emitted_of_mem_rowsOf {strings : List Nat} {source : String} {slot : Slot} {level : Level}
    (h : (slot, level) ∈ rowsOf strings source) : Emitted slot level := by
  unfold rowsOf at h
  split at h
  · rename_i program next hread
    obtain ⟨o, ho, hrow⟩ := List.mem_map.mp h
    exact ⟨_, _, _, program, next, _, _, hread, o, ho, hrow⟩
  · simp at h

/-- A text in which all levels that a place lists come up, and which of its expressions are
strings. A conditional ends before an infix operator, or before an access, only after a type test. -/
def Slot.sample : Slot → List Nat × String
  | .left .add => ([], "[a +++ b + c, if (a) b else c is D + e]")
  | .left .sub => ([], "[a +++ b - c, if (a) b else c is D - e]")
  | .left .mul => ([0], "[\"a$\x7bb\x7d\" * c, \"a$\x7bb\x7d\" * c, if (a) b else c is D * e]")
  | .left .div => ([0], "[\"a$\x7bb\x7d\" / c, \"a$\x7bb\x7d\" / c, if (a) b else c is D / e]")
  | .left .greater => ([], "[a > b > c, if (a) b else c is D > e]")
  | .left .greaterEq => ([], "[a >= b >= c, if (a) b else c is D >= e]")
  | .left .lessEq => ([], "[a <= b <= c, if (a) b else c is D <= e]")
  | .left .less => ([], "[a < b < c, if (a) b else c is D<T> < e]")
  | .left .identical => ([], "[a == b == c, if (a) b else c is D\n== e]")
  | .left .notIdentical => ([], "[a != b != c, if (a) b else c is D\n!= e]")
  | .left .concat => ([], "[if (a) b else c is D +++ e]")
  | .left .and => ([], "[if (a) b else c is D\n&& e]")
  | .left .or => ([], "[if (a) b else c is D\n|| e]")
  | .right .add => ([], "[a += b + c, a += b +++ c, a += b < c, a += b == c, " ++
      "a += b && c, a += b || c, a += if (b) c else d, a += b = c]")
  | .right .concat => (List.range 64, "[a += b < c, a += b == c, a += b && c, " ++
      "a += b || c, a += if (b) c else d, a += b = c]")
  | .right .sub => ([1], "[c - \"a$\x7bb\x7d\", c - \"a$\x7bb\x7d\", c - if (a) b else c]")
  | .right .mul => ([1], "[c * \"a$\x7bb\x7d\", c * \"a$\x7bb\x7d\", c * if (a) b else c]")
  | .right .div => ([1], "[c / \"a$\x7bb\x7d\", c / \"a$\x7bb\x7d\", c / if (a) b else c]")
  | .right .identical => ([], "[a == if (b) c else d]")
  | .right .notIdentical => ([], "[a != if (b) c else d]")
  | .right .greater => ([], "[a > if (b) c else d]")
  | .right .greaterEq => ([], "[a >= if (b) c else d]")
  | .right .less => ([], "[a < if (b) c else d]")
  | .right .lessEq => ([], "[a <= if (b) c else d]")
  | .right .and => ([], "[a && if (b) c else d]")
  | .right .or => ([], "[a || if (b) c else d]")
  | .leading .not => ([0], "[!\"a$\x7bb\x7d\", !\"a$\x7bb\x7d\", !if (a) b else c, !!a]")
  | .leading .negate => ([0], "[-\"a$\x7bb\x7d\", -\"a$\x7bb\x7d\", -if (a) b else c, -a++, -!a]")
  | .leading .increment => ([0], "[++\"a$\x7bb\x7d\", ++\"a$\x7bb\x7d\", ++if (a) b else c, ++a++, ++!a]")
  | .leading .decrement => ([0], "[--\"a$\x7bb\x7d\", --\"a$\x7bb\x7d\", --if (a) b else c, --a++, --!a]")
  | .trailing .increment => ([0], "[\"a$\x7bb\x7d\"++, \"a$\x7bb\x7d\"++, if (a) b else c++ ++]")
  | .trailing .decrement => ([0], "[\"a$\x7bb\x7d\"--, \"a$\x7bb\x7d\"--, if (a) b else c-- --]")
  | .tested => ([], "[!a is D, a * b is D, a + b is D, a +++ b is D, if (a) b else c is D is E]")
  | .condition => ([], "[if (a = b) c else d, if (if (a) b else c is D.e) f else g]")
  | .otherwise => ([], "[if (a) b else c = d, if (a) b else if (c) d else e is D.f]")
  | _ => ([], "")

theorem mem_rowsOf_sample : ∀ slot : Slot, ∀ level ∈ slot.loose ++ slot.stacked,
    (slot, level) ∈ rowsOf slot.sample.1 slot.sample.2
  | .left op => by cases op <;> decide +kernel
  | .right op => by cases op <;> decide +kernel
  | .leading op => by cases op <;> decide +kernel
  | .trailing op => by cases op <;> decide +kernel
  | .tested => by decide +kernel
  | .condition => by decide +kernel
  | .consequence => by decide +kernel
  | .otherwise => by decide +kernel

/-- An operand is taken in its place if and only if its level is not listed there, and every level that is listed
comes up. -/
theorem isTaken_iff_not_loose {source file : String} {nextId next : Nat} {program : List PhaseLang.Stmt}
    (h : (readSource source file nextId).result = .ok (program, next)) (scene : Scene) (progress : Progress)
    (o : Operand) (ho : o ∈ Operands.ofStmts ((Lower.stmts scene program).run progress).1) :
    (o.isTaken = true ↔ o.expr.level ∉ o.slot.loose ∧ o.expr.level ∉ o.slot.stacked) ∧
    ∀ (slot : Slot) (level : Level), level ∈ slot.loose ∨ level ∈ slot.stacked → Emitted slot level := by
  obtain ⟨p, hp, mem⟩ := List.mem_flatMap.mp ho
  have fits := stmts_made closed_fits scene program (readSource_built h).layered progress p hp
  refine ⟨Slot.takes_iff_of_admits (admits_of_fits fits mem), fun slot level hl => ?_⟩
  exact emitted_of_mem_rowsOf (mem_rowsOf_sample slot level (List.mem_append.mpr hl))

theorem isTaken_iff_not_loose_loop :
    ∃ program next, (readSource "for (i in 0...-n) i * \"a$\x7bb\x7d\"[0]" "" 0).result = .ok (program, next) ∧
      let operands := Operands.ofStmts ((Lower.stmts ⟨true, ⟨{}, []⟩, []⟩ program).run ⟨{}, []⟩).1
      (∃ o ∈ operands, o.row = (.right .less, .unary) ∧ o.isTaken = true) ∧
      ∃ o ∈ operands, o.row = (.right .mul, .sum) ∧ o.isTaken = false := by
  have rows : (.right .less, .unary) ∈ rowsOf [] "for (i in 0...-n) i * \"a$\x7bb\x7d\"[0]" ∧
      (.right .mul, .sum) ∈ rowsOf [] "for (i in 0...-n) i * \"a$\x7bb\x7d\"[0]" := by decide +kernel
  unfold rowsOf at rows
  split at rows
  · rename_i program next hread
    obtain ⟨⟨o, ho, bound⟩, o', ho', item⟩ := rows.imp List.mem_map.mp List.mem_map.mp
    obtain ⟨⟨slot, level⟩, slot', level'⟩ := And.intro (Prod.mk.inj bound) (Prod.mk.inj item)
    refine ⟨program, next, hread, ⟨o, ho, bound, ?_⟩, o', ho', item, ?_⟩
    · rw [(isTaken_iff_not_loose hread _ _ o ho).1, slot, level]
      decide
    · rw [← Bool.not_eq_true, (isTaken_iff_not_loose hread _ _ o' ho').1, slot', level']
      decide
  · simp at rows

/-- A tested sum is read as a sum with a test. -/
theorem sum_before_instanceof :
    (compile "var a = 1\nvar b = 2\na + b is Foo" "main.phs" 8 {}).outcome.php? =
      some "<?php\n$a = 1;\n$b = 2;\n$a + $b instanceof Foo;\n" ∧
    (.tested, .sum) ∈ rowsOf [] "var a = 1\nvar b = 2\na + b is Foo" ∧
    Slot.tested.takes .sum = false := by
  decide +kernel

end PhaseLang.Php
