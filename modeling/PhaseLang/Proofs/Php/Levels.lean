import PhaseLang.Php.Lowering
import PhaseLang.Proofs.Grammar.Nodes
import PhaseLang.Proofs.Php.Operands

/-!
# Levels of lowered expressions

Lowering writes infix operators without parentheses and relies on the shape of the tree. The
two languages order their operators differently, and some rules build trees without groups,
so not every operand fits its place. `Slot.loose` lists the levels that end up in a place
although they bind too loosely for it. `Slot.stacked` lists prefix operators of one level in
front of each other: they bind no tighter than their place asks, but can be read in one way
only.

The grammar reads an expression at a tier, and lowering turns it into one of a few levels;
the lemmas on `Slot.admits` say which levels a place gets from the tiers that its operator
takes.
-/

namespace PhaseLang.Php

namespace Slot

/-- The levels of operands that are written in a place and bind too loosely for it. -/
def loose : Slot → List Level
  | .left .add | .left .sub => [.concat, .ternary]
  | .left .mul | .left .div => [.sum, .concat, .ternary]
  | .left .greater | .left .greaterEq | .left .less | .left .lessEq => [.comparison, .ternary]
  | .left .identical | .left .notIdentical => [.equality, .ternary]
  | .left .concat | .left .and | .left .or => [.ternary]
  -- `a += b` puts anything after the operator.
  | .right .add => [.sum, .concat, .comparison, .equality, .and, .or, .ternary, .assignment]
  | .right .concat => [.comparison, .equality, .and, .or, .ternary, .assignment]
  | .right .sub | .right .mul | .right .div => [.sum, .concat, .ternary]
  | .right _ => [.ternary]
  | .leading .not => [.sum, .concat, .ternary]
  | .leading _ => [.not, .sum, .concat, .ternary]
  | .trailing .increment | .trailing .decrement => [.sum, .concat, .ternary]
  | .trailing _ => []
  | .tested => [.not, .product, .sum, .concat, .ternary]
  | .condition | .otherwise => [.ternary, .assignment]
  | .consequence => []

/-- The level of the operators that are written in front of one another. -/
def stacked : Slot → List Level
  | .leading op => [leadingLevel op]
  | _ => []

/-- The levels that come up in a place. -/
def admits (slot : Slot) (level : Level) : Bool :=
  slot.takes level || slot.loose.contains level || slot.stacked.contains level

theorem takes_iff_of_admits {slot : Slot} {level : Level} (h : slot.admits level = true) :
    slot.takes level = true ↔ level ∉ slot.loose ∧ level ∉ slot.stacked := by
  rcases slot with op | op | op | op | _ | _ | _ | _ <;> first | cases op | skip
  all_goals cases level <;> revert h <;> decide

end Slot

/-! ## Levels of lowered expressions -/

def levelsOf : ExprKind → List Level
  | .assign _ _ | .set _ _ _ | .indexSet _ _ _ => [.assignment]
  | .logical _ op _ => [(Lower.logicalOp op).level]
  | .binary _ .add _ => [.sum, .concat]
  | .binary _ op _ => [(Lower.binaryOp op).level]
  | .unary op _ true => [leadingLevel op]
  | .unary _ _ false => [.unary]
  | .isType _ _ => [.instanceOf, .atom]
  | .ternary _ _ _ => [.ternary]
  -- Templates and conditionals can be called, or have a member or an item taken.
  | .call _ _ | .get _ _ | .indexGet _ _ => [.atom, .sum, .concat, .ternary]
  | _ => [.atom]

/-- The tightest rule of the grammar that gives an expression of a level. -/
def Level.tier : Level → Nat
  | atom | ternary | sum | concat => 9
  | unary | not => 8
  | product => 6
  | instanceOf | comparison => 4
  | equality => 3
  | and => 2
  | or => 1
  | assignment => 0

theorem tier_le_of_mem_levelsOf {level : Level} : ∀ {kind : ExprKind}, level ∈ levelsOf kind →
    kind.tier ≤ level.tier
  | .binary _ op _, h => by
    cases op <;> simp only [levelsOf, List.mem_cons, List.not_mem_nil, or_false] at h <;>
      rcases h with rfl | rfl <;> exact Nat.le_of_ble_eq_true rfl
  | .logical _ op _, h => by
    cases op <;> simp only [levelsOf, List.mem_singleton] at h <;> subst h <;>
      exact Nat.le_of_ble_eq_true rfl
  | .unary op _ leading, h => by
    cases leading <;> cases op <;> simp only [levelsOf, List.mem_singleton] at h <;> subst h <;>
      exact Nat.le_of_ble_eq_true rfl
  | .isType _ _, h => by
    simp only [levelsOf, List.mem_cons, List.not_mem_nil, or_false] at h
    rcases h with rfl | rfl <;> simp [ExprKind.tier, Level.tier]
  | .assign _ _, h | .set _ _ _, h | .indexSet _ _ _, h => Nat.zero_le _
  | .call _ _, h | .get _ _, h | .indexGet _ _, h => by
    simp only [levelsOf, List.mem_cons, List.not_mem_nil, or_false] at h
    rcases h with rfl | rfl | rfl | rfl <;> simp [ExprKind.tier, Level.tier]
  | .attribute _ _, h | .range _ _, h | .ternary _ _ _, h | .super _, h | .path _, h | .this, h | .static, h
  | .group _, h
  | .literal _, h | .list _ _, h | .map _ _, h | .lambda _, h | .ident _, h | .choose _ _, h => by
    simp only [levelsOf, List.mem_singleton] at h
    subst h
    simp [ExprKind.tier, Level.tier]

theorem mem_of_le_tier {level : Level} (h : 9 ≤ level.tier) : level ∈ [.atom, .sum, .concat, .ternary] := by
  cases level <;> revert h <;> decide

theorem le_tier_of_standsAt {k : Nat} {e : PhaseLang.Expr} {level : Level} (h : e.StandsAt k)
    (hk : k ≤ 9) (hl : level ∈ levelsOf e.kind) : k ≤ level.tier := by
  rcases h with h | h
  · exact Nat.le_trans h (tier_le_of_mem_levelsOf hl)
  obtain ⟨text, h⟩ | ⟨lhs, rhs, h⟩ := ExprKind.isTemplate_cases h
  · obtain rfl : level = .atom := by simpa [h, levelsOf] using hl
    exact Nat.le_trans hk (by decide)
  · rw [h] at hl
    simp only [levelsOf, List.mem_cons, List.not_mem_nil, or_false] at hl
    rcases hl with rfl | rfl <;> exact hk

/-! ## Places and tiers -/

namespace Slot

variable {level : Level}

theorem admits_left {op : PhaseLang.BinaryOp} (h : op.tier ≤ level.tier) :
    (left (Lower.binaryOp op)).admits level = true := by
  cases op <;> cases level <;> revert h <;> decide

theorem admits_left_concat (h : 5 ≤ level.tier) : (left .concat).admits level = true := by
  cases level <;> revert h <;> decide

theorem admits_right {op : PhaseLang.BinaryOp} (h : op = .add ∨ op.tier + 1 ≤ level.tier) :
    (right (Lower.binaryOp op)).admits level = true := by
  cases op <;> cases level <;> revert h <;> decide

theorem admits_right_concat : (right .concat).admits level = true := by cases level <;> decide

theorem admits_logical_left {op : LogicalOp} (h : op.tier ≤ level.tier) :
    (left (Lower.logicalOp op)).admits level = true := by
  cases op <;> cases level <;> revert h <;> decide

theorem admits_logical_right {op : LogicalOp} (h : op.tier + 1 ≤ level.tier) :
    (right (Lower.logicalOp op)).admits level = true := by
  cases op <;> cases level <;> revert h <;> decide

theorem admits_leading {op : UnaryOp} (h : 8 ≤ level.tier) : (leading op).admits level = true := by
  cases op <;> cases level <;> revert h <;> decide

theorem admits_trailing {op : UnaryOp} (hop : op = .increment ∨ op = .decrement) (h : 9 ≤ level.tier) :
    (trailing op).admits level = true := by
  rcases hop with rfl | rfl <;> cases level <;> revert h <;> decide

theorem admits_tested (h : 5 ≤ level.tier) : tested.admits level = true := by
  cases level <;> revert h <;> decide

theorem admits_condition : condition.admits level = true := by cases level <;> decide

theorem admits_otherwise : otherwise.admits level = true := by cases level <;> decide

theorem admits_atom {slot : Slot} : slot.admits .atom = true := by
  rcases slot with op | op | op | op | _ | _ | _ | _ <;> first | cases op <;> decide | decide

theorem admits_bound (h : (left .sub).admits level = true) : (right .less).admits level = true := by
  cases level <;> revert h <;> decide

end Slot

end PhaseLang.Php
