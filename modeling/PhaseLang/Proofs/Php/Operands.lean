import PhaseLang.Proofs.Php.Pieces

/-!
# Operators and operands of PHP trees

A PHP tree is written without parentheses but for its groups. So it is read back as it is
only if each operand binds tighter than the operator it belongs to, or as tight on the left
of an operator that associates to the left. `Slot.takes` is that rule, over PHP's table of
operators, and `Operands.ofStmts` lists the operands of a program with the places they
stand in.
-/

namespace PhaseLang.Php

/-- How tight an expression binds, the tightest first. -/
inductive Level where
  /-- Whatever has no operator outside of brackets. -/
  | atom
  /-- `++`, `--` and a sign -/
  | unary
  | instanceOf
  | not
  | product
  | sum
  | concat
  | comparison
  | equality
  | and
  | or
  | ternary
  | assignment
deriving DecidableEq, Repr

namespace Level

def rank : Level → Nat
  | atom => 0 | unary => 1 | instanceOf => 2 | not => 3 | product => 4 | sum => 5 | concat => 6
  | comparison => 7 | equality => 8 | and => 9 | or => 10 | ternary => 11 | assignment => 12

def associatesLeft : Level → Bool
  | product | sum | concat | and | or => true
  | _ => false

end Level

namespace BinaryOp

def level : BinaryOp → Level
  | add | sub => .sum
  | mul | div => .product
  | concat => .concat
  | identical | notIdentical => .equality
  | greater | greaterEq | less | lessEq => .comparison
  | and => .and
  | or => .or

end BinaryOp

def leadingLevel : UnaryOp → Level
  | .not => .not
  | _ => .unary

/-- The level of the outermost operator that is written. A call or an access has no parentheses around its
head, so an operator of the head stands outside: `"a" . $b[0]` is a join. -/
def Expr.level : Expr → Level
  | .binary _ op _ => op.level
  | .before op _ => leadingLevel op
  | .after _ _ => .unary
  | .instanceOf _ _ => .instanceOf
  | .ternary _ _ _ => .ternary
  | .assign _ _ | .raise _ => .assignment
  | .call head _ | .create head _ | .member head _ | .computed head _ | .classMember head _ | .classVar head _
  | .index head _ => head.level
  | _ => .atom

/-! ## Places of operands -/

inductive Slot where
  | left (op : BinaryOp)
  | right (op : BinaryOp)
  /-- After the operator. -/
  | leading (op : UnaryOp)
  /-- Before the operator. -/
  | trailing (op : UnaryOp)
  /-- Before `instanceof`. -/
  | tested
  | condition
  /-- Between `?` and `:`, where anything can stand. -/
  | consequence
  | otherwise
deriving DecidableEq, Repr

/-- Whether an operand of a level can stand in a place without parentheses. -/
def Slot.takes (slot : Slot) (level : Level) : Bool :=
  match slot with
  | left op => level.rank < op.level.rank || (level == op.level && level.associatesLeft)
  -- `a . (b . c)` and `(a . b) . c` are the same string.
  | right op => level.rank < op.level.rank || (op == .concat && level == .concat)
  | leading op => level.rank < (leadingLevel op).rank
  | trailing _ => level.rank < Level.unary.rank
  | tested => level.rank < Level.instanceOf.rank
  | condition => level.rank < Level.ternary.rank
  | consequence => true
  | otherwise => level.rank < Level.ternary.rank

structure Operand where
  slot : Slot
  expr : Expr

namespace Operand

def row (o : Operand) : Slot × Level := (o.slot, o.expr.level)

def isTaken (o : Operand) : Bool := o.slot.takes o.expr.level

end Operand

/-! ## All operands -/

def Expr.operands : Expr → List Operand
  | .binary lhs op rhs => [⟨.left op, lhs⟩, ⟨.right op, rhs⟩]
  | .before op operand => [⟨.leading op, operand⟩]
  | .after operand op => [⟨.trailing op, operand⟩]
  | .ternary cond yes no => [⟨.condition, cond⟩, ⟨.consequence, yes⟩, ⟨.otherwise, no⟩]
  | .instanceOf operand _ => [⟨.tested, operand⟩]
  | _ => []

/-- The operands of all that is written for a program, the test of a loop over a range included. -/
def Operands.ofStmts (ss : List Stmt) : List Operand := (Pieces.ofStmts ss).flatMap Expr.operands

end PhaseLang.Php
