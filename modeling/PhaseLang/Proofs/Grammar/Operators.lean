import PhaseLang.Grammar.Program
import PhaseLang.Proofs.Grammar.Nodes
import PhaseLang.Proofs.Grammar.Outcome
import PhaseLang.Proofs.Grammar.Termination

/-!
# Rows of infix operators

Seven rules read the infix operators, each of them those of one tier. `Groups tier p` says what the
rule of a tier does with a row of operands and operators: it takes the longest front of the row that
no looser operator breaks off, and groups it. One loop carries this from a tier to the next looser one.
-/

namespace PhaseLang

variable {more : List Link} {c : Cursor}

inductive Operator where
  | logical (op : LogicalOp)
  | binary (op : BinaryOp)
  | range
deriving DecidableEq, Repr

namespace Operator

def kind : Operator → TokenKind
  | logical .or => .orOr
  | logical .and => .andAnd
  | binary .eq => .equalEqual
  | binary .notEq => .bangEqual
  | binary .less => .less
  | binary .lessEq => .lessEqual
  | binary .greater => .greater
  | binary .greaterEq => .greaterEqual
  | binary .add => .plus
  | binary .sub => .minus
  | binary .concat => .concat
  | binary .mul => .star
  | binary .div => .slash
  | range => .range

def tier : Operator → Nat
  | logical op => op.tier
  | binary op => op.tier
  | range => 7

def join : Operator → Grammar.Joint
  | logical op => fun lhs rhs => .logical lhs op rhs
  | binary op => Grammar.binaryJoint op
  | range => .range

def all : List Operator :=
  [logical .or, logical .and, binary .eq, binary .notEq, binary .less, binary .lessEq, binary .greater,
   binary .greaterEq, binary .add, binary .sub, binary .concat, binary .mul, binary .div, range]

theorem mem_all (op : Operator) : op ∈ all := by
  cases op with
  | logical op => cases op <;> decide
  | binary op => cases op <;> decide
  | range => decide

theorem tier_bounds (op : Operator) : 1 ≤ op.tier ∧ op.tier ≤ 7 := by
  have bounds : ∀ op ∈ all, 1 ≤ op.tier ∧ op.tier ≤ 7 := by decide
  exact bounds op op.mem_all

end Operator

/-! ## Trees of operators -/

def ExprKind.operator? : ExprKind → Option Operator
  | .logical _ op _ => some (.logical op)
  | .binary _ op _ => some (.binary op)
  | .range _ _ => some .range
  | _ => none

/-- The expression has no operator at its top that is looser than the tier. -/
def Expr.Binds (tier : Nat) (e : Expr) : Prop := ∀ op ∈ e.kind.operator?, tier ≤ op.tier

mutual

/-- To the left of every operator stands none that is looser, and to its right only tighter ones. -/
def Expr.Grouped : Expr → Prop
  | ⟨_, _, kind⟩ => kind.Grouped

def ExprKind.Grouped : ExprKind → Prop
  | .logical lhs op rhs => lhs.Binds op.tier ∧ rhs.Binds (op.tier + 1) ∧ lhs.Grouped ∧ rhs.Grouped
  | .binary lhs op rhs => lhs.Binds op.tier ∧ rhs.Binds (op.tier + 1) ∧ lhs.Grouped ∧ rhs.Grouped
  | .range lhs rhs => lhs.Binds 7 ∧ rhs.Binds 8 ∧ lhs.Grouped ∧ rhs.Grouped
  | _ => True

end

/-- What an expression without operators of its own is, and where, or an operator. -/
inductive Piece where
  | operand (pos : Position) (kind : ExprKind)
  | operator (op : Operator)

namespace Inorder

mutual

def ofExpr : Expr → List Piece
  | ⟨_, pos, kind⟩ => ofKind pos kind

def ofKind (pos : Position) : ExprKind → List Piece
  | .logical lhs op rhs => ofExpr lhs ++ .operator (.logical op) :: ofExpr rhs
  | .binary lhs op rhs => ofExpr lhs ++ .operator (.binary op) :: ofExpr rhs
  | .range lhs rhs => ofExpr lhs ++ .operator .range :: ofExpr rhs
  | kind => [.operand pos kind]

end

end Inorder

namespace Operator

variable (op : Operator) (id : Nat) (pos : Position) (lhs rhs : Expr)

@[simp] theorem operator?_join : (op.join lhs rhs).operator? = some op := by
  cases op <;> rfl

theorem grouped_join : (op.join lhs rhs).Grouped ↔
    lhs.Binds op.tier ∧ rhs.Binds (op.tier + 1) ∧ lhs.Grouped ∧ rhs.Grouped := by
  cases op <;> simp [join, Grammar.binaryJoint, tier, ExprKind.Grouped]

theorem inorder_join :
    Inorder.ofExpr ⟨id, pos, op.join lhs rhs⟩ = Inorder.ofExpr lhs ++ .operator op :: Inorder.ofExpr rhs := by
  cases op <;> simp [join, Grammar.binaryJoint, Inorder.ofExpr, Inorder.ofKind]

end Operator

/-! ## Rows of tokens -/

structure Atom where
  token : Token
  plain : token.kind = .identifier ∨ token.kind = .number

structure Link where
  op : Operator
  sign : Token
  breaks : List Token
  operand : Atom
  isSign : sign.kind = op.kind
  areBreaks : ∀ t ∈ breaks, t.kind = .newline

namespace Atom

def kind (a : Atom) : ExprKind :=
  match a.token.kind with
  | .number => .literal (.number a.token.lexeme)
  | _ => .ident a.token.lexeme

def piece (a : Atom) : Piece := .operand a.token.pos a.kind

theorem operator?_kind (a : Atom) : a.kind.operator? = none := by
  unfold kind
  split <;> rfl

theorem grouped_kind (a : Atom) : a.kind.Grouped := by
  unfold kind
  split <;> simp [ExprKind.Grouped]

theorem inorder_kind (a : Atom) (id : Nat) : Inorder.ofExpr ⟨id, a.token.pos, a.kind⟩ = [a.piece] := by
  unfold piece kind
  split <;> simp [Inorder.ofExpr, Inorder.ofKind]

end Atom

namespace Link

def tokens (o : Link) : List Token := o.sign :: (o.breaks ++ [o.operand.token])

def pieces (o : Link) : List Piece := [.operator o.op, o.operand.piece]

end Link

/-! ## The front of a row -/

variable {more : List Link}

namespace Cursor

variable {c : Cursor}

theorem skipNewlines_of_ne (h : c.peek.kind ≠ .newline) : c.skipNewlines = c := by
  obtain ⟨previous, rest, eof, inNamespace, inInterface, nextId⟩ := c
  cases rest with
  | nil => rfl
  | cons t ts =>
    have h : t.kind ≠ .newline := h
    unfold skipNewlines skipNewlines.go
    rw [if_neg h]

variable {breaks ts : List Token}

theorem skipNewlines_go_append (h : ∀ t ∈ breaks, t.kind = .newline) :
    ∀ previous, ∃ last, skipNewlines.go c previous (breaks ++ ts) = skipNewlines.go c last ts := by
  induction breaks with
  | nil => exact fun previous => ⟨previous, rfl⟩
  | cons t breaks ih =>
    intro previous
    obtain ⟨last, same⟩ := ih (fun u hu => h u (List.mem_cons_of_mem t hu)) t
    refine ⟨last, ?_⟩
    rw [List.cons_append, skipNewlines.go, if_pos (h t List.mem_cons_self), same]

theorem skipNewlines_rest {t : Token} (rest : c.rest = breaks ++ t :: ts)
    (h : ∀ t ∈ breaks, t.kind = .newline) (other : t.kind ≠ .newline) :
    c.skipNewlines.rest = t :: ts ∧ c.skipNewlines.eof = c.eof := by
  obtain ⟨last, same⟩ : ∃ last, skipNewlines.go c c.previous (breaks ++ t :: ts) = skipNewlines.go c last (t :: ts) :=
    skipNewlines_go_append h c.previous
  unfold skipNewlines
  rw [rest, same, skipNewlines.go, if_neg other]
  exact ⟨rfl, rfl⟩

structure Before (more : List Link) (c : Cursor) : Prop where
  rest : c.rest = more.flatMap Link.tokens
  eof : c.eof.kind = .eof

structure At (first : Atom) (more : List Link) (c : Cursor) : Prop where
  rest : c.rest = first.token :: more.flatMap Link.tokens
  eof : c.eof.kind = .eof

theorem Before.peek_kind (h : c.Before more) : c.peek.kind = (more.head?.map (·.op.kind)).getD .eof := by
  cases more with
  | nil => simp [peek, h.rest, h.eof]
  | cons o more => simp [peek, h.rest, Link.tokens, o.isSign]

theorem At.peek {first : Atom} (h : c.At first more) : c.peek = first.token := by
  simp [Cursor.peek, h.rest]

theorem At.advance {first : Atom} (h : c.At first more) : c.advance.Before more := by
  constructor <;> simp [Cursor.advance, h.rest, h.eof]

theorem Before.advance {o : Link} (h : c.Before (o :: more)) :
    c.advance.skipNewlines.At o.operand more := by
  have rest : c.advance.rest = o.breaks ++ o.operand.token :: more.flatMap Link.tokens := by
    simp [Cursor.advance, h.rest, Link.tokens]
  have eof : c.advance.eof = c.eof := by simp [Cursor.advance, h.rest, Link.tokens]
  have other : o.operand.token.kind ≠ .newline := by
    rcases o.operand.plain with plain | plain <;> simp [plain]
  obtain ⟨rest, same⟩ := skipNewlines_rest rest o.areBreaks other
  exact ⟨rest, by rw [same, eof, h.eof]⟩

end Cursor

def TokenKind.behindOperand : List TokenKind := .eof :: Operator.all.map Operator.kind

theorem Cursor.Before.mem_behindOperand (h : c.Before more) : c.peek.kind ∈ TokenKind.behindOperand := by
  rw [h.peek_kind]
  cases more with
  | nil => exact List.mem_cons_self
  | cons o more => exact List.mem_cons_of_mem _ (List.mem_map.mpr ⟨o.op, o.op.mem_all, rfl⟩)

namespace Grammar

open PhaseLang.Parser

/-- The rule of a tier has read an operand and the front of the links behind it. What it made of
them is a tree of that tier, and the next operator is looser than `next`. -/
structure Taken (tier next : Nat) (first : Atom) (front back : List Link) (e : Expr) (c : Cursor) : Prop where
  before : c.Before back
  next : ∀ o ∈ back.head?, o.op.tier < next
  inorder : Inorder.ofExpr e = first.piece :: front.flatMap Link.pieces
  grouped : e.Grouped
  binds : e.Binds tier

/-- The rule takes the links that bind at least as tightly as its tier, up to the first that
does not. -/
def Groups (tier : Nat) (p : Parser Expr) : Prop :=
  ∀ first more c, c.At first more →
    runs p (fun e d => ∃ front back, more = front ++ back ∧ Taken tier tier first front back e d) (fun _ => False) c

/-! ## One operand -/

variable {r : Rules} {first : Atom}

theorem primary_atom (h : c.At first more) :
    runs (primary r) (fun e d => d.Before more ∧ e.pos = first.token.pos ∧ e.kind = first.kind) (fun _ => False) c := by
  have before : Cursor.Before more { c.advance with nextId := c.advance.nextId + 1 } := ⟨h.advance.rest, h.advance.eof⟩
  unfold primary
  rw [runs_bind, runs_peek, h.peek]
  rcases first.plain with plain | plain
  all_goals
    simp only [plain, runs_seqRight, runs_advance, runs_node]
    exact ⟨before, trivial, by simp [Atom.kind, plain]⟩

/-- Neither a call, a member or an index nor another operator of the tighter rules comes behind an
operand. -/
theorem behindOperand_loose : ∀ kind ∈ TokenKind.behindOperand, postfixOp? kind = none ∧
    kind ∉ [.newline, .leftParen, .leftBrace, .dot, .leftBracket] ∧ kind ∉ [.pipe, .isKw] := by
  decide

theorem runs_continueLine_of_ne {E : SyntaxError → Prop} {Q : Unit → Cursor → Prop}
    (h : c.peek.kind ≠ .newline) : runs continueLine Q E c ↔ Q () c := by
  rw [runs_continueLine, Cursor.skipNewlines_of_ne h]
  cases c.peek.kind.isContinuation <;> simp

theorem postfixStep_done (other : c.peek.kind ∉ [.newline, .leftParen, .leftBrace, .dot, .leftBracket])
    (e : Expr) : postfixStep r e c = .ok (.done e, c) := by
  unfold postfixStep
  rw [← runs_eq_iff, runs_bind, runs_continueLine_of_ne (fun newline => by simp [newline] at other), runs_bind,
    runs_peek]
  split
  case h_5 => exact ⟨rfl, rfl⟩
  all_goals
    rename_i found
    simp [found] at other

section
variable {c d : Cursor} {e : Expr}

theorem call_of_primary (h : primary r c = .ok (e, d))
    (other : d.peek.kind ∉ [.newline, .leftParen, .leftBrace, .dot, .leftBracket]) : call r c = .ok (e, d) := by
  unfold call
  rw [← runs_eq_iff, runs_bind, runs_of_eq h, runs_eq_iff]
  exact iterate_done (postfixStep_done other e)

theorem unary_of_call (first : prefixOp? c.peek.kind = none) (h : call r c = .ok (e, d))
    (loose : postfixOp? d.peek.kind = none) : unary r c = .ok (e, d) := by
  unfold unary
  rw [← runs_eq_iff, runs_bind, runs_peek, first, runs_bind, runs_of_eq h, runs_bind, runs_peek, loose]
  exact ⟨rfl, rfl⟩

theorem pipe_of_unary (h : unary r c = .ok (e, d)) (last : d.peek.kind ≠ .pipe) : pipe r c = .ok (e, d) := by
  unfold pipe
  rw [← runs_eq_iff, runs_bind, runs_of_eq h, runs_eq_iff]
  apply iterate_done
  rw [← runs_eq_iff, runs_bind, runs_atKind, beq_eq_false_iff_ne.mpr last]
  exact ⟨rfl, rfl⟩

end

theorem pipe_groups : Groups 8 (pipe r) := by
  intro first more c h
  obtain ⟨e, d, run, before, pos, kind⟩ := (primary_atom (r := r) h).exists_ok
  obtain ⟨loose, other, last⟩ := behindOperand_loose _ before.mem_behindOperand
  have operand : prefixOp? c.peek.kind = none := by
    rw [h.peek]
    rcases first.plain with plain | plain <;> rw [plain] <;> rfl
  have run := pipe_of_unary (unary_of_call operand (call_of_primary run other) loose) fun found => by
    simp [found] at last
  rw [runs_of_eq run]
  refine ⟨[], more, rfl, ?_⟩
  obtain ⟨id, _, _⟩ := e
  subst pos kind
  constructor
  case before => exact before
  case next =>
    intro o _
    have := o.op.tier_bounds
    omega
  case inorder => exact first.inorder_kind id
  case grouped => simpa only [Expr.Grouped] using first.grouped_kind
  case binds => simp [Expr.Binds, first.operator?_kind]

/-! ## One tier -/

structure IsTier (tier : Nat) (joint? : TokenKind → Option Joint) : Prop where
  operator : ∀ op : Operator, joint? op.kind = if op.tier = tier then some op.join else none
  eof : joint? .eof = none

variable {joint? : TokenKind → Option Joint} {operand : Parser Expr}

/-- The loop of a tier: no tighter operator comes next, in any round. -/
theorem chainFrom_groups {tier : Nat} (hj : IsTier tier joint?) (ho : Groups (tier + 1) operand)
    {front back : List Link} {lhs : Expr} (taken : Taken (tier + 1) (tier + 1) first front back lhs c) :
    runs (chainFrom joint? operand lhs) (fun e d => ∃ front' back', front ++ back = front' ++ back' ∧
      Taken tier tier first front' back' e d) (fun _ => False) c := by
  refine runs_iterate_of_lt (I := fun e d => ∃ front' back', front ++ back = front' ++ back' ∧
    Taken tier (tier + 1) first front' back' e d) ?_ ?_
  · exact ⟨front, back, rfl, taken.before, taken.next, taken.inorder, taken.grouped,
      fun op hop => Nat.le_of_succ_le (taken.binds op hop)⟩
  rintro lhs d ⟨front, back, same, taken⟩
  rw [same, runs_bind, runs_peek, taken.before.peek_kind]
  cases back with
  | nil =>
    simp only [List.head?_nil, Option.map_none, Option.getD_none, hj.eof, runs_pure]
    exact ⟨front, [], rfl, { taken with next := by simp }⟩
  | cons o back =>
    have le : o.op.tier < tier + 1 := taken.next o rfl
    simp only [List.head?_cons, Option.map_some, Option.getD_some, hj.operator]
    by_cases level : o.op.tier = tier
    · rw [if_pos level]
      simp only [runs_bind, runs_advance, runs_newlines]
      refine runs_mono (ho o.operand back _ taken.before.advance) fun rhs d' more => ?_
      obtain ⟨front', back', rfl, taken'⟩ := more
      rw [runs_node, runs_pure]
      have length : d'.rest.length < d.rest.length := by
        rw [taken.before.rest, taken'.before.rest]
        simp only [Link.tokens, List.flatMap_cons, List.flatMap_append, List.length_append, List.length_cons]
        omega
      refine ⟨length, front ++ o :: front', back', by simp, ?_⟩
      constructor
      case before => exact ⟨taken'.before.rest, taken'.before.eof⟩
      case next => exact taken'.next
      case inorder =>
        rw [o.op.inorder_join, taken.inorder, taken'.inorder]
        simp [Link.pieces]
      case grouped =>
        simp only [Expr.Grouped, o.op.grouped_join, level]
        exact ⟨taken.binds, taken'.binds, taken.grouped, taken'.grouped⟩
      case binds => simp [Expr.Binds, level]
    · rw [if_neg level]
      refine ⟨front, o :: back, rfl, { taken with next := ?_ }⟩
      rintro o' found
      obtain rfl : o = o' := by simpa using found
      omega

theorem chain_groups {tier : Nat} (hj : IsTier tier joint?) (ho : Groups (tier + 1) operand) :
    Groups tier (chain joint? operand) := by
  intro first more c h
  unfold chain
  rw [runs_bind]
  refine runs_mono (ho first more c h) fun lhs d more => ?_
  obtain ⟨front, back, rfl, taken⟩ := more
  exact chainFrom_groups hj ho taken

/-! ## All tiers -/

theorem joints_isTier : IsTier 7 rangeJoint? ∧ IsTier 6 factorJoint? ∧ IsTier 5 termJoint? ∧ IsTier 4 comparisonJoint? ∧
    IsTier 3 equalityJoint? ∧ IsTier 2 andJoint? ∧ IsTier 1 orJoint? := by
  refine ⟨?_, ?_, ?_, ?_, ?_, ?_, ?_⟩
  all_goals
    refine ⟨?_, rfl⟩
    rintro (⟨_ | _⟩ | ⟨_ | _⟩ | _) <;> rfl

theorem addition_groups : Groups 5 (addition r) := by
  obtain ⟨range, factor, term, -⟩ := joints_isTier
  exact chain_groups term (chain_groups factor (chain_groups range pipe_groups))

theorem comparison_groups : Groups 4 (comparison r) := by
  obtain ⟨-, -, -, comparison, -⟩ := joints_isTier
  intro first more c h
  unfold Grammar.comparison
  rw [runs_bind]
  refine runs_mono (addition_groups first more c h) fun lhs d more => ?_
  obtain ⟨front, back, rfl, taken⟩ := more
  have plain : d.peek.kind ≠ .isKw := fun found => by
    have := (behindOperand_loose _ taken.before.mem_behindOperand).2.2
    simp [found] at this
  rw [runs_bind, runs_take]
  exact ⟨fun found => absurd found plain, fun _ => chainFrom_groups comparison addition_groups taken⟩

theorem disjunction_groups : Groups 1 (disjunction r) := by
  obtain ⟨-, -, -, -, equality, and, or⟩ := joints_isTier
  exact chain_groups or (chain_groups and (chain_groups equality comparison_groups))

structure IsRow (first : Atom) (more : List Link) (e : Expr) : Prop where
  inorder : Inorder.ofExpr e = first.piece :: more.flatMap Link.pieces
  grouped : e.Grouped

theorem expression_row (h : c.At first more) :
    runs (expression r) (fun e d => IsRow first more e ∧ d.Before []) (fun _ => False) c := by
  unfold expression
  rw [runs_bind]
  refine runs_mono (disjunction_groups first more c h) fun e d taken => ?_
  obtain ⟨front, back, rfl, taken⟩ := taken
  obtain rfl : back = [] := by
    cases back with
    | nil => rfl
    | cons o back =>
      have := taken.next o rfl
      have := o.op.tier_bounds
      omega
  rw [runs_bind, runs_peek, taken.before.peek_kind, List.append_nil]
  exact ⟨⟨taken.inorder, taken.grouped⟩, taken.before⟩

theorem attributes_of_ne (h : c.peek.kind ≠ .leftBracket) : attributes r c = .ok ([], c) := by
  have stop : runs (attributes r) (fun found d => found = [] ∧ d = c) (fun _ => False) c := by
    refine runs_iterate_of_lt (I := fun found d => found = [] ∧ d = c) ⟨rfl, rfl⟩ fun found d start => ?_
    obtain ⟨rfl, rfl⟩ := start
    simp [atAttributes, h]
  obtain ⟨found, d, run, rfl, rfl⟩ := stop.exists_ok
  exact run

theorem declaration_row (h : c.At first more) :
    runs (declaration r) (fun s d => (∃ e, s = ⟨e.pos, .expr e⟩ ∧ IsRow first more e) ∧ d.Before [])
      (fun _ => False) c := by
  have statement : runs (expressionStatement r) (fun s d => (∃ e, s = ⟨e.pos, .expr e⟩ ∧ IsRow first more e) ∧
      d.Before []) (fun _ => False) c := by
    unfold expressionStatement endStatement
    rw [runs_bind]
    refine runs_mono (expression_row h) fun e d made => ?_
    rw [runs_bind, runs_bind, runs_peek, made.2.peek_kind]
    exact ⟨⟨e, rfl, made.1⟩, made.2⟩
  have plain : c.peek.kind = .identifier ∨ c.peek.kind = .number := h.peek ▸ first.plain
  have other : c.peek.kind ≠ .leftBracket := by rcases plain with plain | plain <;> rw [plain] <;> decide
  unfold declaration
  rw [runs_bind, runs_of_eq (attributes_of_ne other), runs_bind, runs_peek, runs_bind, runs_peekNext]
  rcases plain with plain | plain
  all_goals
    simpa [plain, Grammar.statement] using statement

end Grammar

theorem Atom.token_ne_eof (a : Atom) : a.token.kind ≠ .eof := by
  rcases a.plain with plain | plain <;> rw [plain] <;> decide

theorem Link.tokens_ne_eof (o : Link) : ∀ t ∈ o.tokens, t.kind ≠ .eof := by
  have sign : ∀ op ∈ Operator.all, op.kind ≠ .eof := by decide
  intro t mem
  simp only [Link.tokens, List.mem_cons, List.mem_append, List.not_mem_nil, or_false] at mem
  rcases mem with rfl | mem | rfl
  · exact o.isSign ▸ sign o.op o.op.mem_all
  · exact o.areBreaks t mem ▸ by decide
  · exact o.operand.token_ne_eof

section
open PhaseLang.Parser

theorem itemsUntil_single {d : Cursor} {α : Type} {stops : TokenKind → Bool} {item : Parser α} {x : α}
    (opens : (stops c.peek.kind || c.peek.kind == .eof) = false) (h : item c = .ok (x, d))
    (less : d.rest.length < c.rest.length) (solid : d.peek.kind ≠ .newline)
    (close : (stops d.peek.kind || d.peek.kind == .eof) = true) : itemsUntil stops item c = .ok ([x], d) := by
  refine iterate_again ?_ less (iterate_done (s := [x]) ?_)
  · rw [← runs_eq_iff, runs_bind, runs_peek]
    dsimp only
    rw [opens, if_neg Bool.false_ne_true, runs_bind, runs_of_eq h, runs_bind, runs_newlines,
      Cursor.skipNewlines_of_ne solid]
    exact ⟨rfl, rfl⟩
  · rw [← runs_eq_iff, runs_bind, runs_peek]
    dsimp only
    rw [close]
    exact ⟨rfl, rfl⟩

theorem parse_single {t : Token} {ts : List Token} {eof : Token} (nextId : Nat) (last : eof.kind = .eof)
    (only : ∀ u ∈ t :: ts, u.kind ≠ .eof) (solid : t.kind ≠ .newline) {Q : Stmt → Nat → Prop}
    (h : ∀ c : Cursor, c.rest = t :: ts → c.eof = eof → c.nextId = nextId →
      runs (Grammar.declaration (.upTo (ts.length + 1))) (fun s d => d.rest = [] ∧ d.eof.kind = .eof ∧ Q s d.nextId)
        (fun _ => False) c) :
    ∃ s next, parse (t :: ts ++ [eof]) nextId = .ok ([s], next) ∧ Q s next := by
  obtain ⟨previous, start⟩ := Cursor.ofTokens?_append last only nextId
  obtain ⟨s, d, run, rest, last, made⟩ := (h { previous, rest := t :: ts, eof, nextId } rfl rfl rfl).exists_ok
  have more : t.kind ≠ .eof := only t List.mem_cons_self
  have same : Cursor.skipNewlines { previous, rest := t :: ts, eof, nextId } = _ := Cursor.skipNewlines_of_ne solid
  have whole : Grammar.program (.upTo ((t :: ts).length + 1)) { previous, rest := t :: ts, eof, nextId } =
      .ok ([s], d) := by
    unfold Grammar.program
    rw [← runs_eq_iff, runs_bind, runs_newlines, same, runs_eq_iff]
    refine itemsUntil_single ?opens run ?less ?solid ?close
    case opens => simp [Cursor.peek, more]
    case less => simp [rest]
    case solid => simp [Cursor.peek, rest, last]
    case close => simp [Cursor.peek, rest, last]
  refine ⟨s, d.nextId, ?_, made⟩
  unfold parse
  rw [start]
  simp only [StateT.run]
  rw [whole]

end

/-- A row of operands and operators is one expression, grouped by the tiers of its operators. -/
theorem parse_links (first : Atom) (more : List Link) {eof : Token} (last : eof.kind = .eof) (nextId : Nat) :
    ∃ e next, parse (first.token :: more.flatMap Link.tokens ++ [eof]) nextId = .ok ([⟨e.pos, .expr e⟩], next) ∧
      Inorder.ofExpr e = first.piece :: more.flatMap Link.pieces ∧ e.Grouped := by
  have only : ∀ t ∈ first.token :: more.flatMap Link.tokens, t.kind ≠ .eof := by
    simp only [List.forall_mem_cons, List.forall_mem_flatMap]
    exact ⟨first.token_ne_eof, fun o _ => o.tokens_ne_eof⟩
  have solid : first.token.kind ≠ .newline := by rcases first.plain with plain | plain <;> rw [plain] <;> decide
  have single : ∃ s next, parse (first.token :: more.flatMap Link.tokens ++ [eof]) nextId = .ok ([s], next) ∧
      ∃ e, s = ⟨e.pos, .expr e⟩ ∧ Grammar.IsRow first more e := by
    refine parse_single _ last only solid fun c rest eof _ => ?_
    refine Parser.runs_mono (Grammar.declaration_row ⟨rest, eof ▸ last⟩) fun s d read => ?_
    exact ⟨read.2.rest, read.2.eof, read.1⟩
  obtain ⟨s, next, run, e, rfl, row⟩ := single
  exact ⟨e, next, run, row.inorder, row.grouped⟩

/-- `a - 1 *` and, on the next line, `b`. -/
theorem parse_minus_star :
    ∃ e next,
      parse [⟨.identifier, "a", none, ⟨0, 1, "m"⟩⟩, ⟨.minus, "-", none, ⟨2, 3, "m"⟩⟩, ⟨.number, "1", none, ⟨4, 5, "m"⟩⟩,
        ⟨.star, "*", none, ⟨6, 7, "m"⟩⟩, ⟨.newline, "\n", none, ⟨7, 8, "m"⟩⟩, ⟨.identifier, "b", none, ⟨8, 9, "m"⟩⟩,
        ⟨.eof, "", none, ⟨9, 9, "m"⟩⟩] 0 = .ok ([⟨e.pos, .expr e⟩], next) ∧
      Inorder.ofExpr e = [.operand ⟨0, 1, "m"⟩ (.ident "a"), .operator (.binary .sub),
        .operand ⟨4, 5, "m"⟩ (.literal (.number "1")), .operator (.binary .mul), .operand ⟨8, 9, "m"⟩ (.ident "b")] ∧
      e.Grouped :=
  parse_links ⟨⟨.identifier, "a", none, ⟨0, 1, "m"⟩⟩, .inl rfl⟩
    [⟨.binary .sub, ⟨.minus, "-", none, ⟨2, 3, "m"⟩⟩, [], ⟨⟨.number, "1", none, ⟨4, 5, "m"⟩⟩, .inr rfl⟩, rfl, by simp⟩,
     ⟨.binary .mul, ⟨.star, "*", none, ⟨6, 7, "m"⟩⟩, [⟨.newline, "\n", none, ⟨7, 8, "m"⟩⟩],
      ⟨⟨.identifier, "b", none, ⟨8, 9, "m"⟩⟩, .inl rfl⟩, rfl, by simp⟩]
    rfl 0

end PhaseLang
