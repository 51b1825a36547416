import PhaseLang.Proofs.Grammar.Marks
import PhaseLang.Proofs.Grammar.Numbering
import PhaseLang.Proofs.Grammar.Operators
import PhaseLang.Proofs.Grammar.Wordings
import PhaseLang.Proofs.Token.Written

/-!
# The texts of synthesized statements

A synthesized statement stands for a text. Here the text is scanned and parsed, for all names that it can
be written with, and it reads as that statement: nothing about it can be reported.
-/

namespace PhaseLang

def Cursor.put (c : Cursor) (previous : Token) (rest : List Token) (nextId : Nat) : Cursor :=
  { c with previous, rest, nextId }

/-! ## Expressions up to what closes them -/

def TokenKind.closers : List TokenKind := [.comma, .rightParen, .rightBracket, .rightBrace, .eof]

namespace Grammar

open PhaseLang.Parser

variable {r : Rules} {c d : Cursor} {e : Expr}

theorem closers_loose : ∀ kind ∈ TokenKind.closers, postfixOp? kind = none ∧
    kind ∉ [.newline, .leftParen, .leftBrace, .dot, .leftBracket] ∧ kind ∉ [.pipe, .isKw, .equal, .plusEqual] ∧
    ∀ joint? ∈ [rangeJoint?, factorJoint?, termJoint?, comparisonJoint?, equalityJoint?, andJoint?, orJoint?],
      joint? kind = none := by
  intro kind mem
  simp only [TokenKind.closers, List.mem_cons, List.not_mem_nil, or_false] at mem
  simp only [List.forall_mem_cons]
  rcases mem with rfl | rfl | rfl | rfl | rfl
  all_goals exact ⟨rfl, by decide, by decide, rfl, rfl, rfl, rfl, rfl, rfl, rfl, by simp⟩

theorem chainFrom_stop {joint? : TokenKind → Option Joint} {operand : Parser Expr} (stop : joint? d.peek.kind = none) :
    chainFrom joint? operand e d = .ok (e, d) := by
  apply iterate_done
  rw [← runs_eq_iff, runs_bind, runs_peek, stop]
  exact ⟨rfl, rfl⟩

theorem chain_stop {joint? : TokenKind → Option Joint} {operand : Parser Expr} (h : operand c = .ok (e, d))
    (stop : joint? d.peek.kind = none) : chain joint? operand c = .ok (e, d) := by
  unfold chain
  rw [← runs_eq_iff, runs_bind, runs_of_eq h, runs_eq_iff]
  exact chainFrom_stop stop

theorem expression_of_call (first : prefixOp? c.peek.kind = none) (h : call r c = .ok (e, d))
    (stop : d.peek.kind ∈ TokenKind.closers) : expression r c = .ok (e, d) := by
  obtain ⟨loose, -, other, joints⟩ := closers_loose _ stop
  simp only [List.forall_mem_cons] at joints
  obtain ⟨range, factor, term, comparison, equality, and, or, -⟩ := joints
  have pipe : Grammar.pipe r c = .ok (e, d) :=
    pipe_of_unary (unary_of_call first h loose) fun found => by simp [found] at other
  have addition : Grammar.addition r c = .ok (e, d) := chain_stop (chain_stop (chain_stop pipe range) factor) term
  have tests : Grammar.comparison r c = .ok (e, d) := by
    have last : d.peek.kind ≠ .isKw := fun found => by simp [found] at other
    unfold Grammar.comparison
    rw [← runs_eq_iff, runs_bind, runs_of_eq addition, runs_bind, runs_take]
    exact ⟨fun found => absurd found last, fun _ => runs_eq_iff.mpr (chainFrom_stop comparison)⟩
  have disjunction : Grammar.disjunction r c = .ok (e, d) := chain_stop (chain_stop (chain_stop tests equality) and) or
  unfold expression
  rw [← runs_eq_iff, runs_bind, runs_of_eq disjunction, runs_bind, runs_peek]
  split
  case h_3 => exact ⟨rfl, rfl⟩
  all_goals
    rename_i found
    simp [found] at other

theorem expression_of_primary (first : prefixOp? c.peek.kind = none) (h : primary r c = .ok (e, d))
    (stop : d.peek.kind ∈ TokenKind.closers) : expression r c = .ok (e, d) := by
  obtain ⟨-, other, -⟩ := closers_loose _ stop
  exact expression_of_call first (call_of_primary h other) stop

/-! ## Lists of names -/

abbrev sign (kind : TokenKind) (pos : Position) : Token := ⟨kind, kind.text, none, pos⟩

abbrev name (lexeme : String) (start : Nat) : Token :=
  ⟨.identifier, lexeme, none, Synthesis.span start lexeme.utf8ByteSize⟩

def moreNames (start : Nat) : List String → List Token
  | [] => []
  | x :: xs => sign .comma (Synthesis.span start 1) :: name x (start + 2) :: moreNames (start + 2 + x.utf8ByteSize) xs

def nameRow (start : Nat) : List String → List Token
  | [] => []
  | x :: xs => name x start :: moreNames (start + x.utf8ByteSize) xs

theorem expression_name {ts : List Token} (stop : (ts.headD c.eof).kind ∈ TokenKind.closers) (x : String)
    (previous : Token) (start id : Nat) :
    expression r (c.put previous (name x start :: ts) id) =
      .ok (⟨id, Synthesis.span start x.utf8ByteSize, .ident x⟩, c.put (name x start) ts (id + 1)) :=
  expression_of_primary rfl rfl stop

section
variable (close : Position) (ts : List Token)

theorem moreNames_stop (eof : Token) (start : Nat) (names : List String) :
    ((moreNames start names ++ sign .rightBracket close :: ts).headD eof).kind ∈ TokenKind.closers := by
  cases names with
  | nil => exact (by decide : TokenKind.rightBracket ∈ TokenKind.closers)
  | cons x xs => exact (by decide : TokenKind.comma ∈ TokenKind.closers)

theorem moreItems_names (names : List String) : ∀ (previous : Token) (start id : Nat) (items : List Expr), ∃ last,
    iterate
      (fun (items : List Expr) => do
        newlines
        if ← take .comma then
          newlines
          if ← atKind .rightBracket then return .done items.reverse
          else return .again ((← expression r) :: items)
        else return .done items.reverse)
      items (c.put previous (moreNames start names ++ sign .rightBracket close :: ts) id) =
    .ok (items.reverse ++ (Synthesis.nameList id (start + 2) names).1,
      c.put last (sign .rightBracket close :: ts) (id + names.length)) := by
  induction names with
  | nil =>
    intro previous start id items
    refine ⟨previous, iterate_done ?_⟩
    rw [← runs_eq_iff, runs_bind, runs_newlines, runs_bind, runs_take]
    refine ⟨nofun, fun _ => ?_⟩
    rw [if_neg Bool.false_ne_true, runs_pure]
    exact ⟨by simp [Synthesis.nameList], rfl⟩
  | cons x xs ih =>
    intro previous start id items
    obtain ⟨last, more⟩ := ih (name x (start + 2)) (start + 2 + x.utf8ByteSize) (id + 1)
      (⟨id, Synthesis.span (start + 2) x.utf8ByteSize, .ident x⟩ :: items)
    have stop := moreNames_stop close ts c.eof (start + 2 + x.utf8ByteSize) xs
    refine ⟨last, iterate_again ?_ ?_ (more.trans ?_)⟩
    · rw [← runs_eq_iff, runs_bind, runs_newlines, runs_bind, runs_take]
      refine ⟨fun _ => ?_, fun other => absurd rfl other⟩
      rw [if_pos rfl, runs_bind, runs_newlines, runs_bind, runs_atKind]
      exact runs_bind.mpr ((runs_of_eq (expression_name stop x _ (start + 2) id)).mpr ⟨rfl, rfl⟩)
    · simp only [Cursor.put, moreNames, List.cons_append, List.length_cons]
      omega
    · rw [Synthesis.nameList_cons]
      simp [Cursor.put, Nat.add_comm, Nat.add_left_comm]

theorem collection_names (opening : Token) (start id : Nat) (names : List String) :
    collection r.next false (c.put opening (nameRow start names ++ sign .rightBracket close :: ts) id) =
    .ok (⟨id + names.length, opening.pos.merge close, .list (Synthesis.nameList id start names).1 false⟩,
      c.put (sign .rightBracket close) ts (id + names.length + 1)) := by
  cases names with
  | nil => rfl
  | cons x xs =>
    have stop := moreNames_stop close ts c.eof (start + x.utf8ByteSize) xs
    have noColon : ((moreNames (start + x.utf8ByteSize) xs ++ sign .rightBracket close :: ts).headD c.eof).kind ≠
        .colon := by
      intro found
      rw [found] at stop
      exact absurd stop (by decide)
    obtain ⟨last, more⟩ :=
      moreItems_names (r := r) (c := c) close ts xs (name x start) (start + x.utf8ByteSize) (id + 1)
      [⟨id, Synthesis.span start x.utf8ByteSize, .ident x⟩]
    unfold collection
    rw [← runs_eq_iff, runs_bind, runs_previous, runs_bind, runs_newlines, runs_bind, runs_atKind, runs_bind,
      runs_peekNext]
    refine runs_ite.mpr ⟨fun found => absurd found Bool.false_ne_true, fun _ => ?_⟩
    rw [runs_bind, runs_take]
    refine ⟨nofun, fun _ => ?_⟩
    rw [if_neg Bool.false_ne_true, runs_bind]
    refine (runs_of_eq (expression_name stop x opening start id)).mpr ?_
    rw [runs_bind, runs_take]
    refine ⟨fun found => absurd found noColon, fun _ => ?_⟩
    rw [if_neg Bool.false_ne_true, runs_bind]
    unfold moreItems
    rw [runs_bind]
    refine (runs_of_eq more).mpr ?_
    rw [runs_bind, runs_expect]
    refine ⟨fun _ => ?_, fun other => absurd rfl other⟩
    rw [runs_pure, runs_bind, runs_spanFrom, runs_node]
    simp [Synthesis.nameList_cons, Nat.add_comm, Nat.add_left_comm, Cursor.advance, Cursor.put, sign]

/-! ## Factories -/

theorem argument_plain (plain : c.peek.kind ≠ .identifier) (h : r.expression c = .ok (e, d)) :
    argument r c = .ok (⟨none, e⟩, d) := by
  unfold argument
  rw [← runs_eq_iff, runs_bind, runs_atKind, runs_bind, runs_peekNext, beq_eq_false_iff_ne.mpr plain, Bool.false_and,
    if_neg Bool.false_ne_true, runs_bind, runs_of_eq h]
  exact ⟨rfl, rfl⟩

def items {α : Type} (item : Parser α) : List α → Parser (List α) :=
  iterate fun items => do
    if ← atKind .rightParen then return .done items.reverse
    else
      let x ← item
      newlines
      if ← take .comma then
        newlines
        return .again (x :: items)
      else return .done (x :: items).reverse

section
variable {α : Type} {item : Parser α} {x : α} {xs ys : List α}

theorem items_more {d' : Cursor} (opens : c.peek.kind ≠ .rightParen) (h : item c = .ok (x, d))
    (comma : d.peek.kind = .comma) (solid : d.advance.peek.kind ≠ .newline)
    (less : d.advance.rest.length < c.rest.length) (more : items item (x :: xs) d.advance = .ok (ys, d')) :
    items item xs c = .ok (ys, d') := by
  refine iterate_again ?_ less more
  have ahead : d.skipNewlines = d := Cursor.skipNewlines_of_ne (by simp [comma])
  rw [← runs_eq_iff, runs_bind, runs_atKind, beq_eq_false_iff_ne.mpr opens, if_neg Bool.false_ne_true, runs_bind,
    runs_of_eq h, runs_bind, runs_newlines, ahead, runs_bind, runs_take]
  refine ⟨fun _ => ?_, fun other => absurd comma other⟩
  rw [if_pos rfl, runs_bind, runs_newlines, Cursor.skipNewlines_of_ne solid]
  exact ⟨rfl, rfl⟩

theorem items_last (opens : c.peek.kind ≠ .rightParen) (h : item c = .ok (x, d))
    (close : d.peek.kind = .rightParen) : items item xs c = .ok ((x :: xs).reverse, d) := by
  apply iterate_done
  have ahead : d.skipNewlines = d := Cursor.skipNewlines_of_ne (by simp [close])
  rw [← runs_eq_iff, runs_bind, runs_atKind, beq_eq_false_iff_ne.mpr opens, if_neg Bool.false_ne_true, runs_bind,
    runs_of_eq h, runs_bind, runs_newlines, ahead, runs_bind, runs_take]
  refine ⟨fun comma => by simp [close] at comma, fun _ => ?_⟩
  exact ⟨rfl, rfl⟩

theorem parenthesized_of_items {what : String} (solid : c.peek.kind ≠ .newline) (h : items item [] c = .ok (xs, d))
    (close : d.peek.kind = .rightParen) : parenthesized item what c = .ok (xs, d.advance) := by
  unfold parenthesized
  rw [← runs_eq_iff, runs_bind, runs_newlines, Cursor.skipNewlines_of_ne solid, runs_bind]
  refine (runs_of_eq h).mpr ?_
  rw [runs_bind, runs_expect]
  exact ⟨fun _ => ⟨rfl, rfl⟩, fun other => absurd close other⟩

end

section
variable {close ts} (stop : (ts.headD c.eof).kind ∈ TokenKind.closers) (previous token : Token) (id : Nat)
include stop

theorem argument_number (isNumber : token.kind = .number) : argument r.next (c.put previous (token :: ts) id) =
    .ok (⟨none, ⟨id, token.pos, .literal (.number token.lexeme)⟩⟩, c.put token ts (id + 1)) := by
  obtain ⟨_, lexeme, literal, pos⟩ := token
  obtain rfl : _ = TokenKind.number := isNumber
  exact argument_plain nofun (expression_of_primary rfl rfl stop)

theorem argument_string (isString : token.kind = .string) : argument r.next (c.put previous (token :: ts) id) =
    .ok (⟨none, ⟨id, token.pos, .literal (.string token.text)⟩⟩, c.put token ts (id + 1)) := by
  obtain ⟨_, lexeme, literal, pos⟩ := token
  obtain rfl : _ = TokenKind.string := isString
  exact argument_plain nofun (expression_of_primary rfl rfl stop)

theorem argument_names (opening : Position) (start : Nat) (names : List String) :
    argument r.next.next
      (c.put previous (sign .leftBracket opening :: (nameRow start names ++ sign .rightBracket close :: ts)) id) =
    .ok (⟨none, ⟨id + names.length, opening.merge close, .list (Synthesis.nameList id start names).1 false⟩⟩,
      c.put (sign .rightBracket close) ts (id + names.length + 1)) := by
  have list := collection_names (r := r) (c := c) close ts (sign .leftBracket opening) start id names
  exact argument_plain nofun (expression_of_primary rfl list stop)

end

theorem arguments_factory (previous : Token) {number string : Token} (isNumber : number.kind = .number)
    (isString : string.kind = .string) (p₁ p₂ opening stop : Position) (start id : Nat) (names : List String) :
    arguments r.next.next (c.put previous
      (number :: sign .comma p₁ :: string :: sign .comma p₂ :: sign .leftBracket opening ::
        (nameRow start names ++ sign .rightBracket close :: sign .rightParen stop :: ts)) id) =
    .ok ([⟨none, ⟨id, number.pos, .literal (.number number.lexeme)⟩⟩,
        ⟨none, ⟨id + 1, string.pos, .literal (.string string.text)⟩⟩,
        ⟨none, ⟨id + 2 + names.length, opening.merge close, .list (Synthesis.nameList (id + 2) start names).1 false⟩⟩],
      c.put (sign .rightParen stop) ts (id + 2 + names.length + 1)) := by
  have comma : TokenKind.comma ∈ TokenKind.closers := by decide
  have paren : TokenKind.rightParen ∈ TokenKind.closers := by decide
  refine parenthesized_of_items (d := c.put (sign .rightBracket close) (sign .rightParen stop :: ts) _) ?solid
    ?items rfl
  case solid => simp [Cursor.put, Cursor.peek, isNumber]
  case items =>
    refine items_more ?_ (argument_number ?_ previous number id isNumber) rfl ?_ ?_ ?_
    · simp [Cursor.put, Cursor.peek, isNumber]
    · exact comma
    · simp [Cursor.put, Cursor.peek, Cursor.advance, isString]
    · simp [Cursor.put, Cursor.advance]
    refine items_more ?_ (argument_string ?_ _ string (id + 1) isString) rfl ?_ ?_ ?_
    · simp [Cursor.put, Cursor.peek, Cursor.advance, isString]
    · exact comma
    · simp [Cursor.put, Cursor.peek, Cursor.advance]
    · simp [Cursor.put, Cursor.advance]
    refine items_last ?_ (argument_names ?_ _ (id + 2) opening start names) rfl
    · simp [Cursor.put, Cursor.peek, Cursor.advance]
    · exact paren

end

theorem expression_call {callee last : Token} {p : Position} {rest ts : List Token} {id next : Nat} {args : List Arg}
    (isType : callee.kind = .typeIdentifier) (previous : Token)
    (h : arguments r (c.put (sign .leftParen p) rest (id + 1)) = .ok (args, c.put last ts next))
    (less : ts.length ≤ rest.length) (stop : (ts.headD c.eof).kind ∈ TokenKind.closers) :
    expression r (c.put previous (callee :: sign .leftParen p :: rest) id) =
      .ok (⟨next, (callee.pos.merge callee.pos).merge last.pos,
        .call ⟨id, callee.pos.merge callee.pos, .path (.ofName callee.lexeme)⟩ args⟩, c.put last ts (next + 1)) := by
  obtain ⟨_, lexeme, literal, pos⟩ := callee
  obtain rfl : _ = TokenKind.typeIdentifier := isType
  have noLambda : (c.put last ts next).peek.kind ≠ .leftBrace := by
    intro found
    rw [show (ts.headD c.eof).kind = .leftBrace from found] at stop
    exact absurd stop (by decide)
  have first : primary r (c.put previous (⟨.typeIdentifier, lexeme, literal, pos⟩ :: sign .leftParen p :: rest) id) =
      .ok (⟨id, pos.merge pos, .path (.ofName lexeme)⟩,
        c.put ⟨.typeIdentifier, lexeme, literal, pos⟩ (sign .leftParen p :: rest) (id + 1)) := rfl
  have finish : finishCall r ⟨id, pos.merge pos, .path (.ofName lexeme)⟩ (c.put (sign .leftParen p) rest (id + 1)) =
      .ok (⟨next, (pos.merge pos).merge last.pos, .call ⟨id, pos.merge pos, .path (.ofName lexeme)⟩ args⟩,
        c.put last ts (next + 1)) := by
    unfold finishCall
    rw [← runs_eq_iff, runs_bind, runs_of_eq h, runs_bind, runs_after?]
    refine ⟨fun found => absurd found noLambda, fun _ => ?_⟩
    rw [runs_bind, runs_previous, runs_node]
    exact ⟨by simp [Cursor.put], rfl⟩
  have other : (c.put last ts (next + 1)).peek.kind ∉ _ := (closers_loose _ stop).2.1
  refine expression_of_call rfl ?_ stop
  unfold call
  rw [← runs_eq_iff, runs_bind, runs_of_eq first, runs_eq_iff]
  refine iterate_again ?_ ?_ (iterate_done (postfixStep_done other _))
  · have solid : (c.put ⟨.typeIdentifier, lexeme, literal, pos⟩ (sign .leftParen p :: rest) (id + 1)).peek.kind ≠
        .newline := nofun
    unfold postfixStep
    rw [← runs_eq_iff, runs_bind, runs_continueLine_of_ne solid, runs_bind, runs_peek]
    exact runs_bind.mpr (runs_advance.mpr (runs_bind.mpr ((runs_of_eq finish).mpr ⟨rfl, rfl⟩)))
  · exact Nat.lt_succ_of_le less

section
variable {ts : List Token}

theorem declaration_of_statement {s : Stmt} (h : statement r c = .ok (s, d))
    (plain : c.peek.kind ∉ [.leftBracket, .useKw, .classKw, .interfaceKw, .traitKw, .enumKw, .functionKw,
      .namespaceKw]) :
    declaration r c = .ok (s, d) := by
  have other : c.peek.kind ≠ .leftBracket := fun found => by simp [found] at plain
  have run := runs_eq_iff.mpr h
  unfold declaration
  rw [← runs_eq_iff, runs_bind, runs_of_eq (attributes_of_ne other), runs_bind, runs_peek, runs_bind, runs_peekNext]
  split
  case h_6 => simp_all
  all_goals
    rename_i found
    simp [found] at plain

theorem statement_return {keyword : Token} (isReturn : keyword.kind = .returnKw) (previous : Token) (id : Nat)
    (h : r.expression (c.put keyword ts id) = .ok (e, d))
    (value : (ts.headD c.eof).kind ∉ [.semicolon, .newline, .rightBrace, .eof]) (close : d.peek.kind = .rightBrace) :
    statement r (c.put previous (keyword :: ts) id) = .ok (⟨keyword.pos.merge d.previous.pos, .ret (some e)⟩, d) := by
  obtain ⟨_, lexeme, literal, pos⟩ := keyword
  obtain rfl : _ = TokenKind.returnKw := isReturn
  have returns : returnStatement r (c.put ⟨.returnKw, lexeme, literal, pos⟩ ts id) =
      .ok (⟨pos.merge d.previous.pos, .ret (some e)⟩, d) := by
    unfold returnStatement
    rw [← runs_eq_iff, runs_bind, runs_previous, runs_bind, runs_peek]
    dsimp only
    split
    case h_5 =>
      unfold endStatement
      rw [runs_bind, runs_of_eq h, runs_bind, runs_pure, runs_bind, runs_spanFrom, runs_bind, runs_bind,
        runs_peek, close]
      exact ⟨rfl, rfl⟩
    all_goals
      rename_i found
      have found : (ts.headD c.eof).kind = _ := found
      simp only [found] at value
      exact absurd value (by decide)
  unfold statement
  rw [← runs_eq_iff, runs_bind, runs_peek]
  exact runs_seqRight.mpr (runs_advance.mpr (runs_eq_iff.mpr returns))

theorem statement_block {opening : Token} {s : Stmt} (isOpening : opening.kind = .leftBrace) (previous : Token)
    (id : Nat) (h : r.declaration (c.put opening ts id) = .ok (s, d)) (solid : (ts.headD c.eof).kind ≠ .newline)
    (opens : ((ts.headD c.eof).kind == .rightBrace || (ts.headD c.eof).kind == .eof) = false)
    (less : d.rest.length < ts.length) (close : d.peek.kind = .rightBrace) :
    statement r (c.put previous (opening :: ts) id) =
      .ok (⟨opening.pos.merge d.advance.previous.pos, .block [s]⟩, d.advance) := by
  obtain ⟨_, lexeme, literal, pos⟩ := opening
  obtain rfl : _ = TokenKind.leftBrace := isOpening
  have block : Grammar.block r (c.put ⟨.leftBrace, lexeme, literal, pos⟩ ts id) =
      .ok (⟨pos.merge d.advance.previous.pos, .block [s]⟩, d.advance) := by
    have stmts : itemsUntil (· == .rightBrace) r.declaration (c.put ⟨.leftBrace, lexeme, literal, pos⟩ ts id) =
        .ok ([s], d) := itemsUntil_single opens h less (by simp [close]) (by simp [close])
    have same : (c.put ⟨.leftBrace, lexeme, literal, pos⟩ ts id).skipNewlines = _ := Cursor.skipNewlines_of_ne solid
    unfold Grammar.block
    rw [← runs_eq_iff, runs_bind, runs_previous, runs_bind, runs_newlines, same, runs_bind, runs_of_eq stmts, runs_bind,
      runs_expect]
    exact ⟨fun _ => ⟨rfl, rfl⟩, fun other => absurd close other⟩
  unfold statement
  rw [← runs_eq_iff, runs_bind, runs_peek]
  exact runs_seqRight.mpr (runs_advance.mpr (runs_eq_iff.mpr block))

end

end Grammar

namespace Synthesis

open PhaseLang.Grammar PhaseLang.Parser

/-- The tokens of a factory's text, where the enum's name ends at byte `a`, the index at byte `b`, the case's
name at byte `l` and the list of names at byte `z`. -/
def factoryRow (enumName digits quoted caseName : String) (a b l z : Nat) (names : List String) : List Token :=
  sign .leftBrace (span 0 1) :: ⟨.returnKw, "return", none, span 2 6⟩ ::
    ⟨.typeIdentifier, enumName, none, ⟨9, a, file⟩⟩ :: sign .leftParen (span a 1) ::
    ⟨.number, digits, some digits, ⟨a + 1, b, file⟩⟩ :: sign .comma (span b 1) ::
    ⟨.string, quoted, some caseName, ⟨b + 2, l, file⟩⟩ :: sign .comma (span l 1) ::
    sign .leftBracket (span (l + 2) 1) :: (nameRow (l + 3) names ++
      [sign .rightBracket (span z 1), sign .rightParen (span (z + 1) 1), sign .rightBrace (span (z + 3) 1)])

theorem merge_of_le {a b c d : Nat} (h : a ≤ d) : Position.merge ⟨a, b, file⟩ ⟨c, d, file⟩ = ⟨a, d, file⟩ := by
  unfold Position.merge
  rw [Nat.max_eq_left h]

section
variable (enumName digits quoted caseName : String) {a b l z : Nat} (names : List String)

def factoryTree (a b l z id : Nat) : Stmt :=
  ⟨⟨0, z + 4, file⟩, .block [⟨⟨2, z + 2, file⟩, .ret (some ⟨id + 4 + names.length, ⟨9, z + 2, file⟩,
    .call ⟨id, ⟨9, a, file⟩, .path (.ofName enumName)⟩
      [⟨none, ⟨id + 1, ⟨a + 1, b, file⟩, .literal (.number digits)⟩⟩,
        ⟨none, ⟨id + 2, ⟨b + 2, l, file⟩, .literal (.string caseName)⟩⟩,
        ⟨none, ⟨id + 3 + names.length, ⟨l + 2, z + 1, file⟩, .list (nameList (id + 3) (l + 3) names).1 false⟩⟩]⟩)⟩]⟩

theorem declaration_factory {r : Rules} {c : Cursor} (ha : 9 ≤ a) (hl : a ≤ l) (hz : l + 3 ≤ z) (previous : Token)
    (id : Nat) :
    declaration r.next.next.next.next (c.put previous (factoryRow enumName digits quoted caseName a b l z names) id) =
      .ok (factoryTree enumName digits caseName names a b l z id,
        c.put (sign .rightBrace (span (z + 3) 1)) [] (id + 5 + names.length)) := by
  have brace : TokenKind.rightBrace ∈ TokenKind.closers := by decide
  have args := arguments_factory (r := r) (c := c) (span z 1) [sign .rightBrace (span (z + 3) 1)]
    (sign .leftParen (span a 1))
    (rfl : Token.kind ⟨.number, digits, some digits, ⟨a + 1, b, file⟩⟩ = .number)
    (rfl : Token.kind ⟨.string, quoted, some caseName, ⟨b + 2, l, file⟩⟩ = .string)
    (span b 1) (span l 1) (span (l + 2) 1) (span (z + 1) 1) (l + 3) (id + 1) names
  have value := expression_call (rfl : Token.kind ⟨.typeIdentifier, enumName, none, ⟨9, a, file⟩⟩ = .typeIdentifier)
    ⟨.returnKw, "return", none, span 2 6⟩ args (by simp) brace
  have starts : TokenKind.typeIdentifier ∉ [.semicolon, .newline, .rightBrace, .eof] := by decide
  have plain : ∀ kind ∈ [TokenKind.returnKw, TokenKind.leftBrace],
      kind ∉ [.leftBracket, .useKw, .classKw, .interfaceKw, .traitKw, .enumKw, .functionKw, .namespaceKw] := by decide
  have body := declaration_of_statement (r := r.next.next.next)
    (statement_return rfl (sign .leftBrace (span 0 1)) id value starts rfl) (plain .returnKw (by decide))
  have whole := declaration_of_statement (r := r.next.next.next.next)
    (statement_block rfl previous id body nofun rfl (by simp [Cursor.put]) rfl) (plain .leftBrace (by decide))
  have callee : Position.merge ⟨9, a, file⟩ ⟨9, a, file⟩ = ⟨9, a, file⟩ := merge_of_le ha
  have call : Position.merge ⟨9, a, file⟩ (span (z + 1) 1) = ⟨9, z + 2, file⟩ := merge_of_le (by omega)
  have list : (span (l + 2) 1).merge (span z 1) = ⟨l + 2, z + 1, file⟩ := merge_of_le (by omega)
  have ret : (span 2 6).merge (span (z + 1) 1) = ⟨2, z + 2, file⟩ := merge_of_le (by omega)
  have block : (span 0 1).merge (span (z + 3) 1) = ⟨0, z + 4, file⟩ := merge_of_le (by omega)
  have ids : id + 1 + 2 + names.length + 1 = id + 4 + names.length := by omega
  have next : id + 4 + names.length + 1 = id + 5 + names.length := by omega
  refine whole.trans ?_
  simp only [factoryTree, Cursor.put, Cursor.advance, sign, callee, call, list, ret, block, ids, next]
  rfl

theorem moreNames_only (start : Nat) (names : List String) : ∀ t ∈ moreNames start names, t.kind ≠ .eof := by
  induction names generalizing start with
  | nil => simp [moreNames]
  | cons x xs ih =>
    simp only [moreNames, List.forall_mem_cons]
    exact ⟨nofun, nofun, ih _⟩

theorem nameRow_only (start : Nat) (names : List String) : ∀ t ∈ nameRow start names, t.kind ≠ .eof := by
  cases names with
  | nil => simp [nameRow]
  | cons x xs =>
    simp only [nameRow, List.forall_mem_cons]
    exact ⟨nofun, moreNames_only _ xs⟩

theorem parse_factory (ha : 9 ≤ a) (hl : a ≤ l) (hz : l + 3 ≤ z) {eof : Token} (last : eof.kind = .eof) (id : Nat) :
    parse (factoryRow enumName digits quoted caseName a b l z names ++ [eof]) id =
      .ok ([factoryTree enumName digits caseName names a b l z id], id + 5 + names.length) := by
  have only : ∀ t ∈ factoryRow enumName digits quoted caseName a b l z names, t.kind ≠ .eof := by
    simp only [factoryRow, List.forall_mem_cons, List.forall_mem_append]
    exact ⟨nofun, nofun, nofun, nofun, nofun, nofun, nofun, nofun, nofun, nameRow_only _ names, nofun, nofun, nofun,
      by simp⟩
  have single :
      ∃ s next, parse (factoryRow enumName digits quoted caseName a b l z names ++ [eof]) id = .ok ([s], next) ∧
      s = factoryTree enumName digits caseName names a b l z id ∧ next = id + 5 + names.length := by
    refine parse_single _ last only nofun fun c rest closing nextId => ?_
    have start : c.put c.previous (factoryRow enumName digits quoted caseName a b l z names) id = c := by
      unfold Cursor.put
      rw [← nextId, show factoryRow enumName digits quoted caseName a b l z names = c.rest from rest.symm]
    obtain ⟨n, rules⟩ :
        ∃ n, (nameRow (l + 3) names ++ [sign .rightBracket (span z 1), sign .rightParen (span (z + 1) 1),
        sign .rightBrace (span (z + 3) 1)]).length + 8 + 1 = n + 4 := ⟨_, rfl⟩
    have run := declaration_factory enumName digits quoted caseName (b := b) names (r := .upTo n) (c := c) ha hl hz
      c.previous id
    rw [start] at run
    show runs (declaration (.upTo (_ + 8 + 1))) _ _ c
    rw [rules]
    refine (runs_of_eq run).mpr ⟨rfl, ?_, rfl, rfl⟩
    rw [← last, ← closing]
    rfl
  obtain ⟨s, next, parsed, rfl, rfl⟩ := single
  exact parsed
end

/-! ## The texts -/

/-- The text reads as one statement, whichever ids it starts at, and nothing is reported about it. -/
structure Reads (code : String) (ids : Nat) (stmt : Nat → Stmt) : Prop where
  quiet : (scan code file).diagnostics = []
  parsed : ∀ id, parse (scan code file).tokens id = .ok ([stmt id], id + ids)

def promotionText (name : String) : String := "this." ++ name ++ " = " ++ name

def factoryText (enumName caseName : String) (index : Nat) (params : List String) : String :=
  "\x7b return " ++ enumName ++ "(" ++ toString index ++ ", \x22" ++ caseName ++ "\x22, [" ++ ", ".intercalate params ++
    "]) \x7d"

open PhaseLang.Scanner

theorem parse_promotion (p₁ p₂ p₃ p₄ p₅ p₆ : Position) (name : String) (id : Nat) :
    parse [⟨.thisKw, "this", none, p₁⟩, sign .dot p₂, ⟨.identifier, name, none, p₃⟩, sign .equal p₄,
      ⟨.identifier, name, none, p₅⟩, ⟨.eof, "", none, p₆⟩] id =
    .ok ([⟨p₁.merge p₅, .expr ⟨id + 4, p₁.merge p₅,
      .set ⟨id, p₁, .this⟩ ⟨id + 1, p₃, .ident name⟩ ⟨id + 3, p₅, .ident name⟩⟩⟩], id + 5) := by
  rfl

theorem ends_cons {c : Char} {text : List Char} (h : Ends c) : ∀ d ∈ (c :: text).head?, Ends d := by
  simpa using h

theorem promotion_reads {name : String} (h : Word .identifier name) :
    Reads (promotionText name) promotionIds fun id => promotion id name := by
  have this : Word .thisKw "this" := .of_all rfl rfl rfl
  have text : (promotionText name).toList =
      "this".toList ++ ('.' :: (name.toList ++ (' ' :: '=' :: ' ' :: (name.toList ++ [])))) := by
    simp [promotionText]
  have yields : Yields file 0 (promotionText name).toList
      [⟨.thisKw, "this", none, span 0 4⟩, sign .dot (span 4 1), ⟨.identifier, name, none, span 5 name.utf8ByteSize⟩,
        sign .equal (span (5 + name.utf8ByteSize + 1) 1),
        ⟨.identifier, name, none, span (5 + name.utf8ByteSize + 3) name.utf8ByteSize⟩] := by
    rw [text]
    refine .word this (ends_cons (by decide)) (.symbol (by decide) ⟨by decide, by decide, by decide, by decide⟩
      (by decide) ?_ (.word h (ends_cons (by decide)) (.blank (.symbol (by decide)
        ⟨by decide, by decide, by decide, by decide⟩ (by decide) ?_ (.blank (.word h (by simp) yields_nil))))))
    -- no name starts with a dot, so the dot before the first one is not the start of a longer sign
    · have dots : ∀ entry ∈ symbolTable, entry.1.head? = some '.' → entry.1 = ['.'] ∨
        entry.1.tail.head? = some '.' := by
        decide
      intro entry mem first
      refine (dots entry mem first).imp_right fun dot same => ?_
      rw [dot, List.head?_append_of_ne_nil _ h.filled] at same
      exact absurd (h.start '.' same.symm) (by decide)
    · exact
        (by decide : ∀ entry ∈ symbolTable, entry.1.head? = some '=' → entry.1 = ['='] ∨ entry.1.tail.head? ≠ some ' ')
  refine ⟨yields.scan_diagnostics, fun id => ?_⟩
  rw [yields.scan_tokens]
  refine (parse_promotion ..).trans ?_
  simp [promotion, promotionIds, span, Position.merge]
  omega

/-! ## Lists of names in texts -/

def moreStop (start : Nat) : List String → Nat
  | [] => start
  | x :: xs => moreStop (start + 2 + x.utf8ByteSize) xs

theorem le_moreStop (start : Nat) (names : List String) : start ≤ moreStop start names := by
  induction names generalizing start with
  | nil => exact Nat.le_refl start
  | cons x xs ih => exact Nat.le_trans (by omega) (ih (start + 2 + x.utf8ByteSize))

def rowStop (start : Nat) : List String → Nat
  | [] => start
  | x :: xs => moreStop (start + x.utf8ByteSize) xs

theorem nameList_stop (names : List String) (id start : Nat) : (nameList id start names).2 = rowStop start names := by
  induction names generalizing id start with
  | nil => rfl
  | cons x xs ih =>
    cases xs with
    | nil => rfl
    | cons y ys =>
      have later := ih (id + 1) (start + x.utf8ByteSize + 2)
      simpa [nameList, rowStop, moreStop] using later

theorem le_rowStop (start : Nat) (names : List String) : start ≤ rowStop start names := by
  cases names with
  | nil => exact Nat.le_refl start
  | cons x xs => exact Nat.le_trans (Nat.le_add_right _ _) (le_moreStop _ xs)

def moreText (names : List String) : List Char := names.flatMap fun x => ',' :: ' ' :: x.toList

theorem intercalate_names (x : String) (xs : List String) :
    (", ".intercalate (x :: xs)).toList = x.toList ++ moreText xs := by
  rw [String.toList_intercalate]
  induction xs generalizing x with
  | nil => simp [moreText]
  | cons y ys ih =>
    have later := ih y
    simp only [List.map_cons, List.intercalate] at later ⊢
    rw [List.intersperse_cons_cons, List.flatten_cons, List.flatten_cons, later]
    rfl

section
variable {text : List Char} {ts : List Token} (stop : ∀ c ∈ text.head?, Ends c)
include stop

theorem moreText_ends (names : List String) : ∀ c ∈ (moreText names ++ text).head?, Ends c := by
  cases names with
  | nil => exact stop
  | cons x xs => exact ends_cons (by decide)

theorem yields_moreNames (names : List String) (h : ∀ x ∈ names, Word .identifier x) (start : Nat)
    (more : Yields file (moreStop start names) text ts) :
    Yields file start (moreText names ++ text) (moreNames start names ++ ts) := by
  induction names generalizing start with
  | nil => exact more
  | cons x xs ih =>
    rw [List.forall_mem_cons] at h
    rw [moreText, List.flatMap_cons, List.append_assoc, List.cons_append, List.cons_append]
    exact .sign (by decide) (.blank (.word h.1 (moreText_ends stop xs) (ih h.2 _ more)))

theorem yields_nameRow (names : List String) (h : ∀ x ∈ names, Word .identifier x) (start : Nat)
    (more : Yields file (rowStop start names) text ts) :
    Yields file start ((", ".intercalate names).toList ++ text) (nameRow start names ++ ts) := by
  cases names with
  | nil => exact more
  | cons x xs =>
    rw [List.forall_mem_cons] at h
    rw [intercalate_names, List.append_assoc]
    exact .word h.1 (moreText_ends stop xs) (yields_moreNames stop xs h.2 _ more)

end

theorem toString_size (n : Nat) : (toString n).utf8ByteSize = (toString n).length := by
  have size : ∀ cs : List Char, (∀ c ∈ cs, isDigit c = true) → Text.byteLength cs = cs.length := by
    intro cs
    induction cs with
    | nil => exact fun _ => rfl
    | cons c cs ih =>
      intro h
      rw [List.forall_mem_cons] at h
      have one : c.utf8Size = 1 := by
        have digit := h.1
        simp only [isDigit, Bool.and_eq_true, decide_eq_true_eq, Char.le_def, UInt32.le_iff_toNat_le] at digit
        rw [Char.utf8Size_eq_one_iff, UInt32.le_iff_toNat_le]
        exact Nat.le_trans digit.2 (by decide)
      rw [Text.byteLength, ih h.2, one, List.length_cons]
      omega
  rw [← Text.byteLength_toList, size _ (isDigit_toString n), String.length_toList]

theorem factory_reads {enumName caseName : String} {params : List String} (he : Word .typeIdentifier enumName)
    (hc : Word .typeIdentifier caseName) (hp : ∀ x ∈ params, Word .identifier x) (index : Nat) :
    Reads (factoryText enumName caseName index params) (factoryIds params) fun id =>
      factory id enumName caseName index params := by
  have ret : Word .returnKw "return" := .of_all rfl rfl rfl
  have text : (factoryText enumName caseName index params).toList =
      '\x7b' :: ' ' :: ("return".toList ++ (' ' :: (enumName.toList ++ ('(' :: ((toString index).toList ++
        (',' :: ' ' :: '\x22' :: (caseName.toList ++ ['\x22'] ++ (',' :: ' ' :: '[' ::
          ((", ".intercalate params).toList ++ (']' :: ')' :: ' ' :: ['\x7d'])))))))))) := by
    simp [factoryText]
  obtain ⟨a, ha⟩ : ∃ a, a = 9 + enumName.utf8ByteSize := ⟨_, rfl⟩
  obtain ⟨b, hb⟩ : ∃ b, b = a + 1 + (toString index).utf8ByteSize := ⟨_, rfl⟩
  obtain ⟨l, hl⟩ : ∃ l, l = b + 2 + (caseName.utf8ByteSize + 2) := ⟨_, rfl⟩
  have yields : Yields file 0 (factoryText enumName caseName index params).toList
      (factoryRow enumName (toString index) (String.ofList ('\x22' :: (caseName.toList ++ ['\x22']))) caseName a b l
        (rowStop (l + 3) params) params) := by
    rw [text]
    subst ha hb hl
    refine .sign (by decide) (.blank (.word ret (ends_cons (by decide)) (.blank (.word he (ends_cons (by decide))
      (.sign (by decide) (.number ?_ (isDigit_toString index) ?_ (.sign (by decide) (.blank (.string hc.part
        (.sign (by decide) (.blank (.sign (by decide) (yields_nameRow (ends_cons (by decide)) params hp _
          (.sign (by decide) (.sign (by decide) (.blank (.sign (by decide) yields_nil)))))))))))))))))
    · rw [Nat.toString_eq_ofList_toDigits, String.toList_ofList]
      exact List.ne_nil_of_length_pos Nat.length_toDigits_pos
    · simp only [List.head?_cons, Option.mem_some_iff, forall_eq']
      decide
  refine ⟨yields.scan_diagnostics, fun id => ?_⟩
  rw [yields.scan_tokens, parse_factory _ _ _ _ _ (by omega) (by omega) (le_rowStop _ _) rfl]
  subst ha hb hl
  simp only [factoryTree, factory, factoryIds, nameList_stop, span, toString_size, Nat.add_assoc]

end Synthesis

end PhaseLang
