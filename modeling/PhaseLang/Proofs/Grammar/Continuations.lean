import PhaseLang.Proofs.Grammar.Seams

/-!
# Lines that start with an operator

A line break in front of an operator is read behind a chain of calls only. An expression that ends in
another way, with `++` or with the type of an `is`, ends with its line. So a break in front of an operator
changes nothing if the expression before it ends with a chain, or if the operator does not go on with it
anyway.
-/

namespace PhaseLang

def Expr.lastBranch : Expr → Expr
  | ⟨_, _, .ternary _ _ no⟩ => no
  | e => e

/-- What is known of a rule for expressions: it goes on over the longer rows. -/
structure Grammar.Continued (s : Seam) (tests : Bool) (p : Parser Expr) : Prop where
  bridges : Bridges s tests p
  grows : ∀ Z, Parser.Extends Z p
  agrees : Parser.Agrees Bond.bare SameTree p p
  hungry : Parser.Hungry p

structure Rules.Bridge (s : Seam) (n : Nat) (r : Rules) : Prop where
  build : r.Build .front n
  agrees : Rules.Agree Bond.bare r r
  expression : Grammar.Continued s true r.expression
  unary : Grammar.Continued s false r.unary

theorem Expr.edge_lastBranch (e : Expr) : e.lastBranch.edge = e.edge := by
  obtain ⟨_, _, kind⟩ := e
  cases kind <;> rfl

theorem Expr.endsInBranch_of_isTernary (e : Expr) (h : e.kind.isTernary = true) : e.endsInBranch = true := by
  obtain ⟨_, _, kind⟩ := e
  cases kind <;> first | rfl | cases h

namespace Grammar

open PhaseLang.Parser

/-! ## Expressions that end with a chain -/

/-- The expressions are not conditional, and end with a chain. -/
abbrev Closed (p : Parser Expr) : Prop := Returns (fun e => e.kind.isTernary = false ∧ e.edge = .chain) p

theorem closed_node {kind : ExprKind} (plain : kind.isTernary = false) (edge : kind.edge = .chain) {pos : Position} :
    Closed (node kind pos) := fun _ => by
  rw [wp_node]
  exact ⟨plain, edge⟩

variable {c : Cursor}

section
variable {r : Rules}

theorem interpolation_closed (t : Token) : Closed (interpolation r t) := by
  intro c
  unfold interpolation stringLiteral sum
  rw [wp_bind, wp_node]
  refine wp_iterate (I := fun e _ => e.kind.isTernary = false ∧ e.edge = .chain) ⟨rfl, rfl⟩ fun e c h => ?_
  rw [wp_bind]
  intro embedded d _
  rw [wp_bind, wp_node, wp_bind, wp_node, wp_bind, wp_advance]
  split
  · simp [ExprKind.isTernary, Expr.edge, ExprKind.edge]
  · simp [ExprKind.isTernary, Expr.edge, ExprKind.edge]
  · exact wp_failAt

theorem collection_closed (native : Bool) : Closed (collection r native) := by
  refine returns_bind fun _ => returns_bind fun _ => returns_bind fun _ => returns_bind fun _ => returns_ite ?_ ?_
  · exact returns_bind fun _ => returns_bind fun _ => returns_bind fun _ => closed_node rfl rfl
  refine returns_bind fun _ => returns_ite (returns_bind fun _ => closed_node rfl rfl) (returns_bind fun _ => ?_)
  refine returns_bind fun _ => returns_ite ?_ ?_
  · exact returns_bind fun _ => returns_bind fun _ => returns_bind fun _ => returns_bind fun _ => closed_node rfl rfl
  · exact returns_bind fun _ => returns_bind fun _ => closed_node rfl rfl

theorem taggedTemplate_closed (t : Token) : Closed (taggedTemplate r t) := by
  refine returns_bind fun _ => returns_bind fun found => ?_
  exact returns_bind fun _ => returns_bind fun _ => returns_bind fun _ => closed_node rfl rfl

theorem shortLambda_closed : Closed (shortLambda r) := by
  have last (opening : Token) {params : List Param} (body : Stmt) : Closed (do
      let pos ← spanFrom opening
      node (.lambda ⟨"", params, some body, none, [], pos⟩) pos) := returns_bind fun _ => closed_node rfl rfl
  refine returns_bind fun opening => returns_bind fun _ => returns_bind fun _ => returns_bind fun ps => ?_
  cases ps with
  | none => exact returns_bind fun _ => returns_bind fun _ =>
    returns_ite (returns_bind (last opening)) (returns_bind (last opening))
  | some ps =>
    refine returns_bind fun _ => returns_bind fun _ => returns_bind fun _ => ?_
    exact returns_ite (returns_bind (last opening)) (returns_bind (last opening))

theorem choice_closed : Closed (choice r) := by
  refine returns_bind fun _ => returns_bind fun _ => returns_bind fun _ =>
    returns_bind fun _ => returns_bind fun _ => ?_
  exact returns_bind fun _ => returns_bind fun _ => closed_node rfl rfl

theorem primary_closed (other : c.peek.kind ≠ .ifKw) :
    wp (primary r) (fun e _ => e.kind.isTernary = false ∧ e.edge = .chain) c := by
  unfold primary
  rw [wp_bind, wp_peek]
  split
  · exact returns_seq (closed_node rfl rfl) _
  · exact returns_seq (closed_node rfl rfl) _
  · exact returns_seq (closed_node rfl rfl) _
  · exact returns_seq (closed_node rfl rfl) _
  · exact returns_seq (closed_node rfl rfl) _
  · exact returns_bind (fun _ => returns_bind fun _ => closed_node rfl rfl) _
  · exact returns_bind (fun _ => returns_bind fun _ => closed_node rfl rfl) _
  · exact returns_seq (closed_node rfl rfl) _
  · exact returns_seq (closed_node rfl rfl) _
  · exact returns_seq (closed_node rfl rfl) _
  · exact returns_bind
      (fun _ => returns_bind fun _ => returns_bind fun _ => returns_bind fun _ => closed_node rfl rfl) _
  · exact returns_seq (interpolation_closed _) _
  · exact returns_seq (taggedTemplate_closed _) _
  · refine returns_bind (fun _ => returns_bind fun _ => returns_bind fun _ => returns_bind fun _ => ?_) _
    exact returns_bind fun _ => closed_node rfl rfl
  · exact returns_bind (fun _ => returns_bind fun _ => collection_closed true) _
  · exact returns_seq (collection_closed false) _
  · exact returns_seq shortLambda_closed _
  · exact returns_bind (fun _ => returns_bind fun _ => closed_node rfl rfl) _
  · rename_i found
    exact absurd found other
  · exact returns_seq choice_closed _
  all_goals exact wp_failAt

end

variable {s : Seam} {n : Nat} {r : Rules} (hr : r.Bridge s n)
include hr

/-! ## Chains -/

theorem ternary_bridges : BridgesTo s true Expr.lastBranch SameTree (ternary r) := by
  have last {keyword : Token} {cond yes : Expr} (found : Bool) : Hungry (do
      if found then
        newlines
        let no ← r.expression
        node (.ternary cond yes no) (← spanFrom keyword)
      else fail (.expected "an `else` branch")) := by
    split
    · exact .after (Z := .none) extends_newlines fun _ => hr.expression.hungry.bind
    · exact fun _ _ _ => wp_fail
  refine .after (fun Z => spans_previous.loosen) (fun keyword => ?_) fun keyword => ?_
  · exact .after (Z := .none) (condition_builds hr.build _).extend fun _ => hr.expression.hungry.bind
  refine .after (fun Z => (condition_builds hr.build _).extend) (fun cond => hr.expression.hungry.bind) fun cond => ?_
  refine .after hr.expression.grows (fun yes => ?_) fun yes => ?_
  · exact .after (Z := .none) extends_takeOnNextLine last
  refine .after (fun Z => extends_takeOnNextLine) last fun found => ?_
  split
  · refine .after (fun Z => extends_newlines) (fun _ => hr.expression.hungry.bind) fun _ => ?_
    refine hr.expression.bridges.finish hr.expression.grows (fun Z no => ?_) (fun no c => ?_) fun no no' like => ?_
    · exact (spans_spanFrom keyword).bind fun _ => spans_node
    · rw [wp_bind, wp_spanFrom, wp_node]
      exact ⟨rfl, rfl, rfl⟩
    · exact (agrees_spanFrom (Bond.bare_places _ _)).bind fun _ _ _ => agrees_node (by simp [like.eq])
  · exact fun c _ => wp_fail

omit hr in
theorem postfixStep_edge {e : Expr} :
    wp (postfixStep r e) (fun t _ => t.isDone = false → t.tree.edge = .chain) c := by
  have closed {p : Parser Expr} (h : Closed p) (c : Cursor) :
      wp (do return (.again (← p) : Round Expr Expr)) (fun t _ => t.isDone = false → t.tree.edge = .chain) c := by
    rw [wp_bind]
    intro e' d run
    rw [wp_pure]
    exact fun _ => (h c e' d run).2
  have call {callee : Expr} : Closed (finishCall r callee) :=
    returns_bind fun _ => returns_bind fun _ => returns_bind fun _ => closed_node rfl rfl
  have index {target : Expr} : Closed (finishIndex r target) := by
    have last (i : Option Expr) : Closed (do
        let close ← expect .rightBracket "`]` after index"
        node (.indexGet target i) (target.pos.merge close.pos)) := returns_bind fun _ => closed_node rfl rfl
    refine returns_bind fun _ => returns_ite (returns_bind last) ?_
    exact returns_bind fun _ => returns_bind fun _ => returns_bind fun _ => returns_bind last
  unfold postfixStep
  rw [wp_bind]
  intro _ d _
  rw [wp_bind, wp_peek]
  split
  · rw [wp_bind, wp_advance]
    exact closed call _
  · rw [wp_bind, wp_advance, wp_bind]
    exact fun lambda d _ => closed (closed_node rfl rfl) d
  · rw [wp_bind, wp_advance, wp_bind, wp_newlines, wp_bind]
    exact fun field d _ => closed (closed_node rfl rfl) d
  · rw [wp_bind, wp_advance]
    exact closed index _
  · rw [wp_pure]
    nofun

omit hr in
theorem iterateFor_postfix_turn (agrees : Rules.Agree Bond.bare r r) {n m : Nat} (le : n ≤ m) (e : Expr)
    (ended : c.rest = []) {b : Expr} {d : Cursor}
    (run : iterateFor (postfixStep r) n e (c.extend s.straight) = .ok (b, d)) :
    ∃ b' d', iterateFor (postfixStep r) m e (c.extend s.broken) = .ok (b', d') ∧ SameTree b b' ∧
      Bond.bare.Cursors d d' := by
  let c' : Cursor := { c.extend s.straight with previous := s.newline }
  obtain ⟨b', d', run', same⟩ := follows_iterateFor (fun _ _ => postfixStep_agrees agrees) le (SameTree.refl _) _ c'
    (Bond.bare_cursors _ _) b d run
  refine ⟨b', d', ?_, same⟩
  have peek : c'.peek = s.operator := Seam.peek_straight ended
  have more : c'.peek.kind.isContinuation = true := by rw [peek, s.continues]
  have skip : c'.skipNewlines = c' := Cursor.skipNewlines_of_ne (by rw [peek]; exact Seam.operator_ne_newline)
  have first : continueLine (c.extend s.broken) = .ok ((), c') := by
    rw [← runs_eq_iff, runs_continueLine, Seam.skipNewlines_broken ended]
    exact ⟨fun _ => ⟨rfl, rfl⟩, fun other => Bool.noConfusion (more.symm.trans other)⟩
  have second : continueLine c' = .ok ((), c') := by
    rw [← runs_eq_iff, runs_continueLine, skip]
    exact ⟨fun _ => ⟨rfl, rfl⟩, fun _ => ⟨rfl, rfl⟩⟩
  have round : postfixStep r e (c.extend s.broken) = postfixStep r e c' := by
    unfold postfixStep
    rw [run_bind first, run_bind second]
  cases m with
  | zero => cases run'
  | succ m =>
    rw [← run', iterateFor]
    exact bind_run_congr round

theorem iterateFor_postfix : ∀ {n n₂ n₃ : Nat}, n ≤ n₂ → n₂ ≤ n₃ → ∀ (e : Expr) (c : Cursor), s.broken.Fits c →
    wp (iterateFor (postfixStep r) n e) (fun a d => d.rest = [] → (if c.rest = [] then a = e else a.edge = .chain) ∧
      ∀ b d₂, iterateFor (postfixStep r) n₂ e (c.extend s.straight) = .ok (b, d₂) →
        ∃ b' d₃, iterateFor (postfixStep r) n₃ e (c.extend s.broken) = .ok (b', d₃) ∧ SameTree b b' ∧
          Bond.bare.Cursors d₂ d₃) c
  | 0, _, _, _, _, _, _, _ => wp_fail
  | n + 1, n₂ + 1, n₃ + 1, le₂, le₃, e, c, fits => by
    by_cases ended : c.rest = []
    · intro a d run ended'
      have stop : iterateFor (postfixStep r) (n + 1) e c = .ok (e, c) :=
        iterateFor_done (postfixStep_done (by simp [Cursor.peek, ended, fits.eof]) e) n.succ_pos
      cases stop.symm.trans run
      rw [if_pos ended]
      exact ⟨rfl, fun b d₂ run₂ => iterateFor_postfix_turn hr.agrees le₃ _ ended run₂⟩
    · rw [iterateFor, wp_bind]
      intro t c₁ run a d run' ended'
      have grown (Z : Tail) := postfixStep_grows (Z := Z) hr.build e c (s.fits fits Z) t c₁ run
      have fits₁ := fits.step (grown s.broken).suffix (grown s.broken).eof
      cases t with
      | done e' =>
        cases run'
        obtain ⟨rfl, rfl | more⟩ := postfixStep_last fits.eof _ _ run _ rfl
        · exact absurd ended' ended
        · exact absurd ended' more
      | again e' =>
        have same (Z : Tail) := (grown Z).same (.inl rfl)
        obtain ⟨last, next⟩ := iterateFor_postfix (Nat.le_of_succ_le_succ le₂) (Nat.le_of_succ_le_succ le₃) e' c₁ fits₁
          a d run' ended'
        rw [if_neg ended, iterateFor, iterateFor, run_bind (same _), run_bind (same _)]
        refine ⟨?_, next⟩
        split at last
        · rw [last]
          exact postfixStep_edge _ _ run rfl
        · exact last
  | _ + 1, 0, _, le, _, _, _, _ => absurd le (Nat.not_succ_le_zero _)
  | _ + 1, _ + 1, 0, _, le, _, _, _ => absurd le (Nat.not_succ_le_zero _)

omit hr in
theorem primary_if (keyword : c.peek.kind = .ifKw) : primary r c = ternary r c.advance := by
  have look : peek c = .ok (c.peek, c) := rfl
  have read : advance c = .ok (c.peek, c.advance) := rfl
  unfold primary
  rw [run_bind look, keyword]
  dsimp only
  rw [seqRight_eq_bind, run_bind read]

theorem call_bridges : Bridges s false (call r) := by
  intro c fits
  unfold call
  rw [wp_bind]
  intro e d run a d' run' ended'
  have grown (Z : Tail) := primary_grows (Z := Z) hr.build c (s.fits fits Z) e d run
  have fits' := fits.step (grown s.broken).suffix (grown s.broken).eof
  have le₂ : d.rest.length + 1 ≤ (d.extend s.straight).rest.length + 1 := by simp [Cursor.extend]
  have le₃ : (d.extend s.straight).rest.length + 1 ≤ (d.extend s.broken).rest.length + 1 := by
    simp [Cursor.extend, Seam.straight, Seam.broken]
  obtain ⟨edge, turn⟩ := iterateFor_postfix hr le₂ le₃ e d fits' a d' run' ended'
  -- Where the first part ends at the same place over all rows, the loop goes on as it does from there.
  have stop (straight : primary r (c.extend s.straight) = .ok (e, d.extend s.straight))
      (broken : primary r (c.extend s.broken) = .ok (e, d.extend s.broken)) (b : Expr) (d₂ : Cursor)
      (run₂ : (primary r >>= iterate (postfixStep r)) (c.extend s.straight) = .ok (b, d₂)) :
      ∃ b' d₃, (primary r >>= iterate (postfixStep r)) (c.extend s.broken) = .ok (b', d₃) ∧ SameTree b b' ∧
        Bond.bare.Cursors d₂ d₃ := by
    rw [run_bind straight] at run₂
    rw [run_bind broken]
    exact turn b d₂ run₂
  by_cases ended : d.rest = []
  · rw [if_pos ended] at edge
    subst edge
    by_cases keyword : c.peek.kind = .ifKw
    · have filled : c.rest ≠ [] := peek_ne_eof fits.eof (by simp [keyword])
      have steps (Z : Tail) : primary r (c.extend Z) = ternary r (c.advance.extend Z) := by
        rw [primary_if (by rw [Cursor.peek_extend filled, keyword]), Cursor.advance_extend filled]
      rw [primary_if keyword] at run
      have branch : a.endsInBranch = true := a.endsInBranch_of_isTernary (ternary_isTernary a d run)
      have soft : a.Soft := .inr branch
      have meets := ternary_bridges hr c.advance (fits.step c.advance_suffix c.advance_eof) a d run ended
      refine ⟨fun _ => .inl branch, fun free _ => ?_, fun _ hard => absurd soft hard, fun hard => absurd soft hard⟩
      rw [id, ← a.edge_lastBranch] at free
      by_cases inner : a.lastBranch.Soft
      · intro b d₂ run₂
        obtain ⟨x, e₂, run₂, rest₂⟩ := of_run_bind run₂
        rw [steps] at run₂
        obtain ⟨y, e₃, run₃, like, cursors⟩ := meets.caught free inner x e₂ run₂
        rw [run_bind ((steps _).trans run₃)]
        exact (agrees_iterate SameTree like fun _ _ => postfixStep_agrees hr.agrees).follows e₂ e₃ cursors b d₂ rest₂
      · exact stop ((steps _).trans (meets.passed free inner)) ((steps _).trans (meets.parted inner))
    · obtain ⟨plain, chain⟩ := primary_closed keyword a d run
      have soft : a.Soft := .inl chain
      have same (Z : Tail) := (grown Z).same (.inl (by simp [plain]))
      refine ⟨fun test => ?_, fun _ _ => stop (same _) (same _), fun _ hard => absurd soft hard,
        fun hard => absurd soft hard⟩
      rw [id, chain] at test
      cases test
  · rw [if_neg ended] at edge
    have soft : a.Soft := .inl edge
    have same (Z : Tail) := (grown Z).same (.inr ended)
    refine ⟨fun test => ?_, fun _ _ => stop (same _) (same _), fun _ hard => absurd soft hard,
      fun hard => absurd soft hard⟩
    rw [id, edge] at test
    cases test

/-! ## Operators -/

omit hr in
theorem peek_run (c : Cursor) : peek c = .ok (c.peek, c) := rfl

omit hr in
theorem advance_run (c : Cursor) : advance c = .ok (c.peek, c.advance) := rfl

omit hr in
theorem atKind_run (kind : TokenKind) (c : Cursor) : atKind kind c = .ok (c.peek.kind == kind, c) := rfl

omit hr in
theorem peek_extend_run (filled : c.rest ≠ []) {Z : Tail} : peek (c.extend Z) = .ok (c.peek, c.extend Z) := by
  rw [peek_run, Cursor.peek_extend filled]

omit hr in
theorem advance_extend_run (filled : c.rest ≠ []) {Z : Tail} :
    advance (c.extend Z) = .ok (c.peek, c.advance.extend Z) := by
  rw [advance_run, Cursor.peek_extend filled, Cursor.advance_extend filled]

omit hr in
theorem operator_infix (s : Seam) : postfixOp? s.operator.kind = none ∧ s.operator.kind ≠ .isKw ∧
    s.operator.kind ≠ .equal ∧ s.operator.kind ≠ .plusEqual := by
  have all : ∀ kind ∈ TokenKind.continuations, postfixOp? kind = none ∧ kind ≠ .isKw ∧ kind ≠ .equal ∧
    kind ≠ .plusEqual := by
    decide
  exact all _ (TokenKind.mem_continuations s.continues)

/-- The end of an operand, with a step behind it if there is one. -/
def suffixed (operand : Expr) : Parser Expr := do
  match postfixOp? (← peek).kind with
  | some op =>
    let token ← advance
    node (.unary op operand false) (operand.pos.merge token.pos)
  | none => return operand

omit hr in
theorem suffixed_done {e : Expr} (h : postfixOp? c.peek.kind = none) : suffixed e c = .ok (e, c) := by
  rw [suffixed, run_bind (peek_run c), h]
  rfl

omit hr in
theorem suffixed_meets (e : Expr) (filled : c.rest ≠ []) :
    wp (suffixed e) (fun a d => d.rest = [] → Meets s false id SameTree (suffixed e) (suffixed e) c a d) c := by
  intro a d run ended
  cases sign : postfixOp? c.peek.kind with
  | none =>
    cases (suffixed_done sign).symm.trans run
    exact absurd ended filled
  | some op =>
    rw [suffixed, run_bind (peek_run c), sign] at run
    cases run
    refine .after (peek_extend_run filled) (peek_extend_run filled) ?_
    rw [sign]
    have hard : ¬ (⟨c.advance.nextId, e.pos.merge c.peek.pos, .unary op e false⟩ : Expr).Soft := by
      rintro (edge | branch)
      · cases edge
      · cases branch
    refine ⟨nofun, fun _ soft => absurd soft hard, fun _ _ => ?_, fun _ => ?_⟩
    · exact run_bind (advance_extend_run filled)
    · exact run_bind (advance_extend_run filled)

theorem suffixed_bridges : Bridges s false (call r >>= suffixed) := by
  refine (call_bridges hr).bind (fun Z => (call_builds hr.build).extend) (fun e e' like => ?agrees)
    (fun e c _ filled => suffixed_meets e filled) (fun e c eof nothing => ?ended) (fun e c nothing _ => ?passed)
    (fun e c nothing => ?parted) id
  case agrees =>
    refine agrees_peek.bind fun t u ht => ?_
    rw [ht.kind]
    cases postfixOp? t.kind with
    | some op => exact agrees_advance.bind fun _ _ _ => agrees_node (by simp [like.eq])
    | none => exact agrees_pure like
  case ended =>
    refine suffixed_done ?_
    rw [Cursor.peek, nothing, List.headD_nil, eof]
    rfl
  case passed => exact suffixed_done (Seam.peek_straight nothing ▸ ( operator_infix s).1)
  case parted =>
    refine suffixed_done ?_
    rw [Seam.peek_broken nothing, s.breaks]
    rfl

theorem unary_bridges : Bridges s false (unary r) := by
  intro c fits e d run ended
  have filled : c.rest ≠ [] := fun nothing => unary_hungry c fits.eof nothing e d run
  unfold unary at run ⊢
  rw [run_bind (peek_run c)] at run
  refine .after (peek_extend_run filled) (peek_extend_run filled) ?_
  cases sign : prefixOp? c.peek.kind with
  | none =>
    rw [sign] at run
    exact suffixed_bridges hr c fits e d run ended
  | some op =>
    rw [sign] at run
    have bridges : Bridges s false (do
        let _ ← advance
        newlines
        let operand ← r.unary
        node (.unary op operand true) (c.peek.pos.merge operand.pos)) := by
      refine .after (fun Z => extends_advance) (fun _ => ?_) fun _ => ?_
      · exact .after (Z := .none) extends_newlines fun _ => hr.unary.hungry.bind
      refine .after (fun Z => extends_newlines) (fun _ => hr.unary.hungry.bind) fun _ => ?_
      refine hr.unary.bridges.finish hr.unary.grows (fun Z e => spans_node) (fun e c => ?_) fun e e' like => ?_
      · rw [wp_node]
        exact ⟨rfl, rfl, rfl⟩
      · exact agrees_node (by simp [like.eq])
    exact bridges c fits e d run ended

theorem unary_continued : Continued s false (unary r) :=
  ⟨unary_bridges hr, fun _ => (unary_builds hr.build).extend, unary_agrees hr.agrees, unary_hungry⟩

def pipeRound (r : Rules) (input : Expr) : Parser (Round Expr Expr) := do
  if ← atKind .pipe then
    let operator ← advance
    newlines
    let stage ← unary r
    return .again (← pipeInto operator input stage)
  else return .done input

omit hr in
/-- A stage of a pipeline is a call or a lambda, and so ends with a chain. -/
theorem pipeInto_stays {t : Token} {input stage : Expr} :
    wp (pipeInto t input stage) (fun e d => d.rest = c.rest ∧ e.edge = stage.edge ∧
      e.endsInBranch = stage.endsInBranch) c := by
  obtain ⟨id, pos, kind⟩ := stage
  cases kind
  case call => exact fun e d run => by cases run; exact ⟨rfl, rfl, rfl⟩
  case lambda => exact fun e d run => by cases run; exact ⟨rfl, rfl, rfl⟩
  all_goals exact wp_failAt

omit hr in
theorem pipeInto_spans {Z : Tail} {operator : Token} {input stage : Expr} :
    Spans Z (pipeInto operator input stage) := by
  unfold pipeInto
  split
  · exact spans_node
  · exact spans_node.bind fun _ => spans_node.bind fun _ => spans_node
  · exact tight_failAt.spans

omit hr in
theorem pipeRound_done {e : Expr} (other : c.peek.kind ≠ .pipe) : pipeRound r e c = .ok (.done e, c) := by
  rw [pipeRound, run_bind (atKind_run .pipe c), beq_eq_false_iff_ne.mpr other]
  rfl

theorem pipeRound_loop : Loop s false (pipeRound r) where
  grows Z e := by
    refine extends_atKind.next fun _ => .ite ?_ grows_pure
    refine extends_advance.next fun _ => extends_newlines.next fun _ => (unary_builds hr.build).extend.next fun _ => ?_
    exact pipeInto_spans.next fun _ => grows_pure
  agrees e e' like := by
    refine agrees_atKind.next fun _ => agrees_ite (agrees_advance.bind fun t u _ => ?_) (agrees_pure (.done like))
    refine agrees_newlines.next fun _ => (unary_agrees hr.agrees).bind fun stage stage' hs => ?_
    exact (pipeInto_agrees t u like hs).bind fun _ _ h => agrees_pure (.again h)
  more e c fits filled := by
    intro t d run ended
    by_cases found : c.peek.kind = .pipe
    · have look (Z : Tail) : atKind .pipe (c.extend Z) = .ok (true, c.extend Z) := by
        rw [atKind_run, Cursor.peek_extend filled, found]
        rfl
      have stage : BridgesTo s false Round.tree SameRound (do
          let operator ← advance
          newlines
          let stage ← unary r
          return .again (← pipeInto operator e stage)) := by
        refine .after (fun Z => extends_advance) (fun _ => ?_) fun operator => ?_
        · exact .after (Z := .none) extends_newlines fun _ => unary_hungry.bind
        refine .after (fun Z => extends_newlines) (fun _ => unary_hungry.bind) fun _ => ?_
        refine (unary_bridges hr).finish (fun Z => (unary_builds hr.build).extend) (fun Z stage => ?_)
          (fun stage c => ?_) ?_
        · exact pipeInto_spans.bind fun _ => spans_pure
        · exact wp_bind.mpr (wp_mono pipeInto_stays fun x d same => (wp_pure _).mpr same)
        · intro stage stage' like
          exact (pipeInto_agrees _ _ (SameTree.refl _) like).bind fun _ _ h => agrees_pure (.again h)
      unfold pipeRound at run ⊢
      rw [run_bind (atKind_run .pipe c), found] at run
      exact .after (look _) (look _) (stage c fits t d run ended)
    · cases (pipeRound_done found).symm.trans run
      exact absurd ended filled
  ended e c eof nothing := pipeRound_done (by simp [Cursor.peek, nothing, eof])
  passed e c nothing free := by
    refine pipeRound_done fun found => ?_
    rw [Seam.peek_straight nothing] at found
    rw [found] at free
    cases free
  parted e c nothing := by
    refine pipeRound_done fun found => ?_
    rw [Seam.peek_broken nothing, s.breaks] at found
    cases found

omit hr

/-! ## Levels -/

/-- The operators of a level keep how their right operand ends, and none of them is passed by. -/
structure IsLevel (tests : Bool) (joint? : TokenKind → Option Joint) : Prop where
  keeps : KeepsJoint joint?
  edge : ∀ {kind joint}, joint? kind = some joint → ∀ lhs rhs, (joint lhs rhs).edge = rhs.edge ∧
    (joint lhs rhs).endsInBranch = rhs.endsInBranch
  last : joint? .eof = none ∧ joint? .newline = none
  free : ∀ kind ∈ TokenKind.continuations, kind.isFree tests = true → joint? kind = none

def levelRound (joint? : TokenKind → Option Joint) (operand : Parser Expr) (lhs : Expr) : Parser (Round Expr Expr) := do
  match joint? (← peek).kind with
  | none => return .done lhs
  | some joint =>
    let _ ← advance
    newlines
    let rhs ← operand
    return .again (← node (joint lhs rhs) (lhs.pos.merge rhs.pos))

section
variable {tests : Bool} {joint? : TokenKind → Option Joint} {operand : Parser Expr}

theorem levelRound_done {e : Expr} (other : joint? c.peek.kind = none) :
    levelRound joint? operand e c = .ok (.done e, c) := by
  rw [levelRound, run_bind (peek_run c), other]
  rfl

theorem levelRound_loop (level : IsLevel tests joint?) (h : Continued s tests operand) :
    Loop s tests (levelRound joint? operand) where
  grows Z e := by
    refine extends_peek.next fun t => ?_
    split
    · exact grows_pure
    · refine extends_advance.next fun _ => extends_newlines.next fun _ => (h.grows Z).next fun _ => ?_
      exact spans_node.next fun _ => grows_pure
  agrees e e' like := by
    refine agrees_peek.bind fun t u ht => ?_
    rw [ht.kind]
    cases found : joint? t.kind with
    | none => exact agrees_pure (.done like)
    | some joint =>
      refine agrees_advance.andThen (agrees_newlines.next fun _ => h.agrees.bind fun x x' hx => ?_)
      exact (agrees_node (level.keeps.kinds found like hx)).bind fun _ _ h => agrees_pure (.again h)
  more e c fits filled := by
    intro t d run ended
    cases found : joint? c.peek.kind with
    | none =>
      cases (levelRound_done found).symm.trans run
      exact absurd ended filled
    | some joint =>
      have step : BridgesTo s tests Round.tree SameRound (do
          let _ ← advance
          newlines
          let rhs ← operand
          return .again (← node (joint e rhs) (e.pos.merge rhs.pos))) := by
        refine .after (fun Z => extends_advance) (fun _ => ?_) fun _ => ?_
        · exact .after (Z := .none) extends_newlines fun _ => h.hungry.bind
        refine .after (fun Z => extends_newlines) (fun _ => h.hungry.bind) fun _ => ?_
        refine h.bridges.finish h.grows (fun Z rhs => ?_) (fun rhs c => ?_) fun rhs rhs' like => ?_
        · exact spans_node.bind fun _ => spans_pure
        · rw [wp_bind, wp_node, wp_pure]
          exact ⟨rfl, level.edge found e rhs⟩
        · exact (agrees_node (level.keeps.kinds found (SameTree.refl _) like)).bind fun _ _ h => agrees_pure (.again h)
      unfold levelRound at run ⊢
      rw [run_bind (peek_run c), found] at run
      refine .after (peek_extend_run filled) (peek_extend_run filled) ?_
      rw [found]
      exact step c fits t d run ended
  ended e c eof nothing := levelRound_done (by rw [Cursor.peek, nothing, List.headD_nil, eof, level.last.1])
  passed e c nothing free := by
    rw [levelRound_done]
    rw [Seam.peek_straight nothing, level.free _ (TokenKind.mem_continuations s.continues) free]
  parted e c nothing := levelRound_done (by rw [Seam.peek_broken nothing, s.breaks, level.last.2])

theorem Continued.chain (level : IsLevel tests joint?) (h : Continued s tests operand) :
    Continued s tests (chain joint? operand) where
  bridges := h.bridges.loop h.grows (levelRound_loop level h)
  grows Z := (h.grows Z).next (levelRound_loop level h).extends
  agrees := chain_agrees level.keeps h.agrees
  hungry := h.hungry.bind

end

theorem joints_isLevel : IsLevel false rangeJoint? ∧ IsLevel false factorJoint? ∧ IsLevel false termJoint? ∧
    IsLevel false comparisonJoint? ∧ IsLevel true equalityJoint? ∧ IsLevel true andJoint? ∧ IsLevel true orJoint? := by
  refine ⟨⟨rangeJoint_keeps, ?_, ⟨rfl, rfl⟩, by decide⟩, ⟨factorJoint_keeps, ?_, ⟨rfl, rfl⟩, by decide⟩,
    ⟨termJoint_keeps, ?_, ⟨rfl, rfl⟩, by decide⟩, ⟨comparisonJoint_keeps, ?_, ⟨rfl, rfl⟩, by decide⟩,
    ⟨equalityJoint_keeps, ?_, ⟨rfl, rfl⟩, by decide⟩, ⟨andJoint_keeps, ?_, ⟨rfl, rfl⟩, by decide⟩,
    ⟨orJoint_keeps, ?_, ⟨rfl, rfl⟩, by decide⟩⟩
  all_goals
    intro kind joint found lhs rhs
    cases kind <;> cases found <;> exact ⟨rfl, rfl⟩

section
variable (hr : r.Bridge s n)
include hr

theorem pipe_continued : Continued s false (pipe r) where
  bridges := (unary_bridges hr).loop (fun _ => (unary_builds hr.build).extend) (pipeRound_loop hr)
  grows _ := (pipe_builds hr.build).extend
  agrees := pipe_agrees hr.agrees
  hungry := unary_hungry.bind

theorem addition_continued : Continued s false (addition r) := by
  obtain ⟨range, factor, term, -⟩ := joints_isLevel
  exact .chain term (.chain factor (.chain range (pipe_continued hr)))

omit hr in
def tested (r : Rules) (first : Expr) : Parser Expr := do
  if ← take .isKw then
    let type ← typePath r true
    node (.isType first type) (first.pos.merge (← previous).pos)
  else chainFrom comparisonJoint? (addition r) first

omit hr in
theorem take_run {kind : TokenKind} (found : c.peek.kind = kind) : take kind c = .ok (true, c.advance) := by
  rw [← runs_eq_iff, runs_take]
  exact ⟨fun _ => ⟨rfl, rfl⟩, fun other => absurd found other⟩

omit hr in
theorem take_run_of_ne {kind : TokenKind} (other : c.peek.kind ≠ kind) : take kind c = .ok (false, c) := by
  rw [← runs_eq_iff, runs_take]
  exact ⟨fun found => absurd found other, fun _ => ⟨rfl, rfl⟩⟩

omit hr in
theorem tested_done {e : Expr} (noTest : c.peek.kind ≠ .isKw) (noJoint : comparisonJoint? c.peek.kind = none) :
    tested r e c = .ok (e, c) := by
  unfold tested
  rw [run_bind (take_run_of_ne noTest), if_neg Bool.false_ne_true]
  exact iterate_done (levelRound_done noJoint)

theorem tested_meets (e : Expr) (fits : s.broken.Fits c) (filled : c.rest ≠ []) :
    wp (tested r e) (fun a d => d.rest = [] → Meets s true id SameTree (tested r e) (tested r e) c a d) c := by
  intro a d run ended
  unfold tested at run ⊢
  by_cases found : c.peek.kind = .isKw
  · have look (Z : Tail) : take .isKw (c.extend Z) = .ok (true, c.advance.extend Z) := by
      rw [take_run (by rw [Cursor.peek_extend filled, found]), Cursor.advance_extend filled]
    rw [run_bind (take_run found), if_pos rfl] at run
    refine .after (look _) (look _) ?_
    have same (Z : Tail) : (do
        let type ← typePath r true
        node (.isType e type) (e.pos.merge (← previous).pos)) (c.advance.extend Z) = .ok (a, d.extend Z) := by
      have spans : Spans Z (do
          let type ← typePath r true
          node (.isType e type) (e.pos.merge (← previous).pos)) :=
        (typePath_tight hr.build true).spans.bind fun _ => spans_previous.bind fun _ => spans_node
      exact (spans _ (s.fits (fits.step c.advance_suffix c.advance_eof) Z) a d run).same (.inl rfl)
    obtain ⟨type, c₁, -, run⟩ := of_run_bind run
    cases run
    exact ⟨fun _ => .inr rfl, fun _ soft => by rcases soft with edge | branch <;> contradiction, fun _ _ => same _,
      fun _ => same _⟩
  · have look (Z : Tail) : take .isKw (c.extend Z) = .ok (false, c.extend Z) :=
      take_run_of_ne (by rwa [Cursor.peek_extend filled])
    rw [run_bind (take_run_of_ne found)] at run
    refine .after (look _) (look _) ?_
    obtain ⟨-, -, -, level, -⟩ := joints_isLevel
    exact ((levelRound_loop level (addition_continued hr)).iterate_meets fits filled a d run ended).mono nofun

theorem comparison_continued : Continued s true (comparison r) where
  bridges := by
    have sums := addition_continued hr
    obtain ⟨-, -, -, level, -⟩ := joints_isLevel
    have bridges : Bridges s true (addition r >>= tested r) := by
      refine sums.bridges.bind sums.grows (fun e e' like => ?agrees)
        (fun e c fits filled => tested_meets hr e fits filled)
        (fun e c eof nothing => ?ended) (fun e c nothing free => ?passed) (fun e c nothing => ?parted) nofun
      case agrees =>
        refine agrees_take.next fun _ => agrees_ite ?_ (chainFrom_agrees comparisonJoint_keeps sums.agrees like)
        refine (typePath_agrees hr.agrees true).given fun _ hp => agrees_previous.bind fun _ _ _ => ?_
        exact agrees_node (by simp [like.eq, hp])
      case ended =>
        have last : c.peek.kind = .eof := by rw [Cursor.peek, nothing, List.headD_nil, eof]
        exact tested_done (by simp [last]) (by rw [last]; rfl)
      case passed =>
        refine tested_done ?_ ?_ <;> rw [Seam.peek_straight nothing]
        · exact ( operator_infix s).2.1
        · exact level.free _ (TokenKind.mem_continuations s.continues) free
      case parted =>
        refine tested_done ?_ ?_ <;> rw [Seam.peek_broken nothing, s.breaks]
        · decide
        · rfl
    exact bridges
  grows Z := (comparison_builds hr.build).extend
  agrees := comparison_agrees hr.agrees
  hungry := unary_hungry.bind.bind.bind.bind.bind

theorem disjunction_continued : Continued s true (disjunction r) := by
  obtain ⟨-, -, -, -, equality, and, or⟩ := joints_isLevel
  exact .chain or (.chain and (.chain equality (comparison_continued hr)))

/-! ## Assignments -/

omit hr in
theorem assigned_stays (operator : Token) (target value : Expr) : wp (assigned operator target value)
    (fun e d => d.rest = c.rest ∧ e.edge = value.edge ∧ e.endsInBranch = value.endsInBranch) c := by
  unfold assigned assignment?
  split <;> rename_i found
  · rw [wp_node]
    split at found <;> cases found <;> exact ⟨rfl, rfl, rfl⟩
  · exact wp_failAt

theorem finishAssignment_bridges (operator : Token) (compound : Bool) (target : Expr) :
    Bridges s true (finishAssignment r operator compound target) := by
  refine BridgesTo.after (fun _ => extends_newlines) (fun _ => hr.expression.hungry.bind) fun _ => ?_
  refine hr.expression.bridges.finish hr.expression.grows (fun Z value => ?spans) (fun value c => ?stays)
    fun e e' like => ?agrees
  case spans =>
    refine .ite (spans_node.bind ?rest) (spans_pure.bind ?rest)
    intro value
    dsimp only
    split
    · exact spans_node
    · exact tight_failAt.spans
  case stays =>
    cases compound with
    | false => exact assigned_stays operator target value
    | true =>
      refine wp_bind.mpr ?_
      rw [sum, wp_node]
      exact assigned_stays operator target _
  case agrees =>
    refine agrees_ite ((sum_agrees (SameTree.refl _) like).bind ?total) (Agrees.bind (agrees_pure like) ?total)
    intro x x' hx
    exact assigned_agrees _ _ (SameTree.refl _) hx

omit hr in
def assignedTo (r : Rules) (target : Expr) : Parser Expr := do
  match (← peek).kind with
  | .equal => do finishAssignment r (← advance) false target
  | .plusEqual => do finishAssignment r (← advance) true target
  | _ => return target

omit hr in
theorem assignedTo_done {e : Expr} (plain : c.peek.kind ≠ .equal) (noSum : c.peek.kind ≠ .plusEqual) :
    assignedTo r e c = .ok (e, c) := by
  unfold assignedTo
  rw [run_bind (peek_run c)]
  generalize c.peek.kind = kind at plain noSum
  split
  · contradiction
  · contradiction
  · rfl

theorem assignedTo_meets (e : Expr) (fits : s.broken.Fits c) (filled : c.rest ≠ []) :
    wp (assignedTo r e)
      (fun a d => d.rest = [] → Meets s true id SameTree (assignedTo r e) (assignedTo r e) c a d) c := by
  intro a d run ended
  have finish (compound : Bool) (run : (advance >>= fun t => finishAssignment r t compound e) c = .ok (a, d)) :
      Meets s true id SameTree (advance >>= fun t => finishAssignment r t compound e)
        (advance >>= fun t => finishAssignment r t compound e) c a d := by
    rw [run_bind (advance_run c)] at run
    refine .after (advance_extend_run filled) (advance_extend_run filled) ?_
    exact finishAssignment_bridges hr c.peek compound e c.advance
      (fits.step c.advance_suffix c.advance_eof) a d run ended
  by_cases plain : c.peek.kind = .equal
  · unfold assignedTo at run ⊢
    rw [run_bind (peek_run c), plain] at run
    refine .after (peek_extend_run filled) (peek_extend_run filled) ?_
    rw [plain]
    exact finish false run
  by_cases sums : c.peek.kind = .plusEqual
  · unfold assignedTo at run ⊢
    rw [run_bind (peek_run c), sums] at run
    refine .after (peek_extend_run filled) (peek_extend_run filled) ?_
    rw [sums]
    exact finish true run
  · cases (assignedTo_done plain sums).symm.trans run
    exact absurd ended filled

theorem expression_continued : Continued s true (expression r) where
  bridges := by
    have first := disjunction_continued hr
    have bridges : Bridges s true (disjunction r >>= assignedTo r) := by
      refine first.bridges.bind first.grows (fun e e' like => ?agrees) (fun e c => assignedTo_meets hr e)
        (fun e c eof nothing => ?ended) (fun e c nothing free => ?passed) (fun e c nothing => ?parted) id
      case agrees =>
        refine agrees_peek.bind fun t u ht => ?_
        rw [ht.kind]
        split
        · exact agrees_advance.bind fun t u _ => finishAssignment_agrees hr.agrees t u false like
        · exact agrees_advance.bind fun t u _ => finishAssignment_agrees hr.agrees t u true like
        · exact agrees_pure like
      case ended =>
        have last : c.peek.kind = .eof := by rw [Cursor.peek, nothing, List.headD_nil, eof]
        exact assignedTo_done (by simp [last]) (by simp [last])
      case passed =>
        obtain ⟨-, -, plain, noSum⟩ := operator_infix s
        refine assignedTo_done ?_ ?_ <;> rwa [Seam.peek_straight nothing]
      case parted => refine assignedTo_done ?_ ?_ <;> rw [Seam.peek_broken nothing, s.breaks] <;> decide
    exact bridges
  grows Z := (expression_builds hr.build).extend
  agrees := expression_agrees hr.agrees
  hungry := expression_hungry

end

/-! ## All expressions -/

end Grammar

namespace Rules

theorem exhausted_bridge {s : Seam} : Rules.exhausted.Bridge s 0 where
  build := upTo_front 0
  agrees := upTo_agrees 0
  expression := ⟨fun _ _ => Parser.wp_fail, fun _ => Parser.tight_fail.grows, (upTo_agrees 0).expression,
    fun _ _ _ => Parser.wp_fail⟩
  unary := ⟨fun _ _ => Parser.wp_fail, fun _ => Parser.tight_fail.grows, (upTo_agrees 0).unary,
    fun _ _ _ => Parser.wp_fail⟩

theorem upTo_bridge (s : Seam) : ∀ n, (upTo n).Bridge s n
  | 0 => exhausted_bridge
  | n + 1 => {
      build := upTo_front (n + 1)
      agrees := upTo_agrees (n + 1)
      expression := Grammar.expression_continued (upTo_bridge s n)
      unary := Grammar.unary_continued (upTo_bridge s n) }

end Rules

end PhaseLang
