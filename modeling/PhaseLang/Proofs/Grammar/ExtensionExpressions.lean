import PhaseLang.Proofs.Grammar.BuildingDeclarations

/-!
# Expressions with more tokens behind

The rules for types, functions and expressions over a row with a tail behind it. Those that end with a
bracket or a name are tight. A primary expression is full unless it ends with an `else` branch.
-/

namespace PhaseLang

def ExprKind.isTernary : ExprKind → Bool
  | .ternary _ _ _ => true
  | _ => false

namespace Grammar

open PhaseLang.Parser

section
variable {Z : Tail} {n : Nat} {r : Rules}

/-! ## Type paths -/

theorem path_tight : Tight Z path := by
  refine (spans_take rfl).tight fun absolute => Tight.bind ?_ fun _ => grows_pure
  have named (segments : List String) : Hungry (do
      let segment ← expect .typeIdentifier "a type name"
      let segments := segments ++ [segment.lexeme]
      if (← atKind .colonColon) && (← peekNext).kind == .typeIdentifier then
        let _ ← advance
        return Round.again segments
      else return .done segments) := (tight_expect (Z := Z) (by decide)).hungry.bind
  refine ⟨Grows.iterate Round.isDone (fun segments => ?_) (.inr (.inl named)) [], ?_⟩
  · refine Spans.bind (tight_expect rfl).spans fun segment => ?_
    refine fun c fits => .ahead .typeIdentifier rfl rfl (fun b t u h => by simp only [h]) fits ?_
    exact Grows.ite (extends_advance.andThen (fun _ => grows_pure) fun _ => .inr (starves_pure rfl))
      grows_pure c fits
  · exact fun c eof ended => Hungry.iterateFor named _ _ c eof ended

variable (hr : r.Build .front n)
include hr

theorem typePath_tight (allowNullable : Bool) : Tight Z (typePath r allowNullable) := by
  refine (spans_take rfl).tight fun nullable => ?_
  refine .ite (spans_previous.tight fun t => tight_failAt) ?_
  refine path_tight.bind fun path => Spans.bind (spans_after? rfl ?_) fun _ => grows_pure
  have params : Extends Z (separated (r.typePath true)) := (builds_separated (fun _ => rfl) (hr.typePath true)).extend
  exact (params.tight fun _ => (tight_expect rfl).bind fun _ => grows_pure).spans

theorem annotation_spans : Spans Z (annotation? r) := spans_after? rfl (typePath_tight hr true).spans

/-! ## Functions -/

theorem params_tight (allowPromotion : Bool) : Tight Z (params r allowPromotion) :=
  tight_parenthesized (param_builds hr allowPromotion).extend _

theorem block_tight : Tight Z (block r) := by
  refine spans_previous.tight fun t => extends_newlines.tight fun _ => ?_
  refine (builds_itemsUntil (fun _ => rfl) hr.declaration).extend.tight fun stmts => (tight_expect rfl).bind fun _ => ?_
  exact (spans_spanFrom t).bind fun _ => grows_pure

theorem inlineBody_tight (t : Token) (problem : SyntaxProblem) :
    Tight Z (inlineBody r t problem) := by
  refine hr.expression.extend.tight fun e => extends_newlines.tight fun _ =>
    (tight_consume (by decide)).bind fun _ => ?_
  exact (spans_spanFrom t).bind fun _ => grows_pure

theorem functionBody_tight : Tight Z (functionBody r) := by
  refine spans_previous.tight fun t => ?_
  refine tight_take rfl ((spans_spanFrom t).bind fun _ => grows_pure) ?_
  exact (atInlineBody_builds (n := n)).extend.tight fun _ => .ite (inlineBody_tight hr t _) (block_tight hr)

theorem function_tight (anonymous : Bool) (attributes : List Expr) :
    Tight Z (function r anonymous attributes) := by
  refine spans_previous.tight fun t => extends_atKind.tight fun _ => ?_
  refine .ite ((tight_expect rfl).spans.tight fun t => spans_pure.tight ?rest) (spans_pure.tight ?rest)
  intro name
  refine (tight_expect rfl).spans.tight fun _ => (params_tight hr false).spans.tight fun ps => ?_
  refine (annotation_spans hr).tight fun result => (tight_expect rfl).spans.tight fun _ => ?_
  exact (functionBody_tight hr).bind fun b => (spans_spanFrom t).bind fun _ => grows_pure

theorem shortLambda_tight : Tight Z (shortLambda r) := by
  refine spans_previous.tight fun t => extends_atKind.tight fun sameLine => extends_newlines.tight fun _ => ?_
  refine (lambdaParams?_builds (n := n)).extend.tight fun ps => ?_
  have body (ps : List Param) (inline : Bool) :
      Tight Z
        (do
          let body ← if inline && (← atInlineBody) then inlineBody r t .lambdaNotInline else block r
          let pos ← spanFrom t
          node (.lambda ⟨"", ps, some body, none, [], pos⟩) pos) := by
    refine (atInlineBody_builds (n := n)).extend.tight fun _ => ?_
    refine .ite ((inlineBody_tight hr t _).bind ?rest) ((block_tight hr).bind ?rest)
    exact fun b => (spans_spanFrom t).bind fun _ => spans_node
  cases ps with
  | none => exact body _ _
  | some ps => exact extends_atKind.tight fun _ => body _ _

/-! ## Calls -/

theorem arguments_tight : Tight Z (arguments r) := tight_parenthesized (argument_builds hr).extend _

theorem finishCall_tight (callee : Expr) : Tight Z (finishCall r callee) := by
  refine (arguments_tight hr).bind fun args => Spans.bind (spans_after? rfl (shortLambda_tight hr).spans) fun _ => ?_
  exact spans_previous.bind fun _ => spans_node

theorem fieldName_tight : Tight Z (fieldName r) := by
  refine tight_advance (fun t ended c => ?_) fun t => ?_
  · rcases ended with kind | kind <;> rw [kind] <;> exact wp_failAt
  · split
    · exact spans_node
    · exact spans_node
    · exact spans_node
    · refine (extends_newlines.tight fun _ => hr.expression.extend.tight fun e =>
        extends_newlines.tight fun _ => ?_).spans
      exact (tight_expect rfl).bind fun _ => .ite spans_node grows_pure
    · exact tight_failAt.spans

theorem finishIndex_tight (target : Expr) : Tight Z (finishIndex r target) := by
  refine (spans_atKind rfl).tight fun _ => ?_
  refine .ite (spans_pure.tight ?rest) (extends_newlines.tight fun _ => hr.expression.extend.tight fun i =>
    extends_newlines.tight fun _ => spans_pure.tight ?rest)
  exact fun i => (tight_expect rfl).bind fun _ => spans_node

theorem postfixStep_grows (e : Expr) : Grows Z (fun step => !Round.isDone step) (postfixStep r e) := by
  refine extends_continueLine.andThen (fun _ => grows_peek (fun c fits ended => ?_) fun c fits filled => ?_)
    fun _ => .inr ?_
  · have last : c.peek.kind = .eof := by simpa [Cursor.peek, ended] using fits.eof
    simp only [last]
    exact (grows_pure c fits).starved (starves_pure rfl) fits ended
  · by_cases plain : c.peek.kind = .newline
    · simp only [plain]
      exact grows_pure c fits
    split
    · exact .advance fits filled plain (Tight.grows ((finishCall_tight hr e).bind fun _ => grows_pure) _)
    · refine .advance fits filled plain (Tight.grows ((shortLambda_tight hr).bind fun f => ?_) _)
      exact Spans.bind spans_node fun _ => grows_pure
    · refine .advance fits filled plain
        (Tight.grows (extends_newlines.tight fun _ => (fieldName_tight hr).bind fun f => ?_) _)
      exact Spans.bind spans_node fun _ => grows_pure
    · exact .advance fits filled plain (Tight.grows ((finishIndex_tight hr e).bind fun _ => grows_pure) _)
    · exact grows_pure c fits
  · intro c eof ended
    rw [wp_bind, wp_peek, Cursor.peek, ended, List.headD_nil, eof]
    simp [Round.isDone]

/-! ## Primary expressions -/

theorem taggedTemplate_spans (t : Token) : Spans Z (taggedTemplate r t) := by
  refine spans_node.bind fun callee => Spans.bind ?_ fun found => ?_
  · refine Grows.iterate Round.isDone (fun found => ?_) (.inr (.inl fun found => ?_)) ([], [])
    · obtain ⟨fragments, embedded⟩ := found
      refine grows_advance (fun t ended c => ?_) fun t => ?_
      · rcases ended with kind | kind <;> rw [kind] <;> exact wp_failAt
      · split
        · exact Spans.bind spans_node fun _ => grows_pure
        · refine Spans.bind spans_node fun _ => hr.expression.extend.andThen (fun _ => grows_pure) fun _ => ?_
          exact .inr (starves_pure rfl)
        · exact tight_failAt.grows
    · obtain ⟨fragments, embedded⟩ := found
      refine hungry_advance fun t ended c => ?_
      rcases ended with kind | kind <;> rw [kind] <;> exact wp_failAt
  · obtain ⟨fragments, embedded⟩ := found
    refine (spans_spanFrom t).bind fun pos => listArgument_spans.bind fun _ => listArgument_spans.bind fun _ => ?_
    exact spans_node

omit hr in
theorem moreItems_tight {α : Type} {item : Parser α} (h : Extends Z item) (first : α) :
    Tight Z (moreItems item first) := by
  refine Grows.tight (show Extends Z _ from ?_) fun items => (tight_expect rfl).bind fun _ => grows_pure
  refine Grows.iterate (fun _ => false) (fun items => ?_) (.inr (.inr fun _ => rfl)) _
  refine extends_newlines.next fun _ => (spans_take rfl).next fun _ => ?_
  refine .ite (extends_newlines.next fun _ => (spans_atKind rfl).next fun _ => ?_) grows_pure
  exact .ite grows_pure (h.next fun _ => grows_pure)

theorem collection_tight (native : Bool) : Tight Z (collection r native) := by
  refine spans_previous.tight fun t => extends_newlines.tight fun _ => ?_
  have literal (kind : ExprKind) : Spans Z (do node kind (← spanFrom t)) :=
    (spans_spanFrom t).bind fun _ => spans_node
  refine tight_pair rfl rfl (literal _) (tight_take rfl (literal _) (hr.expression.extend.tight fun first => ?_))
  refine (spans_take rfl).tight fun _ =>
    .ite (extends_newlines.tight fun _ => hr.expression.extend.tight fun value => ?_) ?_
  · refine (moreItems_tight ?_ _).bind fun entries => literal _
    refine hr.expression.extend.next fun key => (tight_expect rfl).spans.next fun _ => extends_newlines.next fun _ => ?_
    exact hr.expression.extend.next fun _ => grows_pure
  · exact (moreItems_tight hr.expression.extend _).bind fun items => literal _

omit hr in
theorem ternary_isTernary {c : Cursor} : wp (ternary r) (fun e _ => e.kind.isTernary = true) c := by
  unfold ternary
  rw [wp_bind]
  intro keyword c _
  rw [wp_bind]
  intro cond c _
  rw [wp_bind]
  intro yes c _
  rw [wp_bind]
  intro found c _
  split
  · rw [wp_bind]
    intro _ c _
    rw [wp_bind]
    intro no c _
    rw [wp_bind, wp_spanFrom, wp_node]
    rfl
  · exact wp_fail

theorem ternary_grows : Grows Z (fun e => !e.kind.isTernary) (ternary r) :=
  (ternary_builds hr).extend.unfilled fun _ => wp_mono ternary_isTernary fun e _ branch => by simp [branch]

theorem choice_tight : Tight Z (choice r) := by
  refine spans_previous.tight fun t => (condition_builds hr _).extend.tight fun _ => ?_
  refine (tight_expect rfl).spans.tight fun _ => extends_newlines.tight fun _ => ?_
  refine (builds_itemsUntil (by simp [Case.pieces]) (arm_builds hr)).extend.tight fun _ =>
    (tight_expect rfl).bind fun _ => ?_
  exact (spans_spanFrom t).bind fun _ => spans_node

theorem primary_grows : Grows Z (fun e => !e.kind.isTernary) (primary r) := by
  refine grows_peek (fun c fits ended => ?_) fun c fits filled => ?_
  · have last : c.peek.kind = .eof := by simpa [Cursor.peek, ended] using fits.eof
    simp only [last]
    exact wp_failAt
  · by_cases plain : c.peek.kind = .newline
    · simp only [plain]
      exact tight_failAt.grows c fits
    generalize c.peek = token
    have read {p : Parser Expr} (h : Spans Z p) : GrowsAt Z (fun e => !e.kind.isTernary) (advance *> p) c := by
      rw [seqRight_eq_bind]
      exact .advance fits filled plain (h.weaken _)
    split
    · exact read spans_node
    · exact read spans_node
    · exact read spans_node
    · exact read spans_node
    · exact read spans_node
    · exact (path_tight.bind fun _ => (spans_spanFrom token).bind fun _ => spans_node).grows c fits
    · exact (path_tight.bind fun _ => (spans_spanFrom token).bind fun _ => spans_node).grows c fits
    · exact read spans_node
    · exact read spans_node
    · exact read spans_node
    · refine .advance fits filled plain (Tight.grows ((tight_expect rfl).spans.tight fun _ => ?_) _)
      exact extends_newlines.tight fun _ => (tight_expect rfl).bind fun _ => spans_node
    · exact read (interpolation_spans hr _)
    · exact read (taggedTemplate_spans hr _)
    · refine .advance fits filled plain
        (Tight.grows (extends_newlines.tight fun _ => hr.expression.extend.tight fun _ => ?_) _)
      exact extends_newlines.tight fun _ => (tight_expect rfl).bind fun _ => spans_node
    · refine .advance fits filled plain (Tight.grows ((tight_expect rfl).spans.tight fun _ => ?_) _)
      exact collection_tight hr true
    · exact read (collection_tight hr false).spans
    · exact read (shortLambda_tight hr).spans
    · exact .advance fits filled plain (Tight.grows ((function_tight hr true []).bind fun _ => spans_node) _)
    · rw [seqRight_eq_bind]
      exact .advance fits filled plain (ternary_grows hr _)
    · exact read (choice_tight hr).spans
    · exact tight_failAt.grows c fits
    · exact tight_failAt.grows c fits
    · exact tight_failAt.grows c fits

/-! ## Operators

An expression cannot do without a token. -/

omit hr

theorem primary_hungry : Hungry (primary r) := by
  intro c eof ended
  unfold primary
  rw [wp_bind, wp_peek, Cursor.peek, ended, List.headD_nil, eof]
  exact wp_failAt

theorem unary_hungry : Hungry (unary r) := by
  intro c eof ended
  unfold unary
  rw [wp_bind, wp_peek, Cursor.peek, ended, List.headD_nil, eof]
  exact primary_hungry.bind.bind c eof ended

theorem expression_hungry : Hungry (expression r) := unary_hungry.bind.bind.bind.bind.bind.bind.bind.bind.bind

end

end Grammar

end PhaseLang
