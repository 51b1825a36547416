import PhaseLang.Proofs.Grammar.Agreement

/-!
# Expressions in two readings

Every rule for types, functions, expressions and attributes agrees with itself, if the rules that it
calls do.
-/

namespace PhaseLang.Grammar

open PhaseLang.Parser

section
variable {B : Bond} {r r' : Rules}

/-! ## What the grammar looks at -/

variable {e e' : Expr}

theorem ident?_isSome_eq (h : B.Exprs e e') : e'.ident?.isSome = e.ident?.isSome := by
  rw [← Sketch.ident?_expr B.left e, ← Sketch.ident?_expr B.right e', h.1]

variable {kind : ExprKind}

theorem call_of_sketch {v : Sketch} {callee : Expr} {args : List Arg}
    (h : v.exprKind kind = .call callee args) :
    ∃ c as, kind = .call c as ∧ v.expr c = callee ∧ as.map v.arg = args := by
  cases kind <;> simp_all

theorem lambda_of_sketch {v : Sketch} {func : Func} (h : v.exprKind kind = .lambda func) :
    ∃ f, kind = .lambda f ∧ v.func f = func := by
  cases kind <;> simp_all

theorem kind_eq (h : B.Exprs e e') : B.Kinds e.kind e'.kind := by
  obtain ⟨id, pos, kind⟩ := e
  obtain ⟨id', pos', kind'⟩ := e'
  simp only [Bond.Exprs, Bond.Same, Sketch.expr, Expr.mk.injEq] at h
  exact ⟨h.1.2.2, by simpa using h.2⟩

theorem assignment?_sketch (v : Sketch) (target value : Expr) :
    assignment? (v.expr target) (v.expr value) = (assignment? target value).map v.exprKind := by
  obtain ⟨id, pos, kind⟩ := target
  cases kind <;> simp [assignment?]

theorem fits_assignment? {A : Wording → Prop} {target value : Expr}
    (ht : Fits A (Worded.ofExpr target)) (hv : Fits A (Worded.ofExpr value))
    (h : assignment? target value = some kind) : Fits A (Worded.ofKind kind) := by
  obtain ⟨id, pos, code⟩ := target
  cases code <;> simp_all [assignment?]
  all_goals
    subst h
    simp_all

/-- What is kept of an operator is what is kept of its operands. -/
def KeepsJoint (joint? : TokenKind → Option Joint) : Prop :=
  ∀ (kind : TokenKind) (joint : Joint), joint? kind = some joint → ∀ a b : Expr,
    (∀ v : Sketch, v.exprKind (joint a b) = joint (v.expr a) (v.expr b)) ∧
      Worded.ofKind (joint a b) = Worded.ofExpr a ++ Worded.ofExpr b

variable {joint? : TokenKind → Option Joint}

theorem KeepsJoint.kinds (hj : KeepsJoint joint?) {kind : TokenKind} {joint : Joint}
    (found : joint? kind = some joint) {e e' x x' : Expr} (he : B.Exprs e e') (hx : B.Exprs x x') :
    B.Kinds (joint e x) (joint e' x') := by
  simp only [Bond.Kinds, Bond.Same]
  rw [(hj _ _ found e x).1, (hj _ _ found e' x').1, (hj _ _ found e x).2, he.1, hx.1, fits_append]
  exact ⟨rfl, he.2, hx.2⟩

theorem rangeJoint_keeps : KeepsJoint rangeJoint? := by
  intro kind joint h a b
  unfold rangeJoint? at h
  split at h <;> cases h
  simp

theorem factorJoint_keeps : KeepsJoint factorJoint? := by
  intro kind joint h a b
  unfold factorJoint? at h
  split at h <;> cases h <;> simp [binaryJoint]

theorem termJoint_keeps : KeepsJoint termJoint? := by
  intro kind joint h a b
  unfold termJoint? at h
  split at h <;> cases h <;> simp [binaryJoint]

theorem comparisonJoint_keeps : KeepsJoint comparisonJoint? := by
  intro kind joint h a b
  unfold comparisonJoint? at h
  split at h <;> cases h <;> simp [binaryJoint]

theorem equalityJoint_keeps : KeepsJoint equalityJoint? := by
  intro kind joint h a b
  unfold equalityJoint? at h
  split at h <;> cases h <;> simp [binaryJoint]

theorem andJoint_keeps : KeepsJoint andJoint? := by
  intro kind joint h a b
  unfold andJoint? at h
  split at h <;> cases h
  simp

theorem orJoint_keeps : KeepsJoint orJoint? := by
  intro kind joint h a b
  unfold orJoint? at h
  split at h <;> cases h
  simp

/-! ## Type paths -/

theorem path_agrees : Agrees B (Equal fun p => B.Clean (.path p)) path path := by
  let words (segments : List String) : Prop := ∀ s ∈ segments, B.Clean (.name s)
  refine agrees_take.next fun absolute => Agrees.given (P := fun segments => segments ≠ [] ∧ words segments) ?_
    fun segments hs => agrees_pure ⟨rfl, Bond.clean_path ?_⟩
  · refine agrees_iterate (Equal words) (by simp [words]) fun segments segments' hs => ?_
    obtain ⟨rfl, hs⟩ := hs
    refine agrees_expect.bind fun t u ht => ?_
    have more : words (segments ++ [t.lexeme]) :=
      List.forall_mem_append.mpr ⟨hs, by simpa using ht.word rfl⟩
    rw [ht.lexeme]
    refine agrees_atKind.next fun colon => agrees_peekNext.bind fun t u ht => ?_
    rw [ht.kind]
    exact agrees_ite (agrees_advance.andThen (agrees_pure (.again ⟨rfl, more⟩)))
      (agrees_pure (.done ⟨rfl, by simp, more⟩))
  · rw [TypePath.segments, TypePath.dropLast_append_getLastD hs.1]
    exact hs.2

variable (hr : r.Agree B r')
include hr

theorem typePath_agrees (allowNullable : Bool) :
    Agrees B (Equal fun p => B.Clean (.path p)) (typePath r allowNullable) (typePath r' allowNullable) := by
  refine agrees_take.next fun nullable => ?_
  refine agrees_ite (agrees_previous.bind fun t u _ => agrees_failAt_bind t u) ?_
  refine path_agrees.given fun path hp => Agrees.given (agrees_after?_eq (P := fun _ => True) _ ?_) fun _ _ =>
    agrees_pure ⟨rfl, hp⟩
  exact (agrees_separated_eq (hr.typePath true)).given fun ps _ => agrees_expect.andThen (agrees_pure (by simp))

theorem annotation_agrees :
    Agrees B (Equal fun t => Fits B.Clean (Worded.ofPath t)) (annotation? r) (annotation? r') := by
  simp only [Worded.fits_ofPath]
  exact agrees_after?_eq _ (typePath_agrees hr true)

/-! ## Functions -/

theorem param_agrees (allowPromotion : Bool) :
    Agrees B (B.Same Sketch.param Worded.ofParam) (param r allowPromotion) (param r' allowPromotion) := by
  refine agrees_peek.bind fun start start' hs => ?_
  refine agrees_ite (agrees_take.next ?rest) ((agrees_pure rfl).next ?rest)
  intro promoted
  refine agrees_ite (agrees_expect.andThen ?named) ?named
  refine agrees_expect.bind fun t u ht => (annotation_agrees hr).given fun type hy => ?_
  refine (agrees_after? _ hr.expression).bind fun d d' hd => (agrees_spanFrom hs.places).bind fun _ _ _ => ?_
  exact agrees_pure (by simp [Sketch.param, Worded.ofParam, ht.lexeme, ht.word rfl, hy, hd])

theorem params_agrees (allowPromotion : Bool) :
    Agrees B B.Params (params r allowPromotion) (params r' allowPromotion) :=
  agrees_parenthesized (param_agrees hr allowPromotion) _

theorem block_agrees : Agrees B B.Stmts (block r) (block r') := by
  refine agrees_previous.bind fun t u ht => agrees_newlines.next fun _ => ?_
  refine (agrees_itemsUntil hr.declaration).bind fun ss ss' hs => agrees_expect.andThen ?_
  exact (agrees_spanFrom ht).bind fun _ _ _ => agrees_pure (by simp [hs])

omit hr in
theorem atInlineBody_agrees : Agrees B Eq atInlineBody atInlineBody := by
  refine agrees_peek.bind fun t u ht => ?_
  rw [ht.kind]
  split <;> exact agrees_pure rfl

variable {t u : Token}

theorem inlineBody_agrees (ht : B.Places t.pos u.pos) (problem : SyntaxProblem) :
    Agrees B B.Stmts (inlineBody r t problem) (inlineBody r' u problem) := by
  refine hr.expression.bind fun e e' he => agrees_newlines.next fun _ => (agrees_consume _ _).andThen ?_
  exact (agrees_spanFrom ht).bind fun _ _ _ => agrees_pure (by simp [he])

theorem functionBody_agrees : Agrees B B.Stmts (functionBody r) (functionBody r') := by
  refine agrees_previous.bind fun t u ht => agrees_take.next fun _ => ?_
  refine agrees_ite ((agrees_spanFrom ht).bind fun _ _ _ => agrees_pure (by simp)) ?_
  exact atInlineBody_agrees.next fun _ => agrees_ite (inlineBody_agrees hr ht _) (block_agrees hr)

theorem function_agrees (anonymous : Bool) {as as' : List Expr} (ha : B.Attributes as as') :
    Agrees B (fun f f' => B.Funcs f f' ∧ (anonymous = false → B.Clean (.function f.name)))
      (function r anonymous as) (function r' anonymous as') := by
  refine agrees_previous.bind fun t u ht => agrees_atKind.next fun named => ?_
  have rest (name : String) (hn : anonymous = false → B.Clean (.function name)) :
      Agrees B (fun f f' => B.Funcs f f' ∧ (anonymous = false → B.Clean (.function f.name)))
        (do
          let _ ← expect .leftParen "`(` after function name"
          let params ← params r false
          let result ← annotation? r
          let _ ← expect .leftBrace "`\x7b` before function body"
          let body ← functionBody r
          let pos ← spanFrom t
          return ({ name, params, body := some body, result, attributes := as, pos } : Func))
        (do
          let _ ← expect .leftParen "`(` after function name"
          let params ← params r' false
          let result ← annotation? r'
          let _ ← expect .leftBrace "`\x7b` before function body"
          let body ← functionBody r'
          let pos ← spanFrom u
          return ({ name, params, body := some body, result, attributes := as', pos } : Func)) := by
    refine agrees_expect.andThen ((params_agrees hr false).bind fun ps ps' hp => ?_)
    refine (annotation_agrees hr).given fun result hy => agrees_expect.andThen ?_
    refine (functionBody_agrees hr).bind fun b b' hb => (agrees_spanFrom ht).bind fun _ _ _ => ?_
    exact agrees_pure ⟨by simp [hp, hb, ha, hy], hn⟩
  by_cases hn : (!anonymous || named) = true
  · rw [if_pos hn, if_pos hn]
    refine agrees_expect.bind fun n n' hn => ?_
    rw [hn.lexeme]
    exact rest _ fun _ => hn.function
  · rw [if_neg hn, if_neg hn]
    exact rest "" fun given => absurd (by simp [given]) hn

omit hr in
theorem lambdaParams_agrees :
    Agrees B (B.Options (fun v => List.map v.param) (List.flatMap Worded.ofParam)) lambdaParams?
    lambdaParams? := by
  refine agrees_after? _ (agrees_atKind.next fun _ => ?_)
  have named : Agrees B (B.Same Sketch.param Worded.ofParam)
      (do
        let name ← expect .identifier "a parameter name"
        return bareParam name.lexeme name.pos)
      (do
        let name ← expect .identifier "a parameter name"
        return bareParam name.lexeme name.pos) :=
    agrees_expect.bind fun t u ht =>
      agrees_pure (by simp [Sketch.param, Worded.ofParam, bareParam, ht.lexeme, ht.word rfl])
  refine agrees_ite (Agrees.bind (R := B.Params) (agrees_pure (by simp)) ?rest)
    ((agrees_separated named).bind ?rest)
  exact fun ps ps' hp => agrees_expect.andThen (agrees_pure hp)

theorem shortLambda_agrees : Agrees B B.Exprs (shortLambda r) (shortLambda r') := by
  refine agrees_previous.bind fun t u ht => agrees_atKind.next fun _ => agrees_newlines.next fun _ => ?_
  refine lambdaParams_agrees.bind fun ps ps' hp => ?_
  have body {ps ps' : List Param} (hp : B.Params ps ps') (inline : Bool) :
      Agrees B B.Exprs
        (do
          let body ← if inline && (← atInlineBody) then inlineBody r t .lambdaNotInline else block r
          let pos ← spanFrom t
          node (.lambda ⟨"", ps, some body, none, [], pos⟩) pos)
        (do
          let body ← if inline && (← atInlineBody) then inlineBody r' u .lambdaNotInline else block r'
          let pos ← spanFrom u
          node (.lambda ⟨"", ps', some body, none, [], pos⟩) pos) := by
    refine atInlineBody_agrees.next fun _ => ?_
    refine agrees_ite ((inlineBody_agrees hr ht _).bind ?rest) ((block_agrees hr).bind ?rest)
    exact fun b b' hb => (agrees_spanFrom ht).bind fun _ _ _ => agrees_node (by simp [hp, hb])
  cases ps with
  | none =>
    cases ps' with
    | none =>
      have word : B.Clean (.name "it") := Bond.clean_of (by decide : IsWord "it")
      exact body (by simp [bareParam, Sketch.param, Worded.ofParam, word]) _
    | some _ => simp at hp
  | some ps =>
    cases ps' with
    | none => simp at hp
    | some ps' => exact agrees_atKind.next fun _ => body (by simpa using hp) _

/-! ## Calls -/

theorem argument_agrees : Agrees B (B.Same Sketch.arg Worded.ofArg) (argument r) (argument r') := by
  intro c d hc
  show B.Outcomes _ ((if c.peek.kind == .identifier && c.peekNext.kind == .colon then _ else _ : Parser Arg) c)
    ((if d.peek.kind == .identifier && d.peekNext.kind == .colon then _ else _ : Parser Arg) d)
  rw [hc.peek.kind, hc.peekNext.kind]
  split
  · rename_i named
    -- the name was seen before it is read
    have name := hc.peek.read (beq_iff_eq.mp (Bool.and_eq_true_iff.mp named).1)
    have rest := agrees_advance.andThen (agrees_newlines.andThen (hr.expression.bind fun e e' he =>
      agrees_pure (a := (⟨some c.peek.lexeme, e⟩ : Arg)) (b := ⟨some d.peek.lexeme, e'⟩)
      (R := B.Same Sketch.arg Worded.ofArg)
        (by simp [Sketch.arg, Worded.ofArg, name.lexeme, name.word rfl, he])))
    exact rest _ _ hc.advance
  · exact (hr.expression.bind fun e e' he => agrees_pure (by simp [Sketch.arg, Worded.ofArg, he])) c d hc

theorem arguments_agrees : Agrees B (B.Lists Sketch.arg Worded.ofArg) (arguments r) (arguments r') :=
  agrees_parenthesized (argument_agrees hr) _

theorem finishCall_agrees (he : B.Exprs e e') : Agrees B B.Exprs (finishCall r e) (finishCall r' e') := by
  refine (arguments_agrees hr).bind fun as as' ha => (agrees_after? _ (shortLambda_agrees hr)).bind fun t t' ht => ?_
  refine agrees_previous.bind fun _ _ _ => agrees_node ?_
  cases t <;> cases t' <;> simp_all [Sketch.arg, Worded.ofArg]

theorem fieldName_agrees : Agrees B B.Exprs (fieldName r) (fieldName r') := by
  refine agrees_advance.bind fun t u ht => ?_
  rw [ht.kind]
  split
  · exact agrees_node (by simp [ht.lexeme, (ht.read ‹_›).word rfl])
  · exact agrees_node (by simp [ht.lexeme, (ht.read ‹_›).word rfl])
  · exact agrees_node (by simp [ht.lexeme, (ht.read ‹_›).word rfl])
  · refine agrees_newlines.next fun _ => hr.expression.bind fun e e' he => agrees_newlines.next fun _ => ?_
    refine agrees_expect.bind fun _ _ _ => ?_
    rw [ident?_isSome_eq he]
    exact agrees_ite (agrees_node (by simp [he])) (agrees_pure he)
  · exact agrees_failAt

theorem finishIndex_agrees (he : B.Exprs e e') : Agrees B B.Exprs (finishIndex r e) (finishIndex r' e') := by
  refine agrees_atKind.next fun _ => ?_
  refine agrees_ite (Agrees.bind (R := B.Options Sketch.expr Worded.ofExpr) (agrees_pure (by simp)) ?rest)
    (agrees_newlines.next fun _ => hr.expression.bind fun i i' hi => agrees_newlines.next fun _ =>
      Agrees.bind (agrees_pure (by simp [hi])) ?rest)
  exact fun i i' hi => agrees_expect.bind fun _ _ _ => agrees_node (by simp [he, hi])

theorem postfixStep_agrees (he : B.Exprs e e') :
    Agrees B (Rounds B.Exprs B.Exprs) (postfixStep r e) (postfixStep r' e') := by
  refine agrees_continueLine.next fun _ => agrees_peek.bind fun t u ht => ?_
  rw [ht.kind]
  split
  · exact agrees_advance.andThen ((finishCall_agrees hr he).bind fun _ _ h => agrees_pure (.again h))
  · refine agrees_advance.andThen ((shortLambda_agrees hr).bind fun f f' hf => ?_)
    exact (agrees_node (by simp [he, hf, Sketch.arg, Worded.ofArg])).bind fun _ _ h => agrees_pure (.again h)
  · refine agrees_advance.andThen (agrees_newlines.next fun _ => (fieldName_agrees hr).bind fun f f' hf => ?_)
    exact (agrees_node (by simp [he, hf])).bind fun _ _ h => agrees_pure (.again h)
  · exact agrees_advance.andThen ((finishIndex_agrees hr he).bind fun _ _ h => agrees_pure (.again h))
  · exact agrees_pure (.done he)

/-! ## Primary expressions -/

omit hr in
theorem stringLiteral_agrees (ht : B.Tokens t u) (kind : t.kind = .string ∨ t.kind = .interpolation) :
    Agrees B B.Exprs (stringLiteral t) (stringLiteral u) :=
  agrees_node (by simp [ht.text, ht.string kind])

omit hr in
theorem sum_agrees {a a' b b' : Expr} (ha : B.Exprs a a') (hb : B.Exprs b b') :
    Agrees B B.Exprs (sum a b) (sum a' b') :=
  agrees_node (by simp [ha, hb])

theorem interpolation_agrees (ht : B.Read .interpolation t u) :
    Agrees B B.Exprs (interpolation r t) (interpolation r' u) := by
  refine (stringLiteral_agrees ht.toTokens (.inr ht.isKind)).bind fun first first' hf => ?_
  refine agrees_iterate B.Exprs hf fun e e' he => hr.expression.bind fun i i' hi => ?_
  refine (agrees_node (by simp [hi])).bind fun g g' hg => (sum_agrees he hg).bind fun e e' he => ?_
  refine agrees_advance.bind fun t u ht => ?_
  rw [ht.kind, ht.text]
  split
  · refine agrees_ite (Agrees.bind (agrees_pure he) ?last)
      ((stringLiteral_agrees ht (.inl ‹_›)).bind fun l l' hl => (sum_agrees he hl).bind ?last)
    exact fun e e' he => agrees_ite (agrees_pure (.done he)) (agrees_pure (.again he))
  · refine agrees_ite (Agrees.bind (agrees_pure he) ?more)
      ((stringLiteral_agrees ht (.inr ‹_›)).bind fun l l' hl => (sum_agrees he hl).bind ?more)
    exact fun e e' he => agrees_ite (agrees_pure (.done he)) (agrees_pure (.again he))
  · exact agrees_failAt

omit hr in
theorem listArgument_agrees {es es' : List Expr} (he : B.Attributes es es') {pos pos' : Position} :
    Agrees B (B.Same Sketch.arg Worded.ofArg) (listArgument es pos) (listArgument es' pos') :=
  (agrees_node (by simp [he])).bind fun l l' hl => agrees_pure (by simp [Sketch.arg, Worded.ofArg, hl])

theorem taggedTemplate_agrees (ht : B.Read .templateTag t u) :
    Agrees B B.Exprs (taggedTemplate r t) (taggedTemplate r' u) := by
  refine (agrees_node (by simp [ht.lexeme, ht.word rfl])).bind fun callee callee' hc => ?_
  let pairs (s s' : List Expr × List Expr) : Prop := B.Attributes s.1 s'.1 ∧ B.Attributes s.2 s'.2
  refine Agrees.bind (R := pairs) ?_ fun found found' hf => ?_
  · refine agrees_iterate pairs (by simp [pairs]) fun s s' hs => ?_
    obtain ⟨fragments, embedded⟩ := s
    obtain ⟨fragments', embedded'⟩ := s'
    refine agrees_advance.bind fun t u ht => ?_
    rw [ht.kind]
    split
    · refine (stringLiteral_agrees ht (.inl ‹_›)).bind fun l l' hl => agrees_pure (.done ⟨?_, hs.2⟩)
      simp [hs.1, hl]
    · refine (stringLiteral_agrees ht (.inr ‹_›)).bind fun l l' hl => hr.expression.bind fun e e' he => ?_
      exact agrees_pure (.again ⟨by simp [hs.1, hl], by simp [hs.2, he]⟩)
    · exact agrees_failAt
  · obtain ⟨fragments, embedded⟩ := found
    obtain ⟨fragments', embedded'⟩ := found'
    refine (agrees_spanFrom ht.places).bind fun _ _ _ => ?_
    refine (listArgument_agrees hf.1).bind fun a a' ha => (listArgument_agrees hf.2).bind fun b b' hb => ?_
    exact agrees_node (by simp [hc, ha, hb])

omit hr in
theorem moreItems_agrees {α : Type} {f : Sketch → α → α} {w : α → List Wording} {item item' : Parser α}
    (h : Agrees B (B.Same f w) item item')
    {a b : α} (hab : B.Same f w a b) : Agrees B (B.Lists f w) (moreItems item a) (moreItems item' b) := by
  refine Agrees.bind (R := B.Lists f w) ?_ fun items items' hs =>
    agrees_expect.andThen (agrees_pure hs)
  refine agrees_iterate (B.Lists f w) (by simp [hab]) fun items items' hs => ?_
  refine agrees_newlines.next fun _ => agrees_take.next fun _ => ?_
  refine agrees_ite (agrees_newlines.next fun _ => agrees_atKind.next fun _ => ?_)
    (agrees_pure (.done (by simp [hs])))
  exact agrees_ite (agrees_pure (.done (by simp [hs])))
    (h.bind fun a b hab => agrees_pure (.again (by simp [hab, hs])))

theorem collection_agrees (native : Bool) : Agrees B B.Exprs (collection r native) (collection r' native) := by
  refine agrees_previous.bind fun t u ht => agrees_newlines.next fun _ => ?_
  refine agrees_atKind.next fun _ => agrees_peekNext.bind fun n n' hn => ?_
  rw [hn.kind]
  refine agrees_ite (agrees_advance.andThen (agrees_advance.andThen ?_)) (agrees_take.next fun _ => ?_)
  · exact (agrees_spanFrom ht).bind fun _ _ _ => agrees_node (by simp)
  refine agrees_ite ((agrees_spanFrom ht).bind fun _ _ _ => agrees_node (by simp)) ?_
  refine hr.expression.bind fun e e' he => agrees_take.next fun _ => agrees_ite ?_ ?_
  · refine agrees_newlines.next fun _ => hr.expression.bind fun x x' hx => ?_
    have entry : Agrees B (B.Same Sketch.entry Worded.ofEntry)
        (do
          let key ← r.expression
          let _ ← expect .colon "`:` after map key"
          newlines
          return (⟨key, ← r.expression⟩ : Entry))
        (do
          let key ← r'.expression
          let _ ← expect .colon "`:` after map key"
          newlines
          return (⟨key, ← r'.expression⟩ : Entry)) :=
      hr.expression.bind fun k k' hk => agrees_expect.andThen (agrees_newlines.next fun _ =>
        hr.expression.bind fun x x' hx => agrees_pure (by simp [Sketch.entry, Worded.ofEntry, hk, hx]))
    refine (moreItems_agrees entry (by simp [Sketch.entry, Worded.ofEntry, he, hx])).bind fun es es' hs => ?_
    exact (agrees_spanFrom ht).bind fun _ _ _ => agrees_node (by simp [hs])
  · refine (moreItems_agrees hr.expression he).bind fun es es' hs => ?_
    exact (agrees_spanFrom ht).bind fun _ _ _ => agrees_node (by simp [hs])

theorem condition_agrees (keyword : String) : Agrees B B.Exprs (condition r keyword) (condition r' keyword) := by
  refine agrees_expect.andThen (agrees_newlines.next fun _ => hr.expression.bind fun e e' he => ?_)
  exact agrees_newlines.next fun _ => agrees_expect.andThen (agrees_newlines.next fun _ => agrees_pure he)

theorem ternary_agrees : Agrees B B.Exprs (ternary r) (ternary r') := by
  refine agrees_previous.bind fun t u ht => (condition_agrees hr _).bind fun c c' hc => ?_
  refine hr.expression.bind fun y y' hy => agrees_takeOnNextLine.next fun _ => agrees_ite ?_ agrees_fail
  refine agrees_newlines.next fun _ => hr.expression.bind fun n n' hn => ?_
  exact (agrees_spanFrom ht).bind fun _ _ _ => agrees_node (by simp [hc, hy, hn])

theorem arm_agrees : Agrees B (B.Same Sketch.case Worded.ofCase) (arm r) (arm r') := by
  refine agrees_take.next fun _ => ?_
  refine agrees_ite (Agrees.bind (R := B.Options Sketch.expr Worded.ofExpr) (agrees_pure (by simp)) ?rest)
    (hr.expression.bind fun e e' he => Agrees.bind (agrees_pure (by simp [he])) ?rest)
  refine fun c c' hc => agrees_expect.andThen (agrees_newlines.next fun _ => ?_)
  exact hr.statement.bind fun s s' hs => agrees_pure (by simp [Sketch.case, Worded.ofCase, hc, hs])

theorem choice_agrees : Agrees B B.Exprs (choice r) (choice r') := by
  refine agrees_previous.bind fun t u ht => (condition_agrees hr _).bind fun c c' hc => ?_
  refine agrees_expect.andThen (agrees_newlines.next fun _ => ?_)
  refine (agrees_itemsUntil (arm_agrees hr)).bind fun as as' ha => agrees_expect.andThen ?_
  exact (agrees_spanFrom ht).bind fun _ _ _ => agrees_node (by simp [hc, ha])

theorem primary_agrees : Agrees B B.Exprs (primary r) (primary r') := by
  refine agrees_peek.bind fun t u ht => ?_
  rw [ht.kind, ht.lexeme]
  split
  · exact agrees_advance.seq (agrees_node (by simp [Bond.Clean, Literal.Clean]))
  · exact agrees_advance.seq (agrees_node (by simp [Bond.Clean, Literal.Clean]))
  · exact agrees_advance.seq (agrees_node (by simp [Bond.Clean, Literal.Clean]))
  · exact agrees_advance.seq (agrees_node (by simp [(ht.read ‹_›).number]))
  · exact agrees_advance.seq (stringLiteral_agrees ht (.inl ‹_›))
  · exact path_agrees.given fun _ hp => (agrees_spanFrom ht.places).bind fun _ _ _ => agrees_node (by simp [hp])
  · exact path_agrees.given fun _ hp => (agrees_spanFrom ht.places).bind fun _ _ _ => agrees_node (by simp [hp])
  · exact agrees_advance.seq (agrees_node (by simp [(ht.read ‹_›).word rfl]))
  · exact agrees_advance.seq (agrees_node (by simp))
  · exact agrees_advance.seq (agrees_node (by simp))
  · refine agrees_advance.andThen (agrees_expect.andThen (agrees_newlines.next fun _ => ?_))
    exact agrees_expect.bind fun m m' hm => agrees_node (by simp [hm.lexeme, hm.word rfl])
  · exact agrees_advance.seq (interpolation_agrees hr (ht.read ‹_›))
  · exact agrees_advance.seq (taggedTemplate_agrees hr (ht.read ‹_›))
  · refine agrees_advance.andThen (agrees_newlines.next fun _ => hr.expression.bind fun e e' he => ?_)
    exact agrees_newlines.next fun _ => agrees_expect.bind fun _ _ _ => agrees_node (by simp [he])
  · exact agrees_advance.andThen (agrees_expect.andThen (collection_agrees hr _))
  · exact agrees_advance.seq (collection_agrees hr _)
  · exact agrees_advance.seq (shortLambda_agrees hr)
  · refine agrees_advance.andThen ((function_agrees hr true (by simp)).bind fun f f' hf => ?_)
    exact agrees_node (by simp [hf.1])
  · exact agrees_advance.seq (ternary_agrees hr)
  · exact agrees_advance.seq (choice_agrees hr)
  · exact agrees_failAt
  · exact agrees_failAt
  · exact agrees_failAt

/-! ## Operators -/

theorem call_agrees : Agrees B B.Exprs (call r) (call r') :=
  (primary_agrees hr).bind fun _ _ he =>
    agrees_iterate B.Exprs he fun _ _ he => postfixStep_agrees hr he

theorem unary_agrees : Agrees B B.Exprs (unary r) (unary r') := by
  refine agrees_peek.bind fun t u ht => ?_
  rw [ht.kind]
  cases prefixOp? t.kind with
  | some op =>
    refine agrees_advance.andThen (agrees_newlines.next fun _ => hr.unary.bind fun e e' he => ?_)
    exact agrees_node (by simp [he])
  | none =>
    refine (call_agrees hr).bind fun e e' he => agrees_peek.bind fun t u ht => ?_
    rw [ht.kind]
    cases postfixOp? t.kind with
    | some op => exact agrees_advance.bind fun _ _ _ => agrees_node (by simp [he])
    | none => exact agrees_pure he

omit hr in
theorem pipeInto_agrees (t u : Token) {input input' stage stage' : Expr} (hi : B.Exprs input input')
    (hs : B.Exprs stage stage') : Agrees B B.Exprs (pipeInto t input stage) (pipeInto u input' stage') := by
  have kinds := kind_eq hs
  unfold pipeInto
  split
  · rename_i callee args hk
    rw [hk] at kinds
    obtain ⟨c, as, hk', hc, ha⟩ := call_of_sketch kinds.1.symm
    rw [hk']
    have words : Fits B.Clean (Worded.ofExpr callee) ∧ Fits B.Clean (args.flatMap Worded.ofArg) := by
      simpa using kinds.2
    exact agrees_node (by simp [hc, ha, hi, words, Sketch.arg, Worded.ofArg])
  · rename_i func hk
    rw [hk] at kinds
    obtain ⟨f, hk', hf⟩ := lambda_of_sketch kinds.1.symm
    rw [hk']
    have words : Fits B.Clean (Worded.ofFunc func) := by simpa using kinds.2
    refine (agrees_node (by simp [hf, words])).bind fun l l' hl => (agrees_node (by simp [hl])).bind fun g g' hg => ?_
    exact agrees_node (by simp [hg, hi, Sketch.arg, Worded.ofArg])
  · rename_i notCall notLambda
    split
    · rename_i hk'
      rw [hk'] at kinds
      obtain ⟨c, as, hk, -⟩ := call_of_sketch kinds.1
      exact absurd hk (notCall c as)
    · rename_i hk'
      rw [hk'] at kinds
      obtain ⟨f, hk, -⟩ := lambda_of_sketch kinds.1
      exact absurd hk (notLambda f)
    · exact agrees_failAt

theorem pipe_agrees : Agrees B B.Exprs (pipe r) (pipe r') := by
  refine (unary_agrees hr).bind fun e e' he => agrees_iterate B.Exprs he fun e e' he => ?_
  refine agrees_atKind.next fun _ => agrees_ite (agrees_advance.bind fun t u _ => ?_) (agrees_pure (.done he))
  refine agrees_newlines.next fun _ => (unary_agrees hr).bind fun s s' hs => ?_
  exact (pipeInto_agrees t u he hs).bind fun _ _ h => agrees_pure (.again h)

omit hr in
theorem chainFrom_agrees (hj : KeepsJoint joint?) {operand operand' : Parser Expr}
    (ho : Agrees B B.Exprs operand operand') (he : B.Exprs e e') :
    Agrees B B.Exprs (chainFrom joint? operand e) (chainFrom joint? operand' e') := by
  refine agrees_iterate B.Exprs he fun e e' he => agrees_peek.bind fun t u ht => ?_
  rw [ht.kind]
  cases found : joint? t.kind with
  | none => exact agrees_pure (.done he)
  | some joint =>
    refine agrees_advance.andThen (agrees_newlines.next fun _ => ho.bind fun x x' hx => ?_)
    exact (agrees_node (hj.kinds found he hx)).bind fun _ _ h => agrees_pure (.again h)

omit hr in
theorem chain_agrees (hj : KeepsJoint joint?) {operand operand' : Parser Expr}
    (ho : Agrees B B.Exprs operand operand') :
    Agrees B B.Exprs (chain joint? operand) (chain joint? operand') :=
  ho.bind fun _ _ he => chainFrom_agrees hj ho he

theorem addition_agrees : Agrees B B.Exprs (addition r) (addition r') :=
  chain_agrees termJoint_keeps (chain_agrees factorJoint_keeps (chain_agrees rangeJoint_keeps (pipe_agrees hr)))

theorem comparison_agrees : Agrees B B.Exprs (comparison r) (comparison r') := by
  refine (addition_agrees hr).bind fun e e' he => agrees_take.next fun _ => agrees_ite ?_ ?_
  · exact (typePath_agrees hr true).given fun _ hp => agrees_previous.bind fun _ _ _ => agrees_node (by simp [he, hp])
  · exact chainFrom_agrees comparisonJoint_keeps (addition_agrees hr) he

theorem disjunction_agrees : Agrees B B.Exprs (disjunction r) (disjunction r') :=
  chain_agrees orJoint_keeps (chain_agrees andJoint_keeps (chain_agrees equalityJoint_keeps (comparison_agrees hr)))

/-! ## Assignment -/

omit hr in
def assigned (operator : Token) (target value : Expr) : Parser Expr :=
  match assignment? target value with
  | some kind => node kind (target.pos.merge value.pos)
  | none => failAt operator .assignmentTarget

omit hr in
theorem assigned_agrees (t u : Token) {target target' value value' : Expr} (ht : B.Exprs target target')
    (hv : B.Exprs value value') : Agrees B B.Exprs (assigned t target value) (assigned u target' value') := by
  have kinds : (assignment? target value).map B.left.exprKind = (assignment? target' value').map B.right.exprKind := by
    rw [← assignment?_sketch, ← assignment?_sketch, ht.1, hv.1]
  unfold assigned
  cases found : assignment? target value <;> cases found' : assignment? target' value' <;>
    simp only [found, found'] at kinds ⊢
  · exact agrees_failAt
  · simp at kinds
  · simp at kinds
  · exact agrees_node ⟨by simpa using kinds, fits_assignment? ht.2 hv.2 found⟩

theorem finishAssignment_agrees (t u : Token) (compound : Bool) {target target' : Expr}
    (ht : B.Exprs target target') :
    Agrees B B.Exprs (finishAssignment r t compound target) (finishAssignment r' u compound target') := by
  refine agrees_newlines.next fun _ => hr.expression.bind fun e e' he => ?_
  refine agrees_ite ((sum_agrees ht he).bind ?rest) (Agrees.bind (agrees_pure he) ?rest)
  intro x x' hx
  exact assigned_agrees t u ht hx

theorem expression_agrees : Agrees B B.Exprs (expression r) (expression r') := by
  refine (disjunction_agrees hr).bind fun e e' he => agrees_peek.bind fun t u ht => ?_
  rw [ht.kind]
  split
  · exact agrees_advance.bind fun t u _ => finishAssignment_agrees hr t u false he
  · exact agrees_advance.bind fun t u _ => finishAssignment_agrees hr t u true he
  · exact agrees_pure he

/-! ## Attributes -/

omit hr in
theorem atAttributes_agrees : Agrees B Eq atAttributes atAttributes := by
  refine agrees_peekNext.bind fun t u ht => agrees_atKind.next fun _ => ?_
  rw [ht.kind]
  exact agrees_pure rfl

theorem attributeEntry_agrees : Agrees B B.Exprs (attributeEntry r) (attributeEntry r') := by
  refine agrees_peek.bind fun t u ht => (typePath_agrees hr false).given fun _ hp => ?_
  refine (agrees_after? _ (arguments_agrees hr)).bind fun as as' ha => (agrees_spanFrom ht.places).bind fun _ _ _ => ?_
  refine agrees_node ?_
  cases as <;> cases as' <;> simp_all

theorem attributes_agrees : Agrees B B.Attributes (attributes r) (attributes r') := by
  refine agrees_iterate B.Attributes (by simp) fun es es' he => atAttributes_agrees.next fun _ => ?_
  refine agrees_ite (agrees_advance.andThen ?_) (agrees_pure (.done he))
  refine (agrees_separated (attributeEntry_agrees hr)).bind fun fs fs' hf => agrees_newlines.next fun _ => ?_
  exact agrees_expect.andThen (agrees_newlines.next fun _ => agrees_pure (.again (by simp [he, hf])))

end

end PhaseLang.Grammar
