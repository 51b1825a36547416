import PhaseLang.Grammar.Expression
import PhaseLang.Proofs.Grammar.Building

/-!
# What the rules for expressions build

Each rule for types, functions and expressions, given what the rules it recurs through build one level
lower. A rule that reads a token before it recurs is one level higher.
-/

namespace PhaseLang.Grammar

open PhaseLang.Parser Workpiece
open BuildsIf (andThen reading taking entering)

variable {C : Course} {n : Nat}

/-! ## Type paths -/

theorem path_builds : Passes C n path := by
  refine andThen (builds_take rfl) fun absolute _ => ?_
  refine reading (A := fun _ => []) (P := fun _ => True) ?_ fun segments _ => builds_pure rfl trivial rfl
  refine builds_iterate (fun _ => []) (fun _ => True) trivial rfl fun segments _ => ?_
  refine reading (builds_expect rfl) fun segment _ => builds_atKind fun more => ?_
  refine builds_peekNext [.typeIdentifier] rfl (fun t u h => by simp only [h .typeIdentifier (by simp)]) fun next => ?_
  refine builds_ite (fun h => ?_) fun _ => builds_pure rfl trivial rfl
  refine andThen (builds_advance fun c hc => ?_) fun _ _ => builds_pure rfl trivial rfl
  rw [Bool.and_eq_true] at h
  exact TokenKind.isPlain_of_beq (hc.1.2.trans h.1) rfl

section
variable {r : Rules} (hr : r.Build C n)
include hr

theorem typePath_builds (allowNullable : Bool) : Passes C (n + 1) (typePath r allowNullable) := by
  refine andThen (builds_take rfl) fun nullable _ => ?_
  refine builds_ite (fun _ => builds_previous fun _ known => builds_failAt_bind known rfl) fun _ => ?_
  refine reading path_builds fun path _ => ?_
  refine andThen (builds_after? (A := fun _ => []) (P := fun _ => True) rfl (fun _ => rfl) ?_)
    fun params _ => builds_pure (by simp) trivial rfl
  refine andThen (builds_separated (fun _ => rfl) (hr.typePath true)) fun params _ => ?_
  exact andThen (builds_expect rfl) fun _ _ => builds_pure (by simp) trivial rfl

theorem annotation?_builds : Proceeds C (n + 1) [] (annotation? r) fun _ => [] :=
  (builds_after? rfl (fun _ => rfl) (typePath_builds hr true).loosen).lower.plain.cast (by simp)

/-! ## Functions -/

theorem param_builds (allowPromotion : Bool) : Strides C n [] (param r allowPromotion) fun p => [.param p] := by
  refine builds_peek fun start _ => BuildsIf.ahead (fun _ h => h.2) fun left => ?_
  refine builds_joined (A := fun _ => []) (P := fun _ => True) (M := fun _ => false)
    (fun _ => (builds_take rfl).loosen) (fun _ => builds_pure rfl trivial rfl) fun promoted _ => ?_
  refine builds_optional (builds_expect rfl) (fun _ => rfl) (builds_expectBehind (K := []) rfl fun name => ?_)
  refine andThen (annotation?_builds hr).lower fun type _ => ?_
  refine andThen (builds_after? rfl (fun _ => rfl) hr.expression.loosen).lower fun default _ => ?_
  refine builds_spanFrom (by simp) fun pos _ => builds_formed (fun _ => .param ?_ ?_) trivial rfl
  · simp
  · simp

theorem params_builds (allowPromotion : Bool) :
    Strides C n [] (params r allowPromotion) fun ps => ps.map .param :=
  (builds_parenthesized (fun _ => rfl) (param_builds hr allowPromotion)).cast (by simp)

theorem block_builds : Strides C n [] (block r) fun s => [.stmt s] := by
  refine builds_previous fun opening _ => andThen builds_newlines fun _ _ => ?_
  refine andThen (builds_itemsUntil (fun _ => rfl) hr.declaration) fun stmts _ => ?_
  refine reading (builds_expect rfl) fun _ _ => builds_spanFrom (by simp) fun pos _ => builds_stmt ?_ ?_ trivial
  · simp [StmtKind.pieces]
  · simp

theorem inlineBody_builds {opening : Token} {problem : SyntaxProblem} {ks : List Workpiece}
    (place : opening.pos ∈ origins ks)
    (h : problem.stalls = false) : Strides C n ks (inlineBody r opening problem) fun s => ks ++ [.stmt s] := by
  refine reading hr.expression fun e _ => ?_
  refine BuildsIf.forming (x := .stmt ⟨e.pos, .ret (some e)⟩) ?_ fun _ => .stmt rfl (by simp) trivial
  refine andThen builds_newlines fun _ _ => andThen (builds_consume rfl h) fun _ _ => ?_
  refine builds_spanFrom (by simp [place]) fun pos _ => BuildsIf.of_eq (BuildsIf.frame (builds_stmt ?_ ?_ ?_) ks)
    (by simp only [List.append_assoc]; rfl)
  · simp [StmtKind.pieces]
  · simp
  · trivial

omit hr in
theorem atInlineBody_builds {H : Cursor → Prop} :
    BuildsIf C H (fun _ => false) n [] atInlineBody (fun _ => True) fun _ => [] := by
  refine builds_peek fun token _ => ?_
  split <;> exact builds_pure rfl trivial rfl

theorem functionBody_builds : Strides C n [] (functionBody r) fun s => [.stmt s] := by
  refine builds_previous fun opening _ => taking (builds_take rfl) ?_ ?_
  · exact builds_spanFrom (by simp) fun pos _ => builds_stmt rfl (by simp) trivial
  · refine andThen atInlineBody_builds fun inline _ => builds_ite (fun _ => ?_) fun _ => ?_
    · exact (inlineBody_builds hr (by simp) rfl).cleared (by simp)
    · exact BuildsIf.alone (block_builds hr) rfl

theorem function_builds (anonymous : Bool) (attributes : List Expr) :
    Strides C n (attributes.map .expr) (function r anonymous attributes) fun f => [.func f] := by
  refine builds_previous fun keyword _ => builds_atKind fun named => ?_
  have finish (name : String) {ks : List Workpiece} (parts : codes ks = attributes.map .expr)
      (place : keyword.pos ∈ origins ks) : Strides C n ks (do
        let _ ← expect .leftParen "`(` after function name"
        let params ← params r false
        let result ← annotation? r
        let _ ← expect .leftBrace "`\x7b` before function body"
        let body ← functionBody r
        return { name, params, body := some body, result, attributes, pos := ← spanFrom keyword })
        fun f => [.func f] := by
    refine reading (builds_expect rfl) fun _ _ => andThen (params_builds hr false) fun params _ => ?_
    refine andThen (annotation?_builds hr).lower fun result _ => andThen (builds_expect rfl) fun _ _ => ?_
    refine andThen (functionBody_builds hr) fun body _ => builds_spanFrom (by simp [place]) fun pos _ => ?_
    exact builds_formed (fun _ => .func (by simp [parts, Func.inner]) (by simp)) trivial rfl
  refine builds_ite (fun _ => ?_) fun _ => builds_pure_bind (finish _ (by simp) (by simp)).any
  refine andThen (builds_expect rfl) fun name _ => builds_pure_bind (finish _ (by simp) (by simp))

omit hr in
theorem lambdaParams?_builds : Proceeds C n [] lambdaParams? (·.toList.flatMap fun ps => ps.map .param) := by
  refine (builds_after? (n := n) (P := fun _ => True) rfl codes_params ?_).lower.plain
  refine builds_atKind fun empty => ?_
  refine builds_joined (A := fun ps : List Param => ps.map .param) (P := fun _ => True) (M := fun _ => false)
    (fun _ => builds_pure rfl trivial rfl) (fun _ => ?_)
    fun params _ => andThen (builds_expect rfl) fun _ _ => builds_pure (by simp) trivial rfl
  refine ((builds_separated (A := fun p => [.param p]) (fun _ => rfl) ?_).loosen).cast (by simp)
  exact reading (builds_expect rfl) fun name _ => builds_formed (fun _ => .param rfl (by simp [bareParam])) trivial rfl

theorem shortLambda_builds : StridesAt C n 9 (shortLambda r) := by
  refine builds_previous fun opening _ => builds_atKind fun newline => ?_
  refine andThen builds_newlines fun _ _ => andThen lambdaParams?_builds fun params _ => ?_
  have body (params : List Param) (inline : Bool) {ks : List Workpiece} (parts : codes ks = params.map .param)
      (place : opening.pos ∈ origins ks) : Builds C (fun _ => true) n ks (do
        let body ← if inline && (← atInlineBody) then inlineBody r opening .lambdaNotInline else block r
        let pos ← spanFrom opening
        node (.lambda ⟨"", params, some body, none, [], pos⟩) pos) (·.StandsAt 9) fun e => [.expr e] := by
    refine andThen atInlineBody_builds fun atBody _ => ?_
    have finish (body : Stmt) : Builds C (fun _ => false) n (ks ++ [] ++ [.stmt body]) (do
        let pos ← spanFrom opening
        node (.lambda ⟨"", params, some body, none, [], pos⟩) pos) (·.StandsAt 9) fun e => [.expr e] := by
      refine builds_spanFrom (by simp [place]) fun pos _ => ?_
      refine BuildsIf.forming (K := []) (x := .func ⟨"", params, some body, none, [], pos⟩)
        (builds_nodeAt rfl trivial (by simp) (Nat.le_refl _) rfl) fun _ => .func ?_ (by simp)
      simp [parts, Func.inner]
    refine builds_ite (fun _ => ?_) fun _ => reading (block_builds hr) fun body _ => finish body
    exact BuildsIf.readingOn (inlineBody_builds hr (by simp [place]) rfl) fun body _ => finish body
  split
  · refine builds_atKind fun newline => builds_pure_bind (body _ _ ?_ ?_).any
    · simp
    · simp
  · refine builds_pure_bind ?_
    refine BuildsIf.of_eq (BuildsIf.copying ?_ rfl) (show _ = [] ++ [.place opening.pos] by simp)
    refine BuildsIf.forming (x := .param (bareParam "it" opening.pos)) (body _ _ (by simp) (by simp))
      fun _ => .param rfl (by simp [bareParam])

/-! ## Calls -/

theorem argument_builds : Strides C n [] (argument r) fun a => [a.piece] := by
  refine builds_atKind fun named => builds_peekNext [.colon] rfl (fun t u h => by simp only [h .colon (by simp)])
    fun next => builds_ite (fun h => ?_) fun _ => ?_
  · rw [Bool.and_eq_true] at h
    refine builds_advance_advance (fun c hc => ⟨TokenKind.isPlain_of_beq (hc.1.2.trans h.1) rfl, ?_⟩) fun name => ?_
    · rw [hc.2]
      exact TokenKind.isPlain_of_beq h.2 rfl
    · refine andThen builds_newlines fun _ _ => andThen hr.expression fun e _ => ?_
      exact builds_pure (by simp) trivial rfl
  · exact reading hr.expression.any fun e _ => builds_pure rfl trivial rfl

theorem arguments_builds : Strides C n [] (arguments r) fun as => as.map (·.piece) :=
  (builds_parenthesized (fun _ => rfl) (argument_builds hr)).cast (by simp)

variable {ks : List Workpiece}

theorem finishCall_builds {callee : Expr} (parts : codes ks = [.expr callee]) (place : callee.pos ∈ places ks)
    (hc : callee.StandsAt 9) :
    Builds C (fun _ => false) n ks (finishCall r callee) (·.StandsAt 9) fun e => [.expr e] := by
  refine andThen (arguments_builds hr) fun args _ => ?_
  refine andThen (builds_after? rfl (fun _ => rfl) (shortLambda_builds hr).loosen).lower fun trailing _ => ?_
  refine builds_previous fun last _ => builds_span (by simp [place]) (by simp) ?_ hc (Nat.le_refl _) rfl
  cases trailing <;> simp [parts, ExprKind.pieces]

theorem fieldName_builds : Strides C (n + 1) [] (fieldName r) fun e => [.expr e] := by
  refine builds_advance_or_fail (fun token known _ => ?_) fun token plain => ?_
  · have name : Proceeds C n ([] ++ [.token token]) (node (.ident token.lexeme) token.pos) fun e => [.expr e] :=
      (builds_name rfl (by trivial) (Nat.le_refl _)).plain
    split
    · exact name
    · exact name
    · exact name
    · refine andThen builds_newlines fun _ _ => andThen hr.expression fun name _ => ?_
      refine andThen builds_newlines fun _ _ => andThen (builds_expect rfl) fun close _ => ?_
      refine builds_ite (fun _ => ?_) fun _ => builds_pure rfl trivial rfl
      exact (builds_span (by simp) (by simp) rfl (by trivial) (Nat.zero_le _) rfl).plain
    · exact builds_failAt known rfl
  · split
    · simp_all [TokenKind.isPlain]
    · simp_all [TokenKind.isPlain]
    · simp_all [TokenKind.isPlain]
    · simp_all [TokenKind.isPlain]
    · exact ⟨_, rfl, rfl⟩

theorem finishIndex_builds {target : Expr} (parts : codes ks = [.expr target]) (place : target.pos ∈ places ks)
    (ht : target.StandsAt 9) :
    Builds C (fun _ => false) n ks (finishIndex r target) (·.StandsAt 9) fun e => [.expr e] := by
  have finish (index : Option Expr) : Builds C (fun _ => false) n (ks ++ index.toList.map .expr)
      (do
        let close ← expect .rightBracket "`]` after index"
        node (.indexGet target index) (target.pos.merge close.pos)) (·.StandsAt 9) fun e => [.expr e] := by
    refine andThen (builds_expect rfl) fun close _ => ?_
    exact builds_span (by simp [place]) (by simp) (by simp [parts, ExprKind.pieces]) ht (Nat.le_refl _) rfl
  refine builds_atKind fun empty => builds_ite (fun _ => builds_pure_bind ?_) fun _ => ?_
  · exact (finish none).any.of_eq (by simp)
  · refine andThen builds_newlines fun _ _ => andThen hr.expression fun index _ => ?_
    refine andThen builds_newlines fun _ _ => builds_pure_bind ((finish (some index)).of_eq (by simp))

theorem postfixStep_builds {e : Expr} (he : e.StandsAt 9) :
    Builds C (Round.either (fun _ => true) fun _ => false) n [.expr e] (postfixStep r e)
      (Round.either (·.StandsAt 9) (·.StandsAt 9)) (Round.either (fun e => [.expr e]) fun e => [.expr e]) := by
  refine andThen builds_continueLine fun _ _ => builds_peek fun token _ => ?_
  -- Every step but the last reads the token in front and gives an expression to go on with.
  have step {p : Parser Expr} (plain : token.kind.isPlain = true)
      (h : Builds C (fun _ => false) n ([.expr e] ++ [] ++ [.token token]) p (·.StandsAt 9) fun e => [.expr e]) :
      BuildsIf C (fun c => True ∧ c.peek = token) (Round.either (fun _ => true) fun _ => false) n ([.expr e] ++ [])
        (do
          let _ ← advance
          return Round.again (← p)) (Round.either (·.StandsAt 9) (·.StandsAt 9))
        (Round.either (fun e => [.expr e]) fun e => [.expr e]) :=
    builds_token (fun _ hc => hc.2) plain (Nat.le_succ n)
      (BuildsIf.any (BuildsIf.bind h fun e he => builds_pure rfl he rfl))
  split
  · rename_i h
    exact step (by rw [h]; rfl) (finishCall_builds hr rfl (by simp) he)
  · rename_i h
    have node : Builds C (fun _ => false) n ([.expr e] ++ [] ++ [.token token]) (do
        let lambda ← shortLambda r
        node (.call e [⟨none, lambda⟩]) (e.pos.merge lambda.pos)) (·.StandsAt 9) fun e => [.expr e] :=
      andThen (shortLambda_builds hr) fun lambda _ => builds_span (by simp) (by simp) rfl he (Nat.le_refl _) rfl
    simpa using step (by rw [h]; rfl) node
  · rename_i h
    have node : Builds C (fun _ => false) n ([.expr e] ++ [] ++ [.token token]) (do
        newlines
        let field ← fieldName r
        node (.get e field) (e.pos.merge field.pos)) (·.StandsAt 9) fun e => [.expr e] := by
      refine andThen builds_newlines fun _ _ => andThen (fieldName_builds hr).lower fun field _ => ?_
      exact builds_span (by simp) (by simp) rfl he (Nat.le_refl _) rfl
    simpa using step (by rw [h]; rfl) node
  · rename_i h
    exact step (by rw [h]; rfl) (finishIndex_builds hr rfl (by simp) he)
  · exact builds_pure rfl he rfl

/-! ## Strings -/

omit hr in
/-- A token that is read as a string. -/
theorem literal_steps {s : List Workpiece} {c : Cursor} (more : c.rest ≠ []) :
    Steps s c (s ++ [.expr ⟨c.advance.nextId, c.peek.pos, .literal (.string c.peek.text)⟩])
      { c.advance with nextId := c.advance.nextId + 1 } :=
  (Steps.single (.read more)).tail (.form (.expr rfl trivial (by simp) fun name => by cases name))

omit hr in
theorem string_builds {token : Token} (kind : token.kind = .string) :
    BuildsIf C (fun c => True ∧ c.peek = token) (fun _ => true) n [] (advance *> stringLiteral token) (·.StandsAt 9)
      fun e => [.expr e] := by
  refine ⟨fun s c ready hc => ?_, fun _ c _ fits _ => (extends_advance.next fun _ => spans_node.loosen) c fits⟩
  obtain ⟨-, rfl⟩ := hc
  have rest := Cursor.rest_eq ready (by simp [kind])
  have length : c.rest.length = c.advance.rest.length + 1 := by rw [rest]; rfl
  have leads : C.Leads c.rest c.advance.rest := by
    rw [rest]
    exact C.stitched (.last kind)
  have step : Cursor.From C n c c.advance :=
    ⟨Cursor.ready_advance ready, fun _ => leads, Cursor.advance_eof c, by omega⟩
  rw [runs_seqRight, runs_advance, stringLiteral, runs_node]
  refine ⟨⟨step.congr rfl rfl rfl, fun _ => ?_, ?_⟩, .inl (Nat.le_refl _)⟩
  · show c.advance.rest.length < _
    omega
  · rw [List.append_nil]
    exact literal_steps (by simp [rest])

omit hr in
/-- A sum that starts with a string, whatever it adds. -/
theorem sum_builds {lhs : Expr} (rhs : Expr) (template : lhs.kind.isTemplate = true) :
    Builds C (fun _ => false) n ([.expr lhs] ++ [.expr rhs]) (sum lhs rhs) (fun e => e.kind.isTemplate = true)
      fun e => [.expr e] := by
  refine BuildsIf.spanning (a := lhs.pos) (b := rhs.pos)
    (builds_node rfl ⟨.inr template, .inl rfl⟩ (by simp) (fun name => by cases name) ?_) (by simp) (by simp)
  rintro ⟨id, pos, kind⟩ rfl -
  obtain ⟨⟩ := lhs
  exact template

omit hr in
theorem literal_builds (token : Token) :
    Builds C (fun _ => false) n [.token token] (stringLiteral token) (fun e => e.kind.isTemplate = true)
      fun e => [.expr e] := by
  refine builds_node rfl trivial (by simp) (fun name => by cases name) ?_
  rintro ⟨id, pos, kind⟩ rfl -
  rfl

/-- From the front of an embedded expression to behind the string it stands in. -/
def Spliced (C : Course) (ts rest : List Token) : Prop :=
  ∃ us, C.Embeds ts us ∧ C.Leads ts us ∧ Stitched C.Embeds C.Leads us rest

/-- What is done with a fragment of a string. -/
def addFragment (e : Expr) (fragment : Token) : Parser (Round Expr Expr) := do
  let e ← if fragment.text.isEmpty then pure e else sum e (← stringLiteral fragment)
  if fragment.kind == .string then return .done e else return .again e

omit hr in
theorem addFragment_builds {e : Expr} {fragment : Token} (template : e.kind.isTemplate = true) :
    Builds C (fun _ => false) n ([.expr e] ++ [.token fragment]) (addFragment e fragment)
      (Round.either (fun e => e.kind.isTemplate = true ∧ fragment.kind ≠ .string)
        fun e => e.kind.isTemplate = true ∧ fragment.kind = .string)
      (Round.either (fun e => [.expr e]) fun e => [.expr e]) := by
  have finish {e : Expr} (template : e.kind.isTemplate = true) {ks : List Workpiece} (parts : codes ks = [.expr e]) :
      Builds C (fun _ => false) n ks
        (if fragment.kind == .string then return Round.done e else return Round.again e)
        (Round.either (fun e => e.kind.isTemplate = true ∧ fragment.kind ≠ .string)
          fun e => e.kind.isTemplate = true ∧ fragment.kind = .string)
        (Round.either (fun e => [.expr e]) fun e => [.expr e]) := by
    refine builds_ite (fun h => builds_pure parts ⟨template, by simpa using h⟩ rfl) fun h => ?_
    exact builds_pure parts ⟨template, by simpa using h⟩ rfl
  refine builds_ite (fun _ => builds_pure_bind (finish template rfl)) fun _ => ?_
  refine BuildsIf.bind ((literal_builds fragment).frame [.expr e]) fun text _ => ?_
  exact BuildsIf.bind (sum_builds _ template) fun e he => finish he rfl

omit hr in
theorem addFragment_rest (e : Expr) (fragment : Token) (c : Cursor) :
    wp (addFragment e fragment) (fun _ c' => c'.rest = c.rest) c := by
  unfold addFragment sum stringLiteral
  simp only [wp_ite, wp_bind, wp_pure, wp_node]
  simp

/-- Between two rounds of a string: what it does from here on completes what it has done since `c`. -/
structure Midway (C : Course) (n : Nat) (s ks : List Workpiece) (c : Cursor) (e : Expr) (d : Cursor) : Prop where
  ready : C.Ready d
  eof : d.eof = c.eof
  le : d.rest.length ≤ c.rest.length
  back : c.rest.length < n → ∀ rest, Spliced C d.rest rest → Spliced C c.rest rest
  template : e.kind.isTemplate = true
  steps : Steps (s ++ ks) c (s ++ [.expr e]) d

/-- Behind a string whose first embedded expression starts at `c`. -/
structure Over (C : Course) (n : Nat) (s ks : List Workpiece) (c : Cursor) (e : Expr) (d : Cursor) : Prop where
  ready : C.Ready d
  eof : d.eof = c.eof
  lt : d.rest.length < c.rest.length
  spliced : c.rest.length < n → Spliced C c.rest d.rest
  template : e.kind.isTemplate = true
  steps : Steps (s ++ ks) c (s ++ [.expr e]) d

omit hr in
theorem Midway.fragment {s ks : List Workpiece} {c d d' : Cursor} {e e' : Expr} (mid : Midway C n s ks c e d)
    (step : Cursor.From C n d d') (moved : d'.rest.length < d.rest.length)
    (embeds : d.rest.length < n → C.Embeds d.rest d'.rest) (template : e'.kind.isTemplate = true)
    (steps : Steps (s ++ [.expr e]) d (s ++ [.expr e']) d')
    (kind : d'.peek.kind = .string ∨ d'.peek.kind = .interpolation) :
    runs (addFragment e' d'.peek)
      (fun r c' => r.either (fun e => c'.rest.length < d.rest.length ∧ Midway C n s ks c e c')
      fun e => Over C n s ks c e c') (C.Fails n c) d'.advance := by
  have rest := Cursor.rest_eq step.ready (by rcases kind with h | h <;> simp [h])
  have read : Steps (s ++ [.expr e']) d' (s ++ ([.expr e'] ++ [.token d'.peek])) d'.advance := by
    rw [← List.append_assoc]
    exact .single (.read (by simp [rest]))
  have le := mid.le
  have length : d'.rest.length = d'.advance.rest.length + 1 := by rw [rest]; rfl
  refine runs_weaken
    (runs_and ((addFragment_builds template).lays s d'.advance (Cursor.ready_advance step.ready) trivial)
    (addFragment_rest e' d'.peek d'.advance)) (fun r c' hr => ?_) fun _ fails => fails.behind (by omega)
  obtain ⟨⟨laid, good⟩, rest'⟩ := hr
  have length' : d'.rest.length = c'.rest.length + 1 := by rw [rest', length]
  have eof : c'.eof = c.eof := by rw [laid.way.eof, Cursor.advance_eof, step.eof, mid.eof]
  have run := (mid.steps.trans steps).trans (read.trans laid.steps)
  cases r with
  | done e =>
    refine ⟨laid.way.ready, eof, by omega, fun lt => ?_, good.1, run⟩
    refine mid.back lt _ ⟨_, embeds (by omega), step.leads (by omega), ?_⟩
    rw [rest, rest']
    exact .last good.2
  | again e =>
    refine ⟨by omega, laid.way.ready, eof, by omega, fun lt rest₂ spliced => ?_, good.1, run⟩
    obtain ⟨us, embeds', leads', tail⟩ := spliced
    refine mid.back lt _ ⟨_, embeds (by omega), step.leads (by omega), ?_⟩
    rw [rest]
    exact .more (kind.resolve_left good.2) (rest' ▸ embeds') (rest' ▸ leads') tail

theorem interpolation_spans {Z : Tail} (t : Token) : Spans Z (interpolation r t) := by
  refine Spans.bind spans_node fun first => Grows.iterate (fun _ => true) (fun e => ?_) (.inl fun _ => rfl) first
  refine ((hr.grows Z).tight fun i => spans_node.tight fun g => spans_node.tight fun e => ?_).spans
  refine tight_advance (fun t ended c => ?_) fun t => ?_
  · rcases ended with kind | kind <;> rw [kind] <;> exact wp_failAt
  · have fragment : Spans Z (addFragment e t) :=
      .ite (spans_pure.bind fun _ => .ite grows_pure grows_pure)
        (Spans.bind spans_node fun _ => Spans.bind spans_node fun _ => .ite grows_pure grows_pure)
    split
    · exact fragment
    · exact fragment
    · exact tight_failAt.spans

theorem interpolation_runs (s : List Workpiece) {c : Cursor} (first : Token) (ready : C.Ready c) :
    runs (interpolation r first) (Over C n s [.token first] c) (C.Fails n c) c := by
  unfold interpolation
  rw [runs_bind, stringLiteral, runs_node]
  have start : Steps (s ++ [.token first]) c (s ++ [.expr ⟨c.nextId, first.pos, .literal (.string first.text)⟩])
      { c with nextId := c.nextId + 1 } :=
    .single (.form (.expr rfl trivial (by simp) fun name => by cases name))
  refine runs_loop (I := Midway C n s [.token first] c)
    ⟨ready.congr rfl rfl rfl, rfl, Nat.le_refl _, fun _ _ h => h, rfl, start⟩ fun e d mid => ?_
  have embeds : wp r.expression (fun _ d' => d.rest.length < n → C.Embeds d.rest d'.rest) d :=
    fun a d' run lt => hr.embeds d mid.ready lt a d' run
  rw [runs_bind]
  refine runs_weaken (runs_and (hr.expression.lays (s ++ [.expr e]) d mid.ready trivial) embeds)
    (fun embedded d' h => ?_) fun _ fails => fails.behind mid.le
  obtain ⟨⟨laid, -⟩, embeds⟩ := h
  -- The embedded expression is put in a group and added, and a fragment follows.
  have steps : Steps (s ++ [.expr e]) d (s ++ [.expr e] ++ [.expr embedded]) d' := by simpa using laid.steps
  have group : Step (s ++ [.expr e] ++ [.expr embedded]) d' (s ++ [.expr e] ++
      [.expr ⟨d'.nextId, embedded.pos, .group embedded⟩]) { d' with nextId := d'.nextId + 1 } :=
    .form (.expr rfl trivial (by simp) fun name => by cases name)
  rw [runs_bind, runs_node, runs_bind]
  refine runs_weaken (runs_and ((sum_builds ⟨d'.nextId, embedded.pos, .group embedded⟩ mid.template).lays s
    { d' with nextId := d'.nextId + 1 } (laid.way.ready.congr rfl rfl rfl) trivial) (R := fun _ d₂ => d₂.rest = d'.rest)
    (by simp [sum])) (fun e' d₂ h => ?_) fun _ fails => fails.behind ?_
  · obtain ⟨⟨total, template⟩, rest⟩ := h
    have way := laid.way.congr (d := { d' with nextId := d'.nextId + 1 }) rfl rfl rfl
    have step := way.trans total.way fun lt => Nat.lt_of_le_of_lt way.le lt
    have moved : d₂.rest.length < d.rest.length := rest ▸ laid.moved rfl
    have run := (steps.tail group).trans (by simpa using total.steps)
    rw [← rest] at embeds
    rw [runs_bind, runs_advance]
    split
    · exact mid.fragment step moved embeds template run (.inl ‹_›)
    · exact mid.fragment step moved embeds template run (.inr ‹_›)
    · exact ⟨⟨_, Cursor.knows_peek step.ready, rfl⟩, fun stalled => by cases stalled⟩
  · exact Nat.le_trans laid.way.le mid.le

theorem interpolated_builds {token : Token} (kind : token.kind = .interpolation) :
    BuildsIf C (fun c => True ∧ c.peek = token) (fun _ => true) (n + 1) [] (advance *> interpolation r token)
      (·.StandsAt 9) fun e => [.expr e] := by
  refine ⟨fun s c ready hc => ?_, fun _ c _ fits _ =>
    (extends_advance.next fun _ => (interpolation_spans hr _).loosen) c fits⟩
  obtain ⟨-, rfl⟩ := hc
  have rest := Cursor.rest_eq ready (by simp [kind])
  have length : c.rest.length = c.advance.rest.length + 1 := by rw [rest]; rfl
  rw [runs_seqRight, runs_advance]
  refine runs_weaken (interpolation_runs hr s c.peek (Cursor.ready_advance ready)) (fun e c' behind => ?_)
    fun e fails => ?_
  · have lt := behind.lt
    refine ⟨⟨⟨behind.ready, fun bound => ?_, behind.eof.trans (Cursor.advance_eof c), by omega⟩, fun _ => by omega, ?_⟩,
      .inr behind.template⟩
    · obtain ⟨us, embeds, leads, tail⟩ := behind.spliced (by omega)
      rw [rest]
      exact C.stitched (.more kind embeds leads tail)
    · rw [List.append_nil]
      exact (Steps.single (.read (by simp [rest]))).trans behind.steps
  · exact ⟨fails.known, fun stalled => by have := fails.bound stalled; omega⟩

omit hr in
theorem weave_snoc {fragments embedded : List Expr} (even : fragments.length = embedded.length) (text : Expr) :
    weave (fragments ++ [text]) embedded = weave fragments embedded ++ [.expr text] := by
  induction fragments generalizing embedded with
  | nil =>
    obtain rfl := List.length_eq_zero_iff.mp even.symm
    rfl
  | cons fragment fragments ih =>
    obtain ⟨e, rest, rfl⟩ := List.exists_cons_of_length_eq_add_one even.symm
    simp only [List.cons_append, weave, ih (by simpa using even)]

omit hr in
theorem weave_snoc_snoc {fragments embedded : List Expr} (even : fragments.length = embedded.length) (text e : Expr) :
    weave (fragments ++ [text]) (embedded ++ [e]) = weave fragments embedded ++ [.expr text] ++ [.expr e] := by
  induction fragments generalizing embedded with
  | nil =>
    obtain rfl := List.length_eq_zero_iff.mp even.symm
    rfl
  | cons fragment fragments ih =>
    obtain ⟨e', rest, rfl⟩ := List.exists_cons_of_length_eq_add_one even.symm
    simp only [List.cons_append, weave, ih (by simpa using even)]

/-- Between two rounds of a template, which has been read from `c` to `d`. -/
structure Underway (C : Course) (n : Nat) (s : List Workpiece) (c : Cursor) (parts : List Expr × List Expr)
    (d : Cursor) : Prop where
  ready : C.Ready d
  eof : d.eof = c.eof
  le : d.rest.length ≤ c.rest.length
  back : c.rest.length < n → ∀ rest, Stitched C.Embeds C.Leads d.rest rest → Stitched C.Embeds C.Leads c.rest rest
  even : parts.1.length = parts.2.length
  steps : Steps s c (s ++ weave parts.1 parts.2) d

omit hr in
theorem codes_weave (fragments embedded : List Expr) : codes (weave fragments embedded) = weave fragments embedded := by
  fun_induction weave fragments embedded with
  | case1 | case2 => simp
  | case3 fragment fragments e embedded ih => simp [ih]

omit hr in
theorem weave_parts (fragments embedded : List Expr) :
    (fragments.map (·.pos)).Sublist (places (weave fragments embedded)) ∧
      (embedded.map (·.pos)).Sublist (places (weave fragments embedded)) := by
  have whole (es : List Expr) : (es.map (·.pos)).Sublist (places (es.map .expr)) := by
    induction es with
    | nil => exact .slnil
    | cons e es ih => simpa using ih
  fun_induction weave fragments embedded with
  | case1 embedded => exact ⟨by simp, whole embedded⟩
  | case2 fragments _ => exact ⟨whole fragments, by simp⟩
  | case3 fragment fragments e embedded ih =>
    refine ⟨?_, ?_⟩
    · simpa using ih.1.cons _
    · simpa using (ih.2.cons_cons _).cons _

omit hr in
theorem listArgument_run (items : List Expr) (pos : Position) (c : Cursor) {ks : List Workpiece}
    (place : pos ∈ places ks) (sub : (items.map (·.pos)).Sublist (places ks)) : ∃ p, Lists ks p ∧
      listArgument items pos c = .ok (⟨none, ⟨c.nextId, p, .list items false⟩⟩, { c with nextId := c.nextId + 1 }) := by
  unfold listArgument
  split
  · rename_i first last head tail
    refine ⟨first.pos.merge last.pos, .inr ⟨_, _, ?_, rfl⟩, rfl⟩
    obtain ⟨items, rfl⟩ := List.head?_eq_some_iff.mp head
    cases items with
    | nil =>
      obtain rfl : first = last := by simpa using tail
      exact .inr ⟨rfl, sub.subset (by simp)⟩
    | cons item items =>
      refine .inl (List.Sublist.trans ?_ sub)
      have mem : last ∈ item :: items := List.mem_of_getLast? (by simpa using tail)
      exact (List.singleton_sublist.mpr (List.mem_map_of_mem mem)).cons_cons _
  · exact ⟨pos, .inl place, rfl⟩

omit hr in
theorem listArgument_spans {Z : Tail} {items : List Expr} {pos : Position} : Spans Z (listArgument items pos) :=
  Spans.bind spans_node fun _ => grows_pure

theorem taggedTemplate_builds (tag : Token) :
    Builds C (fun _ => true) n [.token tag] (taggedTemplate r tag) (·.StandsAt 9) fun e => [.expr e] := by
  refine BuildsIf.bind (builds_name rfl trivial (Nat.le_refl _)) fun callee hc => ?_
  refine BuildsIf.reading (A := fun parts => weave parts.1 parts.2) (P := fun _ => True) ?_ fun parts _ => ?_
  · refine ⟨fun s c ready _ => ?_, fun Z c _ fits _ => ?_⟩
    case refine_2 =>
      refine Grows.iterate (fun _ => false) (fun _ => extends_advance.next fun t => ?_)
        (.inr (.inr fun _ => rfl)) _ c fits
      split
      · exact spans_node.next fun _ => grows_pure
      · exact spans_node.next fun _ => (hr.grows Z).next fun _ => grows_pure
      · exact tight_failAt.grows
    refine runs_loop (I := Underway C n (s ++ []) c)
      ⟨ready, rfl, Nat.le_refl _, fun _ _ h => h, rfl, by simpa [weave] using .refl⟩ fun parts d way => ?_
    have le := way.le
    have eof : d.advance.eof = c.eof := (Cursor.advance_eof d).trans way.eof
    have ready' := Cursor.ready_advance way.ready
    rw [runs_bind, runs_advance]
    split
    · rename_i kind
      have rest := Cursor.rest_eq way.ready (by simp [kind])
      have length : d.rest.length = d.advance.rest.length + 1 := by rw [rest]; rfl
      rw [runs_bind, stringLiteral, runs_node, runs_pure]
      refine ⟨⟨⟨ready'.congr rfl rfl rfl, fun lt => C.stitched (way.back lt _ ?_), eof, ?_⟩, fun _ => ?_, ?_⟩, trivial⟩
      · rw [rest]
        exact .last kind
      · show d.advance.rest.length ≤ _
        omega
      · show d.advance.rest.length < _
        omega
      · simpa [weave_snoc way.even] using way.steps.trans (literal_steps (by simp [rest]))
    · rename_i kind
      have rest := Cursor.rest_eq way.ready (by simp [kind])
      have length : d.rest.length = d.advance.rest.length + 1 := by rw [rest]; rfl
      rw [runs_bind, stringLiteral, runs_node, runs_bind]
      have read := literal_steps (s := s ++ weave parts.1 parts.2) (c := d) (by simp [rest])
      generalize hd : ({ d.advance with nextId := d.advance.nextId + 1 } : Cursor) = d₁ at read ⊢
      generalize (⟨d.advance.nextId, d.peek.pos, .literal (.string d.peek.text)⟩ : Expr) = text at read ⊢
      have rest₁ : d₁.rest = d.advance.rest := hd ▸ rfl
      have eof₁ : d₁.eof = d.advance.eof := hd ▸ rfl
      have ready₁ : C.Ready d₁ := ready'.congr rest₁ eof₁ (hd ▸ rfl)
      have length₁ : d₁.rest.length = d.advance.rest.length := by rw [rest₁]
      have embeds : wp r.expression (fun _ d' => d₁.rest.length < n → C.Embeds d₁.rest d'.rest) d₁ :=
        fun a d' run lt => hr.embeds d₁ ready₁ lt a d' run
      refine runs_weaken
        (runs_and (hr.expression.lays (s ++ weave parts.1 parts.2 ++ [.expr text]) d₁ ready₁ trivial) embeds)
        (fun e d₂ h => ?_) fun _ fails => fails.behind (by omega)
      obtain ⟨⟨laid, -⟩, embeds⟩ := h
      have le₂ := laid.way.le
      refine ⟨by omega, laid.way.ready, laid.way.eof.trans (eof₁.trans
        eof), by omega, fun lt tail h => way.back lt _ ?_, by simpa using way.even, ?_⟩
      · rw [rest]
        exact .more kind (rest₁ ▸ embeds (by omega)) (rest₁ ▸ laid.way.leads (by omega)) h
      · simpa [weave_snoc_snoc way.even] using way.steps.trans (by simpa using read.trans (by simpa using laid.steps))
    · exact ⟨⟨_, Cursor.knows_peek way.ready, rfl⟩, fun stalled => by cases stalled⟩
  · obtain ⟨fragments, embedded⟩ := parts
    refine builds_spanFrom (by simp [hc.2]) fun pos _ => ?_
    refine ⟨fun s c ready _ => ?_, fun _ c _ fits _ =>
      (listArgument_spans.bind fun _ => listArgument_spans.bind fun _ =>
      spans_node.loosen) c fits⟩
    obtain ⟨texts, values⟩ := weave_parts fragments embedded
    have sub {l : List Position} (h : l.Sublist (places (weave fragments embedded))) :
        l.Sublist (places ([.expr callee] ++ weave fragments embedded ++ [.place pos])) := by
      simpa using (h.trans (List.sublist_append_left _ [pos])).cons _
    obtain ⟨first, found, run⟩ := listArgument_run fragments pos c (by simp) (sub texts)
    obtain ⟨second, found', run'⟩ :=
      listArgument_run embedded pos { c with nextId := c.nextId + 1 } (by simp) (sub values)
    rw [runs_bind, runs_of_eq run, runs_bind, runs_of_eq run', runs_node]
    refine ⟨⟨(Cursor.From.refl ready).congr rfl rfl rfl, fun h => absurd h Bool.false_ne_true, ?_⟩,
      .inl (Nat.le_refl _)⟩
    refine .single (.form (.template ?_ hc.1 (by simp) found found'))
    simp [codes_weave]

/-! ## Primary expressions -/

omit hr in
theorem moreItems_builds {α : Type} {item : Parser α} {A : α → List Workpiece} (first : α)
    (code : ∀ a, codes (A a) = A a)
    (h : Strides C n [] item A) : Proceeds C n (A first) (moreItems item first) (·.flatMap A) := by
  refine BuildsIf.bind (A := (·.flatMap A)) (P := fun _ => True) (M := fun _ => false) ?_
    fun items _ => andThen (builds_expect rfl) fun _ _ => builds_pure (by simp [codes_flatMap code]) trivial rfl
  refine BuildsIf.of_eq (builds_iterate (fun items : List α => items.reverse.flatMap A) (fun _ => True) trivial rfl
    fun items _ => ?_) (by simp)
  refine andThen builds_newlines fun _ _ => taking (builds_take rfl) ?_ (builds_pure ?_ trivial rfl)
  · refine andThen builds_newlines fun _ _ => builds_atKind fun close => ?_
    refine builds_ite (fun _ => builds_pure ?_ trivial rfl) fun _ => ?_
    · simp [codes_flatMap code]
    · exact andThen h.any fun item _ => builds_pure (by simp [codes_flatMap code, code]) trivial rfl
  · simp [codes_flatMap code]

theorem collection_builds (native : Bool) :
    Builds C (fun _ => false) n [] (collection r native) (·.StandsAt 9) fun e => [.expr e] := by
  refine builds_previous fun opening _ => andThen builds_newlines fun _ _ => ?_
  refine builds_atKind fun colon =>
    builds_peekNext [.rightBracket] rfl (fun t u h => by simp only [h .rightBracket (by simp)])
    fun next => builds_ite (fun h => ?_) fun _ => BuildsIf.any ?_
  · rw [Bool.and_eq_true] at h
    refine builds_advance_advance (fun c hc => ⟨TokenKind.isPlain_of_beq (hc.1.2.trans h.1) rfl, ?_⟩) fun _ => ?_
    · rw [hc.2]
      exact TokenKind.isPlain_of_beq h.2 rfl
    · exact builds_spanFrom (by simp) fun pos _ => builds_nodeAt rfl trivial (by simp) (Nat.le_refl _) rfl
  refine taking (builds_take rfl) (builds_spanFrom (by simp) fun pos _ => ?_) ?_
  · exact builds_nodeAt rfl trivial (by simp) (Nat.le_refl _) rfl
  refine andThen hr.expression fun first _ => taking (builds_take rfl) ?_ ?_
  · refine andThen builds_newlines fun _ _ => andThen hr.expression fun value _ => ?_
    have entry : Strides C n [] (do
        let key ← r.expression
        let _ ← expect .colon "`:` after map key"
        newlines
        return (⟨key, ← r.expression⟩ : Entry)) (·.pieces) := by
      refine reading hr.expression fun key _ => andThen (builds_expect rfl) fun _ _ => ?_
      refine andThen builds_newlines fun _ _ => andThen hr.expression fun value _ => ?_
      exact builds_pure rfl trivial rfl
    have items := moreItems_builds (A := Entry.pieces) ⟨first, value⟩ (fun _ => rfl) entry
    refine BuildsIf.bind ((items.frame [.place opening.pos]).of_eq (by simp [Entry.pieces])) fun entries _ => ?_
    refine builds_spanFrom (by simp) fun pos _ => ?_
    exact builds_nodeAt (by simp [ExprKind.pieces]) trivial (by simp) (Nat.le_refl _) rfl
  · have items := moreItems_builds (A := fun e => [.expr e]) first (fun _ => rfl) hr.expression.plain
    refine BuildsIf.bind ((items.frame [.place opening.pos]).of_eq (by simp)) fun items _ => ?_
    refine builds_spanFrom (by simp) fun pos _ => ?_
    exact builds_nodeAt (by simp [ExprKind.pieces]) trivial (by simp) (Nat.le_refl _) rfl

theorem condition_builds (keyword : String) : Strides C n [] (condition r keyword) fun e => [.expr e] := by
  refine reading (builds_expect rfl) fun _ _ => andThen builds_newlines fun _ _ => ?_
  refine andThen hr.expression fun cond _ => andThen builds_newlines fun _ _ => ?_
  refine andThen (builds_expect rfl) fun _ _ => andThen builds_newlines fun _ _ => ?_
  exact builds_pure rfl trivial rfl

theorem ternary_builds : StridesAt C n 9 (ternary r) := by
  refine builds_previous fun keyword _ => reading (condition_builds hr _) fun cond _ => ?_
  refine andThen hr.expression fun yes _ => andThen (builds_takeOnNextLine rfl) fun otherwise _ => ?_
  refine builds_ite (fun _ => ?_) fun _ => builds_fail rfl
  refine andThen builds_newlines fun _ _ => andThen hr.expression fun no _ => ?_
  exact builds_spanFrom (by simp) fun pos _ => builds_nodeAt rfl trivial (by simp) (Nat.le_refl _) rfl

theorem arm_builds : Strides C n [] (arm r) (·.pieces) := by
  refine andThen (builds_take rfl) fun isDefault _ => builds_ite (fun _ => builds_pure_bind ?_) fun _ => ?_
  · refine reading (builds_expect rfl) fun _ _ => andThen builds_newlines fun _ _ => ?_
    exact andThen hr.statement fun s _ => builds_pure rfl trivial rfl
  · refine reading hr.expression fun e _ => builds_pure_bind ?_
    refine andThen (builds_expect rfl) fun _ _ => andThen builds_newlines fun _ _ => ?_
    exact andThen hr.statement fun s _ => builds_pure rfl trivial rfl

theorem choice_builds : StridesAt C n 9 (choice r) := by
  refine builds_previous fun keyword _ => reading (condition_builds hr _) fun target _ => ?_
  refine andThen (builds_expect rfl) fun _ _ => andThen builds_newlines fun _ _ => ?_
  refine andThen (builds_itemsUntil (by simp [Case.pieces]) (arm_builds hr)) fun arms _ => ?_
  refine andThen (builds_expect rfl) fun _ _ => builds_spanFrom (by simp) fun pos _ => ?_
  exact builds_nodeAt (by simp [ExprKind.pieces]) trivial (by simp) (Nat.le_refl _) rfl

theorem primary_builds : StridesAt C (n + 1) 9 (primary r) := by
  refine builds_peek fun token known => ?_
  have at_ (c : Cursor) (hc : True ∧ c.peek = token) : c.peek = token := hc.2
  have leaf {t : TokenKind} {kind : ExprKind} (found : token.kind = t) (plain : t.isPlain = true)
      (parts : kind.pieces = []) (layered : kind.Layered) (ht : 9 ≤ kind.tier) :
      BuildsIf C (fun c => True ∧ c.peek = token) (fun _ => true) (n + 1) [] (advance *> node kind token.pos)
        (·.StandsAt 9) fun e => [.expr e] := by
    rw [seqRight_eq_bind]
    exact builds_token at_ (found ▸ plain) (Nat.le_refl _)
      ((builds_name parts layered ht).mono (fun _ h => h.1) fun _ => id)
  have behind {t : TokenKind} {p : Parser Expr} {m : Expr → Bool} (found : token.kind = t) (plain : t.isPlain = true)
      (hp : BuildsIf C (fun c => c.previous = token) m n [] p (·.StandsAt 9) fun e => [.expr e]) :
      BuildsIf C (fun c => True ∧ c.peek = token) (fun _ => true) (n + 1) [] (advance *> p)
        (·.StandsAt 9) fun e => [.expr e] := by
    rw [seqRight_eq_bind]
    exact builds_token at_ (found ▸ plain) (Nat.le_refl _) (hp.loosen.besides rfl)
  have named : BuildsIf C (fun c => True ∧ c.peek = token) (fun _ => true) (n + 1) [] (do
      let path ← path
      node (.path path) (← spanFrom token)) (·.StandsAt 9) fun e => [.expr e] :=
    BuildsIf.starting at_ path_builds.any fun path _ => builds_spanFrom (by simp) fun pos _ =>
      builds_nodeAt rfl trivial (by simp) (Nat.le_refl _) rfl
  split <;> rename_i h
  · exact leaf h rfl rfl trivial (Nat.le_refl _)
  · exact leaf h rfl rfl trivial (Nat.le_refl _)
  · exact leaf h rfl rfl trivial (Nat.le_refl _)
  · exact leaf h rfl rfl trivial (Nat.le_refl _)
  · exact string_builds h
  · exact named
  · exact named
  · exact leaf h rfl rfl trivial (Nat.le_refl _)
  · exact leaf h rfl rfl trivial (Nat.le_refl _)
  · exact leaf h rfl rfl trivial (Nat.le_refl _)
  · refine builds_token at_ (by rw [h]; rfl) (Nat.le_refl _) (andThen (builds_expect rfl) fun _ _ => ?_)
    refine andThen builds_newlines fun _ _ => andThen (builds_expect rfl) fun method _ => ?_
    exact builds_span (by simp) (by simp) rfl trivial (Nat.le_refl _) rfl
  · exact interpolated_builds hr h
  · rw [seqRight_eq_bind]
    exact builds_token at_ (by rw [h]; rfl) (Nat.le_refl _) (taggedTemplate_builds hr token).loosen.any
  · refine builds_token at_ (by rw [h]; rfl) (Nat.le_refl _) (andThen builds_newlines fun _ _ => ?_)
    refine andThen hr.expression fun inner _ => andThen builds_newlines fun _ _ => ?_
    exact andThen (builds_expect rfl) fun close _ => builds_span (by simp) (by simp) rfl trivial (Nat.le_refl _) rfl
  · refine builds_token at_ (by rw [h]; rfl) (Nat.le_refl _) (andThen (builds_expect rfl) fun _ _ => ?_)
    exact BuildsIf.alone (collection_builds hr true) rfl
  · exact behind h rfl (collection_builds hr false).any
  · exact behind h rfl (shortLambda_builds hr).any
  · refine builds_token at_ (by rw [h]; rfl) (Nat.le_refl _) ?_
    refine andThen (function_builds hr true []).any fun func _ =>
      builds_nodeAt rfl trivial (by simp) (Nat.le_refl _) rfl
  · exact behind h rfl (ternary_builds hr).any
  · exact behind h rfl (choice_builds hr).any
  all_goals exact builds_failAt known rfl

/-! ## Operators -/

theorem call_builds : StridesAt C (n + 1) 9 (call r) :=
  entering (K := []) (primary_builds hr) fun _ he => builds_iterate (fun e => [.expr e]) ((·.StandsAt 9)) he rfl
    fun _ he => postfixStep_builds hr he

omit hr in
theorem isPlain_of_prefixOp? {kind : TokenKind} {op : UnaryOp} (h : prefixOp? kind = some op) :
    kind.isPlain = true := by
  unfold prefixOp? at h
  split at h <;> cases h <;> rfl

omit hr in
theorem postfixOp?_step {kind : TokenKind} {op : UnaryOp} (h : postfixOp? kind = some op) :
    kind.isPlain = true ∧ (op = .increment ∨ op = .decrement) := by
  unfold postfixOp? at h
  split at h <;> cases h <;> simp [TokenKind.isPlain]

theorem unary_builds : StridesAt C (n + 1) 8 (unary r) := by
  refine builds_peek fun token _ => ?_
  cases h : prefixOp? token.kind with
  | some op =>
    refine builds_token (fun c hc => hc.2) (isPlain_of_prefixOp? h) (Nat.le_refl _) ?_
    refine andThen builds_newlines fun _ _ => andThen hr.unary fun operand ho => ?_
    exact builds_span (by simp) (by simp) rfl ho (Nat.le_refl _) rfl
  | none =>
    refine reading (call_builds hr).any fun operand ho => builds_peek fun token _ => ?_
    cases h : postfixOp? token.kind with
    | some op =>
      refine builds_token (fun c hc => hc.2) (postfixOp?_step h).1 (Nat.le_succ _) ?_
      exact builds_span (by simp) (by simp) rfl ⟨ho, (postfixOp?_step h).2⟩ (Nat.le_refl _) rfl
    | none => exact builds_pure rfl (ho.mono (Nat.le_succ 8)) rfl

omit hr in
theorem pipeInto_builds {operator : Token} (known : C.Knows operator) (input stage : Expr) :
    Builds C (fun _ => false) n ([.expr input] ++ [.expr stage]) (pipeInto operator input stage) (·.StandsAt 8)
      fun e => [.expr e] := by
  obtain ⟨id, pos, kind⟩ := stage
  unfold pipeInto
  dsimp only
  split
  · exact builds_nodeBy (fun _ same _ => .inl (same ▸ Nat.le_succ 8)) fun _ => .call rfl
  · refine ⟨fun s c ready _ => ?_, fun _ c _ fits _ => (Spans.bind spans_node fun _ => Spans.bind spans_node fun _ =>
      spans_node.loosen) c fits⟩
    rw [runs_bind, runs_node, runs_bind, runs_node, runs_node]
    exact ⟨⟨(Cursor.From.refl ready).congr rfl rfl rfl, fun h => absurd h Bool.false_ne_true,
      .single (.form (.lambda rfl))⟩, .inl (Nat.le_succ 8)⟩
  · exact builds_failAt known rfl

theorem pipe_builds : StridesAt C (n + 1) 8 (pipe r) := by
  refine reading (unary_builds hr) fun e he => ?_
  refine builds_iterate (fun e => [.expr e]) ((·.StandsAt 8)) he rfl fun input he => ?_
  refine builds_atKind fun piped => builds_ite (fun h => ?_) fun _ => builds_pure rfl he rfl
  refine reading (builds_advance fun c hc => TokenKind.isPlain_of_beq (hc.2.trans h) rfl) fun operator known => ?_
  refine BuildsIf.besides (andThen builds_newlines fun _ _ => andThen (unary_builds hr) fun stage _ => ?_) rfl
  exact BuildsIf.bind (pipeInto_builds known input stage) fun e he => builds_pure rfl he rfl

/-- An infix operator of a tier joins a left operand of its tier with a tighter right one. -/
def Joints (tier : Nat) (joint? : TokenKind → Option Joint) : Prop :=
  ∀ kind joint, joint? kind = some joint → kind.isPlain = true ∧ ∀ lhs rhs,
    (joint lhs rhs).pieces = [.expr lhs, .expr rhs] ∧ (joint lhs rhs).isName = false ∧ tier ≤ (joint lhs rhs).tier ∧
      (lhs.StandsAt tier → rhs.StandsAt (tier + 1) → (joint lhs rhs).Layered)

section
omit hr
variable {tier : Nat} {joint? : TokenKind → Option Joint} {operand : Parser Expr}

theorem chainFrom_builds (hj : Joints tier joint?) (ho : StridesAt C n (tier + 1) operand) {first : Expr}
    (h : first.StandsAt tier) :
    Builds C (fun _ => false) n [.expr first] (chainFrom joint? operand first) (·.StandsAt tier)
      fun e => [.expr e] := by
  refine builds_iterate (fun e => [.expr e]) ((·.StandsAt tier)) h rfl fun lhs hl => builds_peek fun token _ => ?_
  cases h : joint? token.kind with
  | none => exact builds_pure rfl hl rfl
  | some joint =>
    obtain ⟨plain, parts⟩ := hj _ _ h
    refine builds_token (fun c hc => hc.2) plain (Nat.le_succ _) ?_
    refine andThen builds_newlines fun _ _ => andThen ho fun rhs hr => ?_
    obtain ⟨parts, other, ht, layered⟩ := parts lhs rhs
    refine BuildsIf.bind (builds_span (by simp) (by simp) (by simp [parts]) (layered hl hr) ht other) fun e he => ?_
    exact builds_pure rfl he rfl

theorem chain_builds (hj : Joints tier joint?) (ho : StridesAt C n (tier + 1) operand) :
    StridesAt C n tier (chain joint? operand) :=
  reading ho fun _ h => chainFrom_builds hj ho (h.mono (Nat.le_succ tier))

theorem binaryJoint_parts {op : BinaryOp} (h : op.tier = tier) (lhs rhs : Expr) :
    (binaryJoint op lhs rhs).pieces = [.expr lhs, .expr rhs] ∧ (binaryJoint op lhs rhs).isName = false ∧
      tier ≤ (binaryJoint op lhs rhs).tier ∧
      (lhs.StandsAt tier → rhs.StandsAt (tier + 1) → (binaryJoint op lhs rhs).Layered) := by
  subst h
  exact ⟨rfl, rfl, Nat.le_refl _, fun hl hr => ⟨hl, .inr hr⟩⟩

theorem rangeJoint?_joints : Joints 7 rangeJoint? := by
  intro kind joint h
  unfold rangeJoint? at h
  split at h <;> cases h
  exact ⟨rfl, fun _ _ => ⟨rfl, rfl, Nat.le_refl _, fun hl hr => ⟨hl, hr⟩⟩⟩

theorem factorJoint?_joints : Joints 6 factorJoint? := by
  intro kind joint h
  unfold factorJoint? at h
  split at h <;> cases h
  all_goals exact ⟨rfl, binaryJoint_parts rfl⟩

theorem termJoint?_joints : Joints 5 termJoint? := by
  intro kind joint h
  unfold termJoint? at h
  split at h <;> cases h
  all_goals exact ⟨rfl, binaryJoint_parts rfl⟩

theorem comparisonJoint?_joints : Joints 4 comparisonJoint? := by
  intro kind joint h
  unfold comparisonJoint? at h
  split at h <;> cases h
  all_goals exact ⟨rfl, binaryJoint_parts rfl⟩

theorem equalityJoint?_joints : Joints 3 equalityJoint? := by
  intro kind joint h
  unfold equalityJoint? at h
  split at h <;> cases h
  all_goals exact ⟨rfl, binaryJoint_parts rfl⟩

theorem andJoint?_joints : Joints 2 andJoint? := by
  intro kind joint h
  unfold andJoint? at h
  split at h <;> cases h
  exact ⟨rfl, fun _ _ => ⟨rfl, rfl, Nat.le_refl _, fun hl hr => ⟨hl, hr⟩⟩⟩

theorem orJoint?_joints : Joints 1 orJoint? := by
  intro kind joint h
  unfold orJoint? at h
  split at h <;> cases h
  exact ⟨rfl, fun _ _ => ⟨rfl, rfl, Nat.le_refl _, fun hl hr => ⟨hl, hr⟩⟩⟩

end

theorem addition_builds : StridesAt C (n + 1) 5 (addition r) :=
  chain_builds termJoint?_joints (chain_builds factorJoint?_joints (chain_builds rangeJoint?_joints (pipe_builds hr)))

theorem comparison_builds : StridesAt C (n + 1) 4 (comparison r) := by
  refine reading (addition_builds hr) fun first hf => taking (builds_take rfl) ?_ ?_
  · refine andThen (typePath_builds hr true) fun type _ => builds_previous fun last _ => ?_
    exact builds_span (by simp) (by simp) rfl hf (Nat.le_refl _) rfl
  · exact chainFrom_builds comparisonJoint?_joints (addition_builds hr) (hf.mono (Nat.le_succ 4))

theorem disjunction_builds : StridesAt C (n + 1) 1 (disjunction r) :=
  chain_builds orJoint?_joints
    (chain_builds andJoint?_joints (chain_builds equalityJoint?_joints (comparison_builds hr)))

/-! ## Assignment -/

theorem finishAssignment_builds {operator : Token} (known : C.Knows operator) (compound : Bool) (target : Expr) :
    Builds C (fun _ => false) n [.expr target] (finishAssignment r operator compound target) (·.StandsAt 0)
      fun e => [.expr e] := by
  refine andThen builds_newlines fun _ _ => andThen hr.expression fun value _ => ?_
  cases compound with
  | false =>
    refine builds_pure_bind ?_
    dsimp only
    cases h : assignment? target value with
    | none => exact builds_failAt known rfl
    | some kind =>
      refine BuildsIf.spanning (a := target.pos) (b := value.pos) ?_ (by simp) (by simp)
      exact builds_nodeBy (fun _ _ _ => .inl (Nat.zero_le _)) fun _ => .assignment rfl h (by simp)
  | true =>
    refine BuildsIf.spanning (a := target.pos) (b := value.pos) ?_ (by simp) (by simp)
    refine BuildsIf.spanning (a := target.pos) (b := target.pos.merge value.pos) ?_ (by simp) (by simp)
    refine ⟨fun s c ready _ => ?_, fun Z c _ fits _ => Spans.bind spans_node (fun total => ?_) c fits⟩
    case refine_2 =>
      dsimp only
      split
      · exact spans_node.loosen
      · exact tight_failAt.grows
    rw [if_pos rfl, runs_bind, sum, runs_node]
    dsimp only
    cases h : assignment? target ⟨c.nextId, target.pos.merge value.pos, .binary target .add value⟩ with
    | none => exact ⟨⟨operator, known, rfl⟩, fun stalled => by cases stalled⟩
    | some kind =>
      exact ⟨⟨(Cursor.From.refl ready).congr rfl rfl rfl, fun h => absurd h Bool.false_ne_true,
        .single (.form (.compound rfl rfl h (by simp) (by simp)))⟩, .inl (Nat.zero_le _)⟩

theorem expression_builds : StridesAt C (n + 1) 0 (expression r) := by
  refine entering (disjunction_builds hr) fun target _ => builds_peek fun token _ => ?_
  split <;> rename_i h
  · refine andThen (builds_advance fun c hc => by rw [hc.2, h]; rfl) fun operator known => ?_
    exact BuildsIf.besides (finishAssignment_builds hr known false target) rfl
  · refine andThen (builds_advance fun c hc => by rw [hc.2, h]; rfl) fun operator known => ?_
    exact BuildsIf.besides (finishAssignment_builds hr known true target) rfl
  · exact builds_pure rfl (.inl (Nat.zero_le _)) rfl

end

end PhaseLang.Grammar
