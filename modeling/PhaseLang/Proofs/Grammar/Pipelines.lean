import PhaseLang.Proofs.Grammar.AgreementDeclarations
import PhaseLang.Proofs.Grammar.ExtensionExpressions
import PhaseLang.Proofs.Grammar.Marks
import PhaseLang.Proofs.Grammar.Operators

/-!
# Pipelines

`input |> stage |> stage` is a fold from the left. Each stage is read by the rule for operands, which
does not take the operator behind it unless the operand ends with an `else` branch. So a stage is read
as it is by itself, in other places and with other ids, and then takes what comes before it as its last
argument, or as its only one if it is a lambda.
-/

namespace PhaseLang

variable {input e : Expr} {c d : Cursor} {r : Rules}

/-! ## Expressions but for positions and ids -/

/-- Neither ids nor places are kept. -/
def Sketch.bare : Sketch := ⟨fun _ => 0, fun _ => 0⟩

/-- The same expression, but for positions and ids. -/
def Expr.Alike (e e' : Expr) : Prop := Sketch.bare.expr e = Sketch.bare.expr e'

mutual

def Expr.endsInBranch : Expr → Bool
  | ⟨_, _, kind⟩ => kind.endsInBranch

def ExprKind.endsInBranch : ExprKind → Bool
  | .ternary _ _ _ => true
  | .assign _ value | .set _ _ value | .indexSet _ _ value => value.endsInBranch
  | .binary _ _ rhs | .logical _ _ rhs | .range _ rhs => rhs.endsInBranch
  | .unary _ operand true => operand.endsInBranch
  | _ => false

end

mutual

theorem Sketch.endsInBranch_expr (v : Sketch) : ∀ e : Expr, (v.expr e).endsInBranch = e.endsInBranch
  | ⟨_, _, kind⟩ => by
    exact v.endsInBranch_exprKind kind

theorem Sketch.endsInBranch_exprKind (v : Sketch) : ∀ kind : ExprKind,
    (v.exprKind kind).endsInBranch = kind.endsInBranch
  | .assign _ value => by
    exact v.endsInBranch_expr value
  | .set _ _ value => by
    exact v.endsInBranch_expr value
  | .indexSet _ _ value => by
    exact v.endsInBranch_expr value
  | .binary _ _ rhs => by
    exact v.endsInBranch_expr rhs
  | .logical _ _ rhs => by
    exact v.endsInBranch_expr rhs
  | .range _ rhs => by
    exact v.endsInBranch_expr rhs
  | .unary _ operand true => by
    exact v.endsInBranch_expr operand
  | .unary _ _ false => rfl
  | .attribute _ _ | .isType _ _ | .call _ _ | .get _ _ | .indexGet _ _ | .ternary _ _ _ | .super _ | .path _ | .this
  | .static | .group _ | .literal _ | .list _ _ | .map _ _ | .lambda _ | .ident _ | .choose _ _ => rfl

end

/-! ## Input for a stage -/

/-- The input as the last argument of a call, or as the only one of a lambda. -/
def Expr.feed? (input stage : Expr) : Option Expr :=
  match stage.kind with
  | .call callee args => some ⟨0, stage.pos, .call callee (args ++ [⟨none, input⟩])⟩
  | .lambda func =>
    some ⟨0, stage.pos, .call ⟨0, stage.pos, .group ⟨0, stage.pos, .lambda func⟩⟩ [⟨none, input⟩]⟩
  | _ => none

theorem Expr.feed?_bare (input stage : Expr) :
    (Sketch.bare.expr input).feed? (Sketch.bare.expr stage) = (input.feed? stage).map Sketch.bare.expr := by
  obtain ⟨_, _, kind⟩ := stage
  cases kind <;> simp [Expr.feed?, Sketch.expr, Sketch.arg, Sketch.bare]

theorem Expr.Alike.feed? {input' stage stage' : Expr} (hi : input'.Alike input) (hs : stage'.Alike stage) :
    (input'.feed? stage').map Sketch.bare.expr = (input.feed? stage).map Sketch.bare.expr := by
  rw [← Expr.feed?_bare, ← Expr.feed?_bare, hi, hs]

/-! ## Operands before a pipe -/

/-- A cursor over the row, with its marks as they are at the top of a file. -/
structure Cursor.InFile (row : List Token) (c : Cursor) : Prop where
  inRow : c.Over row
  inNamespace : c.inNamespace = false ∨ c.rest = []
  inInterface : c.inInterface = false

theorem Cursor.InFile.clear {row : List Token} (h : c.InFile row) (more : c.rest ≠ []) :
    c.inNamespace = false ∧ c.inInterface = false :=
  ⟨h.inNamespace.resolve_right more, h.inInterface⟩

theorem Cursor.InFile.advance {row : List Token} (h : c.InFile row) : c.advance.InFile row := by
  refine ⟨h.inRow.advance, ?_, ?_⟩
  all_goals
    unfold Cursor.advance
    split
  · exact h.inNamespace
  · rename_i rest
    exact .inl (h.inNamespace.resolve_right (by simp [rest]))
  all_goals exact h.inInterface

theorem Cursor.InFile.keep {row : List Token} {n : Nat} (h : c.InFile row)
    (read : Grammar.unary (.upTo n) c = .ok (e, d)) : d.InFile row := by
  have built := (Grammar.unary_builds (Rules.upTo_over row n)).lays [] c (Course.along_ready.mpr h.inRow) trivial
  have laid := ((Parser.runs_of_eq read).mp built).1
  have meets : Outlook.Meets ⟨false, false, false⟩ [] c := by
    refine ⟨_, rfl, h.inInterface, ?_⟩
    cases mark : c.inNamespace with
    | false => exact .inl rfl
    | true => exact .inr ⟨h.inNamespace.resolve_left (by simp [mark]), rfl⟩
  obtain ⟨o, leads, inInterface, inNamespace⟩ :=
    laid.steps.keep (fun step h => step.meets (by simp [Outlook.Fair]) h) meets
  obtain ⟨rfl, -⟩ := leads.parts (by simp [Workpiece.isPart])
  exact ⟨Course.along_ready.mp laid.way.ready, inNamespace.imp_right (·.1), inInterface⟩

namespace Grammar

open PhaseLang.Parser

theorem peek_ne_eof (eof : c.eof.kind = .eof) (other : c.peek.kind ≠ .eof) : c.rest ≠ [] := by
  intro ended
  simp [Cursor.peek, ended, eof] at other

theorem postfixStep_last (eof : c.eof.kind = .eof) :
    wp (postfixStep r e) (fun step d => ∀ e', step = .done e' → e' = e ∧ (d = c ∨ d.rest ≠ [])) c := by
  have again (p : Parser Expr) (d : Cursor) :
      wp (do return (.again (← p) : Round Expr Expr))
        (fun step d => ∀ e', step = .done e' → e' = e ∧ (d = c ∨ d.rest ≠ [])) d := by
    rw [wp_bind]
    intro b d _
    rw [wp_pure]
    nofun
  have line : wp continueLine (fun _ d => d = c ∨ d.rest ≠ []) c := by
    refine wp_continueLine.mpr ⟨fun more => .inr (peek_ne_eof (by simpa using eof) fun ended => ?_), fun _ => .inl rfl⟩
    simp [ended, TokenKind.isContinuation] at more
  unfold postfixStep
  rw [wp_bind]
  refine wp_mono line fun _ d ends => ?_
  rw [wp_bind, wp_peek]
  split
  · rw [wp_bind, wp_advance]
    exact again _ _
  · rw [wp_bind, wp_advance, wp_bind]
    exact fun f d _ => again _ _
  · rw [wp_bind, wp_advance, wp_bind, wp_newlines, wp_bind]
    exact fun f d _ => again _ _
  · rw [wp_bind, wp_advance]
    exact again _ _
  · rw [wp_pure]
    rintro _ ⟨⟩
    exact ⟨rfl, ends⟩

section
variable {Z : Tail} (behind : ∀ t ∈ Z.tokens.head?, t.kind = .pipe)
include behind

theorem peek_behind (fits : Z.Fits c) (ended : c.rest = []) :
    (c.extend Z).peek.kind = .pipe ∨ (c.extend Z).peek.kind = .eof := by
  cases tokens : Z.tokens with
  | nil => exact .inr (by simpa [Cursor.extend, Cursor.peek, ended, tokens] using fits.eof)
  | cons t ts => exact .inl (by simpa [Cursor.extend, Cursor.peek, ended, tokens] using behind t (by simp [tokens]))

variable {n : Nat} {r : Rules} (hr : r.Build .front n)
include hr

theorem postfixStep_spans (e : Expr) : Spans Z (postfixStep r e) := by
  intro c fits step d run
  have grown := postfixStep_grows hr e c fits step d run
  have last := postfixStep_last fits.eof step d run
  refine ⟨grown.suffix, grown.eof, fun _ => ?_, fun _ breaks => ?_⟩
  · cases step with
    | again e' => exact grown.same (.inl rfl)
    | done e' =>
      by_cases ended : d.rest = []
      · obtain ⟨rfl, rfl | more⟩ := last e' rfl
        · apply postfixStep_done
          rcases peek_behind behind fits ended with kind | kind <;> simp [kind]
        · exact absurd ended more
      · exact grown.same (.inr ended)
  · cases step with
    | again e' => exact grown.more rfl breaks
    | done e' =>
      obtain ⟨rfl, rfl | more⟩ := last e' rfl
      · exact breaks.filled
      · exact more

theorem call_grows : Grows Z (fun e => !e.kind.isTernary) (call r) := by
  refine (primary_grows hr).andThen (fun e => Grows.weaken ?_) fun e => ?_
  · exact Grows.iterate (fun _ => true) (postfixStep_spans behind hr) (.inl fun _ => rfl) e
  · cases ternary : e.kind.isTernary with
    | false => exact .inl rfl
    | true =>
      refine .inr fun c eof ended b d run => ?_
      rw [iterate_done (postfixStep_done (by simp [Cursor.peek, ended, eof]) e)] at run
      cases run
      simp [ternary]

theorem unary_grows (h : Grows Z (fun e => !e.endsInBranch) r.unary) (hungry : Hungry r.unary) :
    Grows Z (fun e => !e.endsInBranch) (unary r) := by
  refine unary_hungry.grows fun c fits filled => .peek filled ?_
  split
  · rename_i op sign
    have plain : c.peek.kind ≠ .newline := fun newline => by simp [newline, prefixOp?] at sign
    refine .advance fits filled plain (extends_newlines.andThen (fun _ => ?_) (fun _ => .inr hungry.bind.starves) _)
    refine h.andThen (fun operand => spans_node.weaken) fun operand => ?_
    cases branch : operand.endsInBranch with
    | false => exact .inl rfl
    | true => exact .inr fun c _ _ => by simp [Expr.endsInBranch, ExprKind.endsInBranch, branch]
  · refine (call_grows behind hr).andThen (fun operand => ?_) (fun operand => ?_) c fits
    · refine grows_peek (fun c fits ended => ?_) fun c fits filled => ?_
      · have last : c.peek.kind = .eof := by simpa [Cursor.peek, ended] using fits.eof
        rcases peek_behind behind fits ended with kind | kind <;> simp only [last, kind] <;> exact grows_pure c fits
      · split
        · rename_i op sign
          have plain : c.peek.kind ≠ .newline := fun newline => by simp [newline, postfixOp?] at sign
          exact .advance fits filled plain (spans_node.weaken _)
        · exact grows_pure c fits
    · cases ternary : operand.kind.isTernary with
      | false => exact .inl rfl
      | true =>
        refine .inr fun c eof ended => ?_
        have branch : operand.endsInBranch = true := by
          obtain ⟨_, _, kind⟩ := operand
          cases kind <;> simp_all [ExprKind.isTernary, Expr.endsInBranch, ExprKind.endsInBranch]
        rw [wp_bind, wp_peek, Cursor.peek, ended, List.headD_nil, eof]
        simp [postfixOp?, branch]

omit hr

theorem upTo_unary_grows : ∀ n, Grows Z (fun e => !e.endsInBranch) (Rules.upTo n).unary ∧ Hungry (Rules.upTo n).unary
  | 0 => ⟨tight_fail.grows, fun _ _ _ => wp_fail⟩
  | n + 1 => ⟨unary_grows behind (Rules.upTo_front n) (upTo_unary_grows n).1 (upTo_unary_grows n).2, unary_hungry⟩

end

/-! ## Rules of other depths -/

end Grammar

/-- Readings that differ in places and ids, by rules of any depths. -/
def Bond.deep : Bond := ⟨true, .bare, .bare, false, true⟩

theorem Bond.deep_cursors (rest : d.rest = c.rest) (eof : d.eof = c.eof) (inNamespace : d.inNamespace = c.inNamespace)
    (inInterface : d.inInterface = c.inInterface) : Bond.deep.Cursors c d := by
  have tokens (t : Token) : Bond.deep.Tokens t t := ⟨rfl, rfl, rfl, rfl, Bool.noConfusion⟩
  exact ⟨rfl, rest ▸ List.forall₂_same.mpr fun t _ => tokens t, eof ▸ tokens _, fun _ => inNamespace,
    fun _ => inInterface, fun _ => rfl⟩

/-- What a rule reads, the same rule of another depth reads, unless it stalls. -/
theorem Parser.Agrees.deepen {α : Type} {R : α → α → Prop} {p q : Parser α} (h : Agrees .deep R p q)
    {c' : Cursor} {a : α} (like : Bond.deep.Cursors c d) (run : p c = .ok (a, c')) (finishes : Finishes q d) :
    ∃ b d', q d = .ok (b, d') ∧ R a b ∧ Bond.deep.Cursors c' d' := by
  have outcomes := h c d like
  rw [run] at outcomes
  unfold Finishes ends at finishes
  cases found : q d with
  | error e =>
    rw [found] at outcomes finishes
    obtain lenient | ⟨-, stalled⟩ := outcomes
    · cases lenient
    · exact absurd stalled finishes
  | ok result =>
    rw [found] at outcomes
    exact ⟨_, _, rfl, outcomes.1, outcomes.2⟩

namespace Grammar

open PhaseLang.Parser

theorem unary_newline (newline : c.peek.kind = .newline) : wp (unary r) (fun _ _ => False) c := by
  unfold unary call primary
  simp [newline, prefixOp?]

/-- The tokens are an operand: the rule for operands reads all of them, by themselves, as the expression. -/
structure Operand (eof : Token) (ts : List Token) (e : Expr) : Prop where
  only : ∀ t ∈ ts, t.kind ≠ .eof
  read : ∃ id d, unary (.upTo (ts.length + 1)) (.ofRow ts eof id) = .ok (e, d) ∧ d.rest = []
  /-- What comes behind is not part of a branch. -/
  closed : e.endsInBranch = false

namespace Operand

variable {eof : Token} {ts : List Token} {e : Expr} (h : Operand eof ts e) (last : eof.kind = .eof)
include h last

theorem first : ∃ t ts', ts = t :: ts' ∧ t.kind ≠ .newline := by
  obtain ⟨id, d, run, -⟩ := h.read
  cases ts with
  | nil => exact (unary_hungry _ last rfl _ _ run).elim
  | cons t ts =>
    refine ⟨t, ts, rfl, fun newline => ?_⟩
    exact unary_newline (c := .ofRow (t :: ts) eof id) newline _ _ run

/-- In other surroundings the tokens are read as the same expression, up to the pipe behind them. -/
theorem read_again {more : List Token} (behind : ∀ t ∈ more.head?, t.kind = .pipe) {n : Nat} (deep : ts.length < n)
    {row : List Token} (rest : c.rest = ts ++ more) (ends : c.eof = eof) (file : c.InFile row) :
    runs (unary (.upTo n)) (fun e' d => e'.Alike e ∧ d.rest = more ∧ d.eof = eof ∧ d.InFile row)
      (fun _ => False) c := by
  obtain ⟨id, d₀, run₀, ended₀⟩ := h.read
  obtain ⟨t, ts', filled, -⟩ := h.first last
  obtain ⟨inNamespace, inInterface⟩ := file.clear (by simp [rest, filled])
  let Z : Tail := ⟨more, fun t ht => .inr (by simp [behind t ht, TokenKind.isContinuation])⟩
  let c' : Cursor := { c with rest := ts }
  have whole : c = c'.extend Z := by rw [Cursor.extend, ← rest]
  have eof' : c'.eof.kind = .eof := by rw [← last, ← ends]
  have finishes := (unary_builds (Rules.upTo_front n)).finishes (c := c') (Course.front_ready eof' h.only) trivial
    (Nat.lt_succ_of_lt deep)
  obtain ⟨e', d, run, ⟨same, -⟩, after⟩ := (unary_agrees (Rules.upTo_agrees_upTo rfl (ts.length + 1) n)).deepen
    (Bond.deep_cursors (c := .ofRow ts eof id) (d := c') rfl ends inNamespace inInterface) run₀ finishes
  replace same : e'.Alike e := same.symm
  have ended : d.rest = [] := by
    have tokens := after.rest
    rw [ended₀] at tokens
    exact List.forall₂_nil_left_iff.mp tokens
  have full : (!e'.endsInBranch) = true := by
    rw [← Sketch.bare.endsInBranch_expr e', same, Sketch.endsInBranch_expr, h.closed]
    rfl
  -- A line break at the end of the row would be left over.
  have solid : ¬ c'.Breaks := fun breaks =>
    (((upTo_unary_grows (Z := .none) (by simp [Tail.none]) (n + 1)).1 c' ⟨eof', h.only, .inl rfl⟩ e' d run).more full
      breaks) ended
  have fits : Z.Fits c' := ⟨eof', h.only, .inr fun t mem newline => solid ⟨t, mem, newline⟩⟩
  have grown := (upTo_unary_grows behind (n + 1)).1 c' fits e' d run
  have run' : unary (.upTo n) c = .ok (e', d.extend Z) := by
    rw [whole]
    exact grown.same (.inl full)
  rw [runs_of_eq run']
  exact ⟨same, by simp [Cursor.extend, ended, Z], grown.eof.trans ends, file.keep run'⟩

end Operand

/-! ## Folds -/

structure Stage where
  operator : Token
  tokens : List Token
  tree : Expr

def Stage.row (s : Stage) : List Token := s.operator :: s.tokens

structure Stage.Proper (eof : Token) (s : Stage) : Prop where
  operator : s.operator.kind = .pipe
  operand : Operand eof s.tokens s.tree

/-- A pipeline from the left, or the operator in front of the first stage that takes no input. -/
def pipeline (input : Expr) (stages : List Stage) : Except Token Expr :=
  stages.foldlM (fun input s => (input.feed? s.tree).elim (.error s.operator) .ok) input

theorem runs_pipeInto {t : Token} {stage : Expr} {Q : Expr → Cursor → Prop} {E : SyntaxError → Prop}
    (fed : ∀ e e' id, input.feed? stage = some e → e'.Alike e → Q e' { c with nextId := id })
    (unfed : input.feed? stage = none → E ⟨t.pos, .pipeTarget⟩) : runs (pipeInto t input stage) Q E c := by
  obtain ⟨id, pos, kind⟩ := stage
  cases kind
  case call callee args => exact fed _ _ _ rfl rfl
  case lambda func => exact fed _ _ _ rfl rfl
  all_goals exact unfed rfl

theorem pipeline_cons_of_some {fed : Expr} {s : Stage} (h : input.feed? s.tree = some fed) (left : List Stage) :
    pipeline input (s :: left) = pipeline fed left := by
  simp [pipeline, List.foldlM_cons, h, bind, Except.bind]

theorem pipeline_cons_of_none {s : Stage} (h : input.feed? s.tree = none) (left : List Stage) :
    pipeline input (s :: left) = .error s.operator := by
  simp [pipeline, List.foldlM_cons, h, bind, Except.bind]

/-- How a pipeline is read: to the end, as what it folds to. -/
structure Folded (eof : Token) (outcome : Except Token Expr) (e : Expr) (d : Cursor) : Prop where
  rest : d.rest = []
  eof : d.eof = eof
  tree : ∃ e', outcome = .ok e' ∧ e.Alike e'

/-- How it fails: at the operator. -/
def Blocked (outcome : Except Token Expr) (e : SyntaxError) : Prop :=
  ∃ t, outcome = .error t ∧ e = ⟨t.pos, .pipeTarget⟩

structure Ahead (eof : Token) (row : List Token) (n : Nat) (stages : List Stage) (c : Cursor) : Prop where
  proper : ∀ s ∈ stages, s.Proper eof
  rest : c.rest = stages.flatMap Stage.row
  eof : c.eof = eof
  file : c.InFile row
  deep : c.rest.length < n

theorem pipes_head {eof : Token} {stages : List Stage} (proper : ∀ s ∈ stages, s.Proper eof) :
    ∀ t ∈ (stages.flatMap Stage.row).head?, t.kind = .pipe := by
  cases stages with
  | nil => simp
  | cons s stages => simpa [Stage.row] using (proper s (by simp)).operator

section
variable {eof : Token} (last : eof.kind = .eof) {row : List Token} {n : Nat} {stages : List Stage}
include last

theorem Operand.ahead {ts : List Token} (h : Operand eof ts e) (proper : ∀ s ∈ stages, s.Proper eof)
    (rest : c.rest = ts ++ stages.flatMap Stage.row) (ends : c.eof = eof) (file : c.InFile row)
    (deep : c.rest.length < n) : ∃ e' d, unary (.upTo n) c = .ok (e', d) ∧ e'.Alike e ∧ Ahead eof row n stages d := by
  rw [rest, List.length_append] at deep
  have shallow : ts.length < n := by omega
  obtain ⟨e', d, run, same, left, ends, file⟩ :=
    (h.read_again last (pipes_head proper) shallow rest ends file).exists_ok
  exact ⟨e', d, run, same, proper, left, ends, file, by rw [left]; omega⟩

theorem Ahead.stage {s : Stage} (h : Ahead eof row n (s :: stages) c) :
    c.peek = s.operator ∧ ∃ stage d, unary (.upTo n) c.advance.skipNewlines = .ok (stage, d) ∧ stage.Alike s.tree ∧
      Ahead eof row n stages d ∧ d.rest.length < c.rest.length := by
  have operand := (h.proper s (by simp)).operand
  obtain ⟨t, ts', tokens, plain⟩ := operand.first last
  have rest : c.rest = s.operator :: (s.tokens ++ stages.flatMap Stage.row) := by simp [h.rest, Stage.row]
  have behind : c.advance.rest = s.tokens ++ stages.flatMap Stage.row := by rw [Cursor.advance, rest]
  have solid : c.advance.skipNewlines = c.advance :=
    Cursor.skipNewlines_of_ne (by simp [Cursor.peek, behind, tokens, plain])
  have deep : c.advance.rest.length < n := by
    have := h.deep
    rw [rest, List.length_cons] at this
    rw [behind]
    omega
  obtain ⟨stage, d, run, same, ahead⟩ := operand.ahead last (fun s' mem => h.proper s' (by simp [mem])) behind
    (c.advance_eof.trans h.eof) h.file.advance deep
  refine ⟨by simp [Cursor.peek, rest], stage, d, by rw [solid, run], same, ahead, ?_⟩
  rw [ahead.rest, rest, List.length_cons, List.length_append]
  omega

/-- The loop of the stages: what has been read is what the stages so far fold to. -/
theorem pipe_folded {ts : List Token} (first : Operand eof ts input) (proper : ∀ s ∈ stages, s.Proper eof)
    (rest : c.rest = ts ++ stages.flatMap Stage.row) (ends : c.eof = eof) (file : c.InFile row)
    (deep : c.rest.length < n) :
    runs (pipe (.upTo n)) (Folded eof (pipeline input stages)) (Blocked (pipeline input stages)) c := by
  obtain ⟨input', d, run, same, ahead⟩ := first.ahead last proper rest ends file deep
  unfold pipe
  rw [runs_bind, runs_of_eq run]
  refine runs_iterate_of_lt (I := fun acc c => ∃ input₁ left, pipeline input stages = pipeline input₁ left ∧
    acc.Alike input₁ ∧ Ahead eof row n left c) ⟨input, stages, rfl, same, ahead⟩ ?step
  rintro acc d ⟨input₁, left, folds, same, ahead⟩
  rw [folds, runs_bind, runs_atKind]
  cases left with
  | nil =>
    have done : (d.peek.kind == .pipe) = false := by simp [Cursor.peek, ahead.rest, ahead.eof, last]
    rw [done]
    exact ⟨by simpa using ahead.rest, ahead.eof, input₁, rfl, same⟩
  | cons s left =>
    obtain ⟨operator, stage, d', run, same', ahead', shorter⟩ := ahead.stage last
    have more : (d.peek.kind == .pipe) = true := by simp [operator, (ahead.proper s (by simp)).operator]
    have fed := same.feed? same'
    rw [more, if_pos rfl, runs_bind, runs_advance, operator, runs_bind, runs_newlines, runs_bind, runs_of_eq run,
      runs_bind]
    refine runs_pipeInto (fun e e' id taken like => ?_) fun refused => ?_
    · rw [taken, Option.map_some, eq_comm, Option.map_eq_some_iff] at fed
      obtain ⟨e₁, taken₁, like₁⟩ := fed
      obtain ⟨inRow, inNamespace, inInterface⟩ := ahead'.file
      exact ⟨shorter, e₁, left, pipeline_cons_of_some taken₁ left, like.trans like₁.symm, ahead'.proper, ahead'.rest,
        ahead'.eof, ⟨⟨inRow.previous, inRow.rest, inRow.eof⟩, inNamespace, inInterface⟩, ahead'.deep⟩
    · rw [refused, Option.map_none, eq_comm, Option.map_eq_none_iff] at fed
      exact ⟨s.operator, pipeline_cons_of_none fed left, rfl⟩

end

section
variable {Q : Expr → Cursor → Prop} {E : SyntaxError → Prop} {c : Cursor} (ended : ∀ e d, Q e d → d.peek.kind = .eof)
include ended

theorem chainFrom_ended (joint? : TokenKind → Option Joint) (none : joint? .eof = none) {operand : Parser Expr}
    (h : Q e d) : runs (chainFrom joint? operand e) Q E d := by
  have stop : chainFrom joint? operand e d = .ok (e, d) := by
    refine iterate_done ?_
    rw [← runs_eq_iff, runs_bind, runs_peek, ended e d h, none]
    exact ⟨rfl, rfl⟩
  rwa [runs_of_eq stop]

theorem chain_ended (joint? : TokenKind → Option Joint) (none : joint? .eof = none) {operand : Parser Expr}
    (h : runs operand Q E c) : runs (chain joint? operand) Q E c := by
  unfold chain
  rw [runs_bind]
  exact runs_mono h fun e d hd => chainFrom_ended ended joint? none hd

theorem expression_ended (h : runs (pipe r) Q E c) : runs (expression r) Q E c := by
  have sums :=
    chain_ended ended termJoint? rfl (chain_ended ended factorJoint? rfl (chain_ended ended rangeJoint? rfl h))
  have comparisons : runs (comparison r) Q E c := by
    unfold comparison
    rw [runs_bind]
    refine runs_mono sums fun e d hd => ?_
    rw [runs_bind, runs_take]
    exact ⟨fun found => by simp [ended e d hd] at found, fun _ => chainFrom_ended ended comparisonJoint? rfl hd⟩
  have choices := chain_ended ended orJoint? rfl (chain_ended ended andJoint? rfl
    (chain_ended ended equalityJoint? rfl comparisons))
  unfold expression
  rw [runs_bind]
  refine runs_mono choices fun e d hd => ?_
  rw [runs_bind, runs_peek, ended e d hd]
  exact hd

end

/-- A row of operands with pipes between them is read as what it folds to from the left, up to positions and ids:
each stage takes what is in front of it as its last argument. If a stage is neither a call nor a lambda, the pipe
in front of the first such stage is where it fails. -/
theorem expression_pipeline {eof : Token} (last : eof.kind = .eof) {ts : List Token} {input : Expr}
    (first : Operand eof ts input) (stages : List Stage) (proper : ∀ s ∈ stages, s.Proper eof) (nextId : Nat) :
    let row := ts ++ stages.flatMap Stage.row
    let result := expression (.upTo (row.length + 1)) (.ofRow row eof nextId)
    (∀ e, pipeline input stages = .ok e → ∃ e' d, result = .ok (e', d) ∧ d.rest = [] ∧ e'.Alike e) ∧
      ∀ t, pipeline input stages = .error t → result = .error ⟨t.pos, .pipeTarget⟩ := by
  intro row result
  have ended (e : Expr) (d : Cursor) (h : Folded eof (pipeline input stages) e d) : d.peek.kind = .eof := by
    rw [Cursor.peek, h.rest, List.headD_nil, h.eof, last]
  have only : ∀ t ∈ row, t.kind ≠ .eof := by
    intro t mem
    rcases List.mem_append.mp mem with mem | mem
    · exact first.only t mem
    · obtain ⟨s, hs, mem⟩ := List.mem_flatMap.mp mem
      rcases List.mem_cons.mp mem with rfl | mem
      · simp [(proper s hs).operator]
      · exact (proper s hs).operand.only t mem
  have inRow : (Cursor.ofRow row eof nextId).Over (row ++ [eof]) := Course.along_ready.mp
    (Cursor.ofTokens?_ready (by simpa using last) (fun _ mem => mem) (fun _ mem eof => ⟨mem, eof⟩)
      (Cursor.ofTokens?_row last only nextId))
  have file : (Cursor.ofRow row eof nextId).InFile (row ++ [eof]) := ⟨inRow, .inl rfl, rfl⟩
  have folded := expression_ended ended (pipe_folded last first proper rfl rfl file (Nat.lt_succ_self _))
  unfold runs at folded
  split at folded
  · rename_i e' d run
    obtain ⟨e, tree, same⟩ := folded.tree
    rw [tree]
    refine ⟨fun e₁ found => ?_, fun _ found => by cases found⟩
    cases found
    exact ⟨e', d, run, folded.rest, same⟩
  · rename_i err run
    obtain ⟨t, blocked, rfl⟩ := folded
    rw [blocked]
    refine ⟨fun _ found => (by cases found), fun t₁ found => ?_⟩
    cases found
    exact run

/-- `a |> f(1)` is `f(1, a)`, and `a |> f(1) |> b` fails at its second pipe. -/
theorem expression_pipeline_call_value :
    let a : Token := ⟨.identifier, "a", none, ⟨0, 1, "m"⟩⟩
    let pipe : Token := ⟨.pipe, "|>", none, ⟨2, 4, "m"⟩⟩
    let f : List Token := [⟨.identifier, "f", none, ⟨5, 6, "m"⟩⟩, ⟨.leftParen, "(", none, ⟨6, 7, "m"⟩⟩,
      ⟨.number, "1", none, ⟨7, 8, "m"⟩⟩, ⟨.rightParen, ")", none, ⟨8, 9, "m"⟩⟩]
    let pipe' : Token := ⟨.pipe, "|>", none, ⟨10, 12, "m"⟩⟩
    let b : Token := ⟨.identifier, "b", none, ⟨13, 14, "m"⟩⟩
    let eof : Token := ⟨.eof, "", none, ⟨14, 14, "m"⟩⟩
    (∃ e d, expression (.upTo 7) (.ofRow (a :: pipe :: f) eof 0) = .ok (e, d) ∧ d.rest = [] ∧
      e.Alike ⟨0, ⟨5, 9, "m"⟩, .call ⟨0, ⟨5, 6, "m"⟩, .ident "f"⟩
        [⟨none, ⟨1, ⟨7, 8, "m"⟩, .literal (.number "1")⟩⟩, ⟨none, ⟨0, ⟨0, 1, "m"⟩, .ident "a"⟩⟩]⟩) ∧
    expression (.upTo 9) (.ofRow (a :: pipe :: f ++ [pipe', b]) eof 0) = .error ⟨⟨10, 12, "m"⟩, .pipeTarget⟩ := by
  intro a pipe f pipe' b eof
  let stage : Stage := ⟨pipe, f, ⟨2, ⟨5, 9, "m"⟩, .call ⟨0, ⟨5, 6, "m"⟩, .ident "f"⟩
    [⟨none, ⟨1, ⟨7, 8, "m"⟩, .literal (.number "1")⟩⟩]⟩⟩
  let value : Stage := ⟨pipe', [b], ⟨0, b.pos, .ident "b"⟩⟩
  have first : Operand eof [a] ⟨0, a.pos, .ident "a"⟩ := ⟨by decide, ⟨0, _, rfl, rfl⟩, rfl⟩
  have proper : stage.Proper eof := ⟨rfl, by decide, ⟨0, _, rfl, rfl⟩, rfl⟩
  have proper' : value.Proper eof := ⟨rfl, by decide, ⟨0, _, rfl, rfl⟩, rfl⟩
  refine ⟨(expression_pipeline rfl first [stage] ?_ 0).1 _ rfl,
    (expression_pipeline rfl first [stage, value] ?_ 0).2 pipe' rfl⟩
  · simpa using proper
  · simpa using ⟨proper, proper'⟩

end Grammar

end PhaseLang
