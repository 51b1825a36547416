import PhaseLang.Proofs.Grammar.Continuations
import PhaseLang.Proofs.Token.Respacing

/-!
# Statements that go on with an operator

An expression statement may go on in the next line if that line starts with an operator. Whether it is
then read as on one line depends on what stands before the break: `parse_leading_operator` says that it is
after a chain of calls, and that the statement ends there after `++`, `--` or the type of an `is`.
-/

namespace PhaseLang

open PhaseLang.Parser

variable {pos : Position} {c : Cursor} {e : Expr}

namespace TokenKind

def declares : List TokenKind := [.useKw, .classKw, .interfaceKw, .traitKw, .enumKw, .namespaceKw]

def directs : List TokenKind :=
  [.varKw, .globalKw, .ifKw, .returnKw, .whileKw, .doKw, .forKw, .switchKw, .throwKw, .tryKw, .leftBrace]

end TokenKind

/-- What comes next can only be an expression statement. -/
structure Cursor.AtExpression (c : Cursor) : Prop where
  notDeclares : c.peek.kind ∉ TokenKind.declares
  notDirects : c.peek.kind ∉ TokenKind.directs
  list : c.peek.kind = .leftBracket → c.peekNext.kind ≠ .typeIdentifier ∧ c.peekNext.kind ≠ .colonColon
  lambda : c.peek.kind = .functionKw → c.peekNext.kind ≠ .identifier

def StmtKind.isExpr : StmtKind → Bool
  | .expr _ => true
  | _ => false

theorem Seam.only_broken (s : Seam) {front : List Token} (only : ∀ t ∈ front ++ s.operator :: s.more, t.kind ≠ .eof) :
    ∀ t ∈ front ++ s.newline :: s.operator :: s.more, t.kind ≠ .eof := by
  intro t mem
  rcases List.mem_append.mp mem with mem | mem
  · exact only t (List.mem_append_left _ mem)
  · rcases List.mem_cons.mp mem with rfl | mem
    · simp [s.breaks]
    · exact only t (List.mem_append_right _ mem)

namespace Grammar

/-! ## What expression statements start with -/

abbrev Bars (p : Parser Stmt) : Prop := Returns (fun s => s.kind.isExpr = false) p

theorem bars_pure {kind : StmtKind} (other : kind.isExpr = false) : Bars (return ⟨pos, kind⟩) :=
  fun _ => by rwa [wp_pure]

theorem bars_failAt (t : Token) (problem : SyntaxProblem) : Bars (failAt t problem) := fun _ => wp_failAt

section
variable {r : Rules}

theorem useDeclaration_bars (attributes : List Expr) : Bars (useDeclaration attributes) := by
  refine returns_bind fun keyword => returns_bind fun _ => returns_ite (returns_bind fun _ => ?_) ?_
  all_goals
    refine returns_bind fun _ => returns_bind fun _ => returns_bind fun _ =>
      returns_ite (returns_bind ?_) (returns_bind ?_)
    all_goals
      rintro ⟨segments, kind⟩
      dsimp only
      split
      · exact bars_failAt _ _
      · exact returns_bind fun _ => returns_bind fun _ => bars_pure rfl

theorem classDeclaration_bars (attributes : List Expr) : Bars (classDeclaration r attributes) := by
  repeat refine returns_bind fun _ => ?_
  exact bars_pure rfl

theorem interfaceDeclaration_bars (attributes : List Expr) : Bars (interfaceDeclaration r attributes) := by
  refine returns_bind fun _ => returns_bind fun _ => returns_bind fun _ =>
    returns_bind fun _ => returns_bind fun _ => ?_
  refine returns_ite (returns_bind fun _ => ?_) ?_
  all_goals
    repeat refine returns_bind fun _ => ?_
    exact bars_pure rfl

theorem traitDeclaration_bars (attributes : List Expr) : Bars (traitDeclaration r attributes) := by
  repeat refine returns_bind fun _ => ?_
  exact bars_pure rfl

theorem enumDeclaration_bars (attributes : List Expr) : Bars (enumDeclaration r attributes) := by
  refine returns_bind fun _ => returns_bind fun _ => returns_bind fun wrapped =>
    returns_bind fun _ => returns_bind fun _ => ?_
  cases wrapped
  all_goals
    repeat refine returns_bind fun _ => ?_
    exact bars_pure rfl

theorem namespaceDeclaration_bars : Bars (namespaceDeclaration r) := by
  refine returns_bind fun _ => returns_bind fun _ => returns_ite (returns_bind fun _ => ?_) ?_
  all_goals
    refine returns_bind fun _ => returns_bind fun _ => returns_bind fun _ => returns_ite ?_ ?_
    all_goals
      repeat refine returns_bind fun _ => ?_
      exact bars_pure rfl

theorem block_bars : Bars (block r) := by
  repeat refine returns_bind fun _ => ?_
  exact bars_pure rfl

theorem ifStatement_bars : Bars (ifStatement r) := by
  refine returns_bind fun _ => returns_bind fun _ => returns_bind fun _ => returns_bind fun _ => returns_ite ?_ ?_
  all_goals
    repeat refine returns_bind fun _ => ?_
    exact bars_pure rfl

theorem returnStatement_bars : Bars (returnStatement r) := by
  refine returns_bind fun _ => returns_bind fun _ => ?_
  split
  all_goals
    repeat refine returns_bind fun _ => ?_
    exact bars_pure rfl

theorem doStatement_bars : Bars (doStatement r) := by
  refine returns_bind fun _ => returns_bind fun _ => returns_bind fun _ => returns_bind fun _ => returns_ite ?_ ?_
  · repeat refine returns_bind fun _ => ?_
    exact bars_pure rfl
  · exact fun _ => wp_fail

theorem forStatement_bars : Bars (forStatement r) := by
  repeat refine returns_bind fun _ => ?_
  exact bars_pure rfl

theorem switchStatement_bars : Bars (switchStatement r) := by
  repeat refine returns_bind fun _ => ?_
  exact bars_pure rfl

theorem tryStatement_bars : Bars (tryStatement r) := by
  repeat refine returns_bind fun _ => ?_
  exact bars_pure rfl

theorem Bars.skip {p : Parser Stmt} (h : Bars p) {P : Prop} : wp p (fun s _ => s.kind.isExpr = true → P) c :=
  wp_mono (h c) fun s _ other is => by simp [other] at is

theorem statement_starts :
    wp (statement r) (fun s _ => s.kind.isExpr = true → c.peek.kind ∉ TokenKind.directs) c := by
  unfold statement
  rw [wp_bind, wp_peek]
  split
  case h_1 =>
    refine Bars.skip (returns_seq ?_)
    repeat refine returns_bind fun _ => ?_
    exact bars_pure rfl
  case h_2 =>
    exact Bars.skip (returns_seq (returns_bind fun _ => returns_bind fun _ => returns_bind fun _ => bars_pure rfl))
  case h_3 => exact Bars.skip (returns_seq ifStatement_bars)
  case h_4 => exact Bars.skip (returns_seq returnStatement_bars)
  case h_5 =>
    refine Bars.skip (returns_seq ?_)
    repeat refine returns_bind fun _ => ?_
    exact bars_pure rfl
  case h_6 => exact Bars.skip (returns_seq doStatement_bars)
  case h_7 => exact Bars.skip (returns_seq forStatement_bars)
  case h_8 => exact Bars.skip (returns_seq switchStatement_bars)
  case h_9 =>
    refine Bars.skip (returns_seq ?_)
    repeat refine returns_bind fun _ => ?_
    exact bars_pure rfl
  case h_10 => exact Bars.skip (returns_seq tryStatement_bars)
  case h_11 => exact Bars.skip (returns_seq block_bars)
  case h_12 =>
    intro s d run is
    simp_all [TokenKind.directs]

theorem separated_filled {α : Type} {p : Parser α} : Returns (· ≠ []) (separated p) := by
  intro c
  refine wp_iterate (I := fun _ _ => True) trivial fun xs c _ => ?_
  simp only [wp_bind, wp_newlines, wp_take]
  intro x d _
  simp

omit r in
theorem atAttributes_run (c : Cursor) : atAttributes c = .ok (c.peek.kind == .leftBracket &&
    (c.peekNext.kind == .typeIdentifier || c.peekNext.kind == .colonColon), c) := rfl

theorem attributes_none :
    wp (attributes r) (fun found d => found = [] → d = c ∧ atAttributes c = .ok (false, c)) c := by
  refine wp_iterate (I := fun found d => found = [] → d = c) (fun _ => rfl) fun found d same => ?_
  rw [wp_bind]
  intro more d₁ run
  have still : d₁ = d := by cases run; rfl
  subst still
  cases more with
  | false =>
    rw [if_neg Bool.false_ne_true, wp_pure]
    intro nothing
    obtain rfl := same nothing
    exact ⟨rfl, run⟩
  | true =>
    rw [if_pos rfl, wp_bind, wp_advance, wp_bind]
    intro entries d₂ run₂
    have filled : entries ≠ [] := separated_filled _ entries d₂ run₂
    simp [filled]

theorem declaration_starts :
    wp (declaration r) (fun s _ => s.kind.isExpr = true → c.AtExpression) c := by
  unfold declaration
  rw [wp_bind]
  refine wp_mono attributes_none fun found d none => ?_
  rw [wp_bind, wp_peek, wp_bind, wp_peekNext]
  split
  case h_1 => exact (useDeclaration_bars _).skip
  case h_2 => exact Bars.skip (returns_seq (classDeclaration_bars _))
  case h_3 => exact Bars.skip (returns_seq (interfaceDeclaration_bars _))
  case h_4 => exact Bars.skip (returns_seq (traitDeclaration_bars _))
  case h_5 => exact Bars.skip (returns_seq (enumDeclaration_bars _))
  case h_6 =>
    rw [wp_ite]
    refine ⟨fun _ => Bars.skip (returns_seq (returns_bind fun _ => bars_pure rfl)), fun noFunction => ?_⟩
    rw [wp_ite]
    refine ⟨fun _ => wp_failAt, fun nothing => ?_⟩
    obtain ⟨rfl, noList⟩ := none (by simpa using nothing)
    rw [wp_ite]
    refine ⟨fun _ => namespaceDeclaration_bars.skip, fun noNamespace => ?_⟩
    refine wp_mono statement_starts fun s _ directs is => ⟨?_, directs is, fun bracket => ?_, fun keyword => ?_⟩
    · simp_all [TokenKind.declares]
    · simpa [atAttributes_run, bracket] using noList
    · simpa [keyword] using noFunction

theorem statement_of_atExpression (h : c.peek.kind ∉ TokenKind.directs) :
    statement r c = expressionStatement r c := by
  unfold statement
  rw [run_bind (peek_run c)]
  generalize c.peek.kind = kind at h
  split
  case h_12 => rfl
  all_goals simp [TokenKind.directs] at h

theorem declaration_of_atExpression (h : c.AtExpression) : declaration r c = expressionStatement r c := by
  have noList : atAttributes c = .ok (false, c) := by
    rw [atAttributes_run]
    by_cases bracket : c.peek.kind = .leftBracket
    · simp [bracket, h.list bracket]
    · simp [bracket]
  have nothing : attributes r c = .ok ([], c) := iterate_done (by rw [run_bind noList]; rfl)
  have noFunction : (c.peek.kind == .functionKw && c.peekNext.kind == .identifier) = false := by
    by_cases keyword : c.peek.kind = .functionKw
    · simp [keyword, h.lambda keyword]
    · simp [keyword]
  have look : peekNext c = .ok (c.peekNext, c) := rfl
  have notDeclares := h.notDeclares
  unfold declaration
  rw [run_bind nothing, run_bind (peek_run c), run_bind look]
  generalize c.peek.kind = kind at noFunction notDeclares
  cases kind
  case useKw | classKw | interfaceKw | traitKw | enumKw | namespaceKw => simp [TokenKind.declares] at notDeclares
  all_goals
    dsimp only
    rw [noFunction]
    exact statement_of_atExpression h.notDirects

end

/-! ## Programs of one statement -/

section
variable {α : Type} {item : Parser α} {c d : Cursor} {x : α}

/-- The last items come first. -/
def Collected (item : Parser α) (c : Cursor) : List α → Cursor → Prop
  | [], d => d = c
  | [x], d => ∃ c', item c = .ok (x, c') ∧ d = c'.skipNewlines
  | _, _ => True

theorem of_itemsUntil_single (h : itemsUntil (fun _ => false) item c = .ok ([x], d)) :
    ∃ c', item c = .ok (x, c') ∧ d = c'.skipNewlines ∧ d.peek.kind = .eof := by
  have loop : wp (itemsUntil (fun _ => false) item)
      (fun found d => Collected item c found.reverse d ∧ d.peek.kind = .eof) c := by
    refine wp_iterate (I := Collected item c) rfl fun found d collected => ?_
    rw [wp_bind, wp_peek]
    rw [wp_ite, wp_pure]
    refine ⟨fun stop => ⟨by rwa [List.reverse_reverse], by simpa using stop⟩, fun _ => ?_⟩
    rw [wp_bind]
    intro x d₁ run
    rw [wp_bind, wp_newlines, wp_pure]
    cases found with
    | nil =>
      obtain rfl : d = c := collected
      exact ⟨d₁, run, rfl⟩
    | cons y found => trivial
  obtain ⟨⟨c', run, rfl⟩, stop⟩ := loop _ _ h
  exact ⟨c', run, rfl, stop⟩

theorem itemsUntil_of_single (filled : c.rest ≠ []) (more : c.peek.kind ≠ .eof) (run : item c = .ok (x, d))
    (stop : d.skipNewlines.peek.kind = .eof) : itemsUntil (fun _ => false) item c = .ok ([x], d.skipNewlines) := by
  have skip : newlines d = .ok ((), d.skipNewlines) := rfl
  have look : (get : Parser Cursor) c = .ok (c, c) := rfl
  unfold itemsUntil iterate
  rw [run_bind look, iterateFor, run_bind (a := .again [x]) (d := d.skipNewlines)]
  · refine iterateFor_done ?_ (List.length_pos_iff.mpr filled)
    rw [run_bind (peek_run _)]
    simp [stop]
    rfl
  · rw [run_bind (peek_run _)]
    rw [if_neg (by simpa using more), run_bind run, run_bind skip]
    rfl

end

theorem parse_eq_single {row : List Token} {eof : Token} (last : eof.kind = .eof) (only : ∀ t ∈ row, t.kind ≠ .eof)
    (filled : row ≠ []) (solid : ∀ t ∈ row.head?, t.kind ≠ .newline) (nextId : Nat) (s : Stmt) :
    (∃ next, parse (row ++ [eof]) nextId = .ok ([s], next)) ↔
      ∃ c, declaration (.upTo row.length) (.ofRow row eof nextId) = .ok (s, c) ∧ c.skipNewlines.peek.kind = .eof := by
  obtain ⟨t, ts, rfl⟩ := List.exists_cons_of_ne_nil filled
  have start : (Cursor.ofRow (t :: ts) eof nextId).peek = t := rfl
  have skip : newlines (.ofRow (t :: ts) eof nextId) = .ok ((), .ofRow (t :: ts) eof nextId) := by
    rw [← runs_eq_iff, runs_newlines, Cursor.skipNewlines_of_ne (start ▸ solid t rfl)]
    exact ⟨rfl, rfl⟩
  unfold parse
  rw [Cursor.ofTokens?_row last only]
  dsimp only [StateT.run, Cursor.ofRow_rest]
  unfold program
  rw [run_bind skip]
  constructor
  · rintro ⟨next, read⟩
    split at read <;> cases read
    rename_i d items
    obtain ⟨c, run, rfl, stop⟩ := of_itemsUntil_single items
    exact ⟨c, run, stop⟩
  · rintro ⟨c, run, stop⟩
    have more : (Cursor.ofRow (t :: ts) eof nextId).peek.kind ≠ .eof := only t List.mem_cons_self
    have items : itemsUntil (fun _ => false) (Rules.upTo ((t :: ts).length + 1)).declaration _ = _ :=
      itemsUntil_of_single filled more run stop
    exact ⟨c.skipNewlines.nextId, by rw [items]⟩

theorem parse_bare {row row' : List Token} {eof eof' : Token} (last : eof.kind = .eof) (only : ∀ t ∈ row, t.kind ≠ .eof)
    (same : (row' ++ [eof']).map Token.spelling = (row ++ [eof]).map Token.spelling) (nextId : Nat) :
    (∃ program program' next next', parse (row ++ [eof]) nextId = .ok (program, next) ∧
      parse (row' ++ [eof']) nextId = .ok (program', next') ∧ Sketch.bare.stmts program = Sketch.bare.stmts program') ∨
    ∃ e e', parse (row ++ [eof]) nextId = .error e ∧ parse (row' ++ [eof']) nextId = .error e' ∧
      e'.problem = e.problem := by
  have tokens : List.Forall₂ Bond.bare.Tokens (row ++ [eof]) (row' ++ [eof']) := by
    rw [← List.forall₂_eq_eq_eq, List.forall₂_map_left_iff, List.forall₂_map_right_iff] at same
    refine same.flip.imp fun t u spelled => ?_
    obtain ⟨kind, lexeme, literal⟩ : u.kind = t.kind ∧ u.lexeme = t.lexeme ∧ u.literal = t.literal := by
      simpa [Token.spelling] using spelled
    exact ⟨kind, lexeme, literal, rfl, Bool.noConfusion⟩
  obtain ⟨_, _, _, _, read, read', drawn, -⟩ | failed := parse_agrees (B := .bare) rfl rfl last only tokens fun _ => rfl
  · exact .inl ⟨_, _, _, _, read, read', drawn⟩
  · exact .inr failed

theorem alike_of_stmt {s : Stmt} (same : Sketch.bare.stmt ⟨pos, .expr e⟩ = Sketch.bare.stmt s) :
    ∃ pos' e', s = ⟨pos', .expr e'⟩ ∧ e'.Alike e := by
  obtain ⟨pos', kind⟩ := s
  cases kind <;> simp [Sketch.stmt, Sketch.stmtKind] at same
  exact ⟨pos', _, rfl, same.symm⟩

theorem alike_of_stmts {program : List Stmt}
    (same : Sketch.bare.stmts [⟨pos, .expr e⟩] = Sketch.bare.stmts program) :
    ∃ pos' e', program = [⟨pos', .expr e'⟩] ∧ e'.Alike e := by
  rw [Sketch.stmts_eq, Sketch.stmts_eq, List.map_singleton, eq_comm, List.map_eq_singleton_iff] at same
  obtain ⟨s, rfl, same⟩ := same
  obtain ⟨pos', e', rfl, alike⟩ := alike_of_stmt same.symm
  exact ⟨pos', e', rfl, alike⟩

/-! ## Statements over two lines -/

section
variable {s : Seam} {c : Cursor}

theorem atExpression_broken (fits : s.broken.Fits c) (filled : c.rest ≠ []) (h : (c.extend s.straight).AtExpression) :
    (c.extend s.broken).AtExpression := by
  have next {kind : TokenKind} (inner : kind.isInner = true) :
      (c.extend s.broken).peekNext.kind = kind ↔ (c.extend s.straight).peekNext.kind = kind := by
    rw [Cursor.peekNext_extend_kind fits inner filled, Cursor.peekNext_extend_kind (s.fits fits _) inner filled]
  have same : (c.extend s.broken).peek = (c.extend s.straight).peek := by
    rw [Cursor.peek_extend filled, Cursor.peek_extend filled]
  obtain ⟨declares, directs, list, lambda⟩ := h
  refine ⟨same ▸ declares, same ▸ directs, fun bracket => ?_, fun keyword => ?_⟩
  · rw [same] at bracket
    obtain ⟨noType, noPath⟩ := list bracket
    exact ⟨(next rfl).not.mpr noType, (next rfl).not.mpr noPath⟩
  · rw [same] at keyword
    exact (next rfl).not.mpr (lambda keyword)

theorem endStatement_operator (ended : c.rest = []) : wp endStatement (fun _ _ => False) (c.extend s.straight) := by
  have mem := TokenKind.mem_continuations s.continues
  simp only [TokenKind.continuations, List.mem_cons, List.not_mem_nil, or_false] at mem
  unfold endStatement
  rw [wp_bind, wp_peek, Seam.peek_straight ended]
  rcases mem with kind | kind | kind | kind | kind | kind | kind | kind | kind <;> rw [kind] <;> exact wp_fail

/-- A statement over two lines is read as on one line, if the operator does not part the expression. -/
theorem expressionStatement_caught {n : Nat} {t : Expr} {d d' : Cursor} (fits : s.broken.Fits c)
    (read : expression (.upTo n) c = .ok (e, d)) (ended : d.rest = [])
    (line : expressionStatement (.upTo n) (c.extend s.straight) = .ok (⟨pos, .expr t⟩, d'))
    (whole : e.edge.parts s.operator.kind = false) :
    ∃ t' d₂, expressionStatement (.upTo n) (c.extend s.broken) = .ok (⟨t'.pos, .expr t'⟩, d₂) ∧ SameTree t t' ∧
      Bond.bare.Cursors d' d₂ := by
  have meets := (Rules.upTo_bridge s (n + 1)).expression.bridges c fits e d read ended
  obtain ⟨t₁, c₁, run, line⟩ := of_run_bind line
  obtain ⟨_, c₂, stops, line⟩ := of_run_bind line
  cases line
  by_cases soft : e.Soft
  · obtain ⟨t', d₁, run', same, like⟩ := meets.caught whole soft t c₁ run
    obtain ⟨_, d₂, stops', -, like'⟩ := agrees_endStatement.follows c₁ d₁ like _ _ stops
    refine ⟨t', d₂, ?_, same, like'⟩
    have run' : expression (.upTo n) (c.extend s.broken) = .ok (t', d₁) := run'
    unfold expressionStatement
    rw [run_bind run', run_bind stops']
    rfl
  · -- the operator would have to end the statement
    cases (meets.passed whole soft).symm.trans run
    exact (endStatement_operator ended _ _ stops).elim

/-- An operator that parts the expression starts a statement of its own. -/
theorem expressionStatement_parted {n : Nat} {d : Cursor} (fits : s.broken.Fits c)
    (read : expression (.upTo n) c = .ok (e, d)) (ended : d.rest = []) (parted : e.edge.parts s.operator.kind = true)
    (plain : e.endsInBranch = false) :
    wp (expressionStatement (.upTo n)) (fun _ d' => d'.skipNewlines.peek = s.operator) (c.extend s.broken) := by
  have meets := (Rules.upTo_bridge s (n + 1)).expression.bridges c fits e d read ended
  have hard : ¬ e.Soft := by
    rintro (chain | branch)
    · simp [chain, Edge.parts] at parted
    · simp [branch] at plain
  have run : expression (.upTo n) (c.extend s.broken) = .ok (e, d.extend s.broken) := meets.parted hard
  have rest : (d.extend s.broken).rest = s.newline :: s.operator :: s.more := by
    simp [Cursor.extend, ended, Seam.broken]
  have next : (d.extend s.broken).advance.peek = s.operator := by simp [Cursor.advance, rest, Cursor.peek]
  have solid : (d.extend s.broken).advance.peek.kind ≠ .newline := next ▸ s.operator_ne_newline
  unfold expressionStatement
  intro _ d' line
  rw [run_bind run] at line
  obtain ⟨_, d₂, stops, line⟩ := of_run_bind line
  cases line
  have skip : endStatement (d.extend s.broken) = .ok ((), (d.extend s.broken).advance.skipNewlines) := by
    unfold endStatement
    rw [run_bind (peek_run _), Seam.peek_broken ended, s.breaks]
    rfl
  cases skip.symm.trans stops
  rw [Cursor.skipNewlines_of_ne solid, Cursor.skipNewlines_of_ne solid, next]

end

theorem expression_newline {r : Rules} (newline : c.peek.kind = .newline) :
    wp (expression r) (fun _ _ => False) c := by
  have next {p : Parser Expr} {f : Expr → Parser Expr} (h : wp p (fun _ _ => False) c) :
      wp (p >>= f) (fun _ _ => False) c :=
    wp_bind.mpr (wp_mono h fun _ _ => False.elim)
  exact next (next (next (next (next (next (next (next (next (unary_newline newline)))))))))

theorem parse_seam {s : Seam} {eof : Token} (last : eof.kind = .eof) {front : List Token}
    (only : ∀ t ∈ front ++ s.operator :: s.more, t.kind ≠ .eof) (solid : ∀ t ∈ front.getLast?, t.kind ≠ .newline)
    {nextId : Nat} {d : Cursor}
    (read : expression (.upTo (front.length + 1)) (.ofRow front eof nextId) = .ok (e, d)) (ended : d.rest = [])
    {t : Expr} {next : Nat}
    (line : parse (front ++ s.operator :: s.more ++ [eof]) nextId = .ok ([⟨pos, .expr t⟩], next)) :
    (e.edge.parts s.operator.kind = false →
      ∃ t' next', parse (front ++ s.newline :: s.operator :: s.more ++ [eof]) nextId =
      .ok ([⟨t'.pos, .expr t'⟩], next') ∧
        SameTree t t') ∧
    (e.edge.parts s.operator.kind = true → e.endsInBranch = false → ∀ x next',
      parse (front ++ s.newline :: s.operator :: s.more ++ [eof]) nextId ≠ .ok ([x], next')) := by
  have fits : s.broken.Fits (.ofRow front eof nextId) :=
    ⟨last, fun t mem => only t (List.mem_append_left _ mem), .inr solid⟩
  have filled : front ≠ [] := fun nothing => expression_hungry (.ofRow front eof nextId) last nothing e d read
  obtain ⟨first, rest, rfl⟩ := List.exists_cons_of_ne_nil filled
  have starts : first.kind ≠ .newline :=
    fun newline => expression_newline (c := .ofRow (first :: rest) eof nextId) newline e d read
  have single := parse_eq_single last only (by simp) (by simpa using starts) nextId
  have single' := parse_eq_single last (s.only_broken only) (by simp) (by simpa using starts) nextId
  obtain ⟨d₁, declared, stop⟩ := (single _).mp ⟨next, line⟩
  have start := declaration_starts _ _ declared rfl
  have start' : (Cursor.ofRow (first :: rest ++ s.newline :: s.operator :: s.more) eof nextId).AtExpression :=
    atExpression_broken fits (by simp) start
  rw [declaration_of_atExpression start] at declared
  have length : (first :: rest ++ s.newline :: s.operator :: s.more).length =
      (first :: rest ++ s.operator :: s.more).length + 1 := by
    simp only [List.length_append, List.length_cons]
    omega
  rw [length] at single'
  -- the rules for the longest row read the other two alike
  have hr := Rules.upTo_front ((first :: rest ++ s.operator :: s.more).length + 1)
  obtain ⟨x, d₁', declared, ⟨drawn, -⟩, after⟩ := (expressionStatement_agrees (Rules.upTo_agrees_upTo rfl _ _)).deepen
    (Bond.deep_cursors rfl rfl rfl rfl) declared
    ((expressionStatement_builds hr).finishes (Course.front_ready last only) trivial (by simp))
  obtain ⟨_, t₁, rfl, alike⟩ := alike_of_stmt drawn
  obtain ⟨e₁, d', read, ⟨sketch, -⟩, reached⟩ := (expression_agrees (Rules.upTo_agrees_upTo rfl _ _)).deepen
    (Bond.deep_cursors rfl rfl rfl rfl) read
    ((expression_builds hr).finishes (Course.front_ready last fits.only) trivial (by simp; omega))
  replace ended : d'.rest = [] := List.forall₂_nil_left_iff.mp (ended ▸ reached.rest)
  replace sketch : Sketch.bare.expr e = Sketch.bare.expr e₁ := sketch
  have edge : e₁.edge = e.edge := by rw [← Sketch.bare.edge_expr e, sketch, Sketch.bare.edge_expr]
  have branch : e₁.endsInBranch = e.endsInBranch := by
    rw [← Sketch.bare.endsInBranch_expr e, sketch, Sketch.bare.endsInBranch_expr]
  rw [← edge, ← branch]
  refine ⟨fun free => ?_, fun parts plain x next' read' => ?_⟩
  · obtain ⟨t', d₂, run', same, like⟩ := expressionStatement_caught fits read ended declared free
    obtain ⟨next', read'⟩ := (single' _).mpr ⟨d₂, (declaration_of_atExpression start').trans run',
      like.skipNewlines.peek.kind.trans (after.skipNewlines.peek.kind.trans stop)⟩
    exact ⟨t', next', read', alike.symm.trans same.eq, Bond.bare_fits _⟩
  · obtain ⟨d₂, declared', stop'⟩ := (single' _).mp ⟨next', read'⟩
    rw [declaration_of_atExpression start'] at declared'
    rw [expressionStatement_parted fits read ended parts plain _ _ declared'] at stop'
    exact only s.operator (by simp) stop'


end Grammar

/-- An expression statement that goes on with an operator is read the same with a line break in front of the operator,
up to positions and ids, unless the operator parts what stands before it: then that is a statement of its own. -/
theorem parse_leading_operator {eof : Token} (last : eof.kind = .eof) {front more : List Token}
    {operator newline : Token}
    (only : ∀ t ∈ front ++ operator :: more, t.kind ≠ .eof) (solid : ∀ t ∈ front.getLast?, t.kind ≠ .newline)
    (continues : operator.kind.isContinuation = true) (breaks : newline.kind = .newline) {nextId : Nat} {e : Expr}
    {d : Cursor} (read : Grammar.expression (.upTo (front.length + 1)) (.ofRow front eof nextId) = .ok (e, d))
    (ended : d.rest = []) {pos : Position} {t : Expr} {next : Nat}
    (line : parse (front ++ operator :: more ++ [eof]) nextId = .ok ([⟨pos, .expr t⟩], next)) {row : List Token}
    (spelled : row.map Token.spelling = (front ++ newline :: operator :: more ++ [eof]).map Token.spelling) :
    (e.edge.parts operator.kind = false →
      ∃ pos' t' next', parse row nextId = .ok ([⟨pos', .expr t'⟩], next') ∧ t'.Alike t) ∧
    (e.edge.parts operator.kind = true → e.endsInBranch = false → ∀ s next', parse row nextId ≠ .ok ([s], next')) := by
  let s : Seam := ⟨operator, more, newline, continues, breaks⟩
  obtain ⟨row, ends, rfl, -, spelling⟩ := List.map_eq_append_iff.mp (List.map_append ▸ spelled)
  obtain ⟨eof', rfl, -⟩ := List.map_eq_singleton_iff.mp spelling
  obtain ⟨whole, parted⟩ := Grammar.parse_seam (s := s) last only solid read ended line
  obtain ⟨program, program', _, next', read₁, read₂, drawn⟩ | ⟨_, _, failed, failed', -⟩ :=
    Grammar.parse_bare last (s.only_broken only) spelled nextId
  · refine ⟨fun free => ?_, fun parts plain x next₂ single => ?_⟩
    · obtain ⟨t', next₁, read', same⟩ := whole free
      cases read₁.symm.trans read'
      obtain ⟨pos', t'', rfl, alike⟩ := Grammar.alike_of_stmts drawn
      exact ⟨pos', t'', next', read₂, alike.trans same.eq.symm⟩
    · cases read₂.symm.trans single
      rw [Sketch.stmts_eq, Sketch.stmts_eq, List.map_singleton, List.map_eq_singleton_iff] at drawn
      obtain ⟨y, rfl, -⟩ := drawn
      exact parted parts plain y _ read₁
  · refine ⟨fun free => ?_, fun _ _ x next₂ single => ?_⟩
    · obtain ⟨t', next₁, read', -⟩ := whole free
      cases read'.symm.trans failed
    · cases single.symm.trans failed'

/-- `a - b` may be written in two lines, but `a++ - b` may not. -/
theorem parse_leading_minus :
    let a : Token := ⟨.identifier, "a", none, ⟨0, 1, "m"⟩⟩
    let step : Token := ⟨.plusPlus, "++", none, ⟨1, 3, "m"⟩⟩
    let newline : Token := ⟨.newline, "\n", none, ⟨3, 4, "m"⟩⟩
    let minus : Token := ⟨.minus, "-", none, ⟨4, 5, "m"⟩⟩
    let b : Token := ⟨.identifier, "b", none, ⟨6, 7, "m"⟩⟩
    let eof : Token := ⟨.eof, "", none, ⟨7, 7, "m"⟩⟩
    (∃ pos t next, parse [a, newline, minus, b, eof] 0 = .ok ([⟨pos, .expr t⟩], next) ∧
      t.Alike ⟨2, ⟨0, 7, "m"⟩, .binary ⟨0, a.pos, .ident "a"⟩ .sub ⟨1, b.pos, .ident "b"⟩⟩) ∧
    ∀ s next, parse [a, step, newline, minus, b, eof] 0 ≠ .ok ([s], next) := by
  intro a step newline minus b eof
  constructor
  · exact (@parse_leading_operator eof rfl [a] [b] minus newline (by decide) (by decide) rfl rfl 0 _ _ rfl rfl _ _ _ rfl
      [a, newline, minus, b, eof] rfl).1 rfl
  · exact (@parse_leading_operator eof rfl [a, step] [b] minus newline (by decide)
      (by decide) rfl rfl 0 _ _ rfl rfl _ _ _ rfl
      [a, step, newline, minus, b, eof] rfl).2 rfl rfl

/-- `a++ - b` is one expression, but with a line break in front of `-` it is two. -/
theorem parse_step_minus :
    let a : Token := ⟨.identifier, "a", none, ⟨0, 1, "m"⟩⟩
    let step : Token := ⟨.plusPlus, "++", none, ⟨1, 3, "m"⟩⟩
    let newline : Token := ⟨.newline, "\n", none, ⟨3, 4, "m"⟩⟩
    let minus : Token := ⟨.minus, "-", none, ⟨4, 5, "m"⟩⟩
    let b : Token := ⟨.identifier, "b", none, ⟨6, 7, "m"⟩⟩
    let eof : Token := ⟨.eof, "", none, ⟨7, 7, "m"⟩⟩
    let stepped (id : Nat) : Expr := ⟨id, ⟨0, 3, "m"⟩, .unary .increment ⟨0, a.pos, .ident "a"⟩ false⟩
    parse [a, step, minus, b, eof] 0 =
      .ok ([⟨⟨0, 7, "m"⟩, .expr ⟨3, ⟨0, 7, "m"⟩, .binary (stepped 1) .sub ⟨2, b.pos, .ident "b"⟩⟩⟩], 4) ∧
    parse [a, step, newline, minus, b, eof] 0 =
      .ok ([⟨⟨0, 3, "m"⟩, .expr (stepped 1)⟩,
        ⟨⟨4, 7, "m"⟩, .expr ⟨3, ⟨4, 7, "m"⟩, .unary .negate ⟨2, b.pos, .ident "b"⟩ true⟩⟩], 4) :=
  ⟨rfl, rfl⟩

end PhaseLang
