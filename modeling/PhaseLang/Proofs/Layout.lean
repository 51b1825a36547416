import PhaseLang.Proofs.Grammar.AgreementDeclarations
import PhaseLang.Proofs.Grammar.Starts
import PhaseLang.Proofs.Outcomes
import PhaseLang.Proofs.Php.Drawing
import PhaseLang.Proofs.Token.Respacing

/-!
# Layout

Blanks, comments and blank lines between tokens leave no trace in the PHP of a source. Two sources with
the same tokens are read to programs with one sketch, in which a class has the number of its first
token for a position. Neither typing nor lowering tells a program from its sketch.
-/

namespace PhaseLang

/-! ## Sketches -/

def Sketch.redraw (v : Sketch) : Redraw where
  id := v.id
  pos _ := nowhere
  place := v.place
  expr := v.expr
  stmt := v.stmt
  func := v.func
  cls := v.cls
  member := v.member

theorem Sketch.lawful_redraw (v : Sketch) : v.redraw.Lawful := by
  have args : v.redraw.arg = v.arg := rfl
  have entries : v.redraw.entry = v.entry := rfl
  have cases' : v.redraw.case = v.case := by funext x; simp [Redraw.case, case, redraw]
  have params : v.redraw.param = v.param := by funext x; simp [Redraw.param, param, redraw]
  refine ⟨fun _ _ kind => ?_, fun _ kind => ?_, ?_, ?_, fun _ kind _ _ _ => ?_⟩
  · cases kind <;> simp [Redraw.exprKind, args, entries, cases'] <;> simp [redraw]
  · cases kind <;> simp [Redraw.stmtKind, cases'] <;> simp [redraw]
  · simp [params]
    simp [redraw]
  · simp [redraw]
  · cases kind <;> simp [Redraw.memberKind, redraw]

/-! ## Readings of the same tokens -/

def Sketch.ofTokens (tokens : List Token) : Sketch where
  id n := n
  start := Token.countFrom tokens

def Bond.ofTokens (tokens tokens' : List Token) : Bond where
  strict := true
  left := .ofTokens tokens
  right := .ofTokens tokens'
  worded := false
  unbounded := false

theorem Bond.tokens_of_spelling {ts us : List Token} (same : ts.map Token.spelling = us.map Token.spelling) :
    ∀ front front' : List Token, Token.Ascending (front ++ ts) → Token.Ascending (front' ++ us) →
    List.Forall₂ (ofTokens (front ++ ts) (front' ++ us)).Tokens ts us := by
  induction ts generalizing us with
  | nil =>
    obtain rfl : us = [] := by simpa using same.symm
    exact fun _ _ _ _ => .nil
  | cons t ts ih =>
    cases us with
    | nil => simp at same
    | cons u us =>
      intro front front' h h'
      obtain ⟨head, tail⟩ := List.cons.inj same
      have length : ts.length = us.length := by simpa using congrArg List.length tail
      obtain ⟨kind, lexeme, literal⟩ : t.kind = u.kind ∧ t.lexeme = u.lexeme ∧ t.literal = u.literal := by
        simpa [Token.spelling] using head
      refine .cons ⟨kind.symm, lexeme.symm, literal.symm, ?_, Bool.noConfusion⟩ ?_
      · show Token.countFrom _ _ = Token.countFrom _ _
        rw [h.countFrom_eq, h'.countFrom_eq, length]
      · have shift (front : List Token) (t : Token) (ts : List Token) : front ++ t :: ts = front ++ [t] ++ ts := by simp
        rw [shift] at h h'
        rw [shift, shift front']
        exact ih tail _ _ h h'

theorem parse_of_spelling {ts ts' : List Token} {eof eof' : Token} (row : Token.Row ts eof) (row' : Token.Row ts' eof')
    (same : (ts ++ [eof]).map Token.spelling = (ts' ++ [eof']).map Token.spelling) (nextId : Nat) :
    (∃ program program' next next', parse (ts ++ [eof]) nextId = .ok (program, next) ∧
      parse (ts' ++ [eof']) nextId = .ok (program', next') ∧
      (Sketch.ofTokens (ts ++ [eof])).stmts program = (Sketch.ofTokens (ts' ++ [eof'])).stmts program') ∨
    ∃ e e', parse (ts ++ [eof]) nextId = .error e ∧ parse (ts' ++ [eof']) nextId = .error e' ∧
      e'.problem = e.problem := by
  have like := Bond.tokens_of_spelling same [] [] row.ascending row'.ascending
  obtain ⟨_, _, _, _, read, read', drawn, -⟩ | failed := parse_agrees rfl rfl row.last row.only like fun _ => rfl
  · exact .inl ⟨_, _, _, _, read, read', drawn⟩
  · exact .inr failed

/-! ## The type of texts -/

theorem Class.pos_of_same {c d : Class} (h : c.same d = true) : c.pos = d.pos := by
  obtain ⟨_, _, _, _, _, _, _⟩ := c
  obtain ⟨_, _, _, _, _, _, _⟩ := d
  simp only [Class.same, Bool.and_eq_true, beq_iff_eq] at h
  exact h.2

/-- Classes can be told apart after redrawing if their places can. -/
theorem Class.same_redraw {D : Redraw} (lawful : D.Lawful) {c d : Class}
    (apart : D.place c.pos = D.place d.pos → c = d) : (D.cls c).same (D.cls d) = c.same d := by
  have placed (x : Class) : (D.cls x).pos = D.place x.pos := by cases x; rw [lawful.cls]
  rw [Bool.eq_iff_iff]
  constructor
  · intro h
    rw [apart ?_]
    · exact d.same_self
    · rw [← placed, ← placed]
      exact Class.pos_of_same h
  · intro h
    rw [apart (by rw [Class.pos_of_same h])]
    exact (D.cls d).same_self

/-- What `String` stands for in a program is told from the other types by its place. -/
theorem same_textType {source file : String} {program : List Stmt} {nextId next : Nat}
    (read : (readSource source file nextId).result = .ok (program, next)) {D : Redraw} {A : Citation → Prop}
    (h : D.Typable A)
    (apart : ∀ pos d, ⟨pos, .cls d⟩ ∈ program → ∀ c ∈ Inside.ofStmts program, D.place c.pos = D.place d.pos → c = d)
    {t u : Ty} (twin : Twin D A (· ∈ Inside.ofStmts program) t u) :
    u.same (Php.textType (Surface.ofProgram (program.map D.stmt)).at?) =
      t.same (Php.textType (Surface.ofProgram program).at?) := by
  have known := Surface.at?_drawn h (fun _ hx => hx : Fits (· ∈ Inside.ofStmts program) _) "String"
  unfold Php.textType
  rw [Surface.at?_ofProgram (readSource_spelled read)] at known ⊢
  generalize Surface.at? _ "String" = y at known
  cases found : (Surface.ofProgram program).get? "String" with
  | none =>
    rw [found] at known
    cases known
    cases twin.drawn <;> rfl
  | some x =>
    -- a function could not be told from one like it elsewhere, but none is named `String`
    obtain ⟨pos, d, top, rfl⟩ := Surface.class_of_get? (readSource_clean read) (by decide) (by decide) found
    rw [found] at known
    cases known with
    | some declared =>
      cases declared.drawn
      obtain ⟨drawn, -, within⟩ := twin
      cases drawn with
      | classOf c => exact Class.same_redraw h.lawful (apart pos d top c within)
      | _ => rfl

/-! ## A program and its sketch -/

theorem Php.lasting_silent (declared : String → Option Ty) :
    Php.Lasting fun s => s.context.Knows declared ∧ s.diagnostics = [] := by
  rintro s name ⟨knows, silent⟩
  refine ⟨(knows.getType name).2, ?_⟩
  show s.diagnostics ++ (s.context.getType name).2.2 = []
  rw [silent, knows.getType_reports]
  rfl

/-- Typing and lowering do to a program what they do to its sketch. -/
theorem generate_sketch {source file : String} {program : List Stmt} {next : Nat}
    (parsed : parse (scan source file).tokens 0 = .ok (program, next)) (version : Nat) :
    let v := Sketch.ofTokens (scan source file).tokens
    let typed := typeProgram program { nextId := next }
    let drawn := typeProgram (v.stmts program) {}
    typed.diagnostics.map (·.message) = drawn.diagnostics.map (·.message) ∧
      (generate program typed.table typed.context version).php =
        (generate (v.stmts program) drawn.table drawn.context version).php ∧
      (generate program typed.table typed.context version).diagnostics = [] := by
  intro v
  have read : (readSource source file 0).result = .ok (program, next) := (readSource_result source file 0).trans parsed
  have apart : Apart v.start program := by
    obtain ⟨ts, eof, tokens, row⟩ := scan_row source file
    simp only [v]
    rw [tokens] at parsed ⊢
    exact parse_apart row parsed
  have typable : v.redraw.Typable fun _ => True := ⟨v.lawful_redraw, fun _ _ same => same, fun _ => trivial⟩
  have inside : Fits (· ∈ Inside.ofStmts program) (Inside.ofStmts program) := fun _ hx => hx
  have last := (Typer.stmts_weaves typable.weave program fits_true inside
    (Typing.start_drawn typable inside (Context.blank_empty next) (Context.blank_empty 0))).rel
  have knows := Php.typeProgram_knows program (Context.blank_empty next)
  have knows' := Php.typeProgram_knows (program.map v.stmt) (Context.blank_empty 0)
  have drawable : Php.Drawable v.redraw (fun _ => True) (· ∈ Inside.ofStmts program) (Surface.ofProgram program).at?
      (Surface.ofProgram (program.map v.stmt)).at?
        ⟨(typeProgram program { nextId := next }).table, importedFunctions program⟩
      ⟨(typeProgram (program.map v.stmt) {}).table, importedFunctions (program.map v.stmt)⟩ fun _ => True :=
    { lawful := v.lawful_redraw
      paths := fun _ => trivial
      imported := importedFunctions_redraw v.lawful_redraw program
      typed := fun {e _ _} _ => last.table e.id
      known := Surface.at?_drawn typable inside
      text := same_textType read typable fun pos d top c inside same =>
        apart pos d top c inside (congrArg Position.start same) }
  rw [Sketch.stmts_eq]
  refine ⟨last.messages.symm, ?_, ?_⟩
  · obtain ⟨php, left, right, -⟩ := Php.stmts_sides (Php.closing_drawing drawable)
      (c := ⟨decide (8 ≤ version), ⟨{}, []⟩, []⟩) (p := []) (s := .start [] {}) program fits_true
        fun _ _ => Bool.noConfusion
    exact congrArg Php.Printer.program ((left ⟨_, []⟩ knows).1.trans (right ⟨_, []⟩ knows').1.symm)
  · exact (Php.stmts_lasting (Php.lasting_silent _) _ program ⟨_, []⟩ ⟨knows, rfl⟩).2.2

/-! ## Compilations of the same tokens -/

/-- Two outcomes of one kind, with the same PHP or for the same reason. -/
inductive CompileOutcome.Alike : CompileOutcome → CompileOutcome → Prop
  | ok (php : String) : Alike (.ok php) (.ok php)
  | reported (count : Nat) (php : String) : Alike (.reported count php) (.reported count php)
  | violation {e e' : SyntaxError} (same : e'.problem = e.problem) : Alike (.violation e) (.violation e')

theorem CompileOutcome.alike_of_messages {ds ds' : List Diagnostic}
    (messages : ds'.map (·.message) = ds.map (·.message)) (php : String) :
    Alike (if ds.isEmpty then .ok php else .reported ds.length php)
      (if ds'.isEmpty then .ok php else .reported ds'.length php) := by
  have length : ds'.length = ds.length := by simpa using congrArg List.length messages
  have empty : ds'.isEmpty = ds.isEmpty := by simpa using congrArg List.isEmpty messages
  rw [length, empty]
  split
  · exact .ok php
  · exact .reported ds.length php

/-- Layout cannot change the output, nor can the name of the file. -/
theorem compile_layout {source source' file file' : String} (clean : (scan source file).diagnostics = [])
    (clean' : (scan source' file').diagnostics = [])
    (same : (scan source file).tokens.map Token.spelling = (scan source' file').tokens.map Token.spelling)
    (version : Nat) :
    (compile source file version {}).outcome.Alike (compile source' file' version {}).outcome ∧
      (compile source' file' version {}).diagnostics.map (·.message) =
        (compile source file version {}).diagnostics.map (·.message) := by
  obtain ⟨ts, eof, tokens, row⟩ := scan_row source file
  obtain ⟨ts', eof', tokens', row'⟩ := scan_row source' file'
  have parses := parse_of_spelling row row' (by rw [← tokens, ← tokens', same]) 0
  rw [← tokens, ← tokens'] at parses
  rcases parses with ⟨program, program', next, next', parsed, parsed', drawn⟩ | ⟨e, e', failed, failed', problem⟩
  · obtain ⟨messages, php, silent⟩ := generate_sketch parsed version
    obtain ⟨messages', php', silent'⟩ := generate_sketch parsed' version
    rw [drawn] at messages php
    have reports := messages'.trans messages.symm
    have code := php'.trans php.symm
    rw [compile_of_ok parsed, compile_of_ok parsed', clean, clean', silent, silent', code]
    simp only [List.nil_append, List.append_nil]
    exact ⟨CompileOutcome.alike_of_messages reports _, reports⟩
  · rw [compile_of_error failed, compile_of_error failed', clean, clean']
    refine ⟨.violation problem, ?_⟩
    simp [SyntaxError.diagnostic, problem]

theorem compile_layout_comments :
    let source := "class String \x7b\x7d\nvar a = 'x' + b"
    let source' := "\tclass String\x7b \x7d // texts\n\n  // a\n var a='x'+ b"
    (scan source "a.phs").diagnostics = [] ∧ (scan source' "a.phs").diagnostics = [] ∧
    (scan source "a.phs").tokens.map Token.spelling = (scan source' "a.phs").tokens.map Token.spelling ∧
    (compile source "a.phs" 8 {}).outcome.php? = some "<?php\nclass String\n\x7b\n\x7d\n$a = \"x\" . $b;\n" ∧
    (compile source "a.phs" 8 {}).outcome.Alike (compile source' "a.phs" 8 {}).outcome ∧
    (compile source' "a.phs" 8 {}).diagnostics.map (·.message) =
      (compile source "a.phs" 8 {}).diagnostics.map (·.message) := by
  intro source source'
  have clean : (scan source "a.phs").diagnostics = [] := by decide +kernel
  have clean' : (scan source' "a.phs").diagnostics = [] := by decide +kernel
  have same : (scan source "a.phs").tokens.map Token.spelling = (scan source' "a.phs").tokens.map Token.spelling := by
    decide +kernel
  exact ⟨clean, clean', same, by decide +kernel, compile_layout clean clean' same 8⟩

end PhaseLang
