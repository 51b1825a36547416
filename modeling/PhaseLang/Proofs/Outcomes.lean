import PhaseLang.Proofs.Context.History

/-!
# Outcomes of a compilation

A compilation hands everything that its stages report on to a reporter, behind a counter of its own.
Main result: it ends in a violation exactly if the tokens cannot be parsed, and then nothing has
happened but that the violation was reported; otherwise it ends with the PHP that was written, and
the count tells whether and how often something was reported, be it about a file that was loaded.
-/

namespace PhaseLang

/-! ## Violations among diagnostics -/

/-- How the message about a problem starts, whatever it names. -/
def SyntaxProblem.opening : SyntaxProblem → String
  | expected _ => "Expected "
  | unexpected _ => "Unexpected `"
  | repeatedModifier _ => "Only one `"
  | repeatedAccessor _ => "`"
  | statementCount _ => "Expected a single statement, found "
  | problem => problem.message

def ScanProblem.opening : ScanProblem → String
  | unexpectedCharacter _ => "Unexpected character: "
  | unterminatedString => "Unterminated string"
  | interpolationTooDeep => "Interpolation too deep"

theorem toList_prefix_append (s t : String) : s.toList <+: (s ++ t).toList := by
  rw [String.toList_append]
  exact List.prefix_append _ _

theorem SyntaxProblem.opening_prefix (q : SyntaxProblem) : q.opening.toList <+: q.message.toList := by
  have between (s t u : String) : s.toList <+: (s ++ t ++ u).toList := by
    rw [String.append_assoc]
    exact toList_prefix_append s (t ++ u)
  cases q with
  | expected _ | statementCount _ => exact toList_prefix_append _ _
  | unexpected _ | repeatedModifier _ | repeatedAccessor _ => exact between _ _ _
  | _ => exact List.prefix_rfl

theorem ScanProblem.opening_prefix (p : ScanProblem) : p.opening.toList <+: p.message.toList := by
  cases p with
  | unexpectedCharacter c => exact toList_prefix_append _ _
  | unterminatedString => exact List.prefix_rfl
  | interpolationTooDeep => exact ⟨": only 6 levels allowed".toList, by decide⟩

theorem ScanProblem.message_ne (p : ScanProblem) (q : SyntaxProblem) : p.message ≠ q.message := by
  have apart : ¬ p.opening.toList <+: q.opening.toList ∧ ¬ q.opening.toList <+: p.opening.toList := by
    cases p <;> cases q <;> dsimp only [opening, SyntaxProblem.opening, SyntaxProblem.message] <;> decide +kernel
  intro same
  have front := p.opening_prefix
  rw [same] at front
  rcases List.prefix_or_prefix_of_prefix front q.opening_prefix with h | h
  · exact apart.1 h
  · exact apart.2 h

theorem Scanner.scanFrom_messages (file : String) (steps : Nat) :
    ∀ (mark lo : Nat) (holes : List Hole) (cs : List Char),
    ∀ d ∈ (scanFrom file steps mark lo holes cs).diagnostics, ∃ p : ScanProblem, d.message = p.message := by
  have finished (mark lo : Nat) (holes : List Hole) :
      ∀ d ∈ (finish file mark lo holes).diagnostics, ∃ p : ScanProblem, d.message = p.message := by
    intro d hd
    obtain ⟨_, -, rfl⟩ := List.mem_map.mp hd
    exact ⟨.unterminatedString, rfl⟩
  induction steps with
  | zero => exact fun mark lo holes _ => finished mark lo holes
  | succ steps ih =>
    intro mark lo holes cs
    cases cs with
    | nil => exact finished mark lo holes
    | cons c cs =>
      intro d hd
      rcases List.mem_append.mp hd with hd | hd
      · obtain ⟨p, -, rfl⟩ := Option.map_eq_some_iff.mp (Option.mem_toList.mp hd)
        exact ⟨p, rfl⟩
      · exact ih _ _ _ _ d hd

theorem count_violation (source file : String) (e : SyntaxError) :
    ((scan source file).diagnostics ++ [e.diagnostic]).count e.diagnostic = 1 := by
  have scanned : e.diagnostic ∉ (scan source file).diagnostics := by
    intro mem
    obtain ⟨p, same⟩ := Scanner.scanFrom_messages file _ 0 0 [] _ _ mem
    exact p.message_ne e.problem same.symm
  rw [List.count_append, List.count_eq_zero_of_not_mem scanned, List.count_singleton_self]

/-! ## Files loaded on demand -/

/-- What was reported about the files that were loaded since then is among the diagnostics. -/
def Context.Reports (c : Context) (c' : Context) (reported : List Diagnostic) : Prop :=
  ∃ events, c'.history = c.history ++ events ∧ (events.flatMap CacheEvent.diagnostics).Sublist reported

namespace Context.Reports

variable {c c' : Context} {reported : List Diagnostic}

theorem refl (c : Context) : Reports c c [] := ⟨[], (List.append_nil _).symm, .slnil⟩

theorem more (h : Reports c c' reported) (later : List Diagnostic) : Reports c c' (reported ++ later) := by
  obtain ⟨events, grown, sub⟩ := h
  exact ⟨events, grown, sub.trans (List.sublist_append_left ..)⟩

theorem earlier (h : Reports c c' reported) (before : List Diagnostic) : Reports c c' (before ++ reported) := by
  obtain ⟨events, grown, sub⟩ := h
  exact ⟨events, grown, sub.trans (List.sublist_append_right ..)⟩

theorem lookUp (h : Reports c c' reported) (name : String) :
    Reports c (c'.getType name).2.1 (reported ++ (c'.getType name).2.2) := by
  rcases c'.getType_cases name with ⟨t, known⟩ | ⟨-, asked⟩
  · rw [known]
    exact h.more []
  · obtain ⟨events, grown, sub⟩ := h
    rw [asked, fetch_diagnostics]
    refine ⟨events ++ [c'.load (QualifiedName.key name)], ?_, ?_⟩
    · rw [fetch_history, grown, List.append_assoc]
    · rw [List.flatMap_append, List.flatMap_singleton]
      exact sub.append (List.Sublist.refl _)

theorem addTypes (h : Reports c c' reported) (types : Bindings Ty) : Reports c (c'.addTypes types) reported := by
  obtain ⟨events, grown, sub⟩ := h
  unfold Context.addTypes Reports
  dsimp only
  rw [grown, List.append_assoc]
  refine ⟨_, rfl, ?_⟩
  have silent : (((types.map fun entry => (QualifiedName.key entry.1, entry.2)).map fun entry =>
      CacheEvent.added entry.1 entry.2).flatMap CacheEvent.diagnostics) = [] := by
    simp only [List.map_map, List.flatMap_map, List.flatMap_eq_nil_iff]
    exact fun _ _ => rfl
  rw [List.flatMap_append, silent, List.append_nil]
  exact sub

theorem typeProgram (c : Context) (program : List Stmt) :
    Reports c (typeProgram program c).context (typeProgram program c).diagnostics := by
  have kept : Typer.Invariant (fun _ => True) fun s => Reports c s.context s.diagnostics :=
    { other := fun s s' _ _ context diagnostics hs => by
        rw [context, diagnostics]
        exact hs
      lookUp := fun s name hs => hs.lookUp name
      report := fun s pos message hs => hs.more [⟨pos, message⟩]
      record := fun e _ s _ hs => by
        rw [Typer.after_expr]
        exact hs }
  rw [typeProgram_context]
  exact (kept.stmts (fits_nodes _) (s := .start program c) (refl c)).addTypes _

theorem generate (h : Reports c c' reported) (program : List Stmt) (types : TypeTable) (version : Nat) :
    Reports c (generate program types c' version).context
      (reported ++ (generate program types c' version).diagnostics) := by
  have lasting : Php.Lasting fun s => Reports c s.context (reported ++ s.diagnostics) := by
    intro s name hs
    have asked := hs.lookUp name
    rw [List.append_assoc] at asked
    exact asked
  exact (Php.stmts_lasting lasting _ program ⟨c', []⟩ (h.more [])).2

end Context.Reports

/-! ## Outcomes -/

def counting {σ : Type} (report : σ → Diagnostic → σ) (s : σ × Nat) (d : Diagnostic) : σ × Nat :=
  (report s.1 d, s.2 + 1)

theorem foldl_counting {σ : Type} (report : σ → Diagnostic → σ) (ds : List Diagnostic) :
    ∀ (s : σ) (n : Nat), ds.foldl (counting report) (s, n) = (ds.foldl report s, n + ds.length) := by
  induction ds with
  | nil => exact fun _ _ => rfl
  | cons d ds ih =>
    intro s n
    rw [List.foldl_cons, counting, ih, List.foldl_cons, List.length_cons, Nat.add_assoc, Nat.add_comm 1]

variable {source file : String} {nextId : Nat}

theorem readSource_of_ok {out : List Stmt × Nat} (parsed : parse (scan source file).tokens nextId = .ok out) :
    readSource source file nextId = ⟨.ok out, (scan source file).diagnostics⟩ := by
  unfold readSource
  dsimp only
  rw [parsed]

theorem compile_of_error {version : Nat} {context : Context} {e : SyntaxError}
    (parsed : parse (scan source file).tokens context.nextId = .error e) : compile source file version context =
      ⟨.violation e, context, (scan source file).diagnostics ++ [e.diagnostic]⟩ := by
  unfold compile readSource
  dsimp only
  rw [parsed]

theorem compile_of_ok {version : Nat} {context : Context} {program : List Stmt}
    (parsed : parse (scan source file).tokens context.nextId = .ok (program, nextId)) :
    let typed := typeProgram program { context with nextId }
    let generated := generate program typed.table typed.context version
    let diagnostics := (scan source file).diagnostics ++ typed.diagnostics ++ generated.diagnostics
    compile source file version context =
      ⟨if diagnostics.isEmpty then .ok generated.php else .reported diagnostics.length generated.php,
        generated.context, diagnostics⟩ := by
  intro typed generated diagnostics
  unfold compile
  dsimp only
  rw [readSource_of_ok parsed]

/-- Any compilation, reporting to any reporter through a counter. -/
theorem compile_outcome {σ : Type} (report : σ → Diagnostic → σ) (caller : σ) (source file : String) (version : Nat)
    (context : Context) :
    let parsed := parse (scan source file).tokens context.nextId
    let out := compile source file version context
    let reporter := out.diagnostics.foldl (counting report) (caller, 0)
    reporter.1 = out.diagnostics.foldl report caller ∧
      (∀ e, out.outcome = .violation e ↔ parsed = .error e) ∧
      (∀ e, parsed = .error e →
        out.context = context ∧ out.diagnostics.getLast? = some e.diagnostic ∧
          out.diagnostics.count e.diagnostic = 1) ∧
      ∀ program nextId, parsed = .ok (program, nextId) →
        let typed := typeProgram program { context with nextId }
        let generated := generate program typed.table typed.context version
        out.diagnostics = (scan source file).diagnostics ++ typed.diagnostics ++ generated.diagnostics ∧
          out.outcome = (if reporter.2 = 0 then .ok generated.php else .reported reporter.2 generated.php) ∧
          reporter.2 = out.diagnostics.length ∧
          context.Reports out.context out.diagnostics := by
  intro parsed out reporter
  have counted : reporter = (out.diagnostics.foldl report caller, out.diagnostics.length) := by
    show out.diagnostics.foldl (counting report) (caller, 0) = _
    rw [foldl_counting, Nat.zero_add]
  refine ⟨congrArg Prod.fst counted, fun e => ?_, fun e failed => ?_, fun program nextId read => ?_⟩
  · cases result : parse (scan source file).tokens context.nextId with
    | error e' =>
      have failed : out = _ := compile_of_error result
      rw [failed]
      rw [show parsed = _ from result]
      constructor
      · intro same
        cases same
        rfl
      · intro same
        cases same
        rfl
    | ok read =>
      obtain ⟨program, nextId⟩ := read
      have done : out = _ := compile_of_ok result
      rw [done, show parsed = _ from result]
      constructor
      · intro same
        split at same <;> cases same
      · exact nofun
  · have failed : out = _ := compile_of_error failed
    rw [failed]
    exact ⟨rfl, List.getLast?_concat .., count_violation source file e⟩
  · intro typed generated
    have done : out = _ := compile_of_ok read
    have diagnostics : out.diagnostics =
        (scan source file).diagnostics ++ typed.diagnostics ++ generated.diagnostics := by rw [done]
    refine ⟨diagnostics, ?_, congrArg Prod.snd counted, ?_⟩
    · rw [counted, diagnostics, done]
      refine if_congr ?_ rfl rfl
      rw [List.isEmpty_iff, List.length_eq_zero_iff]
    · have typing : context.Reports typed.context typed.diagnostics := .typeProgram { context with nextId } program
      have both := (typing.generate program typed.table version).earlier (scan source file).diagnostics
      rw [done, List.append_assoc]
      exact both

end PhaseLang
