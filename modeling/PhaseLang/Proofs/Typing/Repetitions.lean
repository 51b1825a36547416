import Mathlib.Data.List.Duplicate
import PhaseLang.Proofs.Grammar.Seats
import PhaseLang.Proofs.Typing.Records

/-!
# Diagnostics that are issued twice

With no loader, typing reports names only, each where it stands in the source. It looks up a name no more often
than the name stands in the tree. So a diagnostic is issued twice only if the grammar put its name into the tree
twice, as it does with the target of a compound assignment and with the attributes of a method.
-/

namespace PhaseLang

theorem Expr.isName_of_mem_lookups {e name : Expr} (h : name ∈ e.lookups) : name.kind.isName = true := by
  obtain ⟨id, pos, kind⟩ := e
  cases kind with
  | ident _ | this | static =>
    obtain rfl : name = _ := by simpa [lookups] using h
    rfl
  | get target field =>
    obtain ⟨_, _, _, rfl⟩ | computed := field.ident_or
    · obtain rfl : name = _ := by simpa [lookups, ExprKind.plainField, Expr.ident?] using h
      rfl
    · simp [lookups, ExprKind.plainField, computed] at h
  | _ => simp [lookups, ExprKind.plainField] at h

section
variable {program : List Stmt} {context : Context}

theorem typeProgram_doubts (noLoader : context.loader = none) :
    ((typeProgram program context).diagnostics.map (·.pos)).Sublist
      (((visits program context).flatMap (·.expr.lookups)).map (·.pos)) := by
  obtain ⟨new, reports, about⟩ :=
    (Typer.stmts_ran (.start program) (.start program context) program).reports.reported noLoader
  have whole : (typeProgram program context).diagnostics = new := reports
  rw [whole, List.map_flatMap]
  rw [List.append_nil] at about
  exact about

theorem looked_name {name : Expr} (looked : name ∈ (visits program context).flatMap (·.expr.lookups)) :
    name.kind.isName = true ∧ name ∈ Nodes.ofStmts program := by
  obtain ⟨v, -, found⟩ := List.mem_flatMap.mp looked
  have faithful := visits_faithful program context
  have cited : Citation.node name ∈ Cited.ofStmts program :=
    faithful.once.subset (List.mem_map_of_mem (List.mem_append_left _ looked))
  exact ⟨Expr.isName_of_mem_lookups found, faithful.mem name cited⟩

/-- A diagnostic about the source is issued twice only if the name that it is about stands in the tree twice, and
that is because the grammar put it there twice: `Nodes`, where such parts are listed once, has it once. -/
theorem duplicate_name_of_duplicate_diagnostic {source file : String} {nextId next : Nat}
    (read : (readSource source file nextId).result = .ok (program, next)) (noLoader : context.loader = none)
    {d : Diagnostic} (own : d.pos.file ≠ Synthesis.file)
    (twice : List.Duplicate d (typeProgram program context).diagnostics) :
    ∃ e : Expr, e.kind.isName = true ∧ e.pos = d.pos ∧ List.Duplicate (.node e) (Cited.ofStmts program) ∧
      e ∈ Nodes.ofStmts program ∧ ¬ List.Duplicate e (Nodes.ofStmts program) := by
  classical
  have doubts := ((List.duplicate_iff_sublist.mp twice).map Diagnostic.pos).trans (typeProgram_doubts noLoader)
  obtain ⟨names, sub, same⟩ := List.sublist_map_iff.mp doubts
  obtain ⟨e, e', rfl⟩ : ∃ e e', names = [e, e'] := List.length_eq_two.mp (by simpa using congrArg List.length same.symm)
  obtain ⟨here, here'⟩ : d.pos = e.pos ∧ d.pos = e'.pos := by simpa using same
  obtain ⟨named, node⟩ := looked_name (sub.subset (show e ∈ [e, e'] by simp))
  obtain ⟨named', node'⟩ := looked_name (sub.subset (show e' ∈ [e, e'] by simp))
  have first : e ∈ (Nodes.ofStmts program).filter (·.isRead) :=
    List.mem_filter.mpr ⟨node, by simpa [Expr.isRead, named, ← here] using own⟩
  have second : e' ∈ (Nodes.ofStmts program).filter (·.isRead) :=
    List.mem_filter.mpr ⟨node', by simpa [Expr.isRead, named', ← here'] using own⟩
  -- no two names stand at one token, so both lookups are of one node
  obtain rfl : e = e' := List.inj_on_of_nodup_map (readSource_seats read) first second (here.symm.trans here')
  have looked : ([e, e].map Citation.node).Subperm (Cited.ofStmts program) :=
    ((sub.trans (List.sublist_append_left _ _)).map _).subperm.trans (visits_faithful program context).once
  have once : (Nodes.ofStmts program).Nodup := .of_map _ (readSource_built read).distinct
  refine ⟨e, named, here.symm, List.duplicate_iff_two_le_count.mpr ?_, node,
    List.nodup_iff_forall_not_duplicate.mp once e⟩
  simpa using looked.count_le (Citation.node e)

end

theorem compound_reports : ∃ program next, (readSource "x.y += 1" "main.phs" 0).result = .ok (program, next) ∧
    (typeProgram program {}).diagnostics = List.replicate 2 ⟨⟨0, 1, "main.phs"⟩, "Undeclared variable: x"⟩ := by
  have typed :
      ((readSource "x.y += 1" "main.phs" 0).result.toOption.map fun out => (typeProgram out.1 {}).diagnostics) =
      some (List.replicate 2 ⟨⟨0, 1, "main.phs"⟩, "Undeclared variable: x"⟩) := by decide +kernel
  cases read : (readSource "x.y += 1" "main.phs" 0).result with
  | error e => simp [read, Except.toOption] at typed
  | ok out =>
    rw [read] at typed
    exact ⟨out.1, out.2, rfl, Option.some.inj typed⟩

theorem compound_duplicate_name : ∃ program next, (readSource "x.y += 1" "main.phs" 0).result = .ok (program, next) ∧
    ∃ e : Expr, e.kind.isName = true ∧ e.pos = ⟨0, 1, "main.phs"⟩ ∧
      List.Duplicate (.node e) (Cited.ofStmts program) := by
  obtain ⟨program, next, read, reports⟩ := compound_reports
  have twice : List.Duplicate ⟨⟨0, 1, "main.phs"⟩, "Undeclared variable: x"⟩ (typeProgram program {}).diagnostics := by
    rw [reports]
    exact .cons_mem (List.mem_singleton.mpr rfl)
  obtain ⟨e, named, here, both, -⟩ := duplicate_name_of_duplicate_diagnostic read rfl (by decide) twice
  exact ⟨program, next, read, e, named, here, both⟩

/-- The object that a member is added to is reported twice. -/
theorem compound_reports_twice : ∃ program next, (readSource "x.y += 1" "main.phs" 0).result = .ok (program, next) ∧
    ¬ (typeProgram program {}).diagnostics.Nodup := by
  obtain ⟨program, next, read, reports⟩ := compound_reports
  refine ⟨program, next, read, ?_⟩
  rw [reports]
  decide

end PhaseLang
