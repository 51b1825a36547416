import PhaseLang.Proofs.Typing.Env
import PhaseLang.Proofs.Typing.Weaving

/-!
# Typing a piece of code again

In a blank context, typing the same code from two states that agree on what names mean gives
the same types and the same entries of the table. So it does not matter that some code, such
as the target of a compound assignment, stands in the tree twice.
-/

namespace PhaseLang

namespace Scopes

variable {s : Scopes} {top : Bindings Ty} {rest : List (Bindings Ty)}

theorem Stack.resolve_enter (h : s.Stack rest) : s.enter.resolve = s.resolve := by
  funext name
  rw [h.enter.resolve, h.resolve]
  rfl

theorem Stack.resolve_declare (h : s.Stack (top :: rest)) (name : String) (type : Ty) :
    (s.declare name type).resolve = fun n => if name = n then some type else s.resolve n := by
  funext n
  rw [(h.declare name type).resolve, h.resolve]
  simp only [lookUp, List.findSome?_cons, Bindings.get?_insert]
  by_cases same : name = n <;> simp [same]

end Scopes

structure Alike (s s' : Typing) : Prop where
  env : s.env = s'.env
  blank : s.context.Blank
  blank' : s'.context.Blank
  stack : ∃ top rest, s.scopes.Stack (top :: rest)
  stack' : ∃ top rest, s'.scopes.Stack (top :: rest)

namespace Alike

variable {s s' : Typing}

theorem of_env {t t' : Typing} (h : Alike s s') (env : t.env = s.env) (env' : t'.env = s'.env)
    (blank : t.context.Blank) (blank' : t'.context.Blank) (stack : ∃ top rest, t.scopes.Stack (top :: rest))
    (stack' : ∃ top rest, t'.scopes.Stack (top :: rest)) : Alike t t' :=
  ⟨by rw [env, env', h.env], blank, blank', stack, stack'⟩

theorem symm (h : Alike s s') : Alike s' s := ⟨h.env.symm, h.blank', h.blank, h.stack', h.stack⟩

theorem left (h : Alike s s') : Alike s s := ⟨rfl, h.blank, h.blank, h.stack, h.stack⟩

theorem enter_left (h : Alike s s') : Alike s.enter s' := by
  obtain ⟨top, rest, hs⟩ := h.stack
  refine h.of_env ?_ rfl h.blank h.blank' ⟨_, _, hs.enter⟩ h.stack'
  simp only [Typing.env, Typing.enter, hs.resolve_enter]

theorem enter (h : Alike s s') : Alike s.enter s'.enter := h.enter_left.symm.enter_left.symm

theorem withNs (h : Alike s s') (ns : List String) : Alike { s with ns } { s' with ns } :=
  ⟨congrArg (fun E : Env => ({ E with ns } : Env)) h.env, h.blank, h.blank', h.stack, h.stack'⟩

end Alike

namespace Typer

variable {α β : Type}

def Replays (m : Typer α) : Prop :=
  ∀ ⦃s s' : Typing⦄, Alike s s' → Alike (after m s) (after m s') ∧
    ∃ new, (after m s).table.entries = new ++ s.table.entries ∧
      (after m s').table.entries = new ++ s'.table.entries

/-! ## Arms -/

def armType? (table : TypeTable) (c : Case) : Option Ty :=
  match c.body with
  | [⟨_, .expr e⟩] => table.typeOf? e
  | _ => none

theorem armType?_append {new old : List (Nat × Ty)} {c : Case}
    (recorded : ∀ pos e, c.body = [⟨pos, .expr e⟩] → ∃ type, (e.id, type) ∈ new) :
    armType? ⟨new ++ old⟩ c = armType? ⟨new⟩ c := by
  unfold armType?
  split
  · rename_i pos e body
    obtain ⟨type, found⟩ := recorded pos e body
    simp only [TypeTable.typeOf?, TypeTable.get?, List.lookup_append]
    cases h : List.lookup e.id new with
    | some _ => rfl
    | none => simpa using List.lookup_eq_none_iff.mp h _ found
  · rfl

theorem firstArm_append {new old : List (Nat × Ty)} {cs : List Case}
    (recorded : ∀ c ∈ cs, ∀ pos e, c.body = [⟨pos, .expr e⟩] → ∃ type, (e.id, type) ∈ new) :
    firstArm ⟨new ++ old⟩ cs = firstArm ⟨new⟩ cs := by
  suffices same : cs.findSome? (armType? ⟨new ++ old⟩) = cs.findSome? (armType? ⟨new⟩) from congrArg (·.getD .any) same
  induction cs with
  | nil => rfl
  | cons c cs ih =>
    simp only [List.forall_mem_cons] at recorded
    rw [List.findSome?_cons, List.findSome?_cons, armType?_append recorded.1, ih recorded.2]

theorem mem_ofExpr_self (p : Place) (s : Typing) (e : Expr) : ⟨e, p, s⟩ ∈ Visits.ofExpr p s e := by
  obtain ⟨_, _, _⟩ := e
  simp [Visits.ofExpr]

theorem exists_visit_of_arm (opener : List Stmt → Opener) (p : Place) {c : Case} {pos : Position} {e : Expr}
    (body : c.body = [⟨pos, .expr e⟩]) :
    ∀ (s : Typing) {cs : List Case}, c ∈ cs → ∃ v ∈ Visits.ofCases opener p s cs, v.expr = e
  | s, ⟨condition, b⟩ :: cs, h => by
    simp only [Visits.ofCases, List.mem_append]
    rcases List.mem_cons.mp h with rfl | h
    · simp only at body
      subst body
      have inBody (q : Place) (s : Typing) : ⟨e, q, s⟩ ∈ Visits.ofStmts q s [⟨pos, .expr e⟩] := by
        simp only [Visits.ofStmts, Visits.ofStmt, Visits.ofStmtKind, List.append_nil]
        exact mem_ofExpr_self q s e
      exact ⟨_, .inl (.inr (inBody _ _)), rfl⟩
    · obtain ⟨v, hv, he⟩ := exists_visit_of_arm opener p body (after (cases [⟨condition, b⟩]) s) h
      exact ⟨v, .inr hv, he⟩

/-! ## Two runs from alike states -/

structure Replayed (old old' : List (Nat × Ty)) (s s' : Typing) : Prop extends Alike s s' where
  entered : ∃ new, s.table.entries = new ++ old ∧ s'.table.entries = new ++ old'

section
variable {old old' : List (Nat × Ty)} {s s' : Typing}

theorem Replayed.with (h : Replayed old old' s s') {t t' : Typing} (alike : Alike t t') (table : t.table = s.table)
    (table' : t'.table = s'.table) : Replayed old old' t t' := ⟨alike, table ▸ table' ▸ h.entered⟩

theorem Evals.weaves {m : Typer α} (h : ∀ E, ∃ a, Evals E m a) {ps : List Position} (notes : Notes ps m)
    {R : α → α → Prop} (hR : ∀ a, R a a) : Weaves (Replayed old old') R m m := by
  refine .of_notes notes notes fun s s' hs => ?_
  obtain ⟨a, ha⟩ := h s.env
  obtain ⟨value, env, blank⟩ := ha s rfl hs.blank
  obtain ⟨value', env', blank'⟩ := ha s' hs.env.symm hs.blank'
  obtain ⟨scopes, _, _, table, _⟩ := notes s
  obtain ⟨scopes', _, _, table', _⟩ := notes s'
  rw [value, value']
  refine ⟨hR a, hs.with ?_ table table'⟩
  exact hs.of_env env (env'.trans hs.env) blank blank' (scopes ▸ hs.stack) (scopes' ▸ hs.stack')

theorem leave_resolve {s t : Typing} (hs : ∃ top rest, s.scopes.Stack (top :: rest)) (run : s.enter.Leads t) :
    t.leave.scopes.resolve = s.scopes.resolve ∧ ∃ top rest, t.leave.scopes.Stack (top :: rest) := by
  obtain ⟨top, rest, hs⟩ := hs
  obtain ⟨_, inner⟩ := run.stack hs.enter
  refine ⟨?_, top, rest, inner.leave⟩
  funext name
  exact (inner.leave.resolve name).trans (hs.resolve name).symm

theorem leave_env {s t : Typing} (hs : ∃ top rest, s.scopes.Stack (top :: rest)) (run : s.enter.Leads t) :
    t.leave.env = s.env ∧ ∃ top rest, t.leave.scopes.Stack (top :: rest) := by
  obtain ⟨scope, stack⟩ := leave_resolve hs run
  refine ⟨?_, stack⟩
  show Env.mk t.leave.scopes.resolve t.ns t.surface = _
  rw [scope, run.ns, run.surface]
  rfl

theorem alike_declare (h : Alike s s') (name : String) (type : Ty) :
    Alike (after (declare name type) s) (after (declare name type) s') := by
  obtain ⟨top, rest, hs⟩ := h.stack
  obtain ⟨top', rest', hs'⟩ := h.stack'
  have scope : s.scopes.resolve = s'.scopes.resolve := congrArg Env.scope h.env
  have ns : s.ns = s'.ns := congrArg Env.ns h.env
  have surface : s.surface = s'.surface := congrArg Env.surface h.env
  refine ⟨?_, h.blank, h.blank', ⟨_, _, hs.declare name type⟩, ⟨_, _, hs'.declare name type⟩⟩
  show Env.mk (s.scopes.declare name type).resolve s.ns s.surface =
    Env.mk (s'.scopes.declare name type).resolve s'.ns s'.surface
  rw [hs.resolve_declare, hs'.resolve_declare, scope, ns, surface]

/-- Older entries of the ids could differ, but all arms were recorded in this run. -/
theorem firstArm_replayed (cs : List Case) (h : Replayed old old' s s')
    (run : Replayed old old' (after (cases cs) s) (after (cases cs) s')) :
    firstArm (after (cases cs) s').table cs = firstArm (after (cases cs) s).table cs := by
  obtain ⟨new, table, table'⟩ := run.entered
  obtain ⟨before, start, -⟩ := h.entered
  have recorded : ∀ c ∈ cs, ∀ pos e, c.body = [⟨pos, .expr e⟩] → ∃ type, (e.id, type) ∈ new := by
    intro c hc pos e body
    obtain ⟨v, hv, rfl⟩ := exists_visit_of_arm .ofArm [] body s hc
    have visited := (cases_ran .ofArm [] s cs).table
    rw [table, start, ← List.append_assoc, List.append_cancel_right_eq] at visited
    exact ⟨v.type, by rw [visited]; simpa using .inl ⟨v, hv, rfl⟩⟩
  calc firstArm (after (cases cs) s').table cs = firstArm ⟨new ++ old'⟩ cs := by rw [← table']
    _ = firstArm ⟨new ++ old⟩ cs := by rw [firstArm_append recorded, firstArm_append recorded]
    _ = firstArm (after (cases cs) s).table cs := by rw [← table]

end

theorem replayed_weave {old old' : List (Nat × Ty)} :
    Weave .refl (fun _ => True) (fun _ => True) (Replayed old old') where
  lawful := Redraw.lawful_refl
  scopes s s' hs name := by
    rw [show s.scopes.resolve = s'.scopes.resolve from congrArg Env.scope hs.env]
    exact .same fun _ _ _ _ => trivial
  builtin _ := trivial
  resolveName p _ :=
    Evals.weaves (fun _ => ⟨_, resolveName_evals p⟩) (resolveName_idle p) fun _ => .same fun _ _ => trivial
  load p _ := Evals.weaves (fun _ => ⟨_, lookUp_evals _⟩) lookUp_idle fun _ => .same fun _ _ => trivial
  report pos message := Evals.weaves (fun _ => ⟨_, report_evals pos message⟩) (report_idle pos message) fun _ => rfl
  declare name t u ht s s' hs := by
    obtain rfl := ht.drawn.refl_eq
    exact hs.with (alike_declare hs.toAlike name u) rfl rfl
  record e _ s s' hs woven := by
    obtain ⟨value, -, -, next⟩ := woven
    obtain ⟨new, table, table'⟩ := next.entered
    rw [after_expr, after_expr, value.drawn.refl_eq]
    refine ⟨next.of_env rfl rfl next.blank next.blank' next.stack next.stack',
      (e.id, ((exprKind e.pos e.kind).run s).1) :: new, ?_, ?_⟩
    · exact congrArg (_ :: ·) table
    · exact congrArg (_ :: ·) table'
  arms cs s s' run hs := by
    rw [Redraw.refl_case, List.map_id'] at run ⊢
    rw [firstArm_replayed cs hs run]
    exact .same fun _ _ => trivial
  enter s s' hs := hs.with hs.toAlike.enter rfl rfl
  leave s s' t t' hs ht run run' := by
    obtain ⟨env, stack⟩ := leave_env hs.stack run
    obtain ⟨env', stack'⟩ := leave_env hs.stack' run'
    exact ht.with (hs.of_env env env' ht.blank ht.blank' stack stack') rfl rfl
  scope p _ s s' hs := hs.with (hs.withNs p.segments) rfl rfl
  back s s' t t' hs ht := by
    have same : s.ns = s'.ns := congrArg Env.ns hs.env
    rw [← same]
    exact ht.with (ht.withNs s.ns) rfl rfl

theorem Replays.of_weaves {m m' : Typer α} {R : α → α → Prop} (same : m' = m)
    (h : ∀ old old', Weaves (Replayed old old') R m m') : Replays m := by
  subst same
  intro s s' alike
  have after := (h s.table.entries s'.table.entries ⟨alike, [], rfl, rfl⟩).rel
  exact ⟨after.toAlike, after.entered⟩

theorem exprKind_replays (pos : Position) (kind : ExprKind) : Replays (exprKind pos kind) :=
  .of_weaves (by simp; rfl) fun _ _ => exprKind_weaves replayed_weave 0 pos kind trivial fits_true fits_true

end Typer

/-! ## Code -/

namespace Code

def run : Code → Typer Unit
  | expr e => do let _ ← Typer.expr e
  | optional e => do let _ ← Typer.optional e
  | exprs es => Typer.exprs es
  | arguments as => Typer.arguments as
  | entries es => Typer.entries es
  | cases cs => Typer.cases cs
  | arm c => Typer.cases [c]
  | stmt x => Typer.stmt x
  | stmts xs => Typer.stmts xs
  | alternative x => Typer.alternative x
  | body x => Typer.body x
  | function f => Typer.function f
  | params ps => Typer.params ps
  | param p => Typer.params [p]
  | classBody c => Typer.inFrame do
    Typer.bindSelf c
    Typer.exprs c.attributes
    Typer.members c.members
  | members ms => Typer.members ms
  | memberKind kind => Typer.memberKind kind
  | accessor f => Typer.accessor f
  | typed type => do let _ ← type.mapM Typer.resolve
  | loopNames key value target => Typer.bindLoop key value target
  | caught name type => Typer.bindCaught name type
  | self c => Typer.bindSelf c
  | declared name type => Typer.declare name type

open Typer

theorem replays : ∀ c : Code, Replays c.run
  | expr e => .of_weaves rfl fun _ _ => (expr_weaves replayed_weave e fits_true fits_true).andThen <| weaves_pure rfl
  | optional e => .of_weaves (by simp; rfl) fun _ _ =>
    (optional_weaves replayed_weave e fits_true fits_true).andThen <| weaves_pure rfl
  | exprs es => .of_weaves (by simp; rfl) fun _ _ => exprs_weaves replayed_weave es fits_true fits_true
  | arguments as => .of_weaves (by simp; rfl) fun _ _ => arguments_weaves replayed_weave as fits_true fits_true
  | entries es => .of_weaves (by simp; rfl) fun _ _ => entries_weaves replayed_weave es fits_true fits_true
  | cases cs => .of_weaves (by simp; rfl) fun _ _ => cases_weaves replayed_weave cs fits_true fits_true
  | arm c => .of_weaves (by simp; rfl) fun _ _ => cases_weaves replayed_weave [c] fits_true fits_true
  | stmt x => .of_weaves rfl fun _ _ => stmt_weaves replayed_weave x fits_true fits_true
  | stmts xs => .of_weaves (by simp; rfl) fun _ _ => stmts_weaves replayed_weave xs fits_true fits_true
  | alternative x => .of_weaves (by simp; rfl) fun _ _ => alternative_weaves replayed_weave x fits_true fits_true
  | body x => .of_weaves (by simp; rfl) fun _ _ => body_weaves replayed_weave x fits_true fits_true
  | function f => .of_weaves rfl fun _ _ => function_weaves replayed_weave f fits_true fits_true
  | params ps => .of_weaves (by simp; rfl) fun _ _ => params_weaves replayed_weave ps fits_true fits_true
  | param p => .of_weaves (by simp; rfl) fun _ _ => params_weaves replayed_weave [p] fits_true fits_true
  | classBody c => .of_weaves (by simp; rfl) fun _ _ => inFrame_weaves replayed_weave <|
      (bindSelf_weaves replayed_weave (.same fun _ _ => trivial)).andThen <|
        (exprs_weaves replayed_weave c.attributes fits_true fits_true).andThen <|
          members_weaves replayed_weave c.members fits_true fits_true
  | members ms => .of_weaves (by simp; rfl) fun _ _ => members_weaves replayed_weave ms fits_true fits_true
  | memberKind kind => .of_weaves (by simp; rfl) fun _ _ => memberKind_weaves replayed_weave kind fits_true fits_true
  | accessor f => .of_weaves (by simp; rfl) fun _ _ => accessor_weaves replayed_weave f fits_true fits_true
  | typed type => .of_weaves rfl fun _ _ =>
      (mapM_resolve_weaves replayed_weave fun _ _ => trivial).andThen <| weaves_pure rfl
  | loopNames key value target => .of_weaves rfl fun _ _ => bindLoop_weaves replayed_weave key value target
  | caught name type => .of_weaves rfl fun _ _ => bindCaught_weaves replayed_weave name fits_true
  | self c => .of_weaves rfl fun _ _ => bindSelf_weaves replayed_weave (.same fun _ _ => trivial)
  | declared name type => .of_weaves rfl fun _ _ => declare_weaves replayed_weave name (.same fun _ _ => trivial)

end Code

end PhaseLang
