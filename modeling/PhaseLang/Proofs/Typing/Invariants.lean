import PhaseLang.Proofs.Typing.Env
import PhaseLang.Proofs.Typing.Weaving

/-!
# What a run of typing keeps

A property of the surface, the table, the context and the diagnostics that looking up a name,
recording a type and reporting keep holds after every run. It is the relation between a state and
itself, woven.
-/

namespace PhaseLang

def Citation.Nodes (N : Expr → Prop) : Citation → Prop
  | .node e => N e
  | _ => True

theorem fits_nodes (cs : List Citation) : Fits (Citation.Nodes fun _ => True) cs := by
  intro c _
  cases c <;> trivial

namespace Typer

/-- A property that typing keeps, if the expressions that it records have the property `N`. -/
structure Invariant (N : Expr → Prop) (J : Typing → Prop) : Prop where
  other : ∀ ⦃s s'⦄, s'.surface = s.surface → s'.table = s.table → s'.context = s.context →
    s'.diagnostics = s.diagnostics → J s → J s'
  lookUp : ∀ ⦃s⦄ name, J s → J (after (Typer.lookUp name) s)
  report : ∀ ⦃s⦄ pos message, J s → J (after (Typer.report pos message) s)
  record : ∀ e, N e → ∀ ⦃s⦄, J s → J (after (exprKind e.pos e.kind) s) → J (after (expr e) s)

def Itself (J : Typing → Prop) (s s' : Typing) : Prop := s' = s ∧ J s

namespace Invariant

variable {N : Expr → Prop} {J : Typing → Prop} {α : Type}

theorem weaves {m : Typer α} {ps : List Position} (notes : Notes ps m) {R : α → α → Prop} (hR : ∀ a, R a a)
    (h : ∀ s, J s → J (after m s)) : Weaves (Itself J) R m m := by
  refine .of_notes notes notes ?_
  rintro s s' ⟨rfl, hs⟩
  exact ⟨hR _, rfl, h s' hs⟩

section
variable (h : Invariant N J)
include h

theorem itself {s s' t t' : Typing} (ht : Itself J t t') (surface : s.surface = t.surface)
    (table : s.table = t.table) (context : s.context = t.context) (diagnostics : s.diagnostics = t.diagnostics)
    (same : s' = s) : Itself J s s' :=
  ⟨same, h.other surface table context diagnostics ht.2⟩

theorem resolveName {s : Typing} (path : TypePath) (hs : J s) : J (after (Typer.resolveName path) s) := by
  have run : Weaves (Itself J) (fun _ _ => True) (Typer.resolveName path) (Typer.resolveName path) := by
    have asked (name : String) : Weaves (Itself J) Eq (Typer.lookUp name) (Typer.lookUp name) :=
      weaves lookUp_idle (fun _ => rfl) fun _ hs => h.lookUp name hs
    refine weaves_get ?_
    rintro s s' ⟨rfl, -⟩
    dsimp only
    split
    · exact weaves_pure trivial
    · exact (asked _).mono fun _ _ _ => trivial
    · refine (asked _).bind fun t u same => ?_
      subst same
      exact weaves_ite (weaves_pure trivial) ((asked _).mono fun _ _ _ => trivial)
  exact (run ⟨rfl, hs⟩).rel.2

theorem weave : Weave .refl (Citation.Nodes N) (fun _ => True) (Itself J) where
  lawful := Redraw.lawful_refl
  scopes s s' hs name := hs.1 ▸ .same fun _ _ _ _ => trivial
  builtin _ := trivial
  resolveName p _ := weaves (resolveName_idle p) (fun _ => .same fun _ _ => trivial) fun _ hs => h.resolveName p hs
  load p _ := weaves lookUp_idle (fun _ => .same fun _ _ => trivial) fun _ hs => h.lookUp _ hs
  report pos message := weaves (report_idle pos message) (fun _ => rfl) fun _ hs => h.report pos message hs
  declare name t u ht s s' hs := h.itself hs rfl rfl rfl rfl (by rw [hs.1, ht.drawn.refl_eq])
  record e he s s' hs woven := by
    obtain ⟨rfl, hs⟩ := hs
    exact ⟨rfl, h.record e he hs woven.rel.2⟩
  enter s s' hs := h.itself hs rfl rfl rfl rfl (by rw [hs.1])
  arms cs s s' run _ := by
    rw [run.1, Redraw.refl_case, List.map_id']
    exact .same fun _ _ => trivial
  leave s s' t t' _ ht _ _ := h.itself ht rfl rfl rfl rfl (by rw [ht.1])
  scope p _ s s' hs := h.itself hs rfl rfl rfl rfl (by rw [hs.1])
  back s s' t t' hs ht := h.itself ht rfl rfl rfl rfl (by rw [hs.1, ht.1])

theorem expr {e : Expr} (he : Fits (Citation.Nodes N) (Cited.ofExpr e)) {s : Typing} (hs : J s) :
    J (after (Typer.expr e) s) :=
  (expr_weaves h.weave e he fits_true ⟨rfl, hs⟩).rel.2

theorem stmts {ss : List Stmt} (hss : Fits (Citation.Nodes N) (Cited.ofStmts ss)) {s : Typing} (hs : J s) :
    J (after (Typer.stmts ss) s) :=
  (stmts_weaves h.weave ss hss fits_true ⟨rfl, hs⟩).rel.2

end

/-- Typing asks the context for names, and changes nothing else in it. -/
theorem of_lasting {I : Context → Prop} (lasting : Context.Lasting I) :
    Invariant (fun _ => True) fun s => I s.context where
  other s s' _ _ same _ hs := same ▸ hs
  lookUp s name hs := lasting s.context name hs
  report s _ _ hs := hs
  record e _ s _ hs := by
    rw [after_expr]
    exact hs

theorem of_surface (surface : Surface) : Invariant (fun _ => True) fun s => s.surface = surface where
  other s s' same _ _ _ hs := same.trans hs
  lookUp s name hs := hs
  report s _ _ hs := hs
  record e _ s _ hs := by
    rw [after_expr]
    exact hs

end Invariant

end Typer

theorem surface_after_stmts (program : List Stmt) (c : Context) :
    (Typer.after (Typer.stmts program) (.start program c)).surface = .ofProgram program :=
  (Typer.Invariant.of_surface _).stmts (fits_nodes _) rfl

theorem typeProgram_context (program : List Stmt) (c : Context) : (typeProgram program c).context =
    (Typer.after (Typer.stmts program) (.start program c)).context.addTypes (Surface.ofProgram program) := by
  rw [← surface_after_stmts program c]
  rfl

end PhaseLang
