import PhaseLang.Proofs.Typing.Places
import PhaseLang.Proofs.Typing.Replay
import PhaseLang.Proofs.Typing.Retyping

/-!
# Typing a redrawn program

Typing a redrawn program gives the types of the program, redrawn as well, and reports the same.
-/

namespace PhaseLang

/-- The second state is the first one redrawn. Neither context knows a declaration. -/
structure Typing.Drawn (D : Redraw) (A : Citation → Prop) (K : Class → Prop) (s s' : Typing) : Prop where
  scope : ∀ name, Twin? D A K (s.scopes.resolve name) (s'.scopes.resolve name)
  ns : s'.ns = s.ns
  surface : ∀ name, Twin? D A K (s.surface.get? name) (s'.surface.get? name)
  table : ∀ id, Twin? D A K (s.table.get? id) (s'.table.get? (D.id id))
  messages : s'.diagnostics.map (·.message) = s.diagnostics.map (·.message)
  blank : s.context.Blank
  blank' : s'.context.Blank
  stack : ∃ top rest, s.scopes.Stack (top :: rest)
  stack' : ∃ top rest, s'.scopes.Stack (top :: rest)

/-- What typing asks of the way a program is redrawn. -/
structure Redraw.Typable (D : Redraw) (A : Citation → Prop) : Prop where
  lawful : D.Lawful
  ids : Function.Injective D.id
  paths : ∀ p, A (.path p)

section
variable {D : Redraw} {A : Citation → Prop} {K : Class → Prop}

namespace Typing.Drawn

variable {s s' : Typing}

theorem enter_left (h : s.Drawn D A K s') : s.enter.Drawn D A K s' := by
  obtain ⟨top, rest, hs⟩ := h.stack
  refine { h with scope := fun name => ?_, stack := ⟨_, _, hs.enter⟩ }
  show Twin? D A K (s.scopes.enter.resolve name) _
  rw [hs.resolve_enter]
  exact h.scope name

theorem enter_right (h : s.Drawn D A K s') : s.Drawn D A K s'.enter := by
  obtain ⟨top, rest, hs⟩ := h.stack'
  refine { h with scope := fun name => ?_, stack' := ⟨_, _, hs.enter⟩ }
  show Twin? D A K _ (s'.scopes.enter.resolve name)
  rw [hs.resolve_enter]
  exact h.scope name

theorem leave (h : s.Drawn D A K s') {t t' : Typing} (ht : t.Drawn D A K t') (run : s.enter.Leads t)
    (run' : s'.enter.Leads t') : t.leave.Drawn D A K t'.leave := by
  obtain ⟨scope, stack⟩ := Typer.leave_resolve h.stack run
  obtain ⟨scope', stack'⟩ := Typer.leave_resolve h.stack' run'
  exact { ht with scope := fun name => by rw [scope, scope']; exact h.scope name, stack, stack' }

theorem declare (h : s.Drawn D A K s') (name : String) {t u : Ty} (twin : Twin D A K t u) :
    (Typer.after (Typer.declare name t) s).Drawn D A K (Typer.after (Typer.declare name u) s') := by
  obtain ⟨top, rest, hs⟩ := h.stack
  obtain ⟨top', rest', hs'⟩ := h.stack'
  refine { h with scope := fun other => ?_, stack := ⟨_, _, hs.declare name t⟩, stack' := ⟨_, _, hs'.declare name u⟩ }
  show Twin? D A K ((s.scopes.declare name t).resolve other) ((s'.scopes.declare name u).resolve other)
  simp only [hs.resolve_declare, hs'.resolve_declare]
  split
  · exact .some twin
  · exact h.scope other

end Typing.Drawn

namespace Redraw.Typable

open Typer

variable (h : D.Typable A)
include h

theorem lookUp_weaves (name : String) : Weaves (Typing.Drawn D A K) (Twin D A K) (lookUp name) (lookUp name) := by
  refine .of_notes lookUp_idle lookUp_idle fun s s' hs => ?_
  have left := hs.blank.getType name
  have right := hs.blank'.getType name
  refine ⟨?_, { hs with blank := left.2, blank' := right.2, messages := ?_ }⟩
  · show Twin D A K (s.context.getType name).1 (s'.context.getType name).1
    rw [left.1, right.1]
    exact ⟨.unknown _, fun p _ => h.paths p, trivial⟩
  · show (s'.diagnostics ++ (s'.context.getType name).2.2).map (·.message) =
      (s.diagnostics ++ (s.context.getType name).2.2).map (·.message)
    rw [hs.blank.getType_reports, hs.blank'.getType_reports]
    simpa using hs.messages

theorem resolveName_weaves (path : TypePath) :
    Weaves (Typing.Drawn D A K) (Twin D A K) (resolveName path) (resolveName path) := by
  refine weaves_get fun s s' hs => ?_
  have visible : Twin? D A K (if path.absolute then none else s.scopes.resolve path.qualifiedName)
      (if path.absolute then none else s'.scopes.resolve path.qualifiedName) := by
    split
    · exact .none
    · exact hs.scope _
  rw [hs.ns]
  dsimp only
  generalize hi : (if path.absolute || s.ns.isEmpty then none else some (path.qualify s.ns).qualifiedName) = inner
  have own : Twin? D A K ((inner.bind s.surface.get?).or (s.surface.get? path.qualifiedName))
      ((inner.bind s'.surface.get?).or (s'.surface.get? path.qualifiedName)) := by
    refine Twin?.or ?_ (hs.surface _)
    cases inner with
    | none => exact .none
    | some inner => exact hs.surface inner
  have found := visible.or own
  generalize (Option.or _ _ : Option Ty) = a at found ⊢
  generalize (Option.or _ _ : Option Ty) = b at found ⊢
  cases found with
  | some twin => exact weaves_pure twin
  | none =>
    cases inner with
    | none => exact h.lookUp_weaves _
    | some inner =>
      refine (h.lookUp_weaves _).bind fun t u twin => ?_
      rw [twin.isInformative]
      exact weaves_ite (weaves_pure twin) (h.lookUp_weaves _)

theorem weave : Weave D A K (Typing.Drawn D A K) where
  lawful := h.lawful
  scopes s s' hs := hs.scope
  builtin _ := h.paths _
  resolveName p _ := h.resolveName_weaves p
  load p _ := h.lookUp_weaves _
  report pos message := by
    refine .of_notes (report_idle pos message) (report_idle _ message) fun s s' hs => ⟨rfl, { hs with messages := ?_ }⟩
    show (List.append s'.diagnostics [⟨_, message⟩]).map (·.message) =
      (List.append s.diagnostics [⟨pos, message⟩]).map (·.message)
    simp [hs.messages]
  declare name t u twin s s' hs := hs.declare name twin
  record e _ s s' hs woven := by
    obtain ⟨id, pos, kind⟩ := e
    obtain ⟨value, -, -, next⟩ := woven
    rw [h.lawful.expr] at value next ⊢
    rw [after_expr, after_expr]
    refine { next with table := fun other => ?_ }
    rw [TypeTable.get?_insert, TypeTable.get?_insert]
    by_cases same : other = id
    · rw [if_pos same, if_pos (congrArg D.id same)]
      exact .some value
    · rw [if_neg same, if_neg fun eq => same (h.ids eq)]
      exact next.table other
  arms cs s s' run _ := by
    refine firstArm_twin h.lawful fun c hc at' e body => ?_
    obtain ⟨id, _, _⟩ := e
    rw [h.lawful.expr]
    exact run.table id
  enter s s' hs := hs.enter_left.enter_right
  leave s s' t t' hs ht run run' := hs.leave ht run run'
  scope p _ s s' hs := { hs with ns := rfl }
  back s s' t t' hs ht := { ht with ns := hs.ns }

end Redraw.Typable

/-! ## Declarations -/

namespace Bindings

/-- The same names, in the same order, with values in the relation `R`. -/
abbrev Like {α : Type} (R : α → α → Prop) : Bindings α → Bindings α → Prop :=
  List.Forall₂ fun a b => a.1 = b.1 ∧ R a.2 b.2

namespace Like

variable {α : Type} {R : α → α → Prop} {bs bs' : Bindings α}

theorem get? (h : Like R bs bs') (name : String) : Option.Rel R (Bindings.get? name bs) (Bindings.get? name bs') := by
  induction h with
  | nil => exact .none
  | @cons a b bs bs' head rest ih =>
    obtain ⟨n, x⟩ := a
    obtain ⟨m, y⟩ := b
    obtain ⟨rfl, hR⟩ := head
    unfold Bindings.get?
    split
    · exact .some hR
    · exact ih

theorem insert (h : Like R bs bs') (name : String) {x y : α} (hR : R x y) :
    Like R (Bindings.insert name x bs) (Bindings.insert name y bs') := by
  induction h with
  | nil => exact .cons ⟨rfl, hR⟩ .nil
  | @cons a b bs bs' head rest ih =>
    obtain ⟨n, a⟩ := a
    obtain ⟨m, b⟩ := b
    obtain ⟨rfl, old⟩ := head
    unfold Bindings.insert
    split
    · exact .cons ⟨rfl, hR⟩ rest
    · exact .cons ⟨rfl, old⟩ ih

theorem insertAll {new new' : Bindings α} (hn : Like R new new') :
    ∀ {bs bs' : Bindings α}, Like R bs bs' → Like R (bs.insertAll new) (bs'.insertAll new') := by
  induction hn with
  | nil => exact fun h => h
  | @cons a b new new' head rest ih =>
    obtain ⟨n, x⟩ := a
    obtain ⟨m, y⟩ := b
    obtain ⟨rfl, hR⟩ := head
    exact fun h => ih (h.insert n hR)

end Like

end Bindings

namespace Declaration

structure Drawn (D : Redraw) (A : Citation → Prop) (K : Class → Prop) (d d' : Declaration) : Prop where
  ns : d.ns = d'.ns
  name : d.name = d'.name
  type : Twin D A K d.type d'.type

mutual

theorem ofStmt_drawn (lawful : D.Lawful) (paths : ∀ p, A (.path p)) (ns : List String) :
    ∀ s : Stmt, Fits K (Inside.ofStmt s) →
    List.Forall₂ (Drawn D A K) (ofStmt ns s) (ofStmt ns (D.stmt s))
  | ⟨pos, .inNamespace path decls⟩, k => by
    rw [lawful.stmt]
    exact ofStmts_drawn lawful paths path.segments decls k
  | ⟨pos, .cls c⟩, k => by
    rw [lawful.stmt]
    have within : K c := k c (by simp [Inside.mem_ofClass])
    exact .cons ⟨rfl, by cases c; rw [lawful.cls], .classOf c, fun p _ => paths p, within⟩ .nil
  | ⟨pos, .func f⟩, _ => by
    rw [lawful.stmt]
    exact .cons ⟨rfl, by cases f; rw [lawful.func], .func f, fun p _ => paths p, trivial⟩ .nil
  | ⟨_, .expr _⟩, _ | ⟨_, .raise _⟩, _ | ⟨_, .use _ _ _⟩, _ | ⟨_, .var _ _ _⟩, _ | ⟨_, .global _⟩, _
  | ⟨_, .attempt _ _⟩, _ | ⟨_, .handler _ _ _⟩, _ | ⟨_, .loop _ _ _⟩, _ | ⟨_, .forIn _ _ _ _⟩, _
  | ⟨_, .branch _ _ _⟩, _ | ⟨_, .switch _ _⟩, _ | ⟨_, .block _⟩, _ | ⟨_, .ret _⟩, _ => by
    rw [lawful.stmt]
    exact .nil

theorem ofStmts_drawn (lawful : D.Lawful) (paths : ∀ p, A (.path p)) (ns : List String) :
    ∀ ss : List Stmt, Fits K (Inside.ofStmts ss) →
    List.Forall₂ (Drawn D A K) (ofStmts ns ss) (ofStmts ns (ss.map D.stmt))
  | [], _ => .nil
  | s :: ss, k => List.rel_append (ofStmt_drawn lawful paths ns s k.left) (ofStmts_drawn lawful paths ns ss k.right)

end

end Declaration

/-! ## Whole programs -/

variable {program : List Stmt} {c c' : Context}

theorem Surface.ofProgram_like (h : D.Typable A) (k : Fits K (Inside.ofStmts program)) :
    Bindings.Like (Twin D A K) (ofProgram program) (ofProgram (program.map D.stmt)) := by
  refine .insertAll (List.rel_map (fun d d' hd => ?_) (Declaration.ofStmts_drawn h.lawful h.paths [] program k)) .nil
  exact ⟨by rw [Declaration.qualifiedName, Declaration.qualifiedName, hd.ns, hd.name], hd.type⟩

theorem Surface.at?_drawn (h : D.Typable A) (k : Fits K (Inside.ofStmts program)) (key : String) :
    Twin? D A K ((ofProgram program).at? key) ((ofProgram (program.map D.stmt)).at? key) := by
  refine Bindings.Like.get? (.insertAll (List.rel_map (fun a b hd => ?_) (ofProgram_like h k)) .nil) key
  exact ⟨congrArg QualifiedName.key hd.1, hd.2⟩

theorem Typing.start_drawn (h : D.Typable A) (k : Fits K (Inside.ofStmts program)) (blank : c.Blank)
    (blank' : c'.Blank) : (Typing.start program c).Drawn D A K (.start (program.map D.stmt) c') := by
  have empty : Scopes.Stack {} [[]] := .root (f := { parent := none }) rfl rfl
  have stack := empty.declareAll (Declaration.ofStmts [] program)
  have stack' := empty.declareAll (Declaration.ofStmts [] (program.map D.stmt))
  have like : Bindings.Like (Twin D A K) ((Declaration.ofStmts [] program).map fun d => (d.name, d.type))
      ((Declaration.ofStmts [] (program.map D.stmt)).map fun d => (d.name, d.type)) :=
    List.rel_map (fun _ _ hd => ⟨hd.name, hd.type⟩) (Declaration.ofStmts_drawn h.lawful h.paths [] program k)
  exact {
    scope := fun name => by
      simp only [Typing.start, stack.resolve, stack'.resolve, Scopes.lookUp, List.findSome?_cons, List.findSome?_nil]
      have found : Twin? D A K _ _ := (like.insertAll .nil).get? name
      generalize Bindings.get? name _ = a at found ⊢
      generalize Bindings.get? name _ = b at found ⊢
      cases found with
      | some twin => exact .some twin
      | none => exact .none
    ns := rfl
    surface := (Surface.ofProgram_like h k).get?
    table := fun _ => .none
    messages := rfl
    blank
    blank'
    stack := ⟨_, _, stack⟩
    stack' := ⟨_, _, stack'⟩ }

end

end PhaseLang
