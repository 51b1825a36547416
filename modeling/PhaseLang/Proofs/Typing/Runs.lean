import PhaseLang.Proofs.Typing.Frames
import PhaseLang.Proofs.Typing.Visits

/-!
# What typing changes

Resolving names changes nothing but the context and the diagnostics. Typing a piece of code
binds its names in the current frame, leaves the frames around it as they were, and records
the types of what it visits, newest first.
-/

namespace PhaseLang

namespace Bindings

variable {α : Type}

@[simp] theorem insertAll_append (bs new more : Bindings α) :
    bs.insertAll (new ++ more) = (bs.insertAll new).insertAll more := by
  simp [insertAll]

end Bindings

namespace Scopes

def bindings? (s : Scopes) (i : Nat) : Option (Bindings Ty) := s.frames[i]?.map (·.bindings)

/-- From `s` on the names were bound in the current frame, in this order. Of the other frames there
were, none has changed. -/
structure Binds (s : Scopes) (names : List String) (s' : Scopes) : Prop where
  current : s'.current = s.current
  grows : s.size ≤ s'.size
  ordered : s.Ordered → s'.Ordered
  parents : ∀ i, i < s.size → s'.parent? i = s.parent? i
  others : ∀ i, i < s.size → i ≠ s.current → s'.bindings? i = s.bindings? i
  own : ∃ new : Bindings Ty, new.map (·.1) = names ∧
    s'.bindings? s.current = (s.bindings? s.current).map (·.insertAll new)

theorem bindings?_enter (s : Scopes) {i : Nat} (h : i < s.size) : s.enter.bindings? i = s.bindings? i := by
  unfold bindings?
  rw [enter_frame, if_neg (by omega)]
  split
  · cases s.frames[i]? <;> rfl
  · rfl

@[simp] theorem bindings?_leave (s : Scopes) (i : Nat) : s.leave.bindings? i = s.bindings? i := by
  rw [bindings?, leave_frames, bindings?]

theorem bindings?_declare (s : Scopes) (name : String) (type : Ty) (i : Nat) : (s.declare name type).bindings? i =
    if s.current = i then (s.bindings? i).map (·.insert name type) else s.bindings? i := by
  unfold bindings?
  rw [declare_frame]
  split
  · cases s.frames[i]? <;> rfl
  · rfl

namespace Binds

variable {s s' s'' : Scopes} {names more : List String}

theorem refl (s : Scopes) : s.Binds [] s where
  current := rfl
  grows := Nat.le_refl _
  ordered h := h
  parents _ _ := rfl
  others _ _ _ := rfl
  own := ⟨[], rfl, by cases s.bindings? s.current <;> rfl⟩

theorem trans (h : s.Binds names s') (h' : s'.Binds more s'') : s.Binds (names ++ more) s'' where
  current := h'.current.trans h.current
  grows := Nat.le_trans h.grows h'.grows
  ordered := h'.ordered ∘ h.ordered
  parents i hi := (h'.parents i (Nat.lt_of_lt_of_le hi h.grows)).trans (h.parents i hi)
  others i hi hne :=
    (h'.others i (Nat.lt_of_lt_of_le hi h.grows) (h.current ▸ hne)).trans (h.others i hi hne)
  own := by
    obtain ⟨new, rfl, own⟩ := h.own
    obtain ⟨new', rfl, own'⟩ := h'.own
    refine ⟨new ++ new', List.map_append, ?_⟩
    rw [h.current] at own'
    rw [own', own, Option.map_map]
    simp [Function.comp_def]

theorem declare (name : String) (type : Ty) (s : Scopes) : s.Binds [name] (s.declare name type) where
  current := rfl
  grows := by simp
  ordered h := h.declare name type
  parents i _ := parent?_declare s name type i
  others i _ hne := by rw [bindings?_declare, if_neg hne.symm]
  own := ⟨[(name, type)], rfl, by rw [bindings?_declare, if_pos rfl]; rfl⟩

theorem valid (h : s.Binds names s') (valid : s.current < s.size) : s'.current < s'.size :=
  h.current ▸ Nat.lt_of_lt_of_le valid h.grows

theorem inFrame (h : s.enter.Binds names s') (valid : s.current < s.size) : s.Binds [] s'.leave := by
  have opened : s.enter.current = s.size := rfl
  have size : s.enter.size = s.size + 1 := size_enter s
  have around : s'.parent? s'.current = some s.current := by
    rw [h.current, h.parents _ (by omega), parent?_enter, opened, if_pos rfl]
  have kept (i : Nat) (hi : i < s.size) : s'.bindings? i = s.bindings? i := by
    rw [h.others i (by omega) (by omega), bindings?_enter s hi]
  refine ⟨?_, ?_, fun ordered => (h.ordered ordered.enter).leave, fun i hi => ?_, fun i hi _ => ?_, [], rfl, ?_⟩
  · rw [leave_current, around, Option.getD_some]
  · have := h.grows
    rw [size_leave]
    omega
  · rw [parent?_leave, h.parents i (by omega), parent?_enter, if_neg (by omega)]
  · rw [bindings?_leave, kept i hi]
  · rw [bindings?_leave, kept _ valid]
    cases s.bindings? s.current <;> rfl

theorem frame {i : Nat} {f : Frame} {bs : Bindings Ty} (h : s.Binds names s') (found : s.frames[i]? = some f)
    (own : s'.bindings? i = some bs) : ∃ g, s'.frames[i]? = some g ∧ g.parent = f.parent ∧ g.bindings = bs := by
  have parent := h.parents i (Array.getElem?_eq_some_iff.mp found).1
  obtain ⟨g, hg, hb⟩ := Option.map_eq_some_iff.mp own
  simp only [parent?, found, hg, Option.bind_some] at parent
  exact ⟨g, hg, parent, hb⟩

theorem stack (h : s.Binds names s') {top : Bindings Ty} {rest : List (Bindings Ty)} (hs : s.Stack (top :: rest)) :
    ∃ new : Bindings Ty, new.map (·.1) = names ∧ s'.Stack (top.insertAll new :: rest) := by
  obtain ⟨new, bound, own⟩ := h.own
  refine ⟨new, bound, ?_⟩
  unfold Stack
  rw [h.current]
  have top {f : Frame} (found : s.frames[s.current]? = some f) :
      ∃ g, s'.frames[s.current]? = some g ∧ g.parent = f.parent ∧ g.bindings = f.bindings.insertAll new :=
    h.frame found (by rw [own, bindings?, found]; rfl)
  cases hs with
  | root found outermost =>
    obtain ⟨g, hg, hp, hb⟩ := top found
    exact hb ▸ .root hg (hp.trans outermost)
  | inner found parent lt chain =>
    obtain ⟨g, hg, hp, hb⟩ := top found
    refine hb ▸ .inner hg (hp.trans parent) lt (chain.of_like fun j hj f hf => ?_)
    have same := h.others j (Array.getElem?_eq_some_iff.mp hf).1 (by omega)
    obtain ⟨g, hg, hp, hb⟩ := h.frame hf (same.trans (by rw [bindings?, hf]; rfl))
    exact ⟨g, hg, hp, hb⟩

end Binds

end Scopes

namespace Typer

variable {α β : Type}

@[simp] theorem after_bind (m : Typer α) (f : α → Typer β) (s : Typing) :
    after (m >>= f) s = after (f (m.run s).1) (after m s) := rfl

@[simp] theorem after_pure (a : α) (s : Typing) : after (pure a) s = s := rfl

@[simp] theorem after_inFrame (m : Typer α) (s : Typing) :
    after (inFrame m) s = (after m s.enter).leave := rfl

end Typer

/-- The loader stayed, and if there is none, then what was reported is about these positions, in this order. -/
structure Typing.Reports (ps : List Position) (s s' : Typing) : Prop where
  loader : s'.context.loader = s.context.loader
  reported : s.context.loader = none → ∃ new, s'.diagnostics = s.diagnostics ++ new ∧ (new.map (·.pos)).Sublist ps

namespace Typing.Reports

variable {ps qs : List Position} {s s' s'' : Typing}

theorem same (loader : s'.context.loader = s.context.loader) (reports : s'.diagnostics = s.diagnostics) :
    Reports ps s s' :=
  ⟨loader, fun _ => ⟨[], by simp [reports], List.nil_sublist _⟩⟩

theorem trans (h : Reports ps s s') (h' : Reports qs s' s'') : Reports (ps ++ qs) s s'' where
  loader := h'.loader.trans h.loader
  reported none := by
    obtain ⟨new, reports, about⟩ := h.reported none
    obtain ⟨more, reports', about'⟩ := h'.reported (h.loader.trans none)
    exact ⟨new ++ more, by rw [reports', reports, List.append_assoc], by simpa using about.append about'⟩

end Typing.Reports

theorem Context.getType_loader (c : Context) (name : String) : (c.getType name).2.1.loader = c.loader ∧
    (c.loader = none → (c.getType name).2.2 = []) := by
  unfold getType
  dsimp only
  cases c.types.get? (QualifiedName.key name) with
  | some type => exact ⟨rfl, fun _ => rfl⟩
  | none => exact ⟨rfl, fun none => by simp [fetch, none]⟩

namespace Typer

/-! ## Resolving -/

/-- A computation that keeps scopes, namespace, surface and table, and reports about these positions. -/
def Notes (ps : List Position) (m : Typer α) : Prop :=
  ∀ s, (after m s).scopes = s.scopes ∧ (after m s).ns = s.ns ∧ (after m s).surface = s.surface ∧
    (after m s).table = s.table ∧ s.Reports ps (after m s)

abbrev Idle (m : Typer α) : Prop := Notes [] m

section
variable {ps qs : List Position}

theorem Notes.bind {m : Typer α} {f : α → Typer β} (h : Notes ps m) (hf : ∀ a, Notes qs (f a)) :
    Notes (ps ++ qs) (m >>= f) := by
  intro s
  obtain ⟨h₁, h₂, h₃, h₄, h₅⟩ := h s
  obtain ⟨h₁', h₂', h₃', h₄', h₅'⟩ := hf (m.run s).1 (after m s)
  exact ⟨h₁'.trans h₁, h₂'.trans h₂, h₃'.trans h₃, h₄'.trans h₄, h₅.trans h₅'⟩

theorem idle_pure {a : α} : Notes ps (pure a) := fun _ => ⟨rfl, rfl, rfl, rfl, .same rfl rfl⟩

theorem idle_get : Idle get := fun _ => ⟨rfl, rfl, rfl, rfl, .same rfl rfl⟩

theorem idle_ite {c : Prop} [Decidable c] {m m' : Typer α} (h : Notes ps m) (h' : Notes ps m') :
    Notes ps (if c then m else m') := by
  split
  · exact h
  · exact h'

theorem report_idle (pos : Position) (message : String) : Notes [pos] (report pos message) :=
  fun _ => ⟨rfl, rfl, rfl, rfl, rfl, fun _ => ⟨[_], rfl, List.Sublist.refl _⟩⟩

end

theorem lookUp_idle {name : String} : Idle (lookUp name) := by
  intro s
  obtain ⟨loader, reports⟩ := s.context.getType_loader name
  refine ⟨rfl, rfl, rfl, rfl, loader, fun none => ⟨(s.context.getType name).2.2, rfl, ?_⟩⟩
  rw [reports none]
  exact List.nil_sublist _

theorem resolveName_idle (path : TypePath) : Idle (resolveName path) := by
  refine idle_get.bind fun s => ?_
  dsimp only
  split
  · exact idle_pure
  · exact lookUp_idle
  · refine lookUp_idle.bind fun type => ?_
    split
    · exact idle_pure
    · exact lookUp_idle

theorem resolve_idle (path : TypePath) : Idle (resolve path) := (resolveName_idle path).bind fun _ => idle_pure

theorem resolveOr_idle {default : Ty} : ∀ path, Idle (resolveOr default path)
  | none => idle_pure
  | some path => resolve_idle path

theorem mapM_resolve_idle : ∀ type : Option TypePath, Idle (type.mapM resolve)
  | none => idle_pure
  | some path => (resolve_idle path).bind fun _ => idle_pure

theorem builtin_idle {b : Builtin} : Idle (builtin b) := resolve_idle _

/-! ## Members -/

theorem memberKindType_idle {kind : MemberKind} : Idle (memberKindType kind) := by
  cases kind with
  | use path => exact idle_pure
  | field type init => exact resolveOr_idle type
  | property type getter setter => exact resolveOr_idle type
  | method f => exact idle_pure

theorem searchAll_idle {search : Class → Typer (Option Ty)} (h : ∀ c, Idle (search c)) :
    ∀ paths, Idle (searchAll search paths)
  | [] => idle_pure
  | path :: paths => by
    refine (resolve_idle path).bind fun type => ?_
    cases type with
    | classOf c | objectOf c =>
      refine (h c).bind fun found => ?_
      cases found with
      | some _ => exact idle_pure
      | none => exact searchAll_idle h paths
    | _ => exact idle_pure

theorem memberType_idle (name : String) : ∀ limit c, Idle (memberType name limit c) := by
  intro limit
  induction limit with
  | zero =>
    intro c
    unfold memberType
    split
    · exact memberKindType_idle.bind fun _ => idle_pure
    · exact searchAll_idle (fun _ => idle_pure) _
  | succ limit ih =>
    intro c
    unfold memberType
    split
    · exact memberKindType_idle.bind fun _ => idle_pure
    · exact searchAll_idle ih _

theorem member_idle {target : Ty} {name : String} {pos : Position} : Notes [pos] (member target name pos) := by
  unfold member
  split
  · exact idle_pure
  · refine (memberType_idle _ _ _).bind fun found => ?_
    cases found with
    | some _ => exact idle_pure
    | none => exact (report_idle _ _).bind fun _ => idle_pure

theorem superMember_idle {method : String} : Idle (superMember method) := by
  refine idle_get.bind fun s => ?_
  dsimp only
  split
  · exact idle_pure
  · refine (resolve_idle _).bind fun type => ?_
    have more (c : Class) : Idle (do return (← memberType method (inheritanceLimit - 1) c).getD .any) :=
      (memberType_idle _ _ _).bind fun _ => idle_pure
    cases type with
    | classOf c => exact more c
    | objectOf c => exact more c
    | _ => exact idle_pure

/-! ## Values -/

theorem classBinding_idle {name : String} {pos : Position} : Notes [pos] (classBinding name pos) := by
  refine idle_get.bind fun s => ?_
  split
  · exact idle_pure
  · exact (report_idle _ _).bind fun _ => idle_pure

theorem named_idle {name : String} {pos : Position} : Notes [pos] (named name pos) := by
  refine idle_get.bind fun s => ?_
  split
  · exact idle_pure
  · exact (report_idle _ _).bind fun _ => idle_pure

theorem callKnown_idle : ∀ type, Idle (callKnown type)
  | .func f => resolveOr_idle f.result
  | .classOf _ | .objectOf _ | .nullable _ | .void | .any | .unknown _ => idle_pure

theorem callResult_idle {callee : Ty} : Idle (callResult callee) := by
  unfold callResult
  split
  · exact (resolve_idle _).bind fun _ => callKnown_idle _
  · exact callKnown_idle _

end Typer

/-! ## Runs -/

def Visit.type (v : Visit) : Ty := ((Typer.expr v.expr).run v.typing).1

def Visit.entry (v : Visit) : Nat × Ty := (v.expr.id, v.type)

def ExprKind.plainField : ExprKind → List Expr
  | .get _ field => if field.ident? = none then [] else [field]
  | _ => []

/-- The names that typing looks up for an expression, apart from its parts. -/
def Expr.lookups (e : Expr) : List Expr :=
  match e.kind with
  | .ident _ | .this | .static => [e]
  | kind => kind.plainField

/-- Where a name may be reported. -/
def Expr.doubts (e : Expr) : List Position := e.lookups.map (·.pos)

/-- From `s` to `s'` the given names were bound in the current frame, in this order, the given
visits were made, and their names and those at the positions `last` were looked up. -/
structure Ran (names : List String) (vs : List Visit) (s s' : Typing) (last : List Position := []) : Prop where
  frames : s.scopes.current < s.scopes.size → s.scopes.Binds names s'.scopes
  ns : s'.ns = s.ns
  surface : s'.surface = s.surface
  surfaces : ∀ v ∈ vs, v.typing.surface = s.surface
  table : s'.table.entries = (vs.map Visit.entry).reverse ++ s.table.entries
  reports : s.Reports (vs.flatMap (·.expr.doubts) ++ last) s'

namespace Ran

open Typer (after Notes)

variable {α : Type} {names more : List String} {vs ws : List Visit} {s s' s'' : Typing} {last : List Position}

theorem stack (h : Ran names vs s s' last) {top : Bindings Ty} {rest : List (Bindings Ty)}
    (hs : s.scopes.Stack (top :: rest)) :
    ∃ new : Bindings Ty, new.map (·.1) = names ∧ s'.scopes.Stack (top.insertAll new :: rest) :=
  (h.frames (Scopes.Chain.lt_size hs)).stack hs

theorem refl (s : Typing) : Ran [] [] s s where
  frames _ := .refl s.scopes
  ns := rfl
  surface := rfl
  surfaces := nofun
  table := rfl
  reports := .same rfl rfl

theorem trans (h : Ran names vs s s') (h' : Ran more ws s' s'' last) : Ran (names ++ more) (vs ++ ws) s s'' last where
  frames valid := (h.frames valid).trans (h'.frames ((h.frames valid).valid valid))
  ns := h'.ns.trans h.ns
  surface := h'.surface.trans h.surface
  surfaces := List.forall_mem_append.mpr ⟨h.surfaces, fun v hv => (h'.surfaces v hv).trans h.surface⟩
  table := by simp [h'.table, h.table]
  reports := by simpa using h.reports.trans h'.reports

theorem of_idle {m : Typer α} (h : Notes last m) (s : Typing) : Ran [] [] s (after m s) last := by
  obtain ⟨h₁, h₂, h₃, h₄, h₅⟩ := h s
  exact ⟨fun _ => h₁ ▸ .refl s.scopes, h₂, h₃, nofun, by rw [h₄]; rfl, h₅⟩

theorem andIdle {m : Typer α} (h : Ran names vs s s') (hm : Notes last m) : Ran names vs s (after m s') last := by
  simpa using h.trans (of_idle hm s')

theorem declare (name : String) (type : Ty) (s : Typing) :
    Ran [name] [] s (after (Typer.declare name type) s) where
  frames _ := .declare name type s.scopes
  ns := rfl
  surface := rfl
  surfaces := nofun
  table := rfl
  reports := .same rfl rfl

theorem andDeclare (h : Ran names vs s s') (name : String) (type : Ty) :
    Ran (names ++ [name]) vs s (after (Typer.declare name type) s') := by
  simpa using h.trans (declare name type s')

theorem record {e : Expr} {p : Place} (h : Ran names vs s s' e.doubts) :
    Ran names (vs ++ [⟨e, p, s⟩]) s (after (Typer.record e.id ((Typer.expr e).run s).1) s') where
  frames := h.frames
  ns := h.ns
  surface := h.surface
  surfaces := List.forall_mem_append.mpr ⟨h.surfaces, List.forall_mem_singleton.mpr rfl⟩
  table := by
    have : (after (Typer.record e.id ((Typer.expr e).run s).1) s').table.entries =
        (e.id, ((Typer.expr e).run s).1) :: s'.table.entries := rfl
    simp [this, h.table, Visit.entry, Visit.type]
  reports := by
    rw [List.flatMap_append, List.flatMap_singleton, List.append_nil]
    exact ⟨h.reports.loader, h.reports.reported⟩

theorem inFrame (h : Ran names vs s.enter s') : Ran [] vs s s'.leave where
  frames valid := (h.frames (by simp [Typing.enter, Scopes.enter, Scopes.size])).inFrame valid
  ns := h.ns
  surface := h.surface
  surfaces := h.surfaces
  table := h.table
  reports := ⟨h.reports.loader, h.reports.reported⟩

theorem inNamespace {ns : List String} (h : Ran names vs { s with ns } s') :
    Ran names vs s { s' with ns := s.ns } where
  frames := h.frames
  ns := rfl
  surface := h.surface
  surfaces := h.surfaces
  table := h.table
  reports := ⟨h.reports.loader, h.reports.reported⟩

end Ran

namespace Typer

theorem use_ran (path : TypePath) (kind : UseKind) (s : Typing) :
    Ran ((kind.binders path).map (·.1)) [] s (after (use path kind) s) := by
  have one (name : String) (source : TypePath) (s : Typing) :
      Ran [name] [] s (after (do declare name (← load source)) s) :=
    (Ran.of_idle lookUp_idle s).trans (.declare name _ _)
  obtain _ | target | targets := kind
  · exact one _ _ s
  · exact one _ _ s
  · induction targets generalizing s with
    | nil => exact .refl s
    | cons target targets ih => exact (one _ _ s).trans (ih _)

theorem loopKeyType_idle (value : Option String) (target : Expr) : Idle (loopKeyType value target) := by
  unfold loopKeyType
  split
  · exact builtin_idle
  · exact idle_pure

theorem bindLoop_ran (key : String) (value : Option String) (target : Expr) (s : Typing) :
    Ran ((Binders.ofLoop key value).map (·.1)) [] s (after (bindLoop key value target) s) := by
  have first (type : Ty) (s' : Typing) (h : Ran [] [] s s') :
      Ran [key] [] s (after (declare key type) s') := h.trans (.declare key type s')
  cases value with
  | none => exact first _ _ (.of_idle (loopKeyType_idle none target) s)
  | some value => exact (first _ _ (.of_idle (loopKeyType_idle _ target) s)).trans (.declare value _ _)

theorem bindCaught_ran (name : String) (type : Option TypePath) (s : Typing) :
    Ran [name] [] s (after (bindCaught name type) s) :=
  (Ran.of_idle (resolveOr_idle type) s).trans (.declare name _ _)

theorem bindSelf_ran (c : Class) (s : Typing) : Ran ["this", "static"] [] s (after (bindSelf c) s) :=
  (Ran.declare "this" _ s).trans (.declare "static" _ _)

/-! ## Programs -/

theorem stmtKind_forIn (key : String) (value : Option String) (target : Expr) (body : Stmt) :
    stmtKind (.forIn key value target body) = inFrame (do
      let _ ← expr target
      bindLoop key value target
      stmt body) := by
  obtain ⟨_, _, kind⟩ := target
  cases value <;> cases kind <;> rfl

theorem cls_eq (c : Class) : cls c = (do
    declare c.name (.classOf c)
    inFrame do
      bindSelf c
      exprs c.attributes
      members c.members) := by
  obtain ⟨_, _, _, _, _, _, _⟩ := c
  rfl

open Visits

mutual

theorem expr_ran (p : Place) (s : Typing) : ∀ e, Ran [] (ofExpr p s e) s (after (expr e) s)
  | ⟨id, pos, kind⟩ => (exprKind_ran p s id pos kind).record

theorem exprKind_ran (p : Place) (s : Typing) (id : Nat) (pos : Position) :
    ∀ kind, Ran [] (ofKind p s kind) s (after (exprKind pos kind) s) (Expr.mk id pos kind).doubts
  | .attribute _ args => arguments_ran p s args
  | .assign _ value => expr_ran p s value
  | .binary lhs op rhs => by
    refine ((expr_ran p s lhs).trans (expr_ran p _ rhs)).andIdle ?_
    exact idle_ite builtin_idle (idle_ite builtin_idle idle_pure)
  | .unary op operand _ => (expr_ran p s operand).andIdle (idle_ite builtin_idle idle_pure)
  | .isType operand _ => by
    simp only [ofKind, exprKind, after_bind]
    exact (expr_ran p s operand).andIdle builtin_idle
  | .logical lhs _ rhs => by
    simp only [ofKind, exprKind, after_bind]
    exact ((expr_ran p s lhs).trans (expr_ran p _ rhs)).andIdle builtin_idle
  | .range lower upper => by
    simp only [ofKind, exprKind, after_bind]
    exact ((expr_ran p s lower).trans (expr_ran p _ upper)).andIdle builtin_idle
  | .call callee args => ((expr_ran p s callee).trans (arguments_ran p _ args)).andIdle callResult_idle
  | .get target field => by
    obtain ⟨_, _, _, rfl⟩ | computed := field.ident_or
    · exact (expr_ran p s target).andIdle member_idle
    · simp only [ofKind_get computed, exprKind_get pos computed, after_bind, after_pure, Expr.doubts, Expr.lookups,
        ExprKind.plainField, computed]
      exact (expr_ran p s target).trans (expr_ran p _ field)
  | .set target field value => by
    obtain ⟨_, _, _, rfl⟩ | computed := field.ident_or
    · exact (expr_ran p s target).trans (expr_ran p _ value)
    · simp only [ofKind_set computed, exprKind_set pos computed, after_bind, after_pure]
      exact ((expr_ran p s target).trans (expr_ran p _ field)).trans (expr_ran p _ value)
  | .indexGet target index => (expr_ran p s target).trans (optional_ran p _ index)
  | .indexSet target index value => ((expr_ran p s target).trans (optional_ran p _ index)).trans (expr_ran p _ value)
  | .ternary cond yes no => ((expr_ran p s cond).trans (expr_ran p _ yes)).trans (expr_ran p _ no)
  | .super method => .of_idle superMember_idle s
  | .path path => .of_idle (resolve_idle _) s
  | .this | .static => .of_idle classBinding_idle s
  | .group inner => expr_ran p s inner
  | .literal value => .of_idle builtin_idle s
  | .list items _ => by
    simp only [ofKind, exprKind, after_bind]
    exact (exprs_ran p s items).andIdle builtin_idle
  | .map es _ => by
    simp only [ofKind, exprKind, after_bind]
    exact (entries_ran p s es).andIdle builtin_idle
  | .lambda f => function_ran _ p s f
  | .ident name => .of_idle named_idle s
  | .choose target cs => (expr_ran p s target).trans (cases_ran _ p _ cs)

theorem optional_ran (p : Place) (s : Typing) : ∀ e, Ran [] (ofOption p s e) s (after (optional e) s)
  | none => .refl s
  | some e => expr_ran p s e

theorem exprs_ran (p : Place) (s : Typing) : ∀ es, Ran [] (ofExprs p s es) s (after (exprs es) s)
  | [] => .refl s
  | e :: es => (expr_ran p s e).trans (exprs_ran p _ es)

theorem arguments_ran (p : Place) (s : Typing) :
    ∀ as, Ran [] (ofArgs p s as) s (after (arguments as) s)
  | [] => .refl s
  | ⟨_, e⟩ :: as => (expr_ran p s e).trans (arguments_ran p _ as)

theorem entries_ran (p : Place) (s : Typing) :
    ∀ es, Ran [] (ofEntries p s es) s (after (entries es) s)
  | [] => .refl s
  | ⟨key, value⟩ :: es => ((expr_ran p s key).trans (expr_ran p _ value)).trans (entries_ran p _ es)

theorem cases_ran (opener : List Stmt → Opener) (p : Place) (s : Typing) :
    ∀ cs, Ran [] (ofCases opener p s cs) s (after (cases cs) s)
  | [] => .refl s
  | ⟨condition, body⟩ :: cs =>
    (Ran.inFrame ((optional_ran _ _ condition).trans (stmts_ran _ _ body))).trans (cases_ran opener p _ cs)

theorem stmt_ran (p : Place) (s : Typing) :
    ∀ x, Ran ((Binders.ofStmt x).map (·.1)) (ofStmt p s x) s (after (stmt x) s)
  | ⟨pos, kind⟩ => stmtKind_ran p s pos kind

theorem stmtKind_ran (p : Place) (s : Typing) (pos : Position) : ∀ kind,
    Ran ((Binders.ofStmt ⟨pos, kind⟩).map (·.1)) (ofStmtKind p s kind) s (after (stmtKind kind) s)
  | .expr e | .raise e => expr_ran p s e
  | .use path kind _ => use_ran path kind s
  | .inNamespace path decls => (stmts_ran _ _ decls).inNamespace
  | .var name type init => ((Ran.of_idle (mapM_resolve_idle type) s).trans (optional_ran p _ init)).andDeclare name _
  | .global name => .declare name _ s
  | .attempt body handlers => .inFrame ((stmt_ran _ _ body).trans (stmts_ran _ _ handlers))
  | .handler name type body => .inFrame ((bindCaught_ran name type _).trans (stmt_ran _ _ body))
  | .loop cond body _ => .inFrame ((expr_ran _ _ cond).trans (stmt_ran _ _ body))
  | .forIn key value target body => by
    simp only [ofStmtKind, stmtKind_forIn, after_bind, after_inFrame]
    exact .inFrame ((expr_ran _ _ target).trans ((bindLoop_ran key value target _).trans (stmt_ran _ _ body)))
  | .branch cond yes no =>
    .inFrame (((expr_ran _ _ cond).trans (.inFrame (stmt_ran _ _ yes))).trans (alternative_ran _ _ no))
  | .switch target cs => .inFrame ((expr_ran _ _ target).trans (cases_ran _ _ _ cs))
  | .block body => .inFrame (stmts_ran _ _ body)
  | .ret value => optional_ran p s value
  | .func f => (Ran.declare f.name _ s).trans (function_ran _ _ _ f)
  | .cls c => cls_ran p s c

theorem stmts_ran (p : Place) (s : Typing) :
    ∀ xs, Ran ((Binders.ofStmts xs).map (·.1)) (ofStmts p s xs) s (after (stmts xs) s)
  | [] => .refl s
  | x :: xs => by
    simp only [ofStmts, stmts, after_bind, Binders.ofStmts, List.map_append]
    exact (stmt_ran p s x).trans (stmts_ran _ _ xs)

theorem alternative_ran (p : Place) (s : Typing) :
    ∀ x, Ran [] (ofAlternative p s x) s (after (alternative x) s)
  | none => .refl s
  | some x => .inFrame (stmt_ran _ _ x)

theorem body_ran (p : Place) (s : Typing) :
    ∀ x, ∃ names, Ran names (ofBody p s x) s (after (body x) s)
  | none => ⟨[], .refl s⟩
  | some x => ⟨_, stmt_ran p s x⟩

theorem function_ran (opener : Opener) (p : Place) (s : Typing) :
    ∀ f, Ran [] (ofFunc opener p s f) s (after (function f) s)
  | ⟨_, ps, b, _, attributes, _⟩ => by
    obtain ⟨_, last⟩ := body_ran ((p.enter opener).bind (Binders.ofParams ps)) _ b
    exact .inFrame (((exprs_ran _ _ attributes).trans (params_ran _ _ ps)).trans last)

theorem params_ran (p : Place) (s : Typing) :
    ∀ ps, Ran ((Binders.ofParams ps).map (·.1)) (ofParams p s ps) s (after (params ps) s)
  | [] => .refl s
  | ⟨name, type, default, _, _⟩ :: ps =>
    (((Ran.of_idle (mapM_resolve_idle type) s).trans (optional_ran p _ default)).andDeclare name _).trans
      (params_ran _ _ ps)

theorem cls_ran (p : Place) (s : Typing) : ∀ c, Ran [c.name] (ofClass p s c) s (after (cls c) s)
  | ⟨name, kind, parent, interfaces, ms, attributes, pos⟩ => by
    exact (Ran.declare name _ s).trans
      (.inFrame ((bindSelf_ran _ _).trans ((exprs_ran _ _ attributes).trans (members_ran _ _ ms))))

theorem members_ran (p : Place) (s : Typing) :
    ∀ ms, Ran [] (ofMembers p s ms) s (after (members ms) s)
  | [] => .refl s
  | ⟨_, kind, _, attributes, _⟩ :: ms =>
    ((exprs_ran p s attributes).trans (memberKind_ran p _ kind)).trans (members_ran p _ ms)

theorem memberKind_ran (p : Place) (s : Typing) :
    ∀ kind, Ran [] (ofMemberKind p s kind) s (after (memberKind kind) s)
  | .use _ => .refl s
  | .field _ init => optional_ran p s init
  | .property _ getter setter => (accessor_ran p s getter).trans (accessor_ran p _ setter)
  | .method f => function_ran _ p s f

theorem accessor_ran (p : Place) (s : Typing) :
    ∀ f, Ran [] (ofAccessor p s f) s (after (accessor f) s)
  | none => .refl s
  | some f => function_ran _ p s f

end

end Typer

end PhaseLang
