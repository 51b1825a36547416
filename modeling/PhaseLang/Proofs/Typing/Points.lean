import PhaseLang.Proofs.Code
import PhaseLang.Proofs.Typing.Records

/-!
# Points of a program

A `Point` is a piece of a program with the state in which typing comes to it, and with its
`View`: which names have been bound by then, in the frames around the point, by the statements
of the file so far, and by the declarations of the file. Typing goes through the `parts` of a
point one after the other, so the points of a program are those that can be `Reached` from its
start. At each of them the scopes of typing hold what the view says.
-/

namespace PhaseLang

/-! ## Trails -/

/-- Names in the order in which they were bound, each with the class or function that was
declared; a variable or an import has none. -/
abbrev Trail := Bindings (Option Ty)

namespace Trail

def latest? (name : String) (trail : Trail) : Option (Option Ty) := Bindings.get? name trail.reverse

def ofNames (names : List String) : Trail := names.map fun name => (name, none)

mutual

def ofStmt : Stmt → Trail
  | ⟨_, .use path kind _⟩ => ofNames ((kind.binders path).map (·.1))
  | ⟨_, .inNamespace _ decls⟩ => ofStmts decls
  | ⟨_, .var name _ _⟩ => [(name, none)]
  | ⟨_, .global name⟩ => [(name, none)]
  | ⟨_, .func f⟩ => [(f.name, some (.func f))]
  | ⟨_, .cls c⟩ => [(c.name, some (.classOf c))]
  | _ => []

def ofStmts : List Stmt → Trail
  | [] => []
  | x :: xs => ofStmt x ++ ofStmts xs

end

def ofDeclarations (program : List Stmt) : Trail :=
  (Declaration.ofStmts [] program).map fun d => (d.name, some d.type)

end Trail

structure View where
  /-- What the frames around the point have bound, innermost first, apart from the outermost. -/
  inner : List Trail
  /-- What the statements of the file have bound in the outermost frame so far. -/
  passed : Trail
  declared : Trail

namespace View

def enter (v : View) : View := { v with inner := [] :: v.inner }

def bind (v : View) (new : Trail) : View :=
  match v.inner with
  | [] => { v with passed := v.passed ++ new }
  | top :: rest => { v with inner := (top ++ new) :: rest }

/-- What a name was bound to last, in the innermost frame that binds it. -/
def get? (v : View) (name : String) : Option (Option Ty) :=
  (v.inner.findSome? (Trail.latest? name)).or ((v.passed.latest? name).or (v.declared.latest? name))

def frames (v : View) : List Trail := v.inner ++ [v.declared ++ v.passed]

end View

/-! ## Code -/

inductive Opening where
  | none
  | frame
  | within (ns : List String)

namespace Code

def trail : Code → Trail
  | stmt x | body (some x) => .ofStmt x
  | stmts xs => .ofStmts xs
  | params ps => .ofNames (ps.map (·.name))
  | param p => .ofNames [p.name]
  | loopNames key value _ => .ofNames (key :: value.toList)
  | caught name _ => .ofNames [name]
  | self _ => .ofNames ["this", "static"]
  | declared name type => [(name, some type)]
  | _ => []

def opening : Code → Opening
  | arm _ | alternative _ | function _ | classBody _ => .frame
  | stmt ⟨_, kind⟩ =>
    match kind with
    | .inNamespace path _ => .within path.segments
    | .attempt _ _ | .handler _ _ _ | .loop _ _ _ | .forIn _ _ _ _ | .branch _ _ _ | .switch _ _
    | .block _ => .frame
    | _ => .none
  | _ => .none

end Code

/-! ## Points -/

structure Point where
  code : Code
  view : View
  typing : Typing

namespace Point

def enter (P : Point) : Point := { P with view := P.view.enter, typing := P.typing.enter }

def opened (P : Point) : Point :=
  match P.code.opening with
  | .none => P
  | .frame => P.enter
  | .within ns => { P with typing := { P.typing with ns } }

def past (P : Point) (c : Code) : Point :=
  { P with view := P.view.bind c.trail, typing := Typer.after c.run P.typing }

def along : Point → List Code → List Point
  | _, [] => []
  | P, c :: cs => { P with code := c } :: (P.past c).along cs

def parts (P : Point) : List Point := P.opened.along P.code.parts

def start (program : List Stmt) (context : Context) : Point where
  code := .stmts program
  view := ⟨[], [], .ofDeclarations program⟩
  typing := .start program context

def within : (depth : Nat) → Point → List Point
  | 0, P => [P]
  | depth + 1, P => P :: P.parts.flatMap (within depth)

end Point

inductive Reached (program : List Stmt) (context : Context) : Point → Prop
  | start : Reached program context (.start program context)
  | part {P Q : Point} : Reached program context P → Q ∈ P.parts → Reached program context Q

theorem Reached.within {program : List Stmt} {context : Context} : ∀ (depth : Nat) {P Q : Point},
    Reached program context P → Q ∈ P.within depth → Reached program context Q
  | 0, P, Q, h, hQ => by
    obtain rfl := List.mem_singleton.mp hQ
    exact h
  | depth + 1, P, Q, h, hQ => by
    rcases List.mem_cons.mp hQ with rfl | hQ
    · exact h
    · obtain ⟨R, hR, hQ⟩ := List.mem_flatMap.mp hQ
      exact Reached.within depth (.part h hR) hQ

/-! ## Views and scopes -/

namespace Trail

def Fits (declared : Option Ty) (type : Ty) : Prop := ∀ known ∈ declared, type = known

def Typed (trail : Trail) (types : Bindings Ty) : Prop :=
  List.Forall₂ (fun b t => b.1 = t.1 ∧ Fits b.2 t.2) trail types

theorem latest?_append (name : String) (trail more : Trail) :
    latest? name (trail ++ more) = (latest? name more).or (latest? name trail) := by
  simp [latest?, Bindings.get?_append]

variable {types : Bindings Ty}

theorem typed_ofNames {names : List String} (h : types.map (·.1) = names) : (ofNames names).Typed types := by
  subst h
  induction types with
  | nil => exact .nil
  | cons t types ih => exact .cons ⟨rfl, nofun⟩ ih

theorem Typed.get? (name : String) {trail : Trail} (h : trail.Typed types) :
    Option.Rel Fits (Bindings.get? name trail) (Bindings.get? name types) := by
  induction h with
  | nil => exact .none
  | @cons b t trail types first _ ih =>
    obtain ⟨n, declared⟩ := b
    obtain ⟨n', type⟩ := t
    obtain ⟨rfl, fits⟩ := first
    by_cases hn : n = name
    · simpa [Bindings.get?, hn] using Option.Rel.some fits
    · simpa [Bindings.get?, hn] using ih

theorem Typed.latest? (name : String) {trail : Trail} (h : trail.Typed types) :
    Option.Rel Fits (trail.latest? name) ((Bindings.insertAll [] types).get? name) := by
  rw [Bindings.get?_insertAll_reverse, show Bindings.get? name ([] : Bindings Ty) = none from rfl, Option.or_none]
  exact Typed.get? name (List.rel_reverse h)

end Trail

namespace View

def Holds (v : View) (s : Scopes) : Prop :=
  ∃ types, List.Forall₂ Trail.Typed v.frames types ∧ s.Stack (types.map (Bindings.insertAll []))

theorem get?_eq (v : View) (name : String) : v.get? name = v.frames.findSome? (Trail.latest? name) := by
  rw [get?, frames, List.findSome?_append, List.findSome?_singleton, Trail.latest?_append]

theorem Holds.resolve {v : View} {s : Scopes} (h : v.Holds s) (name : String) :
    Option.Rel Trail.Fits (v.get? name) (s.resolve name) := by
  obtain ⟨types, typed, stack⟩ := h
  rw [get?_eq, stack.resolve, Scopes.lookUp]
  clear stack
  generalize v.frames = trails at typed
  induction typed with
  | nil => exact .none
  | @cons trail frame trails frames first _ ih =>
    have found := first.latest? name
    rw [List.map_cons, List.findSome?_cons, List.findSome?_cons]
    generalize Trail.latest? name trail = a at found
    generalize Bindings.get? name (Bindings.insertAll [] frame) = b at found
    cases found with
    | some fits => exact .some fits
    | none => exact ih

theorem Holds.enter {v : View} {s : Scopes} (h : v.Holds s) : v.enter.Holds s.enter := by
  obtain ⟨types, typed, stack⟩ := h
  exact ⟨[] :: types, .cons .nil typed, stack.enter⟩

theorem frames_bind (v : View) (new : Trail) : (v.bind new).frames = v.frames.modifyHead (· ++ new) := by
  obtain ⟨inner, passed, declared⟩ := v
  cases inner with
  | nil => simp [bind, frames]
  | cons top rest => rfl

theorem exists_frames (v : View) : ∃ top rest, v.frames = top :: rest := by
  obtain ⟨inner, passed, declared⟩ := v
  cases inner with
  | nil => exact ⟨_, _, rfl⟩
  | cons top rest => exact ⟨_, _, rfl⟩

theorem declared_bind (v : View) (new : Trail) : (v.bind new).declared = v.declared := by
  obtain ⟨inner, passed, declared⟩ := v
  cases inner <;> rfl

end View

/-! ## What code binds -/

namespace Typer

variable {α β : Type} {trail more : Trail} {m : Typer α}

structure Binds (trail : Trail) (m : Typer α) : Prop where
  stack : ∀ {s : Typing} {top rest}, s.scopes.Stack (top :: rest) →
    ∃ new, trail.Typed new ∧ (after m s).scopes.Stack (top.insertAll new :: rest)
  surface : ∀ s, (after m s).surface = s.surface

theorem Binds.of_ran {names : List String} (h : ∀ s, ∃ vs, Ran names vs s (after m s)) :
    Binds (.ofNames names) m where
  stack {s} _ _ hs := by
    obtain ⟨_, run⟩ := h s
    obtain ⟨new, bound, hs'⟩ := run.stack hs
    exact ⟨new, Trail.typed_ofNames bound, hs'⟩
  surface s := (h s).elim fun _ run => run.surface

theorem Binds.none (h : ∀ s, ∃ vs, Ran [] vs s (after m s)) : Binds [] m := .of_ran h

theorem Binds.bind {f : α → Typer β} (h : Binds trail m) (hf : ∀ a, Binds more (f a)) :
    Binds (trail ++ more) (m >>= f) where
  stack {s} _ _ hs := by
    obtain ⟨new, typed, hs'⟩ := h.stack hs
    obtain ⟨new', typed', hs''⟩ := (hf (m.run s).1).stack hs'
    refine ⟨new ++ new', List.rel_append typed typed', ?_⟩
    rw [Bindings.insertAll_append]
    exact hs''
  surface s := ((hf _).surface _).trans (h.surface s)

theorem declare_binds (name : String) (type : Ty) : Binds [(name, some type)] (declare name type) where
  stack hs := ⟨[(name, type)], .cons ⟨rfl, fun _ h => Option.some.inj h⟩ .nil, hs.declare name type⟩
  surface _ := rfl

theorem Binds.inNamespace (h : Binds trail m) (ns : List String) : Binds trail (Typer.inNamespace ns m) where
  stack {s} _ _ hs := h.stack (s := { s with ns }) hs
  surface s := h.surface { s with ns }

theorem classBody_ran (c : Class) (s : Typing) : ∃ vs, Ran [] vs s (after (Code.classBody c).run s) :=
  ⟨_, .inFrame ((bindSelf_ran c _).trans ((exprs_ran [] _ c.attributes).trans (members_ran [] _ c.members)))⟩

theorem binds_plain {x : Stmt} (h : Trail.ofStmt x = .ofNames ((Binders.ofStmt x).map (·.1))) :
    Binds (.ofStmt x) (stmt x) := by
  rw [h]
  exact .of_ran fun s => ⟨_, stmt_ran [] s x⟩

mutual

theorem stmt_binds : ∀ x, Binds (.ofStmt x) (stmt x)
  | ⟨_, .func f⟩ => by
    exact (declare_binds _ _).bind fun _ => .none fun s => ⟨_, function_ran .block [] s f⟩
  | ⟨_, .cls c⟩ => by
    simp only [stmt, stmtKind, cls_eq, Trail.ofStmt]
    exact (declare_binds _ _).bind fun _ => .none (classBody_ran c)
  | ⟨_, .inNamespace path decls⟩ => by
    exact (stmts_binds decls).inNamespace _
  | ⟨_, .expr _⟩ | ⟨_, .raise _⟩ | ⟨_, .use _ _ _⟩ | ⟨_, .var _ _ _⟩ | ⟨_, .global _⟩ | ⟨_, .attempt _ _⟩
  | ⟨_, .handler _ _ _⟩ | ⟨_, .loop _ _ _⟩ | ⟨_, .forIn _ _ _ _⟩ | ⟨_, .branch _ _ _⟩ | ⟨_, .switch _ _⟩
  | ⟨_, .block _⟩ | ⟨_, .ret _⟩ => binds_plain rfl

theorem stmts_binds : ∀ xs, Binds (.ofStmts xs) (stmts xs)
  | [] => by
    exact .none fun s => ⟨_, .refl s⟩
  | x :: xs => by
    exact (stmt_binds x).bind fun _ => stmts_binds xs

end

end Typer

namespace Code

open Typer

theorem run_binds : ∀ c : Code, Binds c.trail c.run
  | expr e => .none fun s => ⟨_, expr_ran [] s e⟩
  | optional e => .none fun s => ⟨_, optional_ran [] s e⟩
  | exprs es => .none fun s => ⟨_, exprs_ran [] s es⟩
  | arguments as => .none fun s => ⟨_, arguments_ran [] s as⟩
  | entries es => .none fun s => ⟨_, entries_ran [] s es⟩
  | cases cs => .none fun s => ⟨_, cases_ran .ofArm [] s cs⟩
  | arm c => .none fun s => ⟨_, cases_ran .ofArm [] s [c]⟩
  | stmt x => stmt_binds x
  | stmts xs => stmts_binds xs
  | alternative x => .none fun s => ⟨_, alternative_ran [] s x⟩
  | body none => .none fun s => ⟨[], .refl s⟩
  | body (some x) => stmt_binds x
  | function f => .none fun s => ⟨_, function_ran .block [] s f⟩
  | params ps => by
    have names : (Binders.ofParams ps).map (·.1) = ps.map (·.name) := by simp [Binders.ofParams]
    exact .of_ran fun s => ⟨_, names ▸ params_ran [] s ps⟩
  | param p => .of_ran fun s => ⟨_, params_ran [] s [p]⟩
  | classBody c => .none (classBody_ran c)
  | members ms => .none fun s => ⟨_, members_ran [] s ms⟩
  | memberKind kind => .none fun s => ⟨_, memberKind_ran [] s kind⟩
  | accessor f => .none fun s => ⟨_, accessor_ran [] s f⟩
  | typed type => .none fun s => ⟨[], .of_idle (mapM_resolve_idle type) s⟩
  | loopNames key value target => by
    have names : (Binders.ofLoop key value).map (·.1) = key :: value.toList := by
      simp [Binders.ofLoop, Function.comp_def]
    exact .of_ran fun s => ⟨_, names ▸ bindLoop_ran key value target s⟩
  | caught name type => .of_ran fun s => ⟨_, bindCaught_ran name type s⟩
  | self c => .of_ran fun s => ⟨_, bindSelf_ran c s⟩
  | declared name type => declare_binds name type

end Code

/-! ## Points are sound -/

variable {context : Context}

namespace Point

variable {program : List Stmt} {P Q : Point}

structure Sound (program : List Stmt) (P : Point) : Prop where
  holds : P.view.Holds P.typing.scopes
  declared : P.view.declared = .ofDeclarations program
  surface : P.typing.surface = .ofProgram program
  alike : Alike P.typing P.typing

theorem start_sound (program : List Stmt) (blank : context.Blank) :
    (start program context).Sound program where
  holds := by
    have empty : Scopes.Stack {} [[]] := .root (f := { parent := none }) rfl rfl
    have stack := empty.declareAll (Declaration.ofStmts [] program)
    have typed (ds : List Declaration) : Trail.Typed (ds.map fun d => (d.name, some d.type))
        (ds.map fun d => (d.name, d.type)) := by
      simp only [Trail.Typed, List.forall₂_map_left_iff, List.forall₂_map_right_iff]
      exact List.forall₂_same.mpr fun d _ => ⟨rfl, fun _ h => (Option.some.inj h)⟩
    refine ⟨[_], .cons ?_ .nil, stack⟩
    simpa [start, Trail.ofDeclarations] using typed (Declaration.ofStmts [] program)
  declared := rfl
  surface := rfl
  alike := Typing.start_alike program blank

theorem Sound.opened (h : P.Sound program) : P.opened.Sound program := by
  unfold Point.opened
  split
  · exact h
  · exact ⟨h.holds.enter, h.declared, h.surface, h.alike.enter⟩
  · exact ⟨h.holds, h.declared, h.surface, h.alike.withNs _⟩

theorem Sound.past (h : P.Sound program) (c : Code) : (P.past c).Sound program where
  holds := by
    obtain ⟨types, typed, stack⟩ := h.holds
    obtain ⟨top, rest, frames⟩ := P.view.exists_frames
    rw [frames] at typed
    obtain ⟨first, others, typedTop, typedRest, rfl⟩ := List.forall₂_cons_left_iff.mp typed
    obtain ⟨new, typedNew, stack'⟩ := c.run_binds.stack stack
    refine ⟨(first ++ new) :: others, ?_, by simpa [Point.past] using stack'⟩
    simp only [Point.past, View.frames_bind, frames, List.modifyHead_cons]
    exact .cons (List.rel_append typedTop typedNew) typedRest
  declared := (P.view.declared_bind c.trail).trans h.declared
  surface := (c.run_binds.surface P.typing).trans h.surface
  alike := h.alike.after c.replays

theorem Sound.along (h : P.Sound program) : ∀ cs, ∀ Q ∈ P.along cs, Q.Sound program := by
  intro cs
  induction cs generalizing P with
  | nil => exact nofun
  | cons c cs ih =>
    intro Q hQ
    rcases List.mem_cons.mp hQ with rfl | hQ
    · exact ⟨h.holds, h.declared, h.surface, h.alike⟩
    · exact ih (h.past c) Q hQ

end Point

theorem Reached.sound {program : List Stmt} (blank : context.Blank) {P : Point}
    (h : Reached program context P) : P.Sound program := by
  induction h with
  | start => exact Point.start_sound program blank
  | part _ mem ih => exact ih.opened.along _ _ mem

/-! ## What the file has bound so far -/

theorem Trail.ofStmts_eq (xs : List Stmt) : ofStmts xs = xs.flatMap ofStmt :=
  eq_flatMap_of_cons rfl (fun _ _ => rfl) xs

theorem Code.ofKind_trail (kind : ExprKind) : (ofKind kind).flatMap trail = [] := by
  unfold ofKind
  split <;> rfl

theorem Code.parts_trail (c : Code) (h : c.opening ≠ .frame) : c.parts.flatMap trail <+: c.trail := by
  cases c with
  | expr e => simp [parts, ofKind_trail]
  | stmt x =>
    obtain ⟨_, kind⟩ := x
    cases kind <;> simp_all [parts, trail, opening, ofStmtKind, Trail.ofStmt]
  | stmts xs => simp [parts, trail, Trail.ofStmts_eq, List.flatMap_map]
  | params ps =>
    have names : (ps.map param).flatMap trail = Trail.ofNames (ps.map (·.name)) := by
      rw [List.flatMap_map, Trail.ofNames, List.map_map, List.map_eq_flatMap]
      rfl
    rw [parts, names]
    exact List.prefix_refl _
  | memberKind kind => cases kind <;> simp [parts, trail]
  | body x => cases x <;> simp [parts, trail]
  | _ => simp_all [parts, trail, opening, List.flatMap_map, List.flatMap_assoc]

namespace Point

variable {P Q : Point}

def pending (P : Point) (cs : List Code) : Trail := if P.view.inner.isEmpty then cs.flatMap Code.trail else []

theorem past_pending (P : Point) (c : Code) (cs : List Code) :
    (P.past c).view.passed ++ (P.past c).pending cs = P.view.passed ++ P.pending (c :: cs) := by
  obtain ⟨_, ⟨inner, passed, declared⟩, _⟩ := P
  cases inner <;> simp [past, pending, View.bind]

theorem along_prefix : ∀ (cs : List Code) {P : Point}, Q ∈ P.along cs →
    Q.view.passed ++ Q.pending [Q.code] <+: P.view.passed ++ P.pending cs
  | c :: cs, P, hQ => by
    rcases List.mem_cons.mp hQ with rfl | hQ
    · rw [List.prefix_append_right_inj]
      simp only [pending, List.flatMap_cons, List.flatMap_nil, List.append_nil]
      split
      · exact List.prefix_append _ _
      · exact List.prefix_refl _
    · rw [← past_pending P c cs]
      exact along_prefix cs hQ

theorem opened_prefix (P : Point) :
    P.opened.view.passed ++ P.opened.pending P.code.parts <+: P.view.passed ++ P.pending [P.code] := by
  have start : P.code.opening ≠ .frame → P.pending P.code.parts <+: P.pending [P.code] := by
    intro h
    simp only [pending, List.flatMap_cons, List.flatMap_nil, List.append_nil]
    split
    · exact P.code.parts_trail h
    · exact List.prefix_refl _
  unfold opened
  split
  · rename_i h
    exact (List.prefix_append_right_inj _).mpr (start (by simp [h]))
  · simp [enter, View.enter, pending]
  · rename_i h
    exact (List.prefix_append_right_inj _).mpr (start (by simp [h]))

end Point

theorem Reached.passed_prefix {program : List Stmt} {P : Point}
    (h : Reached program context P) : P.view.passed <+: Trail.ofStmts program := by
  suffices P.view.passed ++ P.pending [P.code] <+: Trail.ofStmts program from
    (List.prefix_append _ _).trans this
  induction h with
  | start => simp [Point.start, Point.pending, Code.trail]
  | @part P Q _ mem ih => exact (Point.along_prefix _ mem).trans (P.opened_prefix.trans ih)

end PhaseLang
