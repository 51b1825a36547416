import PhaseLang.Proofs.Typing.Surfaces
import PhaseLang.Proofs.Typing.Weaving

/-!
# Typing a program again

A run leaves the declarations of the program in the context, and a later run of the same program
starts from there. Names in scope and the declarations of the program come before the context, so
the later run can only differ where typing asks the context for a name that the program declares:
at an import.
-/

namespace PhaseLang

/-! ## Two runs from different contexts -/

def answer (declared : String → Option Ty) (key : String) : Ty := (declared key).getD (.builtin key)

/-- What the answers of two contexts have to have in common, for the names with the property `A`
that a program with the surface `S` mentions. -/
structure Agreeing (S : Surface) (declared declared' : String → Option Ty) (A : Citation → Prop) : Prop where
  path : ∀ p, A (.path p) → S.get? p.qualifiedName = none →
    answer declared' (QualifiedName.key p.qualifiedName) = answer declared (QualifiedName.key p.qualifiedName)
  scope : ∀ p, A (.scope p) → ∀ q : TypePath, S.get? (q.qualify p.segments).qualifiedName = none →
    answer declared' (QualifiedName.key (q.qualify p.segments).qualifiedName) =
      answer declared (QualifiedName.key (q.qualify p.segments).qualifiedName)
  imported : ∀ p, A (.imported p) →
    answer declared' (QualifiedName.key p.qualifiedName) = answer declared (QualifiedName.key p.qualifiedName)
  answers : ∀ name, (answer declared (QualifiedName.key name)).Fits A
  surface : ∀ name t, S.get? name = some t → t.Fits A
  builtin : ∀ b : Builtin, A (.path (.toAbsolute (.ofName b.name)))

structure Retyped (S : Surface) (declared declared' : String → Option Ty) (A : Citation → Prop)
    (s s' : Typing) : Prop where
  same : s' = { s with context := s'.context }
  knows : s.context.Knows declared
  knows' : s'.context.Knows declared'
  surface : s.surface = S
  ns : s.ns = [] ∨ ∃ p, A (.scope p) ∧ s.ns = p.segments
  scopes : s.scopes.All (·.Fits A)
  table : ∀ id t, s.table.get? id = some t → t.Fits A

namespace Agreeing

open Typer

variable {S : Surface} {declared declared' : String → Option Ty} {A : Citation → Prop}

theorem lookUp_weaves (h : Agreeing S declared declared' A) {name : String}
    (agree : answer declared' (QualifiedName.key name) = answer declared (QualifiedName.key name)) :
    Weaves (Retyped S declared declared' A) (Twin .refl A fun _ => True) (lookUp name) (lookUp name) := by
  refine .of_notes lookUp_idle lookUp_idle fun s s' hs => ?_
  obtain ⟨value, knows⟩ := hs.knows.getType name
  obtain ⟨value', knows'⟩ := hs.knows'.getType name
  have reports := hs.knows.getType_reports name
  have reports' := hs.knows'.getType_reports name
  have result : ((lookUp name).run s).1 = answer declared (QualifiedName.key name) := value
  have result' : ((lookUp name).run s').1 = answer declared' (QualifiedName.key name) := value'
  have state (t : Typing) (h : (t.context.getType name).2.2 = []) :
      after (lookUp name) t = { t with context := (t.context.getType name).2.1 } := by
    show { t with
      context := (t.context.getType name).2.1, diagnostics := t.diagnostics ++ (t.context.getType name).2.2 } = _
    rw [h, List.append_nil]
  rw [result, result', agree, state s reports, state s' reports']
  refine ⟨.same (h.answers name), ?_, knows, knows', hs.surface, hs.ns, hs.scopes, hs.table⟩
  have same := hs.same
  generalize s'.context.getType name = found
  rw [same]

theorem resolveName_weaves (h : Agreeing S declared declared' A) {path : TypePath} (hp : A (.path path)) :
    Weaves (Retyped S declared declared' A) (Twin .refl A fun _ => True) (resolveName path) (resolveName path) := by
  refine weaves_get fun s s' hs => ?_
  rw [hs.same]
  dsimp only
  rw [hs.surface]
  change Repeats _ _ _
  split
  · rename_i t found
    refine weaves_pure (Twin.same ?_)
    rw [Option.or_eq_some_iff] at found
    rcases found with found | ⟨_, found⟩
    · split at found
      · cases found
      · exact hs.scopes.resolve found
    · rw [Option.or_eq_some_iff] at found
      rcases found with found | ⟨_, found⟩
      · obtain ⟨name, _, found⟩ := Option.bind_eq_some_iff.mp found
        exact h.surface name t found
      · exact h.surface _ t found
  · rename_i found _
    rw [Option.or_eq_none_iff, Option.or_eq_none_iff] at found
    exact h.lookUp_weaves (h.path path hp found.2.2)
  · rename_i name found named
    rw [Option.or_eq_none_iff, Option.or_eq_none_iff, named] at found
    have inner : Weaves (Retyped S declared declared' A) (Twin .refl A fun _ => True) (lookUp name) (lookUp name) := by
      split at named
      · cases named
      · rename_i relative
        obtain rfl := Option.some.inj named
        rcases hs.ns with top | ⟨p, scope, ns⟩
        · simp [top] at relative
        · rw [ns] at found ⊢
          exact h.lookUp_weaves (h.scope p scope path found.2.1)
    refine inner.bind fun t u ht => ?_
    obtain rfl := ht.drawn.refl_eq
    exact weaves_ite (weaves_pure ht) (h.lookUp_weaves (h.path path hp found.2.2))

theorem weave (h : Agreeing S declared declared' A) :
    Weave .refl A (fun _ => True) (Retyped S declared declared' A) where
  lawful := Redraw.lawful_refl
  scopes s s' hs name := by
    rw [hs.same]
    exact .same fun t found => hs.scopes.resolve found
  builtin := h.builtin
  resolveName p hp := h.resolveName_weaves hp
  load p hp := h.lookUp_weaves (h.imported p hp)
  report pos message := by
    refine .of_notes (report_idle pos message) (report_idle pos message) fun s s' hs =>
      ⟨rfl, ?_, hs.knows, hs.knows', hs.surface, hs.ns, hs.scopes, hs.table⟩
    rw [hs.same]
    rfl
  declare name t u ht s s' hs := by
    obtain rfl := ht.drawn.refl_eq
    refine ⟨?_, hs.knows, hs.knows', hs.surface, hs.ns, hs.scopes.declare name ht.fits, hs.table⟩
    rw [hs.same]
    rfl
  record e _ s s' hs woven := by
    obtain ⟨value, -, -, next⟩ := woven
    rw [after_expr, after_expr, value.drawn.refl_eq]
    refine ⟨by rw [next.same]; rfl, next.knows, next.knows', next.surface, next.ns, next.scopes, fun id t found => ?_⟩
    rw [TypeTable.get?_insert] at found
    split at found
    · exact Option.some.inj found ▸ value.fits
    · exact next.table id t found
  enter s s' hs := ⟨by rw [hs.same]; rfl, hs.knows, hs.knows', hs.surface, hs.ns, hs.scopes.enter, hs.table⟩
  arms cs s s' run _ := by
    refine firstArm_twin Redraw.lawful_refl fun _ _ _ e _ => ?_
    rw [run.same]
    exact .same fun t found => run.table e.id t found
  leave s s' t t' _ ht _ _ := ⟨by rw [ht.same]; rfl, ht.knows, ht.knows', ht.surface, ht.ns, ht.scopes.leave, ht.table⟩
  scope p hp s s' hs :=
    ⟨by rw [hs.same], hs.knows, hs.knows', hs.surface, .inr ⟨p, hp, rfl⟩, hs.scopes, hs.table⟩
  back s s' t t' hs ht :=
    ⟨by rw [ht.same, hs.same], ht.knows, ht.knows', ht.surface, hs.ns, ht.scopes, ht.table⟩

end Agreeing

/-! ## Runs of one program -/

theorem Context.knows_types {c : Context} (noLoader : c.loader = none) : c.Knows fun key => c.types.get? key where
  noLoader := noLoader
  declares _ _ h := h
  undeclared key type absent found := by simp [absent] at found

theorem Scopes.All.declareAll {P : Ty → Prop} : ∀ (ds : List Declaration) {s : Scopes}, s.All P →
    (∀ d ∈ ds, P d.type) → (ds.foldl (fun s d => s.declare d.name d.type) s).All P
  | [], _, h, _ => h
  | d :: ds, _, h, hd =>
    Scopes.All.declareAll ds (h.declare d.name (hd d (List.mem_cons_self ..)))
      fun e he => hd e (List.mem_cons_of_mem _ he)

section
variable {program : List Stmt} {declared declared' : String → Option Ty} {A : Citation → Prop} {c c' : Context}

theorem retyped_start (fits : Fits A (Cited.ofStmts program)) (knows : c.Knows declared) (knows' : c'.Knows declared') :
    Retyped (.ofProgram program) declared declared' A (.start program c) (.start program c') where
  same := rfl
  knows := knows
  knows' := knows'
  surface := rfl
  ns := .inl rfl
  scopes := Scopes.all_empty.declareAll _ fun _ hd => Declaration.type_fits fits hd
  table id t found := by simp [Typing.start, TypeTable.get?] at found

theorem typeProgram_agree (h : Agreeing (.ofProgram program) declared declared' A)
    (fits : Fits A (Cited.ofStmts program)) (knows : c.Knows declared) (knows' : c'.Knows declared') :
    (typeProgram program c').table = (typeProgram program c).table ∧
      (typeProgram program c').diagnostics = (typeProgram program c).diagnostics ∧
      (typeProgram program c).surface = .ofProgram program ∧
      (typeProgram program c).context.Knows fun key => ((Surface.ofProgram program).at? key).or (declared key) := by
  have last := (Typer.stmts_weaves h.weave program fits fits_true (retyped_start fits knows knows')).rel
  rw [Redraw.refl_stmt, List.map_id'] at last
  have surface : (typeProgram program c).surface = .ofProgram program := last.surface
  have context := last.knows.addTypes (typeProgram program c).surface
  have table := congrArg Typing.table last.same
  have diagnostics := congrArg Typing.diagnostics last.same
  refine ⟨table, diagnostics, surface, ?_⟩
  rw [← surface]
  exact context

theorem agreeing_self {S : Surface} {declared : String → Option Ty} : Agreeing S declared declared fun _ => True where
  path _ _ _ := rfl
  scope _ _ _ _ := rfl
  imported _ _ := rfl
  answers _ _ _ := trivial
  surface _ _ _ _ _ := trivial
  builtin _ := trivial

end

def typings (program : List Stmt) (context : Context) : Nat → TypedProgram
  | 0 => typeProgram program context
  | n + 1 => typeProgram program (typings program context n).context

section
variable (program : List Stmt) {declared : String → Option Ty} {c : Context}

theorem typings_knows (knows : c.Knows declared) (n : Nat) :
    (typings program c n).context.Knows fun key => ((Surface.ofProgram program).at? key).or (declared key) := by
  induction n with
  | zero => exact (typeProgram_agree agreeing_self fits_true knows knows).2.2.2
  | succ n ih =>
    have again := (typeProgram_agree agreeing_self (fits_true : Fits _ (Cited.ofStmts program)) ih ih).2.2.2
    have twice : (fun key => ((Surface.ofProgram program).at? key).or
        (((Surface.ofProgram program).at? key).or (declared key))) =
        fun key => ((Surface.ofProgram program).at? key).or (declared key) := by
      funext key
      cases (Surface.ofProgram program).at? key <;> rfl
    rw [twice] at again
    exact again

theorem typings_surface (knows : c.Knows declared) (n : Nat) :
    (typings program c n).surface = .ofProgram program := by
  cases n with
  | zero => exact (typeProgram_agree agreeing_self fits_true knows knows).2.2.1
  | succ n =>
    have before := typings_knows program knows n
    exact (typeProgram_agree agreeing_self fits_true before before).2.2.1

theorem typings_succ (knows : c.Knows declared) (n : Nat) :
    (typings program c (n + 1)).table = (typings program c 1).table ∧
      (typings program c (n + 1)).diagnostics = (typings program c 1).diagnostics := by
  have same := typeProgram_agree agreeing_self (fits_true : Fits _ (Cited.ofStmts program))
    (typings_knows program knows 0) (typings_knows program knows n)
  exact ⟨same.1, same.2.1⟩

end

/-! ## Imports -/

def Context.Plain (c : Context) : Prop :=
  ∀ key t, c.types.get? key = some t → ∀ p, .path p ∈ t.cited → p.Plain

def Citation.imported? : Citation → Option TypePath
  | .imported p => some p
  | _ => none

def importsOf (program : List Stmt) : List TypePath := (Cited.ofStmts program).filterMap Citation.imported?

/-- What is mentioned means the same before and after the surface is added to what is known. -/
def Stable (surface : Surface) (known : String → Option Ty) : Citation → Prop
  | .path p => p.Plain
  | .scope p => p.Spelled
  | .imported p => p.Plain ∧ ∀ t, surface.get? p.qualifiedName = some t → known p.qualifiedName = some t
  | _ => True

theorem builtin_plain (key : String) : ∀ p, .path p ∈ (Ty.builtin key).cited → p.Plain := by
  intro p hp
  have same : p = .ofQualified key := by simpa [Ty.builtin, Ty.cited, Cited.ofPath] using hp
  rw [same, TypePath.Plain, TypePath.qualifiedName_ofQualified]
  exact QualifiedName.plain_key key

section
variable {program : List Stmt} {known : String → Option Ty}

theorem agreeing_stable (spelled : Fits Citation.Spelled (Cited.ofStmts program))
    (plain : ∀ key t, known key = some t → ∀ p, .path p ∈ t.cited → p.Plain) :
    Agreeing (.ofProgram program) known (fun key => ((Surface.ofProgram program).at? key).or (known key))
      (Stable (.ofProgram program) known) := by
  -- a name that the program does not declare has the answer that it had
  have settled {name : String} (hp : QualifiedName.Plain name) (absent : (Surface.ofProgram program).get? name = none) :
      answer (fun key => ((Surface.ofProgram program).at? key).or (known key)) (QualifiedName.key name) =
        answer known (QualifiedName.key name) := by
    rw [hp, answer, Surface.at?_ofProgram spelled, absent, Option.none_or, answer]
  refine ⟨fun p hp => settled hp, fun p hp q => settled (hp.qualify q), ?_, ?_, ?_, ?_⟩
  · rintro p ⟨hp, known_before⟩
    cases found : (Surface.ofProgram program).get? p.qualifiedName with
    | none => exact settled hp found
    | some t =>
      have before := known_before t found
      rw [hp, answer, answer, before, Surface.at?_ofProgram spelled, found, Option.some_or]
  · intro name p hp
    unfold answer at hp
    cases found : known (QualifiedName.key name) with
    | none =>
      rw [found] at hp
      exact builtin_plain _ p hp
    | some t =>
      rw [found] at hp
      exact plain _ t found p hp
  · intro name t found p hp
    obtain ⟨d, hd, _, rfl⟩ := Surface.mem_of_get?_ofProgram found
    exact TypePath.Spelled.plain (Declaration.type_fits spelled hd p hp)
  · intro b
    have segment : QualifiedName.IsSegment b.name := by cases b <;> exact ⟨by decide, by decide⟩
    exact QualifiedName.plain_join segment []

theorem fits_stable (spelled : Fits Citation.Spelled (Cited.ofStmts program)) {surface : Surface}
    (imports : ∀ p ∈ importsOf program, ∀ t, surface.get? p.qualifiedName = some t → known p.qualifiedName = some t) :
    Fits (Stable surface known) (Cited.ofStmts program) := by
  intro x hx
  have hs := spelled x hx
  cases x with
  | path p => exact TypePath.Spelled.plain hs
  | scope p => exact hs
  | imported p => exact ⟨TypePath.Spelled.plain hs, imports p (List.mem_filterMap.mpr ⟨_, hx, rfl⟩)⟩
  | node e => trivial
  | declared name => trivial

theorem typings_plain {c : Context} (spelled : Fits Citation.Spelled (Cited.ofStmts program))
    (noLoader : c.loader = none) (plain : c.Plain) (n : Nat) : (typings program c n).context.Plain := by
  have knows := typings_knows program (c.knows_types noLoader) n
  intro key t found p hp
  cases hd : ((Surface.ofProgram program).at? key).or (c.types.get? key) with
  | none =>
    obtain rfl := knows.undeclared key t hd found
    exact builtin_plain key p hp
  | some u =>
    obtain rfl := Option.some.inj ((knows.declares key u hd).symm.trans found)
    rw [Option.or_eq_some_iff] at hd
    rcases hd with own | ⟨_, old⟩
    · obtain ⟨d, hmem, _, rfl⟩ := Surface.mem_of_get?_ofProgram (Surface.at?_ofProgram spelled _ ▸ own)
      exact TypePath.Spelled.plain (Declaration.type_fits spelled hmem p hp)
    · exact plain key u old p hp

end

/-- Without files, every run over a program after the first gives the same types and diagnostics, and
all runs give the same surface. The first run gives them too, unless the program imports one of its
own declarations which the context does not know yet. -/
theorem typings_settled {source file : String} {nextId next : Nat} {program : List Stmt}
    (read : (readSource source file nextId).result = .ok (program, next)) {context : Context}
    (noLoader : context.loader = none) :
    (∀ n, (typings program context n).surface = .ofProgram program ∧
      (typings program context n).context.loader = none) ∧
    (∀ n, (typings program context (n + 1)).table = (typings program context 1).table ∧
      (typings program context (n + 1)).diagnostics = (typings program context 1).diagnostics) ∧
    (context.Plain → (∀ n, (typings program context n).context.Plain) ∧
      ((∀ p ∈ importsOf program, ∀ t, (Surface.ofProgram program).get? p.qualifiedName = some t →
          context.types.get? p.qualifiedName = some t) →
        ∀ n, (typings program context n).table = (typings program context 0).table ∧
          (typings program context n).diagnostics = (typings program context 0).diagnostics)) := by
  have spelled := readSource_spelled read
  have knows := Context.knows_types noLoader
  refine ⟨fun n => ⟨typings_surface program knows n, (typings_knows program knows n).noLoader⟩,
    typings_succ program knows, fun plain => ?_⟩
  refine ⟨typings_plain spelled noLoader plain, fun imports n => ?_⟩
  have second := typeProgram_agree (agreeing_stable spelled plain) (fits_stable spelled imports) knows
    (typings_knows program knows 0)
  cases n with
  | zero => exact ⟨rfl, rfl⟩
  | succ n =>
    have later := typings_succ program knows n
    exact ⟨later.1.trans second.1, later.2.trans second.2.1⟩

theorem typings_settled_import :
    let source := "namespace A \x7b\n  class B \x7b y: Int = 1 \x7d\n\x7d\n" ++
      "namespace C \x7b\n  use D::\x7bE, f\x7d\n  var x = ::A::B().y + f(E, B.z)\n\x7d"
    (importsOf (programOf source)).map (·.text) = ["D::E", "D::f"] ∧
      (typings (programOf source) {} 0).diagnostics.map (·.message) = ["The class B does not have a field z"] ∧
      ∀ n, (typings (programOf source) {} n).table = (typings (programOf source) {} 0).table ∧
        (typings (programOf source) {} n).diagnostics = (typings (programOf source) {} 0).diagnostics := by
  intro source
  obtain ⟨next, read⟩ := exists_read_programOf source (by decide +kernel)
  have others : ∀ p ∈ importsOf (programOf source),
      ((Surface.ofProgram (programOf source)).get? p.qualifiedName).isNone := by decide +kernel
  refine ⟨by decide +kernel, by decide +kernel, ?_⟩
  have settled := typings_settled read (show ({} : Context).loader = none from rfl)
  refine (settled.2.2 ?_).2 ?_
  · intro key t found
    simp [Bindings.get?] at found
  · intro p hp t found
    simp [Option.isNone_iff_eq_none.mp (others p hp)] at found

/-- The first run knows an imported class of the same file only by its path, the second one knows
the class. -/
theorem import_known_to_second_run :
    let source := "namespace A \x7b\n  class B \x7b\x7d\n\x7d\nnamespace C \x7b\n  use A::B\n  var x = B.y\n\x7d"
    (readSource source "" 0).result.isOk = true ∧
      (typings (programOf source) {} 0).table.entries.map (fun entry => entry.2.text) = ["Any", "::A::B"] ∧
      (typings (programOf source) {} 0).diagnostics = [] ∧
      (typings (programOf source) {} 1).table.entries.map (fun entry => entry.2.text) = ["Any", "class B"] ∧
      (typings (programOf source) {} 1).diagnostics.map (·.message) = ["The class B does not have a field y"] := by
  decide +kernel

end PhaseLang
