import PhaseLang.Proofs.Typing.Meanings

/-!
# Looking up members at a point

What a class inherits from, and the types of its members, are written as paths, and each access
resolves them where it stands, not where the class does. So a lookup has the same result at two
points if these paths mean the same at both.
-/

namespace PhaseLang

/-! ## Reports -/

namespace Typer

variable {α β : Type}

theorem run_bind (m : Typer α) (f : α → Typer β) (s : Typing) :
    (m >>= f).run s = (f (m.run s).1).run (after m s) := rfl

theorem member_spec {s : Typing} (blank : s.context.Blank) {target : Ty} {c : Class} (hc : target.class? = some c)
    {name : String} {found : Option Ty} (lookup : ((memberType name inheritanceLimit c).run s).1 = found)
    (pos : Position) :
    ((member target name pos).run s).1 = found.getD .any ∧
    (after (member target name pos) s).diagnostics = s.diagnostics ++
      if found.isNone then [⟨pos, s!"The class {c.name} does not have a field {name}"⟩] else [] := by
  have silent : (after (memberType name inheritanceLimit c) s).diagnostics = s.diagnostics := by
    obtain ⟨new, reports, none⟩ := (memberType_idle name inheritanceLimit c s).2.2.2.2.reported blank.noLoader
    rw [reports, List.map_eq_nil_iff.mp (List.sublist_nil.mp none), List.append_nil]
  simp only [after, member, hc]
  rw [run_bind, lookup]
  cases found with
  | some type => exact ⟨rfl, silent.trans (by simp)⟩
  | none =>
    refine ⟨rfl, ?_⟩
    rw [← silent]
    rfl

end Typer

/-! ## Lineages -/

namespace Env

variable {E E' : Env}

theorem behind_congr {line line' : Class → List (Option Class)} {path : TypePath}
    (same : E.resolve path = E'.resolve path) (lines : ∀ k, E.behind line path = line k → line' k = line k) :
    E'.behind line' path = E.behind line path := by
  unfold behind at lines ⊢
  rw [← same]
  cases type : E.resolve path with
  | classOf k | objectOf k => exact lines k (by simp [type])
  | _ => rfl

theorem lineage_congr : ∀ limit c,
    (∀ k, some k ∈ E.lineage limit c → ∀ path ∈ Typer.ancestors k, E.resolve path = E'.resolve path) →
    E'.lineage limit c = E.lineage limit c := by
  intro limit
  induction limit with
  | zero =>
    intro c same
    have own := same c (by simp [lineage])
    simp only [lineage]
    rw [List.flatMap_congr fun path mem => behind_congr (own path mem) fun _ _ => rfl]
  | succ limit ih =>
    intro c same
    have own := same c (by simp [lineage])
    simp only [lineage]
    rw [List.flatMap_congr fun path mem => behind_congr (own path mem) fun k row => ?_]
    refine ih k fun j hj => same j ?_
    simp only [lineage, List.mem_cons, List.mem_flatMap]
    exact .inr ⟨path, mem, row ▸ hj⟩

theorem resolveName_absolute {path : TypePath} (absolute : path.absolute = true) :
    E.resolveName path =
      (E.surface.get? path.qualifiedName).getD (.builtin (QualifiedName.key path.qualifiedName)) := by
  simp [resolveName, absolute]

theorem resolveName_unbound {path : TypePath} (relative : path.absolute = false)
    (unbound : E.scope path.qualifiedName = none) :
    E.resolveName path = ((E.surface.get? (path.qualify E.ns).qualifiedName).or
      (E.surface.get? path.qualifiedName)).getD (.builtin (QualifiedName.key path.qualifiedName)) := by
  simp only [resolveName, relative, unbound, Bool.false_or]
  cases hns : E.ns with
  | nil => simp [TypePath.qualify, TypePath.qualifiedName]
  | cons _ _ => simp

end Env

/-! ## Two points -/

namespace Point

/-- By what the points see, the path means the same at both: it is absolute, or bound to the same
declaration, or to one type in both scopes, as by the same import, or bound at neither and declared alike
in both namespaces. -/
def AgreeOn (program : List Stmt) (P Q : Point) (path : TypePath) : Prop :=
  let name := path.qualifiedName
  let declaredIn (ns : List String) := (Surface.ofProgram program).get? (path.qualify ns).qualifiedName
  path.absolute = true ∨
  (∃ type, P.view.get? name = some (some type) ∧ Q.view.get? name = some (some type)) ∨
  (∃ type, P.typing.scopes.resolve name = some type ∧ Q.typing.scopes.resolve name = some type) ∨
  (P.view.get? name = none ∧ Q.view.get? name = none ∧ declaredIn P.typing.ns = declaredIn Q.typing.ns)

theorem AgreeOn.resolve {program : List Stmt} {P Q : Point} {path : TypePath} (h : AgreeOn program P Q path)
    (hP : P.Sound program) (hQ : Q.Sound program) : P.typing.env.resolve path = Q.typing.env.resolve path := by
  suffices P.typing.env.resolveName path = Q.typing.env.resolveName path by simp only [Env.resolve, this]
  have surface : P.typing.env.surface = Q.typing.env.surface := hP.surface.trans hQ.surface.symm
  by_cases absolute : path.absolute = true
  · rw [Env.resolveName_absolute absolute, Env.resolveName_absolute absolute, surface]
  have relative : path.absolute = false := by simpa using absolute
  rcases h with h | ⟨type, boundP, boundQ⟩ | ⟨type, boundP, boundQ⟩ | ⟨unboundP, unboundQ, declared⟩
  · exact absurd h absolute
  · rw [hP.resolveName_of_declared relative boundP, hQ.resolveName_of_declared relative boundQ]
  · simp [Env.resolveName, relative, Typing.env, boundP, boundQ]
  · have declared : P.typing.env.surface.get? (path.qualify P.typing.env.ns).qualifiedName =
        P.typing.env.surface.get? (path.qualify Q.typing.env.ns).qualifiedName := by
      rw [show P.typing.env.surface = Surface.ofProgram program from hP.surface]
      exact declared
    rw [Env.resolveName_unbound relative (hP.scope_of_unbound unboundP),
      Env.resolveName_unbound relative (hQ.scope_of_unbound unboundQ), declared, surface]

end Point

def MemberKind.type? : MemberKind → Option TypePath
  | .field type _ | .property type _ _ => type
  | .use _ | .method _ => none

def Found.type? : Found → Option TypePath
  | .member m => m.kind.type?
  | .unknown => none

theorem Env.foundType_congr {E E' : Env} {found : Found}
    (same : ∀ path ∈ found.type?, E.resolve path = E'.resolve path) : E'.foundType found = E.foundType found := by
  obtain ⟨_, kind, _, _, _⟩ | _ := found
  · cases kind with
    | field type _ | property type _ _ =>
      cases type with
      | none => rfl
      | some path => exact (same path rfl).symm
    | use _ | method _ => rfl
  · rfl

theorem Point.Sound.access {program : List Stmt} {P : Point} (h : P.Sound program) {target : Expr} {c : Class}
    (hc : ((Typer.expr target).run P.typing).1.class? = some c) (name : String) (id fieldId : Nat)
    (pos fieldPos : Position) :
    let found := Found.first? name (P.typing.env.lineage Typer.inheritanceLimit c)
    let access : Expr := ⟨id, pos, .get target ⟨fieldId, fieldPos, .ident name⟩⟩
    ((Typer.expr access).run P.typing).1 = (found.map P.typing.env.foundType).getD .any ∧
    (Typer.after (Typer.expr access) P.typing).diagnostics = (Typer.after (Typer.expr target) P.typing).diagnostics ++
      if found.isNone then [⟨fieldPos, s!"The class {c.name} does not have a field {name}"⟩] else [] := by
  intro found access
  have next := h.alike.step (Code.expr target).replays (Typer.expr_ran [] P.typing target)
  have lookup := (Typer.memberType_evals name Typer.inheritanceLimit c _ next.env.symm next.blank').1
  have spec := Typer.member_spec next.blank' hc lookup fieldPos
  rw [Option.isNone_map] at spec
  have run : (Typer.expr access).run P.typing = (do
      let type ← Typer.member ((Typer.expr target).run P.typing).1 name fieldPos
      Typer.record id type
      return type : Typer Ty).run (Typer.after (Typer.expr target) P.typing) := by
    rfl
  rw [Typer.after, run]
  exact spec

/-- What a lookup gives at a point is the type, as it is read there, of the first declaration of
the member in the lineage that is seen there, and an access to a member without one is reported.
Where what the lineage inherits from means the same at another point, the same declaration is
found there, or none is; and where the type of the member means the same too, so is the answer. -/
theorem memberType_eq_of_agreeOn {source file : String} {nextId next : Nat} {program : List Stmt}
    (read : (readSource source file nextId).result = .ok (program, next)) {context : Context}
    (blank : context.Blank) {P Q : Point} (hP : Reached program context P) (hQ : Reached program context Q)
    (c : Class) (name : String) :
    let row (P : Point) := P.typing.env.lineage Typer.inheritanceLimit c
    let found (P : Point) := Found.first? name (row P)
    let answer (P : Point) := ((Typer.memberType name Typer.inheritanceLimit c).run P.typing).1
    answer P = (found P).map P.typing.env.foundType ∧
    (∀ id pos target fieldId fieldPos, P.code = .expr ⟨id, pos, .get target ⟨fieldId, fieldPos, .ident name⟩⟩ →
      ((Typer.expr target).run P.typing).1.class? = some c →
      (typeProgram program context).table.get? id = some ((answer P).getD .any) ∧
      (Typer.after P.code.run P.typing).diagnostics = (Typer.after (Typer.expr target) P.typing).diagnostics ++
        if (answer P).isNone then [⟨fieldPos, s!"The class {c.name} does not have a field {name}"⟩] else []) ∧
    ((∀ k, some k ∈ row P → ∀ path ∈ Typer.ancestors k, Point.AgreeOn program P Q path) →
      found Q = found P ∧
      ((∀ path ∈ (found P).bind Found.type?, Point.AgreeOn program P Q path) → answer Q = answer P)) := by
  intro row found answer
  have soundP := hP.sound blank
  have soundQ := hQ.sound blank
  have value {P : Point} (sound : P.Sound program) : answer P = (found P).map P.typing.env.foundType :=
    (Typer.memberType_evals name Typer.inheritanceLimit c P.typing rfl sound.alike.blank).1
  refine ⟨value soundP, fun id pos target fieldId fieldPos code hc => ?_, fun same => ?_⟩
  · obtain ⟨type, reports⟩ := soundP.access hc name id fieldId pos fieldPos
    rw [value soundP, Option.isNone_map, table_get?_of_reached blank read hP code, type, code]
    exact ⟨rfl, reports⟩
  · have rows : row Q = row P :=
      Env.lineage_congr _ c fun k hk path hp => (same k hk path hp).resolve soundP soundQ
    have first : found Q = found P := by simp only [found, rows]
    refine ⟨first, fun sameType => ?_⟩
    rw [value soundQ, value soundP, first]
    refine Option.map_congr fun m hm => Env.foundType_congr fun path hp => ?_
    exact (sameType path (Option.mem_bind_iff.mpr ⟨m, hm, hp⟩)).resolve soundP soundQ

def Point.reads (P : Point) (ns : List String) (name : String) : Bool :=
  (match P.code with
    | .expr ⟨_, _, .get _ field⟩ => decide (field.ident? = some name)
    | _ => false) && decide (P.typing.ns = ns)

theorem memberType_eq_of_agreeOn_absolute :
    let source := "namespace A \x7b\n  class P \x7b x: ::Int = 1 \x7d\n" ++
      "  class C extends ::A::P \x7b\x7d\n  C().x\n\x7d\n" ++
      "namespace B \x7b\n  class P \x7b\x7d\n  ::A::C().x\n\x7d"
    let program := programOf source
    ∃ P Q c, Reached program {} P ∧ Reached program {} Q ∧ P.reads ["A"] "x" ∧ Q.reads ["B"] "x" ∧
      ⟨["A"], "C", .classOf c⟩ ∈ Declaration.ofStmts [] program ∧
      ((Typer.memberType "x" Typer.inheritanceLimit c).run P.typing).1.isSome ∧
      ((Typer.memberType "x" Typer.inheritanceLimit c).run Q.typing).1 =
        ((Typer.memberType "x" Typer.inheritanceLimit c).run P.typing).1 := by
  intro source program
  have checks : (readSource source "" 0).result.isOk = true ∧
      ((classIn? program ["A"] "C").any fun c => ((Point.start program {}).within 9).any fun P =>
        let row := P.typing.env.lineage Typer.inheritanceLimit c
        P.reads ["A"] "x" && ((Typer.memberType "x" Typer.inheritanceLimit c).run P.typing).1.isSome &&
        (row.all fun k => (k.toList.flatMap Typer.ancestors).all (·.absolute)) &&
        ((Found.first? "x" row).bind Found.type?).all (·.absolute)) = true ∧
      (((Point.start program {}).within 9).any fun Q => Q.reads ["B"] "x") = true := by decide +kernel
  obtain ⟨readable, first, second⟩ := checks
  obtain ⟨next, read⟩ := exists_read_programOf source readable
  obtain ⟨c, own, first⟩ := Option.any_eq_true _ _ |>.mp first
  obtain ⟨P, hP, checked⟩ := List.any_eq_true.mp first
  obtain ⟨Q, hQ, readsQ⟩ := List.any_eq_true.mp second
  simp only [Bool.and_eq_true, List.all_eq_true, Option.all_eq_true] at checked
  obtain ⟨⟨⟨readsP, found⟩, absolute⟩, absoluteType⟩ := checked
  have reachedP : Reached program {} P := .within 9 .start hP
  have reachedQ : Reached program {} Q := .within 9 .start hQ
  refine ⟨P, Q, c, reachedP, reachedQ, readsP, readsQ, mem_of_classIn? own, found, ?_⟩
  refine ((memberType_eq_of_agreeOn read (Context.blank_empty 0) reachedP reachedQ c "x").2.2 fun k hk path hp => ?_).2
    fun path hp => ?_
  · exact .inl (absolute _ hk path (by simpa using hp))
  · exact .inl (absoluteType path hp)

/-- In another namespace a parent that is written as a name is another class. -/
theorem member_lost_in_namespace :
    let source := "namespace A \x7b\n  class P \x7b x: Int = 1 \x7d\n  class C extends P \x7b\x7d\n" ++
      "  var c = C()\n  c.x\n\x7d\nnamespace B \x7b\n  class P \x7b\x7d\n  var d = ::A::C()\n  d.x\n\x7d"
    let program := programOf source
    (compile source "main.phs" 8 {}).diagnostics.map (·.message) = ["The class C does not have a field x"] ∧
    ∃ P Q c, Reached program {} P ∧ Reached program {} Q ∧ P.reads ["A"] "x" ∧ Q.reads ["B"] "x" ∧
      ⟨["A"], "C", .classOf c⟩ ∈ Declaration.ofStmts [] program ∧
      ((Typer.memberType "x" Typer.inheritanceLimit c).run P.typing).1.isSome ∧
      ((Typer.memberType "x" Typer.inheritanceLimit c).run Q.typing).1.isNone := by
  intro source program
  have checks : (compile source "main.phs" 8 {}).diagnostics.map (·.message) =
        ["The class C does not have a field x"] ∧
      ((classIn? program ["A"] "C").any fun c =>
        (((Point.start program {}).within 9).any fun P => P.reads ["A"] "x" &&
          ((Typer.memberType "x" Typer.inheritanceLimit c).run P.typing).1.isSome) &&
        ((Point.start program {}).within 9).any fun Q => Q.reads ["B"] "x" &&
          ((Typer.memberType "x" Typer.inheritanceLimit c).run Q.typing).1.isNone) = true := by decide +kernel
  obtain ⟨reported, both⟩ := checks
  obtain ⟨c, own, both⟩ := Option.any_eq_true _ _ |>.mp both
  simp only [Bool.and_eq_true, List.any_eq_true] at both
  obtain ⟨⟨P, hP, readsP, found⟩, Q, hQ, readsQ, absent⟩ := both
  exact ⟨reported, P, Q, c, .within 9 .start hP, .within 9 .start hQ, readsP, readsQ, mem_of_classIn? own, found,
    absent⟩

end PhaseLang
