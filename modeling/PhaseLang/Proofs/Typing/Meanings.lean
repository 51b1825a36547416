import PhaseLang.Compile
import PhaseLang.Proofs.Typing.Entries

/-!
# What a name means at a point

A relative path is looked for in the scopes first, and the names of all declarations of a file
are bound in its outermost frame, whatever their namespaces are. So a name means what was
bound to it last: by a frame around the point, by the statements of the file so far, or else by
the declarations of the whole file.
-/

namespace PhaseLang

namespace Trail

variable {name : String} {trail : Trail} {declared : Option Ty}

theorem mem_of_get? : ∀ {trail : Trail}, Bindings.get? name trail = some declared → (name, declared) ∈ trail
  | (n, d) :: trail, h => by
    by_cases hn : n = name
    · simp_all [Bindings.get?]
    · exact List.mem_cons_of_mem _ (mem_of_get? (by simpa [Bindings.get?, hn] using h))

theorem mem_of_latest? (h : trail.latest? name = some declared) : (name, declared) ∈ trail :=
  List.mem_reverse.mp (mem_of_get? h)

theorem latest?_isSome (h : (name, declared) ∈ trail) : (trail.latest? name).isSome := by
  have found : ∀ {trail : Trail}, (name, declared) ∈ trail → (Bindings.get? name trail).isSome := by
    intro trail h
    induction trail with
    | nil => cases h
    | cons b trail ih =>
      by_cases hn : b.1 = name
      · simp [Bindings.get?, hn]
      · have : (name, declared) ∈ trail := by
          rcases List.mem_cons.mp h with rfl | h
          · exact absurd rfl hn
          · exact h
        simpa [Bindings.get?, hn] using ih this
  exact found (List.mem_reverse.mpr h)

mutual

theorem declaration_of_mem_ofStmt {type : Ty} (ns : List String) : ∀ x, (name, some type) ∈ ofStmt x →
    ∃ d ∈ Declaration.ofStmt ns x, d.name = name ∧ d.type = type
  | ⟨_, .inNamespace path decls⟩, h => by
    simp only [ofStmt] at h
    exact declaration_of_mem_ofStmts path.segments decls h
  | ⟨_, .func f⟩, h => by
    simp only [ofStmt, List.mem_singleton, Prod.mk.injEq, Option.some.injEq] at h
    simp [Declaration.ofStmt, h]
  | ⟨_, .cls c⟩, h => by
    simp only [ofStmt, List.mem_singleton, Prod.mk.injEq, Option.some.injEq] at h
    simp [Declaration.ofStmt, h]
  | ⟨_, .use _ _ _⟩, h | ⟨_, .var _ _ _⟩, h | ⟨_, .global _⟩, h | ⟨_, .expr _⟩, h | ⟨_, .raise _⟩, h
  | ⟨_, .attempt _ _⟩, h | ⟨_, .handler _ _ _⟩, h | ⟨_, .loop _ _ _⟩, h | ⟨_, .forIn _ _ _ _⟩, h
  | ⟨_, .branch _ _ _⟩, h | ⟨_, .switch _ _⟩, h | ⟨_, .block _⟩, h | ⟨_, .ret _⟩, h => by
    simp [ofStmt, ofNames] at h

theorem declaration_of_mem_ofStmts {type : Ty} (ns : List String) : ∀ xs, (name, some type) ∈ ofStmts xs →
    ∃ d ∈ Declaration.ofStmts ns xs, d.name = name ∧ d.type = type
  | x :: xs, h => by
    simp only [ofStmts, List.mem_append] at h
    simp only [Declaration.ofStmts, List.mem_append]
    rcases h with h | h
    · obtain ⟨d, mem, found⟩ := declaration_of_mem_ofStmt ns x h
      exact ⟨d, .inl mem, found⟩
    · obtain ⟨d, mem, found⟩ := declaration_of_mem_ofStmts ns xs h
      exact ⟨d, .inr mem, found⟩

end

end Trail

/-! ## Paths -/

theorem TypePath.qualifiedName_of_single {path : TypePath} (single : path.ns = []) :
    path.qualifiedName = path.name := by
  simp [qualifiedName, single, QualifiedName.join]

namespace Point

variable {program : List Stmt} {P : Point} {path : TypePath} {name : String} {type : Ty}

theorem Sound.scope_of_declared (h : P.Sound program) (bound : P.view.get? name = some (some type)) :
    P.typing.env.scope name = some type := by
  have found : Option.Rel Trail.Fits (P.view.get? name) (P.typing.env.scope name) := h.holds.resolve name
  rw [bound] at found
  generalize P.typing.env.scope name = result at found
  cases found with
  | some fits => exact congrArg some (fits type rfl)

theorem Sound.scope_of_unbound (h : P.Sound program) (unbound : P.view.get? name = none) :
    P.typing.env.scope name = none := by
  have found : Option.Rel Trail.Fits (P.view.get? name) (P.typing.env.scope name) := h.holds.resolve name
  rw [unbound] at found
  generalize P.typing.env.scope name = result at found
  cases found with
  | none => rfl

theorem Sound.resolve (h : P.Sound program) (path : TypePath) :
    ((Typer.resolve path).run P.typing).1 = P.typing.env.resolve path :=
  (Typer.resolve_evals path P.typing rfl h.alike.blank).1

theorem Sound.resolveName_of_declared (h : P.Sound program) (relative : path.absolute = false)
    (bound : P.view.get? path.qualifiedName = some (some type)) : P.typing.env.resolveName path = type := by
  simp [Env.resolveName, relative, h.scope_of_declared bound]

end Point

/-! ## Names of a file's own declarations -/

/-- What was bound to a name last in the outermost frame is a declaration, if nothing else has the name. -/
theorem Reached.declaration_of_latest {program : List Stmt} {context : Context} {P : Point}
    (h : Reached program context P) {name : String} {b : Option Ty}
    (plain : ∀ b ∈ Trail.ofStmts program, b.1 = name → b.2.isSome)
    (latest : (P.view.passed.latest? name).or ((Trail.ofDeclarations program).latest? name) = some b) :
    ∃ d ∈ Declaration.ofStmts [] program, d.name = name ∧ b = some d.type := by
  rcases Option.or_eq_some_iff.mp latest with found | ⟨-, found⟩
  · have mem := h.passed_prefix.subset (Trail.mem_of_latest? found)
    obtain ⟨type, rfl⟩ := Option.isSome_iff_exists.mp (plain _ mem rfl)
    obtain ⟨d, hd, same, rfl⟩ := Trail.declaration_of_mem_ofStmts [] program mem
    exact ⟨d, hd, same, rfl⟩
  · obtain ⟨d, hd, entry⟩ := List.mem_map.mp (Trail.mem_of_latest? found)
    simp only [Prod.mk.injEq] at entry
    exact ⟨d, hd, entry.1, entry.2.symm⟩

/-- A name of one segment that the file declares means what was bound to it last. So it means
the class of its own namespace if and only if that one was declared last: by the statements so far,
or else in the whole file. -/
theorem resolve_iff_latest {source file : String} {nextId next : Nat} {program : List Stmt}
    (read : (readSource source file nextId).result = .ok (program, next)) {context : Context}
    (blank : context.Blank) {P : Point} (reached : Reached program context P) {path : TypePath}
    (relative : path.absolute = false) (single : path.ns = []) {ns : List String} {c : Class}
    (own : ⟨ns, path.name, .classOf c⟩ ∈ Declaration.ofStmts [] program)
    (clear : ∀ frame ∈ P.view.inner, frame.latest? path.name = none)
    (plain : ∀ b ∈ Trail.ofStmts program, b.1 = path.name → b.2.isSome) :
    let latest := (P.view.passed.latest? path.name).or ((Trail.ofDeclarations program).latest? path.name)
    let resolved := ((Typer.resolve path).run P.typing).1
    let marked (type : Ty) : Ty := if path.nullable then .nullable type else type
    (∀ id pos, P.code = .expr ⟨id, pos, .path path⟩ →
      (typeProgram program context).table.get? id = some resolved) ∧
    P.view.passed <+: Trail.ofStmts program ∧
    (∃ type, latest = some (some type) ∧ resolved = marked type) ∧
    (resolved = marked (.classOf c) ↔ latest = some (some (.classOf c))) ∧
    ((∀ d ∈ Declaration.ofStmts [] program, d.name = path.name → d.type = .classOf c) →
      resolved = marked (.classOf c)) := by
  intro latest resolved marked
  have sound := reached.sound blank
  have visible : P.view.get? path.qualifiedName = latest := by
    rw [TypePath.qualifiedName_of_single single, View.get?, List.findSome?_eq_none_iff.mpr clear, sound.declared]
    rfl
  have bound : latest.isSome := by
    have mem : (path.name, some (.classOf c)) ∈ Trail.ofDeclarations program :=
      List.mem_map.mpr ⟨_, own, rfl⟩
    simp [latest, Trail.latest?_isSome mem]
  obtain ⟨_, found⟩ := Option.isSome_iff_exists.mp bound
  obtain ⟨d, hd, name, rfl⟩ := reached.declaration_of_latest plain found
  have meaning : resolved = marked d.type := by
    show ((Typer.resolve path).run P.typing).1 = _
    rw [sound.resolve, Env.resolve, sound.resolveName_of_declared relative (visible.trans found)]
  have injective (type : Ty) : marked d.type = marked type ↔ d.type = type := by
    by_cases h : path.nullable <;> simp [marked, h]
  refine ⟨fun id pos code => ?_, reached.passed_prefix, ⟨_, found, meaning⟩, ?_, fun only => ?_⟩
  · rw [table_get?_of_reached blank read reached code]
    rfl
  · rw [meaning, injective, found, Option.some.injEq, Option.some.injEq]
  · rw [meaning, only d hd name]

def classIn? (program : List Stmt) (ns : List String) (name : String) : Option Class :=
  (Declaration.ofStmts [] program).findSome? fun
    | ⟨ns', name', .classOf c⟩ => if ns' = ns ∧ name' = name then some c else none
    | _ => none

theorem mem_of_classIn? {program : List Stmt} {ns : List String} {name : String} {c : Class}
    (h : classIn? program ns name = some c) : ⟨ns, name, .classOf c⟩ ∈ Declaration.ofStmts [] program := by
  obtain ⟨d, mem, found⟩ := List.exists_of_findSome?_eq_some h
  split at found
  · rename_i ns' name' c'
    split at found
    · rename_i same
      obtain ⟨rfl, rfl⟩ := same
      cases found
      exact mem
    · cases found
  · cases found

def Point.path? (P : Point) : Option TypePath :=
  match P.code with
  | .typed path => path
  | .expr ⟨_, _, .path path⟩ => some path
  | _ => none

/-- The point is a mention of a name in a namespace, in no frame that binds it. -/
def Point.mentions (P : Point) (ns : List String) (name : String) : Bool :=
  decide (P.path? = some (.ofName name)) && decide (P.typing.ns = ns) &&
    P.view.inner.all fun frame => (frame.latest? name).isNone

def Ty.hasMember (type : Ty) (name : String) : Bool := (type.class?.bind (·.ownMember? name)).isSome

theorem resolve_iff_latest_after :
    let source := "namespace A \x7b\n  class X \x7b a: Int = 1 \x7d\n" ++
      "  function f(x: X) \x7b return x.a \x7d\n\x7d\nnamespace B \x7b\n  class X \x7b\x7d\n\x7d"
    let program := programOf source
    ∃ P, Reached program {} P ∧ P.mentions ["A"] "X" ∧
      ∃ type, P.view.passed.latest? "X" = some (some type) ∧
        ((Typer.resolve (.ofName "X")).run P.typing).1 = type ∧ type.hasMember "a" := by
  intro source program
  have checks : (readSource source "" 0).result.isOk = true ∧
      (((Point.start program {}).within 12).any fun P => P.mentions ["A"] "X" &&
        (P.view.passed.latest? "X").any fun declared => (declared.getD .any).hasMember "a") = true ∧
      (classIn? program ["A"] "X").isSome ∧ ∀ b ∈ Trail.ofStmts program, b.1 = "X" → b.2.isSome := by
    decide +kernel
  obtain ⟨readable, some_point, declares, plain⟩ := checks
  obtain ⟨c, own⟩ := Option.isSome_iff_exists.mp declares
  obtain ⟨P, hP, checked⟩ := List.any_eq_true.mp some_point
  simp only [Bool.and_eq_true, Option.any_eq_true] at checked
  obtain ⟨mentioned, declared, found, member⟩ := checked
  have clear : ∀ frame ∈ P.view.inner, frame.latest? "X" = none := by
    simp only [Point.mentions, Bool.and_eq_true, List.all_eq_true, Option.isNone_iff_eq_none] at mentioned
    exact mentioned.2
  have reached : Reached program {} P := .within 12 .start hP
  obtain ⟨next, read⟩ := exists_read_programOf source readable
  obtain ⟨-, -, ⟨type, latest, resolved⟩, -⟩ := resolve_iff_latest read (Context.blank_empty 0) reached
    (show (TypePath.ofName "X").absolute = false from rfl) rfl (mem_of_classIn? own) clear plain
  simp only [TypePath.ofName, found, Option.some_or, Option.some.injEq] at latest
  subst latest
  exact ⟨P, reached, mentioned, type, found, resolved, member⟩

/-- A name that is used before the class of its own namespace is declared means that of a later one. -/
theorem name_means_later_class :
    let source := "namespace A \x7b\n  function f() \x7b\n    var x = X()\n    return x.a\n  \x7d\n" ++
      "  class X \x7b a: Int = 1 \x7d\n\x7d\nnamespace B \x7b\n  class X \x7b\x7d\n\x7d"
    let program := programOf source
    (compile source "main.phs" 8 {}).diagnostics.map (·.message) = ["The class X does not have a field a"] ∧
    ∃ P c, Reached program {} P ∧ P.mentions ["A"] "X" ∧
      ⟨["A"], "X", .classOf c⟩ ∈ Declaration.ofStmts [] program ∧
      ((Typer.resolve (.ofName "X")).run P.typing).1 ≠ .classOf c := by
  intro source program
  have checks : (compile source "main.phs" 8 {}).diagnostics.map (·.message) =
        ["The class X does not have a field a"] ∧
      (((Point.start program {}).within 12).any fun P => P.mentions ["A"] "X" &&
        !((Typer.resolve (.ofName "X")).run P.typing).1.hasMember "a") = true ∧
      ((classIn? program ["A"] "X").any fun c => (Ty.classOf c).hasMember "a") = true := by decide +kernel
  obtain ⟨reported, some_point, declares⟩ := checks
  refine ⟨reported, ?_⟩
  obtain ⟨P, hP, checked⟩ := List.any_eq_true.mp some_point
  simp only [Bool.and_eq_true, Bool.not_eq_true'] at checked
  obtain ⟨c, own, member⟩ := Option.any_eq_true _ _ |>.mp declares
  refine ⟨P, c, Reached.within 12 .start hP, checked.1, mem_of_classIn? own, fun same => ?_⟩
  rw [same, member] at checked
  cases checked.2

end PhaseLang
