import PhaseLang.Compile
import PhaseLang.Proofs.Typing.Records
import PhaseLang.Proofs.Typing.Surfaces

/-!
# Members of a hierarchy

Lowering looks for a member as typing does, but in another hierarchy: it sees the classes of
the file by their qualified names only, and goes through the interfaces of a class as well, and
before its traits. What it finds is the first declaration of the name in the `lineage` of the
class. Main result: it finds the member that typing found if the ancestors that typing goes through
are those that the file declares under their names, and no interface of a class has the name.
-/

namespace PhaseLang

namespace Php

/-! ## Looking up classes -/

section
variable {α β : Type} {declared : String → Option Ty}

/-- In a context that knows the declarations, the computation gives `a`. -/
def Evals (declared : String → Option Ty) (m : Lower α) (a : α) : Prop :=
  ∀ progress : Progress, progress.context.Knows declared →
    (m.run progress).1 = a ∧ (m.run progress).2.context.Knows declared

theorem evals_pure (a : α) : Evals declared (pure a) a := fun _ h => ⟨rfl, h⟩

theorem Evals.bind {m : Lower α} {f : α → Lower β} {a : α} {b : β} (h : Evals declared m a)
    (hf : Evals declared (f a) b) : Evals declared (m >>= f) b := by
  intro progress hk
  obtain ⟨rfl, hk'⟩ := h progress hk
  exact hf _ hk'

theorem evals_get {f : Progress → Lower α} {a : α}
    (h : ∀ progress : Progress, progress.context.Knows declared → Evals declared (f progress) a) :
    Evals declared (get >>= f) a :=
  fun progress hk => h progress hk progress hk

theorem lookUp_evals (name : String) : Evals declared (lookUp name)
    ((declared (QualifiedName.key name)).getD (.builtin (QualifiedName.key name))) :=
  fun _ hk => hk.getType name

def classNamed (declared : String → Option Ty) (name : String) : Option PhaseLang.Class :=
  (declared (QualifiedName.key name)).bind (·.class?)

theorem class?_getD_builtin (type : Option Ty) (name : String) :
    (type.getD (.builtin name)).class? = type.bind (·.class?) := by
  cases type <;> rfl

/-- The class that some declarations have for a path: in a namespace, and else from the root. -/
def classAt (declared : String → Option Ty) (ns : List String) (path : TypePath) : Option PhaseLang.Class :=
  (if path.absolute || ns.isEmpty then none else classNamed declared (path.qualify ns).qualifiedName).or
    (classNamed declared path.qualifiedName)

theorem classNamed_eq_none {c : Context} (h : c.Knows declared) {name : String} (absent : c.contains name = false) :
    classNamed declared name = none := by
  cases hd : declared (QualifiedName.key name) with
  | none => simp [classNamed, hd]
  | some type => simp [Context.contains, Bindings.has, h.declares _ _ hd] at absent

theorem lookUpClass_evals (scene : Scene) (path : TypePath) :
    Evals declared (lookUpClass scene path) (classAt declared scene.ns path) := by
  have named (name : String) : Evals declared (do return (← lookUp name).class?) (classNamed declared name) := by
    rw [classNamed, ← class?_getD_builtin _ (QualifiedName.key name)]
    exact (lookUp_evals name).bind (evals_pure _)
  refine evals_get fun progress hk => ?_
  split
  · rename_i nearby
    simp only [Bool.and_eq_true, Bool.not_eq_true'] at nearby
    simp only [classAt, nearby, Bool.or_self, Bool.false_eq_true, if_false]
    refine (lookUp_evals _).bind ((evals_pure _).bind ?_)
    rw [class?_getD_builtin, ← classNamed]
    cases classNamed declared (path.qualify scene.ns).qualifiedName with
    | some c => exact evals_pure _
    | none => exact named _
  · -- a relative path whose qualified name is not in the context is looked up from the root only
    rename_i elsewhere
    have outer : classAt declared scene.ns path = classNamed declared path.qualifiedName := by
      unfold classAt
      split
      · rfl
      · rename_i relative
        have absent : progress.context.contains (path.qualify scene.ns).qualifiedName = false := by
          simp only [Bool.or_eq_true, not_or, Bool.not_eq_true] at relative
          simpa [relative] using elsewhere
        rw [classNamed_eq_none hk absent]
        rfl
    rw [outer]
    exact (evals_pure _).bind (named _)

/-! ## Lineages -/

/-- A class, and the classes that it inherits members from, up to `limit` steps away, in the
order in which they are searched. -/
def lineage (declared : String → Option Ty) (ns : List String) : Nat → PhaseLang.Class → List PhaseLang.Class
  | 0, c => [c]
  | limit + 1, c =>
    c :: (c.parent.toList ++ c.interfaces ++ c.traits).flatMap fun path =>
      (classAt declared ns path).toList.flatMap (lineage declared ns limit)

def firstMember? (name : String) (classes : List PhaseLang.Class) : Option PhaseLang.Member :=
  classes.findSome? (·.ownMember? name)

theorem firstMember?_append (name : String) (cs ds : List PhaseLang.Class) :
    firstMember? name (cs ++ ds) = (firstMember? name cs).or (firstMember? name ds) := List.findSome?_append

theorem searchAll_evals {scene : Scene} {name : String} {line : PhaseLang.Class → List PhaseLang.Class}
    {search : PhaseLang.Class → Lower (Option MemberInfo)}
    (h : ∀ c, Evals declared (search c) ((firstMember? name (line c)).map .ofMember)) :
    ∀ paths, Evals declared (searchAll scene search paths)
      ((firstMember? name (paths.flatMap fun path => (classAt declared scene.ns path).toList.flatMap line)).map
        .ofMember)
  | [] => evals_pure _
  | path :: paths => by
    refine (lookUpClass_evals scene path).bind ?_
    rw [List.flatMap_cons, firstMember?_append]
    cases classAt declared scene.ns path with
    | none => exact searchAll_evals h paths
    | some c =>
      have only : (some c).toList.flatMap line = line c := by simp
      refine (h c).bind ?_
      rw [only]
      cases firstMember? name (line c) with
      | none => exact searchAll_evals h paths
      | some m => exact evals_pure _

theorem findMember_evals (scene : Scene) (name : String) : ∀ limit c, Evals declared (findMember scene name limit c)
    ((firstMember? name (lineage declared scene.ns limit c)).map .ofMember) := by
  intro limit
  induction limit with
  | zero =>
    intro c
    cases own : c.ownMember? name <;> simp only [findMember, lineage, firstMember?, own, List.findSome?_cons]
    · exact evals_pure _
    · exact evals_pure _
  | succ limit ih =>
    intro c
    cases own : c.ownMember? name <;> simp only [findMember, lineage, firstMember?, own, List.findSome?_cons]
    · exact searchAll_evals ih _
    · exact evals_pure _

theorem accessTo_evals {scene : Scene} {target : PhaseLang.Expr} {c : PhaseLang.Class}
    (h : (scene.typeOf target).class? = some c) (name : String) : Evals declared (accessTo scene target name)
      (.choose (namesClass scene target)
        ((firstMember? name (lineage declared scene.ns inheritanceLimit c)).map .ofMember)) := by
  unfold accessTo
  rw [h]
  exact (findMember_evals scene name inheritanceLimit c).bind (evals_pure _)

end

/-! ## Two hierarchies -/

/-- The classes above a class, by what some declarations have for the paths in it. -/
inductive Above (declared : String → Option Ty) (ns : List String) : PhaseLang.Class → PhaseLang.Class → Prop
  | self (c : PhaseLang.Class) : Above declared ns c c
  | step {c d e : PhaseLang.Class} {path : TypePath} : path ∈ c.parent.toList ++ c.interfaces ++ c.traits →
      classAt declared ns path = some d → Above declared ns d e → Above declared ns c e

/-- At this class the search for a name goes on alike. What typing takes for its ancestors is what the declarations have
for them, and the name is not above the interfaces of a class, which typing does not look into. -/
structure Shared (E : Env) (declared : String → Option Ty) (ns : List String) (name : String) (d : PhaseLang.Class) :
    Prop where
  ancestors : ∀ path ∈ Typer.ancestors d, ∀ e, E.resolve path = .classOf e ∨ E.resolve path = .objectOf e →
    classAt declared ns path = some e
  interfaces : d.kind ≠ .interface → ∀ path ∈ d.interfaces, ∀ i e, classAt declared ns path = some i →
    Above declared ns i e → e.ownMember? name = none
  traits : d.kind = .interface → d.traits = []

section
variable {E : Env} {declared : String → Option Ty} {ns : List String} {name : String}

theorem above_of_mem_lineage (limit : Nat) : ∀ {c d : PhaseLang.Class}, d ∈ lineage declared ns limit c →
    Above declared ns c d := by
  induction limit with
  | zero =>
    intro c d mem
    obtain rfl := List.mem_singleton.mp mem
    exact .self d
  | succ limit ih =>
    intro c d mem
    rcases List.mem_cons.mp mem with rfl | mem
    · exact .self d
    · obtain ⟨path, listed, mem⟩ := List.mem_flatMap.mp mem
      obtain ⟨e, found, mem⟩ := List.mem_flatMap.mp mem
      exact .step listed (Option.mem_toList.mp found) (ih mem)

/-- What is found in the first row is found in the second. -/
def Follows (name : String) (line : List (Option PhaseLang.Class)) (seen : List PhaseLang.Class) : Prop :=
  (Found.first? name line = none → firstMember? name seen = none) ∧
    ∀ m, Found.first? name line = some (.member m) → firstMember? name seen = some m

theorem follows_unknown (line : List (Option PhaseLang.Class)) (seen : List PhaseLang.Class) :
    Follows name (none :: line) seen := by
  have unknown : Found.first? name (none :: line) = some .unknown := rfl
  refine ⟨fun none => ?_, fun m found => ?_⟩
  · rw [unknown] at none
    cases none
  · rw [unknown] at found
    cases found

theorem follows_nil {seen : List PhaseLang.Class} (h : firstMember? name seen = none) : Follows name [] seen :=
  ⟨fun _ => h, nofun⟩

theorem Follows.append {line more : List (Option PhaseLang.Class)} {seen others : List PhaseLang.Class}
    (h : Follows name line seen) (h' : Follows name more others) : Follows name (line ++ more) (seen ++ others) := by
  unfold Follows at h h' ⊢
  rw [Found.first?_append, firstMember?_append]
  cases found : Found.first? name line with
  | none =>
    rw [h.1 found]
    exact h'
  | some f =>
    refine ⟨nofun, fun m same => ?_⟩
    rw [h.2 m (found.trans same)]
    rfl

theorem Follows.cons (c : PhaseLang.Class) {line : List (Option PhaseLang.Class)} {seen : List PhaseLang.Class}
    (h : Follows name line seen) : Follows name (some c :: line) (c :: seen) := by
  have self : Follows name [some c] [c] := by
    cases own : c.ownMember? name <;> simp [Follows, Found.first?, Found.of?, firstMember?, own]
  exact self.append h

/-- Behind ancestors that mean the same to both, if the rows behind them are alike. -/
theorem follows_ancestors {line : PhaseLang.Class → List (Option PhaseLang.Class)}
    {seen : PhaseLang.Class → List PhaseLang.Class}
    {paths : List TypePath} (same : ∀ path ∈ paths, ∀ e, E.resolve path = .classOf e ∨ E.resolve path = .objectOf e →
      classAt declared ns path = some e ∧ Follows name (line e) (seen e)) :
    Follows name (paths.flatMap (E.behind line))
      (paths.flatMap fun path => (classAt declared ns path).toList.flatMap seen) := by
  induction paths with
  | nil => exact follows_nil rfl
  | cons path paths ih =>
    obtain ⟨first, rest⟩ := List.forall_mem_cons.mp same
    rw [List.flatMap_cons, List.flatMap_cons]
    cases meaning : E.resolve path with
    | classOf e | objectOf e =>
      obtain ⟨found, alike⟩ := first e (by simp [meaning])
      rw [Env.behind, meaning, found]
      refine Follows.append ?_ (ih rest)
      simpa using alike
    | _ =>
      rw [Env.behind, meaning]
      exact follows_unknown _ _

theorem lineage_follows : ∀ limit c, (∀ d, some d ∈ E.lineage limit c → Shared E declared ns name d) →
    Follows name (E.lineage limit c) (lineage declared ns limit c) := by
  intro limit
  induction limit with
  | zero =>
    intro c _
    refine Follows.cons c ⟨fun _ => rfl, fun m found => ?_⟩
    obtain ⟨x, mem, found⟩ := List.exists_of_findSome?_eq_some found
    obtain ⟨path, -, mem⟩ := List.mem_flatMap.mp mem
    have unknown : x = none := by
      unfold Env.behind at mem
      split at mem <;> exact List.mem_singleton.mp mem
    rw [unknown] at found
    cases found
  | succ limit ih =>
    intro c shared
    have here := shared c (List.mem_cons_self ..)
    have inner (path : TypePath) (listed : path ∈ Typer.ancestors c) (e : PhaseLang.Class)
        (means : E.resolve path = .classOf e ∨ E.resolve path = .objectOf e) :
        classAt declared ns path = some e ∧ Follows name (E.lineage limit e) (lineage declared ns limit e) := by
      refine ⟨here.ancestors path listed e means, ih e fun d mem => shared d ?_⟩
      refine List.mem_cons_of_mem _ (List.mem_flatMap.mpr ⟨path, listed, ?_⟩)
      rcases means with means | means <;> simpa [Env.behind, means] using mem
    refine Follows.cons c ?_
    have alike {paths : List TypePath} (listed : paths ⊆ Typer.ancestors c) :=
      follows_ancestors fun path (mem : path ∈ paths) => inner path (listed mem)
    rw [Typer.ancestors, List.flatMap_append, List.flatMap_append, List.flatMap_append, List.flatMap_append]
    by_cases interface : c.kind = .interface
    · rw [here.traits interface, if_pos interface, List.flatMap_nil, List.flatMap_nil, List.append_nil, List.append_nil]
      exact (alike (by simp [Typer.ancestors])).append (alike (by simp [Typer.ancestors, interface]))
    · rw [if_neg interface, List.flatMap_nil, List.append_nil, ← List.append_nil (c.parent.toList.flatMap (E.behind _))]
      refine ((alike (by simp [Typer.ancestors])).append
        (follows_nil (List.findSome?_eq_none_iff.mpr fun e mem => ?_))).append
        (alike (by simp [Typer.ancestors]))
      obtain ⟨path, listed, mem⟩ := List.mem_flatMap.mp mem
      obtain ⟨i, found, mem⟩ := List.mem_flatMap.mp mem
      exact here.interfaces interface path listed i e (Option.mem_toList.mp found) (above_of_mem_lineage limit mem)

variable {program : List PhaseLang.Stmt}

/-- A path from the root means the class that the file declares under its name. -/
theorem classAt_of_resolve (spelled : PhaseLang.Fits Citation.Spelled (Cited.ofStmts program))
    (declares : E.surface = .ofProgram program) {path : TypePath} (plain : path.Plain) (absolute : path.absolute = true)
    {e : PhaseLang.Class} (means : E.resolve path = .classOf e ∨ E.resolve path = .objectOf e) :
    classAt (Surface.ofProgram program).at? ns path = some e := by
  have type : (E.resolveName path).class? = some e := by
    unfold Env.resolve at means
    split at means
    · rcases means with means | means <;> cases means
    · rcases means with means | means <;> rw [means] <;> rfl
  have named : E.resolveName path = (E.surface.get? path.qualifiedName).getD (.builtin path.qualifiedName) := by
    simp [Env.resolveName, absolute, show QualifiedName.key path.qualifiedName = _ from plain]
  rw [named, class?_getD_builtin] at type
  simp only [classAt, absolute, Bool.true_or, if_true, Option.none_or, classNamed]
  rw [plain, Surface.at?_ofProgram spelled, ← declares]
  exact type

/-- A class without interfaces whose ancestors are all paths from the root. -/
def rooted (d : PhaseLang.Class) : Bool :=
  d.kind != .interface && d.interfaces.isEmpty && (Typer.ancestors d).all fun path =>
    path.absolute && QualifiedName.key path.qualifiedName == path.qualifiedName

theorem shared_of_rooted (spelled : PhaseLang.Fits Citation.Spelled (Cited.ofStmts program))
    (declares : E.surface = .ofProgram program) {d : PhaseLang.Class} (h : rooted d = true) :
    Shared E (Surface.ofProgram program).at? ns name d := by
  simp only [rooted, Bool.and_eq_true, bne_iff_ne, List.isEmpty_iff, List.all_eq_true, beq_iff_eq] at h
  obtain ⟨⟨kind, bare⟩, paths⟩ := h
  constructor
  case ancestors =>
    intro path listed e means
    obtain ⟨absolute, plain⟩ := paths path listed
    exact classAt_of_resolve spelled declares plain absolute means
  case interfaces =>
    intro _ path listed
    simp [bare] at listed
  case traits =>
    intro interface
    exact absurd interface kind

end

/-! ## Typed programs -/

variable {context : Context}

theorem typeProgram_knows (program : List PhaseLang.Stmt) (blank : context.Blank) :
    (typeProgram program context).context.Knows (Surface.ofProgram program).at? := by
  have final := ((Code.stmts program).replays (Typing.start_alike program blank)).1.blank
  have surface : (Typer.after (Typer.stmts program) (.start program context)).surface = .ofProgram program :=
    (Typer.stmts_ran (.start program) (.start program context) program).surface
  have known := final.addTypes (Typer.after (Typer.stmts program) (.start program context)).surface
  simp only [Option.or_none] at known
  rw [← surface]
  exact known

variable {program : List PhaseLang.Stmt} {v : Visit}

theorem target_mem_visits (visited : v ∈ visits program context) {target field : PhaseLang.Expr}
    (access : v.expr.kind = .get target field) : ⟨target, v.place, v.typing⟩ ∈ visits program context := by
  refine (visits_faithful program context).closed v visited _ ?_
  obtain ⟨⟨id, pos, kind⟩, place, typing⟩ := v
  simp only at access
  subst access
  simp only [Visits.ofExpr, List.mem_append]
  refine .inl ?_
  obtain ⟨_, _, _, rfl⟩ | computed := field.ident_or
  · simpa only [Visits.ofKind] using Typer.mem_ofExpr_self place typing target
  · rw [Visits.ofKind_get computed]
    exact List.mem_append_left _ (Typer.mem_ofExpr_self place typing target)

structure Reference where
  target : PhaseLang.Expr
  name : String
  owner : PhaseLang.Class
  member : PhaseLang.Member

/-- The member that typing finds for an access by a name, in the class of its target. -/
def reference? (v : Visit) : Option Reference :=
  match v.expr.kind with
  | .get target ⟨_, _, .ident name⟩ =>
    match ((Typer.expr target).run v.typing).1.class? with
    | some c =>
      match Found.first? name (v.typing.env.lineage Typer.inheritanceLimit c) with
      | some (.member m) => some ⟨target, name, c, m⟩
      | _ => none
    | none => none
  | _ => none

theorem reference?_eq_some {r : Reference} (h : reference? v = some r) :
    (∃ id pos, v.expr.kind = .get r.target ⟨id, pos, .ident r.name⟩) ∧
    ((Typer.expr r.target).run v.typing).1.class? = some r.owner ∧
    Found.first? r.name (v.typing.env.lineage Typer.inheritanceLimit r.owner) = some (.member r.member) := by
  unfold reference? at h
  split at h
  · rename_i target id pos name kind
    split at h
    · rename_i c hasClass
      split at h
      · rename_i m found
        obtain rfl := Option.some.inj h
        exact ⟨⟨id, pos, kind⟩, hasClass, found⟩
      · cases h
    · cases h
  · cases h

theorem memberType_of_reference? (blank : context.Blank)
    (visited : v ∈ visits program context) {r : Reference} (found : reference? v = some r) :
    ((Typer.memberType r.name Typer.inheritanceLimit r.owner).run (Typer.after (Typer.expr r.target) v.typing)).1 =
      some (v.typing.env.memberKindType r.member.kind) := by
  have ready := (visits_keeps program blank).ready v visited
  have next : Alike v.typing (Typer.after (Typer.expr r.target) v.typing) :=
    ready.step (Code.expr r.target).replays (Typer.expr_ran v.place v.typing r.target)
  have value := (Typer.memberType_evals r.name Typer.inheritanceLimit r.owner _ next.env.symm next.blank').1
  rw [value, (reference?_eq_some found).2.2]
  rfl

/-- Where typing finds a member, lowering finds its flags if the classes that typing goes through mean the same to
both. In any case it finds them if and only if the first declaration of the name in the lineage that it sees has
them, and it writes the access by that declaration. -/
theorem findMember_iff_firstMember {source file : String} {nextId next : Nat} {program : List PhaseLang.Stmt}
    (read : (readSource source file nextId).result = .ok (program, next)) {context : Context}
    (blank : context.Blank) {v : Visit} (visited : v ∈ visits program context) {r : Reference}
    (found : reference? v = some r) (typed : Bool) (ns looked : List String) (diagnostics : List Diagnostic) :
    let scene : Scene := ⟨typed, .ofProgram program context, ns⟩
    let progress : Progress := ⟨(typeProgram program context).context.afterLookUps looked, diagnostics⟩
    let seen := firstMember? r.name (lineage (Surface.ofProgram program).at? ns inheritanceLimit r.owner)
    ((Typer.memberType r.name Typer.inheritanceLimit r.owner).run (Typer.after (Typer.expr r.target) v.typing)).1 =
      some (v.typing.env.memberKindType r.member.kind) ∧
    (scene.typeOf r.target).class? = some r.owner ∧
    (((findMember scene r.name inheritanceLimit r.owner).run progress).1 = some (.ofMember r.member) ↔
      ∃ m, seen = some m ∧ MemberInfo.ofMember m = .ofMember r.member) ∧
    ((∀ d, some d ∈ v.typing.env.lineage Typer.inheritanceLimit r.owner →
      Shared v.typing.env (Surface.ofProgram program).at? ns r.name d) →
        ((findMember scene r.name inheritanceLimit r.owner).run progress).1 = some (.ofMember r.member)) ∧
    ((accessTo scene r.target r.name).run progress).1 =
      .choose (namesClass scene r.target) (seen.map .ofMember) := by
  intro scene progress seen
  obtain ⟨⟨_, _, access⟩, hasClass, first⟩ := reference?_eq_some found
  have entry := table_get?_of_mem_visits read blank (target_mem_visits visited access)
  have type : scene.typeOf r.target = ((Typer.expr r.target).run v.typing).1 := by
    simp only [scene, Scene.typeOf, FunctionNames.ofProgram, TypeTable.typeOf?, entry, Option.getD_some]
    rfl
  have owner : (scene.typeOf r.target).class? = some r.owner := by rw [type, hasClass]
  have knows : progress.context.Knows _ := (typeProgram_knows program blank).afterLookUps looked
  have value := (findMember_evals scene r.name inheritanceLimit r.owner progress knows).1
  refine ⟨memberType_of_reference? blank visited found, owner, ?_, fun shared => ?_,
    (accessTo_evals owner r.name progress knows).1⟩
  · rw [value, Option.map_eq_some_iff]
  · have same : seen = some r.member := (lineage_follows inheritanceLimit r.owner shared).2 _ first
    exact value.trans (congrArg _ same)

theorem findMember_iff_firstMember_inherited :
    let source := "namespace N\nclass A \x7b static x: Int = 1 \x7d\nclass B extends ::N::A \x7b\x7d\n" ++
      "class C extends ::N::B \x7b\x7d\nvar y = C.x"
    let program := programOf source
    let scene : Scene := ⟨true, .ofProgram program {}, ["N"]⟩
    ∃ v ∈ visits program {}, ∃ r, reference? v = some r ∧ r.owner.name = "C" ∧ r.owner.ownMember? r.name = none ∧
      ((findMember scene r.name inheritanceLimit r.owner).run ⟨(typeProgram program {}).context, []⟩).1 =
        some (.ofMember r.member) := by
  intro source program scene
  obtain ⟨next, read⟩ := exists_read_programOf source (by decide +kernel)
  have some_visit : ((visits program {}).any fun v => (reference? v).any fun r => r.owner.name == "C" &&
      (r.owner.ownMember? r.name).isNone && (v.typing.env.lineage Typer.inheritanceLimit r.owner).all fun d? =>
        d?.all rooted) = true := by decide +kernel
  obtain ⟨v, visited, any⟩ := List.any_eq_true.mp some_visit
  obtain ⟨r, found, parts⟩ := Option.any_eq_true _ _ |>.mp any
  simp only [Bool.and_eq_true, beq_iff_eq, Option.isNone_iff_eq_none, List.all_eq_true] at parts
  obtain ⟨⟨named, inherits⟩, line⟩ := parts
  refine ⟨v, visited, r, found, named, inherits, ?_⟩
  refine (findMember_iff_firstMember read (Context.blank_empty 0) visited found true ["N"] [] []).2.2.2.1
    fun d mem => ?_
  have surface := (Typer.stmts_ran (.start program) (.start program {}) program).surfaces v visited
  exact shared_of_rooted (readSource_spelled read) surface (line _ mem)

/-- Classes that are declared in a function are known to typing only. -/
theorem local_class_member_not_found :
    let source := "function f() \x7b\n  class A \x7b static x: Int = 1 \x7d\n  class B extends A \x7b\x7d\n" ++
      "  return B.x\n\x7d"
    (compile source "main.phs" 8 {}).outcome.php? =
      some ("<?php\nfunction f()\n\x7b\n    class A\n    \x7b\n        public static int $x = 1;\n    \x7d\n" ++
        "    class B extends A\n    \x7b\n    \x7d\n    return B::x;\n\x7d\n") ∧
    ((visits (programOf source) {}).any fun v => (reference? v).any fun r =>
      ((findMember ⟨true, .ofProgram (programOf source) {}, []⟩ r.name inheritanceLimit r.owner).run
        ⟨(typeProgram (programOf source) {}).context, []⟩).1 != some (.ofMember r.member)) = true := by
  decide +kernel

end Php

end PhaseLang
