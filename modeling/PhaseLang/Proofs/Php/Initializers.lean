import Mathlib.Data.List.Forall2
import PhaseLang.Compile
import PhaseLang.Proofs.Php.Results
import PhaseLang.Proofs.Typing.Visits

/-!
# Initial values of fields

Every field with an initial value has a spot where the value is evaluated: in the declaration,
after the class, or when an object is made. Main result: the values of the first two kinds are
always emitted, once and in order. Those of the third kind are emitted, in order, if and only if
the class has no constructor or one with code; otherwise all of them are left out.
-/

namespace PhaseLang

variable {type : Option TypePath} {stores : List Stmt}

inductive Spot where
  | declaration
  | afterwards
  | construction
deriving DecidableEq, Repr

namespace Member

def spot? (m : Member) : Option Spot :=
  match m.kind with
  | .field _ (some init) =>
    if m.has .isConst || init.isConstant then some .declaration
    else if m.has .isStatic then some .afterwards
    else some .construction
  | _ => none

def hasCode (m : Member) : Bool :=
  match m.kind with
  | .method f => !m.has .isAbstract && f.body.isSome
  | _ => false

theorem spot?_field {m : Member} {init : Expr}
    (hk : m.kind = .field type (some init)) :
    m.spot? = some (if !m.isDeferred then .declaration
      else if m.has .isStatic then .afterwards else .construction) := by
  simp only [spot?, isDeferred, hk]
  cases m.has .isConst <;> cases init.isConstant <;> cases m.has .isStatic <;> rfl

theorem isDeferred_iff_spot? {m : Member} {isStatic : Bool} :
    m.isDeferred = true ∧ m.has .isStatic = isStatic ↔
      m.spot? = some (if isStatic then .afterwards else .construction) := by
  obtain ⟨name, kind, mods, as, pos⟩ := m
  rcases kind with path | ⟨type, _ | init⟩ | ⟨type, getter, setter⟩ | f
  case field.some =>
    rw [spot?_field rfl]
    generalize Member.isDeferred _ = d
    generalize Member.has _ .isStatic = b
    revert d b isStatic
    decide
  all_goals simp [isDeferred, spot?]

end Member

namespace Class

def valuesAt (c : Class) (spot : Spot) : List Member := c.members.filter (·.spot? = some spot)

theorem any_isDeferred_iff (c : Class) :
    (c.members.any fun m => m.isDeferred && !m.has .isStatic) = true ↔ c.valuesAt .construction ≠ [] := by
  have member (m : Member) : (m.isDeferred && !m.has .isStatic) = true ↔ m.spot? = some .construction := by
    simpa using (Member.isDeferred_iff_spot? : m.isDeferred = true ∧ m.has .isStatic = false ↔ _)
  simp only [List.any_eq_true, member, valuesAt, ne_eq, List.filter_eq_nil_iff, decide_eq_true_eq]
  push Not
  rfl

/-- Whether there is a place for assignments: the constructor has code, or there is none, so
that one can be added. -/
def constructs (c : Class) : Bool := c.constructor?.all Member.hasCode

end Class

end PhaseLang

namespace PhaseLang.Php

section
variable (scene : Scene)

def Stores (place : String → Expr) (m : PhaseLang.Member) (s : Stmt) : Prop :=
  ∃ type init value, m.kind = .field type (some init) ∧ Results (Lower.expr scene init) value ∧
    s = .expr (.assign (place m.name) value)

def StartsWith (m : PhaseLang.Member) (type : Option TypePath) (init : Option PhaseLang.Expr)
    (value : Option Expr) : Prop :=
  match init with
  | none => value = if type.any (·.nullable) then some (.literal .null) else none
  | some e =>
    if m.spot? = some .declaration then ∃ p, Results (Lower.expr scene e) p ∧ value = some p
    else value = none

/-- What is written for a member; if it has code, then after some statements. -/
def Written (stores : List Stmt) (m : PhaseLang.Member) (p : Member) : Prop :=
  match m.kind with
  | .field type init => ∃ attributes words value,
      p = ⟨attributes, .field words value⟩ ∧
      words.getLast? = some (if m.has .isConst then m.name else "$" ++ m.name) ∧
      StartsWith scene m type init value
  | .method f => ∃ attributes params code,
      Results (Lower.attributes scene m.attributes) attributes ∧
      Results (Lower.params scene false f.params) params ∧
      Results (Lower.bodyStmts scene f.body) code ∧
      let isConstructor := m.name = PhaseLang.Class.constructorName
      let promotions := if isConstructor then Lower.missingPromotions f else []
      p = ⟨attributes, .methods [{
        modifiers := Lower.modifiers false m
        name := methodName m.name
        params
        result := if isConstructor then none else Lower.typeNames scene f.result
        body := if m.hasCode then some (stores ++ promotions ++ code) else none }]⟩
  | _ => Results (Lower.member scene false (pure []) m) p

/-- A constructor that runs the given statements, perhaps after the inherited constructor. -/
def Runs (stores : List Stmt) (p : Member) : Prop :=
  ∃ attributes method before code, p = ⟨attributes, .methods [method]⟩ ∧
    method.name = methodName PhaseLang.Class.constructorName ∧
    method.body = some (before ++ stores ++ code)

/-- The first members of a class: the constructor, if it has one or needs one, and in it the
assignments of the initial values of some fields. -/
def Opens (c : PhaseLang.Class) (stored : List PhaseLang.Member) (first : List Member) : Prop :=
  ∃ stores, List.Forall₂ (Stores scene (.member .this)) stored stores ∧
    (stored ≠ [] → ∃ p ∈ first, Runs stores p) ∧
    match c.constructor? with
    | some m => ∃ p, first = [p] ∧ Written scene stores m p
    | none => first = if stored.isEmpty then [] else [Lower.defaultConstructor c.parent.isSome stores]

def EmittedWith (c : PhaseLang.Class) (stored : List PhaseLang.Member) (out : Class) : Prop :=
  ∃ first others dispatchers, out.members = first ++ others ++ dispatchers ∧
    Opens scene c stored first ∧
    List.Forall₂ (Written scene []) (c.members.eraseP (·.name = PhaseLang.Class.constructorName)) others ∧
    (dispatchers = [] ∨ dispatchers = Lower.dispatchers) ∧
    List.Forall₂ (Stores scene (.classVar (.name c.name))) (c.valuesAt .afterwards) out.afterwards

end

variable {scene : Scene}

/-! ## Assignments -/

def placeOf (ofClass : Option String) : String → Expr :=
  match ofClass with
  | none => .member .this
  | some c => .classVar (.name c)

def spotOf (ofClass : Option String) : Spot := if ofClass.isSome then .afterwards else .construction

theorem gives_deferred (ofClass : Option String) (ms : List PhaseLang.Member) :
    Gives (Lower.deferred scene ofClass ms)
      (List.Forall₂ (Stores scene (placeOf ofClass)) (ms.filter (·.spot? = some (spotOf ofClass)))) := by
  induction ms with
  | nil => exact gives_pure .nil
  | cons m ms ih =>
    have skip (h : m.spot? ≠ some (spotOf ofClass)) : Gives (Lower.deferred scene ofClass ms)
        (List.Forall₂ (Stores scene (placeOf ofClass))
          ((m :: ms).filter (·.spot? = some (spotOf ofClass)))) := by
      rw [List.filter_cons_of_neg (by simpa using h)]
      exact ih
    obtain ⟨name, kind, mods, as, pos⟩ := m
    rcases kind with path | ⟨type, _ | init⟩ | ⟨type, getter, setter⟩ | f
    · exact skip (by simp [Member.spot?])
    · exact skip (by simp [Member.spot?])
    · refine gives_ite (fun h => ?_) fun h => skip fun hs => h ?_
      · have hs : _ = some (spotOf ofClass) := Member.isDeferred_iff_spot?.mp (by simpa using h)
        rw [List.filter_cons_of_pos (by simp [hs])]
        refine gives_results.bind fun value hv => ih.bind fun ss hss => gives_pure (.cons ?_ hss)
        exact ⟨type, init, value, rfl, hv, by cases ofClass <;> rfl⟩
      · have hd := Member.isDeferred_iff_spot?.mpr hs
        simp [hd]
    · exact skip (by simp [Member.spot?])
    · exact skip (by simp [Member.spot?])

/-! ## Members -/

variable {m : PhaseLang.Member}

theorem gives_field {init : Option PhaseLang.Expr}
    (hk : m.kind = .field type init) (words : List String) (inits : Lower (List Stmt)) :
    Gives (Lower.memberKind scene m words false inits (.field type init)) fun kind =>
      ∃ words value, kind = .field words value ∧
        words.getLast? = some (if m.has .isConst then m.name else "$" ++ m.name) ∧
        StartsWith scene m type init value := by
  have last : (if m.has .isConst then words ++ [m.name]
      else words ++ (Lower.typeNames scene type).toList ++ ["$" ++ m.name]).getLast? =
        some (if m.has .isConst then m.name else "$" ++ m.name) := by
    split <;> simp
  have value : Gives (if m.isDeferred then pure none else Lower.optional scene init) fun value =>
      StartsWith scene m type init
        (if init.isNone && type.any (·.nullable) then some (.literal .null) else value) := by
    cases init with
    | none =>
      have hd : m.isDeferred = false := by simp [Member.isDeferred, hk]
      rw [hd]
      exact gives_pure (by simp [StartsWith])
    | some e =>
      have hs := Member.spot?_field hk
      refine gives_ite (fun hd => ?_) fun hd => ?_
      · refine gives_pure ?_
        have : m.spot? ≠ some .declaration := by
          rw [hs, hd]
          cases m.has .isStatic <;> simp
        simp [StartsWith, this]
      · have : m.spot? = some .declaration := by simpa [hd] using hs
        refine gives_results.bind fun p hp => gives_pure ?_
        simpa [StartsWith, this] using hp
  exact value.bind_ite fun value hv => gives_pure ⟨_, _, rfl, last, hv⟩

variable {inits : Lower (List Stmt)} {P : List Stmt → Prop}

theorem gives_method (hi : Gives inits P) {f : Func} (hk : m.kind = .method f) :
    Gives (Lower.member scene false inits m) fun p => ∃ stores, P stores ∧ Written scene stores m p := by
  obtain ⟨name, kind, mods, as, pos⟩ := m
  obtain rfl : kind = .method f := hk
  refine gives_results.bind fun attributes ha => ?_
  refine Gives.bind (P := fun kind => ∃ stores, P stores ∧
    Written scene stores ⟨name, .method f, mods, as, pos⟩ ⟨attributes, kind⟩) ?_ fun kind h => gives_pure h
  obtain ⟨fname, ps, body, result, fas, fpos⟩ := f
  have code : Member.hasCode ⟨name, .method ⟨fname, ps, body, result, fas, fpos⟩, mods, as, pos⟩ =
      !(Member.has ⟨name, .method ⟨fname, ps, body, result, fas, fpos⟩, mods, as, pos⟩ .isAbstract || false ||
        body.isNone) := by
    simp [Member.hasCode]
  refine gives_results.bind fun params hp => gives_ite (fun hc => ?_) fun hc => ?_
  · rw [hc] at code
    exact fun s => ⟨_, hi s, attributes, params, _, ha, hp, ⟨s, rfl⟩, by rw [code]; rfl⟩
  · rw [eq_false_of_ne_true hc] at code
    refine hi.bind fun stores hs => gives_results.bind fun ss hb => gives_pure ?_
    exact ⟨stores, hs, attributes, params, ss, ha, hp, hb, by simp [code]⟩

theorem gives_member (hi : Gives inits P) (m : PhaseLang.Member) :
    Gives (Lower.member scene false inits m) fun p => ∃ stores, P stores ∧ Written scene stores m p := by
  obtain ⟨name, kind, mods, as, pos⟩ := m
  cases kind with
  | use path => exact fun s => ⟨_, hi s, s, rfl⟩
  | property type getter setter => exact fun s => ⟨_, hi s, s, rfl⟩
  | field type init =>
    refine gives_results.bind fun attributes _ => (gives_field rfl _ inits).bind fun kind hk => ?_
    obtain ⟨words, value, rfl, last, hv⟩ := hk
    exact fun s => ⟨_, hi s, attributes, words, value, rfl, last, hv⟩
  | method f => exact gives_method hi rfl

theorem gives_constructor (hi : Gives inits P) {ms : List PhaseLang.Member}
    (h : ms.find? (·.name == PhaseLang.Class.constructorName) = some m) :
    Gives (Lower.constructor scene false inits ms) fun ps =>
      ∃ p stores, ps = [p] ∧ P stores ∧ Written scene stores m p := by
  induction ms with
  | nil => cases h
  | cons m' ms ih =>
    refine gives_ite (fun hn => ?_) fun hn => ?_
    · obtain rfl : m' = m := by simpa [hn] using h
      refine (gives_member hi m').bind fun p hp => gives_pure ?_
      obtain ⟨stores, hs, hw⟩ := hp
      exact ⟨p, stores, rfl, hs, hw⟩
    · exact ih (by simpa [hn] using h)

theorem gives_members (seen : Bool) (ms : List PhaseLang.Member) :
    Gives (Lower.members scene false seen ms) (List.Forall₂ (Written scene [])
      (if seen then ms else ms.eraseP (·.name = PhaseLang.Class.constructorName))) := by
  induction ms generalizing seen with
  | nil => exact gives_pure (by cases seen <;> exact .nil)
  | cons m ms ih =>
    refine gives_ite (fun h => ?_) fun h => ?_
    · simp only [Bool.and_eq_true, decide_eq_true_eq, Bool.not_eq_true'] at h
      simpa [h.1, h.2] using ih true
    · refine (gives_member (gives_pure rfl) m).bind fun p hp => (ih seen).bind fun ps hps => gives_pure ?_
      obtain ⟨_, rfl, hw⟩ := hp
      cases seen with
      | true => exact .cons hw hps
      | false =>
        have hn : m.name ≠ PhaseLang.Class.constructorName := by simpa using h
        simpa [hn] using And.intro hw hps

/-! ## Constructors -/

variable {p : Member}

theorem Written.without_code (stores' : List Stmt)
    (hc : m.hasCode = false) (h : Written scene stores m p) : Written scene stores' m p := by
  unfold Written at h ⊢
  simpa only [hc, Bool.false_eq_true, ↓reduceIte] using h

theorem Written.runs (hc : m.hasCode = true)
    (hn : m.name = PhaseLang.Class.constructorName) (h : Written scene stores m p) : Runs stores p := by
  cases hk : m.kind with
  | method f =>
    simp only [Written, hk, hc, hn] at h
    obtain ⟨attributes, params, code, -, -, -, rfl⟩ := h
    exact ⟨attributes, _, [], Lower.missingPromotions f ++ code, rfl, rfl, by simp⟩
  | _ => simp [Member.hasCode, hk] at hc

theorem gives_accessor (words : List String) (name : String) (result : Option String) (takes : Bool)
    (f : Option Func) :
    Gives (Lower.accessor scene words name result takes f) fun ms => ∀ m ∈ ms, m.name = name := by
  cases f with
  | none => exact gives_pure (by simp)
  | some f =>
    obtain ⟨_, ps, body, _, _, _⟩ := f
    exact Gives.bind_ite gives_any fun params _ => gives_any.bind fun code _ => gives_pure (by simp)

theorem gives_property {getter setter : Option Func}
    (hk : m.kind = .property type getter setter) (inits : Lower (List Stmt)) :
    Gives (Lower.member scene false inits m) fun p =>
      ∀ ms, p.kind = .methods ms → ∀ method ∈ ms,
        method.name = "__get_" ++ m.name ∨ method.name = "__set_" ++ m.name := by
  obtain ⟨name, kind, mods, as, pos⟩ := m
  obtain rfl : kind = .property type getter setter := hk
  refine gives_any.bind fun _ _ => ?_
  refine Gives.bind (P := fun kind => ∀ ms, kind = .methods ms → ∀ method ∈ ms,
    method.name = "__get_" ++ name ∨ method.name = "__set_" ++ name) ?_ fun kind h => gives_pure h
  refine (gives_accessor _ _ _ _ getter).bind fun reads hr => ?_
  refine (gives_accessor _ _ _ _ setter).bind fun writes hw => gives_pure ?_
  rintro _ ⟨⟩ method h
  exact (List.mem_append.mp h).imp (hr method) (hw method)

theorem Written.not_runs {stores' : List Stmt}
    (hc : m.hasCode = false) (hn : m.name = PhaseLang.Class.constructorName) (h : Written scene stores m p) :
    ¬ Runs stores' p := by
  rintro ⟨attributes, method, before, code, rfl, name, body⟩
  obtain ⟨_, kind, mods, as, pos⟩ := m
  obtain rfl := hn
  cases kind with
  | use path =>
    obtain ⟨s, hs⟩ := h
    cases hs
  | field type init =>
    obtain ⟨_, words, value, hp, -⟩ := h
    cases hp
  | property type getter setter =>
    obtain ⟨s, hs⟩ := h
    have names := @gives_property scene
      ⟨PhaseLang.Class.constructorName, .property type getter setter, mods, as, pos⟩ _ _ _ rfl (pure []) s
    rw [hs] at names
    specialize names _ rfl method (by simp)
    rw [name] at names
    change methodName "new" = "__get_" ++ "new" ∨ methodName "new" = "__set_" ++ "new" at names
    revert names
    decide
  | method f =>
    simp only [Written, hc] at h
    obtain ⟨_, params, code, -, -, -, hp⟩ := h
    cases hp
    cases body

theorem runs_defaultConstructor (inherits : Bool) (stores : List Stmt) :
    Runs stores (Lower.defaultConstructor inherits stores) := by
  cases inherits with
  | false => exact ⟨_, _, [], [], rfl, rfl, by simp⟩
  | true => exact ⟨_, _, [_], [], rfl, rfl, by simp; rfl⟩

theorem gives_opens (c : PhaseLang.Class) :
    Gives (if c.constructor?.isSome then
        Lower.constructor scene false (Lower.deferred scene none c.members) c.members
      else if c.members.any fun m => m.isDeferred && !m.has .isStatic then
        return [Lower.defaultConstructor c.parent.isSome (← Lower.deferred scene none c.members)]
      else pure [])
      (Opens scene c (if c.constructs then c.valuesAt .construction else [])) := by
  have values := @gives_deferred scene none c.members
  cases hf : c.constructor? with
  | some m =>
    have hn : m.name = PhaseLang.Class.constructorName := by simpa using List.find?_some hf
    have hm : c.constructs = m.hasCode := by simp [Class.constructs, hf]
    refine gives_ite (fun _ => ?_) fun h => absurd rfl h
    refine (gives_constructor values hf).mono fun ps hps => ?_
    obtain ⟨p, stores, rfl, hs, hw⟩ := hps
    cases hc : m.hasCode with
    | true =>
      rw [hm, hc]
      refine ⟨stores, hs, fun _ => ⟨p, by simp, hw.runs hc hn⟩, ?_⟩
      rw [hf]
      exact ⟨p, rfl, hw⟩
    | false =>
      rw [hm, hc]
      refine ⟨[], .nil, fun h => absurd rfl h, ?_⟩
      rw [hf]
      exact ⟨p, rfl, hw.without_code [] hc⟩
  | none =>
    have hc : c.constructs = true := by simp [Class.constructs, hf]
    rw [hc]
    refine gives_ite (fun h => absurd h (by simp)) fun _ => gives_ite (fun hd => ?_) fun hd => ?_
    · have hv := c.any_isDeferred_iff.mp hd
      refine values.bind fun stores hs => gives_pure ⟨stores, hs, fun _ => ?_, by simp [hf, hv]⟩
      exact ⟨_, List.mem_singleton_self _, runs_defaultConstructor c.parent.isSome stores⟩
    · have hv : c.valuesAt .construction = [] := by
        by_contra h
        exact hd (c.any_isDeferred_iff.mpr h)
      refine gives_pure ⟨[], by simp [hv], fun h => absurd hv h, ?_⟩
      simp [hf, hv]

theorem gives_emitted {c : PhaseLang.Class} (notInterface : c.kind ≠ .interface) :
    Gives (Lower.cls scene c) (EmittedWith scene c (if c.constructs then c.valuesAt .construction else [])) := by
  have opens := @gives_opens scene c
  obtain ⟨name, kind, parent, interfaces, ms, as, pos⟩ := c
  have hk : kind ≠ ClassKind.interface := notInterface
  unfold Lower.cls
  simp only [hk, decide_false, Bool.not_false, Bool.true_and, if_false]
  refine gives_any.bind fun written _ => ?_
  have after := @gives_deferred scene (some name) ms
  have others := @gives_members scene false ms
  refine opens.bind_ite_ite fun first hf => others.bind fun os ho => after.bind fun ss hs => gives_pure ?_
  refine ⟨first, os, _, rfl, hf, ho, ?_, hs⟩
  split <;> simp

/-! ## Main result -/

/-- Every initial value that can stand in a declaration is there, and the static ones that cannot
follow the class. The others are assigned in the constructor, each once and in the order of the
fields, exactly if the constructor has code or is missing. -/
theorem emitted_iff_constructs (scene : Scene) (c : PhaseLang.Class) (notInterface : c.kind ≠ .interface)
    (progress : Progress) :
    let out := ((Lower.cls scene c).run progress).1
    EmittedWith scene c (if c.constructs then c.valuesAt .construction else []) out ∧
      (EmittedWith scene c (c.valuesAt .construction) out ↔
        c.constructs = true ∨ c.valuesAt .construction = []) := by
  intro out
  have emitted : EmittedWith scene c (if c.constructs then c.valuesAt .construction else []) out :=
    gives_emitted notInterface progress
  refine ⟨emitted, fun h => ?_, fun h => ?_⟩
  · by_contra blocked
    push Not at blocked
    obtain ⟨hc, hv⟩ := blocked
    obtain ⟨first, _, _, -, ⟨stores, -, runs, shape⟩, -⟩ := h
    obtain ⟨q, hq, hr⟩ := runs hv
    cases hf : c.constructor? with
    | none => simp [Class.constructs, hf] at hc
    | some m =>
      have hn : m.name = PhaseLang.Class.constructorName := by simpa using List.find?_some hf
      rw [hf] at shape
      obtain ⟨p, rfl, hw⟩ := shape
      obtain rfl := List.mem_singleton.mp hq
      exact hw.not_runs (by simpa [Class.constructs, hf] using hc) hn hr
  · rcases h with hc | hv
    · rwa [hc] at emitted
    · rwa [hv, ite_self, ← hv] at emitted

def classesOf (source : String) : List PhaseLang.Class :=
  (programOf source).filterMap fun s => match s.kind with
    | .cls c => some c
    | _ => none

theorem emitted_iff_constructs_promoted :
    ∃ c ∈ classesOf "class A extends B \x7b\n  x = [1]\n  static y = f()\n  z = 2\n  new(this.w) \x7b\x7d\n\x7d",
      c.kind ≠ .interface ∧ (c.valuesAt .construction).map (·.name) = ["x"] ∧
      EmittedWith ⟨true, ⟨{}, []⟩, []⟩ c (c.valuesAt .construction)
        ((Lower.cls ⟨true, ⟨{}, []⟩, []⟩ c).run ⟨{}, []⟩).1 := by
  have some_class : (classesOf
      "class A extends B \x7b\n  x = [1]\n  static y = f()\n  z = 2\n  new(this.w) \x7b\x7d\n\x7d").any (fun c =>
        c.kind != .interface && c.constructs && (c.valuesAt .construction).map (·.name) == ["x"]) = true := by
    decide +kernel
  obtain ⟨c, hc, parts⟩ := List.any_eq_true.mp some_class
  simp only [Bool.and_eq_true, bne_iff_ne, ne_eq, beq_iff_eq] at parts
  obtain ⟨⟨notInterface, constructs⟩, names⟩ := parts
  exact ⟨c, hc, notInterface, names, (emitted_iff_constructs _ c notInterface _).2.mpr (.inl constructs)⟩

/-- The field `new` is taken for the constructor, so that the initial value of `x` is lost. -/
theorem field_taken_for_constructor :
    let source := "class A \x7b\n  x = [1]\n  new: Int = 2\n\x7d"
    (compile source "main.phs" 8 {}).outcome.php? =
      some "<?php\nclass A\n\x7b\n    public int $new = 2;\n    public $x;\n\x7d\n" ∧
    ((classesOf source).any fun c =>
      !c.constructs && (c.valuesAt .construction).map (·.name) == ["x"]) = true := by
  decide +kernel

end PhaseLang.Php
