import Mathlib.Data.List.Perm.Subperm
import PhaseLang.Captures
import PhaseLang.Proofs.Grammar.Citations
import PhaseLang.Proofs.Typing.Runs

/-!
# Places are the scopes of typing

At every visit the scopes of the place and the frames of the typer bind the same names, scope
by scope from the innermost one outwards. What a closure mentions includes every use at a visit
inside it that it sees.
-/

namespace PhaseLang

namespace Bindings

variable {α : Type}

def names (bs : Bindings α) : List String := bs.map (·.1)

def addName (names : List String) (name : String) : List String :=
  if name ∈ names then names else names ++ [name]

theorem names_insert (name : String) (a : α) (bs : Bindings α) :
    names (bs.insert name a) = addName (names bs) name := by
  induction bs with
  | nil => simp [insert, names, addName]
  | cons entry rest ih =>
    obtain ⟨n, b⟩ := entry
    by_cases hn : n = name
    · simp [insert, names, addName, hn]
    · have hn' : ¬name = n := fun h => hn h.symm
      by_cases hm : name ∈ names rest <;> simp_all [insert, names, addName]

theorem names_insertAll (new bs : Bindings α) : names (bs.insertAll new) = (names new).foldl addName (names bs) := by
  induction new generalizing bs with
  | nil => rfl
  | cons entry new ih =>
    have step : bs.insertAll (entry :: new) = (bs.insert entry.1 entry.2).insertAll new := rfl
    rw [step, ih, names_insert]
    rfl

theorem get?_append (name : String) (bs more : Bindings α) :
    get? name (bs ++ more) = (get? name bs).or (get? name more) := by
  induction bs with
  | nil => rfl
  | cons entry rest ih =>
    obtain ⟨n, a⟩ := entry
    by_cases hn : n = name
    · simp [get?, hn]
    · simpa [get?, hn] using ih

theorem get?_insertAll_reverse (name : String) (new bs : Bindings α) :
    (bs.insertAll new).get? name = (get? name new.reverse).or (bs.get? name) := by
  induction new generalizing bs with
  | nil => rfl
  | cons entry new ih =>
    have step : bs.insertAll (entry :: new) = (bs.insert entry.1 entry.2).insertAll new := rfl
    rw [step, ih, get?_insert, List.reverse_cons, get?_append, Option.or_assoc]
    by_cases hn : entry.1 = name <;> simp [get?, hn]

end Bindings

namespace Place

def Mirrors (p : Place) (s : Scopes) : Prop :=
  ∃ frames, s.Stack frames ∧ frames.map Bindings.names = p.map fun scope => scope.bindings.names

variable {p : Place} {s s' : Typing} {vs : List Visit}

theorem Mirrors.enter (h : p.Mirrors s.scopes) (opener : Opener) : (p.enter opener).Mirrors s.enter.scopes := by
  obtain ⟨frames, hs, hn⟩ := h
  exact ⟨[] :: frames, hs.enter, by simp [Place.enter, hn, Bindings.names]⟩

theorem Mirrors.hide (h : p.Mirrors s.scopes) : p.hide.Mirrors s.scopes := by
  obtain ⟨frames, hs, hn⟩ := h
  refine ⟨frames, hs, ?_⟩
  cases p with
  | nil => exact hn
  | cons scope rest => exact hn

theorem Mirrors.bind (h : p.Mirrors s.scopes) (new : Bindings BindingKind) (run : Ran new.names vs s s') :
    (p.bind new).Mirrors s'.scopes := by
  obtain ⟨frames, hs, hn⟩ := h
  cases p with
  | nil => cases hs <;> simp at hn
  | cons scope rest =>
    cases frames with
    | nil => simp at hn
    | cons top below =>
      obtain ⟨types, hnew, hs'⟩ := run.stack hs
      refine ⟨_, hs', ?_⟩
      simp only [List.map_cons, List.cons.injEq] at hn
      simp only [Place.bind, List.modifyHead_cons, List.map_cons, Bindings.names_insertAll, hn.1, hn.2]
      rw [show Bindings.names types = Bindings.names new from hnew]

theorem Mirrors.keep (h : p.Mirrors s.scopes) (run : Ran [] vs s s') : p.Mirrors s'.scopes := by
  obtain ⟨frames, hs, hn⟩ := h
  cases frames with
  | nil => cases hs
  | cons top below =>
    obtain ⟨types, hnew, hs'⟩ := run.stack hs
    obtain rfl : types = [] := List.map_eq_nil_iff.mp hnew
    exact ⟨_, hs', hn⟩

end Place

/-- What typing a piece of code visits, next to what the code mentions and to the expressions in it.
At each visit the place mirrors the scopes. What is visited is mentioned. What typing a visited expression
visits is visited, and so is every expression that is mentioned, unless it is a plain name. A name is not looked up
more often than it is mentioned, even if those in `last` are looked up next. -/
structure Faithful (vs : List Visit) (cs : List Citation) (es : List Expr) (last : List Expr := []) : Prop where
  mirrors : ∀ v ∈ vs, v.place.Mirrors v.typing.scopes
  cited : ∀ v ∈ vs, .node v.expr ∈ cs
  closed : ∀ v ∈ vs, ∀ w ∈ Visits.ofExpr v.place v.typing v.expr, w ∈ vs
  seen : ∀ e, .node e ∈ cs → e.ident? = none → ∃ v ∈ vs, v.expr = e
  mem : ∀ e, .node e ∈ cs → e ∈ es
  whole : ∀ e, .node e ∈ cs → ∀ c ∈ Cited.ofExpr e, c ∈ cs
  once : ((vs.flatMap (·.expr.lookups) ++ last).map .node).Subperm cs

namespace Faithful

variable {vs ws : List Visit} {cs ds : List Citation} {es fs last : List Expr}

theorem nil : Faithful [] [] es := ⟨nofun, nofun, nofun, nofun, nofun, nofun, List.nil_subperm⟩

theorem append (h : Faithful vs cs es) (h' : Faithful ws ds fs last) :
    Faithful (vs ++ ws) (cs ++ ds) (es ++ fs) last where
  mirrors v hv := (List.mem_append.mp hv).elim (h.mirrors v) (h'.mirrors v)
  cited v hv := List.mem_append.mpr ((List.mem_append.mp hv).imp (h.cited v) (h'.cited v))
  closed v hv w hw := List.mem_append.mpr ((List.mem_append.mp hv).imp (h.closed v · w hw) (h'.closed v · w hw))
  seen e he hi := by
    rcases List.mem_append.mp he with he | he
    · obtain ⟨v, hv, same⟩ := h.seen e he hi
      exact ⟨v, List.mem_append_left _ hv, same⟩
    · obtain ⟨v, hv, same⟩ := h'.seen e he hi
      exact ⟨v, List.mem_append_right _ hv, same⟩
  mem e he := List.mem_append.mpr ((List.mem_append.mp he).imp (h.mem e) (h'.mem e))
  whole e he c hc := List.mem_append.mpr ((List.mem_append.mp he).imp (h.whole e · c hc) (h'.whole e · c hc))
  once := by simpa using h.once.append h'.once

theorem nodes (h : Faithful vs cs es) (sub : es ⊆ fs) : Faithful vs cs fs :=
  { h with mem := fun e he => sub (h.mem e he) }

theorem recite (h : Faithful vs cs es) (sub : cs.Subperm ds) (nodes : ∀ e, .node e ∈ ds → .node e ∈ cs) :
    Faithful vs ds es where
  mirrors := h.mirrors
  cited v hv := sub.subset (h.cited v hv)
  closed := h.closed
  seen e he := h.seen e (nodes e he)
  mem e he := h.mem e (nodes e he)
  whole e he c hc := sub.subset (h.whole e (nodes e he) c hc)
  once := h.once.trans sub

theorem plain (id : Nat) (pos : Position) (name : String) (h : last.Sublist [⟨id, pos, .ident name⟩]) :
    Faithful [] (Cited.ofExpr ⟨id, pos, .ident name⟩) (Nodes.ofExpr ⟨id, pos, .ident name⟩) last where
  mirrors := nofun
  cited := nofun
  closed := nofun
  seen e he hi := by
    obtain rfl : e = ⟨id, pos, .ident name⟩ := by simpa [Cited.ofExpr, Cited.ofKind] using he
    simp [Expr.ident?] at hi
  mem e he := by simpa [Cited.ofExpr, Cited.ofKind, Nodes.ofExpr, Nodes.ofKind] using he
  whole e he c hc := by
    obtain rfl : e = ⟨id, pos, .ident name⟩ := by simpa [Cited.ofExpr, Cited.ofKind] using he
    exact hc
  once := (h.map _).subperm

theorem self {kind : ExprKind} {p : Place} {s : Typing}
    (h : Faithful (Visits.ofKind p s kind) (Cited.ofKind kind) (Nodes.ofKind kind) kind.plainField)
    (mirrors : p.Mirrors s.scopes) (id : Nat) (pos : Position) :
    Faithful (Visits.ofExpr p s ⟨id, pos, kind⟩) (Cited.ofExpr ⟨id, pos, kind⟩)
      (Nodes.ofExpr ⟨id, pos, kind⟩) := by
  constructor
  · intro v hv
    rcases List.mem_append.mp hv with hv | hv
    · exact h.mirrors v hv
    · obtain rfl := List.mem_singleton.mp hv
      exact mirrors
  · intro v hv
    rcases List.mem_append.mp hv with hv | hv
    · exact List.mem_cons_of_mem _ (h.cited v hv)
    · obtain rfl := List.mem_singleton.mp hv
      exact List.mem_cons_self ..
  · intro v hv w hw
    rcases List.mem_append.mp hv with hv | hv
    · exact List.mem_append_left _ (h.closed v hv w hw)
    · obtain rfl := List.mem_singleton.mp hv
      simpa only [Visits.ofExpr] using hw
  · intro e he hi
    rcases List.mem_cons.mp he with same | he
    · cases same
      exact ⟨_, List.mem_append_right _ (List.mem_singleton_self _), rfl⟩
    · obtain ⟨v, hv, same⟩ := h.seen e he hi
      exact ⟨v, List.mem_append_left _ hv, same⟩
  · intro e he
    rcases List.mem_cons.mp he with same | he
    · cases same
      exact List.mem_append_right _ (List.mem_singleton_self _)
    · exact List.mem_append_left _ (h.mem e he)
  · intro e he c hc
    rcases List.mem_cons.mp he with same | he
    · cases same
      simpa only [Cited.ofExpr] using hc
    · exact List.mem_cons_of_mem _ (h.whole e he c hc)
  · have own : (Citation.node ⟨id, pos, kind⟩ :: ((Visits.ofKind p s kind).flatMap (·.expr.lookups)).map .node).Subperm
        (Cited.ofExpr ⟨id, pos, kind⟩) :=
      (List.subperm_cons _).mpr ((((List.sublist_append_left ..).map _).subperm).trans h.once)
    simp only [Visits.ofExpr, List.flatMap_append, List.flatMap_singleton, List.append_nil,
      Expr.lookups.eq_def ⟨id, pos, kind⟩]
    split
    case h_4 => exact h.once.trans (List.sublist_cons_self ..).subperm
    all_goals
      rw [List.map_append]
      exact (List.perm_append_singleton _ _).subperm.trans own

end Faithful

theorem Scopes.Stack.declareAll (ds : List Declaration) : ∀ {s : Scopes} {bs : Bindings Ty}, s.Stack [bs] →
    (ds.foldl (fun s d => s.declare d.name d.type) s).Stack [bs.insertAll (ds.map fun d => (d.name, d.type))] := by
  induction ds with
  | nil => exact fun h => h
  | cons d ds ih => exact fun h => ih (h.declare d.name d.type)

theorem Place.start_mirrors (program : List Stmt) (context : Context) :
    (Place.start program).Mirrors (Typing.start program context).scopes := by
  have empty : Scopes.Stack {} [[]] := .root (f := { parent := none }) rfl rfl
  refine ⟨_, empty.declareAll (Declaration.ofStmts [] program), ?_⟩
  simp only [Place.start, List.map_cons, List.map_nil, Bindings.names_insertAll]
  simp [Bindings.names, Binders.ofDeclarations, Function.comp_def]

/-! ## Uses -/

def Closure.mentions (names : FunctionNames) : Closure → List Mention
  | .lambda f => Captures.ofFunc names f
  | .arm body => Captures.ofStmts names body

/-- Whether code outside a scope sees that a name is used in it. An arm is looked into as if
it were a block. -/
def Opener.Lets (names : FunctionNames) (n : String) : Opener → Prop
  | .block | .closure (.arm _) => True
  | .closure (.lambda f) => n ∈ capturesOf names f
  | .declaration => False

/-- A use of a name at a place is a use for every closure around it that it is visible to. -/
def Carries (names : FunctionNames) (n : String) : Place → Prop
  | [] => True
  | scope :: rest => scope.hidden = false →
    (∀ g, scope.opener = .closure g → .use n ∈ g.mentions names) ∧
      (scope.opener.Lets names n → Carries names n rest)

def Carried (names : FunctionNames) (p : Place) (ms : List Mention) : Prop :=
  ∀ n, .use n ∈ ms → Carries names n p

section
variable {names : FunctionNames} {p : Place} {ms more : List Mention}

@[simp] theorem carried_append : Carried names p (ms ++ more) ↔ Carried names p ms ∧ Carried names p more := by
  simp [Carried, or_imp, forall_and]

theorem Carried.left (h : Carried names p (ms ++ more)) : Carried names p ms := (carried_append.mp h).1

theorem Carried.right (h : Carried names p (ms ++ more)) : Carried names p more := (carried_append.mp h).2

theorem Carried.block (h : Carried names p ms) : Carried names (p.enter .block) ms :=
  fun n hn _ => ⟨nofun, fun _ => h n hn⟩

theorem Carried.bind (h : Carried names p ms) (new : Bindings BindingKind) : Carried names (p.bind new) ms := by
  intro n hn
  cases p with
  | nil => trivial
  | cons scope rest => exact h n hn

theorem carried_declaration : Carried names (p.enter .declaration) ms := fun _ _ _ => ⟨nofun, nofun⟩

theorem carried_hide : Carried names p.hide ms := by
  intro n _
  cases p with
  | nil => trivial
  | cons scope rest => exact nofun

theorem Carried.lambda {f : Func} (h : Carried names p (Captures.ofKind names (.lambda f))) :
    Carried names (p.enter (.closure (.lambda f))) (Captures.ofFunc names f) := by
  intro n hn _
  refine ⟨fun g hg => ?_, fun captured => h n ?_⟩
  · cases hg
    exact hn
  · simp only [Captures.ofKind, List.mem_map]
    exact ⟨n, captured, rfl⟩

theorem Carried.arm {body : List Stmt} (h : Carried names p (Captures.ofStmts names body)) :
    Carried names (p.enter (.ofArm body)) (Captures.ofStmts names body) := by
  unfold Opener.ofArm
  split
  case h_4 => exact fun n hn _ => ⟨fun g hg => by cases hg; exact hn, fun _ => h n hn⟩
  all_goals exact h.block

end

def Traced (names : FunctionNames) (vs : List Visit) : Prop :=
  ∀ v ∈ vs, ∀ n, v.expr.kind = .ident n → names.contains v.expr.id n = false → Carries names n v.place

theorem traced_nil {names : FunctionNames} : Traced names [] := by simp [Traced]

theorem Traced.append {names : FunctionNames} {vs ws : List Visit} (h : Traced names vs)
    (h' : Traced names ws) : Traced names (vs ++ ws) := by
  intro v hv
  rcases List.mem_append.mp hv with hv | hv
  · exact h v hv
  · exact h' v hv

end PhaseLang
