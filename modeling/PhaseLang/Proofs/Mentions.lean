import Mathlib.Data.List.Basic
import PhaseLang.Compile
import PhaseLang.Proofs.Code

/-!
# What a lambda captures

The code of a lambda is what stands in it, up to the lambdas, named functions and classes inside. The
lambda lists the names that its code uses, each where it first does, save those that it binds before.
A name that the code uses can only be missing if the code binds it, with one exception: namespaces
belong to the code, and are not looked into.
-/

namespace PhaseLang

/-! ## First mentions -/

/-- In a row of names, `a` comes before `b`. -/
def FirstIn (row : List String) (a b : String) : Prop := row.idxOf a < row.idxOf b

theorem exists_split_cons {α : Type} {P Q : α → Prop} {x : α} {xs : List α} :
    (∃ before d after, x :: xs = before ++ d :: after ∧ P d ∧ ∀ b ∈ before, Q b) ↔
      P x ∨ Q x ∧ ∃ before d after, xs = before ++ d :: after ∧ P d ∧ ∀ b ∈ before, Q b := by
  constructor
  · rintro ⟨before, d, after, row, here, up⟩
    cases before with
    | nil =>
      obtain ⟨rfl, rfl⟩ := List.cons.inj row
      exact .inl here
    | cons b before =>
      obtain ⟨rfl, rfl⟩ := List.cons.inj row
      obtain ⟨first, up⟩ := List.forall_mem_cons.mp up
      exact .inr ⟨first, before, d, after, rfl, here, up⟩
  · rintro (here | ⟨first, before, d, after, rfl, here, up⟩)
    · exact ⟨[], x, xs, rfl, here, by simp⟩
    · exact ⟨x :: before, d, after, rfl, here, List.forall_mem_cons.mpr ⟨first, up⟩⟩

variable {n : String} {m : Mention}

namespace Mention

def name : Mention → String
  | use n => n
  | bind n => n

def first? (n : String) (ms : List Mention) : Option Mention := ms.find? (·.name == n)

theorem first?_cons (n : String) (m : Mention) (ms : List Mention) :
    first? n (m :: ms) = if m.name = n then some m else first? n ms := by
  by_cases h : m.name = n <;> simp [first?, h]

variable {ms : List Mention}

theorem first?_append (n : String) (ms more : List Mention) :
    first? n (ms ++ more) = (first? n ms).or (first? n more) := List.find?_append

theorem first?_uses (n : String) (ns : List String) :
    first? n (ns.map use) = if n ∈ ns then some (use n) else none := by
  induction ns with
  | nil => rfl
  | cons a ns ih =>
    rw [List.map_cons, first?_cons, ih]
    by_cases h : a = n <;> grind [name]

theorem first?_binds (n : String) (ns : List String) :
    first? n (ns.map bind) = if n ∈ ns then some (bind n) else none := by
  induction ns with
  | nil => rfl
  | cons a ns ih =>
    rw [List.map_cons, first?_cons, ih]
    by_cases h : a = n <;> grind [name]

theorem first?_eq_none (h : first? n ms = none) : .use n ∉ ms := by
  intro hm
  simpa [name] using List.find?_eq_none.mp h _ hm

theorem name_of_first? (h : first? n ms = some m) : m = .use n ∨ m = .bind n := by
  have hn := List.find?_some h
  cases m <;> simp_all [name]

theorem mem_tally_free (n : String) (ms : List Mention) (t : Tally) :
    n ∈ (ms.foldl Tally.add t).free ↔
      n ∈ t.free ∨ n ≠ "this" ∧ n ∉ t.bound ∧ first? n ms = some (.use n) := by
  induction ms generalizing t with
  | nil => simp [first?]
  | cons m ms ih =>
    rw [List.foldl_cons, ih, first?_cons]
    cases m <;> grind [Tally.add, name]

theorem mem_free_iff : n ∈ free ms ↔ n ≠ "this" ∧ first? n ms = some (.use n) := by
  simp [free, mem_tally_free]

theorem mem_free_iff_of_mem (h : .use n ∈ ms) : n ∈ free ms ↔ n ≠ "this" ∧ first? n ms ≠ some (.bind n) := by
  rw [mem_free_iff]
  cases hf : first? n ms with
  | none => exact absurd h (first?_eq_none hf)
  | some m => rcases name_of_first? hf with rfl | rfl <;> simp

def uses (ms : List Mention) : List String := ms.filterMap fun
  | use n => some n
  | bind _ => none

theorem uses_append (ms more : List Mention) : uses (ms ++ more) = uses ms ++ uses more := List.filterMap_append ..

theorem uses_binds (ns : List String) : uses (ns.map bind) = [] := by simp [uses, List.filterMap_map]

/-- The tally goes on in the order of first use. Of the variables used so far it leaves out those that were bound. -/
theorem ordered_tally (ms before : List Mention) (t : Tally)
    (seen : ∀ n ∈ uses before, n = "this" ∨ n ∈ t.bound ∨ n ∈ t.free) (known : ∀ n ∈ t.free, n ∈ uses before)
    (ordered : t.free.Pairwise (FirstIn (uses before))) :
    (ms.foldl Tally.add t).free.Pairwise (FirstIn (uses (before ++ ms))) := by
  induction ms generalizing before t with
  | nil => simpa using ordered
  | cons m ms ih =>
    have earlier : t.free.Pairwise (FirstIn (uses (before ++ [m]))) := by
      refine ordered.imp_of_mem fun {a b} ha hb lt => ?_
      rw [FirstIn, uses_append]
      rwa [List.idxOf_append, List.idxOf_append, if_pos (known a ha), if_pos (known b hb)]
    rw [List.foldl_cons, List.append_cons]
    cases m with
    | bind name => exact ih _ _ (by grind [uses, Tally.add]) (by grind [uses, Tally.add]) earlier
    | use name =>
      by_cases old : name = "this" ∨ name ∈ t.bound ∨ name ∈ t.free
      · rw [Tally.add, if_pos old]
        exact ih _ _ (by grind [uses]) (by grind [uses]) earlier
      · rw [Tally.add, if_neg old]
        refine ih _ _ (by grind [uses]) (by grind [uses]) (List.pairwise_append.mpr ⟨earlier, by simp, ?_⟩)
        intro a ha b hb
        obtain rfl := List.mem_singleton.mp hb
        have new : b ∉ uses before := fun used => old (seen b used)
        rw [FirstIn, uses_append, List.idxOf_append, List.idxOf_append, if_pos (known a ha), if_neg new]
        exact Nat.lt_of_lt_of_le (List.idxOf_lt_length_of_mem (known a ha)) (Nat.le_add_left _ _)

theorem free_ordered (ms : List Mention) : (free ms).Pairwise (FirstIn (uses ms)) :=
  ordered_tally ms [] {} (by simp [uses]) (by simp) .nil

end Mention

/-! ## Own code -/

namespace Code

/-- What stands in a piece of code belongs to the same closure. -/
def isOpen : Code → Bool
  | expr ⟨_, _, .lambda _⟩ | stmt ⟨_, .func _⟩ | stmt ⟨_, .cls _⟩ => false
  | function _ | classBody _ | members _ | memberKind _ | accessor _ => false
  | _ => true

def isNamespace : Code → Bool
  | stmt ⟨_, .inNamespace _ _⟩ => true
  | _ => false

/-- A loop that runs its body before it tests its condition. -/
def testsLast : Code → Bool
  | stmt ⟨_, .loop _ _ true⟩ => true
  | _ => false

/-- A way through code. -/
structure Route where
  next : Code → List Code
  inside : ∀ c, next c ⊆ c.parts

namespace Route

/-- What is on the way through a piece of code, each piece behind those that it leads to. -/
def pieces (r : Route) (c : Code) : List Code := (r.next c).attach.flatMap (fun d => pieces r d.1) ++ [c]
termination_by c.size
decreasing_by exact size_lt (r.inside _ d.2)

/-- The way of typing through all code. -/
def whole : Route := ⟨parts, fun _ => List.Subset.refl _⟩

/-- The way of typing through the code of a closure, past the namespaces in it. -/
def typed : Route where
  next c := if c.isOpen && !c.isNamespace then c.parts else []
  inside c := by split <;> simp

/-- The way through the code of a closure in the order in which it is run. -/
def run : Route where
  next c := if c.isOpen then if c.testsLast then c.parts.reverse else c.parts else []
  inside c := by grind

variable {r r' : Route} {c : Code}

theorem run_next (c : Code) :
    run.next c = if c.isOpen then if c.testsLast then c.parts.reverse else c.parts else [] := rfl

theorem pieces_eq (r : Route) (c : Code) : r.pieces c = (r.next c).flatMap r.pieces ++ [c] := by
  rw [pieces, List.flatMap_subtype (g := r.pieces) (fun _ _ => rfl), List.unattach_attach]

theorem self_mem (r : Route) (c : Code) : c ∈ r.pieces c := by
  rw [pieces_eq]
  exact List.mem_append_right _ (List.mem_singleton.mpr rfl)

theorem mem_of_next {d e : Code} (next : d ∈ r.next c) (mem : e ∈ r.pieces d) : e ∈ r.pieces c := by
  rw [pieces_eq]
  exact List.mem_append_left _ (List.mem_flatMap.mpr ⟨d, next, mem⟩)

theorem size_le {d : Code} (r : Route) (mem : d ∈ r.pieces c) : d.size ≤ c.size := by
  induction c using partsInduction with
  | step c ih =>
    rw [pieces_eq, List.mem_append, List.mem_flatMap] at mem
    rcases mem with ⟨e, next, mem⟩ | mem
    · exact Nat.le_of_lt (Nat.lt_of_le_of_lt (ih e (r.inside c next) mem) (size_lt (r.inside c next)))
    · exact Nat.le_of_eq (congrArg size (List.mem_singleton.mp mem))

theorem pieces_subset (sub : ∀ d ∈ r.pieces c, r.next d ⊆ r'.next d) : r.pieces c ⊆ r'.pieces c := by
  induction c using partsInduction with
  | step c ih =>
    intro e mem
    rw [pieces_eq, List.mem_append, List.mem_flatMap] at mem
    rcases mem with ⟨d, next, mem⟩ | mem
    · have deeper := ih d (r.inside c next) (fun e he => sub e (mem_of_next next he)) mem
      exact mem_of_next (sub c (self_mem r c) next) deeper
    · obtain rfl := List.mem_singleton.mp mem
      exact self_mem r' e

theorem pieces_congr (same : ∀ d ∈ r.pieces c, r.next d = r'.next d) : r.pieces c = r'.pieces c := by
  induction c using partsInduction with
  | step c ih =>
    rw [pieces_eq, pieces_eq, ← same c (self_mem r c)]
    congr 1
    exact List.flatMap_congr fun d next => ih d (r.inside c next) fun e he => same e (mem_of_next next he)

theorem run_subset_typed (plain : ∀ d ∈ run.pieces c, d.isNamespace = false) : run.pieces c ⊆ typed.pieces c := by
  refine pieces_subset fun d mem e next => ?_
  have inner := plain d mem
  unfold run at next
  unfold typed
  grind

theorem run_eq_typed (plain : ∀ d ∈ run.pieces c, d.isNamespace = false ∧ d.testsLast = false) :
    run.pieces c = typed.pieces c := by
  refine pieces_congr fun d mem => ?_
  obtain ⟨inner, first⟩ := plain d mem
  simp [run, typed, inner, first]

theorem typed_subset_run (c : Code) : typed.pieces c ⊆ run.pieces c := by
  refine pieces_subset fun d _ e mem => ?_
  unfold typed at mem
  unfold run
  grind

end Route

/-- The variables that a piece of code itself uses: one that is read, one that is assigned, or those that a lambda
captures. -/
def uses (names : FunctionNames) : Code → List String
  | expr ⟨id, _, .ident name⟩ => if names.contains id name then [] else [name]
  | expr ⟨_, _, .assign name _⟩ => [name]
  | expr ⟨_, _, .lambda f⟩ => capturesOf names f
  | _ => []

def binds : Code → List String
  | stmt ⟨_, .var name _ _⟩ | stmt ⟨_, .global name⟩ | caught name _ => [name]
  | stmt ⟨_, .func f⟩ => [f.name]
  | loopNames key value _ => key :: value.toList
  | _ => []

theorem not_binds_of_uses {names : FunctionNames} {d : Code} (used : n ∈ d.uses names) : n ∉ d.binds := by
  unfold uses at used
  split at used
  · exact List.not_mem_nil
  · exact List.not_mem_nil
  · exact List.not_mem_nil
  · cases used

end Code

namespace Captures

variable {target field value : Expr} {names : FunctionNames}

def ofCode (names : FunctionNames) : Code → List Mention
  | .expr e => ofExpr names e
  | .optional e => ofOption names e
  | .exprs es => ofExprs names es
  | .arguments as => ofArgs names as
  | .entries es => ofEntries names es
  | .cases cs => ofCases names cs
  | .arm c => ofOption names c.condition ++ ofStmts names c.body
  | .stmt x => ofStmt names x
  | .stmts xs => ofStmts names xs
  | .alternative x | .body x => ofBody names x
  | .params ps => ofDefaults names ps
  | .param p => ofOption names p.default
  | .loopNames key value _ => (key :: value.toList).map .bind
  | .caught name _ => [.bind name]
  | _ => []

theorem ofExprs_eq (es : List Expr) : ofExprs names es = es.flatMap (ofExpr names) :=
  eq_flatMap_of_cons rfl (fun _ _ => rfl) es

theorem ofArgs_eq (as : List Arg) : ofArgs names as = as.flatMap fun a => ofExpr names a.value :=
  eq_flatMap_of_cons rfl (fun x _ => by cases x; rfl) as

theorem ofEntries_eq (es : List Entry) :
    ofEntries names es = es.flatMap fun e => ofExpr names e.key ++ ofExpr names e.value :=
  eq_flatMap_of_cons rfl (fun x _ => by cases x; rfl) es

theorem ofCases_eq (cs : List Case) :
    ofCases names cs = cs.flatMap fun c => ofOption names c.condition ++ ofStmts names c.body :=
  eq_flatMap_of_cons rfl (fun x _ => by cases x; rfl) cs

theorem ofStmts_eq (xs : List Stmt) : ofStmts names xs = xs.flatMap (ofStmt names) :=
  eq_flatMap_of_cons rfl (fun _ _ => rfl) xs

theorem ofDefaults_eq (ps : List Param) : ofDefaults names ps = ps.flatMap fun p => ofOption names p.default :=
  eq_flatMap_of_cons rfl (fun x _ => by cases x; rfl) ps

theorem ofExpr_eq {e : Expr} (h : e.ident? = none) : ofExpr names e = ofKind names e.kind := by
  obtain ⟨_, _, kind⟩ := e
  cases kind with
  | ident _ => simp [Expr.ident?] at h
  | _ => rfl

theorem ofKind_get (h : field.ident? = none) :
    ofKind names (.get target field) = ofExpr names target ++ ofExpr names field := by
  obtain ⟨_, _, kind⟩ := field
  cases kind with
  | ident _ => simp [Expr.ident?] at h
  | _ => rfl

theorem ofKind_set (h : field.ident? = none) :
    ofKind names (.set target field value) =
      ofExpr names target ++ ofExpr names field ++ ofExpr names value := by
  obtain ⟨_, _, kind⟩ := field
  cases kind with
  | ident _ => simp [Expr.ident?] at h
  | _ => rfl

attribute [local simp] ofCode Code.Route.typed Code.isOpen Code.isNamespace Code.uses Code.binds Code.parts in
theorem ofCode_eq (c : Code) :
    ofCode names c = (Code.Route.typed.next c).flatMap (ofCode names) ++ (c.uses names).map .use ++
      c.binds.map .bind := by
  cases c with
  | expr e =>
    obtain ⟨id, pos, kind⟩ := e
    cases kind with
    | ident name => by_cases h : names.contains id name <;> simp [ofExpr, Code.ofKind, h]
    | get target field | set target field value =>
      obtain ⟨_, _, _, rfl⟩ | computed := field.ident_or
      · simp [ofExpr, ofKind, Code.ofKind]
      · simp [ofExpr, ofKind_get, ofKind_set, Code.ofKind_get, Code.ofKind_set, computed]
    | _ => simp [ofExpr, ofKind, Code.ofKind, capturesOf]
  | stmt x =>
    obtain ⟨pos, kind⟩ := x
    cases kind <;> simp [ofStmt, ofBody, Code.ofStmtKind]
  | optional x | alternative x | body x => cases x <;> simp [ofOption, ofBody]
  | _ =>
    simp [ofExprs_eq, ofArgs_eq, ofEntries_eq, ofCases_eq, ofStmts_eq, ofDefaults_eq, List.flatMap_map,
      List.flatMap_assoc]

/-- What a row of pieces mentions, piece by piece. -/
def ofPieces (names : FunctionNames) (row : List Code) : List Mention :=
  row.flatMap fun d => (d.uses names).map .use ++ d.binds.map .bind

theorem ofCode_pieces (c : Code) : ofCode names c = ofPieces names (Code.Route.typed.pieces c) := by
  induction c using Code.partsInduction with
  | step c ih =>
    rw [ofCode_eq, Code.Route.pieces_eq, ofPieces, List.flatMap_append, List.flatMap_assoc, List.flatMap_singleton,
      List.append_assoc]
    congr 1
    exact List.flatMap_congr fun d next => ih d (Code.Route.typed.inside c next)

theorem uses_ofPieces (row : List Code) : Mention.uses (ofPieces names row) = row.flatMap (·.uses names) := by
  induction row with
  | nil => rfl
  | cons d row ih =>
    have own : Mention.uses ((d.uses names).map .use ++ d.binds.map .bind) = d.uses names := by
      simp [Mention.uses, List.filterMap_map]
    rw [ofPieces, List.flatMap_cons, Mention.uses_append, own, List.flatMap_cons]
    exact congrArg _ ih

theorem first?_ofPieces_cons (n : String) (d : Code) (row : List Code) : Mention.first? n (ofPieces names (d :: row)) =
    if n ∈ d.uses names then some (.use n) else if n ∈ d.binds then some (.bind n)
    else Mention.first? n (ofPieces names row) := by
  rw [ofPieces, List.flatMap_cons, Mention.first?_append, Mention.first?_append, Mention.first?_uses,
    Mention.first?_binds]
  split
  · rfl
  · split <;> rfl

/-- A name is used first if a piece uses it and none before binds it. -/
theorem first?_ofPieces_use {row : List Code} : Mention.first? n (ofPieces names row) = some (.use n) ↔
    ∃ before d after, row = before ++ d :: after ∧ n ∈ d.uses names ∧ ∀ b ∈ before, n ∉ b.binds := by
  induction row with
  | nil => simp [ofPieces, Mention.first?]
  | cons d row ih =>
    rw [first?_ofPieces_cons, exists_split_cons, ← ih]
    by_cases used : n ∈ d.uses names
    · simp [used]
    · by_cases bound : n ∈ d.binds <;> simp [used, bound]

/-- A name is bound first if a piece binds it and none before uses it. -/
theorem first?_ofPieces_bind {row : List Code} : Mention.first? n (ofPieces names row) = some (.bind n) ↔
    ∃ before b after, row = before ++ b :: after ∧ n ∈ b.binds ∧ ∀ d ∈ before, n ∉ d.uses names := by
  induction row with
  | nil => simp [ofPieces, Mention.first?]
  | cons d row ih =>
    rw [first?_ofPieces_cons, exists_split_cons, ← ih]
    by_cases used : n ∈ d.uses names
    · simp [used, Code.not_binds_of_uses used]
    · by_cases bound : n ∈ d.binds <;> simp [used, bound]

end Captures

/-! ## Lambdas -/

/-- What is on a way through the code of a lambda. -/
def Func.pieces (r : Code.Route) (f : Func) : List Code := r.pieces (.params f.params) ++ r.pieces (.body f.body)

theorem Captures.ofFunc_eq (names : FunctionNames) (f : Func) :
    ofFunc names f = (f.params.map (·.name)).map .bind ++ ofPieces names (f.pieces .typed) := by
  rw [Func.pieces, ofPieces, List.flatMap_append, ← ofPieces, ← ofPieces, ← ofCode_pieces, ← ofCode_pieces]
  obtain ⟨⟩ := f
  simp [ofFunc, ofCode]

section
variable {names : FunctionNames} {f : Func}

/-- A lambda captures what its code uses and does not bind before, parameters and `this` apart. -/
theorem mem_capturesOf : n ∈ capturesOf names f ↔ n ≠ "this" ∧ n ∉ f.params.map (·.name) ∧
    ∃ before d after, f.pieces .typed = before ++ d :: after ∧ n ∈ d.uses names ∧ ∀ b ∈ before, n ∉ b.binds := by
  rw [capturesOf, Mention.mem_free_iff, Captures.ofFunc_eq, Mention.first?_append, Mention.first?_binds,
    ← Captures.first?_ofPieces_use]
  split <;> simp [*]

/-- A piece of code uses a name: it reads it as a variable, assigns to it, or is a lambda in whose code a piece uses it
and none before binds it. -/
inductive Code.Uses (names : FunctionNames) (n : String) : Code → Prop
  | read {id : Nat} {pos : Position} (isVariable : names.contains id n = false) :
    Uses names n (expr ⟨id, pos, .ident n⟩)
  | assign {id : Nat} {pos : Position} {value : Expr} : Uses names n (expr ⟨id, pos, .assign n value⟩)
  | lambda {id : Nat} {pos : Position} {f : Func} {before after : List Code} {d : Code} (other : n ≠ "this")
      (own : n ∉ f.params.map (·.name)) (row : f.pieces .typed = before ++ d :: after) (use : Uses names n d)
      (free : ∀ b ∈ before, n ∉ b.binds) : Uses names n (expr ⟨id, pos, .lambda f⟩)

theorem Func.size_of_mem {r : Code.Route} {d e : Code} {id : Nat} {pos : Position}
    (lambda : e = .expr ⟨id, pos, .lambda f⟩) (mem : d ∈ f.pieces r) : d.size < e.size := by
  have whole : (Code.function f).size < e.size := Code.size_lt (by simp [lambda, Code.parts, Code.ofKind])
  rcases List.mem_append.mp mem with mem | mem
  · have part : (Code.params f.params).size < (Code.function f).size := Code.size_lt (by simp [Code.parts])
    have := r.size_le mem
    omega
  · have part : (Code.body f.body).size < (Code.function f).size := Code.size_lt (by simp [Code.parts])
    have := r.size_le mem
    omega

theorem Func.run_subset_typed (plain : ∀ d ∈ f.pieces .run, d.isNamespace = false) :
    f.pieces .run ⊆ f.pieces .typed := by
  obtain ⟨params, body⟩ := List.forall_mem_append.mp plain
  exact List.append_subset.mpr ⟨List.subset_append_of_subset_left _ (Code.Route.run_subset_typed params),
    List.subset_append_of_subset_right _ (Code.Route.run_subset_typed body)⟩

theorem Func.run_eq_typed (plain : ∀ d ∈ f.pieces .run, d.isNamespace = false ∧ d.testsLast = false) :
    f.pieces .run = f.pieces .typed := by
  obtain ⟨params, body⟩ := List.forall_mem_append.mp plain
  rw [Func.pieces, Func.pieces, Code.Route.run_eq_typed params, Code.Route.run_eq_typed body]

theorem Func.typed_subset_run (f : Func) : f.pieces .typed ⊆ f.pieces .run :=
  List.append_subset.mpr ⟨List.subset_append_of_subset_left _ (Code.Route.typed_subset_run _),
    List.subset_append_of_subset_right _ (Code.Route.typed_subset_run _)⟩

end

theorem Code.uses_iff {c : Code} : c.Uses names n ↔ n ∈ c.uses names := by
  constructor
  · intro uses
    induction uses with
    | read isVariable => simp [Code.uses, isVariable]
    | assign => exact List.mem_singleton.mpr rfl
    | lambda other own row _ free ih => exact mem_capturesOf.mpr ⟨other, own, _, _, _, row, ih, free⟩
  · induction size : c.size using Nat.strongRecOn generalizing c with
    | ind _ ih =>
      intro used
      unfold Code.uses at used
      split at used
      · split at used
        · cases used
        · rename_i isVariable
          obtain rfl := List.mem_singleton.mp used
          exact .read (Bool.eq_false_iff.mpr isVariable)
      · obtain rfl := List.mem_singleton.mp used
        exact .assign
      · obtain ⟨other, own, before, d, after, row, used, free⟩ := mem_capturesOf.mp used
        exact .lambda other own row (ih _ (size ▸ Func.size_of_mem (r := .typed) rfl (by simp [row])) rfl used) free
      · cases used

/-- A lambda lists each name once, and neither `this` nor a parameter is among them. The names come in the order in
which typing first meets them in its code; if there are no namespaces in the code and no loops that test last, then
this is also the order in which they are first used when the code is run. What is listed is used in the code; and if
no namespace stands in the code, then what is used there is listed, or it is a parameter or bound in the code. -/
theorem capturesOf_lists (names : FunctionNames) (f : Func) :
    (capturesOf names f).Nodup ∧ "this" ∉ capturesOf names f ∧ (∀ p ∈ f.params, p.name ∉ capturesOf names f) ∧
    (capturesOf names f).Pairwise (FirstIn ((f.pieces .typed).flatMap (·.uses names))) ∧
    ((∀ d ∈ f.pieces .run, d.isNamespace = false ∧ d.testsLast = false) →
      (capturesOf names f).Pairwise (FirstIn ((f.pieces .run).flatMap (·.uses names)))) ∧
    (∀ n ∈ capturesOf names f, ∃ d ∈ f.pieces .run, n ∈ d.uses names) ∧
    ((∀ d ∈ f.pieces .run, d.isNamespace = false) → ∀ d ∈ f.pieces .run, ∀ n ∈ d.uses names, n ≠ "this" →
      n ∈ capturesOf names f ∨ n ∈ f.params.map (·.name) ∨ ∃ b ∈ f.pieces .run, n ∈ b.binds) := by
  have ordered : (capturesOf names f).Pairwise (FirstIn ((f.pieces .typed).flatMap (·.uses names))) := by
    have row := Mention.free_ordered (Captures.ofFunc names f)
    rwa [Captures.ofFunc_eq, Mention.uses_append, Mention.uses_binds, List.nil_append, Captures.uses_ofPieces,
      ← Captures.ofFunc_eq] at row
  have once : (capturesOf names f).Nodup := ordered.imp fun {a b} (lt : _ < _) (same : a = b) => by simp [same] at lt
  refine ⟨once, fun mem => (mem_capturesOf.mp mem).1 rfl, ?_, ordered, ?_, ?_, ?_⟩
  · intro p mem listed
    exact (mem_capturesOf.mp listed).2.1 (List.mem_map_of_mem mem)
  · intro plain
    rwa [Func.run_eq_typed plain]
  · intro n listed
    obtain ⟨-, -, before, d, after, row, used, -⟩ := mem_capturesOf.mp listed
    exact ⟨d, f.typed_subset_run (by simp [row]), used⟩
  · intro plain d mem n used other
    by_cases param : n ∈ f.params.map (·.name)
    · exact .inr (.inl param)
    by_cases bound : ∃ b ∈ f.pieces .run, n ∈ b.binds
    · exact .inr (.inr bound)
    · obtain ⟨before, after, row⟩ := List.append_of_mem (Func.run_subset_typed plain mem)
      refine .inl (mem_capturesOf.mpr ⟨other, param, before, d, after, row, used, fun b hb binds => bound ?_⟩)
      exact ⟨b, f.typed_subset_run (by simp [row, hb]), binds⟩

/-- The lambda `{ |p| var y = a; { y + b } }` takes `a` itself and `b` for the lambda inside. -/
theorem capturesOf_lists_nested :
    let names : FunctionNames := ⟨{}, []⟩
    let pos : Position := ⟨0, 0, ""⟩
    let inner : Func :=
      ⟨"", [], some ⟨pos, .expr ⟨3, pos, .binary ⟨1, pos, .ident "y"⟩ .add ⟨2, pos, .ident "b"⟩⟩⟩, none, [], pos⟩
    let body : List Stmt := [⟨pos, .var "y" none (some ⟨4, pos, .ident "a"⟩)⟩, ⟨pos, .expr ⟨5, pos, .lambda inner⟩⟩]
    let f : Func := ⟨"", [⟨"p", none, none, false, pos⟩], some ⟨pos, .block body⟩, none, [], pos⟩
    capturesOf names inner = ["y", "b"] ∧ capturesOf names f = ["a", "b"] ∧
      (∀ d ∈ f.pieces .run, d.isNamespace = false ∧ d.testsLast = false) ∧
      FirstIn ((f.pieces .run).flatMap (·.uses names)) "a" "b" := by
  intro names pos inner body f
  have plain : ∀ d ∈ f.pieces .run, d.isNamespace = false ∧ d.testsLast = false := by
    simp [f, body, Func.pieces, Code.Route.pieces_eq, Code.Route.run_next, Code.isOpen, Code.testsLast, Code.parts,
      Code.ofStmtKind, Code.ofKind, Code.isNamespace]
  have captures : capturesOf names f = ["a", "b"] := rfl
  have ordered := (capturesOf_lists names f).2.2.2.2.1 plain
  rw [captures] at ordered
  exact ⟨rfl, captures, plain, List.pairwise_pair.mp ordered⟩

/-- The lambda does not capture the `x` that it uses in a namespace, and it lists the condition of a loop that tests
last before the body. -/
theorem captures_miss_and_reverse :
    let pos : Position := ⟨0, 0, ""⟩
    let use (name : String) : Expr := ⟨0, pos, .ident name⟩
    let f : Func :=
      ⟨"", [], some ⟨pos, .block [⟨pos, .inNamespace (.ofName "A") [⟨pos, .expr (use "x")⟩]⟩]⟩, none, [], pos⟩
    let g : Func := ⟨"", [], some ⟨pos, .loop (use "b") ⟨pos, .expr (use "a")⟩ true⟩, none, [], pos⟩
    (compile "var x = 1\nvar f = \x7b\n  namespace A \x7b\n    x\n  \x7d\n\x7d" "main.phs" 8 {}).outcome.php? =
      some ("<?php\n$x = 1;\n$f = function ($it = null) \x7b\n    namespace A \x7b\n        $x;\n    \x7d\n\x7d;\n") ∧
    .expr (use "x") ∈ f.pieces .run ∧ capturesOf ⟨{}, []⟩ f = [] ∧
    capturesOf ⟨{}, []⟩ g = ["b", "a"] ∧ FirstIn ((g.pieces .run).flatMap (·.uses ⟨{}, []⟩)) "a" "b" := by
  intro pos use f g
  refine ⟨by decide +kernel, ?_, rfl, rfl, ?_⟩
  · simp [f, use, Func.pieces, Code.Route.pieces_eq, Code.Route.run_next, Code.isOpen, Code.testsLast, Code.parts,
      Code.ofStmtKind, Code.ofKind]
  · have row : (g.pieces .run).flatMap (·.uses ⟨{}, []⟩) = ["a", "b"] := by
      simp [g, use, Func.pieces, Code.Route.pieces_eq, Code.Route.run_next, Code.isOpen, Code.testsLast, Code.parts,
        Code.ofStmtKind, Code.ofKind, Code.uses]
      rfl
    rw [row, FirstIn]
    decide

end PhaseLang
