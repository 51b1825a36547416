import PhaseLang.Grammar.Class
import PhaseLang.Proofs.Grammar.Nodes

/-!
# The bench of a parser

What a parser has at hand lies on its bench: tokens that it has read, positions that it has put
together, and finished parts of the tree, in the order in which they were laid down. `Step` lists what
the grammar can do with a bench and a cursor in one go, and `Steps` is any number of steps. What every
step preserves holds of every tree that the grammar builds.
-/

namespace PhaseLang

/-! ## Pieces -/

inductive Workpiece where
  /-- A token that was read, at which no name and no class stands yet. -/
  | token (t : Token)
  /-- The token that came next when so many tokens were left. -/
  | ahead (t : Token) (left : Nat)
  /-- Where a token stands that was ahead and is read now. -/
  | behind (pos : Position)
  | place (pos : Position)
  | expr (e : Expr)
  | stmt (s : Stmt)
  | func (f : Func)
  | param (p : Param)
  | accessors (getter setter : Option Func)
  | member (m : Member)
  /-- The body of a factory. -/
  | synthetic (body : Stmt)
  /-- Whether the cursor was in a namespace. -/
  | within (inNamespace : Bool)
  /-- A method could come without a body. -/
  | exempt
  /-- A namespace whose body is being read. -/
  | namespaceBody
  /-- An interface whose body is being read. -/
  | interfaceBody

namespace Workpiece

def isCode : Workpiece → Bool
  | expr _ | stmt _ | func _ | param _ | accessors _ _ | member _ | synthetic _ | namespaceBody | interfaceBody => true
  | token _ | ahead _ _ | behind _ | place _ | within _ | exempt => false

/-- A position that another piece can be put at. -/
def pos? : Workpiece → Option Position
  | token t => some t.pos
  | place pos => some pos
  | expr e => some e.pos
  | func f => some f.pos
  | _ => none

/-- A position from which a span can start. -/
def origin? : Workpiece → Option Position
  | behind pos => some pos
  | x => x.pos?

/-- What has to go into the tree. -/
def codes (ks : List Workpiece) : List Workpiece := ks.filter isCode

/-- The positions at hand. -/
def places (ks : List Workpiece) : List Position := ks.filterMap pos?

def origins (ks : List Workpiece) : List Position := ks.filterMap origin?

section
variable (ks js : List Workpiece)

@[simp] theorem codes_nil : codes [] = [] := rfl

@[simp] theorem codes_append : codes (ks ++ js) = codes ks ++ codes js := List.filter_append ..

@[simp] theorem codes_cons (x : Workpiece) : codes (x :: ks) = if x.isCode then x :: codes ks else codes ks :=
  List.filter_cons ..

@[simp] theorem places_nil : places [] = [] := rfl

@[simp] theorem places_append : places (ks ++ js) = places ks ++ places js := List.filterMap_append ..

@[simp] theorem places_cons (x : Workpiece) : places (x :: ks) = x.pos?.toList ++ places ks := by
  cases h : x.pos? <;> simp [places, h]

@[simp] theorem origins_nil : origins [] = [] := rfl

@[simp] theorem origins_append : origins (ks ++ js) = origins ks ++ origins js := List.filterMap_append ..

@[simp] theorem origins_cons (x : Workpiece) : origins (x :: ks) = x.origin?.toList ++ origins ks := by
  cases h : x.origin? <;> simp [origins, h]

variable {α : Type} {f : α → Workpiece}

theorem codes_map (h : ∀ a, (f a).isCode = true) (as : List α) : codes (as.map f) = as.map f := by
  simp [codes, h]

theorem codes_flatMap {g : α → List Workpiece} (h : ∀ a, codes (g a) = g a) (as : List α) :
    codes (as.flatMap g) = as.flatMap g := by
  induction as with
  | nil => rfl
  | cons a as ih => rw [List.flatMap_cons, codes_append, h, ih]

@[simp] theorem codes_exprs (es : List Expr) : codes (es.map expr) = es.map expr := codes_map (fun _ => rfl) es

@[simp] theorem codes_stmts (ss : List Stmt) : codes (ss.map stmt) = ss.map stmt := codes_map (fun _ => rfl) ss

@[simp] theorem codes_params (ps : List Param) : codes (ps.map param) = ps.map param := codes_map (fun _ => rfl) ps

@[simp] theorem codes_members (ms : List Member) : codes (ms.map member) = ms.map member :=
  codes_map (fun _ => rfl) ms

@[simp] theorem flatMap_single (as : List α) : (as.flatMap fun a => [f a]) = as.map f := (List.map_eq_flatMap ..).symm

@[simp] theorem flatMap_none (as : List α) : (as.flatMap fun _ => ([] : List Workpiece)) = [] :=
  List.flatMap_eq_nil_iff.mpr fun _ _ => rfl

attribute [simp] isCode pos? origin?

end

end Workpiece

/-! ## The parts of a piece -/

open Workpiece

def Arg.piece (a : Arg) : Workpiece := .expr a.value

@[simp] theorem Arg.piece_mk (name : Option String) (e : Expr) : Arg.piece ⟨name, e⟩ = .expr e := rfl

def Entry.pieces (e : Entry) : List Workpiece := [.expr e.key, .expr e.value]

def Case.pieces (c : Case) : List Workpiece := c.condition.toList.map .expr ++ c.body.map .stmt

@[simp] theorem Case.pieces_mk (condition : Option Expr) (body : List Stmt) :
    Case.pieces ⟨condition, body⟩ = condition.toList.map .expr ++ body.map .stmt := rfl

@[simp] theorem Workpiece.codes_args (as : List Arg) : codes (as.map (·.piece)) = as.map (·.piece) :=
  codes_map (fun _ => rfl) as

@[simp] theorem Workpiece.codes_entries (es : List Entry) : codes (es.flatMap (·.pieces)) = es.flatMap (·.pieces) :=
  codes_flatMap (fun _ => rfl) es

@[simp] theorem Workpiece.codes_cases (cs : List Case) : codes (cs.flatMap (·.pieces)) = cs.flatMap (·.pieces) :=
  codes_flatMap (by simp [Case.pieces]) cs

def ExprKind.pieces : ExprKind → List Workpiece
  | .attribute _ args => args.map (·.piece)
  | .assign _ value => [.expr value]
  | .binary lhs _ rhs | .logical lhs _ rhs | .range lhs rhs => [.expr lhs, .expr rhs]
  | .unary _ operand _ | .isType operand _ | .group operand => [.expr operand]
  | .call callee args => .expr callee :: args.map (·.piece)
  | .get target field => [.expr target, .expr field]
  | .set target field value => [.expr target, .expr field, .expr value]
  | .indexGet target index => .expr target :: index.toList.map .expr
  | .indexSet target index value => .expr target :: (index.toList.map .expr ++ [.expr value])
  | .ternary cond yes no => [.expr cond, .expr yes, .expr no]
  | .list items _ => items.map .expr
  | .map entries _ => entries.flatMap (·.pieces)
  | .lambda f => [.func f]
  | .choose target cases => .expr target :: cases.flatMap (·.pieces)
  | .super _ | .path _ | .this | .static | .literal _ | .ident _ => []

def StmtKind.pieces : StmtKind → List Workpiece
  | .expr e | .raise e => [.expr e]
  | .use _ _ attributes => attributes.map .expr
  | .inNamespace _ decls => decls.map .stmt
  | .var _ _ init => init.toList.map .expr
  | .global _ => []
  | .attempt body handlers => .stmt body :: handlers.map .stmt
  | .handler _ _ body => [.stmt body]
  | .loop cond body false | .forIn _ _ cond body => [.expr cond, .stmt body]
  | .loop cond body true => [.stmt body, .expr cond]
  | .branch cond yes no => .expr cond :: .stmt yes :: no.toList.map .stmt
  | .switch target cases => .expr target :: cases.flatMap (·.pieces)
  | .block stmts => stmts.map .stmt
  | .ret value => value.toList.map .expr
  | .func f => [.func f]
  | .cls c => c.attributes.map .expr ++ c.members.map .member

/-- The parameters and the body of a function. -/
def Func.inner (f : Func) : List Workpiece := f.params.map .param ++ f.body.toList.map .stmt

/-- The attributes of a method are those of its member. -/
def MemberKind.pieces : MemberKind → List Workpiece
  | .use _ => []
  | .field _ init => init.toList.map .expr
  | .property _ getter setter => [.accessors getter setter]
  | .method f => f.inner

/-! ## Forming -/

/-- Kinds of expressions that take the token at which they stand. -/
def ExprKind.isName : ExprKind → Bool
  | .ident _ | .this | .static => true
  | _ => false

/-- What a statement asks for besides its parts. Namespaces and interfaces have steps of their own. -/
def StmtKind.Formed (ks : List Workpiece) (pos : Position) : StmtKind → Prop
  | .use _ _ _ => .within true ∈ ks
  | .inNamespace _ _ => False
  | .cls c => c.kind ≠ .interface ∧ c.pos = pos ∧ ∃ t, .token t ∈ ks ∧ t.pos.start = pos.start
  | _ => True

/-- What a member asks for besides its parts. -/
def Member.Formed (ks : List Workpiece) (m : Member) : Prop :=
  ∀ f, m.kind = .method f → f.attributes = m.attributes ∧ f.pos ∈ places ks ∧
    (m.has .isAbstract = true → f.body = none) ∧ (f.body = none → m.has .isAbstract = true ∨ .exempt ∈ ks)

/-- Fragments of a template and the expressions between them, in the order in which they are read. -/
def Workpiece.weave : List Expr → List Expr → List Workpiece
  | [], embedded => embedded.map .expr
  | fragments, [] => fragments.map .expr
  | fragment :: fragments, e :: embedded => .expr fragment :: .expr e :: weave fragments embedded

theorem Workpiece.weave_perm : ∀ fragments embedded : List Expr,
    (weave fragments embedded).Perm (fragments.map .expr ++ embedded.map .expr)
  | [], embedded => .refl _
  | fragment :: fragments, [] => by simp [weave]
  | fragment :: fragments, e :: embedded => by
    refine .cons _ (((weave_perm fragments embedded).cons _).trans ?_)
    exact List.perm_middle.symm

/-- From one position at hand to another, not before it. -/
def Workpiece.Joins (ks : List Workpiece) (p q : Position) : Prop := [p, q].Sublist (places ks) ∨ p = q ∧ p ∈ places ks

/-- Where a list of expressions stands: from its first to its last, or at the given position. -/
def Workpiece.Lists (ks : List Workpiece) (pos : Position) : Prop :=
  pos ∈ places ks ∨ ∃ p q, Joins ks p q ∧ pos = p.merge q

/-- One piece of code takes the place of the pieces that it is put together from. -/
inductive Forms (c : Cursor) (ks : List Workpiece) : Workpiece → Cursor → Prop
  | expr {kind : ExprKind} {pos : Position} (parts : codes ks = kind.pieces) (layered : kind.Layered)
      (place : pos ∈ places ks) (name : kind.isName = true → ∃ t, .token t ∈ ks ∧ pos = t.pos) :
      Forms c ks (.expr ⟨c.nextId, pos, kind⟩) { c with nextId := c.nextId + 1 }
  | assignment {target value : Expr} {kind : ExprKind} (parts : codes ks = [.expr target, .expr value])
      (assigned : Grammar.assignment? target value = some kind) (place : target.pos.merge value.pos ∈ places ks) :
      Forms c ks (.expr ⟨c.nextId, target.pos.merge value.pos, kind⟩) { c with nextId := c.nextId + 1 }
  /-- The target of a compound assignment stands in the tree twice. -/
  | compound {target value total : Expr} {kind : ExprKind} (parts : codes ks = [.expr target, .expr value])
      (sum : total = ⟨c.nextId, target.pos.merge value.pos, .binary target .add value⟩)
      (assigned : Grammar.assignment? target total = some kind) (inner : total.pos ∈ places ks)
      (place : target.pos.merge total.pos ∈ places ks) :
      Forms c ks (.expr ⟨c.nextId + 1, target.pos.merge total.pos, kind⟩) { c with nextId := c.nextId + 2 }
  | call {input callee : Expr} {id : Nat} {pos : Position} {args : List Arg}
      (parts : codes ks = [.expr input, .expr ⟨id, pos, .call callee args⟩]) :
      Forms c ks (.expr ⟨c.nextId, pos, .call callee (args ++ [⟨none, input⟩])⟩) { c with nextId := c.nextId + 1 }
  | lambda {input : Expr} {id : Nat} {pos : Position} {f : Func}
      (parts : codes ks = [.expr input, .expr ⟨id, pos, .lambda f⟩]) :
      Forms c ks (.expr ⟨c.nextId + 2, pos, .call ⟨c.nextId + 1, pos, .group ⟨c.nextId, pos, .lambda f⟩⟩
        [⟨none, input⟩]⟩) { c with nextId := c.nextId + 3 }
  | template {callee : Expr} {fragments embedded : List Expr} {pos first second : Position}
      (parts : codes ks = .expr callee :: weave fragments embedded) (tight : callee.StandsAt 9)
      (place : pos ∈ places ks) (texts : Lists ks first) (values : Lists ks second) :
      Forms c ks (.expr ⟨c.nextId + 2, pos, .call callee [⟨none, ⟨c.nextId, first, .list fragments false⟩⟩,
        ⟨none, ⟨c.nextId + 1, second, .list embedded false⟩⟩]⟩) { c with nextId := c.nextId + 3 }
  | stmt {kind : StmtKind} {pos : Position} (parts : codes ks = kind.pieces) (place : pos ∈ places ks)
      (formed : kind.Formed ks pos) : Forms c ks (.stmt ⟨pos, kind⟩) c
  | factory {enumName caseName : String} {index : Nat} {names : List String} (parts : codes ks = []) :
      Forms c ks (.synthetic (Synthesis.factory c.nextId enumName caseName index names))
        { c with nextId := c.nextId + Synthesis.factoryIds names }
  | case {m : Member} {f : Func} {body : Stmt} (parts : codes ks = f.params.map .param ++ [.synthetic body])
      (method : m.kind = .method f) (made : f.body = some body) (bare : m.attributes = [] ∧ f.attributes = [])
      (concrete : m.has .isAbstract = false) (place : m.pos ∈ places ks) (own : f.pos ∈ places ks) :
      Forms c ks (.member m) c
  | func {f : Func} (parts : codes ks = f.attributes.map .expr ++ f.inner) (place : f.pos ∈ places ks) :
      Forms c ks (.func f) c
  | param {p : Param} (parts : codes ks = p.default.toList.map .expr) (place : p.pos ∈ places ks) :
      Forms c ks (.param p) c
  | noAccessors (parts : codes ks = []) : Forms c ks (.accessors none none) c
  | getter {f : Func} {setter : Option Func} (parts : codes ks = [.accessors none setter, .func f]) :
      Forms c ks (.accessors (some f) setter) c
  | setter {f : Func} {getter : Option Func} (parts : codes ks = [.accessors getter none, .func f]) :
      Forms c ks (.accessors getter (some f)) c
  | member {m : Member} (parts : codes ks = m.attributes.map .expr ++ m.kind.pieces) (place : m.pos ∈ places ks)
      (formed : m.Formed ks) : Forms c ks (.member m) c

/-! ## Promoted fields -/

namespace Grammar

/-- The field that a promoted parameter calls for. -/
def fieldOf (p : Param) : Member := ⟨p.name, .field p.type none, [.isPublic], [], p.pos⟩

/-- Members with fields for some parameters in between. -/
inductive Promoted (A : Param → Prop) : List Member → List Member → Prop
  | nil : Promoted A [] []
  | keep {m : Member} {ms ms' : List Member} (rest : Promoted A ms ms') : Promoted A (m :: ms) (m :: ms')
  | field {p : Param} {ms ms' : List Member} (called : A p) (rest : Promoted A ms ms') :
      Promoted A ms (fieldOf p :: ms')

namespace Promoted

variable {A : Param → Prop} {ms ms' ns ns' : List Member}

theorem append (first : Promoted A ms ms') (second : Promoted A ns ns') : Promoted A (ms ++ ns) (ms' ++ ns') := by
  induction first with
  | nil => exact second
  | keep _ ih => exact .keep ih
  | field called _ ih => exact .field called ih

theorem flatMap_eq {α : Type} {f : Member → List α} (bare : ∀ p, f (fieldOf p) = []) (h : Promoted A ms ms') :
    ms'.flatMap f = ms.flatMap f := by
  induction h with
  | nil => rfl
  | keep _ ih => rw [List.flatMap_cons, List.flatMap_cons, ih]
  | field _ _ ih => rw [List.flatMap_cons, bare, ih, List.nil_append]

end Promoted

theorem promotedFields_promoted {A : Param → Prop} {m : Member} (h : ∀ f, m.kind = .method f → ∀ p ∈ f.params, A p)
    (found : List Member) : Promoted A [] (promotedFields m found) := by
  unfold promotedFields
  split
  · rename_i f method
    refine List.foldlRecOn (motive := fun fields : List Member => Promoted A [] fields) _ _ .nil
      fun fields before p hp => ?_
    split
    · exact before
    · exact before.append (.field (h f method p (List.mem_filter.mp hp).1) .nil)
  · exact .nil

theorem withPromotedFields_promoted {A : Param → Prop} {ms : List Member}
    (h : ∀ m ∈ ms, ∀ f, m.kind = .method f → ∀ p ∈ f.params, A p) : Promoted A ms (withPromotedFields ms) := by
  have run (before found : List Member) (done : Promoted A before found) :
      Promoted A (before ++ ms) (ms.foldl (fun found m => found ++ promotedFields m found ++ [m]) found) := by
    induction ms generalizing before found with
    | nil => simpa using done
    | cons m ms ih =>
      obtain ⟨here, rest⟩ := List.forall_mem_cons.mp h
      have next := (done.append (promotedFields_promoted here found)).append (.keep (m := m) .nil)
      rw [List.foldl_cons]
      simpa using ih rest _ _ next
  exact run [] [] .nil

theorem withPromotedFields_fields (ms : List Member) : Promoted (fun _ => True) ms (withPromotedFields ms) :=
  withPromotedFields_promoted fun _ _ _ _ _ _ => trivial

end Grammar

/-! ## Steps -/

/-- The assignments that store the parameters of the given names, with ids from `id` on. -/
def Synthesis.promotions (id : Nat) (names : List String) : List Stmt :=
  names.mapIdx fun i name => promotion (id + i * promotionIds) name

inductive Step : List Workpiece → Cursor → List Workpiece → Cursor → Prop
  | read {s : List Workpiece} {c : Cursor} (more : c.rest ≠ []) : Step s c (s ++ [.token c.peek]) c.advance
  | ahead {s : List Workpiece} {c : Cursor} : Step s c (s ++ [.ahead c.peek c.rest.length]) c
  | settle {s s' : List Workpiece} {c : Cursor} {t : Token} {left : Nat} (moved : c.rest.length < left) :
      Step (s ++ .ahead t left :: s') c (s ++ .behind t.pos :: s') c
  | readBehind {s r : List Workpiece} {c : Cursor} {t : Token} {left : Nat} (more : c.rest ≠ []) :
      Step (s ++ .ahead t left :: r) c (s ++ .behind t.pos :: r ++ [.token c.peek]) c.advance
  | previous {s : List Workpiece} {c : Cursor} : Step s c (s ++ [.place c.previous.pos]) c
  | copy {s : List Workpiece} {c : Cursor} {x : Workpiece} {pos : Position} (at_ : x.pos? = some pos) :
      Step (s ++ [x]) c (s ++ [x] ++ [.place pos]) c
  | span {s : List Workpiece} {c : Cursor} {pos : Position} (at_ : pos ∈ origins s) :
      Step s c (s ++ [.place (pos.merge c.previous.pos)]) c
  | join {s : List Workpiece} {c : Cursor} {p q : Position} (at_ : p ∈ places s) (last : (places s).getLast? = some q) :
      Step s c (s ++ [.place (p.merge q)]) c
  | drop {s r : List Workpiece} {c : Cursor} {x : Workpiece} (loose : x.isCode = false) :
    Step (s ++ x :: r) c (s ++ r) c
  | form {s ks : List Workpiece} {c c' : Cursor} {x : Workpiece} (forms : Forms c ks x c') :
    Step (s ++ ks) c (s ++ [x]) c'
  | toBlock {s r : List Workpiece} {c : Cursor} {x : Stmt} : Step (s ++ .stmt x :: r) c (s ++ .stmt x.toBlock :: r) c
  | prepend {s s' : List Workpiece} {c : Cursor} {body : Stmt} {names : List String} :
      Step (s ++ .stmt body :: s') c (s ++ .stmt (Grammar.prepend (Synthesis.promotions c.nextId names) body) :: s')
        { c with nextId := c.nextId + names.length * Synthesis.promotionIds }
  | promote {s : List Workpiece} {c : Cursor} {ms : List Member} :
      Step (s ++ ms.map .member) c (s ++ (Grammar.withPromotedFields ms).map .member) c
  | within {s : List Workpiece} {c : Cursor} (more : c.rest ≠ []) :
      Step s c (s ++ [.token c.peek, .within c.inNamespace]) c.advance
  | exempt {s : List Workpiece} {c : Cursor} (free : c.inInterface = true) : Step s c (s ++ [.exempt]) c
  | enterNamespace {s ks : List Workpiece} {c : Cursor} (apart : .within false ∈ ks) (none : codes ks = []) :
      Step (s ++ ks) c (s ++ ks ++ [.namespaceBody]) { c with inNamespace := true }
  | leaveNamespace {s ks ds : List Workpiece} {c c' : Cursor} {pos : Position} {path : TypePath} {decls : List Stmt}
      (apart : .within false ∈ ks) (none : codes ks = []) (parts : codes ds = decls.map .stmt)
      (place : pos ∈ places (ks ++ ds)) (mark : c' = { c with inNamespace := false } ∨ c.rest = [] ∧ c' = c) :
      Step (s ++ ks ++ .namespaceBody :: ds) c (s ++ [.stmt ⟨pos, .inNamespace path decls⟩]) c'
  | enterInterface {s : List Workpiece} {c : Cursor} : Step s c (s ++ [.interfaceBody]) { c with inInterface := true }
  | leaveInterface {s ks ds : List Workpiece} {c : Cursor} {cls : Class} {ms : List Member} {t : Token}
      (interface : cls.kind = .interface) (attributes : codes ks = cls.attributes.map .expr)
      (parts : codes ds = ms.map .member) (members : cls.members = ms.map Grammar.asAbstract)
      (place : cls.pos ∈ places (ks ++ ds)) (keyword : .token t ∈ ks) (start : t.pos.start = cls.pos.start) :
      Step (s ++ ks ++ .interfaceBody :: ds) c (s ++ [.stmt ⟨cls.pos, .cls cls⟩]) { c with inInterface := false }

inductive Steps : List Workpiece → Cursor → List Workpiece → Cursor → Prop
  | refl {s : List Workpiece} {c : Cursor} : Steps s c s c
  | tail {s s' s'' : List Workpiece} {c c' c'' : Cursor} (run : Steps s c s' c') (step : Step s' c' s'' c'') :
      Steps s c s'' c''

namespace Steps

variable {s s' s'' : List Workpiece} {c c' c'' : Cursor}

theorem single (step : Step s c s' c') : Steps s c s' c' := .tail .refl step

theorem trans (run : Steps s c s' c') (run' : Steps s' c' s'' c'') : Steps s c s'' c'' := by
  induction run' with
  | refl => exact run
  | tail _ step ih => exact .tail (ih run) step

/-- What every step preserves, a run preserves. -/
theorem keep {I : List Workpiece → Cursor → Prop} (step : ∀ {s c s' c'}, Step s c s' c' → I s c → I s' c')
    (run : Steps s c s' c') (start : I s c) : I s' c' := by
  induction run with
  | refl => exact start
  | tail _ last ih => exact step last (ih start)

theorem advance (more : c.rest ≠ []) : Steps s c s c.advance :=
  .tail (single (.read more)) (by simpa using Step.drop (r := []) rfl)

/-- Everything but code may be left out. -/
theorem clear {ks : List Workpiece} : Steps (s ++ ks) c (s ++ codes ks) c := by
  induction ks generalizing s with
  | nil => exact .refl
  | cons x ks ih =>
    rw [codes_cons]
    split
    · simpa using ih (s := s ++ [x])
    · rename_i loose
      exact (single (.drop (Bool.eq_false_iff.mpr loose))).trans ih

end Steps

end PhaseLang
