import PhaseLang.Proofs.Grammar.Citations
import PhaseLang.Proofs.Grammar.Inside
import PhaseLang.Proofs.Redraw
import PhaseLang.Proofs.Typing.Runs

/-!
# Two runs side by side

Typing a piece of code and the same code redrawn, from two related states, gives types that are redrawn
alike and ends in related states, if the relation allows the few things that typing does to a state: a
`Weave` of the two runs. With a relation between a state and itself this says what a single run
preserves.
-/

namespace PhaseLang

variable {t u : Ty} {c : Class} {K : Class → Prop} {A : Citation → Prop} {D : Redraw}

/-! ## States that a run leads to -/

/-- The frames of the second state are those of the first, with names bound in the current one. -/
structure Typing.Leads (s t : Typing) : Prop where
  frames : s.scopes.current < s.scopes.size → ∃ names, s.scopes.Binds names t.scopes
  ns : t.ns = s.ns
  surface : t.surface = s.surface

theorem Ran.leads {names : List String} {vs : List Visit} {s t : Typing} {last : List Position}
    (h : Ran names vs s t last) : s.Leads t := ⟨fun valid => ⟨_, h.frames valid⟩, h.ns, h.surface⟩

namespace Typing.Leads

variable {s s' s'' : Typing}

theorem refl (s : Typing) : s.Leads s := (Ran.refl s).leads

theorem trans (h : s.Leads s') (h' : s'.Leads s'') : s.Leads s'' where
  frames valid := by
    obtain ⟨_, first⟩ := h.frames valid
    obtain ⟨_, second⟩ := h'.frames (first.valid valid)
    exact ⟨_, first.trans second⟩
  ns := h'.ns.trans h.ns
  surface := h'.surface.trans h.surface

theorem inFrame (h : s.enter.Leads s') : s.Leads s'.leave where
  frames valid := by
    obtain ⟨_, inner⟩ := h.frames (by simp [Typing.enter, Scopes.enter, Scopes.size])
    exact ⟨[], inner.inFrame valid⟩
  ns := h.ns
  surface := h.surface

theorem stack (h : s.Leads s') {top : Bindings Ty} {rest : List (Bindings Ty)} (hs : s.scopes.Stack (top :: rest)) :
    ∃ new, s'.scopes.Stack (top.insertAll new :: rest) := by
  obtain ⟨_, binds⟩ := h.frames (Scopes.Chain.lt_size hs)
  obtain ⟨new, -, hs'⟩ := binds.stack hs
  exact ⟨new, hs'⟩

end Typing.Leads

namespace Typer

variable {α β γ δ : Type}

/-! ## Pairs of computations -/

structure Woven (Rel : Typing → Typing → Prop) (R : α → β → Prop) (m : Typer α) (m' : Typer β) (s s' : Typing) :
    Prop where
  value : R (m.run s).1 (m'.run s').1
  left : s.Leads (after m s)
  right : s'.Leads (after m' s')
  rel : Rel (after m s) (after m' s')

def Weaves (Rel : Typing → Typing → Prop) (R : α → β → Prop) (m : Typer α) (m' : Typer β) : Prop :=
  ∀ ⦃s s'⦄, Rel s s' → Woven Rel R m m' s s'

/-- Two runs of one computation. -/
def Repeats (Rel : Typing → Typing → Prop) (R : α → α → Prop) (m : Typer α) : Prop := Weaves Rel R m m

section
variable {Rel : Typing → Typing → Prop} {R : α → β → Prop} {S : γ → δ → Prop} {m : Typer α} {m' : Typer β}

theorem Weaves.of_notes {ps ps' : List Position} (notes : Notes ps m) (notes' : Notes ps' m')
    (h : ∀ ⦃s s'⦄, Rel s s' → R (m.run s).1 (m'.run s').1 ∧ Rel (after m s) (after m' s')) : Weaves Rel R m m' :=
  fun s s' hs => ⟨(h hs).1, (Ran.of_idle notes s).leads, (Ran.of_idle notes' s').leads, (h hs).2⟩

theorem Weaves.bind {f : α → Typer γ} {f' : β → Typer δ} (h : Weaves Rel R m m')
    (hf : ∀ a b, R a b → Weaves Rel S (f a) (f' b)) : Weaves Rel S (m >>= f) (m' >>= f') := by
  intro s s' hs
  have first := h hs
  have second := hf _ _ first.value first.rel
  exact ⟨second.value, first.left.trans second.left, first.right.trans second.right, second.rel⟩

theorem Weaves.andThen {n : Typer γ} {n' : Typer δ} (h : Weaves Rel R m m') (hn : Weaves Rel S n n') :
    Weaves Rel S (m >>= fun _ => n) (m' >>= fun _ => n') := h.bind fun _ _ _ => hn

theorem Weaves.mono {R' : α → β → Prop} (h : Weaves Rel R m m') (hR : ∀ a b, R a b → R' a b) : Weaves Rel R' m m' :=
  fun _ _ hs => ⟨hR _ _ (h hs).value, (h hs).left, (h hs).right, (h hs).rel⟩

theorem weaves_pure {a : α} {b : β} (h : R a b) : Weaves Rel R (pure a) (pure b) :=
  fun s s' hs => ⟨h, .refl s, .refl s', hs⟩

theorem weaves_ite {b : Prop} [Decidable b] {n : Typer α} {n' : Typer β} (hm : Weaves Rel R m m')
    (hn : Weaves Rel R n n') : Weaves Rel R (if b then m else n) (if b then m' else n') := by
  split
  · exact hm
  · exact hn

theorem weaves_get {g : Typing → Typer α} {g' : Typing → Typer β}
    (h : ∀ ⦃s s'⦄, Rel s s' → Weaves Rel R (g s) (g' s')) : Weaves Rel R (get >>= g) (get >>= g') :=
  fun _ _ hs => ⟨(h hs hs).value, (h hs hs).left, (h hs hs).right, (h hs hs).rel⟩

end

end Typer

theorem TypeTable.get?_insert (table : TypeTable) (id other : Nat) (t : Ty) :
    (table.insert id t).get? other = if other = id then some t else table.get? other := by
  simp only [insert, get?, List.lookup_cons]
  by_cases h : other = id
  · simp [h]
  · rw [if_neg h, beq_eq_false_iff_ne.mpr h]

theorem Typer.after_expr (e : Expr) (s : Typing) : after (expr e) s = { after (exprKind e.pos e.kind) s with
      table := (after (exprKind e.pos e.kind) s).table.insert e.id ((exprKind e.pos e.kind).run s).1 } := by
  obtain ⟨id, pos, kind⟩ := e
  rfl

/-! ## Paths in types -/

namespace Cited

theorem mem_ofMembers_of_mem {m : Member} {x : Citation} (hx : x ∈ ofMember m) :
    ∀ {ms : List Member}, m ∈ ms → x ∈ ofMembers ms
  | m' :: ms, h => by
    simp only [ofMembers, List.mem_append]
    rcases List.mem_cons.mp h with rfl | h
    · exact .inl hx
    · exact .inr (mem_ofMembers_of_mem hx h)

theorem mem_ofClass_of_member {m : Member} {x : Citation} (hm : m ∈ c.members)
    (hx : x ∈ ofMemberKind m.kind) : x ∈ ofClass c := by
  obtain ⟨name, kind, parent, interfaces, members, attributes, pos⟩ := c
  simp only [ofClass, List.mem_append]
  refine .inl (.inr (mem_ofMembers_of_mem (m := m) ?_ hm))
  obtain ⟨_, _, _, _, _⟩ := m
  simp only [ofMember, List.mem_append]
  exact .inl hx

theorem mem_ofClass_of_ancestor {p : TypePath} (h : p ∈ Typer.ancestors c) : .path p ∈ ofClass c := by
  simp only [Typer.ancestors, List.mem_append] at h
  rcases h with (h | h) | h
  · obtain ⟨name, kind, parent, interfaces, members, attributes, pos⟩ := c
    simp only [ofClass, ofPath, List.mem_append, List.mem_map]
    exact .inl (.inl (.inl ⟨p, h, rfl⟩))
  · obtain ⟨m, hm, used⟩ := List.mem_filterMap.mp h
    refine mem_ofClass_of_member hm ?_
    split at used
    · rename_i path hk
      rw [hk, Option.some.inj used]
      simp [ofMemberKind]
    · cases used
  · split at h
    · obtain ⟨name, kind, parent, interfaces, members, attributes, pos⟩ := c
      simp only [ofClass, ofPaths, List.mem_append, List.mem_map]
      exact .inl (.inl (.inr ⟨p, h, rfl⟩))
    · cases h

end Cited

namespace Ty.Fits

variable {A : Citation → Prop} {t : Ty}

theorem any : Ty.Fits A .any := by simp [Ty.Fits, Ty.cited]

theorem void : Ty.Fits A .void := by simp [Ty.Fits, Ty.cited]

theorem func {f : Func} (h : PhaseLang.Fits A (Cited.ofFunc f)) : Ty.Fits A (.func f) := fun p hp => h (.path p) hp

theorem nonNull (h : t.Fits A) : t.nonNull.Fits A := by
  cases t <;> exact h

theorem of_class? (h : t.Fits A) (hc : t.class? = some c) :
    ∀ p, .path p ∈ Cited.ofClass c → A (.path p) := by
  intro p hp
  have h := h.nonNull
  unfold Ty.class? at hc
  split at hc
  · rename_i c' ht
    cases hc
    rw [ht] at h
    exact h p hp
  · rename_i c' ht
    cases hc
    rw [ht] at h
    exact h p hp
  · cases hc

end Ty.Fits

/-! ## Types -/

/-- What a type becomes when the tree is redrawn. -/
inductive Redraw.Draws (D : Redraw) : Ty → Ty → Prop
  | nullable {t u : Ty} (h : Draws D t u) : Draws D (.nullable t) (.nullable u)
  | void : Draws D .void .void
  | any : Draws D .any .any
  | unknown (path : Option TypePath) : Draws D (.unknown path) (.unknown path)
  | func (f : Func) : Draws D (.func f) (.func (D.func f))
  | classOf (c : Class) : Draws D (.classOf c) (.classOf (D.cls c))
  | objectOf (c : Class) : Draws D (.objectOf c) (.objectOf (D.cls c))

theorem Redraw.Draws.refl_eq (h : Redraw.refl.Draws t u) : u = t := by
  induction h with
  | nullable _ ih => rw [ih]
  | _ => rfl

theorem Redraw.draws_refl : ∀ t : Ty, Redraw.refl.Draws t t
  | .nullable t => .nullable (draws_refl t)
  | .void => .void
  | .any => .any
  | .unknown path => .unknown path
  | .func f => .func f
  | .classOf c => .classOf c
  | .objectOf c => .objectOf c

/-- The type is about classes of `K`. -/
def Ty.Within (K : Class → Prop) : Ty → Prop
  | nullable inner => inner.Within K
  | classOf c | objectOf c => K c
  | _ => True

theorem Ty.Within.nonNull (h : t.Within K) : t.nonNull.Within K := by
  cases t <;> exact h

theorem Ty.within_true (t : Ty) : t.Within fun _ => True := by
  induction t with
  | nullable _ ih => exact ih
  | _ => trivial

/-- A type of a program and its counterpart in the redrawn one. -/
structure Twin (D : Redraw) (A : Citation → Prop) (K : Class → Prop) (t u : Ty) : Prop where
  drawn : D.Draws t u
  fits : t.Fits A
  within : t.Within K

abbrev Twin? (D : Redraw) (A : Citation → Prop) (K : Class → Prop) : Option Ty → Option Ty → Prop :=
  Option.Rel (Twin D A K)

namespace Twin

variable {D : Redraw} {A : Citation → Prop} {K : Class → Prop} {t u : Ty}

theorem any : Twin D A K .any .any := ⟨.any, .any, trivial⟩

theorem void : Twin D A K .void .void := ⟨.void, .void, trivial⟩

theorem same (h : t.Fits A) : Twin .refl A (fun _ => True) t t := ⟨Redraw.draws_refl t, h, t.within_true⟩

theorem nullable (h : Twin D A K t u) : Twin D A K (.nullable t) (.nullable u) := ⟨.nullable h.drawn, h.fits, h.within⟩

theorem nonNull (h : Twin D A K t u) : Twin D A K t.nonNull u.nonNull := by
  obtain ⟨drawn, fits, within⟩ := h
  cases drawn with
  | nullable inner => exact ⟨inner, fits, within⟩
  | _ => exact ⟨by constructor, fits, within⟩

theorem isInformative (h : Twin D A K t u) : u.isInformative = t.isInformative := by
  cases h.drawn <;> rfl

theorem class? (h : Twin D A K t u) : u.class? = t.class?.map D.cls := by
  have inner := h.nonNull.drawn
  unfold Ty.class?
  generalize t.nonNull = a at inner
  generalize u.nonNull = b at inner
  cases inner <;> rfl

end Twin

theorem Twin?.same {t : Option Ty} (h : ∀ u ∈ t, u.Fits A) : Twin? .refl A (fun _ => True) t t := by
  cases t with
  | none => exact .none
  | some t => exact .some (.same (h t rfl))

theorem Twin?.getD {t u : Option Ty} (h : Twin? D A K t u) :
    Twin D A K (t.getD .any) (u.getD .any) := by
  cases h with
  | none => exact .any
  | some h => exact h

theorem Twin?.or {t u t' u' : Option Ty} (h : Twin? D A K t u)
    (h' : Twin? D A K t' u') : Twin? D A K (t.or t') (u.or u') := by
  cases h with
  | none => exact h'
  | some h => exact .some h

/-! ## Weaves -/

open Typer in
/-- What a relation between two runs has to allow. The names that are asked for, and the expressions
that are typed, are those with the property `A`, and the classes that are declared those of `K`. -/
structure Weave (D : Redraw) (A : Citation → Prop) (K : Class → Prop) (Rel : Typing → Typing → Prop) : Prop where
  lawful : D.Lawful
  scopes : ∀ ⦃s s'⦄, Rel s s' → ∀ name, Twin? D A K (s.scopes.resolve name) (s'.scopes.resolve name)
  builtin : ∀ b : Builtin, A (.path (.toAbsolute (.ofName b.name)))
  resolveName : ∀ p, A (.path p) → Weaves Rel (Twin D A K) (resolveName p) (resolveName p)
  load : ∀ p, A (.imported p) → Weaves Rel (Twin D A K) (load p) (load p)
  report : ∀ pos message, Weaves Rel Eq (report pos message) (report (D.pos pos) message)
  declare :
      ∀ name ⦃t u⦄, Twin D A K t u → ∀ ⦃s s'⦄, Rel s s' → Rel (after (declare name t) s) (after (declare name u) s')
  record : ∀ e, A (.node e) → ∀ ⦃s s'⦄, Rel s s' →
    Woven Rel (Twin D A K) (exprKind e.pos e.kind) (exprKind (D.expr e).pos (D.expr e).kind) s s' →
    Rel (after (expr e) s) (after (expr (D.expr e)) s')
  /-- What the table says of the arms of a `match` that have just been typed. -/
  arms : ∀ cs ⦃s s'⦄, Rel (after (cases cs) s) (after (cases (cs.map D.case)) s') → Rel s s' →
    Twin D A K (firstArm (after (cases cs) s).table cs)
      (firstArm (after (cases (cs.map D.case)) s').table (cs.map D.case))
  enter : ∀ ⦃s s'⦄, Rel s s' → Rel s.enter s'.enter
  leave : ∀ ⦃s s' t t'⦄, Rel s s' → Rel t t' → s.enter.Leads t → s'.enter.Leads t' → Rel t.leave t'.leave
  /-- Entering a namespace. -/
  scope : ∀ p, A (.scope p) → ∀ ⦃s s'⦄, Rel s s' → Rel { s with ns := p.segments } { s' with ns := p.segments }
  /-- Going back to the namespace around it. -/
  back : ∀ ⦃s s' t t'⦄, Rel s s' → Rel t t' → Rel { t with ns := s.ns } { t' with ns := s'.ns }

theorem Typer.ancestors_redraw (h : D.Lawful) (c : Class) : ancestors (D.cls c) = ancestors c := by
  unfold ancestors
  rw [h.traits]
  obtain ⟨_, _, _, _, _, _, _⟩ := c
  rw [h.cls]

namespace Typer

variable {D : Redraw} {A : Citation → Prop} {K : Class → Prop} {Rel : Typing → Typing → Prop}

section
variable (hw : Weave D A K Rel)
include hw

/-! ## Resolving -/

theorem resolve_weaves {path : TypePath} (h : A (.path path)) :
    Weaves Rel (Twin D A K) (resolve path) (resolve path) := by
  refine (hw.resolveName path h).bind fun t u ht => weaves_pure ?_
  split
  · exact ht.nullable
  · exact ht

theorem resolveOr_weaves {path : Option TypePath} (h : ∀ p ∈ path, A (.path p)) :
    Weaves Rel (Twin D A K) (resolveOr .any path) (resolveOr .any path) := by
  cases path with
  | none => exact weaves_pure .any
  | some path => exact resolve_weaves hw (h path rfl)

theorem mapM_resolve_weaves {path : Option TypePath} (h : ∀ p ∈ path, A (.path p)) :
    Weaves Rel (Twin? D A K) (path.mapM resolve) (path.mapM resolve) := by
  cases path with
  | none => exact weaves_pure .none
  | some path => exact (resolve_weaves hw (h path rfl)).bind fun t u ht => weaves_pure (.some ht)

theorem builtin_weaves (b : Builtin) : Weaves Rel (Twin D A K) (builtin b) (builtin b) :=
  resolve_weaves hw (hw.builtin b)

/-! ## Members -/

theorem memberKindType_weaves {kind : MemberKind} (h : ∀ p, .path p ∈ Cited.ofMemberKind kind → A (.path p)) :
    Weaves Rel (Twin D A K) (memberKindType kind) (memberKindType (D.memberKind kind)) := by
  cases kind with
  | use path => exact weaves_pure .void
  | field type init =>
    refine resolveOr_weaves hw fun p hp => h p ?_
    simp [Cited.ofMemberKind, Cited.ofPath, Option.mem_def.mp hp]
  | property type getter setter =>
    refine resolveOr_weaves hw fun p hp => h p ?_
    simp [Cited.ofMemberKind, Cited.ofPath, Option.mem_def.mp hp]
  | method f => exact weaves_pure ⟨.func f, h, trivial⟩

theorem searchAll_weaves {search search' : Class → Typer (Option Ty)}
    (h : ∀ c, (∀ p, .path p ∈ Cited.ofClass c → A (.path p)) →
      Weaves Rel (Twin? D A K) (search c) (search' (D.cls c))) :
    ∀ {paths : List TypePath}, (∀ p ∈ paths, A (.path p)) →
    Weaves Rel (Twin? D A K) (searchAll search paths) (searchAll search' paths)
  | [], _ => weaves_pure .none
  | path :: paths, hp => by
    have rest := searchAll_weaves h fun p hm => hp p (List.mem_cons_of_mem _ hm)
    have found (c : Class) (hc : ∀ p, .path p ∈ Cited.ofClass c → A (.path p)) {k k' : Option Ty → Typer (Option Ty)}
        (hit : ∀ t, k (some t) = pure (some t)) (hit' : ∀ t, k' (some t) = pure (some t))
        (miss : k none = searchAll search paths) (miss' : k' none = searchAll search' paths) :
        Weaves Rel (Twin? D A K) (search c >>= k) (search' (D.cls c) >>= k') := by
      refine (h c hc).bind fun t u ht => ?_
      cases ht with
      | some twin =>
        rw [hit, hit']
        exact weaves_pure (.some twin)
      | none =>
        rw [miss, miss']
        exact rest
    refine (resolve_weaves hw (hp path (List.mem_cons_self ..))).bind fun t u ht => ?_
    obtain ⟨drawn, fits, -⟩ := ht
    cases drawn with
    | classOf c => exact found c fits (fun _ => rfl) (fun _ => rfl) rfl rfl
    | objectOf c => exact found c fits (fun _ => rfl) (fun _ => rfl) rfl rfl
    | _ => exact weaves_pure (.some .any)

theorem memberType_weaves (name : String) : ∀ (limit : Nat) (c : Class),
    (∀ p, .path p ∈ Cited.ofClass c → A (.path p)) →
    Weaves Rel (Twin? D A K) (memberType name limit c) (memberType name limit (D.cls c)) := by
  have own {c : Class} {m : Member} (hc : ∀ p, .path p ∈ Cited.ofClass c → A (.path p))
      (hm : c.ownMember? name = some m) :
      Weaves Rel (Twin? D A K) (do return some (← memberKindType m.kind))
        (do return some (← memberKindType (D.member m).kind)) := by
    have kind : (D.member m).kind = D.memberKind m.kind := by
      obtain ⟨_, _, _, _, _⟩ := m
      rw [hw.lawful.member]
    rw [kind]
    refine (memberKindType_weaves hw fun p hp => hc p ?_).bind fun t u ht => weaves_pure (.some ht)
    exact Cited.mem_ofClass_of_member (List.mem_of_find?_eq_some hm) hp
  have inherited {c : Class} (hc : ∀ p, .path p ∈ Cited.ofClass c → A (.path p)) :
      ∀ p ∈ ancestors c, A (.path p) := fun p hp => hc p (Cited.mem_ofClass_of_ancestor hp)
  intro limit
  induction limit with
  | zero =>
    intro c hc
    unfold memberType
    rw [hw.lawful.ownMember?, ancestors_redraw hw.lawful]
    cases found : c.ownMember? name with
    | some m => exact own hc found
    | none => exact searchAll_weaves hw (fun _ _ => weaves_pure (.some .any)) (inherited hc)
  | succ limit ih =>
    intro c hc
    unfold memberType
    rw [hw.lawful.ownMember?, ancestors_redraw hw.lawful]
    cases found : c.ownMember? name with
    | some m => exact own hc found
    | none => exact searchAll_weaves hw ih (inherited hc)

theorem member_weaves (h : Twin D A K t u) (name : String) (pos : Position) :
    Weaves Rel (Twin D A K) (member t name pos) (member u name (D.pos pos)) := by
  unfold member
  rw [h.class?]
  cases hc : t.class? with
  | none => exact weaves_pure .any
  | some c =>
    refine (memberType_weaves hw name inheritanceLimit c (h.fits.of_class? hc)).bind fun t u ht => ?_
    cases ht with
    | some twin => exact weaves_pure twin
    | none =>
      have name : (D.cls c).name = c.name := by cases c; rw [hw.lawful.cls]
      simp only [name]
      exact (hw.report pos _).andThen <| weaves_pure .any

theorem superMember_weaves (method : String) : Weaves Rel (Twin D A K) (superMember method) (superMember method) := by
  refine weaves_get fun s s' hs => ?_
  have this := hw.scopes hs "this"
  dsimp only
  generalize s.scopes.resolve "this" = a at this
  generalize s'.scopes.resolve "this" = b at this
  cases this with
  | none => exact weaves_pure .any
  | @some t u twin =>
    simp only [Option.bind_some, twin.class?]
    cases hc : t.class? with
    | none => exact weaves_pure .any
    | some c =>
      simp only [Option.map_some, Option.bind_some, show (D.cls c).parent = c.parent by cases c; rw [hw.lawful.cls]]
      cases hp : c.parent with
      | none => exact weaves_pure .any
      | some parent =>
        have ancestor : parent ∈ ancestors c := by simp [ancestors, hp]
        have fits := twin.fits.of_class? hc parent (Cited.mem_ofClass_of_ancestor ancestor)
        refine (resolve_weaves hw fits).bind fun t u ht => ?_
        have more (c : Class) (hc : ∀ p, .path p ∈ Cited.ofClass c → A (.path p)) : Weaves Rel (Twin D A K)
            (do return (← memberType method (inheritanceLimit - 1) c).getD .any)
            (do return (← memberType method (inheritanceLimit - 1) (D.cls c)).getD .any) :=
          (memberType_weaves hw method _ c hc).bind fun t u ht => weaves_pure ht.getD
        obtain ⟨drawn, fits, -⟩ := ht
        cases drawn with
        | classOf c => exact more c fits
        | objectOf c => exact more c fits
        | _ => exact weaves_pure .any

/-! ## Values -/

theorem classBinding_weaves (name : String) (pos : Position) :
    Weaves Rel (Twin D A K) (classBinding name pos) (classBinding name (D.pos pos)) := by
  refine weaves_get fun s s' hs => ?_
  have found := hw.scopes hs name
  generalize s.scopes.resolve name = a at found
  generalize s'.scopes.resolve name = b at found
  cases found with
  | some twin => exact weaves_pure twin
  | none => exact (hw.report pos _).andThen <| weaves_pure .any

theorem named_weaves (name : String) (pos : Position) :
    Weaves Rel (Twin D A K) (named name pos) (named name (D.pos pos)) := by
  refine weaves_get fun s s' hs => ?_
  have found := hw.scopes hs name
  generalize s.scopes.resolve name = a at found
  generalize s'.scopes.resolve name = b at found
  cases found with
  | some twin => exact weaves_pure twin
  | none => exact (hw.report pos _).andThen <| weaves_pure .any

theorem callKnown_weaves (h : Twin D A K t u) : Weaves Rel (Twin D A K) (callKnown t) (callKnown u) := by
  obtain ⟨drawn, fits, within⟩ := h
  have result (f f' : Func) (same : f'.result = f.result) (fits : Ty.Fits A (.func f)) :
      Weaves Rel (Twin D A K) (callKnown (.func f)) (callKnown (.func f')) := by
    change Weaves Rel (Twin D A K) (resolveOr .any f.result) (resolveOr .any f'.result)
    rw [same]
    refine resolveOr_weaves hw fun p hp => fits p ?_
    obtain ⟨_, _, _, result, _, _⟩ := f
    have hp : result = some p := hp
    simp [Ty.cited, Cited.ofFunc, Cited.ofPath, hp]
  cases drawn with
  | func f => exact result f _ (by cases f; rw [hw.lawful.func]) fits
  | classOf c => exact weaves_pure ⟨.objectOf c, fits, within⟩
  | objectOf c => exact weaves_pure ⟨.objectOf c, fits, within⟩
  | _ => exact weaves_pure .any

theorem callResult_weaves (h : Twin D A K t u) : Weaves Rel (Twin D A K) (callResult t) (callResult u) := by
  have inner := h.nonNull
  unfold callResult
  generalize t.nonNull = a at inner
  generalize u.nonNull = b at inner
  have known := callKnown_weaves hw inner
  obtain ⟨drawn, fits, within⟩ := inner
  cases drawn with
  | unknown path =>
    cases path with
    | none => exact known
    | some path =>
      refine (resolve_weaves hw (fits path ?_)).bind fun t u ht => callKnown_weaves hw ht
      simp [Ty.cited, Cited.ofPath]
  | _ => exact known

omit hw in
/-- Tables that agree on what the arms of a `match` are recorded to be. -/
theorem firstArm_twin (lawful : D.Lawful) {table table' : TypeTable}
    {cs : List Case} (typed : ∀ c ∈ cs, ∀ pos e, c.body = [⟨pos, .expr e⟩] →
      Twin? D A K (table.typeOf? e) (table'.typeOf? (D.expr e))) :
    Twin D A K (firstArm table cs) (firstArm table' (cs.map D.case)) := by
  refine Twin?.getD ?_
  induction cs with
  | nil => exact .none
  | cons c cs ih =>
    obtain ⟨arm, rest⟩ := List.forall_mem_cons.mp typed
    have ih := ih rest
    obtain ⟨condition, body⟩ := c
    simp only [List.map_cons, List.findSome?_cons, Redraw.case]
    obtain _ | ⟨⟨pos, kind⟩, _ | ⟨_, _⟩⟩ := body
    · exact ih
    · simp only [List.map_cons, List.map_nil, lawful.stmt]
      cases kind with
      | expr e =>
        have found := arm pos e rfl
        simp only [Redraw.stmtKind]
        generalize table.typeOf? e = a at found
        generalize table'.typeOf? (D.expr e) = b at found
        cases found with
        | some twin => exact .some twin
        | none => exact ih
      | _ => exact ih
    · simp only [List.map_cons, lawful.stmt]
      cases kind <;> exact ih

/-! ## Frames and bindings -/

theorem declare_weaves (name : String) (h : Twin D A K t u) : Weaves Rel Eq (declare name t) (declare name u) :=
  fun s s' hs => ⟨rfl, (Ran.declare name t s).leads, (Ran.declare name u s').leads, hw.declare name h hs⟩

theorem inFrame_weaves {α β : Type} {R : α → β → Prop} {m : Typer α} {m' : Typer β} (h : Weaves Rel R m m') :
    Weaves Rel R (inFrame m) (inFrame m') := by
  intro s s' hs
  have inner := h (hw.enter hs)
  exact ⟨inner.value, inner.left.inFrame, inner.right.inFrame, hw.leave hs inner.rel inner.left inner.right⟩

theorem inNamespace_weaves {p : TypePath} (hp : A (.scope p)) {m m' : Typer Unit} (h : Weaves Rel Eq m m') :
    Weaves Rel Eq (Typer.inNamespace p.segments m) (Typer.inNamespace p.segments m') := by
  intro s s' hs
  have inner := h (hw.scope p hp hs)
  exact ⟨inner.value, ⟨inner.left.frames, rfl, inner.left.surface⟩, ⟨inner.right.frames, rfl, inner.right.surface⟩,
    hw.back hs inner.rel⟩

theorem use_weaves {path : TypePath} {kind : UseKind} (h : Fits A (Cited.ofUse path kind)) :
    Weaves Rel Eq (use path kind) (use path kind) := by
  have one {name : String} {source : TypePath} (hs : A (.imported source)) :
      Weaves Rel Eq (do declare name (← load source)) (do declare name (← load source)) :=
    (hw.load source hs).bind fun _ _ ht => declare_weaves hw name ht
  obtain _ | target | targets := kind
  · exact one (h _ (by simp [Cited.ofUse]))
  · exact one (h _ (by simp [Cited.ofUse]))
  · induction targets with
    | nil => exact weaves_pure rfl
    | cons target targets ih =>
      simp only [Cited.ofUse, List.map_cons, fits_cons] at h
      exact (one h.1).andThen <| ih h.2

theorem declare_or_weaves (name : String) {given given' inferred inferred' : Option Ty} (hg : Twin? D A K given given')
    (hi : Twin? D A K inferred inferred') :
    Weaves Rel Eq (declare name ((given.or inferred).getD .any)) (declare name ((given'.or inferred').getD .any)) :=
  declare_weaves hw name (hg.or hi).getD

theorem bindLoop_weaves (key : String) (value : Option String) (target : Expr) :
    Weaves Rel Eq (bindLoop key value target) (bindLoop key value (D.expr target)) := by
  have first : Weaves Rel (Twin D A K) (loopKeyType value target) (loopKeyType value (D.expr target)) := by
    obtain ⟨_, _, kind⟩ := target
    rw [hw.lawful.expr]
    cases kind with
    | range =>
      cases value with
      | none => exact builtin_weaves hw _
      | some value => exact weaves_pure .any
    | _ => exact weaves_pure .any
  refine first.bind fun t u ht => (declare_weaves hw key ht).andThen <| ?_
  cases value with
  | none => exact weaves_pure rfl
  | some value => exact declare_weaves hw value .any

theorem bindCaught_weaves (name : String) {type : Option TypePath} (h : Fits A (Cited.ofPath type)) :
    Weaves Rel Eq (bindCaught name type) (bindCaught name type) :=
  (resolveOr_weaves hw (Cited.fits_ofPath.mp h)).bind fun _ _ ht => declare_weaves hw name ht

theorem bindSelf_weaves (h : Twin D A K (.objectOf c) (.objectOf (D.cls c))) :
    Weaves Rel Eq (bindSelf c) (bindSelf (D.cls c)) :=
  (declare_weaves hw "this" h).andThen <| declare_weaves hw "static" h

omit hw in
/-! ## Programs -/

omit hw in
mutual

theorem expr_weaves (hw : Weave D A K Rel) : ∀ e, Fits A (Cited.ofExpr e) → Fits K (Inside.ofExpr e) →
    Weaves Rel (Twin D A K) (expr e) (expr (D.expr e))
  | ⟨id, pos, kind⟩, h, k => by
    have inner := exprKind_weaves hw id pos kind h.head h.tail k
    intro s s' hs
    have woven := inner hs
    have rel := hw.record ⟨id, pos, kind⟩ h.head hs (by rwa [hw.lawful.expr])
    rw [hw.lawful.expr] at rel ⊢
    exact ⟨woven.value, (expr_ran [] s _).leads, (expr_ran [] s' _).leads, rel⟩

theorem exprKind_weaves (hw : Weave D A K Rel) (id : Nat) (pos : Position) :
    ∀ kind, A (.node ⟨id, pos, kind⟩) → Fits A (Cited.ofKind kind) → Fits K (Inside.ofKind kind) →
    Weaves Rel (Twin D A K) (exprKind pos kind) (exprKind (D.pos pos) (D.exprKind kind))
  | .attribute path args, _, h, k => (arguments_weaves hw args h.tail k).andThen <| weaves_pure .any
  | .assign _ value, _, h, k | .group value, _, h, k => expr_weaves hw value h k
  | .binary lhs op rhs, _, h, k => by
    refine (expr_weaves hw lhs h.left k.left).bind fun t u ht => (expr_weaves hw rhs h.right k.right).andThen <| ?_
    exact weaves_ite (builtin_weaves hw _) (weaves_ite (builtin_weaves hw _) (weaves_pure ht))
  | .unary op operand _, _, h, k => by
    refine (expr_weaves hw operand h k).bind fun t u ht => ?_
    exact weaves_ite (builtin_weaves hw _) (weaves_pure ht)
  | .isType operand _, _, h, k => (expr_weaves hw operand h.left k).andThen <| builtin_weaves hw _
  | .logical lhs _ rhs, _, h, k | .range lhs rhs, _, h, k =>
    (expr_weaves hw lhs h.left k.left).andThen <| (expr_weaves hw rhs h.right k.right).andThen <| builtin_weaves hw _
  | .call callee args, _, h, k => by
    refine (expr_weaves hw callee h.left k.left).bind fun t u ht =>
      (arguments_weaves hw args h.right k.right).andThen <| ?_
    exact callResult_weaves hw ht
  | .get target field, _, h, k => by
    rw [Redraw.exprKind]
    obtain ⟨_, _, _, rfl⟩ | computed := field.ident_or
    · rw [hw.lawful.expr _ _ (.ident _)]
      exact (expr_weaves hw target h.left k.left).bind fun t u ht => member_weaves hw ht _ _
    · rw [exprKind_get pos computed, exprKind_get _ ((hw.lawful.ident? field).trans computed)]
      refine (expr_weaves hw target h.left k.left).andThen <| (expr_weaves hw field h.right k.right).andThen <| ?_
      exact weaves_pure .any
  | .set target field value, _, h, k => by
    rw [Redraw.exprKind]
    obtain ⟨_, _, _, rfl⟩ | computed := field.ident_or
    · rw [hw.lawful.expr _ _ (.ident _)]
      refine (expr_weaves hw target h.left.left k.left.left).andThen <|
        (expr_weaves hw value h.right k.right).andThen <| ?_
      exact weaves_pure .void
    · rw [exprKind_set pos computed, exprKind_set _ ((hw.lawful.ident? field).trans computed)]
      refine (expr_weaves hw target h.left.left k.left.left).andThen <| ?_
      refine (expr_weaves hw field h.left.right k.left.right).andThen <|
        (expr_weaves hw value h.right k.right).andThen <| ?_
      exact weaves_pure .void
  | .indexGet target index, _, h, k => by
    refine (expr_weaves hw target h.left k.left).andThen <| (optional_weaves hw index h.right k.right).andThen <| ?_
    exact weaves_pure .any
  | .indexSet target index value, _, h, k => by
    refine (expr_weaves hw target h.left.left k.left.left).andThen <| ?_
    refine (optional_weaves hw index h.left.right k.left.right).andThen <|
      (expr_weaves hw value h.right k.right).andThen <| ?_
    exact weaves_pure .void
  | .ternary cond yes no, _, h, k => by
    refine (expr_weaves hw cond h.left.left k.left.left).andThen <| ?_
    refine (expr_weaves hw yes h.left.right k.left.right).bind fun t u ht => ?_
    exact (expr_weaves hw no h.right k.right).andThen <| weaves_pure ht
  | .super method, _, _, _ => superMember_weaves hw method
  | .path path, _, h, _ => resolve_weaves hw h.head
  | .this, _, _, _ | .static, _, _, _ => classBinding_weaves hw _ pos
  | .literal value, _, _, _ => builtin_weaves hw _
  | .list items native, _, h, k => (exprs_weaves hw items h k).andThen <| builtin_weaves hw _
  | .map es native, _, h, k => (entries_weaves hw es h k).andThen <| builtin_weaves hw _
  | .lambda f, _, h, k => (function_weaves hw f h k).andThen <| weaves_pure ⟨.func f, .func h, trivial⟩
  | .ident name, _, _, _ => named_weaves hw name pos
  | .choose target cs, n, h, k => by
    refine (expr_weaves hw target h.left k.left).andThen fun s s' hs => ?_
    have woven := cases_weaves hw cs h.right k.right hs
    exact ⟨hw.arms cs woven.rel hs, woven.left, woven.right, woven.rel⟩

theorem optional_weaves (hw : Weave D A K Rel) : ∀ e, Fits A (Cited.ofOption e) → Fits K (Inside.ofOption e) →
    Weaves Rel (Twin? D A K) (optional e) (optional (e.map D.expr))
  | none, _, _ => weaves_pure .none
  | some e, h, k => (expr_weaves hw e h k).bind fun _ _ ht => weaves_pure (.some ht)

theorem exprs_weaves (hw : Weave D A K Rel) : ∀ es, Fits A (Cited.ofExprs es) → Fits K (Inside.ofExprs es) →
    Weaves Rel Eq (exprs es) (exprs (es.map D.expr))
  | [], _, _ => weaves_pure rfl
  | e :: es, h, k => (expr_weaves hw e h.left k.left).andThen <| exprs_weaves hw es h.right k.right

theorem arguments_weaves (hw : Weave D A K Rel) : ∀ as, Fits A (Cited.ofArgs as) → Fits K (Inside.ofArgs as) →
    Weaves Rel Eq (arguments as) (arguments (as.map D.arg))
  | [], _, _ => weaves_pure rfl
  | ⟨_, e⟩ :: as, h, k => (expr_weaves hw e h.left k.left).andThen <| arguments_weaves hw as h.right k.right

theorem entries_weaves (hw : Weave D A K Rel) : ∀ es, Fits A (Cited.ofEntries es) → Fits K (Inside.ofEntries es) →
    Weaves Rel Eq (entries es) (entries (es.map D.entry))
  | [], _, _ => weaves_pure rfl
  | ⟨key, value⟩ :: es, h, k => by
    refine (expr_weaves hw key h.left.left k.left.left).andThen <|
      (expr_weaves hw value h.left.right k.left.right).andThen <| ?_
    exact entries_weaves hw es h.right k.right

theorem cases_weaves (hw : Weave D A K Rel) : ∀ cs, Fits A (Cited.ofCases cs) → Fits K (Inside.ofCases cs) →
    Weaves Rel Eq (cases cs) (cases (cs.map D.case))
  | [], _, _ => weaves_pure rfl
  | ⟨condition, body⟩ :: cs, h, k => by
    have arm := (optional_weaves hw condition h.left.left k.left.left).andThen <|
      stmts_weaves hw body h.left.right k.left.right
    exact (inFrame_weaves hw arm).andThen <| cases_weaves hw cs h.right k.right

theorem stmt_weaves (hw : Weave D A K Rel) : ∀ x, Fits A (Cited.ofStmt x) → Fits K (Inside.ofStmt x) →
    Weaves Rel Eq (stmt x) (stmt (D.stmt x))
  | ⟨pos, kind⟩, h, k => by
    rw [hw.lawful.stmt]
    exact stmtKind_weaves hw kind h k

theorem stmtKind_weaves (hw : Weave D A K Rel) :
    ∀ kind, Fits A (Cited.ofStmtKind kind) → Fits K (Inside.ofStmtKind kind) →
    Weaves Rel Eq (stmtKind kind) (stmtKind (D.stmtKind kind))
  | .expr e, h, k | .raise e, h, k => (expr_weaves hw e h k).andThen <| weaves_pure rfl
  | .use path kind _, h, _ => use_weaves hw h
  | .inNamespace path decls, h, k => inNamespace_weaves hw h.head (stmts_weaves hw decls h.tail k)
  | .var name type init, h, k => by
    refine (mapM_resolve_weaves hw (Cited.fits_ofPath.mp h.left)).bind fun _ _ hg => ?_
    exact (optional_weaves hw init h.right k).bind fun _ _ hi => declare_or_weaves hw name hg hi
  | .global name, _, _ => declare_weaves hw name .any
  | .attempt body handlers, h, k =>
    inFrame_weaves hw ((stmt_weaves hw body h.left k.left).andThen <| stmts_weaves hw handlers h.right k.right)
  | .handler name type body, h, k =>
    inFrame_weaves hw ((bindCaught_weaves hw name h.left).andThen <| stmt_weaves hw body h.right k)
  | .loop cond body _, h, k =>
    inFrame_weaves hw ((expr_weaves hw cond h.left k.left).andThen <| stmt_weaves hw body h.right k.right)
  | .forIn key value target body, h, k => by
    rw [Redraw.stmtKind, stmtKind_forIn, stmtKind_forIn]
    exact inFrame_weaves hw ((expr_weaves hw target h.left k.left).andThen <|
      (bindLoop_weaves hw key value target).andThen <| stmt_weaves hw body h.right k.right)
  | .branch cond yes no, h, k => by
    refine inFrame_weaves hw ((expr_weaves hw cond h.left.left k.left.left).andThen <| ?_)
    exact (inFrame_weaves hw (stmt_weaves hw yes h.left.right k.left.right)).andThen <|
      alternative_weaves hw no h.right k.right
  | .switch target cs, h, k =>
    inFrame_weaves hw ((expr_weaves hw target h.left k.left).andThen <| cases_weaves hw cs h.right k.right)
  | .block body, h, k => inFrame_weaves hw (stmts_weaves hw body h k)
  | .ret value, h, k => (optional_weaves hw value h k).andThen <| weaves_pure rfl
  | .func f, h, k => by
    have name : (D.func f).name = f.name := by cases f; rw [hw.lawful.func]
    rw [Redraw.stmtKind, stmtKind, stmtKind, name]
    exact (declare_weaves hw f.name ⟨.func f, .func h.tail, trivial⟩).andThen <| function_weaves hw f h.tail k
  | .cls c, h, k => cls_weaves hw c h.tail k

theorem stmts_weaves (hw : Weave D A K Rel) : ∀ xs, Fits A (Cited.ofStmts xs) → Fits K (Inside.ofStmts xs) →
    Weaves Rel Eq (stmts xs) (stmts (xs.map D.stmt))
  | [], _, _ => weaves_pure rfl
  | x :: xs, h, k => (stmt_weaves hw x h.left k.left).andThen <| stmts_weaves hw xs h.right k.right

theorem alternative_weaves (hw : Weave D A K Rel) : ∀ x, Fits A (Cited.ofBody x) → Fits K (Inside.ofBody x) →
    Weaves Rel Eq (alternative x) (alternative (x.map D.stmt))
  | none, _, _ => weaves_pure rfl
  | some x, h, k => inFrame_weaves hw (stmt_weaves hw x h k)

theorem body_weaves (hw : Weave D A K Rel) : ∀ x, Fits A (Cited.ofBody x) → Fits K (Inside.ofBody x) →
    Weaves Rel Eq (body x) (body (x.map D.stmt))
  | none, _, _ => weaves_pure rfl
  | some x, h, k => stmt_weaves hw x h k

theorem function_weaves (hw : Weave D A K Rel) : ∀ f, Fits A (Cited.ofFunc f) → Fits K (Inside.ofFunc f) →
    Weaves Rel Eq (function f) (function (D.func f))
  | ⟨_, ps, b, _, attributes, _⟩, h, k => by
    rw [hw.lawful.func]
    exact inFrame_weaves hw ((exprs_weaves hw attributes h.right k.left.left).andThen <|
      (params_weaves hw ps h.left.left.left k.left.right).andThen <| body_weaves hw b h.left.left.right k.right)

theorem params_weaves (hw : Weave D A K Rel) : ∀ ps, Fits A (Cited.ofParams ps) → Fits K (Inside.ofParams ps) →
    Weaves Rel Eq (params ps) (params (ps.map D.param))
  | [], _, _ => weaves_pure rfl
  | ⟨name, type, default, _, _⟩ :: ps, h, k => by
    refine (mapM_resolve_weaves hw (Cited.fits_ofPath.mp h.left.left)).bind fun _ _ hg => ?_
    refine (optional_weaves hw default h.left.right k.left).bind fun _ _ hi => ?_
    exact (declare_or_weaves hw name hg hi).andThen <| params_weaves hw ps h.right k.right

theorem cls_weaves (hw : Weave D A K Rel) : ∀ c, Fits A (Cited.ofClass c) → Fits K (Inside.ofClass c) →
    Weaves Rel Eq (cls c) (cls (D.cls c))
  | ⟨name, kind, parent, interfaces, ms, attributes, pos⟩, h, k => by
    have self : Twin D A K (.classOf ⟨name, kind, parent, interfaces, ms, attributes, pos⟩) (.classOf (D.cls _)) :=
      ⟨.classOf _, fun p hp => h _ hp, k.head⟩
    have object : Twin D A K (.objectOf ⟨name, kind, parent, interfaces, ms, attributes, pos⟩) (.objectOf (D.cls _)) :=
      ⟨.objectOf _, self.fits, self.within⟩
    rw [cls_eq, cls_eq]
    have bound := bindSelf_weaves hw object
    rw [hw.lawful.cls] at self bound ⊢
    exact (declare_weaves hw name self).andThen <| inFrame_weaves hw (bound.andThen <|
      (exprs_weaves hw attributes h.right k.tail.left).andThen <| members_weaves hw ms h.left.right k.tail.right)

theorem members_weaves (hw : Weave D A K Rel) : ∀ ms, Fits A (Cited.ofMembers ms) → Fits K (Inside.ofMembers ms) →
    Weaves Rel Eq (members ms) (members (ms.map D.member))
  | [], _, _ => weaves_pure rfl
  | ⟨_, kind, _, attributes, _⟩ :: ms, h, k => by
    rw [List.map_cons, hw.lawful.member]
    refine (exprs_weaves hw attributes h.left.right k.left.left).andThen <| ?_
    exact (memberKind_weaves hw kind h.left.left k.left.right).andThen <| members_weaves hw ms h.right k.right

theorem memberKind_weaves (hw : Weave D A K Rel) :
    ∀ kind, Fits A (Cited.ofMemberKind kind) → Fits K (Inside.ofMemberKind kind) →
    Weaves Rel Eq (memberKind kind) (memberKind (D.memberKind kind))
  | .use _, _, _ => weaves_pure rfl
  | .field _ init, h, k => (optional_weaves hw init h.right k).andThen <| weaves_pure rfl
  | .property _ getter setter, h, k =>
    (accessor_weaves hw getter h.left.right k.left).andThen <| accessor_weaves hw setter h.right k.right
  | .method f, h, k => function_weaves hw f h k

theorem accessor_weaves (hw : Weave D A K Rel) : ∀ f, Fits A (Cited.ofAccessor f) → Fits K (Inside.ofAccessor f) →
    Weaves Rel Eq (accessor f) (accessor (f.map D.func))
  | none, _, _ => weaves_pure rfl
  | some f, h, k => function_weaves hw f h k

end

end

end Typer

end PhaseLang
