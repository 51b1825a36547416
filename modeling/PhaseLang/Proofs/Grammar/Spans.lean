import PhaseLang.Proofs.Grammar.Numbering

/-!
# Where the nodes of a program stand

A position that the grammar puts together runs from the start of a token to the end of one, and so does
that of every node of a program. Only statements that are synthesized stand in a file of their own.
-/

namespace PhaseLang

open Workpiece

variable {P : Position → Prop}

/-! ## The nodes in a piece -/

def StmtKind.cls? : StmtKind → Option Class
  | .cls c => some c
  | _ => none

/-- A method is a function of its own. -/
def MemberKind.parts : MemberKind → List Workpiece
  | .method f => [.func f]
  | kind => kind.pieces

namespace Workpiece

/-- Where a piece stands, its parts left out. -/
def spots : Workpiece → List Position
  | expr e => [e.pos]
  | stmt s => s.pos :: s.kind.cls?.toList.map (·.pos)
  | func f => [f.pos]
  | param p => [p.pos]
  | member m => [m.pos]
  | _ => []

def parts : Workpiece → List Workpiece
  | expr e => e.kind.pieces
  | stmt s => s.kind.pieces
  | func f => f.attributes.map expr ++ f.inner
  | param p => p.default.toList.map expr
  | accessors getter setter => (getter.toList ++ setter.toList).map func
  | member m => m.attributes.map expr ++ m.kind.parts
  | synthetic body => [stmt body]
  | _ => []

/-- What stands in a piece. -/
inductive Has (x : Workpiece) : Workpiece → Prop
  | self : Has x x
  | part {y z : Workpiece} (inner : Has x y) (mem : z ∈ y.parts) : Has x z

/-- `P` holds of where the nodes in a piece stand, outside the statements `S`. -/
inductive Stands (S : Stmt → Prop) (P : Position → Prop) : Workpiece → Prop
  | apart {s : Stmt} (h : S s) : Stands S P (.stmt s)
  | node {x : Workpiece} (own : ∀ pos ∈ x.spots, P pos) (inner : ∀ y ∈ x.parts, Stands S P y) : Stands S P x

structure Rooted (S : Stmt → Prop) (P : Position → Prop) (x : Workpiece) : Prop where
  own : ∀ pos ∈ x.spots, P pos
  inner : ∀ y ∈ x.parts, Stands S P y

variable {S : Stmt → Prop} {P : Position → Prop} {x y : Workpiece}

theorem Rooted.stands (h : Rooted S P x) : Stands S P x := .node h.own h.inner

theorem Stands.rooted (h : Stands S P x) : (∃ s, S s ∧ x = .stmt s) ∨ Rooted S P x := by
  cases h with
  | apart h => exact .inl ⟨_, h, rfl⟩
  | node own inner => exact .inr ⟨own, inner⟩

theorem Stands.has (h : Stands S P x) (within : x.Has y) :
    (∃ s, S s ∧ x.Has (.stmt s) ∧ (Workpiece.stmt s).Has y) ∨ Rooted S P y := by
  induction within with
  | self =>
    obtain ⟨s, made, rfl⟩ | rooted := h.rooted
    · exact .inl ⟨s, made, .self, .self⟩
    · exact .inr rooted
  | part inner mem ih =>
    obtain ⟨s, made, there, below⟩ | rooted := ih
    · exact .inl ⟨s, made, there, below.part mem⟩
    · obtain ⟨s, made, rfl⟩ | rooted := (rooted.inner _ mem).rooted
      · exact .inl ⟨s, made, inner.part mem, .self⟩
      · exact .inr rooted

end Workpiece

/-! ## Synthesized statements -/

inductive Synthesis.Makes : Stmt → Prop
  | promotion (id : Nat) (name : String) : Makes (promotion id name)
  | factory (id : Nat) (enumName caseName : String) (index : Nat) (names : List String) :
      Makes (factory id enumName caseName index names)

namespace Synthesis

abbrev Apart (x : Workpiece) : Prop := x.Stands (fun _ => False) fun pos => pos.file = "<generated>"

theorem nameList_apart : ∀ (names : List String) (id start : Nat), ∀ e ∈ (nameList id start names).1, Apart (.expr e)
  | [], _, _ => by simp [nameList]
  | name :: names, id, start => by
    have first : Apart (.expr ⟨id, span start name.utf8ByteSize, .ident name⟩) :=
      .node (by simp [spots, span, file]) (by simp [parts, ExprKind.pieces])
    rw [nameList_cons]
    exact List.forall_mem_cons.mpr ⟨first, nameList_apart names _ _⟩

theorem Makes.apart {s : Stmt} (h : Makes s) : Apart (.stmt s) := by
  have leaf {id : Nat} {pos : Position} {kind : ExprKind} (bare : kind.pieces = []) (made : pos.file = "<generated>") :
      Apart (.expr ⟨id, pos, kind⟩) := .node (by simpa [spots] using made) (by simp [parts, bare])
  cases h with
  | promotion id name =>
    refine .node (by simp [spots, Synthesis.promotion, span, file, StmtKind.cls?]) ?_
    simp only [parts, Synthesis.promotion, StmtKind.pieces, List.forall_mem_singleton]
    refine .node (by simp [spots, span, file]) ?_
    simp only [parts, ExprKind.pieces, List.forall_mem_cons]
    exact ⟨leaf rfl rfl, leaf rfl rfl, leaf rfl rfl, by simp⟩
  | factory id enumName caseName index names =>
    have items := nameList_apart names
    refine .node (by simp [spots, Synthesis.factory, file, StmtKind.cls?]) ?_
    simp only [parts, Synthesis.factory, StmtKind.pieces, List.map_singleton, List.forall_mem_singleton]
    refine .node (by simp [spots, file, StmtKind.cls?]) ?_
    simp only [parts, StmtKind.pieces, Option.toList_some, List.map_singleton, List.forall_mem_singleton]
    refine .node (by simp [spots, file]) ?_
    simp only [parts, ExprKind.pieces, List.map_cons, List.map_nil, List.forall_mem_cons, Arg.piece]
    refine ⟨leaf rfl rfl, leaf rfl rfl, leaf rfl rfl, .node (by simp [spots, file]) ?_, by simp⟩
    simpa [parts, ExprKind.pieces] using items _ _

end Synthesis

/-! ## Forming -/

section
variable {P : Position → Prop} {c c' : Cursor} {ks : List Workpiece} {x : Workpiece}

/-- What the grammar builds: all but the synthesized statements stands where `P` holds. -/
abbrev Workpiece.Sound (P : Position → Prop) (x : Workpiece) : Prop := x.Rooted Synthesis.Makes P

theorem Grammar.assignment?_sound {target value : Expr} {kind : ExprKind} (h : assignment? target value = some kind)
    (ht : (Workpiece.expr target).Sound P) (hv : (Workpiece.expr value).Sound P) :
    ∀ y ∈ kind.pieces, y.Stands Synthesis.Makes P := by
  have inner : ∀ y ∈ target.kind.pieces, y.Stands Synthesis.Makes P := ht.inner
  have stored := hv.stands
  unfold assignment? at h
  split at h <;> cases h <;> rename_i heq <;> rw [heq] at inner
  · simpa [ExprKind.pieces] using stored
  · simpa [ExprKind.pieces, stored] using inner
  · simpa [ExprKind.pieces, stored, or_imp, forall_and] using inner

theorem Forms.sound (forms : Forms c ks x c') (code : ∀ k ∈ ks, k.Sound P) (placed : ∀ pos ∈ places ks, P pos)
    (joined : ∀ p q, Joins ks p q → P (p.merge q)) : x.Sound P := by
  have sound : ∀ k ∈ codes ks, k.Sound P := fun k hk => code k (List.mem_filter.mp hk).1
  have stands : ∀ k ∈ codes ks, k.Stands Synthesis.Makes P := fun k hk => (sound k hk).stands
  have listed {pos : Position} (h : Lists ks pos) : P pos := by
    obtain place | ⟨p, q, joins, rfl⟩ := h
    · exact placed _ place
    · exact joined p q joins
  cases forms with
  | expr made _ place _ =>
    rw [made] at stands
    exact ⟨by simpa [spots] using placed _ place, stands⟩
  | assignment made assigned place =>
    rw [made] at sound
    exact ⟨by simpa [spots] using placed _ place,
      Grammar.assignment?_sound assigned (sound _ (by simp)) (sound _ (by simp))⟩
  | compound made sum assigned inner place =>
    rw [made] at sound stands
    subst sum
    refine ⟨by simpa [spots] using placed _ place, Grammar.assignment?_sound assigned (sound _ (by simp)) ?_⟩
    exact ⟨by simpa [spots] using placed _ inner, stands⟩
  | call made =>
    simp only [made, List.forall_mem_cons] at sound
    obtain ⟨input, called, -⟩ := sound
    have inner := called.inner
    refine ⟨called.own, ?_⟩
    simpa [Workpiece.parts, ExprKind.pieces, or_imp, forall_and, input.stands] using inner
  | lambda made =>
    simp only [made, List.forall_mem_cons] at sound
    obtain ⟨input, called, -⟩ := sound
    have group : (Workpiece.expr ⟨c.nextId + 1, _, .group ⟨c.nextId, _, .lambda _⟩⟩).Stands Synthesis.Makes P :=
      .node called.own (List.forall_mem_singleton.mpr (.node called.own called.inner))
    refine ⟨called.own, ?_⟩
    simp only [Workpiece.parts, ExprKind.pieces, List.forall_mem_cons]
    exact ⟨group, by simpa using input.stands⟩
  | template made _ place texts values =>
    simp only [made, List.forall_mem_cons, (weave_perm _ _).mem_iff, List.forall_mem_append] at stands
    obtain ⟨callee, fragments, embedded⟩ := stands
    refine ⟨by simpa [spots] using placed _ place, ?_⟩
    simp only [Workpiece.parts, ExprKind.pieces, List.map_cons, List.map_nil, List.forall_mem_cons, Arg.piece]
    refine ⟨callee, .node ?_ fragments, .node ?_ embedded, by simp⟩
    · simpa [spots] using listed texts
    · simpa [spots] using listed values
  | @stmt kind pos made place formed =>
    rw [made] at stands
    refine ⟨?_, stands⟩
    cases kind with
    | cls c =>
      have own : c.pos = pos := formed.2.1
      simpa [spots, StmtKind.cls?, own] using placed _ place
    | _ => simpa [spots, StmtKind.cls?] using placed _ place
  | factory made => exact ⟨by simp [spots], by simpa [Workpiece.parts] using .apart (.factory ..)⟩
  | case made method body bare _ place own =>
    rw [made, List.forall_mem_append, List.forall_mem_singleton] at sound
    have inner := sound.2.inner
    simp only [Workpiece.parts, List.forall_mem_singleton] at inner
    refine ⟨by simpa [spots] using placed _ place, ?_⟩
    simp only [Workpiece.parts, method, MemberKind.parts, bare.1, List.map_nil, List.nil_append,
      List.forall_mem_singleton]
    refine .node (by simpa [spots] using placed _ own) ?_
    simp only [Workpiece.parts, Func.inner, bare.2, body, List.map_nil, List.nil_append, List.forall_mem_append]
    exact ⟨fun y hy => (sound.1 y hy).stands, by simpa using inner⟩
  | func made place | param made place =>
    rw [made] at stands
    exact ⟨by simpa [spots] using placed _ place, stands⟩
  | noAccessors made => exact ⟨by simp [spots], by simp [Workpiece.parts]⟩
  | getter made =>
    simp only [made, List.forall_mem_cons] at sound
    have inner := sound.1.inner
    refine ⟨by simp [spots], ?_⟩
    simpa [Workpiece.parts, sound.2.1.stands] using inner
  | setter made =>
    simp only [made, List.forall_mem_cons] at sound
    have inner := sound.1.inner
    refine ⟨by simp [spots], ?_⟩
    simpa [Workpiece.parts, sound.2.1.stands, or_imp, forall_and] using inner
  | @member m made place formed =>
    rw [made, List.forall_mem_append] at stands
    refine ⟨by simpa [spots] using placed _ place, ?_⟩
    simp only [Workpiece.parts, List.forall_mem_append]
    refine ⟨stands.1, ?_⟩
    cases kind : m.kind with
    | method f =>
      obtain ⟨own, place, -⟩ := formed f kind
      rw [kind] at stands
      have inner := List.forall_mem_append.mpr stands
      rw [← own] at inner
      exact List.forall_mem_singleton.mpr (.node (by simpa [spots] using placed _ place) inner)
    | _ =>
      rw [kind] at stands
      exact stands.2

theorem Forms.still (forms : Forms c ks x c') :
    c'.previous = c.previous ∧ c'.rest = c.rest ∧ c'.eof = c.eof := by
  cases forms <;> exact ⟨rfl, rfl, rfl⟩

theorem Forms.mem_places (forms : Forms c ks x c') {pos : Position} (at_ : x.pos? = some pos) : pos ∈ places ks := by
  cases forms with
  | expr _ _ place _ | assignment _ _ place | compound _ _ _ _ place | template _ _ place _ _ | func _ place =>
    cases at_
    exact place
  | call made | lambda made =>
    cases at_
    have mem : _ ∈ codes ks := made ▸ List.mem_cons_of_mem _ List.mem_cons_self
    exact List.mem_filterMap.mpr ⟨_, (List.mem_filter.mp mem).1, rfl⟩
  | _ => cases at_

end

/-! ## Spans of tokens -/

/-- From the start of a token to the end of one. -/
structure TokenSpan (source file : String) (pos : Position) : Prop where
  own : pos.file = file
  start : ∃ t ∈ (scan source file).tokens, t.pos.start = pos.start
  stop : ∃ t ∈ (scan source file).tokens, t.pos.stop = pos.stop
  le : pos.start ≤ pos.stop
  bound : pos.stop ≤ source.utf8ByteSize

section
variable {source file : String} {p q : Position}

theorem TokenSpan.token {t : Token} (h : t ∈ (scan source file).tokens) : TokenSpan source file t.pos := by
  obtain ⟨own, le, bound, -⟩ := (scan_tiles source file).2.1 t h
  exact ⟨own, ⟨t, h, rfl⟩, ⟨t, h, rfl⟩, le, bound⟩

theorem TokenSpan.merge (hp : TokenSpan source file p) (hq : TokenSpan source file q) (le : p.start ≤ q.stop) :
    TokenSpan source file (p.merge q) := by
  have stop : (p.merge q).stop = q.stop := max_eq_left le
  exact ⟨hp.own, hp.start, stop ▸ hq.stop, stop ▸ le, stop ▸ hq.bound⟩

end

/-! ## Spans along a bench -/

/-- What is on a bench spans tokens. All of it starts at the token that was read last or before it, and
nothing starts behind the end of a later piece. -/
structure Spanned (source file : String) (s : List Workpiece) (c : Cursor) : Prop where
  along : c.Over (scan source file).tokens
  ascending : (c.previous :: c.rest).Pairwise fun t u => t.pos.start ≤ u.pos.start
  ahead : ∀ t left, .ahead t left ∈ s → t ∈ (scan source file).tokens ∧
    (left = c.rest.length ∧ t = c.peek ∨ c.rest.length < left ∧ t.pos.start ≤ c.previous.pos.start)
  origins : ∀ p ∈ origins s, TokenSpan source file p ∧ p.start ≤ c.previous.pos.start
  ordered : (places s).Pairwise fun p q => p.start ≤ q.stop
  sound : ∀ x ∈ s, x.Sound (TokenSpan source file)

section
variable {source file : String} {s s' ks : List Workpiece} {c c' : Cursor} {x : Workpiece} {pos : Position}

theorem Workpiece.places_subset (s : List Workpiece) : places s ⊆ origins s := by
  intro pos h
  obtain ⟨x, hx, at_⟩ := List.mem_filterMap.mp h
  refine List.mem_filterMap.mpr ⟨x, hx, ?_⟩
  cases x <;> first | exact at_ | cases at_

namespace Spanned

theorem places (h : Spanned source file s c) : ∀ p ∈ places s, TokenSpan source file p :=
  fun p hp => (h.origins p (places_subset s hp)).1

/-- Nothing starts behind the end of the last piece. -/
theorem last (h : Spanned source file s c) (last : (Workpiece.places s).getLast? = some pos) :
    ∀ p ∈ Workpiece.places s, p.start ≤ pos.stop := by
  obtain ⟨front, there⟩ := List.getLast?_eq_some_iff.mp last
  have ordered := h.ordered
  have own := (h.places pos (List.mem_of_getLast? last)).le
  rw [there] at ordered ⊢
  have across := (List.pairwise_append.mp ordered).2.2
  exact List.forall_mem_append.mpr ⟨fun p hp => across p hp pos (by simp), by simpa using own⟩

/-- Pieces make way for code that stands where they do. -/
theorem replace {K J : List Workpiece} (h : Spanned source file (s ++ (K ++ s')) c)
    (same : c'.previous = c.previous ∧ c'.rest = c.rest ∧ c'.eof = c.eof) (code : ∀ x ∈ J, x.isCode = true)
    (ordered : (Workpiece.places J).Sublist (Workpiece.places K)) (sound : ∀ x ∈ J, x.Sound (TokenSpan source file)) :
    Spanned source file (s ++ (J ++ s')) c' := by
  obtain ⟨previous, rest, eof⟩ := same
  obtain ⟨along, ascending, ahead, known, order, whole⟩ := h
  rw [← previous, ← rest] at ascending
  simp only [List.forall_mem_append, origins_append] at known whole
  constructor
  case along => exact ⟨previous ▸ along.previous, rest ▸ along.rest, eof ▸ along.eof⟩
  case ascending => exact ascending
  case ahead =>
    intro t left mem
    have still : .ahead t left ∉ J := fun mem => by cases code _ mem
    rw [Cursor.peek, rest, eof, previous]
    refine ahead t left ?_
    simp only [List.mem_append, still, false_or] at mem ⊢
    exact mem.imp_right .inr
  case origins =>
    simp only [List.forall_mem_append, origins_append, previous]
    refine ⟨known.1, fun p hp => known.2.1 p (places_subset K (ordered.subset ?_)), known.2.2⟩
    obtain ⟨x, hx, at_⟩ := List.mem_filterMap.mp hp
    exact List.mem_filterMap.mpr ⟨x, hx, by rw [← at_]; cases x <;> first | rfl | cases code _ hx⟩
  case ordered =>
    simp only [places_append] at order ⊢
    exact order.sublist ((ordered.append_right _).append_left _)
  case sound =>
    simp only [List.forall_mem_append]
    exact ⟨whole.1, sound, whole.2.2⟩

theorem form (h : Spanned source file (s ++ ks) c) (same : c'.previous = c.previous ∧ c'.rest = c.rest ∧ c'.eof = c.eof)
    (code : x.isCode = true) (at_ : ∀ pos ∈ x.pos?, pos ∈ Workpiece.places ks)
    (sound : x.Sound (TokenSpan source file)) : Spanned source file (s ++ [x]) c' := by
  have whole : Spanned source file (s ++ (ks ++ [])) c := by simpa using h
  have ordered : (Workpiece.places [x]).Sublist (Workpiece.places ks) := by
    cases there : x.pos? with
    | none => simp only [places_cons, places_nil, there, Option.toList_none, List.nil_append, List.nil_sublist]
    | some pos =>
      simp only [places_cons, places_nil, there, Option.toList_some, List.append_nil, List.singleton_sublist]
      exact at_ pos there
  simpa using whole.replace same (by simpa using code) ordered (by simpa using sound)

theorem swap {k : Workpiece} (h : Spanned source file (s ++ k :: s') c)
    (same : c'.previous = c.previous ∧ c'.rest = c.rest ∧ c'.eof = c.eof) (code : x.isCode = true) (at_ : x.pos? = none)
    (sound : k.Sound (TokenSpan source file) → x.Sound (TokenSpan source file)) :
    Spanned source file (s ++ x :: s') c' :=
  replace (K := [k]) (J := [x]) h same (by simpa using code) (by simp [at_, -pos?])
    (by simpa using sound (h.sound k (by simp)))

/-- A piece without a position is laid down. -/
theorem note (h : Spanned source file s c) (at_ : x.origin? = none)
    (next : ∀ t left, x = .ahead t left → t = c.peek ∧ left = c.rest.length) (sound : x.Sound (TokenSpan source file)) :
    Spanned source file (s ++ [x]) c := by
  have bare : x.pos? = none := by cases x <;> first | rfl | cases at_
  refine { h with ahead := ?_, origins := ?_, ordered := ?_, sound := ?_ }
  · intro t left mem
    rcases List.mem_append.mp mem with mem | mem
    · exact h.ahead t left mem
    · obtain ⟨rfl, rfl⟩ := next t left (List.mem_singleton.mp mem).symm
      exact ⟨h.along.peek, .inl ⟨rfl, rfl⟩⟩
  · simpa [at_, -origin?] using h.origins
  · simpa [bare, -pos?] using h.ordered
  · exact List.forall_mem_append.mpr ⟨h.sound, List.forall_mem_singleton.mpr sound⟩

/-- A position joins the others, not before any of them. -/
theorem lay (h : Spanned source file s c) (spans : TokenSpan source file pos) (start : pos.start ≤ c.previous.pos.start)
    (behind : ∀ p ∈ Workpiece.places s, p.start ≤ pos.stop) : Spanned source file (s ++ [.place pos]) c := by
  refine { h with ahead := ?_, origins := ?_, ordered := ?_, sound := ?_ }
  · simpa using h.ahead
  · rw [origins_append]
    exact List.forall_mem_append.mpr ⟨h.origins, List.forall_mem_singleton.mpr ⟨spans, start⟩⟩
  · simpa using List.pairwise_append.mpr ⟨h.ordered, List.pairwise_singleton _ pos, by simpa using behind⟩
  · simpa [or_imp, forall_and] using And.intro h.sound
      (⟨by simp [spots], by simp [parts]⟩ : (Workpiece.place pos).Sound _)

theorem read (h : Spanned source file s c) (more : c.rest ≠ []) :
    Spanned source file (s ++ [.token c.peek]) c.advance := by
  obtain ⟨t, ts, rest⟩ := List.exists_cons_of_ne_nil more
  have peek : c.peek = t := by simp [Cursor.peek, rest]
  have next : c.advance = { c with previous := t, rest := ts } := by simp [Cursor.advance, rest]
  have ascending := h.ascending
  rw [rest] at ascending
  have later : c.previous.pos.start ≤ t.pos.start := (List.pairwise_cons.mp ascending).1 t List.mem_cons_self
  have spans := TokenSpan.token h.along.peek
  have along := h.along.advance
  rw [peek] at spans
  rw [next] at along
  rw [next, peek]
  constructor
  case along => exact along
  case ascending => exact (List.pairwise_cons.mp ascending).2
  case ahead =>
    intro u left mem
    obtain ⟨known, here⟩ := h.ahead u left (by simpa using mem)
    rw [peek, rest, List.length_cons] at here
    rcases here with ⟨rfl, rfl⟩ | ⟨lt, le⟩
    · exact ⟨known, .inr ⟨Nat.lt_succ_self _, Nat.le_refl _⟩⟩
    · exact ⟨known, .inr ⟨Nat.lt_of_succ_lt lt, le.trans later⟩⟩
  case origins =>
    rw [origins_append]
    refine List.forall_mem_append.mpr ⟨fun p hp => ?_, List.forall_mem_singleton.mpr ⟨spans, Nat.le_refl _⟩⟩
    exact ⟨(h.origins p hp).1, (h.origins p hp).2.trans later⟩
  case ordered =>
    have behind : ∀ p ∈ Workpiece.places s, p.start ≤ t.pos.stop := fun p hp =>
      (h.origins p (places_subset s hp)).2.trans (later.trans spans.le)
    simpa using List.pairwise_append.mpr ⟨h.ordered, List.pairwise_singleton _ t.pos, by simpa using behind⟩
  case sound =>
    exact List.forall_mem_append.mpr ⟨h.sound, List.forall_mem_singleton.mpr ⟨by simp [spots], by simp [parts]⟩⟩

theorem settle {t : Token} {left : Nat} (h : Spanned source file (s ++ .ahead t left :: s') c)
    (moved : c.rest.length < left) : Spanned source file (s ++ .behind t.pos :: s') c := by
  obtain ⟨known, ⟨here, -⟩ | ⟨-, le⟩⟩ := h.ahead t left (by simp)
  · omega
  have origins := h.origins
  have sound := h.sound
  simp only [origins_append, origins_cons, List.forall_mem_append, List.forall_mem_cons] at origins sound
  refine { h with ahead := ?_, origins := ?_, ordered := ?_, sound := ?_ }
  · intro u left mem
    exact h.ahead u left (by simp at mem ⊢; tauto)
  · simp only [origins_append, origins_cons, List.forall_mem_append]
    exact ⟨origins.1, List.forall_mem_singleton.mpr ⟨.token known, le⟩, origins.2.2⟩
  · simpa using h.ordered
  · simp only [List.forall_mem_append, List.forall_mem_cons]
    exact ⟨sound.1, ⟨by simp [spots], by simp [parts]⟩, sound.2.2⟩

end Spanned

theorem Grammar.prepend_sound {stmts : List Stmt} {body : Stmt}
    (made : ∀ x ∈ stmts, Synthesis.Makes x) (h : (Workpiece.stmt body).Sound P) :
    (Workpiece.stmt (prepend stmts body)).Sound P := by
  obtain ⟨pos, kind⟩ := body
  have own : P pos := h.own _ (by simp [spots])
  have added : ∀ y ∈ stmts.map Workpiece.stmt, y.Stands Synthesis.Makes P :=
    List.forall_mem_map.mpr fun x hx => .apart (made x hx)
  have inner := h.inner
  unfold prepend
  split
  · rename_i rest heq
    simp only at heq
    subst heq
    refine ⟨by simpa [spots, StmtKind.cls?] using own, ?_⟩
    simp only [parts, StmtKind.pieces, List.map_append, List.forall_mem_append] at inner ⊢
    exact ⟨added, inner⟩
  · refine ⟨by simpa [spots, StmtKind.cls?] using own, ?_⟩
    simp only [parts, StmtKind.pieces, List.map_append, List.forall_mem_append]
    exact ⟨added, by simpa using h.stands⟩

theorem Stmt.toBlock_sound {x : Stmt} (h : (Workpiece.stmt x).Sound P) :
    (Workpiece.stmt x.toBlock).Sound P := by
  unfold Stmt.toBlock
  split
  · exact h
  · refine ⟨?_, by simpa [parts, StmtKind.pieces] using h.stands⟩
    have own := h.own x.pos (by simp [spots])
    simpa [spots, StmtKind.cls?] using own

theorem Grammar.asAbstract_sound {m : Member} (h : (Workpiece.member m).Sound P) :
    (Workpiece.member (asAbstract m)).Sound P := by
  unfold asAbstract
  split <;> exact ⟨h.own, h.inner⟩

theorem Workpiece.Rooted.param {S : Stmt → Prop} {m : Member} {f : Func} {p : Param}
    (h : (Workpiece.member m).Rooted S P) (method : m.kind = .method f) (mem : p ∈ f.params) : P p.pos := by
  cases h.inner (.func f) (by simp [parts, method, MemberKind.parts]) with
  | node _ inner =>
    cases inner (.param p) (by simp [parts, Func.inner, mem]) with
    | node own _ => exact own p.pos (by simp [spots])

theorem Grammar.Promoted.sound {ms ms' : List Member} (h : Promoted (fun p => P p.pos) ms ms')
    (sound : ∀ m ∈ ms, (Workpiece.member m).Sound P) : ∀ x ∈ ms'.map Workpiece.member, x.Sound P := by
  induction h with
  | nil => simp
  | keep _ ih =>
    obtain ⟨first, rest⟩ := List.forall_mem_cons.mp sound
    exact List.forall_mem_cons.mpr ⟨first, ih rest⟩
  | field called _ ih =>
    refine List.forall_mem_cons.mpr ⟨⟨?_, ?_⟩, ih sound⟩
    · simpa [spots, fieldOf] using called
    · simp [parts, fieldOf, MemberKind.parts, MemberKind.pieces]

theorem Step.spanned (step : Step s c s' c') (h : Spanned source file s c) : Spanned source file s' c' := by
  have loose {y : Workpiece} (own : y.spots = []) (inner : y.parts = []) : y.Sound (TokenSpan source file) :=
    ⟨by simp [own], by simp [inner]⟩
  have before : ∀ p ∈ places s, p.start ≤ c.previous.pos.start := fun p hp => (h.origins p (places_subset s hp)).2
  have previous := TokenSpan.token h.along.previous
  have whole : Spanned source file (s ++ []) c := by simpa using h
  cases step with
  | read more => exact h.read more
  | ahead => exact h.note rfl (by rintro _ _ ⟨⟩; exact ⟨rfl, rfl⟩) (loose rfl rfl)
  | exempt => exact h.note rfl (by simp) (loose rfl rfl)
  | enterInterface | enterNamespace => exact whole.form ⟨rfl, rfl, rfl⟩ rfl (by simp) (loose rfl rfl)
  | settle moved => exact h.settle moved
  | @readBehind s r _ t left more =>
    have read : Spanned source file (s ++ .ahead t left :: (r ++ [.token c.peek])) c.advance := by
      simpa using h.read more
    have fewer : c.advance.rest.length < c.rest.length := by
      obtain ⟨u, us, rest⟩ := List.exists_cons_of_ne_nil more
      simp [Cursor.advance, rest]
    obtain ⟨-, ⟨rfl, -⟩ | ⟨lt, -⟩⟩ := h.ahead t left (by simp)
    · simpa using read.settle fewer
    · simpa using read.settle (fewer.trans lt)
  | previous => exact h.lay previous (Nat.le_refl _) fun p hp => (before p hp).trans previous.le
  | @copy s _ x pos at_ =>
    have last : (places (s ++ [x])).getLast? = some pos := by
      simp only [places_append, places_cons, places_nil, at_, Option.toList_some, List.append_nil, List.getLast?_concat]
    have mem := List.mem_of_getLast? last
    exact h.lay (h.places pos mem) (before pos mem) (h.last last)
  | span at_ =>
    obtain ⟨spans, start⟩ := h.origins _ at_
    have behind := start.trans previous.le
    refine h.lay (spans.merge previous behind) start fun p hp => ?_
    exact (before p hp).trans (previous.le.trans (Nat.le_max_left _ _))
  | @join s _ p q at_ last =>
    have behind := h.last last
    refine h.lay ((h.places p at_).merge (h.places q (List.mem_of_getLast? last)) (behind p at_)) (before p at_) ?_
    exact fun r hr => (behind r hr).trans (Nat.le_max_left _ _)
  | drop _ => exact Spanned.replace (K := [_]) (J := []) h ⟨rfl, rfl, rfl⟩ (by simp) (by simp) (by simp)
  | @form s ks _ _ x forms =>
    have joined : ∀ p q, Joins ks p q → TokenSpan source file (p.merge q) := by
      have placed : ∀ p ∈ places ks, TokenSpan source file p := fun p hp => h.places p (by simp [hp])
      rintro p q (sub | ⟨rfl, mem⟩)
      · have ordered := h.ordered.sublist (sub.trans (by simp))
        exact (placed p (sub.subset (by simp))).merge (placed q (sub.subset (by simp))) (by simpa using ordered)
      · exact (placed p mem).merge (placed p mem) (placed p mem).le
    refine h.form forms.still forms.isCode (fun pos at_ => forms.mem_places at_) (forms.sound ?_ ?_ joined)
    · exact fun k hk => h.sound k (by simp [hk])
    · exact fun pos hp => h.places pos (by simp [hp])
  | @toBlock _ _ _ x => exact h.swap ⟨rfl, rfl, rfl⟩ rfl rfl Stmt.toBlock_sound
  | prepend =>
    refine h.swap ⟨rfl, rfl, rfl⟩ rfl rfl (Grammar.prepend_sound fun x hx => ?_)
    obtain ⟨i, _, rfl⟩ := List.mem_mapIdx.mp hx
    exact .promotion _ _
  | @promote s _ ms =>
    have sound : ∀ m ∈ ms, (Workpiece.member m).Sound (TokenSpan source file) := fun m hm => h.sound _ (by simp [hm])
    have fields : Grammar.Promoted (fun p => TokenSpan source file p.pos) ms _ :=
      Grammar.withPromotedFields_promoted fun m hm f method p hp => (sound m hm).param method hp
    have bare (ms : List Member) : places (ms.map .member) = [] := by simp [places]
    have whole : Spanned source file (s ++ (ms.map .member ++ [])) c := by simpa using h
    simpa using whole.replace ⟨rfl, rfl, rfl⟩ (by simp) (by simp [bare]) (fields.sound sound)
  | «within» more => simpa using (h.read more).note (x := .within c.inNamespace) rfl (by simp) (loose rfl rfl)
  | @leaveNamespace s ks ds _ _ pos path decls _ none parts place mark =>
    have bench : s ++ ks ++ .namespaceBody :: ds = s ++ (ks ++ .namespaceBody :: ds) := List.append_assoc ..
    rw [bench] at h
    have same : c'.previous = c.previous ∧ c'.rest = c.rest ∧ c'.eof = c.eof := by
      rcases mark with rfl | ⟨-, rfl⟩ <;> exact ⟨rfl, rfl, rfl⟩
    have inner : ∀ y ∈ codes ds, y.Sound (TokenSpan source file) :=
      fun y hy => h.sound y (by simp [(List.mem_filter.mp hy).1])
    have own := h.places pos (by simpa using .inr (by simpa using place))
    rw [parts] at inner
    exact h.form same rfl (by simp) ⟨by simpa [spots, StmtKind.cls?] using own, fun y hy => (inner y hy).stands⟩
  | @leaveInterface s ks ds _ cls ms t _ attributes parts members place token start =>
    have bench : s ++ ks ++ .interfaceBody :: ds = s ++ (ks ++ .interfaceBody :: ds) := List.append_assoc ..
    rw [bench] at h
    have inner : ∀ y ∈ codes (ks ++ ds), y.Sound (TokenSpan source file) := by
      intro y hy
      have mem := List.mem_append.mp (List.mem_filter.mp hy).1
      exact h.sound y (by simp; tauto)
    have own := h.places cls.pos (by simpa using .inr (by simpa using place))
    simp only [codes_append, attributes, parts, List.forall_mem_append, List.forall_mem_map] at inner
    refine h.form ⟨rfl, rfl, rfl⟩ rfl (by simp) ⟨by simpa [spots, StmtKind.cls?] using own, ?_⟩
    simp only [Workpiece.parts, StmtKind.pieces, members, List.forall_mem_append, List.forall_mem_map]
    exact ⟨fun e he => (inner.1 e he).stands, fun m hm => (Grammar.asAbstract_sound (inner.2 m hm)).stands⟩

end

/-! ## Whole programs -/

theorem Spanned.ofRow {source file : String} {ts : List Token} {eof : Token}
    (tokens : (scan source file).tokens = ts ++ [eof])
    (row : Token.Row ts eof) (nextId : Nat) : Spanned source file [] (.ofRow ts eof nextId) := by
  have ascending : (ts ++ [eof]).Pairwise fun t u => t.pos.start ≤ u.pos.start := row.ascending.imp Nat.le_of_lt
  have first : (Cursor.ofRow ts eof nextId).previous ∈ ts ++ [eof] ∧
      ((Cursor.ofRow ts eof nextId).previous :: ts).Pairwise fun t u => t.pos.start ≤ u.pos.start := by
    cases ts with
    | nil => simp [Cursor.ofRow]
    | cons t ts =>
      have inner := (List.pairwise_append.mp ascending).1
      exact ⟨by simp [Cursor.ofRow], List.pairwise_cons.mpr
        ⟨List.forall_mem_cons.mpr ⟨Nat.le_refl _, (List.pairwise_cons.mp inner).1⟩, inner⟩⟩
  have along : (Cursor.ofRow ts eof nextId).Over (scan source file).tokens := by
    rw [tokens]
    exact ⟨first.1, fun t ht => ⟨List.mem_append_left _ ht, row.only t ht⟩, by simp [Cursor.ofRow], row.last⟩
  exact ⟨along, first.2, by simp, by simp, by simp, by simp⟩

/-- Every node of a program stands from the start of a token to the end of one, or is part of a statement that is
synthesized. The program comes off a bench, and whatever lies on one with its cursor is of one file, so that the
checked merge gives what the merge does. -/
theorem readSource_spans {source file : String} {nextId next : Nat} {program : List Stmt}
    (h : (readSource source file nextId).result = .ok (program, next)) :
    (∀ s ∈ program, ∀ x, (Workpiece.stmt s).Has x → ∀ pos ∈ x.spots, TokenSpan source file pos ∨
      pos.file = "<generated>" ∧ ∃ made, Synthesis.Makes made ∧
        (Workpiece.stmt s).Has (.stmt made) ∧ (Workpiece.stmt made).Has x) ∧
    ∃ start last, Cursor.ofTokens? (scan source file).tokens nextId = some start ∧
      Steps [] start (program.map .stmt) last ∧ ∀ s c, Steps [] start s c →
        ∀ p ∈ c.previous.pos :: origins s, ∀ q ∈ c.previous.pos :: origins s, p.merge? q = some (p.merge q) := by
  rw [readSource_result] at h
  obtain ⟨ts, eof, tokens, row⟩ := scan_row source file
  have begun := Spanned.ofRow tokens row nextId
  have kept {s : List Workpiece} {c : Cursor} (run : Steps [] (.ofRow ts eof nextId) s c) : Spanned source file s c :=
    run.keep (I := Spanned source file) (fun step h => step.spanned h) begun
  rw [tokens] at h ⊢
  obtain ⟨last, -, steps⟩ := parse_steps row.last row.only h
  refine ⟨fun s hs x within pos at_ => ?_, _, last, Cursor.ofTokens?_row row.last row.only nextId, steps,
    fun s c run => ?_⟩
  · have sound := (kept steps).sound (.stmt s) (List.mem_map_of_mem hs)
    obtain ⟨made, synthesized, there, below⟩ | rooted := sound.stands.has within
    · obtain ⟨_, no, -⟩ | apart := synthesized.apart.has below
      · exact no.elim
      · exact .inr ⟨apart.own pos at_, made, synthesized, there, below⟩
    · exact .inl (rooted.own pos at_)
  · have spanned := kept run
    have own : ∀ p ∈ c.previous.pos :: origins s, p.file = file := List.forall_mem_cons.mpr
      ⟨(TokenSpan.token spanned.along.previous).own, fun p hp => (spanned.origins p hp).1.own⟩
    exact fun p hp q hq => if_pos ((own p hp).trans (own q hq).symm)

theorem readSource_spans_promotion :
    let source := "class A \x7b\n  new(this.x: Int, y = 'a$\x7bx\x7d') \x7b x.z += y \x7d\n\x7d"
    (readSource source "a" 0).result.isOk = true ∧ ∀ program next,
      (readSource source "a" 0).result = .ok (program, next) →
      (∀ s ∈ program, ∀ x, (Workpiece.stmt s).Has x → ∀ pos ∈ x.spots, TokenSpan source "a" pos ∨
        pos.file = "<generated>" ∧ ∃ made, Synthesis.Makes made ∧
          (Workpiece.stmt s).Has (.stmt made) ∧ (Workpiece.stmt made).Has x) ∧
      ∃ start last, Cursor.ofTokens? (scan source "a").tokens 0 = some start ∧
        Steps [] start (program.map .stmt) last ∧ ∀ s c, Steps [] start s c →
          ∀ p ∈ c.previous.pos :: origins s, ∀ q ∈ c.previous.pos :: origins s, p.merge? q = some (p.merge q) :=
  ⟨by decide +kernel, fun _ _ read => readSource_spans read⟩

end PhaseLang
