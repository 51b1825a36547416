import PhaseLang.Proofs.Grammar.Sites
import PhaseLang.Proofs.Grammar.Starts

/-!
# What surrounds the pieces of a bench

From one end of a bench to the other, an `Outlook` says what surrounds its pieces: whether they are in
a namespace, whether methods are exempt from having a body, and how the cursor was marked when they had
been read. Every step preserves that the pieces are good where they stand, and that the marks of the
cursor are those of the outlook behind them.
-/

namespace PhaseLang

namespace Workpiece

def placed (site : Site) : Workpiece → List Placed
  | expr e => Placed.ofExpr site e
  | stmt s | synthetic s => Placed.ofStmt site s
  | func f => Placed.ofFunc site f
  | param p => Placed.ofOption site p.default
  | accessors getter setter => Placed.ofAccessor site getter ++ Placed.ofAccessor site setter
  | member m => Placed.ofMember site m
  | _ => []

attribute [simp] placed

def holdsInterface (x : Workpiece) : Bool := x.classes.any Class.isInterface

theorem any_placed (site : Site) (x : Workpiece) : (x.placed site).any Placed.closes = x.holdsInterface := by
  cases x with
  | expr e => exact Placed.shows_ofExpr site e
  | stmt s => exact Placed.shows_ofStmt site s
  | synthetic s => exact Placed.shows_ofStmt site s
  | func f => exact Placed.shows_ofFunc site f
  | param p => exact Placed.shows_ofOption site p.default
  | accessors getter setter => simp [placed, holdsInterface, classes, Placed.shows_ofAccessor]
  | member m => exact Placed.shows_ofMember site m
  | _ => rfl

/-- Whether what surrounds the pieces behind is what surrounds this one. -/
def isPart : Workpiece → Bool
  | member _ | namespaceBody | interfaceBody => false
  | _ => true

end Workpiece

open Workpiece

/-! ## Outlooks -/

structure Outlook where
  inNamespace : Bool
  /-- Methods here are exempt from having a body. -/
  exempt : Bool
  /-- The cursor is marked as in an interface. -/
  mark : Bool

namespace Outlook

def Sees (o : Outlook) (site : Site) : Prop := site.inNamespace = o.inNamespace ∧ (o.exempt = true → site.exempt = true)

def Fair (o : Outlook) : Prop := o.mark = true → o.exempt = true

/-- The outlook behind a piece. -/
def behind (o : Outlook) : Workpiece → Outlook
  | .member m => { o with exempt := o.exempt && !m.holdsInterface, mark := o.mark && !m.holdsInterface }
  | .namespaceBody => { o with inNamespace := true }
  | .interfaceBody => { o with exempt := true, mark := true }
  | x => { o with mark := o.mark && !x.holdsInterface }

/-- A piece is good here. -/
def Allows (o : Outlook) : Workpiece → Prop
  | .within b => o.inNamespace = b
  | .exempt => o.mark = true
  | .member m => ∀ site, o.Sees site → m.Bodied site ∧ ∀ y ∈ Placed.ofMember site m, y.Good
  | x => ∀ site, o.Sees site → ∀ y ∈ x.placed site, y.Good

def Leads (o : Outlook) : List Workpiece → Outlook → Prop
  | [], o' => o = o'
  | x :: xs, o' => o.Allows x ∧ (o.behind x).Leads xs o'

variable {o o' o'' : Outlook} {ks js : List Workpiece}

theorem leads_append : o.Leads (ks ++ js) o'' ↔ ∃ o', o.Leads ks o' ∧ o'.Leads js o'' := by
  induction ks generalizing o with
  | nil => simp [Leads]
  | cons x ks ih => simp [Leads, ih, and_assoc]

theorem behind_loose {x : Workpiece} (loose : x.isCode = false) : o.behind x = o := by
  cases x with
  | expr | stmt | func | param | accessors | member | synthetic | namespaceBody | interfaceBody => cases loose
  | _ => simp [behind, holdsInterface]

theorem Fair.behind (h : o.Fair) (x : Workpiece) : (o.behind x).Fair := by
  cases x with
  | member m =>
    intro mark
    simp only [Outlook.behind, Bool.and_eq_true] at mark ⊢
    exact ⟨h mark.1, mark.2⟩
  | interfaceBody => exact fun _ => rfl
  | namespaceBody => exact h
  | _ => exact fun mark => h (Bool.and_eq_true _ _ ▸ mark).1

section
variable {x : Workpiece} (part : x.isPart = true)
include part

theorem behind_part : o.behind x = { o with mark := o.mark && !x.holdsInterface } := by
  cases x with
  | member | namespaceBody | interfaceBody => cases part
  | _ => rfl

theorem good_of_allows (h : o.Allows x) {site : Site} (sees : o.Sees site) : ∀ y ∈ x.placed site, y.Good := by
  cases x with
  | member | namespaceBody | interfaceBody => cases part
  | «within» | exempt => exact List.forall_mem_nil _
  | _ => exact h site sees

end

/-- Along parts only the mark changes. -/
theorem Leads.parts (h : o.Leads ks o') (parts : ∀ x ∈ ks, x.isPart = true) :
    o' = { o with mark := o.mark && !ks.any holdsInterface } ∧
      (∀ site, o.Sees site → ∀ x ∈ ks, ∀ y ∈ x.placed site, y.Good) ∧
      (∀ b, .within b ∈ ks → o.inNamespace = b) ∧ (.exempt ∈ ks → o.mark = true) := by
  induction ks generalizing o with
  | nil => exact ⟨by rw [← show o = o' from h]; simp, by simp, by simp, by simp⟩
  | cons x ks ih =>
    obtain ⟨part, parts⟩ := List.forall_mem_cons.mp parts
    obtain ⟨allows, leads⟩ := h
    have first (site : Site) (sees : o.Sees site) := good_of_allows part allows sees
    rw [behind_part part] at leads
    obtain ⟨same, good, inside, marked⟩ := ih leads parts
    refine ⟨?_, fun site sees => List.forall_mem_cons.mpr ⟨first site sees, good site sees⟩, fun b hb => ?_,
      fun he => ?_⟩
    · simpa [Bool.and_assoc] using same
    · rcases List.mem_cons.mp hb with rfl | hb
      · exact allows
      · exact inside b hb
    · rcases List.mem_cons.mp he with rfl | he
      · exact allows
      · exact (Bool.and_eq_true _ _ ▸ marked he).1

theorem isPart_of_codes (parts : ∀ x ∈ codes ks, x.isPart = true) : ∀ x ∈ ks, x.isPart = true := by
  intro x hx
  by_cases code : x.isCode = true
  · exact parts x (List.mem_filter.mpr ⟨hx, code⟩)
  · cases x with
    | member | namespaceBody | interfaceBody => exact absurd rfl code
    | _ => rfl

theorem Leads.code (h : o.Leads ks o') : o.Leads (codes ks) o' := by
  induction ks generalizing o with
  | nil => exact h
  | cons x ks ih =>
    rw [codes_cons]
    split
    · exact ⟨h.1, ih h.2⟩
    · rename_i loose
      have rest := h.2
      rw [behind_loose (Bool.eq_false_iff.mpr loose)] at rest
      exact ih rest

theorem Leads.fair (h : o.Leads ks o') (fair : o.Fair) : o'.Fair := by
  induction ks generalizing o with
  | nil => exact (show o = o' from h) ▸ fair
  | cons x ks ih => exact ih h.2 (fair.behind x)

theorem any_codes : (codes ks).any holdsInterface = ks.any holdsInterface := by
  rw [codes, List.any_filter]
  congr 1
  funext x
  cases x <;> simp [holdsInterface]

/-- A piece that shows what its parts show, and some plain items of its own. -/
theorem Leads.form {x : Workpiece} (own : Site → List Placed) (h : o.Leads ks o')
    (parts : ∀ p ∈ codes ks, p.isPart = true)
    (same : ∀ site y, y ∈ x.placed site ↔ y ∈ own site ∨ y ∈ (codes ks).flatMap (placed site))
    (plain : ∀ site, o.Sees site → ∀ y ∈ own site, y.Good ∧ y.closes = false) :
    (∀ site, o.Sees site → ∀ y ∈ x.placed site, y.Good) ∧ o' = { o with mark := o.mark && !x.holdsInterface } := by
  simp only [List.mem_flatMap] at same
  obtain ⟨rest, good, -⟩ := h.parts (isPart_of_codes parts)
  have sees : o.Sees ⟨o.inNamespace, true⟩ := ⟨rfl, fun _ => rfl⟩
  refine ⟨fun site sees y hy => ?_, ?_⟩
  · rcases (same site y).mp hy with hy | ⟨p, hp, hy⟩
    · exact (plain site sees y hy).1
    · exact good site sees p (List.mem_filter.mp hp).1 y hy
  · rw [rest, ← any_codes]
    congr 3
    rw [← any_placed ⟨o.inNamespace, true⟩ x, Bool.eq_iff_iff, List.any_eq_true, List.any_eq_true]
    constructor
    · rintro ⟨p, hp, holds⟩
      rw [← any_placed ⟨o.inNamespace, true⟩ p] at holds
      obtain ⟨y, hy, closes⟩ := List.any_eq_true.mp holds
      exact ⟨y, (same _ y).mpr (.inr ⟨p, hp, hy⟩), closes⟩
    · rintro ⟨y, hy, closes⟩
      rcases (same _ y).mp hy with hy | ⟨p, hp, hy⟩
      · exact absurd closes (by simp [(plain _ sees y hy).2])
      · exact ⟨p, hp, (any_placed ⟨o.inNamespace, true⟩ p) ▸ List.any_eq_true.mpr ⟨y, hy, closes⟩⟩

end Outlook

/-! ## The items of a piece -/

namespace Workpiece

variable {site : Site} {y : Placed}

theorem placed_option (e : Option Expr) : Placed.ofOption site e = e.toList.flatMap (Placed.ofExpr site) := by
  cases e <;> simp

theorem placed_body (s : Option Stmt) : Placed.ofBody site s = s.toList.flatMap (Placed.ofStmt site) := by
  cases s <;> simp

attribute [local simp] placed_option placed_body Placed.ofExprs_eq Placed.ofArgs_eq Placed.ofEntries_eq
    Placed.ofCases_eq
  Placed.ofStmts_eq Placed.ofParams_eq List.flatMap_map List.flatMap_assoc Entry.pieces Case.pieces Arg.piece

theorem placed_kind (kind : ExprKind) : Placed.ofKind site kind = kind.pieces.flatMap (placed site) := by
  cases kind <;> simp [ExprKind.pieces]

theorem placed_func (f : Func) : Placed.ofFunc site f = (f.attributes.map expr ++ f.inner).flatMap (placed site) := by
  obtain ⟨⟩ := f
  simp [Func.inner]

theorem mem_placed_stmtKind {kind : StmtKind} (apart : ∀ path decls, kind ≠ .inNamespace path decls)
    (other : ∀ c, kind ≠ .cls c) : y ∈ Placed.ofStmtKind site kind ↔ y ∈ kind.pieces.flatMap (placed site) := by
  cases kind with
  | inNamespace path decls => exact absurd rfl (apart path decls)
  | cls c => exact absurd rfl (other c)
  | loop cond body test => cases test <;> simp [StmtKind.pieces, or_comm]
  | _ => simp [StmtKind.pieces]

theorem mem_placed_member {m : Member} (own : ∀ f, m.kind = .method f → f.attributes = m.attributes) :
    y ∈ Placed.ofMember site m ↔ y ∈ (m.attributes.map expr ++ m.kind.pieces).flatMap (placed site) := by
  obtain ⟨name, kind, modifiers, attributes, pos⟩ := m
  cases kind with
  | method f =>
    obtain rfl := own f rfl
    simp [MemberKind.pieces, placed_func]
  | _ => simp [MemberKind.pieces]

theorem isPart_kind (kind : ExprKind) : ∀ p ∈ kind.pieces, p.isPart = true := by
  cases kind <;> simp [ExprKind.pieces, isPart, or_imp, forall_and] <;> grind [isPart]

theorem isPart_inner (f : Func) : ∀ p ∈ f.inner, p.isPart = true := by
  simp [Func.inner, isPart, or_imp, forall_and]

theorem isPart_stmtKind {kind : StmtKind} (other : ∀ c, kind ≠ .cls c) : ∀ p ∈ kind.pieces, p.isPart = true := by
  cases kind with
  | cls c => exact absurd rfl (other c)
  | loop cond body test => cases test <;> simp [StmtKind.pieces, isPart]
  | switch target cases => simp [StmtKind.pieces, isPart]; grind [isPart]
  | _ => simp [StmtKind.pieces, isPart]

theorem isPart_memberKind (kind : MemberKind) : ∀ p ∈ kind.pieces, p.isPart = true := by
  cases kind with
  | method f => exact isPart_inner f
  | _ => simp [MemberKind.pieces, isPart]

end Workpiece

/-! ## Synthesized code -/

namespace Grammar

variable {site : Site}

theorem placed_assignment {target value : Expr} {kind : ExprKind} {y : Placed}
    (h : assignment? target value = some kind) :
    y ∈ Placed.ofKind site kind ↔ y ∈ Placed.ofExpr site target ∨ y ∈ Placed.ofExpr site value := by
  obtain ⟨id, pos, code⟩ := target
  unfold assignment? at h
  split at h <;> cases h <;> rename_i same <;> simp only at same <;> subst same <;> simp [or_assoc]

theorem placed_asAbstract (site : Site) (m : Member) :
    Placed.ofMember site (asAbstract m) = Placed.ofMember site m := by
  obtain ⟨⟩ := m
  unfold asAbstract
  split <;> rfl

theorem placed_promotions (id : Nat) (names : List String) :
    ∀ y ∈ Placed.ofStmts site (Synthesis.promotions id names), y.Good := by
  intro y hy
  rw [Placed.ofStmts_eq] at hy
  obtain ⟨s, hs, hy⟩ := List.mem_flatMap.mp hy
  obtain ⟨i, _, rfl⟩ := List.mem_mapIdx.mp hs
  simp only [Synthesis.promotion, Placed.ofStmt, Placed.ofStmtKind, Placed.ofExpr, Placed.ofKind, List.append_nil,
    List.mem_singleton] at hy
  subst hy
  trivial

theorem placed_block {pos : Position} {ss : List Stmt} (good : ∀ y ∈ Placed.ofStmts site ss, y.Good) :
    ∀ y ∈ Placed.ofStmt site ⟨pos, .block ss⟩, y.Good :=
  List.forall_mem_cons.mpr ⟨trivial, good⟩

theorem placed_prepend {stmts : List Stmt} {body : Stmt} (hs : ∀ y ∈ Placed.ofStmts site stmts, y.Good)
    (hb : ∀ y ∈ Placed.ofStmt site body, y.Good) : ∀ y ∈ Placed.ofStmt site (prepend stmts body), y.Good := by
  have append (more : List Stmt) (hm : ∀ y ∈ Placed.ofStmts site more, y.Good) :
      ∀ y ∈ Placed.ofStmts site (stmts ++ more), y.Good := by
    rw [Placed.ofStmts_append]
    exact List.forall_mem_append.mpr ⟨hs, hm⟩
  obtain ⟨pos, kind⟩ := body
  unfold prepend
  split
  · rename_i rest same
    obtain rfl : kind = .block rest := same
    exact placed_block (append rest fun y hy => hb y (List.mem_cons_of_mem _ hy))
  · exact placed_block (append [⟨pos, kind⟩] (by simpa [Placed.ofStmts] using hb))

theorem placed_toBlock {s : Stmt} (hs : ∀ y ∈ Placed.ofStmt site s, y.Good) :
    ∀ y ∈ Placed.ofStmt site s.toBlock, y.Good := by
  unfold Stmt.toBlock
  split
  · exact hs
  · exact placed_block (by simpa [Placed.ofStmts] using hs)

theorem placed_nameList (site : Site) : ∀ (names : List String) (id start : Nat),
    Placed.ofExprs site (Synthesis.nameList id start names).1 = []
  | [], id, start => by simp [Synthesis.nameList]
  | [name], id, start => by simp [Synthesis.nameList]
  | name :: next :: names, id, start => by
    have ih := placed_nameList site (next :: names) (id + 1) (start + name.utf8ByteSize + 2)
    simpa [Synthesis.nameList] using ih

end Grammar

/-! ## Steps -/

namespace Outlook

variable {o o' : Outlook} {ks : List Workpiece} {c c' : Cursor} {x : Workpiece}

theorem Leads.members {ms : List Member} (h : o.Leads (ms.map .member) o') :
    o' = { o with
      exempt := o.exempt && !ms.any Member.holdsInterface, mark := o.mark && !ms.any Member.holdsInterface } ∧
      ∀ site, o.Sees site → ∀ kind, ∀ y ∈ Placed.ofMembers site kind ms, y.Good := by
  induction ms generalizing o with
  | nil => exact ⟨by rw [← show o = o' from h]; simp, by simp⟩
  | cons m ms ih =>
    obtain ⟨allows, leads⟩ := h
    obtain ⟨same, good⟩ := ih leads
    refine ⟨by simpa [behind, Bool.and_assoc] using same, fun site sees kind => ?_⟩
    have next : (o.behind (.member m)).Sees (site.behind m) := ⟨sees.1, fun free => ?_⟩
    · rw [Placed.ofMembers, List.forall_mem_cons, List.forall_mem_append]
      exact ⟨fun _ => (allows site sees).1, (allows site sees).2, good _ next kind⟩
    · simp only [behind, Site.behind, Bool.and_eq_true] at free ⊢
      exact ⟨sees.2 free.1, free.2⟩

/-- Members of an interface count as abstract. -/
theorem good_asAbstract (site : Site) (ms : List Member) {kind : ClassKind}
    (h : ∀ y ∈ Placed.ofMembers site kind ms, y.Good) :
    ∀ y ∈ Placed.ofMembers site .interface (ms.map Grammar.asAbstract), y.Good := by
  induction ms generalizing site with
  | nil => simp
  | cons m ms ih =>
    rw [Placed.ofMembers, List.forall_mem_cons, List.forall_mem_append] at h
    have same : site.behind (Grammar.asAbstract m) = site.behind m := by
      simp [Site.behind, Member.holdsInterface, Grammar.inside_asAbstract]
    rw [List.map_cons, Placed.ofMembers, List.forall_mem_cons, List.forall_mem_append, Grammar.placed_asAbstract, same]
    exact ⟨fun h => absurd rfl h, h.2.1, ih _ h.2.2⟩

theorem leads_class {cls : Class} {pos : Position} (plain : cls.kind ≠ .interface)
    (h : o.Leads (cls.attributes.map .expr ++ cls.members.map .member) o') :
    o.Allows (.stmt ⟨pos, .cls cls⟩) ∧ o'.mark = (o.mark && !holdsInterface (.stmt ⟨pos, .cls cls⟩)) ∧
      o'.inNamespace = o.inNamespace := by
  obtain ⟨o₁, attributes, members⟩ := leads_append.mp h
  obtain ⟨rfl, before, -⟩ := attributes.parts (by simp [isPart])
  obtain ⟨rfl, inside⟩ := members.members
  obtain ⟨name, kind, parent, interfaces, members, attributes, _⟩ := cls
  refine ⟨fun site sees => ?_, ?_, rfl⟩
  · simp only [placed, Placed.ofStmt, Placed.ofStmtKind, Placed.ofClass, List.forall_mem_cons, List.forall_mem_append]
    refine ⟨trivial, fun y hy => ?_, inside (site.inBody kind) ⟨sees.1, fun free => ?_⟩ kind⟩
    · rw [Placed.ofExprs_eq] at hy
      obtain ⟨e, he, hy⟩ := List.mem_flatMap.mp hy
      exact before site sees (.expr e) (List.mem_map_of_mem he) y hy
    · simp [Site.inBody, sees.2 free]
  · have other : (kind == .interface) = false := beq_eq_false_iff_ne.mpr plain
    have inside : Member.holdsInterface = fun m => (Inside.ofMember m).any Class.isInterface := rfl
    simp [holdsInterface, Inside.ofExprs_eq, Inside.ofMembers_eq, List.any_flatMap, List.any_map, Function.comp_def,
      inside, Class.isInterface, other, Bool.and_assoc]

/-- A piece can stand here, and behind it the marks are those of `o'`. -/
def Takes (o : Outlook) (x : Workpiece) (o' : Outlook) : Prop :=
  o.Allows x ∧ (o.behind x).mark = o'.mark ∧ (o.behind x).inNamespace = o'.inNamespace

theorem allows_of_good (part : x.isPart = true) (code : x.isCode = true)
    (good : ∀ site, o.Sees site → ∀ y ∈ x.placed site, y.Good) : o.Allows x := by
  cases x with
  | member | namespaceBody | interfaceBody => cases part
  | expr | stmt | func | param | accessors | synthetic => exact good
  | _ => cases code

section
variable (h : o.Leads ks o')
include h

theorem Leads.takes (part : x.isPart = true) (code : x.isCode = true) (own : Site → List Placed)
    (parts : ∀ p ∈ codes ks, p.isPart = true)
    (same : ∀ site y, y ∈ x.placed site ↔ y ∈ own site ∨ y ∈ (codes ks).flatMap (placed site))
    (plain : ∀ site, o.Sees site → ∀ y ∈ own site, y.Good ∧ y.closes = false) : o.Takes x o' := by
  obtain ⟨good, rfl⟩ := h.form own parts same plain
  rw [Takes, behind_part part]
  exact ⟨allows_of_good part code good, rfl, rfl⟩

theorem leads_expr {e : Expr} (parts : ∀ p ∈ codes ks, p.isPart = true)
    (same : ∀ site y, y ∈ Placed.ofExpr site e ↔ y ∈ (codes ks).flatMap (placed site)) : o.Takes (.expr e) o' :=
  h.takes rfl rfl (fun _ => []) parts (by simpa using same) (by simp)

theorem leads_stmt {kind : StmtKind} {pos : Position} (parts : codes ks = kind.pieces) (formed : kind.Formed ks pos) :
    o.Takes (.stmt ⟨pos, kind⟩) o' := by
  by_cases isClass : ∃ cls, kind = .cls cls
  · obtain ⟨cls, rfl⟩ := isClass
    have parted := h.code
    rw [parts] at parted
    obtain ⟨allows, mark, inside⟩ := leads_class formed.1 parted
    exact ⟨allows, mark.symm, inside.symm⟩
  · have other : ∀ cls, kind ≠ .cls cls := fun cls same => isClass ⟨cls, same⟩
    have apart : ∀ path decls, kind ≠ .inNamespace path decls := by
      rintro path decls rfl
      exact formed
    have parted : ∀ p ∈ codes ks, p.isPart = true := parts ▸ isPart_stmtKind other
    -- An import is good in a namespace, and where it was read the bench says that it is in one.
    have inside := (h.parts (isPart_of_codes parted)).2.2.1 true
    refine h.takes rfl rfl (fun site => [⟨site, .stmt ⟨pos, kind⟩⟩]) parted
      (fun site y => by simp [parts, mem_placed_stmtKind apart other]) fun site sees y hy => ?_
    obtain rfl := List.mem_singleton.mp hy
    cases kind with
    | cls cls => exact absurd rfl (other cls)
    | inNamespace path decls => exact absurd rfl (apart path decls)
    | «use» path targets attributes => exact ⟨sees.1.trans (inside formed), rfl⟩
    | _ => exact ⟨trivial, rfl⟩

/-- A method without a body is good if it is abstract, or if the exemption was seen where it was read. -/
theorem leads_member (fair : o.Fair) {m : Member} (parts : codes ks = m.attributes.map .expr ++ m.kind.pieces)
    (formed : m.Formed ks) : o.Takes (.member m) o' := by
  have parted : ∀ p ∈ codes ks, p.isPart = true := by
    rw [parts]
    exact List.forall_mem_append.mpr ⟨by simp [isPart], isPart_memberKind m.kind⟩
  have marked := (h.parts (isPart_of_codes parted)).2.2.2
  obtain ⟨good, rfl⟩ := h.form (x := .member m) (fun _ => []) parted
    (fun site y => by simp only [placed, mem_placed_member fun f same => (formed f same).1, parts]; simp) (by simp)
  refine ⟨fun site sees => ⟨fun f same => ?_, good site sees⟩, rfl, rfl⟩
  obtain ⟨-, -, bodiless, bodied⟩ := formed f same
  exact ⟨bodiless, fun none => (bodied none).imp_right fun free => sees.2 (fair (marked free))⟩

end

theorem leads_forms (forms : Forms c ks x c') (fair : o.Fair) (h : o.Leads ks o') : o.Takes x o' := by
  cases forms with
  | expr parts _ _ _ => exact leads_expr h (parts ▸ isPart_kind _) fun site y => by rw [parts, ← placed_kind]; rfl
  | assignment parts assigned _ =>
    exact leads_expr h (by simp [parts, isPart]) fun site y => by simp [parts, Grammar.placed_assignment assigned]
  | compound parts sum assigned _ _ =>
    subst sum
    exact leads_expr h (by simp [parts, isPart]) fun site y => by simp [parts, Grammar.placed_assignment assigned]
  | call parts => exact leads_expr h (by simp [parts, isPart]) fun site y => by simp [parts, Placed.ofArgs_eq]; grind
  | lambda parts => exact leads_expr h (by simp [parts, isPart]) fun site y => by simp [parts]; grind
  | @template callee fragments embedded _ _ _ parts _ _ _ _ =>
    -- Texts and values are read in turn, and stand in two lists.
    have woven := weave_perm fragments embedded
    refine leads_expr h (fun p hp => ?_) fun site y => ?_
    · rw [parts, List.mem_cons, woven.mem_iff] at hp
      simp only [List.mem_append, List.mem_map] at hp
      rcases hp with rfl | ⟨e, _, rfl⟩ | ⟨e, _, rfl⟩ <;> rfl
    · rw [parts, List.flatMap_cons, List.mem_append, (woven.flatMap_right _).mem_iff]
      simp [Placed.ofExprs_eq, List.flatMap_map]
  | stmt parts _ formed => exact leads_stmt h parts formed
  | @factory enumName caseName index names parts =>
    let made := Synthesis.factory c.nextId enumName caseName index names
    exact h.takes rfl rfl (fun site => Placed.ofStmt site made) (by simp [parts]) (by simp [parts, made])
      fun site _ => by simp [made, Synthesis.factory, Grammar.placed_nameList, Placed.Good, Placed.closes]
  | @case m f body parts method made bare concrete _ _ =>
    have own : ∀ g, m.kind = .method g → g.attributes = m.attributes := by
      intro g same
      obtain rfl : f = g := by simpa [method] using same
      rw [bare.1, bare.2]
    obtain ⟨good, rfl⟩ := h.form (x := .member m) (fun _ => []) (by simp [parts, isPart, or_imp, forall_and])
      (fun site y => by simp [parts, mem_placed_member own, bare.1, method, MemberKind.pieces, Func.inner, made])
        (by simp)
    refine ⟨fun site sees => ⟨fun g same => ?_, good site sees⟩, rfl, rfl⟩
    obtain rfl : f = g := by simpa [method] using same
    simp [concrete, made]
  | @func f parts _ =>
    have parted : ∀ p ∈ codes ks, p.isPart = true := by
      rw [parts]
      exact List.forall_mem_append.mpr ⟨by simp [isPart], isPart_inner f⟩
    exact h.takes rfl rfl (fun _ => []) parted (fun site y => by rw [parts, ← placed_func]; simp) (by simp)
  | param parts _ =>
    exact h.takes rfl rfl (fun _ => []) (by simp [parts, isPart])
      (fun site y => by simp [parts, placed_option, List.flatMap_map]) (by simp)
  | noAccessors parts => exact h.takes rfl rfl (fun _ => []) (by simp [parts]) (by simp [parts]) (by simp)
  | getter parts =>
    exact h.takes rfl rfl (fun _ => []) (by simp [parts, isPart]) (fun site y => by simp only [parts]; simp [or_comm])
      (by simp)
  | setter parts => exact h.takes rfl rfl (fun _ => []) (by simp [parts, isPart]) (by simp [parts]) (by simp)
  | member parts _ formed => exact leads_member h fair parts formed

end Outlook

/-- The outlook from one end of a bench leads to the other end, where the cursor has its marks. At the
end of a file that is one namespace, the cursor keeps the mark of the namespace. -/
def Outlook.Meets (o : Outlook) (s : List Workpiece) (c : Cursor) : Prop :=
  ∃ o', o.Leads s o' ∧ c.inInterface = o'.mark ∧ (c.inNamespace = o'.inNamespace ∨ c.rest = [] ∧ c.inNamespace = true)

namespace Outlook

variable {o o' : Outlook} {s s' ks : List Workpiece} {c c' : Cursor} {x x' : Workpiece}

theorem Leads.snoc (h : o.Leads s o') (allows : o'.Allows x) : o.Leads (s ++ [x]) (o'.behind x) :=
  leads_append.mpr ⟨o', h, allows, rfl⟩

theorem Leads.replace {y : Workpiece} (h : o.Leads (s ++ x :: s') o') (allows : ∀ o : Outlook, o.Allows x → o.Allows y)
    (behind : ∀ o : Outlook, o.behind y = o.behind x) : o.Leads (s ++ y :: s') o' := by
  obtain ⟨o₁, before, here, rest⟩ := leads_append.mp h
  exact leads_append.mpr ⟨o₁, before, allows o₁ here, (behind o₁).symm ▸ rest⟩

theorem Leads.promoted {ms ms' : List Member} {A : Param → Prop} (fields : Grammar.Promoted A ms ms')
    (h : o.Leads (ms.map .member) o') : o.Leads (ms'.map .member) o' := by
  induction fields generalizing o with
  | nil => exact h
  | keep _ ih => exact ⟨h.1, ih h.2⟩
  | @field p _ _ _ _ ih =>
    have plain : o.behind (.member (Grammar.fieldOf p)) = o := by
      simp [Outlook.behind, Member.holdsInterface, Grammar.fieldOf]
    refine ⟨fun site sees => ⟨fun f same => ?_, by simp [Grammar.fieldOf]⟩, plain.symm ▸ ih h⟩
    cases same

end Outlook

theorem Step.meets {o : Outlook} (fair : o.Fair) {s s' : List Workpiece} {c c' : Cursor} (step : Step s c s' c')
    (h : o.Meets s c) : o.Meets s' c' := by
  obtain ⟨o', leads, mark, inside⟩ := h
  -- Where a token is left, the cursor is in a namespace just if the outlook is.
  have advance {s : List Workpiece} (more : c.rest ≠ []) (leads : o.Leads s o') : o.Meets s c.advance := by
    have same : c.inNamespace = o'.inNamespace := inside.resolve_right fun none => more none.1
    refine ⟨o', leads, ?_, .inl ?_⟩ <;> unfold Cursor.advance <;> split <;> assumption
  -- What is no code changes no outlook.
  have lay {s : List Workpiece} {x : Workpiece} (leads : o.Leads s o') (loose : x.isCode = false)
    (allows : o'.Allows x) :
      o.Leads (s ++ [x]) o' := by
    simpa only [Outlook.behind_loose loose] using leads.snoc allows
  cases step with
  | read more => exact advance more (lay leads rfl (by simp [Outlook.Allows]))
  | ahead => exact ⟨o', lay leads rfl (by simp [Outlook.Allows]), mark, inside⟩
  | settle _ =>
    exact ⟨o', leads.replace (by simp [Outlook.Allows]) (by simp [Outlook.behind, holdsInterface]), mark, inside⟩
  | @readBehind _ _ _ t _ more =>
    have settled :=
      leads.replace (y := .behind t.pos) (by simp [Outlook.Allows]) (by simp [Outlook.behind, holdsInterface])
    exact advance more (lay settled rfl (by simp [Outlook.Allows]))
  | previous => exact ⟨o', lay leads rfl (by simp [Outlook.Allows]), mark, inside⟩
  | copy _ => exact ⟨o', lay leads rfl (by simp [Outlook.Allows]), mark, inside⟩
  | span _ => exact ⟨o', lay leads rfl (by simp [Outlook.Allows]), mark, inside⟩
  | join _ _ => exact ⟨o', lay leads rfl (by simp [Outlook.Allows]), mark, inside⟩
  | drop loose =>
    obtain ⟨o₁, before, -, rest⟩ := Outlook.leads_append.mp leads
    rw [Outlook.behind_loose loose] at rest
    exact ⟨o', Outlook.leads_append.mpr ⟨o₁, before, rest⟩, mark, inside⟩
  | form forms =>
    -- The parts are at the end of the bench, and what they lead to is the outlook behind the new piece.
    obtain ⟨o₁, before, here⟩ := Outlook.leads_append.mp leads
    obtain ⟨allows, mark', inside'⟩ := Outlook.leads_forms forms (before.fair fair) here
    obtain ⟨mark₁, inside₁, rest⟩ := forms.marks
    refine ⟨o₁.behind _, before.snoc allows, ?_, ?_⟩
    · rw [mark₁, mark, mark']
    · rwa [inside₁, rest, inside']
  | toBlock =>
    refine ⟨o', leads.replace (fun o allows site sees => ?_) fun o => ?_, mark, inside⟩
    · exact Grammar.placed_toBlock (allows site sees)
    · simp [Outlook.behind, holdsInterface]
  | prepend =>
    refine ⟨o', leads.replace (fun o allows site sees => ?_) fun o => ?_, mark, inside⟩
    · exact Grammar.placed_prepend (Grammar.placed_promotions _ _) (allows site sees)
    · simp [Outlook.behind, holdsInterface, Grammar.inside_prepend, Grammar.inside_promotions]
  | @promote _ _ ms =>
    obtain ⟨o₁, before, here⟩ := Outlook.leads_append.mp leads
    have fields := Grammar.withPromotedFields_fields ms
    exact ⟨o', Outlook.leads_append.mpr ⟨o₁, before, here.promoted fields⟩, mark, inside⟩
  | «within» more =>
    have read := lay leads (x := .token c.peek) rfl (by simp [Outlook.Allows])
    have same : o'.inNamespace = c.inNamespace := (inside.resolve_right fun none => more none.1).symm
    exact advance more (by simpa [Outlook.behind, holdsInterface] using read.snoc (x := .within c.inNamespace) same)
  | exempt free => exact ⟨o', lay leads rfl (mark.symm.trans free), mark, inside⟩
  | enterNamespace _ _ => exact ⟨_, leads.snoc (x := .namespaceBody) (by simp [Outlook.Allows]), mark, .inl rfl⟩
  | @leaveNamespace s ks ds _ _ pos path decls apart none parts _ left =>
    -- The header was read outside of namespaces, and the declarations behind the mark are in this one.
    obtain ⟨o₁, before, o₂, header, -, body⟩ := by simpa only [Outlook.leads_append, List.append_assoc] using leads
    have outside := (header.parts (Outlook.isPart_of_codes (by simp [none]))).2.2.1 false apart
    obtain rfl : o₁ = o₂ := by simpa [none, Outlook.Leads] using header.code
    have listed := body.code
    rw [parts] at listed
    obtain ⟨rfl, good, -⟩ := listed.parts (by simp [isPart])
    refine ⟨_, before.snoc fun site sees => ?_, ?_, ?_⟩
    · refine List.forall_mem_cons.mpr ⟨sees.1.trans outside, fun y hy => ?_⟩
      rw [Placed.ofStmtKind, Placed.ofStmts_eq] at hy
      obtain ⟨d, hd, hy⟩ := List.mem_flatMap.mp hy
      exact good { site with inNamespace := true } ⟨rfl, sees.2⟩ (.stmt d) (List.mem_map_of_mem hd) y hy
    · have same : c'.inInterface = c.inInterface := by rcases left with rfl | ⟨-, rfl⟩ <;> rfl
      rw [same, mark]
      simp [Outlook.behind, holdsInterface, Inside.ofStmts_eq, List.any_flatMap, List.any_map, Function.comp_def]
    -- A namespace without braces reaches to the end of the file.
    · rcases left with rfl | ⟨rest, rfl⟩
      · exact .inl outside.symm
      · exact .inr ⟨rest, inside.elim id (·.2)⟩
  | enterInterface => exact ⟨_, leads.snoc (x := .interfaceBody) (by simp [Outlook.Allows]), rfl, inside⟩
  | @leaveInterface s ks ds _ cls ms t interface attributes parts members _ _ _ =>
    -- Members behind the mark were read as exempt, and the tree lists them as abstract.
    obtain ⟨o₁, before, o₂, header, -, body⟩ := by simpa only [Outlook.leads_append, List.append_assoc] using leads
    have heading := header.code
    rw [attributes] at heading
    obtain ⟨rfl, good, -⟩ := heading.parts (by simp [isPart])
    have listed := body.code
    rw [parts] at listed
    obtain ⟨rfl, abstract⟩ := listed.members
    obtain ⟨name, kind, parent, interfaces, members', attributes', pos⟩ := cls
    obtain rfl : kind = .interface := interface
    obtain rfl : members' = ms.map Grammar.asAbstract := members
    refine ⟨_, before.snoc fun site sees => ?_, ?_, inside⟩
    · simp only [placed, Placed.ofStmt, Placed.ofStmtKind, Placed.ofClass, List.forall_mem_cons, List.forall_mem_append]
      refine ⟨trivial, fun y hy => ?_, ?_⟩
      · rw [Placed.ofExprs_eq] at hy
        obtain ⟨e, he, hy⟩ := List.mem_flatMap.mp hy
        exact good site sees (.expr e) (List.mem_map_of_mem he) y hy
      · exact Outlook.good_asAbstract _ ms (abstract (site.inBody .interface) ⟨sees.1, fun _ => rfl⟩ .interface)
    · simp [Outlook.behind, holdsInterface, Class.isInterface]

end PhaseLang
