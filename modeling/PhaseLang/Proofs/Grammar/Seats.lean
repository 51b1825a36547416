import PhaseLang.Proofs.Grammar.Numbering

/-!
# Where names stand

A name that was read stands at the token that it was read from, and tokens are used up. So no two names
of a program stand at one token.
-/

namespace PhaseLang

open Workpiece

/-! ## Seats -/

/-- A name that was read, and not made up. -/
def Expr.isRead (e : Expr) : Bool := e.kind.isName && e.pos.file != Synthesis.file

/-- Where the names among some expressions stand. -/
def seats (es : List Expr) : List Position := (es.filter (·.isRead)).map (·.pos)

@[simp] theorem seats_nil : seats [] = [] := rfl

@[simp] theorem seats_cons (e : Expr) (es : List Expr) :
    seats (e :: es) = if e.isRead then e.pos :: seats es else seats es := by
  unfold seats
  rw [List.filter_cons]
  split <;> rfl

@[simp] theorem seats_append (es es' : List Expr) : seats (es ++ es') = seats es ++ seats es' := by simp [seats]

theorem seats_subperm {es es' : List Expr} (h : es.Subperm es') : (seats es).Subperm (seats es') := by
  obtain ⟨l, perm, sub⟩ := h.filter (·.isRead)
  exact ⟨l.map _, perm.map _, sub.map _⟩

theorem seats_node {id : Nat} {pos : Position} {kind : ExprKind} (other : kind.isName = false) :
    seats (Nodes.ofExpr ⟨id, pos, kind⟩) = seats (Nodes.ofKind kind) := by
  simp [Expr.isRead, other]

/-! ## Synthesized statements -/

namespace Synthesis

theorem seats_promotions (id : Nat) (names : List String) : seats (Nodes.ofStmts (promotions id names)) = [] := by
  have one (id : Nat) (name : String) : seats (Nodes.ofStmt (promotion id name)) = [] := by
    simp [promotion, Expr.isRead, ExprKind.isName, span, not_addsTo_ident]
  have all (ss : List Stmt) (h : ∀ s ∈ ss, seats (Nodes.ofStmt s) = []) : seats (Nodes.ofStmts ss) = [] := by
    induction ss with
    | nil => rfl
    | cons s ss ih =>
      obtain ⟨first, rest⟩ := List.forall_mem_cons.mp h
      rw [Nodes.ofStmts, seats_append, first, ih rest, List.nil_append]
  refine all _ fun s hs => ?_
  obtain ⟨_, _, rfl⟩ := List.mem_mapIdx.mp hs
  exact one _ _

theorem seats_nameList :
    ∀ (names : List String) (id start : Nat), seats (Nodes.ofExprs (nameList id start names).1) = []
  | [], _, _ => rfl
  | name :: names, id, start => by
    rw [nameList_cons]
    simpa [Expr.isRead, span] using seats_nameList names _ _

theorem seats_factory (id : Nat) (enumName caseName : String) (index : Nat) (names : List String) :
    seats (Nodes.ofStmt (factory id enumName caseName index names)) = [] := by
  simp [factory, Expr.isRead, ExprKind.isName, seats_nameList]

end Synthesis

/-! ## Steps -/

/-- A token can become a name. -/
noncomputable def Workpiece.seats : Workpiece → List Position
  | token t => [t.pos]
  | x => PhaseLang.seats x.nodes

section
variable {s s' ks : List Workpiece} {c c' : Cursor} {x : Workpiece} {row : List Position}

theorem seats_codes (ks : List Workpiece) :
    (PhaseLang.seats ((codes ks).flatMap nodes)).Sublist (ks.flatMap Workpiece.seats) := by
  rw [nodes_codes]
  induction ks with
  | nil => exact .slnil
  | cons x ks ih =>
    rw [List.flatMap_cons, List.flatMap_cons, seats_append]
    refine List.Sublist.append ?_ ih
    cases x with
    | token t => exact List.nil_sublist _
    | _ => exact .refl _

theorem seats_code (code : x.isCode = true) : x.seats = PhaseLang.seats x.nodes := by
  cases x with
  | token t => cases code
  | _ => rfl

theorem Grammar.assignment?_isName {target value : Expr} {kind : ExprKind} (h : assignment? target value = some kind) :
    kind.isName = false := by
  unfold assignment? at h
  split at h <;> cases h <;> rfl

theorem Forms.seats (forms : Forms c ks x c') : x.seats.Subperm (ks.flatMap Workpiece.seats) := by
  have held {es : List Expr} (h : es.Subperm ((codes ks).flatMap nodes)) :
      (PhaseLang.seats es).Subperm (ks.flatMap Workpiece.seats) := (seats_subperm h).trans (seats_codes ks).subperm
  have all := held (.refl _)
  have kept := forms.kept
  rw [seats_code forms.isCode]
  cases forms with
  | @expr kind pos parts _ _ name =>
    by_cases named : kind.isName = true
    · -- a name has no parts and takes its token
      obtain ⟨t, token, rfl⟩ := name named
      have alone : Nodes.ofKind kind = [] := by
        cases kind <;> first | rfl | cases named
      have seat : (PhaseLang.seats (nodes (.expr ⟨c.nextId, t.pos, kind⟩))).Subperm [t.pos] := by
        simp only [nodes, Nodes.ofExpr, alone, List.nil_append, seats_cons, seats_nil]
        split
        · exact .refl _
        · exact List.nil_subperm
      refine seat.trans (List.singleton_subperm_iff.mpr (List.mem_flatMap.mpr ⟨_, token, ?_⟩))
      simp [Workpiece.seats]
    · rw [nodes, seats_node (Bool.eq_false_iff.mpr named)]
      exact held (parts ▸ (ofKind_sublist kind).subperm)
  | assignment parts assigned _ =>
    rw [nodes, seats_node (Grammar.assignment?_isName assigned)]
    refine held ?_
    simpa [parts] using (Grammar.assignment?_nodes assigned).subperm
  | compound parts sum assigned _ _ =>
    subst sum
    rw [nodes, seats_node (Grammar.assignment?_isName assigned), Grammar.assignment?_nodes_compound assigned rfl,
      seats_node rfl]
    refine held ?_
    simpa [parts] using List.Subperm.refl _
  | @call input callee _ _ args parts =>
    refine .trans ?_ all
    have last :
        (PhaseLang.seats (Nodes.ofExpr callee ++ Nodes.ofArgs args) ++ PhaseLang.seats (Nodes.ofExpr input)).Perm _ :=
      List.perm_append_comm
    simpa [parts, Nodes.ofArgs_eq, Expr.isRead, ExprKind.isName] using last.subperm
  | lambda parts =>
    refine .trans ?_ all
    simpa [parts, Expr.isRead, ExprKind.isName] using List.perm_append_comm.subperm
  | @template _ fragments embedded _ _ _ parts _ _ _ _ =>
    have woven := (weave_perm fragments embedded).flatMap_right nodes
    refine .trans ?_ all
    rw [parts]
    refine .trans ?_ (seats_subperm (woven.symm.append_left _).subperm)
    simpa [Expr.isRead, ExprKind.isName, List.flatMap_map, Nodes.ofExprs_eq] using List.Subperm.refl _
  | factory _ =>
    rw [nodes, Synthesis.seats_factory]
    exact List.nil_subperm
  | _ => exact held (kept nofun nofun).subperm

/-- The names on a bench and the tokens to come stand at different tokens of the row. -/
def Seated (row : List Position) (s : List Workpiece) (c : Cursor) : Prop :=
  (s.flatMap Workpiece.seats ++ c.rest.map (·.pos)).Subperm row

theorem Seated.mono (h : Seated row s c) (rest : c'.rest = c.rest)
    (sub : (s'.flatMap Workpiece.seats).Subperm (s.flatMap Workpiece.seats)) : Seated row s' c' := by
  unfold Seated
  rw [rest]
  exact ((List.subperm_append_right _).mpr sub).trans h

theorem Seated.read (h : Seated row s c) (more : c.rest ≠ []) : Seated row (s ++ [.token c.peek]) c.advance := by
  obtain ⟨t, ts, rest⟩ := List.exists_cons_of_ne_nil more
  have peek : c.peek = t := by simp [Cursor.peek, rest]
  have next : c.advance.rest = ts := by simp [Cursor.advance, rest]
  unfold Seated at h ⊢
  rw [rest] at h
  simpa [peek, next, Workpiece.seats] using h

theorem Step.seated (step : Step s c s' c') (h : Seated row s c) : Seated row s' c' := by
  cases step with
  | read more => exact h.read more
  | ahead | previous | copy _ | span _ | join _ _ | exempt _ | enterNamespace _ _ | enterInterface | settle _
  | toBlock =>
    exact h.mono rfl (by simpa [Workpiece.seats] using List.Subperm.refl _)
  | readBehind more =>
    refine Seated.read (h.mono rfl ?_) more
    simpa [Workpiece.seats] using List.Subperm.refl _
  | drop _ => exact h.mono rfl (by simpa using ((List.sublist_append_right _ _).append_left _).subperm)
  | form forms =>
    refine h.mono forms.marks.2.2 ?_
    simpa using (List.subperm_append_left _).mpr forms.seats
  | prepend =>
    refine h.mono rfl ?_
    simpa [Workpiece.seats, Grammar.ofStmt_prepend, Synthesis.seats_promotions] using List.Subperm.refl _
  | @promote s _ ms =>
    have fields := Grammar.withPromotedFields_fields ms
    refine h.mono rfl ?_
    rw [List.flatMap_append, List.flatMap_append, List.flatMap_map, List.flatMap_map,
      fields.flatMap_eq fun p => by simp [Workpiece.seats, Grammar.fieldOf]]
  | «within» more => exact (h.read more).mono rfl (by simpa [Workpiece.seats] using List.Subperm.refl _)
  | @leaveNamespace s ks ds _ _ pos path decls _ none parts _ left =>
    have rest : c'.rest = c.rest := by rcases left with rfl | ⟨-, rfl⟩ <;> rfl
    have inner := seats_codes (ks ++ .namespaceBody :: ds)
    simp only [codes_append, codes_cons, isCode, none, parts, if_true, List.nil_append] at inner
    refine h.mono rest ?_
    simpa [Workpiece.seats, List.flatMap_map, Nodes.ofStmts_eq] using
      (inner.append_left (s.flatMap Workpiece.seats)).subperm
  | @leaveInterface s ks ds _ cls ms t _ attributes parts members _ token start =>
    have inner := seats_codes (ks ++ .interfaceBody :: ds)
    simp only [codes_append, codes_cons, isCode, attributes, parts, if_true] at inner
    obtain ⟨⟩ := cls
    simp only at members
    subst members
    refine h.mono rfl ?_
    simpa [Workpiece.seats, List.flatMap_map, Nodes.ofExprs_eq, Nodes.ofMembers_eq, Grammar.ofMember_asAbstract] using
      (inner.append_left (s.flatMap Workpiece.seats)).subperm

end

/-! ## Whole programs -/

/-- No two names of a program that were read stand at the same place. -/
theorem readSource_seats {source file : String} {nextId next : Nat} {program : List Stmt}
    (read : (readSource source file nextId).result = .ok (program, next)) : (seats (Nodes.ofStmts program)).Nodup := by
  rw [readSource_result] at read
  obtain ⟨ts, eof, tokens, row⟩ := scan_row source file
  rw [tokens] at read
  obtain ⟨c, -, steps⟩ := parse_steps row.last row.only read
  have seated := steps.keep (I := Seated (ts.map (·.pos))) (fun step h => step.seated h)
    (show List.Subperm _ _ from List.Subperm.refl _)
  have names := ((seats_codes (program.map .stmt)).trans (List.sublist_append_left ..)).subperm.trans seated
  rw [codes_stmts, List.flatMap_map] at names
  obtain ⟨l, perm, sub⟩ : (seats (Nodes.ofStmts program)).Subperm (ts.map (·.pos)) := by
    simpa [Nodes.ofStmts_eq] using names
  have distinct : (ts.map (·.pos)).Nodup := List.pairwise_map.mpr <|
    (List.pairwise_append.mp row.ascending).1.imp fun lt same => Nat.ne_of_lt lt (congrArg Position.start same)
  exact perm.nodup_iff.mp (distinct.sublist sub)

end PhaseLang
