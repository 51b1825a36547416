import PhaseLang.Proofs.Grammar.Starts
import Mathlib.Data.List.Perm.Subperm

/-!
# Programs are built

What lies on a bench is built: its expressions have ids of their own, below the next id of the cursor,
and operands stand where their operators take them. Every step preserves this, so it holds of a program
that was read.
-/

namespace PhaseLang

open Workpiece

theorem Built.subperm {lo hi : Nat} {es es' : List Expr} (h : Built lo hi es) (s : es'.Subperm es) :
    Built lo hi es' := by
  obtain ⟨l, hp, hs⟩ := s
  exact (h.sublist hs).perm hp

/-! ## Synthesized statements -/

namespace Synthesis

variable {lo hi : Nat} {done : List Expr}

theorem not_addsTo_ident {more : ExprKind} {id : Nat} {pos : Position} {name : String} :
    ¬ Expr.AddsTo more ⟨id, pos, .ident name⟩ := by
  rintro ⟨_, _, _, h⟩
  cases h

theorem promotion_built (name : String) (h : Built lo hi done) :
    Built lo (hi + promotionIds) (done ++ Nodes.ofStmt (promotion hi name)) := by
  have operands := (h.snoc (e := ⟨hi, span 0 4, .this⟩) rfl trivial).snoc
    (e := ⟨hi + 1, span 5 name.utf8ByteSize, .ident name⟩) rfl trivial
  have := ((operands.mono (Nat.le_succ _)).snoc
    (e := ⟨hi + 3, span (8 + name.utf8ByteSize) name.utf8ByteSize, .ident name⟩) rfl trivial).snoc
    (e := ⟨hi + 4, span 0 (8 + 2 * name.utf8ByteSize), .set ⟨hi, span 0 4, .this⟩
      ⟨hi + 1, span 5 name.utf8ByteSize, .ident name⟩
      ⟨hi + 3, span (8 + name.utf8ByteSize) name.utf8ByteSize, .ident name⟩⟩) rfl (.inl (Nat.le_refl 9))
  simpa [promotionIds, promotion, not_addsTo_ident] using this

theorem promotions_built : ∀ (names : List String) {hi : Nat} {done : List Expr}, Built lo hi done →
    Built lo (hi + names.length * promotionIds) (done ++ Nodes.ofStmts (promotions hi names))
  | [], hi, done, h => by simpa [promotions] using h
  | name :: names, hi, done, h => by
    have := promotions_built names (promotion_built name h)
    have next (i : Nat) : hi + promotionIds + i * promotionIds = hi + (i + 1) * promotionIds := by
      rw [Nat.succ_mul]; omega
    simp only [promotions, next] at this
    simpa [promotions, List.mapIdx_cons, Nat.succ_mul, Nat.add_comm, Nat.add_left_comm] using this

theorem nameList_cons (id start : Nat) (name : String) (names : List String) :
    (nameList id start (name :: names)).1 = ⟨id, span start name.utf8ByteSize, .ident name⟩ ::
      (nameList (id + 1) (start + name.utf8ByteSize + 2) names).1 := by
  cases names <;> rfl

theorem nameList_built : ∀ (names : List String) (start : Nat) {hi : Nat} {done : List Expr}, Built lo hi done →
    Built lo (hi + names.length) (done ++ Nodes.ofExprs (nameList hi start names).1)
  | [], start, hi, done, h => by simpa [nameList] using h
  | name :: names, start, hi, done, h => by
    have := nameList_built names (start + name.utf8ByteSize + 2)
      (h.snoc (e := ⟨hi, span start name.utf8ByteSize, .ident name⟩) rfl trivial)
    rw [nameList_cons]
    simpa [Nat.add_comm, Nat.add_left_comm] using this

/-- The names that a factory lists stand between the other arguments and the list. -/
theorem call_built {n : Nat} {callee ordinal label values call : Expr} {items : List Expr} (h : Built lo hi done)
    (ids : [callee.id, ordinal.id, label.id, values.id, call.id] = [hi, hi + 1, hi + 2, hi + 3 + n, hi + 4 + n])
    (layered : ∀ e ∈ [callee, ordinal, label, values, call], e.kind.Layered)
    (named : ∀ {done}, Built lo (hi + 3) done → Built lo (hi + 3 + n) (done ++ items)) :
    Built lo (hi + (5 + n)) (done ++ (callee :: ordinal :: label :: (items ++ [values, call]))) := by
  simp only [List.cons.injEq, and_true] at ids
  simp only [List.mem_cons, List.not_mem_nil, or_false, forall_eq_or_imp, forall_eq] at layered
  obtain ⟨hc, ho, hl, hv, hk⟩ := ids
  obtain ⟨lc, lo', ll, lv, lk⟩ := layered
  have all := ((named (((h.snoc hc lc).snoc ho lo').snoc hl ll)).snoc hv lv).snoc (hk.trans (by omega)) lk
  rw [show hi + (5 + n) = hi + 3 + n + 1 + 1 by omega]
  simpa using all

theorem factory_built (enumName caseName : String) (index : Nat) (params : List String) (h : Built lo hi done) :
    Built lo (hi + factoryIds params)
      (done ++ Nodes.ofStmt (factory hi enumName caseName index params)) := by
  simp only [factory, factoryIds, Nodes.ofStmt, Nodes.ofStmtKind, Nodes.ofStmts, Nodes.ofOption, Nodes.ofExpr,
    Nodes.ofKind, Nodes.ofArgs, List.nil_append, List.append_nil, List.append_assoc, List.cons_append]
  refine call_built h rfl ?_ fun h => nameList_built params _ h
  simp [ExprKind.Layered, Expr.StandsAt, ExprKind.tier]

end Synthesis

/-! ## The expressions of a piece -/

namespace Workpiece

noncomputable def nodes : Workpiece → List Expr
  | expr e => Nodes.ofExpr e
  | stmt s => Nodes.ofStmt s
  | func f => Nodes.ofFunc f
  | param p => Nodes.ofOption p.default
  | accessors getter setter => Nodes.ofAccessor getter ++ Nodes.ofAccessor setter
  | member m => Nodes.ofMember m
  | synthetic body => Nodes.ofStmt body
  | _ => []

attribute [simp] nodes

theorem flatMap_codes {α : Type} {A : Workpiece → List α} (h : ∀ x, x.isCode = false → A x = []) (ks : List Workpiece) :
    (codes ks).flatMap A = ks.flatMap A := by
  induction ks with
  | nil => rfl
  | cons x ks ih =>
    rw [codes_cons, List.flatMap_cons]
    split
    · rw [List.flatMap_cons, ih]
    · rename_i loose
      rw [ih, h x (Bool.eq_false_iff.mpr loose), List.nil_append]

theorem nodes_loose {x : Workpiece} (h : x.isCode = false) : x.nodes = [] := by
  cases x <;> first | rfl | cases h

theorem nodes_codes (ks : List Workpiece) : (codes ks).flatMap nodes = ks.flatMap nodes :=
  flatMap_codes (fun _ => nodes_loose) ks

theorem nodes_option (e : Option Expr) : Nodes.ofOption e = e.toList.flatMap Nodes.ofExpr := by cases e <;> simp

theorem nodes_body (s : Option Stmt) : Nodes.ofBody s = s.toList.flatMap Nodes.ofStmt := by cases s <;> simp

attribute [local simp] nodes_option nodes_body Nodes.ofExprs_eq Nodes.ofArgs_eq Nodes.ofEntries_eq Nodes.ofCases_eq
  Nodes.ofStmts_eq Nodes.ofParams_eq Nodes.ofMembers_eq List.flatMap_map List.flatMap_assoc Entry.pieces Case.pieces
  Arg.piece

/-- Of a node's parts, those that it has twice are listed once. -/
theorem ofKind_sublist (kind : ExprKind) : (Nodes.ofKind kind).Sublist (kind.pieces.flatMap nodes) := by
  cases kind with
  | set target field value =>
    simp only [Nodes.ofKind, ExprKind.pieces]
    split <;> simp
  | indexSet target index value =>
    simp only [Nodes.ofKind, ExprKind.pieces]
    split <;> simp
  | _ => simp [ExprKind.pieces]

theorem ofStmtKind_perm (kind : StmtKind) : (Nodes.ofStmtKind kind).Perm (kind.pieces.flatMap nodes) := by
  cases kind with
  | loop cond body test =>
    cases test with
    | false => simp [StmtKind.pieces]
    | true => simpa [StmtKind.pieces] using List.perm_append_comm
  | cls c =>
    obtain ⟨⟩ := c
    simp [StmtKind.pieces]
  | _ => simp [StmtKind.pieces]

theorem ofFunc_eq (f : Func) : Nodes.ofFunc f = (f.attributes.map expr ++ f.inner).flatMap nodes := by
  obtain ⟨⟩ := f
  simp [Func.inner]

theorem ofMember_eq {ks : List Workpiece} {m : Member} (h : m.Formed ks) :
    Nodes.ofMember m = (m.attributes.map expr ++ m.kind.pieces).flatMap nodes := by
  obtain ⟨name, kind, modifiers, attributes, pos⟩ := m
  cases kind with
  | method f =>
    have own := (h f rfl).1
    obtain ⟨⟩ := f
    simp only at own
    simp [MemberKind.pieces, Func.inner, own]
  | _ => simp [MemberKind.pieces]

end Workpiece

/-! ## Assignments -/

namespace Grammar

variable {target value : Expr} {kind : ExprKind}

theorem assignment?_layered (ht : target.kind.Layered) (h : assignment? target value = some kind) : kind.Layered := by
  unfold assignment? at h
  split at h <;> cases h <;> rename_i heq <;> rw [heq] at ht <;> exact ht

/-- An assignment holds the parts of its target and its value. -/
theorem assignment?_nodes (h : assignment? target value = some kind) :
    (Nodes.ofKind kind).Sublist (Nodes.ofExpr target ++ Nodes.ofExpr value) := by
  obtain ⟨id, pos, code⟩ := target
  unfold assignment? at h
  split at h <;> cases h
  · simp
  · rename_i object field heq
    simp only at heq
    subst heq
    refine List.Sublist.append ?_ (List.Sublist.refl _)
    split <;> simp
  · rename_i list index heq
    simp only at heq
    subst heq
    refine List.Sublist.append ?_ (List.Sublist.refl _)
    split <;> simp

/-- A compound assignment holds its target only as part of its value. -/
theorem assignment?_nodes_compound {more : Expr} (h : assignment? target value = some kind)
    (hv : value.kind = .binary target .add more) : Nodes.ofKind kind = Nodes.ofExpr value := by
  obtain ⟨id, pos, code⟩ := target
  unfold assignment? at h
  split at h <;> cases h
  · simp
  · rename_i object field heq
    simp only at heq
    subst heq
    have copied : value.AddsTo (.get object field) := ⟨id, pos, more, hv⟩
    simp [copied]
  · rename_i list index heq
    simp only at heq
    subst heq
    have copied : value.AddsTo (.indexGet list index) := ⟨id, pos, more, hv⟩
    simp [copied]

theorem assignment?_standsAt (h : assignment? target value = some kind) : target.StandsAt 9 := by
  obtain ⟨id, pos, code⟩ := target
  unfold assignment? at h
  split at h <;> cases h <;> rename_i heq <;> simp only at heq <;> subst heq <;> exact .inl (Nat.le_refl 9)

end Grammar

/-! ## Steps -/

section
variable {lo : Nat} {done : List Expr} {ks : List Workpiece} {c c' : Cursor} {x : Workpiece}

theorem Built.node {hi : Nat} {before : List Expr} {p : Position} {k : ExprKind} (h : Built lo hi (done ++ before))
    (parts : (Nodes.ofKind k).Subperm before) (layered : k.Layered) :
    Built lo (hi + 1) (done ++ Nodes.ofExpr ⟨hi, p, k⟩) := by
  have parts := h.subperm ((List.subperm_append_left done).mpr parts)
  simpa using parts.snoc (e := ⟨hi, p, k⟩) rfl layered

theorem perm_swap {α : Type} (x y z : List α) : (x ++ y ++ z).Perm (x ++ z ++ y) := by
  simpa using List.perm_append_comm.append_left x

/-- What is not an expression of its own holds the expressions that it is put together from. -/
theorem Forms.kept (forms : Forms c ks x c') (part : ∀ e, x ≠ .expr e) (written : ∀ body, x ≠ .synthetic body) :
    x.nodes.Perm ((codes ks).flatMap nodes) := by
  cases forms with
  | expr _ _ _ _ | assignment _ _ _ | compound _ _ _ _ _ | call _ | lambda _
  | template _ _ _ _ _ => exact absurd rfl (part _)
  | factory _ => exact absurd rfl (written _)
  | stmt parts _ _ => exact parts ▸ ofStmtKind_perm _
  | @case m f body parts method made bare _ _ _ =>
    obtain ⟨⟩ := m
    obtain ⟨⟩ := f
    simp only at method made bare
    obtain ⟨⟨rfl, rfl⟩, rfl, rfl⟩ := And.intro bare (And.intro method made)
    simp [parts, Nodes.ofParams_eq, List.flatMap_map]
  | func parts _ => rw [parts, nodes, ofFunc_eq]
  | param parts _ => simp [parts, nodes_option, List.flatMap_map]
  | noAccessors parts | setter parts => simp [parts]
  | getter parts => simpa [parts] using List.perm_append_comm
  | member parts _ formed => rw [parts, nodes, ofMember_eq formed]

theorem Forms.built (forms : Forms c ks x c') (h : Built lo c.nextId (done ++ ks.flatMap nodes)) :
    Built lo c'.nextId (done ++ x.nodes) := by
  have kept := forms.kept
  rw [← nodes_codes] at h
  cases forms with
  | expr parts layered _ _ =>
    rw [parts] at h
    exact h.node (ofKind_sublist _).subperm layered
  | @assignment target value kind parts assigned _ =>
    simp only [parts, List.flatMap_cons, List.flatMap_nil, List.append_nil, nodes] at h
    have layered := h.layered target (by simp [Nodes.mem_ofExpr_self])
    exact h.node (Grammar.assignment?_nodes assigned).subperm (Grammar.assignment?_layered layered assigned)
  | @compound target value total kind parts sum assigned _ _ =>
    simp only [parts, List.flatMap_cons, List.flatMap_nil, List.append_nil, nodes] at h
    subst sum
    have layered := h.layered target (by simp [Nodes.mem_ofExpr_self])
    have added := h.node (p := target.pos.merge value.pos) (k := .binary target .add value) (List.Subperm.refl _)
      ⟨(Grammar.assignment?_standsAt assigned).mono (by decide), .inl rfl⟩
    refine added.node ?_ (Grammar.assignment?_layered layered assigned)
    rw [Grammar.assignment?_nodes_compound assigned rfl]
  | @call input callee id pos args parts =>
    simp only [parts, List.flatMap_cons, List.flatMap_nil, List.append_nil, nodes] at h
    have layered : (ExprKind.call callee args).Layered := h.layered ⟨id, pos, .call callee args⟩ (by simp)
    refine h.node ?_ layered
    have last : (Nodes.ofExpr input ++ (Nodes.ofExpr callee ++ Nodes.ofArgs args)).Perm _ := List.perm_append_comm
    simpa [Nodes.ofArgs_eq] using last.symm.subperm.trans ((List.sublist_append_left _ _).append_left _).subperm
  | @lambda input id pos f parts =>
    simp only [parts, List.flatMap_cons, List.flatMap_nil, List.append_nil, nodes, ← List.append_assoc] at h
    have inner := h.node (p := pos) (k := .lambda f) (List.sublist_append_left _ _).subperm trivial
    have group := inner.node (p := pos) (k := .group ⟨c.nextId, pos, .lambda f⟩) (List.Subperm.refl _) trivial
    rw [List.append_assoc] at group
    refine group.node ?_ (.inl (Nat.le_refl 9))
    simp only [Nodes.ofKind, Nodes.ofArgs, List.append_nil]
    exact List.perm_append_comm.subperm
  | @template callee fragments embedded pos first second parts tight _ _ _ =>
    have woven := (weave_perm fragments embedded).flatMap_right nodes
    simp only [parts, List.flatMap_cons, nodes, List.flatMap_append, List.flatMap_map] at h woven
    have split := h.perm (((woven.trans List.perm_append_comm).append_left _).append_left done)
    rw [← List.append_assoc, ← List.append_assoc] at split
    have texts := split.node (p := first) (k := .list fragments false)
      (Nodes.ofExprs_eq fragments ▸ List.Subperm.refl _) trivial
    have swapped := texts.perm (perm_swap _ _ _)
    have values := swapped.node (p := second) (k := .list embedded false)
      (Nodes.ofExprs_eq embedded ▸ List.Subperm.refl _) trivial
    rw [List.append_assoc, List.append_assoc] at values
    refine values.node ?_ tight
    simp only [Nodes.ofKind, Nodes.ofArgs, List.append_nil]
    exact List.Subperm.refl _
  | factory parts =>
    rw [parts] at h
    exact Synthesis.factory_built _ _ _ _ (by simpa using h)
  | _ => exact h.perm ((kept nofun nofun).symm.append_left done)

namespace Grammar

theorem ofStmt_prepend (stmts : List Stmt) (body : Stmt) :
    Nodes.ofStmt (prepend stmts body) = Nodes.ofStmts stmts ++ Nodes.ofStmt body := by
  obtain ⟨pos, kind⟩ := body
  unfold prepend
  split
  · rename_i rest heq
    simp only at heq
    subst heq
    simp [Nodes.ofStmts_eq]
  · simp [Nodes.ofStmts_eq]

theorem ofMember_asAbstract (m : Member) : Nodes.ofMember (asAbstract m) = Nodes.ofMember m := by
  obtain ⟨⟩ := m
  unfold asAbstract
  split <;> rfl

end Grammar

theorem Step.built {s s' : List Workpiece} (step : Step s c s' c')
    (h : Built lo c.nextId (s.flatMap nodes)) : Built lo c'.nextId (s'.flatMap nodes) := by
  cases step with
  | read _ | within _ | readBehind _ =>
    simp only [Cursor.advance]
    split <;> simpa [List.flatMap_append] using h
  | ahead | settle _ | previous | copy _ | span _ | join _ | exempt _ | enterNamespace _ _ | enterInterface | toBlock =>
    simpa [List.flatMap_append] using h
  | drop loose =>
    rw [List.flatMap_append, List.flatMap_cons, nodes_loose loose, List.nil_append] at h
    rwa [List.flatMap_append]
  | form forms =>
    rw [List.flatMap_append] at h ⊢
    simpa using forms.built h
  | @prepend s s' _ body names =>
    -- The assignments are built last, but come first.
    have stored := Synthesis.promotions_built names h
    rw [List.flatMap_append, List.flatMap_cons] at stored ⊢
    refine stored.perm ?_
    simp only [nodes, Grammar.ofStmt_prepend, List.append_assoc]
    rw [← List.append_assoc (Nodes.ofStmt body)]
    exact List.perm_append_comm.append_left _
  | @promote s _ ms =>
    simp only [List.flatMap_append, List.flatMap_map] at h ⊢
    have fields := Grammar.withPromotedFields_fields ms
    rwa [fields.flatMap_eq fun p => by simp [Grammar.fieldOf]]
  | @leaveNamespace s ks ds c c' pos path decls _ none parts _ mark =>
    have next : c'.nextId = c.nextId := by rcases mark with rfl | ⟨-, rfl⟩ <;> rfl
    have inside := nodes_codes (ks ++ .namespaceBody :: ds)
    simp only [codes_append, codes_cons, isCode, none, parts, if_true, List.nil_append] at inside
    rw [next]
    simpa [List.flatMap_append, ← inside, List.flatMap_map, Nodes.ofStmts_eq] using h
  | @leaveInterface s ks ds c cls ms t _ attributes parts members _ _ _ =>
    have inside := nodes_codes (ks ++ .interfaceBody :: ds)
    simp only [codes_append, codes_cons, isCode, attributes, parts, if_true] at inside
    obtain ⟨⟩ := cls
    simp only at members
    subst members
    simpa [List.flatMap_append, ← inside, List.flatMap_map, Nodes.ofExprs_eq, Nodes.ofMembers_eq,
      Grammar.ofMember_asAbstract] using h

end

/-! ## Whole programs -/

theorem parse_built {ts : List Token} {eof : Token} (last : eof.kind = .eof) (only : ∀ t ∈ ts, t.kind ≠ .eof)
    {nextId next : Nat} {program : List Stmt} (parsed : parse (ts ++ [eof]) nextId = .ok (program, next)) :
    Built nextId next (Nodes.ofStmts program) := by
  obtain ⟨c, rfl, steps⟩ := parse_steps last only parsed
  have built := steps.keep (I := fun s c => Built nextId c.nextId (s.flatMap nodes)) (fun step h => step.built h)
    (Built.nil (Nat.le_refl nextId))
  simpa [List.flatMap_map, Nodes.ofStmts_eq] using built

theorem readSource_result (source file : String) (nextId : Nat) :
    (readSource source file nextId).result = parse (scan source file).tokens nextId := by
  unfold readSource
  extract_lets tokens
  split
  · rename_i parsed hp
    exact hp.symm
  · rename_i e hp
    exact hp.symm

theorem readSource_built {source file : String} {nextId next : Nat} {program : List Stmt}
    (h : (readSource source file nextId).result = .ok (program, next)) :
    Built nextId next (Nodes.ofStmts program) := by
  rw [readSource_result] at h
  obtain ⟨ts, eof, tokens, row⟩ := scan_row source file
  rw [tokens] at h
  exact parse_built row.last row.only h

end PhaseLang
