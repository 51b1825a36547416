import PhaseLang.Proofs.Grammar.Numbering
import PhaseLang.Proofs.Mentions
import PhaseLang.Proofs.Typing.Places
import PhaseLang.Proofs.Typing.Replay

/-!
# The table holds what the visits give

A program that was read has no two expressions of one id, apart from code that stands in the
tree twice, and such code gets the same types both times. So no entry of the table is
replaced by another one: the table tells of every visit the type that it gave.
-/

namespace PhaseLang

variable {α : Type} {s s' : Typing} {vs : List Visit} {m : Typer α}

/-- The visits are made among some expressions and in blank contexts, and visits of one id give
one type if the ids of the expressions are distinct. -/
structure Keeps (vs : List Visit) (es : List Expr) : Prop where
  ready : ∀ v ∈ vs, Alike v.typing v.typing
  mem : ∀ v ∈ vs, v.expr ∈ es
  same : (es.map (·.id)).Nodup → ∀ v ∈ vs, ∀ w ∈ vs, v.expr.id = w.expr.id → v.type = w.type

namespace Keeps

variable {vs ws : List Visit} {es fs : List Expr}

theorem nil : Keeps [] es := ⟨nofun, nofun, fun _ => nofun⟩

theorem single {v : Visit} (h : Alike v.typing v.typing) : Keeps [v] [v.expr] where
  ready := by simpa using h
  mem := by simp
  same _ := by simp

theorem sublist (h : Keeps vs es) (sub : es.Sublist fs) : Keeps vs fs where
  ready := h.ready
  mem v hv := sub.subset (h.mem v hv)
  same distinct := h.same (distinct.sublist (sub.map _))

theorem append (h : Keeps vs es) (h' : Keeps ws fs) : Keeps (vs ++ ws) (es ++ fs) where
  ready := List.forall_mem_append.mpr ⟨h.ready, h'.ready⟩
  mem v hv := by
    rcases List.mem_append.mp hv with hv | hv
    · exact List.mem_append_left _ (h.mem v hv)
    · exact List.mem_append_right _ (h'.mem v hv)
  same distinct v hv w hw id := by
    rw [List.map_append, List.nodup_append] at distinct
    obtain ⟨left, right, apart⟩ := distinct
    have across {v w : Visit} (hv : v ∈ vs) (hw : w ∈ ws) : v.expr.id ≠ w.expr.id :=
      apart _ (List.mem_map_of_mem (h.mem v hv)) _ (List.mem_map_of_mem (h'.mem w hw))
    rcases List.mem_append.mp hv with hv | hv <;> rcases List.mem_append.mp hw with hw | hw
    · exact h.same left v hv w hw id
    · exact absurd id (across hv hw)
    · exact absurd id.symm (across hw hv)
    · exact h'.same right v hv w hw id

theorem repeated (h : Keeps ws es) (ready : ∀ v ∈ vs, Alike v.typing v.typing) (mem : ∀ v ∈ vs, v.expr ∈ es)
    (entries : ∀ v ∈ vs, ∃ w ∈ ws, w.entry = v.entry) : Keeps (vs ++ ws) es where
  ready := List.forall_mem_append.mpr ⟨ready, h.ready⟩
  mem v hv := by
    rcases List.mem_append.mp hv with hv | hv
    · exact mem v hv
    · exact h.mem v hv
  same distinct v hv w hw id := by
    have twin {v : Visit} (hv : v ∈ vs ++ ws) : ∃ w ∈ ws, w.entry = v.entry := by
      rcases List.mem_append.mp hv with hv | hv
      · exact entries v hv
      · exact ⟨v, hv, rfl⟩
    obtain ⟨v', hv', ev⟩ := twin hv
    obtain ⟨w', hw', ew⟩ := twin hw
    simp only [Visit.entry, Prod.mk.injEq] at ev ew
    rw [← ev.2, ← ew.2]
    exact h.same distinct v' hv' w' hw' (by rw [ev.1, ew.1, id])

end Keeps

variable {s : Typing}

theorem Alike.after (h : Alike s s) (hm : Typer.Replays m) :
    Alike (Typer.after m s) (Typer.after m s) := (hm h).1

/-! ## Code that stands twice -/

open Typer

/-- Two runs of one piece of code from alike states make visits with the same entries. -/
theorem entries_eq (hm : Replays m) (alike : Alike s s')
    {names names' : List String} {vs' : List Visit} {ps : List Position}
    (run : Ran names vs s (after m s) ps) (run' : Ran names' vs' s' (after m s') ps) :
    vs.map Visit.entry = vs'.map Visit.entry := by
  obtain ⟨_, new, table, table'⟩ := hm alike
  have first := run.table
  have second := run'.table
  rw [table, List.append_cancel_right_eq] at first
  rw [table', List.append_cancel_right_eq] at second
  exact List.reverse_injective (first.symm.trans second)

theorem exists_entry {ws : List Visit} (h : vs.map Visit.entry = ws.map Visit.entry) :
    ∀ v ∈ vs, ∃ w ∈ ws, w.entry = v.entry := by
  intro v hv
  exact List.mem_map.mp (h ▸ List.mem_map_of_mem hv)

theorem Alike.step (h : Alike s s) (hm : Replays m)
    (run : Ran [] vs s (Typer.after m s)) : Alike s (Typer.after m s) := by
  obtain ⟨top, rest, hs⟩ := h.stack
  obtain ⟨new, bound, hs'⟩ := run.stack hs
  obtain rfl : new = [] := List.map_eq_nil_iff.mp bound
  refine h.of_env rfl ?_ h.blank (h.after hm).blank h.stack ⟨_, _, hs'⟩
  have scope : (Typer.after m s).scopes.resolve = s.scopes.resolve := by
    funext name
    rw [hs'.resolve, hs.resolve]
    rfl
  simp only [Typing.env, scope, run.ns, run.surface]

theorem Alike.trans {s'' : Typing} (h : Alike s s') (h' : Alike s' s'') : Alike s s'' :=
  ⟨h.env.trans h'.env, h.blank, h'.blank', h.stack, h'.stack'⟩

namespace Visits

theorem ofKind_set_split (p : Place) (h : Alike s s) (target field value : Expr) :
    ∃ s', Alike s s' ∧
      ofKind p s (.set target field value) = ofKind p s (.get target field) ++ ofExpr p s' value := by
  have alike := h.step (Code.expr target).replays (expr_ran p s target)
  obtain ⟨_, _, _, rfl⟩ | computed := field.ident_or
  · exact ⟨_, alike, by simp only [ofKind]; rfl⟩
  · have next := (h.after (Code.expr target).replays).step (Code.expr field).replays (expr_ran p _ field)
    exact ⟨_, alike.trans next, by rw [ofKind_set computed, ofKind_get computed]; rfl⟩

variable {p : Place}

theorem mem_ofExpr_sum {kind : ExprKind} {value : Expr} (h : value.AddsTo kind) :
    (∀ v ∈ ofKind p s kind, v ∈ ofExpr p s value) ∧ ∀ e ∈ Nodes.ofKind kind, e ∈ Nodes.ofExpr value := by
  obtain ⟨vid, vpos, vkind⟩ := value
  obtain ⟨id, pos, more, rfl⟩ := h
  simp only [ofExpr, ofKind, Nodes.ofExpr, Nodes.ofKind, List.mem_append]
  exact ⟨fun v hv => .inl (.inl (.inl hv)), fun e he => .inl (.inl (.inl he))⟩

/-- What `code += more` evaluates twice is visited twice with the same entries. -/
theorem compound_keeps (kind : ExprKind) {value : Expr} (h : value.AddsTo kind)
    (alike : Alike s s') (first : Keeps (ofKind p s kind) (Nodes.ofKind kind))
    (rest : Keeps (ofExpr p s' value) (Nodes.ofExpr value)) :
    Keeps (ofKind p s kind ++ ofExpr p s' value) (Nodes.ofExpr value) := by
  obtain ⟨visited, nodes⟩ := mem_ofExpr_sum (s := s') (p := p) h
  refine rest.repeated first.ready (fun v hv => nodes _ (first.mem v hv)) fun v hv => ?_
  -- the sum in the value types the same code again, from a state alike
  have twice := entries_eq (exprKind_replays value.pos kind) alike (exprKind_ran p s value.id value.pos kind)
    (exprKind_ran p s' value.id value.pos kind)
  obtain ⟨w, hw, entry⟩ := exists_entry twice v hv
  exact ⟨w, visited w hw, entry⟩

theorem get_keeps {target field : Expr} (first : Keeps (ofExpr p s target) (Nodes.ofExpr target))
    (second : Keeps (ofExpr p (after (expr target) s) field) (Nodes.ofExpr field)) :
    Keeps (ofKind p s (.get target field)) (Nodes.ofKind (.get target field)) := by
  obtain ⟨_, _, _, rfl⟩ | computed := field.ident_or
  · exact first.sublist (List.sublist_append_left _ _)
  · rw [ofKind_get computed, Nodes.ofKind]
    exact first.append second

end Visits

/-! ## Tours -/

/-- What is visited from a place and a state on, next to what the code cites, its expressions and what it mentions. -/
structure Tour (names : FunctionNames) (p : Place) (s : Typing) (vs : List Visit) (cs : List Citation)
    (es : List Expr) (ms : List Mention) (last : List Expr := []) : Prop where
  faithful : p.Mirrors s.scopes → Faithful vs cs es last
  keeps : Alike s s → Keeps vs es
  traced : Carried names p ms → Traced names vs

namespace Tour

variable {names : FunctionNames} {p p' : Place} {s' : Typing} {vs ws : List Visit} {cs ds : List Citation}
  {es fs last : List Expr} {ms more : List Mention}

theorem nil : Tour names p s [] [] es [] := ⟨fun _ => .nil, fun _ => .nil, fun _ => traced_nil⟩

theorem join (h : Tour names p s vs cs es ms) (h' : Tour names p s ws ds fs ms last) :
    Tour names p s (vs ++ ws) (cs ++ ds) (es ++ fs) ms last where
  faithful mirrors := (h.faithful mirrors).append (h'.faithful mirrors)
  keeps alike := (h.keeps alike).append (h'.keeps alike)
  traced carried := (h.traced carried).append (h'.traced carried)

/-- The same visits, as part of a tour that starts elsewhere. -/
theorem move (h : Tour names p' s' vs cs es ms last) (mirrors : p.Mirrors s.scopes → p'.Mirrors s'.scopes)
    (alike : Alike s s → Alike s' s') (carried : Carried names p more → Carried names p' ms) :
    Tour names p s vs cs es more last :=
  ⟨h.faithful ∘ mirrors, h.keeps ∘ alike, h.traced ∘ carried⟩

theorem mention (h : Tour names p s vs cs es ms last) (carried : Carried names p more → Carried names p ms) :
    Tour names p s vs cs es more last := h.move id id carried

theorem append (h : Tour names p s vs cs es ms) (h' : Tour names p s ws ds fs more last) :
    Tour names p s (vs ++ ws) (cs ++ ds) (es ++ fs) (ms ++ more) last :=
  (h.mention Carried.left).join (h'.mention Carried.right)

theorem recite (h : Tour names p s vs cs es ms) (sub : cs.Subperm ds) (nodes : ∀ e, .node e ∈ ds → .node e ∈ cs) :
    Tour names p s vs ds es ms := { h with faithful := fun mirrors => (h.faithful mirrors).recite sub nodes }

theorem pastExpr {e : Expr} (h : Tour names p (after (expr e) s) vs cs es ms last) : Tour names p s vs cs es ms last :=
  h.move (·.keep (expr_ran p s e)) (·.after (Code.expr e).replays) id

theorem pastTyped {type : Option TypePath} (h : Tour names p (after (type.mapM resolve) s) vs cs es ms last) :
    Tour names p s vs cs es ms last :=
  h.move (·.keep (.of_idle (mapM_resolve_idle type) s)) (·.after (Code.typed type).replays) id

theorem pastExprs {items : List Expr} (q : Place) (h : Tour names p (after (exprs items) s) vs cs es ms last) :
    Tour names p s vs cs es ms last :=
  h.move (·.keep (exprs_ran q s items)) (·.after (Code.exprs items).replays) id

theorem inBlock (h : Tour names (p.enter .block) s.enter vs cs es ms last) : Tour names p s vs cs es ms last :=
  h.move (·.enter .block) (·.enter) Carried.block

theorem member {attributes : List Expr} (h : Tour names p s (Visits.ofExprs p s attributes) cs es ms)
    (h' : Tour names p (after (exprs attributes) s) ws ds fs ms) :
    Tour names p s (Visits.ofExprs p s attributes ++ ws) (ds ++ cs) (es ++ fs) ms :=
  (h.join (h'.pastExprs p)).recite List.perm_append_comm.subperm fun e => by simp [or_comm]

theorem self {kind : ExprKind} (h : Tour names p s (Visits.ofKind p s kind) (Cited.ofKind kind) (Nodes.ofKind kind)
    (Captures.ofKind names kind) kind.plainField) (id : Nat) (pos : Position) :
    Tour names p s (Visits.ofExpr p s ⟨id, pos, kind⟩) (Cited.ofExpr ⟨id, pos, kind⟩) (Nodes.ofExpr ⟨id, pos, kind⟩)
      (Captures.ofExpr names ⟨id, pos, kind⟩) where
  faithful mirrors := (h.faithful mirrors).self mirrors id pos
  keeps alike := (h.keeps alike).append (.single alike)
  traced carried := by
    simp only [Visits.ofExpr]
    cases plain : Expr.ident? ⟨id, pos, kind⟩ with
    | some name =>
      obtain ⟨_, _, he⟩ := Expr.eq_of_ident? plain
      obtain rfl : kind = .ident name := congrArg Expr.kind he
      rintro v hv n hn hc
      simp only [Visits.ofKind, List.nil_append, List.mem_singleton] at hv
      subst hv
      cases hn
      exact carried name (by simp [Captures.ofExpr, hc])
    | none =>
      rw [Captures.ofExpr_eq plain] at carried
      refine (h.traced carried).append fun v hv n hn _ => ?_
      obtain rfl := List.mem_singleton.mp hv
      simp only at hn
      simp [Expr.ident?, hn] at plain

end Tour

namespace Visits

variable {names : FunctionNames}

theorem get_tour {target field : Expr}
    (first : Tour names p s (ofExpr p s target) (Cited.ofExpr target) (Nodes.ofExpr target)
      (Captures.ofExpr names target))
    (second : Tour names p (after (expr target) s) (ofExpr p (after (expr target) s) field) (Cited.ofExpr field)
      (Nodes.ofExpr field) (Captures.ofExpr names field)) :
    Tour names p s (ofKind p s (.get target field)) (Cited.ofKind (.get target field))
      (Nodes.ofKind (.get target field))
      (Captures.ofKind names (.get target field)) (ExprKind.get target field).plainField := by
  obtain ⟨id, pos, name, rfl⟩ | computed := field.ident_or
  · refine ⟨fun mirrors => ?_, fun alike => get_keeps (first.keeps alike) ?_, first.traced⟩
    · simpa only [List.append_nil, ofKind, Cited.ofKind, Nodes.ofKind, ExprKind.plainField, Expr.ident?, reduceCtorEq,
        if_false] using (first.faithful mirrors).append (.plain id pos name (.refl _))
    · exact second.keeps (alike.after (Code.expr target).replays)
  · simp only [ofKind_get computed, Captures.ofKind_get computed, ExprKind.plainField, computed]
    exact first.append second.pastExpr

/-! ## Programs -/

mutual

theorem ofExpr_tour (p : Place) (s : Typing) :
    ∀ e, Tour names p s (ofExpr p s e) (Cited.ofExpr e) (Nodes.ofExpr e) (Captures.ofExpr names e)
  | ⟨id, pos, kind⟩ => (ofKind_tour p s kind).self id pos

theorem ofKind_tour (p : Place) (s : Typing) : ∀ kind, Tour names p s (ofKind p s kind) (Cited.ofKind kind)
    (Nodes.ofKind kind) (Captures.ofKind names kind) kind.plainField
  | .attribute path args => (ofArgs_tour p s args).recite (List.sublist_cons_self ..).subperm (by simp [Cited.ofKind])
  | .assign _ value => (ofExpr_tour p s value).mention Carried.left
  | .unary _ operand _ | .group operand => ofExpr_tour p s operand
  | .isType operand type => (ofExpr_tour p s operand).recite (List.sublist_append_left ..).subperm
    (by simp [Cited.ofKind])
  | .binary lhs _ rhs | .logical lhs _ rhs
  | .range lhs rhs => (ofExpr_tour p s lhs).append (ofExpr_tour p _ rhs).pastExpr
  | .call callee args => (ofExpr_tour p s callee).append (ofArgs_tour p _ args).pastExpr
  | .get target field => get_tour (ofExpr_tour p s target) (ofExpr_tour p _ field)
  | .set target field value => by
    have read := get_tour (ofExpr_tour p s target) (ofExpr_tour p _ field)
    have written {s' : Typing} := ofExpr_tour p s' value
    have nodes : Nodes.ofExpr target ++ Nodes.ofExpr field ++ Nodes.ofExpr value ⊆
        Nodes.ofKind (.set target field value) :=
      Nodes.compound_subset (.get target field) value
    refine ⟨fun mirrors => Faithful.nodes ?_ nodes, fun alike => ?_, ?_⟩
    · have after := mirrors.keep (expr_ran p s target)
      obtain ⟨id, pos, name, rfl⟩ | computed := field.ident_or
      · simpa only [List.append_nil, ofKind, Cited.ofKind] using
          (((ofExpr_tour p s target).faithful mirrors).append (.plain id pos name (List.nil_sublist _))).append
            (written.faithful after)
      · rw [ofKind_set computed]
        exact (((ofExpr_tour p s target).faithful mirrors).append ((ofExpr_tour p _ field).faithful after)).append
          (written.faithful (after.keep (expr_ran p _ field)))
    · obtain ⟨s', same, split⟩ := ofKind_set_split p alike target field value
      have rest := written.keeps same.symm.left
      rw [split, Nodes.ofKind]
      split
      · exact compound_keeps _ ‹_› same (read.keeps alike) rest
      · exact (read.keeps alike).append rest
    · intro carried
      obtain ⟨_, _, _, rfl⟩ | computed := field.ident_or
      · exact ((ofExpr_tour p s target).traced carried.left).append (written.traced carried.right)
      · simp only [ofKind_set computed, Captures.ofKind_set computed, carried_append] at carried ⊢
        exact (((ofExpr_tour p s target).traced carried.1.1).append ((ofExpr_tour p _ field).traced carried.1.2)).append
          (written.traced carried.2)
  | .indexGet target index => (ofExpr_tour p s target).append (ofOption_tour p _ index).pastExpr
  | .indexSet target index value => by
    have read := (ofExpr_tour p s target).append (ofOption_tour p (after (expr target) s) index).pastExpr
    have written {s' : Typing} := ofExpr_tour p s' value
    have nodes : Nodes.ofExpr target ++ Nodes.ofOption index ++ Nodes.ofExpr value ⊆
        Nodes.ofKind (.indexSet target index value) :=
      Nodes.compound_subset (.indexGet target index) value
    refine ⟨fun mirrors => Faithful.nodes ?_ nodes, fun alike => ?_, fun carried => ?_⟩
    · exact (read.faithful mirrors).append (written.faithful
        ((mirrors.keep (expr_ran p s target)).keep (optional_ran p _ index)))
    · have same := (alike.step (Code.expr target).replays (expr_ran p s target)).trans
        ((alike.after (Code.expr target).replays).step (Code.optional index).replays (optional_ran p _ index))
      have rest := written.keeps same.symm.left
      simp only [ofKind, Nodes.ofKind]
      split
      · exact compound_keeps (.indexGet target index) ‹_› same
          (by simpa only [ofKind, Nodes.ofKind] using read.keeps alike) rest
      · exact (read.keeps alike).append rest
    · exact (read.traced carried.left).append (written.traced carried.right)
  | .ternary cond yes no =>
    ((ofExpr_tour p s cond).append (ofExpr_tour p _ yes).pastExpr).append (ofExpr_tour p _ no).pastExpr.pastExpr
  | .list items _ => ofExprs_tour p s items
  | .map es _ => ofEntries_tour p s es
  | .lambda f => ofFunc_tour _ p s Carried.lambda
  | .choose target cs => (ofExpr_tour p s target).append (ofCases_tour p _ (fun _ => Carried.arm) cs).pastExpr
  | .path path => Tour.nil.recite List.nil_subperm (by simp [Cited.ofKind])
  | .super _ | .this | .static | .literal _ | .ident _ => .nil

theorem ofOption_tour (p : Place) (s : Typing) :
    ∀ e, Tour names p s (ofOption p s e) (Cited.ofOption e) (Nodes.ofOption e) (Captures.ofOption names e)
  | none => .nil
  | some e => ofExpr_tour p s e

theorem ofExprs_tour (p : Place) (s : Typing) :
    ∀ es, Tour names p s (ofExprs p s es) (Cited.ofExprs es) (Nodes.ofExprs es) (Captures.ofExprs names es)
  | [] => .nil
  | e :: es => (ofExpr_tour p s e).append (ofExprs_tour p _ es).pastExpr

theorem ofArgs_tour (p : Place) (s : Typing) :
    ∀ as, Tour names p s (ofArgs p s as) (Cited.ofArgs as) (Nodes.ofArgs as) (Captures.ofArgs names as)
  | [] => .nil
  | ⟨_, e⟩ :: as => (ofExpr_tour p s e).append (ofArgs_tour p _ as).pastExpr

theorem ofEntries_tour (p : Place) (s : Typing) :
    ∀ es, Tour names p s (ofEntries p s es) (Cited.ofEntries es) (Nodes.ofEntries es) (Captures.ofEntries names es)
  | [] => .nil
  | ⟨key, value⟩ :: es =>
    ((ofExpr_tour p s key).append (ofExpr_tour p _ value).pastExpr).append (ofEntries_tour p _ es).pastExpr.pastExpr

theorem ofCases_tour {opener : List Stmt → Opener} (p : Place) (s : Typing)
    (enters : ∀ body, Carried names p (Captures.ofStmts names body) →
      Carried names (p.enter (opener body)) (Captures.ofStmts names body)) :
    ∀ cs, Tour names p s (ofCases opener p s cs) (Cited.ofCases cs) (Nodes.ofCases cs) (Captures.ofCases names cs)
  | [] => .nil
  | ⟨condition, b⟩ :: cs => by
    refine ((ofOption_tour _ _ condition).inBlock.append ((ofStmts_tour _ _ b).move ?_ ?_ (enters b))).append
      ((ofCases_tour p _ enters cs).move (·.keep (cases_ran opener p s [⟨condition, b⟩]))
        (·.after (Code.cases [⟨condition, b⟩]).replays) id)
    · exact fun mirrors => (mirrors.enter (opener b)).keep (optional_ran (p.enter .block) s.enter condition)
    · exact fun alike => alike.enter.after (Code.optional condition).replays

theorem ofStmt_tour (p : Place) (s : Typing) :
    ∀ x, Tour names p s (ofStmt p s x) (Cited.ofStmt x) (Nodes.ofStmt x) (Captures.ofStmt names x)
  | ⟨_, .expr e⟩ | ⟨_, .raise e⟩ => ofExpr_tour p s e
  | ⟨_, .use _ kind _⟩ =>
    Tour.nil.recite List.nil_subperm (by cases kind <;> simp [Cited.ofStmt, Cited.ofStmtKind, Cited.ofUse])
  | ⟨_, .global _⟩ => Tour.nil.mention fun _ => nofun
  | ⟨_, .inNamespace path decls⟩ =>
    ((ofStmts_tour p.hide { s with ns := path.segments } decls).move (s := s) (·.hide) (·.withNs path.segments)
      fun _ => carried_hide).recite (List.sublist_cons_self ..).subperm (by simp [Cited.ofStmt, Cited.ofStmtKind])
  | ⟨_, .var _ type init⟩ =>
    ((ofOption_tour p _ init).pastTyped.mention Carried.left).recite (List.sublist_append_right ..).subperm
      (by simp [Cited.ofStmt, Cited.ofStmtKind])
  | ⟨_, .attempt b handlers⟩ =>
    ((ofStmt_tour _ _ b).append ((ofStmts_tour _ _ handlers).move (·.bind _ (stmt_ran (p.enter .block) s.enter b))
      (·.after (Code.stmt b).replays) (·.bind _))).inBlock
  | ⟨_, .handler name type b⟩ =>
    ((ofStmt_tour _ _ b).move (·.bind [(name, .caught)] (bindCaught_ran name type s.enter))
      (·.after (Code.caught name type).replays) fun carried =>
      Carried.bind (fun n hn => carried n (List.mem_cons_of_mem _ hn)) _).inBlock.recite
      (List.sublist_append_right ..).subperm (by simp [Cited.ofStmt, Cited.ofStmtKind])
  | ⟨_, .loop cond b _⟩ => ((ofExpr_tour _ _ cond).append (ofStmt_tour _ _ b).pastExpr).inBlock
  | ⟨_, .forIn key value target b⟩ =>
    (((ofExpr_tour _ _ target).mention Carried.left).append
      ((ofStmt_tour _ _ b).move (·.bind _ (bindLoop_ran key value target _))
      (·.after (Code.loopNames key value target).replays) (·.bind _)).pastExpr).inBlock
  | ⟨_, .branch cond yes no⟩ =>
    (((ofExpr_tour _ _ cond).append (ofStmt_tour _ _ yes).inBlock.pastExpr).append
      (((ofAlternative_tour _ _ no).move (·.keep (.inFrame (stmt_ran ((p.enter .block).enter .block) _ yes)))
        (·.after (Code.alternative (some yes)).replays) id).pastExpr)).inBlock
  | ⟨_, .switch target cs⟩ =>
    ((ofExpr_tour _ _ target).append (ofCases_tour _ _ (fun _ => Carried.block) cs).pastExpr).inBlock
  | ⟨_, .block b⟩ => (ofStmts_tour _ _ b).inBlock
  | ⟨_, .ret value⟩ => ofOption_tour p s value
  | ⟨_, .func f⟩ =>
    ((ofFunc_tour (f := f) .declaration _ _ fun _ => carried_declaration).move
      (·.bind [(f.name, .func)] (.declare f.name (.func f) s))
      (·.after (Code.declared f.name _).replays) (·.bind _)).recite (List.sublist_cons_self ..).subperm
      (by simp [Cited.ofStmt, Cited.ofStmtKind])
  | ⟨_, .cls c⟩ =>
    (ofClass_tour p s c).recite (List.sublist_cons_self ..).subperm (by simp [Cited.ofStmt, Cited.ofStmtKind])

theorem ofStmts_tour (p : Place) (s : Typing) :
    ∀ xs, Tour names p s (ofStmts p s xs) (Cited.ofStmts xs) (Nodes.ofStmts xs) (Captures.ofStmts names xs)
  | [] => .nil
  | x :: xs => (ofStmt_tour p s x).append
      ((ofStmts_tour _ _ xs).move (·.bind _ (stmt_ran p s x)) (·.after (Code.stmt x).replays) (·.bind _))

theorem ofAlternative_tour (p : Place) (s : Typing) :
    ∀ x, Tour names p s (ofAlternative p s x) (Cited.ofBody x) (Nodes.ofBody x) (Captures.ofBody names x)
  | none => .nil
  | some x => (ofStmt_tour _ _ x).inBlock

theorem ofBody_tour (p : Place) (s : Typing) :
    ∀ x, Tour names p s (ofBody p s x) (Cited.ofBody x) (Nodes.ofBody x) (Captures.ofBody names x)
  | none => .nil
  | some x => ofStmt_tour p s x

theorem ofFunc_tour (opener : Opener) (p : Place) (s : Typing) : ∀ {f ms},
    (Carried names p ms → Carried names (p.enter opener) (Captures.ofFunc names f)) →
    Tour names p s (ofFunc opener p s f) (Cited.ofFunc f) (Nodes.ofFunc f) ms
  | ⟨name, ps, b, result, attributes, pos⟩, ms, carried => by
    have attributed : Tour names p s (ofExprs (p.enter .declaration) s.enter attributes) (Cited.ofExprs attributes)
        (Nodes.ofExprs attributes) ms :=
      (ofExprs_tour _ _ attributes).move (·.enter .declaration) (·.enter) fun _ => carried_declaration
    have inside {vs : List Visit} {cs : List Citation} {es : List Expr} {more : List Mention}
        (h : Tour names (p.enter opener) (after (exprs attributes) s.enter) vs cs es more)
        (carries : Carried names (p.enter opener) (Captures.ofFunc names ⟨name, ps, b, result, attributes, pos⟩) →
          Carried names (p.enter opener) more) : Tour names p s vs cs es ms :=
      (h.pastExprs (p.enter .declaration)).move (·.enter opener) (·.enter) (carries ∘ carried)
    refine ((attributed.join (inside (ofParams_tour _ _ ps) (·.left.right))).join (inside ((ofBody_tour _ _ b).move
      (·.bind _ (params_ran (p.enter opener) _ ps)) (·.after (Code.params ps).replays) (·.bind _)) (·.right))).recite ?_
      fun e => ?_
    · rw [List.append_assoc]
      exact List.perm_append_comm.subperm.trans ((List.sublist_append_left _ _).append_right _).subperm
    · simp only [Cited.ofFunc, List.mem_append, Cited.node_notMem_ofPath]
      tauto

theorem ofParams_tour (p : Place) (s : Typing) :
    ∀ ps, Tour names p s (ofParams p s ps) (Cited.ofParams ps) (Nodes.ofParams ps) (Captures.ofDefaults names ps)
  | [] => .nil
  | ⟨name, type, default, promoted, pos⟩ :: ps => by
    refine ((ofOption_tour p _ default).pastTyped.recite (List.sublist_append_right (Cited.ofPath type) _).subperm
      (by simp)).append ((ofParams_tour _ _ ps).move ?_ ?_ (·.bind _))
    · exact (·.bind _ (params_ran p s [⟨name, type, default, promoted, pos⟩]))
    · exact (·.after (Code.params [⟨name, type, default, promoted, pos⟩]).replays)

theorem ofClass_tour (p : Place) (s : Typing) {ms : List Mention} :
    ∀ c, Tour names p s (ofClass p s c) (Cited.ofClass c) (Nodes.ofClass c) ms
  | ⟨name, kind, parent, interfaces, members, attributes, pos⟩ => by
    let c : Class := ⟨name, kind, parent, interfaces, members, attributes, pos⟩
    have free (ms : List Mention) :
        Carried names (((p.bind [(name, .cls)]).enter .declaration).bind Binders.ofClassBody) ms :=
      carried_declaration.bind _
    refine ((((ofExprs_tour _ _ attributes).mention fun _ => free _).join
      ((ofMembers_tour _ _ free members).pastExprs p)).move ?_ ?_ fun _ => free []).recite ?_ fun e => ?_
    · exact fun h => ((h.bind [(name, .cls)] (.declare name (.classOf c) s)).enter .declaration).bind _
        (bindSelf_ran c _)
    · exact fun h => (h.after (Code.declared name (.classOf c)).replays).enter.after (Code.self c).replays
    · exact List.perm_append_comm.subperm.trans ((List.sublist_append_right _ _).append_right _).subperm
    · simp only [Cited.ofClass, List.mem_append, Cited.node_notMem_ofPath, Cited.node_notMem_ofPaths]
      tauto

theorem ofMembers_tour (p : Place) (s : Typing) (free : ∀ ms, Carried names p ms) :
    ∀ ms, Tour names p s (ofMembers p s ms) (Cited.ofMembers ms) (Nodes.ofMembers ms) []
  | [] => .nil
  | ⟨_, kind, _, attributes, _⟩ :: ms => by
    have first := (ofExprs_tour p s attributes).mention fun _ : Carried names p [] => free _
    exact (ofMember_tour p s free first kind).join
      (((ofMembers_tour p _ free ms).move (·.keep (memberKind_ran p _ kind)) (·.after (Code.memberKind kind).replays)
        id).pastExprs p)

theorem ofMember_tour (p : Place) (s : Typing) (free : ∀ ms, Carried names p ms) {attributes : List Expr}
    (first : Tour names p s (ofExprs p s attributes) (Cited.ofExprs attributes) (Nodes.ofExprs attributes) []) :
    ∀ kind, Tour names p s (ofExprs p s attributes ++ ofMemberKind p (after (exprs attributes) s) kind)
      (Cited.ofMemberKind kind ++ Cited.ofExprs attributes)
        (Nodes.ofExprs attributes ++ Nodes.ofMemberKind attributes kind) []
  | .use _ => first.member (Tour.nil.recite List.nil_subperm (by simp [Cited.ofMemberKind]))
  | .field type init =>
    first.member (((ofOption_tour p _ init).mention fun _ => free _).recite
      (List.sublist_append_right (Cited.ofPath type) _).subperm (by simp [Cited.ofMemberKind]))
  | .property _ getter setter => by
    refine first.member (((ofAccessor_tour p _ getter).join ((ofAccessor_tour p _ setter).move
      (·.keep (accessor_ran p _ getter)) (·.after (Code.accessor getter).replays) id)).recite ?_ fun e => ?_)
    · exact ((List.sublist_append_right _ _).append_right _).subperm
    · simp [Cited.ofMemberKind]
  | .method ⟨name, ps, b, result, own, pos⟩ => by
    have whole : Tour names p (after (exprs attributes) s)
        (ofMemberKind p (after (exprs attributes) s) (.method ⟨name, ps, b, result, own, pos⟩))
        (Cited.ofFunc ⟨name, ps, b, result, own, pos⟩) (Nodes.ofFunc ⟨name, ps, b, result, own, pos⟩) [] :=
      ofFunc_tour .declaration p _ fun _ => carried_declaration
    by_cases same : own = attributes
    · -- listed once, typed in the class and again in the frame of the method
      subst same
      have both := first.member whole
      refine ⟨fun h => (both.faithful h).nodes (by simp [Nodes.ofMemberKind, Nodes.ofFunc]), fun h => ?_, both.traced⟩
      have alike := (h.step (Code.exprs own).replays (exprs_ran p s own)).symm.enter_left.symm
      have twice := entries_eq (Code.exprs own).replays alike (exprs_ran p s own)
        (exprs_ran (p.enter .declaration) _ own)
      have kept := (whole.keeps (h.after (Code.exprs own).replays)).repeated (first.keeps h).ready
        (fun v hv => by simp [Nodes.ofFunc, (first.keeps h).mem v hv]) fun v hv => ?_
      · simpa only [Nodes.ofMemberKind, if_true, List.nil_append, List.append_assoc, Nodes.ofFunc] using kept
      · obtain ⟨w, hw, entry⟩ := exists_entry twice v hv
        exact ⟨w, by simp only [ofMemberKind, ofFunc, List.mem_append]; exact .inl (.inl hw), entry⟩
    · exact first.member (by simpa only [Cited.ofMemberKind, Nodes.ofMemberKind, Nodes.ofFunc, if_neg same] using whole)

theorem ofAccessor_tour (p : Place) (s : Typing) {ms : List Mention} :
    ∀ f, Tour names p s (ofAccessor p s f) (Cited.ofAccessor f) (Nodes.ofAccessor f) ms
  | none => Tour.nil.mention fun _ => nofun
  | some _ => ofFunc_tour .declaration p s fun _ => carried_declaration

end

end Visits

/-! ## The table -/

theorem lookup_eq_of_mem {i : Nat} {a : α} : ∀ {entries : List (Nat × α)}, (i, a) ∈ entries →
    (∀ b, (i, b) ∈ entries → b = a) → entries.lookup i = some a
  | (j, b) :: entries, mem, only => by
    by_cases h : i = j
    · subst h
      simp [only b (by simp)]
    · have later : (i, a) ∈ entries := by simpa [h] using mem
      have apart : (i == j) = false := by simp [h]
      rw [List.lookup_cons, apart]
      exact lookup_eq_of_mem later fun b hb => only b (by simp [hb])

variable {context : Context}

theorem Typing.start_alike (program : List Stmt) (blank : context.Blank) :
    Alike (.start program context) (.start program context) := by
  obtain ⟨frames, stack, names⟩ := Place.start_mirrors program context
  cases frames with
  | nil => cases stack
  | cons top rest => exact ⟨rfl, blank, blank, ⟨top, rest, stack⟩, top, rest, stack⟩

theorem visits_tour (names : FunctionNames) (program : List Stmt) (context : Context) :
    Tour names (.start program) (.start program context) (visits program context) (Cited.ofStmts program)
      (Nodes.ofStmts program) (Captures.ofStmts names program) :=
  Visits.ofStmts_tour ..

theorem visits_faithful (program : List Stmt) (context : Context) :
    Faithful (visits program context) (Cited.ofStmts program) (Nodes.ofStmts program) :=
  (visits_tour ⟨{}, []⟩ program context).faithful (Place.start_mirrors program context)

theorem visits_keeps (program : List Stmt) (blank : context.Blank) :
    Keeps (visits program context) (Nodes.ofStmts program) :=
  (visits_tour ⟨{}, []⟩ program context).keeps (Typing.start_alike program blank)

theorem typeProgram_entries (program : List Stmt) (context : Context) :
    (typeProgram program context).table.entries = ((visits program context).map Visit.entry).reverse :=
  (stmts_ran (.start program) (.start program context) program).table.trans (List.append_nil _)

theorem exists_entry_of_cited {program : List Stmt} (context : Context) {e : Expr}
    (cited : .node e ∈ Cited.ofStmts program) (computed : e.ident? = none) :
    ∃ t, (typeProgram program context).table.get? e.id = some t := by
  obtain ⟨v, visited, rfl⟩ := (visits_faithful program context).seen e cited computed
  have entry : v.entry ∈ (typeProgram program context).table.entries := by
    rw [typeProgram_entries]
    exact List.mem_reverse.mpr (List.mem_map_of_mem visited)
  rw [TypeTable.get?]
  cases found : (typeProgram program context).table.entries.lookup v.expr.id with
  | some t => exact ⟨t, rfl⟩
  | none =>
    rw [List.lookup_eq_none_iff] at found
    have other := found _ entry
    simp [Visit.entry] at other

theorem table_get?_of_mem_visits {source file : String} {nextId next : Nat} {program : List Stmt}
    (read : (readSource source file nextId).result = .ok (program, next))
    (blank : context.Blank) {v : Visit} (visited : v ∈ visits program context) :
    (typeProgram program context).table.get? v.expr.id = some v.type := by
  unfold TypeTable.get?
  rw [typeProgram_entries]
  refine lookup_eq_of_mem ?_ fun type mem => ?_
  · exact List.mem_reverse.mpr (List.mem_map_of_mem visited)
  · obtain ⟨w, hw, entry⟩ := List.mem_map.mp (List.mem_reverse.mp mem)
    simp only [Visit.entry, Prod.mk.injEq] at entry
    rw [← entry.2]
    exact (visits_keeps program blank).same (readSource_built read).distinct w hw v visited entry.1

end PhaseLang
