import Mathlib.Data.List.Pairwise
import PhaseLang.Proofs.Grammar.Termination
import PhaseLang.Proofs.Grammar.Inside
import PhaseLang.Proofs.Token.Tiling

/-!
# Where classes start

The tokens of a source start at different bytes, so how many tokens start at a byte or after it tells
them apart. The parser reads them from the front, and so no class of a program starts at the token
that another class starts with, if that one stands at the top of the program.
-/

namespace PhaseLang

/-! ## Tokens in the order of their starts -/

def Token.Ascending (ts : List Token) : Prop := ts.Pairwise fun t u => t.pos.start < u.pos.start

/-- How many tokens start at a byte or after it. -/
def Token.countFrom (tokens : List Token) (start : Nat) : Nat := tokens.countP fun t => start ≤ t.pos.start

theorem Token.Ascending.countFrom_eq {front ts : List Token} {t : Token} (h : Ascending (front ++ t :: ts)) :
    countFrom (front ++ t :: ts) t.pos.start = ts.length + 1 := by
  obtain ⟨_, later, across⟩ := List.pairwise_append.mp h
  have before : front.countP (fun u => t.pos.start ≤ u.pos.start) = 0 := by
    rw [List.countP_eq_zero]
    intro u hu
    have := across u hu t (by simp)
    simpa using this
  have after : ts.countP (fun u => t.pos.start ≤ u.pos.start) = ts.length := by
    rw [List.countP_eq_length]
    intro u hu
    have := (List.pairwise_cons.mp later).1 u hu
    simpa using Nat.le_of_lt this
  rw [countFrom, List.countP_append, List.countP_cons, before, after]
  simp

theorem Text.eq_nil_of_slice? {n : Nat} {cs middle : List Char} (h : slice? n n cs = some middle) : middle = [] := by
  have nothing (after : List Char) : cut? 0 after = some ([], after) := by
    have front : splitAtByte 0 after = ([], after) := splitAtByte_append [] after
    rw [cut?, front]
    rfl
  rw [slice?, if_pos (Nat.le_refl n), Nat.sub_self] at h
  cases found : cut? n cs with
  | none => simp [found] at h
  | some parts => simpa [found, nothing, eq_comm] using h

structure Token.Row (ts : List Token) (eof : Token) : Prop where
  last : eof.kind = .eof
  only : ∀ t ∈ ts, t.kind ≠ .eof
  ascending : Ascending (ts ++ [eof])

theorem scan_row (source file : String) : ∃ ts eof, (scan source file).tokens = ts ++ [eof] ∧ Token.Row ts eof := by
  obtain ⟨steps, final, r⟩ := Scanner.exists_scan_run source
  have spans {t : Token} (ht : t ∈ Scanner.tokensOf file 0 steps) := r.mem_tokensOf file [] ht
  have filled {t : Token} (ht : t ∈ Scanner.tokensOf file 0 steps) : t.pos.start < t.pos.stop := by
    obtain ⟨_, hlexeme, _, _, hspan, _, hslice⟩ := spans ht
    refine Nat.lt_of_le_of_ne hspan fun empty => hlexeme ?_
    rw [← empty] at hslice
    exact String.toList_eq_nil_iff.mp (Text.eq_nil_of_slice? hslice)
  refine ⟨_, _, r.scan_tokens file, rfl, fun t ht => (spans ht).1, List.pairwise_append.mpr ⟨?_, by simp, ?_⟩⟩
  · refine (r.pairwise_tokensOf file []).imp_of_mem fun ha _ hab => ?_
    exact Nat.lt_of_lt_of_le (filled ha) hab
  · intro t ht eof he
    obtain rfl := List.mem_singleton.mp he
    have stop := (spans ht).2.2.2.2.2.1
    rw [List.nil_append, Text.byteLength_toList] at stop
    exact Nat.lt_of_lt_of_le (filled ht) stop

/-! ## The classes of a piece -/

namespace Workpiece

def classes : Workpiece → List Class
  | expr e => Inside.ofExpr e
  | stmt s | synthetic s => Inside.ofStmt s
  | func f => Inside.ofFunc f
  | param p => Inside.ofOption p.default
  | accessors getter setter => Inside.ofAccessor getter ++ Inside.ofAccessor setter
  | member m => Inside.ofMember m
  | _ => []

attribute [simp] classes

section
variable {x : Class}

theorem inside_option (e : Option Expr) : Inside.ofOption e = e.toList.flatMap Inside.ofExpr := by
  cases e <;> simp

theorem inside_body (s : Option Stmt) : Inside.ofBody s = s.toList.flatMap Inside.ofStmt := by
  cases s <;> simp

attribute [local simp] inside_option inside_body Inside.ofExprs_eq Inside.ofArgs_eq Inside.ofEntries_eq
  Inside.ofCases_eq Inside.ofStmts_eq Inside.ofParams_eq Inside.ofMembers_eq List.flatMap_map List.flatMap_assoc
  Entry.pieces Case.pieces Arg.piece

theorem classes_kind (kind : ExprKind) : Inside.ofKind kind = kind.pieces.flatMap classes := by
  cases kind <;> simp [ExprKind.pieces]

theorem classes_func (f : Func) : Inside.ofFunc f = (f.attributes.map expr ++ f.inner).flatMap classes := by
  obtain ⟨⟩ := f
  simp [Func.inner]

theorem mem_classes_stmtKind {kind : StmtKind} :
    x ∈ Inside.ofStmtKind kind ↔ kind = .cls x ∨ x ∈ kind.pieces.flatMap classes := by
  cases kind with
  | loop cond body test => cases test <;> simp [StmtKind.pieces, or_comm]
  | cls c => simp [StmtKind.pieces, Inside.mem_ofClass, eq_comm]
  | _ => simp [StmtKind.pieces]

theorem mem_classes_member {m : Member} (own : ∀ f, m.kind = .method f → f.attributes = m.attributes) :
    x ∈ Inside.ofMember m ↔ x ∈ (m.attributes.map expr ++ m.kind.pieces).flatMap classes := by
  obtain ⟨name, kind, modifiers, attributes, pos⟩ := m
  cases kind with
  | method f =>
    obtain rfl := own f rfl
    simp [MemberKind.pieces, classes_func]
  | _ => simp [MemberKind.pieces]

end

end Workpiece

namespace Grammar

theorem inside_assignment {target value : Expr} {kind : ExprKind} {x : Class}
    (h : assignment? target value = some kind) :
    x ∈ Inside.ofKind kind ↔ x ∈ Inside.ofExpr target ∨ x ∈ Inside.ofExpr value := by
  obtain ⟨id, pos, code⟩ := target
  unfold assignment? at h
  split at h <;> cases h <;> rename_i same <;> simp only at same <;> subst same <;> simp [or_assoc]

theorem inside_promotions (id : Nat) (names : List String) : Inside.ofStmts (Synthesis.promotions id names) = [] := by
  rw [Inside.ofStmts_eq, List.flatMap_eq_nil_iff]
  intro s hs
  obtain ⟨i, _, rfl⟩ := List.mem_mapIdx.mp hs
  simp [Synthesis.promotion]

theorem inside_prepend (stmts : List Stmt) (body : Stmt) :
    Inside.ofStmt (prepend stmts body) = Inside.ofStmts stmts ++ Inside.ofStmt body := by
  obtain ⟨pos, kind⟩ := body
  unfold prepend
  cases kind <;> simp [Inside.ofStmts_eq]

theorem inside_asAbstract (m : Member) : Inside.ofMember (asAbstract m) = Inside.ofMember m := by
  obtain ⟨⟩ := m
  unfold asAbstract
  split <;> rfl

theorem inside_nameList : ∀ (names : List String) (id start : Nat),
    Inside.ofExprs (Synthesis.nameList id start names).1 = []
  | [], id, start => by simp [Synthesis.nameList]
  | [name], id, start => by simp [Synthesis.nameList]
  | name :: next :: names, id, start => by
    have ih := inside_nameList (next :: names) (id + 1) (start + name.utf8ByteSize + 2)
    simpa [Synthesis.nameList] using ih

end Grammar

open Workpiece

section
variable {c c' : Cursor} {ks : List Workpiece} {x : Workpiece}

/-- Forming a piece reads nothing and leaves the marks alone. -/
theorem Forms.marks (forms : Forms c ks x c') :
    c'.inInterface = c.inInterface ∧ c'.inNamespace = c.inNamespace ∧ c'.rest = c.rest := by
  cases forms <;> exact ⟨rfl, rfl, rfl⟩

theorem Forms.isCode (forms : Forms c ks x c') : x.isCode = true := by
  cases forms <;> rfl

/-- The classes of a piece are those of the pieces that it is formed from, or start at a token that is
read. -/
theorem Forms.classes (forms : Forms c ks x c') {y : Class}
    (hy : y ∈ x.classes) :
    (∃ t, .token t ∈ ks ∧ t.pos.start = y.pos.start) ∨ y ∈ (codes ks).flatMap Workpiece.classes := by
  cases forms with
  | expr parts _ _ _ => exact .inr (parts ▸ classes_kind _ ▸ hy)
  | assignment parts assigned _ => exact .inr (by simpa [parts, Grammar.inside_assignment assigned] using hy)
  | compound parts sum assigned _ _ =>
    subst sum
    exact .inr (by simpa [parts, Grammar.inside_assignment assigned] using hy)
  | call parts => exact .inr (by simp [parts, Inside.ofArgs_eq] at hy ⊢; grind)
  | lambda parts => exact .inr (by simp [parts] at hy ⊢; grind)
  | @template callee fragments embedded _ _ _ parts _ _ _ _ =>
    have woven := (weave_perm fragments embedded).flatMap_right Workpiece.classes
    right
    rw [parts, List.flatMap_cons, List.mem_append, woven.mem_iff]
    simpa [Inside.ofExprs_eq, List.flatMap_map] using hy
  | stmt parts _ formed =>
    rcases mem_classes_stmtKind.mp hy with rfl | hy
    · exact .inl (formed.2.1 ▸ formed.2.2)
    · exact .inr (parts ▸ hy)
  | factory parts => simp [Synthesis.factory, Grammar.inside_nameList] at hy
  | @case m f body parts method made bare _ _ _ =>
    have own : ∀ g, m.kind = .method g → g.attributes = m.attributes := by
      intro g same
      obtain rfl : f = g := by simpa [method] using same
      rw [bare.1, bare.2]
    have inner := (mem_classes_member own).mp hy
    exact .inr (by simpa [parts, bare.1, method, MemberKind.pieces, Func.inner, made] using inner)
  | func parts _ => exact .inr (parts ▸ classes_func _ ▸ hy)
  | param parts _ => exact .inr (by simpa [parts, inside_option, List.flatMap_map] using hy)
  | noAccessors parts => exact absurd hy List.not_mem_nil
  | getter parts => exact .inr (by simpa [parts, or_comm] using hy)
  | setter parts => exact .inr (by simpa [parts] using hy)
  | member parts _ formed => exact .inr (parts ▸ (mem_classes_member fun f same => (formed f same).1).mp hy)

end

/-! ## Starts along a bench -/

namespace Workpiece

/-- Where a token or the classes of a piece start. -/
def starts : Workpiece → List Nat
  | token t => [t.pos.start]
  | x => x.classes.map (·.pos.start)

def Before (x y : Workpiece) : Prop := ∀ a ∈ x.starts, ∀ b ∈ y.starts, a < b

def Differ (x y : Workpiece) : Prop := ∀ a ∈ x.starts, ∀ b ∈ y.starts, a ≠ b

instance : Std.Symm Differ := ⟨fun _ _ h a ha b hb => (h b hb a ha).symm⟩

theorem Before.differ {x y : Workpiece} (h : x.Before y) : x.Differ y := fun a ha b hb => Nat.ne_of_lt (h a ha b hb)

/-- No class inside a class starts where it does. -/
def Clear : Workpiece → Prop
  | stmt ⟨_, .cls c⟩ => ∀ x ∈ Inside.ofExprs c.attributes ++ Inside.ofMembers c.members, x.pos.start ≠ c.pos.start
  | _ => True

end Workpiece

section
variable {s s' ks js : List Workpiece} {x k : Workpiece} {y : Class} {c c' : Cursor} {row : List Token}

theorem starts_code (code : x.isCode = true) : x.starts = x.classes.map (·.pos.start) := by
  cases x with
  | token | ahead | behind | place | «within» | exempt => cases code
  | _ => rfl

theorem mem_codes_starts {K : List Workpiece} (h : y ∈ (codes K).flatMap Workpiece.classes) :
    ∃ k ∈ codes K, y.pos.start ∈ k.starts := by
  obtain ⟨k, hk, hy⟩ := List.mem_flatMap.mp h
  exact ⟨k, hk, starts_code (List.mem_filter.mp hk).2 ▸ List.mem_map_of_mem hy⟩

theorem Workpiece.Clear.of_token {pos : Position} {t : Token} (ordered : ks.Pairwise Before) (token : .token t ∈ ks)
    (start : t.pos.start = y.pos.start)
    (inner : ∀ x ∈ Inside.ofExprs y.attributes ++ Inside.ofMembers y.members,
      x ∈ (codes ks).flatMap Workpiece.classes) :
    (Workpiece.stmt ⟨pos, .cls y⟩).Clear := by
  intro x hx same
  obtain ⟨k, code, hk⟩ := mem_codes_starts (inner x hx)
  obtain ⟨mem, code⟩ := List.mem_filter.mp code
  have differ : Workpiece.Differ (.token t) k :=
    (ordered.imp Before.differ).forall token mem (by rintro rfl; cases code)
  exact differ t.pos.start (by simp [starts]) x.pos.start hk (start.trans same.symm)

/-- What is on a bench starts at tokens of the row, in their order and before those to come. -/
structure Lined (row : List Token) (s : List Workpiece) (c : Cursor) : Prop where
  ordered : (s ++ c.rest.map .token : List Workpiece).Pairwise Before
  known : ∀ x ∈ (s ++ c.rest.map .token : List Workpiece), ∀ a ∈ x.starts, ∃ t ∈ row, t.pos.start = a
  clear : ∀ x ∈ s, x.Clear

theorem Lined.replace {K J : List Workpiece} (h : Lined row (s ++ (K ++ s')) c) (rest : c'.rest = c.rest)
    (ordered : J.Pairwise Before) (sub : ∀ x ∈ J, ∀ a ∈ x.starts, ∃ k ∈ K, a ∈ k.starts) (clear : ∀ x ∈ J, x.Clear) :
    Lined row (s ++ (J ++ s')) c' := by
  obtain ⟨order, known, clean⟩ := h
  simp only [List.append_assoc] at order known
  obtain ⟨before, behind, across⟩ := List.pairwise_append.mp order
  obtain ⟨-, behind, across'⟩ := List.pairwise_append.mp behind
  constructor
  · rw [rest, List.append_assoc, List.append_assoc]
    refine List.pairwise_append.mpr ⟨before, List.pairwise_append.mpr ⟨ordered, behind, fun x hx y hy a ha => ?_⟩, ?_⟩
    · obtain ⟨k, hk, ha⟩ := sub x hx a ha
      exact across' k hk y hy a ha
    · intro x hx y hy a ha b hb
      rcases List.mem_append.mp hy with hy | hy
      · obtain ⟨k, hk, hb⟩ := sub y hy b hb
        exact across x hx k (List.mem_append_left _ hk) a ha b hb
      · exact across x hx y (List.mem_append_right _ hy) a ha b hb
  · intro x hx a ha
    rw [rest] at hx
    simp only [List.append_assoc, List.mem_append] at hx
    rcases hx with hx | hx | hx
    · exact known x (by simp [hx]) a ha
    · obtain ⟨k, hk, ha⟩ := sub x hx a ha
      exact known k (by simp [hk]) a ha
    · exact known x (by simp only [List.mem_append, hx, or_true]) a ha
  · simp only [List.forall_mem_append] at clean ⊢
    exact ⟨clean.1, clear, clean.2.2⟩

theorem Lined.read (h : Lined row s c) (more : c.rest ≠ []) : Lined row (s ++ [.token c.peek]) c.advance := by
  obtain ⟨t, ts, rest⟩ := List.exists_cons_of_ne_nil more
  obtain ⟨ordered, known, clear⟩ := h
  have peek : c.peek = t := by simp [Cursor.peek, rest]
  have next : c.advance.rest = ts := by simp [Cursor.advance, rest]
  rw [rest, List.map_cons] at ordered known
  refine ⟨?_, ?_, ?_⟩
  · rwa [peek, next, List.append_assoc]
  · rwa [peek, next, List.append_assoc]
  · exact List.forall_mem_append.mpr ⟨clear, by simp [Clear]⟩

theorem Lined.form {K : List Workpiece} (h : Lined row (s ++ K) c) (rest : c'.rest = c.rest)
    (sub : ∀ a ∈ x.starts, ∃ k ∈ K, a ∈ k.starts) (clear : x.Clear) : Lined row (s ++ [x]) c' := by
  have whole : Lined row (s ++ (K ++ [])) c := by simpa using h
  simpa using whole.replace rest (List.pairwise_singleton _ x) (by simpa using sub) (by simpa using clear)

theorem Lined.lay (h : Lined row s c) (rest : c'.rest = c.rest) (none : x.starts = []) (clear : x.Clear) :
    Lined row (s ++ [x]) c' :=
  Lined.form (K := []) (by simpa using h) rest (by simp [none]) clear

theorem Lined.swap (h : Lined row (s ++ k :: s') c) (rest : c'.rest = c.rest) (sub : ∀ a ∈ x.starts, a ∈ k.starts)
    (clear : x.Clear) : Lined row (s ++ x :: s') c' :=
  Lined.replace (K := [k]) (J := [x]) h rest (List.pairwise_singleton _ x) (by simpa using sub) (by simpa using clear)

theorem Forms.clear (forms : Forms c ks x c') (ordered : ks.Pairwise Before) : x.Clear := by
  cases forms with
  | @stmt kind pos parts _ formed =>
    cases kind with
    | cls cls =>
      obtain ⟨-, rfl, t, token, start⟩ := formed
      refine .of_token ordered token start fun y hy => ?_
      simpa [parts, StmtKind.pieces, Inside.ofExprs_eq, Inside.ofMembers_eq, List.flatMap_map] using hy
    | _ => trivial
  | _ => trivial

theorem Grammar.Promoted.starts {A : Param → Prop} {ms ms' : List Member} (h : Promoted A ms ms') :
    ∀ m' ∈ ms', ∀ a ∈ (Workpiece.member m').starts, ∃ m ∈ ms, a ∈ (Workpiece.member m).starts := by
  induction h with
  | nil => simp
  | keep _ ih =>
    refine List.forall_mem_cons.mpr ⟨fun a ha => ⟨_, List.mem_cons_self, ha⟩, fun m' hm a ha => ?_⟩
    obtain ⟨m, hm, ha⟩ := ih m' hm a ha
    exact ⟨m, List.mem_cons_of_mem _ hm, ha⟩
  | field _ _ ih => exact List.forall_mem_cons.mpr ⟨by simp [Workpiece.starts, fieldOf], ih⟩

theorem Grammar.Promoted.ordered {A : Param → Prop} {ms ms' : List Member} (h : Promoted A ms ms')
    (ordered : (ms.map Workpiece.member).Pairwise Before) : (ms'.map Workpiece.member).Pairwise Before := by
  induction h with
  | nil => exact ordered
  | keep rest ih =>
    obtain ⟨first, ordered⟩ := List.pairwise_cons.mp ordered
    refine List.pairwise_cons.mpr ⟨List.forall_mem_map.mpr fun m' hm a ha b hb => ?_, ih ordered⟩
    obtain ⟨m, hm, hb⟩ := rest.starts m' hm b hb
    exact first _ (List.mem_map_of_mem hm) a ha b hb
  | field _ _ ih => exact List.pairwise_cons.mpr ⟨by simp [Before, Workpiece.starts, fieldOf], ih ordered⟩

theorem Step.lined (step : Step s c s' c') (h : Lined row s c) : Lined row s' c' := by
  cases step with
  | read more => exact h.read more
  | ahead | previous | copy _ | span _ | join _ _ | exempt _ | enterNamespace _ _ | enterInterface =>
    exact h.lay rfl rfl trivial
  | settle _ => exact h.swap rfl (by simp [starts]) trivial
  | @readBehind _ _ _ t _ more => exact Lined.read (h.swap (x := .behind t.pos) rfl (by simp [starts]) trivial) more
  | drop _ => exact Lined.replace (K := [_]) (J := []) h rfl .nil (by simp) (by simp)
  | form forms =>
    have ordered := (List.pairwise_append.mp (List.pairwise_append.mp h.ordered).1).2.1
    refine h.form forms.marks.2.2 (fun a ha => ?_) (forms.clear ordered)
    rw [starts_code forms.isCode] at ha
    obtain ⟨y, hy, rfl⟩ := List.mem_map.mp ha
    rcases forms.classes hy with ⟨t, token, start⟩ | inner
    · exact ⟨_, token, by simp [starts, start]⟩
    · obtain ⟨k, hk, ha⟩ := mem_codes_starts inner
      exact ⟨k, (List.mem_filter.mp hk).1, ha⟩
  | @toBlock _ _ _ body =>
    refine h.swap rfl (by simp [starts]) ?_
    unfold Stmt.toBlock
    split
    · rename_i block
      obtain ⟨pos, kind⟩ := body
      obtain rfl : kind = .block _ := block
      trivial
    · trivial
  | prepend =>
    refine h.swap rfl (by simp [starts, Grammar.inside_prepend, Grammar.inside_promotions]) ?_
    unfold Grammar.prepend
    split <;> trivial
  | @promote s _ ms =>
    have fields := Grammar.withPromotedFields_fields ms
    have ordered := (List.pairwise_append.mp (List.pairwise_append.mp h.ordered).1).2.1
    have whole : Lined row (s ++ (ms.map .member ++ [])) c := by simpa using h
    simpa using whole.replace rfl (fields.ordered ordered) (by simpa using fields.starts) (by simp [Clear])
  | «within» more => simpa using (h.read more).lay (x := .within c.inNamespace) rfl rfl trivial
  | @leaveNamespace s ks ds _ _ pos path decls _ none parts _ left =>
    have rest : c'.rest = c.rest := by rcases left with rfl | ⟨-, rfl⟩ <;> rfl
    refine Lined.form (K := ks ++ .namespaceBody :: ds) (by simpa using h) rest (fun a ha => ?_) trivial
    obtain ⟨y, hy, rfl⟩ := List.mem_map.mp ha
    obtain ⟨k, hk, ha⟩ :=
      mem_codes_starts (K := ds) (y := y) (by simpa [parts, Inside.ofStmts_eq, List.flatMap_map] using hy)
    exact ⟨k, by simp [(List.mem_filter.mp hk).1], ha⟩
  | @leaveInterface s ks ds _ cls ms t _ attributes parts members _ token start =>
    have bench : s ++ ks ++ .interfaceBody :: ds = s ++ (ks ++ .interfaceBody :: ds) := List.append_assoc ..
    rw [bench] at h
    have inner : ∀ x ∈ Inside.ofExprs cls.attributes ++ Inside.ofMembers cls.members,
        x ∈ (codes (ks ++ .interfaceBody :: ds)).flatMap Workpiece.classes := by
      simp [attributes, parts, members, Inside.ofExprs_eq, Inside.ofMembers_eq, List.flatMap_map,
        Grammar.inside_asAbstract]
    have ordered := (List.pairwise_append.mp (List.pairwise_append.mp h.ordered).1).2.1
    refine h.form rfl (fun a ha => ?_) (.of_token ordered (by simp [token]) start inner)
    obtain ⟨y, hy, rfl⟩ := List.mem_map.mp ha
    rcases Inside.mem_ofClass.mp hy with rfl | hy
    · exact ⟨_, List.mem_append_left _ token, by simp [starts, start]⟩
    · obtain ⟨k, hk, ha⟩ := mem_codes_starts (inner y hy)
      exact ⟨k, (List.mem_filter.mp hk).1, ha⟩

end

/-! ## Classes at the top of a program -/

/-- No class among some statements has the number of another one that is such a statement itself. -/
def Apart (number : Nat → Nat) (ss : List Stmt) : Prop :=
  ∀ pos c, ⟨pos, .cls c⟩ ∈ ss → ∀ x ∈ Inside.ofStmts ss, number x.pos.start = number c.pos.start → x = c

/-- A token has another number than those that start later. -/
theorem Token.countFrom_lt {tokens : List Token} {t : Token} (ht : t ∈ tokens) {a : Nat} (lt : t.pos.start < a) :
    countFrom tokens a < countFrom tokens t.pos.start := by
  have fewer (ts : List Token) :
      ts.countP (fun u => a ≤ u.pos.start) ≤ ts.countP (fun u => t.pos.start ≤ u.pos.start) :=
    List.countP_mono_left fun u _ h => by simpa using Nat.le_trans (Nat.le_of_lt lt) (by simpa using h)
  obtain ⟨l, r, rfl⟩ := List.append_of_mem ht
  have before := fewer l
  have behind := fewer r
  have own : (decide (a ≤ t.pos.start)) = false := by simpa using lt
  simp only [countFrom, List.countP_append, List.countP_cons, own, Nat.le_refl, decide_true, Bool.false_eq_true,
    if_false, if_true]
  omega

theorem Token.start_eq_of_countFrom {tokens : List Token} {t u : Token} (ht : t ∈ tokens) (hu : u ∈ tokens)
    (same : countFrom tokens t.pos.start = countFrom tokens u.pos.start) : t.pos.start = u.pos.start := by
  rcases Nat.lt_trichotomy t.pos.start u.pos.start with lt | eq | gt
  · exact absurd same.symm (Nat.ne_of_lt (countFrom_lt ht lt))
  · exact eq
  · exact absurd same (Nat.ne_of_lt (countFrom_lt hu gt))

theorem Lined.apart {row : List Token} {c : Cursor} {program : List Stmt} (h : Lined row (program.map .stmt) c) :
    Apart (Token.countFrom row) program := by
  intro pos cls top x hx same
  rw [Inside.ofStmts_eq, List.mem_flatMap] at hx
  obtain ⟨s, hs, hx⟩ := hx
  have own : cls.pos.start ∈ (Workpiece.stmt ⟨pos, .cls cls⟩).starts :=
    List.mem_map_of_mem (Inside.mem_ofClass.mpr (.inl rfl))
  have other : x.pos.start ∈ (Workpiece.stmt s).starts := List.mem_map_of_mem hx
  have start : x.pos.start = cls.pos.start := by
    obtain ⟨t, ht, startt⟩ := h.known _ (List.mem_append_left _ (List.mem_map_of_mem hs)) _ other
    obtain ⟨u, hu, startu⟩ := h.known _ (List.mem_append_left _ (List.mem_map_of_mem top)) _ own
    rw [← startt, ← startu] at same ⊢
    exact Token.start_eq_of_countFrom ht hu same
  by_cases here : s = ⟨pos, .cls cls⟩
  · subst here
    rcases Inside.mem_ofClass.mp hx with rfl | inner
    · rfl
    · exact absurd start (h.clear _ (List.mem_map_of_mem top) x inner)
  · have apart := ((List.pairwise_append.mp h.ordered).1.imp Before.differ).forall (List.mem_map_of_mem hs)
      (List.mem_map_of_mem top) fun same => here (Workpiece.stmt.inj same)
    exact absurd start (apart _ other _ own)

/-- A class at the top of a program has its start for itself. -/
theorem parse_apart {ts : List Token} {eof : Token} (row : Token.Row ts eof) {nextId next : Nat} {program : List Stmt}
    (parsed : parse (ts ++ [eof]) nextId = .ok (program, next)) :
    Apart (Token.countFrom (ts ++ [eof])) program := by
  obtain ⟨c, -, steps⟩ := parse_steps row.last row.only parsed
  have lined : Lined (ts ++ [eof]) [] (.ofRow ts eof nextId) := by
    have ascending := (List.pairwise_append.mp row.ascending).1
    refine ⟨List.pairwise_map.mpr (ascending.imp fun lt => by simpa [Before, starts] using lt), ?_, by simp⟩
    simp only [List.nil_append, List.forall_mem_map, starts, List.forall_mem_singleton]
    exact fun t ht => ⟨t, List.mem_append_left _ ht, rfl⟩
  exact (steps.keep (I := Lined (ts ++ [eof])) (fun step h => step.lined h) lined).apart

end PhaseLang
