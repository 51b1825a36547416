import PhaseLang.Proofs.Php.Redrawn
import PhaseLang.Proofs.Php.Words

/-!
# Two lowerings side by side

A program is lowered in some monad, and a redrawn one as usual. A `Pairing` says when two such lowerings give the
same, with a property. It holds of whole programs if it is `Closing`: if it holds of one step where it holds of
the parts.
-/

namespace PhaseLang.Php

open Lower

structure Pairing (L : Type → Type) [Monad L] where
  Rel : {α : Type} → L α → Lower α → (α → Prop) → Prop
  pure : ∀ {α : Type} {P : α → Prop} {a : α}, P a → Rel (Pure.pure a) (Pure.pure a) P
  bind : ∀ {α β : Type} {P : α → Prop} {T : β → Prop} {m : L α} {n : Lower α} {f : α → L β} {g : α → Lower β},
    Rel m n P → (∀ a, P a → Rel (f a) (g a) T) → Rel (m >>= f) (n >>= g) T

section
variable {L : Type → Type} [Monad L] {R : Pairing L} {α β γ δ : Type} {P : α → Prop} {P' : β → Prop} {P'' : γ → Prop}
  {T : δ → Prop} {m : L α} {n : Lower α} {m' : L β} {n' : Lower β} {m'' : L γ} {n'' : Lower γ}

namespace Pairing.Rel

theorem map {k : α → δ} (h : R.Rel m n P) (hk : ∀ a, P a → T (k a)) :
    R.Rel (m >>= fun a => Pure.pure (k a)) (n >>= fun a => Pure.pure (k a)) T :=
  R.bind h fun a ha => R.pure (hk a ha)

theorem map₂ {k : α → β → δ} (h : R.Rel m n P) (h' : R.Rel m' n' P') (hk : ∀ a b, P a → P' b → T (k a b)) :
    R.Rel (m >>= fun a => m' >>= fun b => Pure.pure (k a b)) (n >>= fun a => n' >>= fun b => Pure.pure (k a b)) T :=
  R.bind h fun a ha => h'.map fun b hb => hk a b ha hb

theorem map₃ {k : α → β → γ → δ} (h : R.Rel m n P) (h' : R.Rel m' n' P') (h'' : R.Rel m'' n'' P'')
    (hk : ∀ a b c, P a → P' b → P'' c → T (k a b c)) :
    R.Rel (m >>= fun a => m' >>= fun b => m'' >>= fun c => Pure.pure (k a b c))
      (n >>= fun a => n' >>= fun b => n'' >>= fun c => Pure.pure (k a b c)) T :=
  R.bind h fun a ha => h'.map₂ h'' fun b c hb hc => hk a b c ha hb hc

theorem dite {b : Prop} [Decidable b] {k k' : L δ} {l l' : Lower δ} (h : b → R.Rel k l T) (h' : ¬ b → R.Rel k' l' T) :
    R.Rel (if b then k else k') (if b then l else l') T := by
  split
  · exact h ‹_›
  · exact h' ‹_›

theorem ite {b : Prop} [Decidable b] {k k' : L δ} {l l' : Lower δ} (h : R.Rel k l T) (h' : R.Rel k' l' T) :
    R.Rel (if b then k else k') (if b then l else l') T := dite (fun _ => h) fun _ => h'

end Pairing.Rel

end

/-- The second lowering is left out of account. -/
def ensuring (I : Progress → Prop) : Pairing Lower where
  Rel m _ P := Ensures I m P
  pure := ensures_pure
  bind := Ensures.bind

abbrev CleanIf (worded : Bool) (w : Wording) : Prop := worded = true → w.Clean

theorem clean_of {worded : Bool} {ws : List Wording} (w : Fits (CleanIf worded) ws) (on : worded = true) :
    Worded.Clean ws := fun x hx => w x hx on

abbrev Scene.under (c : Scene) (names : FunctionNames) : Scene := { c with names }

/-- `Q` is known of what typing visits in the redrawn program, `K` of the kinds of expressions; the texts are clean if
they are `worded`. -/
structure Closing {L : Type → Type} [Monad L] [MonadLiftT Lower L] [Lowering L] (R : Pairing L) (D : Redraw)
    (names names' : FunctionNames) (Q : Visit → Prop) (K : ExprKind → Prop) (Sum : PhaseLang.Expr → Prop)
    (Shape : ExprKind → Expr → Prop) (G : Asks) (worded : Bool) : Prop extends Captures.Kindred D names names' Q where
  own : ∀ {e p s}, Q ⟨D.expr e, p, s⟩ → K e.kind
  callForm : ∀ {e p s} {c : Scene}, Q ⟨D.expr e, p, s⟩ →
    Lower.callForm (c.under names') (D.expr e) = Lower.callForm (c.under names) e
  visit : ∀ {e p s} {c : Scene} {m n T}, Q ⟨D.expr e, p, s⟩ → R.Rel m n T →
    R.Rel (Lowering.visit (c.under names) e.id m) n T
  isString : ∀ {e p s} {c : Scene}, Q ⟨D.expr e, p, s⟩ → R.Rel (liftM (Php.isString (c.under names) e))
    (Php.isString (c.under names') (D.expr e)) fun _ => True
  /-- A sum is written where the left operand is not found to be a string. -/
  sum : ∀ {e p s} {c : Scene} {rhs}, Q ⟨D.expr e, p, s⟩ → K (.binary e .add rhs) →
    R.Rel (liftM (Php.isString (c.under names) e)) (Php.isString (c.under names') (D.expr e))
      fun joins => joins = false → Sum e
  accessTo : ∀ {e p s} {c : Scene} {name}, Q ⟨D.expr e, p, s⟩ → R.Rel (liftM (Php.accessTo (c.under names) e name))
    (Php.accessTo (c.under names') (D.expr e) name) fun _ => True
  made : ∀ {kind p}, K kind → Makes Sum Shape kind p → G.Parts p → Shape kind p ∧ G.expr p
  read : ∀ {target field value}, K (.set target field value) → K (.get target field)
  readIndex : ∀ {target index value}, K (.indexSet target index value) → K (.indexGet target index)
  added : ∀ {p}, Added p → G.Parts p → G.expr p
  bound : ∀ {lower upper p}, K (.range lower upper) → Shape upper.kind p → G.expr p →
    G.expr (.binary p .sub (.literal (.number "1")))
  /-- A loop over a range has a test where the range has a bound. -/
  loop : ∀ {lower upper p key}, K (.range lower upper) → Shape upper.kind p → G.expr p → G.text key →
    G.expr (.binary (.var key) .less p)
  stmt : ∀ {s}, G.StmtParts s → G.stmt s
  text : ∀ {t}, (worded = true → Balanced t) → G.text t
  literal : ∀ {l : Literal}, (worded = true → l.Clean) → G.literal l

theorem visited {Q : Visit → Prop} {p s} {e : PhaseLang.Expr} (h : Fits Q (Visits.ofExpr p s e)) :
    Q ⟨e, p, s⟩ := by
  obtain ⟨_, _, _⟩ := e
  exact h.right.head

section
variable {L : Type → Type} [Monad L] [MonadLiftT Lower L] [Lowering L] {R : Pairing L} {D : Redraw}
  {names names' : FunctionNames} {Q : Visit → Prop} {K : ExprKind → Prop} {Sum : PhaseLang.Expr → Prop}
  {Shape : ExprKind → Expr → Prop} {G : Asks} {worded : Bool} (F : Closing R D names names' Q K Sum Shape G worded)
  {c : Scene}

include F

/-! ## Texts -/

section
variable {name : String}

theorem Closing.word (w : CleanIf worded (.name name)) : G.text name := F.text fun on => balanced_of_isWord (w on)

theorem Closing.plain (h : Balanced name) : G.text name := F.text fun _ => h

theorem Closing.path {path : TypePath} (w : CleanIf worded (.path path)) : G.text (typeName path) :=
  F.text fun on => balanced_typeName (w on)

theorem Closing.result {type : Option TypePath} (w : Fits (CleanIf worded) (Worded.ofPath type)) :
    ∀ t ∈ typeNames (c.under names) type, G.text t :=
  fun t ht => F.text fun on => balanced_typeNames (clean_of w on) t ht

theorem Closing.named (h : Balanced name) : G.expr (.name name) := F.added (.name _) (F.plain h)

theorem Closing.var (w : CleanIf worded (.name name)) : G.expr (.var name) := F.added (.var _) (F.word w)

theorem Closing.null : G.expr (.literal .null) := F.added (.literal _) (F.literal fun _ => trivial)

theorem Closing.one : G.expr (.literal (.number "1")) := F.added (.literal _) (F.literal fun _ => isNumber_toString 1)

end

/-! ## Single nodes -/

variable {p : Place} {s : Typing} {q : Expr}

omit F in
theorem asks_positional (h : G.expr q) : ∀ a ∈ [positional q], G.Arg a := by
  simpa using ⟨by simp [positional], h⟩

theorem Closing.node {id : Nat} {pos : Position} {kind : ExprKind} (hv : Q ⟨D.expr ⟨id, pos, kind⟩, p, s⟩)
    (w : Fits (CleanIf worded) (Worded.ofKind kind))
    (inner : R.Rel (exprKind (c.under names) kind) (exprKind (c.under names') (D.exprKind kind))
      fun q => Shape kind q ∧ G.expr q) :
    R.Rel (expr (c.under names) ⟨id, pos, kind⟩) (expr (c.under names') (D.expr ⟨id, pos, kind⟩))
      fun q => Shape kind q ∧ G.expr q := by
  rw [F.lawful.expr]
  cases kind with
  | ident name =>
    have same := F.contains hv rfl
    simp only [Redraw.exprKind, expr, same]
    refine F.visit hv (R.pure ?_)
    split
    · exact F.made (F.own hv) (.functionRef name) (F.word w.head)
    · exact F.made (F.own hv) (.var name) (F.word w.head)
  | _ => exact F.visit hv inner

theorem Closing.wrapped {kind : ExprKind} {cls : String} {native : Bool} (k : K kind) (hc : Balanced cls)
    (m : Makes Sum Shape kind (Lower.wrapped cls native q)) (a : Added q) (h : G.Parts q) :
    Shape kind (Lower.wrapped cls native q) ∧ G.expr (Lower.wrapped cls native q) := by
  refine F.made k m ?_
  cases native with
  | true => exact h
  | false => exact ⟨F.named hc, asks_positional (F.added a h)⟩

theorem Closing.ternaryOperand (source : PhaseLang.Expr) (h : G.expr q) : G.expr (Lower.ternaryOperand source q) := by
  unfold Lower.ternaryOperand
  split
  · exact F.added (.group q) h
  · exact h

theorem Closing.apply (access : Access) {target field : PhaseLang.Expr} {name : String} (k : K (.get target field))
    (shape : Shape target.kind q) (h : G.expr q) (hn : G.text name) :
    Shape (.get target field) (access.apply q name) ∧ G.expr (access.apply q name) := by
  refine F.made k (.get _ access name shape) ?_
  cases access <;> exact ⟨h, hn⟩

theorem Closing.storeField {name : String} (hn : G.text name) (h : G.expr q) : G.stmt (Lower.storeField name q) :=
  F.stmt (F.added (.assign _ _) ⟨F.added (.field name) ⟨F.added .this trivial, hn⟩, h⟩)

theorem Closing.missingPromotions {f : Func} (w : Fits (CleanIf worded) (Worded.ofParams f.params)) :
    ∀ s ∈ Lower.missingPromotions f, G.stmt s := by
  intro s found
  obtain ⟨p, kept, rfl⟩ := List.mem_map.mp found
  rw [Worded.ofParams_eq] at w
  have word := (fits_flatMap.mp w p (List.mem_filter.mp kept).1).head
  exact F.storeField (F.word word) (F.var word)

/-! ## Classes -/

theorem Closing.publicMethod {name : String} {params : List Param} {body : List Stmt} (hn : Balanced name)
    (hp : ∀ p ∈ params, G.Param p) (hb : ∀ s ∈ body, G.stmt s) :
    G.Member ⟨[], .methods [⟨["public"], name, params, none, some body⟩]⟩ where
  attributes := by simp
  kind := List.forall_mem_singleton.mpr
    ⟨by simpa using F.plain (by decide), F.plain hn, hp, by simp, by simpa using hb⟩

theorem Closing.dispatchers : ∀ m ∈ Lower.dispatchers, G.Member m := by
  have param {name : String} (h : Balanced name) : G.Param ⟨none, name, none, false⟩ := ⟨by simp, F.plain h, by simp⟩
  have var {name : String} (h : Balanced name) : G.expr (.var name) := F.added (.var name) (F.plain h)
  have called {kind : String} {args : List Arg} (h : escapesClosed kind.toList = true) (ha : ∀ a ∈ args, G.Arg a) :
      G.expr (.call (.computed .this (.binary (.literal (.string kind)) .concat (.var "name"))) args) := by
    have text : G.expr (.literal (.string kind)) := F.added (.literal _) (F.literal fun _ => h)
    have named := F.added (.accessor kind "name") ⟨text, var (by decide)⟩
    exact F.added (.callComputed _ _) ⟨F.added (.computed _) ⟨F.added .this trivial, named⟩, ha⟩
  refine List.forall_mem_cons.mpr ⟨?_, List.forall_mem_singleton.mpr ?_⟩
  · refine F.publicMethod (by decide) (List.forall_mem_singleton.mpr (param (by decide))) ?_
    have got := @called "__get_" [] (by decide) (by simp)
    exact List.forall_mem_singleton.mpr (F.stmt (by simpa [Asks.StmtParts] using got))
  · refine F.publicMethod (by decide) ?_ ?_
    · exact List.forall_mem_cons.mpr ⟨param (by decide), List.forall_mem_singleton.mpr (param (by decide))⟩
    · exact List.forall_mem_singleton.mpr (F.stmt (called (by decide) (asks_positional (var (by decide)))))

theorem Closing.defaultConstructor (inherits : Bool) {inits : List Stmt} (h : ∀ s ∈ inits, G.stmt s) :
    G.Member (Lower.defaultConstructor inherits inits) := by
  have args : G.text "args" := F.plain (by decide)
  have passOn : G.stmt (.expr (.call (.parent "__construct") [positional (.spread (.var "args"))])) :=
    F.stmt (F.added (.callParent _ _) ⟨F.added (.parent _) (F.plain (by decide)),
      asks_positional (F.added (.spread _) (F.added (.var _) args))⟩)
  refine F.publicMethod (by decide) (List.forall_mem_singleton.mpr ⟨by simp, args, by simp⟩) ?_
  cases inherits with
  | false => exact h
  | true => exact List.forall_mem_cons.mpr ⟨passOn, h⟩

/-! ## Expressions -/

variable (R D names names' Shape G c) in
omit F in
/-- An expression and its redrawing are lowered to the same, which has the shape of its kind. -/
abbrev Pairing.Lowers (e : PhaseLang.Expr) : Prop :=
  R.Rel (expr (c.under names) e) (expr (c.under names') (D.expr e)) fun q => Shape e.kind q ∧ G.expr q

section
variable {lhs rhs callee : PhaseLang.Expr}

/-- A sum is joined if its left operand is found to be a string, and any other operator is kept. -/
theorem Closing.binary {op : PhaseLang.BinaryOp} (k : K (.binary lhs op rhs)) (hv : Q ⟨D.expr lhs, p, s⟩)
    (left : R.Lowers D names names' Shape G c lhs) (right : R.Lowers D names names' Shape G c rhs) :
    R.Rel (exprKind (c.under names) (.binary lhs op rhs)) (exprKind (c.under names') (D.exprKind (.binary lhs op rhs)))
      fun q => Shape (.binary lhs op rhs) q ∧ G.expr q := by
  have sides (joins : Bool) (hj : joins = true → op = .add) (sum : joins = false → op = .add → Sum lhs) :=
    left.map₂ right (k := fun left right => Expr.binary left (if joins then .concat else binaryOp op) right)
      (T := fun q => Shape (.binary lhs op rhs) q ∧ G.expr q) fun q r hq hr => by
    cases joins with
    | true =>
      obtain rfl := hj rfl
      exact F.made k (.join hq.1 hr.1) ⟨hq.2, hr.2⟩
    | false => exact F.made k (.binary op hq.1 hr.1 (sum rfl)) ⟨hq.2, hr.2⟩
  refine .dite (fun hop => ?_) fun hop => ?_
  · subst hop
    exact R.bind (F.sum hv k) fun joins no => sides joins (fun _ => rfl) fun hj _ => no hj
  · refine R.bind (R.pure (P := (· = false)) rfl) fun joins no => sides joins ?_ fun _ hadd => absurd hadd hop
    simp [no]

/-- The form of a call is read off its callee, which is lowered only if it is called or made. -/
theorem Closing.call {args : List PhaseLang.Arg} (k : K (.call callee args)) (hv : Q ⟨D.expr callee, p, s⟩)
    (w : Fits (CleanIf worded) (Worded.ofExpr callee)) (called : R.Lowers D names names' Shape G c callee)
    (given : R.Rel (arguments (c.under names) args) (arguments (c.under names') (args.map D.arg))
      fun as => ∀ a ∈ as, G.Arg a) :
    R.Rel (exprKind (c.under names) (.call callee args)) (exprKind (c.under names') (D.exprKind (.call callee args)))
      fun q => Shape (.call callee args) q ∧ G.expr q := by
  simp only [Redraw.exprKind, exprKind, F.callForm (c := c) hv]
  split
  · rename_i method form
    exact given.map fun as has => F.made k (.inherited _ _ _ as)
      ⟨F.added (.parent _) (F.text fun on => balanced_inherited (clean_of w on) form), has⟩
  · rename_i name form
    exact given.map fun as has => F.made k (.function _ as (kind_of_function form))
      ⟨F.added (.name _) (F.text fun on => balanced_function (clean_of w on) form), has⟩
  · exact called.map₂ given fun q as hq has => F.made k (.create _ as hq.1) ⟨hq.2, has⟩
  · exact called.map₂ given fun q as hq has => F.made k (.call _ as hq.1) ⟨hq.2, has⟩

end

/-! ## Programs -/

omit F in
theorem attributes_sides {es : List PhaseLang.Expr} (h : R.Rel (exprs (c.under names) es)
    (exprs (c.under names') (es.map D.expr)) fun qs => ∀ x ∈ qs, G.expr x) :
    R.Rel (attributes (c.under names) es) (attributes (c.under names') (es.map D.expr))
      fun qs => ∀ x ∈ qs, G.expr x := by
  cases es with
  | nil => exact R.pure (by simp)
  | cons e es => exact .ite h (R.pure (by simp))

omit F in
mutual

theorem expr_sides (F : Closing R D names names' Q K Sum Shape G worded) {c : Scene} {p s} :
    ∀ e, Fits Q (Visits.ofExpr p s (D.expr e)) → Fits (CleanIf worded) (Worded.ofExpr e) →
    R.Rel (expr (c.under names) e) (expr (c.under names') (D.expr e)) fun q => Shape e.kind q ∧ G.expr q
  | ⟨id, pos, kind⟩, h, w => by
    have own := visited h
    rw [F.lawful.expr] at h
    exact F.node own w (kind_sides F kind h.left w (F.own own))

theorem kind_sides (F : Closing R D names names' Q K Sum Shape G worded) {c : Scene} {p s} :
    ∀ kind, Fits Q (Visits.ofKind p s (D.exprKind kind)) → Fits (CleanIf worded) (Worded.ofKind kind) → K kind →
    R.Rel (exprKind (c.under names) kind) (exprKind (c.under names') (D.exprKind kind))
      fun q => Shape kind q ∧ G.expr q
  | .attribute path args, h, w, k =>
    (arguments_sides F args h w.tail).map fun as has => F.made k (.attributed _ _ as) ⟨F.path w.head, has⟩
  | .assign name value, h, w, k =>
    (expr_sides F value h w.tail).map fun q hq => F.made k (.assign _ _ q) ⟨F.var w.head, hq.2⟩
  | .binary lhs op rhs, h, w, k =>
    F.binary k (visited h.left) (expr_sides F lhs h.left w.left) (expr_sides F rhs h.right w.right)
  | .unary op operand leading, h, w, k => by
    simp only [Redraw.exprKind, exprKind, mergesWith_redraw F.lawful]
    refine R.bind (expr_sides F operand h w) fun q hq => .dite (fun hl => R.pure ?_) fun hl => R.pure ?_
    · subst hl
      split
      · exact F.made k (.beforeGroup op _ q) (F.added (.group q) hq.2)
      · rename_i apart
        exact F.made k (.before hq.1 (eq_false_of_ne_true apart)) hq.2
    · obtain rfl : leading = false := by simpa using hl
      exact F.made k (.after op hq.1) hq.2
  | .isType operand type, h, w, k => by
    refine R.bind (expr_sides F operand h w.left) fun q hq => ?_
    cases test : typeTest? type with
    | some name =>
      exact R.pure (F.made k (.test _ _ _ _) ⟨F.named (balanced_typeTest test), asks_positional hq.2⟩)
    | none => exact R.pure (F.made k (.instanceOf _ _ hq.1) ⟨hq.2, F.path w.right.head⟩)
  | .logical lhs op rhs, h, w, k =>
    (expr_sides F lhs h.left w.left).map₂ (expr_sides F rhs h.right w.right) fun q r hq hr =>
      F.made k (.logical op hq.1 hr.1) ⟨hq.2, hr.2⟩
  | .range lower upper, h, w, k => by
    -- The range ends before its bound, so the bound is written less one.
    refine (expr_sides F lower h.left w.left).map₂ (expr_sides F upper h.right w.right) fun q r hq hr => ?_
    have bound := F.bound k hr.1 hr.2
    exact F.made k (.range _ _ _)
      ⟨F.named (by decide), List.forall_mem_cons.mpr ⟨⟨by simp [positional], hq.2⟩, asks_positional bound⟩⟩
  | .call callee args, h, w, k =>
    F.call k (visited h.left) w.left (expr_sides F callee h.left w.left) (arguments_sides F args h.right w.right)
  | .get target ⟨id, pos, kind⟩, h, w, k => by
    have field {s : Typing} := expr_sides F (c := c) (p := p) (s := s) ⟨id, pos, kind⟩
    rw [Redraw.exprKind, F.lawful.expr] at h ⊢
    rw [F.lawful.expr] at field
    -- A plain name is no code of its own: how it is written is looked up in the type of the target.
    cases kind with
    | ident name =>
      have object := expr_sides F (c := c) target h w.left
      have word := F.word w.right.head
      refine R.bind (F.isString (visited h)) fun isString _ => .ite ?_ ?_
      · refine object.map fun q hq => F.made k (.stringMember _ _ q name) ⟨?_, word⟩
        exact F.added (.callName _ _) ⟨F.named (by decide), asks_positional hq.2⟩
      · exact R.bind (F.accessTo (visited h)) fun access _ => object.map fun q hq => F.apply access k hq.1 hq.2 word
    | _ =>
      exact (expr_sides F target h.left w.left).map₂ (field h.right w.right) fun q r hq hr =>
        F.made k (.computed _ r hq.1) ⟨hq.2, hr.2⟩
  | .set target ⟨id, pos, kind⟩ value, h, w, k => by
    have field {s : Typing} := expr_sides F (c := c) (p := p) (s := s) ⟨id, pos, kind⟩
    rw [Redraw.exprKind, F.lawful.expr] at h ⊢
    rw [F.lawful.expr] at field
    cases kind with
    | ident name =>
      have word := F.word w.left.right.head
      -- What is set is written as it is read, so it has the parts of a read.
      refine R.bind (F.accessTo (visited h.left)) fun access _ => ?_
      refine (expr_sides F target h.left w.left.left).map₂ (expr_sides F value h.right w.right) fun q r hq hr => ?_
      exact F.made k (.set _ _ _ _ r) ⟨(F.apply access (F.read k) hq.1 hq.2 word).2, hr.2⟩
    | _ =>
      refine (expr_sides F target h.left.left w.left.left).map₃ (field h.left.right w.left.right)
        (expr_sides F value h.right w.right) ?_
      intro q r x hq hr hx
      exact F.made k (.set _ _ _ _ x) ⟨(F.made (F.read k) (.computed _ r hq.1) ⟨hq.2, hr.2⟩).2, hx.2⟩
  | .indexGet target index, h, w, k =>
    (expr_sides F target h.left w.left).map₂ (optional_sides F index h.right w.right) fun q r hq hr =>
      F.made k (.indexGet index r hq.1) ⟨hq.2, hr⟩
  | .indexSet target index value, h, w, k => by
    refine (expr_sides F target h.left.left w.left.left).map₃ (optional_sides F index h.left.right w.left.right)
      (expr_sides F value h.right w.right) fun q r x hq hr hx => ?_
    exact F.made k (.indexSet _ _ _ _ x) ⟨(F.made (F.readIndex k) (.indexGet index r hq.1) ⟨hq.2, hr⟩).2, hx.2⟩
  | .ternary cond yes no, h, w, k => by
    simp only [Redraw.exprKind, exprKind, ternaryOperand_redraw F.lawful]
    refine (expr_sides F cond h.left.left w.left.left).map₃ (expr_sides F yes h.left.right w.left.right)
      (expr_sides F no h.right w.right) fun q r x hq hr hx => ?_
    exact F.made k (.ternary hq.1 hr.1 hx.1)
      ⟨F.ternaryOperand cond hq.2, F.ternaryOperand yes hr.2, F.ternaryOperand no hx.2⟩
  | .super method, _, w, k =>
    R.pure (F.made k (.super method) (F.text fun on => balanced_methodName (balanced_of_isWord (w.head on))))
  | .path path, _, w, k => R.pure (F.made k (.path path) (F.path w.head))
  | .this, _, _, k => R.pure (F.made k .this trivial)
  | .static, _, _, k => R.pure (F.made k .static trivial)
  | .literal value, _, w, k => R.pure (F.made k (.literal value) (F.literal w.head))
  | .ident name, _, w, k => R.pure (F.made k (.var name) (F.word w.head))
  | .group inner, h, w, k => (expr_sides F inner h w).map fun q hq => F.made k (.group hq.1) hq.2
  | .list items native, h, w, k =>
    (exprs_sides F items h w).map fun qs hqs => F.wrapped k (by decide) (.list _ _ _ qs) (.list qs) hqs
  | .map es native, h, w, k =>
    (entries_sides F es h w).map fun qs hqs => F.wrapped k (by decide) (.map _ _ _ qs) (.map qs) hqs
  | .lambda f, h, w, k => closure_sides F f h w k
  | .choose target cs, h, w, k =>
    (expr_sides F target h.left w.left).map₂ (arms_sides F cs h.right w.right) fun q as hq has =>
      F.made k (.choose _ _ q as) ⟨hq.2, has⟩

theorem optional_sides (F : Closing R D names names' Q K Sum Shape G worded) {c : Scene} {p s} :
    ∀ e, Fits Q (Visits.ofOption p s (e.map D.expr)) → Fits (CleanIf worded) (Worded.ofOption e) →
    R.Rel (optional (c.under names) e) (optional (c.under names') (e.map D.expr)) fun q => ∀ x ∈ q, G.expr x
  | none, _, _ => R.pure (by simp)
  | some e, h, w => (expr_sides F e h w).map fun q hq => by simpa using hq.2

theorem exprs_sides (F : Closing R D names names' Q K Sum Shape G worded) {c : Scene} {p s} :
    ∀ es, Fits Q (Visits.ofExprs p s (es.map D.expr)) → Fits (CleanIf worded) (Worded.ofExprs es) →
    R.Rel (exprs (c.under names) es) (exprs (c.under names') (es.map D.expr)) fun qs => ∀ x ∈ qs, G.expr x
  | [], _, _ => R.pure (by simp)
  | e :: es, h, w => (expr_sides F e h.left w.left).map₂ (exprs_sides F es h.right w.right) fun _ _ hq hqs =>
    List.forall_mem_cons.mpr ⟨hq.2, hqs⟩

theorem arguments_sides (F : Closing R D names names' Q K Sum Shape G worded) {c : Scene} {p s} :
    ∀ as, Fits Q (Visits.ofArgs p s (as.map D.arg)) → Fits (CleanIf worded) (Worded.ofArgs as) →
    R.Rel (arguments (c.under names) as) (arguments (c.under names') (as.map D.arg)) fun qs => ∀ x ∈ qs, G.Arg x
  | [], _, _ => R.pure (by simp)
  | ⟨_, e⟩ :: as, h, w => (expr_sides F e h.left w.left.right).map₂ (arguments_sides F as h.right w.right)
    fun _ _ hq hqs =>
    List.forall_mem_cons.mpr ⟨⟨fun n hn => F.word (Worded.fits_ofName.mp w.left.left n hn), hq.2⟩, hqs⟩

theorem entries_sides (F : Closing R D names names' Q K Sum Shape G worded) {c : Scene} {p s} :
    ∀ es, Fits Q (Visits.ofEntries p s (es.map D.entry)) → Fits (CleanIf worded) (Worded.ofEntries es) →
    R.Rel (entries (c.under names) es) (entries (c.under names') (es.map D.entry)) fun qs => ∀ x ∈ qs, G.Entry x
  | [], _, _ => R.pure (by simp)
  | ⟨key, value⟩ :: es, h, w =>
    (expr_sides F key h.left.left w.left.left).map₃ (expr_sides F value h.left.right w.left.right)
      (entries_sides F es h.right w.right) fun _ _ _ hq hr hqs => List.forall_mem_cons.mpr ⟨⟨hq.2, hr.2⟩, hqs⟩

theorem closure_sides (F : Closing R D names names' Q K Sum Shape G worded) {c : Scene} {opener : Opener} {p s} :
    ∀ f, Fits Q (Visits.ofFunc opener p s (D.func f)) → Fits (CleanIf worded) (Worded.ofFunc f) → K (.lambda f) →
    R.Rel (Lower.closure (c.under names) f) (Lower.closure (c.under names') (D.func f)) fun q => Shape (.lambda f) q ∧
      G.expr q
  | ⟨name, ps, body, result, as, pos⟩, h, w, k => by
    have captures : capturesOf names' _ = capturesOf names _ :=
      congrArg Mention.free (Captures.ofFunc_redraw F.toKindred _ h)
    rw [F.lawful.func] at h captures ⊢
    simp only [Lower.closure, captures]
    refine (params_sides F true ps h.left.right w.left.left.left).map₂ (body_sides F body h.right w.left.left.right) ?_
    intro qs ss hqs hss
    refine F.made k (.lambda _ qs _ _ ss) ⟨hqs, fun n hn => F.text fun on => ?_, F.result w.left.right, hss⟩
    exact balanced_of_isWord (Captures.ofFunc_worded (clean_of w on) n hn)

theorem arms_sides (F : Closing R D names names' Q K Sum Shape G worded) {c : Scene}
    {opener : List PhaseLang.Stmt → Opener} {p s} :
    ∀ cs, Fits Q (Visits.ofCases opener p s (cs.map D.case)) → Fits (CleanIf worded) (Worded.ofCases cs) →
    R.Rel (arms (c.under names) cs) (arms (c.under names') (cs.map D.case)) fun as => ∀ a ∈ as, G.Arm a
  | [], _, _ => R.pure (by simp)
  | ⟨condition, body⟩ :: cs, h, w => by
    have tests := optional_sides F (c := c) condition h.left.left w.left.left
    have others := arms_sides F (c := c) cs h.right w.right
    have called := R.bind tests fun test ht => R.bind (stmts_sides F (c := c) body h.left.right w.left.right)
      fun code hc => R.bind others (T := fun as => ∀ a ∈ as, G.Arm a)
        (f := fun as => pure (⟨test, .call (.group (.closure [] (capturesIn names body) none code)) []⟩ :: as))
        (g := fun as =>
          pure (⟨test, .call (.group (.closure [] (capturesIn names' (body.map D.stmt)) none code)) []⟩ :: as))
        fun as has => by
          rw [show capturesIn names' _ = capturesIn names body from
            congrArg Mention.free (Captures.ofStmts_redraw F.toKindred body h.left.right)]
          have words : ∀ n ∈ capturesIn names body, G.text n := fun n hn => F.text fun on =>
            balanced_of_isWord (Captures.ofStmts_worded (clean_of w.left.right on) n hn)
          have code := F.added (.closure [] (capturesIn names body) none code) ⟨by simp, words, by simp, hc⟩
          exact R.pure (List.forall_mem_cons.mpr
            ⟨⟨ht, F.added (.callGroup _ _) ⟨F.added (.group _) code, by simp⟩⟩, has⟩)
    have single {e : PhaseLang.Expr} {Z : Expr → Prop} (wrap : Expr → Expr) (hw : ∀ q, Z q → G.expr (wrap q))
        (he : R.Rel (expr (c.under names) e) (expr (c.under names') (D.expr e)) Z) :=
      tests.map₃ he others (k := fun test value as => (⟨test, wrap value⟩ : Arm) :: as)
        (T := fun as => ∀ a ∈ as, G.Arm a) fun test value as ht hv has =>
          List.forall_mem_cons.mpr ⟨⟨ht, hw value hv⟩, has⟩
    have code := h.left.right
    have text := w.left.right
    rw [List.map_cons, Redraw.case]
    cases body with
    | nil => exact called
    | cons x xs =>
      obtain ⟨_, kind⟩ := x
      simp only [List.map_cons, F.lawful.stmt] at called code ⊢
      cases kind with
      | expr e =>
        cases xs with
        | nil => exact single id (fun _ hq => hq.2) (expr_sides F e code.left text.left)
        | cons _ _ => exact called
      | raise e =>
        cases xs with
        | nil => exact single .raise (fun _ hq => F.added (.raise _) hq.2) (expr_sides F e code.left text.left)
        | cons _ _ => exact called
      | ret value =>
        cases value with
        | none => exact called
        | some e =>
          cases xs with
          | nil => exact single id (fun _ hq => hq.2) (expr_sides F e code.left text.left)
          | cons _ _ => exact called
      | _ => exact called

theorem params_sides (F : Closing R D names names' Q K Sum Shape G worded) {c : Scene} {p s} (inLambda : Bool) :
    ∀ ps, Fits Q (Visits.ofParams p s (ps.map D.param)) → Fits (CleanIf worded) (Worded.ofParams ps) →
    R.Rel (params (c.under names) inLambda ps) (params (c.under names') inLambda (ps.map D.param))
      fun qs => ∀ q ∈ qs, G.Param q
  | [], _, _ => R.pure (by simp)
  | ⟨name, type, default, promoted, pos⟩ :: ps, h, w => by
    refine (optional_sides F default h.left w.left.tail.right).map₂ (params_sides F inLambda ps h.right w.right) ?_
    intro given qs hg hqs
    refine List.forall_mem_cons.mpr ⟨⟨fun t ht => ?_, F.word w.left.head, fun e he => ?_⟩, hqs⟩
    · obtain ⟨path, found, rfl⟩ := Option.map_eq_some_iff.mp ht
      exact F.path (Worded.fits_ofPath.mp w.left.tail.left path found)
    · dsimp only at he
      split at he
      · rcases Option.or_eq_some_iff.mp he with he | ⟨_, he⟩
        · exact hg e he
        · exact Option.some.inj he ▸ F.null
      · exact hg e he

theorem stmt_sides (F : Closing R D names names' Q K Sum Shape G worded) {c : Scene} {p s} :
    ∀ x, Fits Q (Visits.ofStmt p s (D.stmt x)) → Fits (CleanIf worded) (Worded.ofStmt x) →
    R.Rel (stmt (c.under names) x) (stmt (c.under names') (D.stmt x)) G.stmt
  | ⟨_, kind⟩, h, w => by
    rw [F.lawful.stmt] at h ⊢
    exact stmtKind_sides F kind h w

theorem stmtKind_sides (F : Closing R D names names' Q K Sum Shape G worded) {c : Scene} {p s} :
    ∀ kind, Fits Q (Visits.ofStmtKind p s (D.stmtKind kind)) → Fits (CleanIf worded) (Worded.ofStmtKind kind) →
    R.Rel (stmtKind (c.under names) kind) (stmtKind (c.under names') (D.stmtKind kind)) G.stmt
  | .expr e, h, w => (expr_sides F e h w).map fun _ hq => F.stmt hq.2
  | .use path kind _, _, w => R.pure (F.stmt fun line hl => F.text fun on =>
    balanced_imports (w.head on) (clean_of w.tail on) line hl)
  | .inNamespace path decls, h, w =>
    (stmts_sides F (c := { c with ns := path.segments }) decls h w.tail).map fun _ hss =>
      F.stmt ⟨F.text fun on => balanced_pathName (w.head on), hss⟩
  | .var name _ init, h, w => (optional_sides F init h w.tail.right).map fun value hv => by
    refine F.stmt (F.added (.assign _ _) ⟨F.var w.head, ?_⟩)
    cases value with
    | none => exact F.null
    | some value => exact hv value rfl
  | .global _, _, w => R.pure (F.stmt (F.word w.head))
  | .raise e, h, w => (expr_sides F e h w).map fun q hq => F.stmt (F.added (.raise q) hq.2)
  | .attempt body handlers, h, w =>
    (stmt_sides F body h.left w.left).map₂ (stmts_sides F handlers h.right w.right) fun _ _ hq hqs => F.stmt ⟨hq, hqs⟩
  | .handler name type body, h, w => (stmt_sides F body h w.tail.right).map fun q hq => by
    refine F.stmt ⟨?_, F.word w.head, hq⟩
    cases type with
    | none => exact F.plain (by decide)
    | some path => exact F.path w.tail.left.head
  | .loop cond body false, h, w =>
    (expr_sides F cond h.left w.left).map₂ (stmt_sides F body h.right w.right) fun _ _ hq hr => F.stmt ⟨hq.2, hr⟩
  | .loop cond body true, h, w =>
    (stmt_sides F body h.right w.right).map₂ (expr_sides F cond h.left w.left) fun _ _ hr hq => F.stmt ⟨hq.2, hr⟩
  | .forIn key value ⟨id, pos, kind⟩ body, h, w => by
    have word := F.word w.head
    have code := stmt_sides F (c := c) body h.right w.tail.right
    have each := (expr_sides F (c := c) ⟨id, pos, kind⟩ h.left w.tail.left.right).map₂ code
      (k := fun items code => Stmt.forEach items key value code) (T := G.stmt) fun _ _ hq hr =>
        F.stmt ⟨hq.2, word, fun n hn => F.word (Worded.fits_ofName.mp w.tail.left.left n hn), hr⟩
    have own := F.own (visited h.left)
    rw [Redraw.stmtKind, F.lawful.expr] at h ⊢
    rw [F.lawful.expr] at each
    cases value with
    | some value => exact each
    | none =>
      cases kind with
      | range lower upper =>
        have bounds := h.left.left
        have text := w.tail.left.right
        refine (expr_sides F lower bounds.left text.left).map₃ (expr_sides F upper bounds.right text.right) code ?_
        exact fun q r x hq hr hx => F.stmt ⟨word, hq.2, hr.2, F.loop own hr.1 hr.2 word, hx⟩
      | _ => exact each
  | .branch cond yes no, h, w =>
    (expr_sides F cond h.left.left w.left.left).map₃ (stmt_sides F yes h.left.right w.left.right)
      (alternative_sides F no h.right w.right) fun _ _ _ hq hy hn => F.stmt ⟨hq.2, hy, hn⟩
  | .switch target cs, h, w =>
    (expr_sides F target h.left w.left).map₂ (cases_sides F cs h.right w.right) fun _ _ hq hqs => F.stmt ⟨hq.2, hqs⟩
  | .block body, h, w => (stmts_sides F body h w).map fun _ hss => F.stmt hss
  | .ret value, h, w => (optional_sides F value h w).map fun _ hq => F.stmt hq
  | .func ⟨_, ps, body, _, as, _⟩, h, w => by
    rw [Redraw.stmtKind, F.lawful.func] at h ⊢
    refine (attributes_sides <| exprs_sides F as h.left.left w.tail.right).map₃
      (params_sides F false ps h.left.right w.tail.left.left.left)
      (body_sides F body h.right w.tail.left.left.right) fun _ _ _ ha hqs hss => F.stmt ⟨ha, ?_⟩
    exact ⟨F.text fun on => balanced_of_isWord (w.head on).1, hqs, F.result w.tail.left.right, hss⟩
  | .cls c, h, w => (class_sides F c h w.head w.tail).map fun _ hq => F.stmt hq

theorem stmts_sides (F : Closing R D names names' Q K Sum Shape G worded) {c : Scene} {p s} :
    ∀ xs, Fits Q (Visits.ofStmts p s (xs.map D.stmt)) → Fits (CleanIf worded) (Worded.ofStmts xs) →
    R.Rel (stmts (c.under names) xs) (stmts (c.under names') (xs.map D.stmt)) fun qs => ∀ x ∈ qs, G.stmt x
  | [], _, _ => R.pure (by simp)
  | x :: xs, h, w => (stmt_sides F x h.left w.left).map₂ (stmts_sides F xs h.right w.right) fun _ _ hq hqs =>
    List.forall_mem_cons.mpr ⟨hq, hqs⟩

theorem alternative_sides (F : Closing R D names names' Q K Sum Shape G worded) {c : Scene} {p s} :
    ∀ x, Fits Q (Visits.ofAlternative p s (x.map D.stmt)) → Fits (CleanIf worded) (Worded.ofBody x) →
    R.Rel (alternative (c.under names) x) (alternative (c.under names') (x.map D.stmt)) fun q => ∀ x ∈ q, G.stmt x
  | none, _, _ => R.pure (by simp)
  | some x, h, w => (stmt_sides F x h w).map fun _ hq => by simpa using hq

theorem cases_sides (F : Closing R D names names' Q K Sum Shape G worded) {c : Scene}
    {opener : List PhaseLang.Stmt → Opener} {p s} :
    ∀ cs, Fits Q (Visits.ofCases opener p s (cs.map D.case)) → Fits (CleanIf worded) (Worded.ofCases cs) →
    R.Rel (cases (c.under names) cs) (cases (c.under names') (cs.map D.case)) fun qs => ∀ x ∈ qs, G.Case x
  | [], _, _ => R.pure (by simp)
  | ⟨condition, body⟩ :: cs, h, w =>
    (optional_sides F condition h.left.left w.left.left).map₃ (stmts_sides F body h.left.right w.left.right)
      (cases_sides F cs h.right w.right) fun _ _ _ hq hss hqs => List.forall_mem_cons.mpr ⟨⟨hq, hss⟩, hqs⟩

theorem body_sides (F : Closing R D names names' Q K Sum Shape G worded) {c : Scene} {p s} :
    ∀ x, Fits Q (Visits.ofBody p s (x.map D.stmt)) → Fits (CleanIf worded) (Worded.ofBody x) →
    R.Rel (bodyStmts (c.under names) x) (bodyStmts (c.under names') (x.map D.stmt)) fun qs => ∀ x ∈ qs, G.stmt x
  | none, _, _ => R.pure (by simp)
  | some ⟨_, kind⟩, h, w => by
    rw [Option.map_some, F.lawful.stmt] at h ⊢
    have single := (stmtKind_sides F (c := c) kind h w).map (k := fun code => [code])
      (T := fun qs => ∀ x ∈ qs, G.stmt x) fun _ hq => List.forall_mem_singleton.mpr hq
    cases kind with
    | block body => exact stmts_sides F body h w
    | _ => exact single

theorem class_sides (F : Closing R D names names' Q K Sum Shape G worded) {c : Scene} {p s} :
    ∀ x : PhaseLang.Class, Fits Q (Visits.ofClass p s (D.cls x)) → CleanIf worded (.name x.name) →
    Fits (CleanIf worded) (Worded.ofClass x) → R.Rel (cls (c.under names) x) (cls (c.under names') (D.cls x)) G.Class
  | ⟨name, kind, parent, interfaces, ms, as, pos⟩, h, word, w => by
    obtain ⟨built, keyword, waits, routed⟩ := classParts_redraw F.lawful ⟨name, kind, parent, interfaces, ms, as, pos⟩
    rw [F.lawful.cls] at built keyword waits routed h ⊢
    have inits : R.Rel (if kind = .interface then pure [] else deferred (c.under names) none ms)
        (if kind = .interface then pure [] else deferred (c.under names') none (ms.map D.member))
        fun ss => ∀ s ∈ ss, G.stmt s :=
      .ite (R.pure (by simp)) (deferred_sides F none (by simp) ms h.right w.left.right)
    simp only [cls, built, keyword, waits, routed]
    refine R.bind (attributes_sides <| exprs_sides F as h.left w.right) fun written hw => ?_
    refine .ite (R.bind (constructor_sides F _ inits ms h.right w.left.right) ?rest)
      (.ite (R.bind inits fun stores hs =>
      R.bind (R.pure (List.forall_mem_singleton.mpr (F.defaultConstructor _ hs))) ?rest)
      (R.bind (R.pure (by simp)) ?rest))
    intro first hf
    refine R.bind (members_sides F _ false ms h.right w.left.right) fun others ho => ?_
    have written {after : List Stmt} {b : Bool} (ha : ∀ s ∈ after, G.stmt s) :
        G.Class ⟨written, classKeyword ⟨name, kind, parent, interfaces, ms, as, pos⟩, name, parent.map typeName,
          interfaces.map typeName, decide (kind = .interface), first ++ others ++ if b then dispatchers else [],
          after⟩ := {
      attributes := hw
      keyword := F.plain (balanced_classKeyword _)
      name := F.word word
      parent := fun t ht => by
        obtain ⟨path, found, rfl⟩ := Option.map_eq_some_iff.mp ht
        exact F.path (Worded.fits_ofPath.mp w.left.left.left path found)
      interfaces := fun t ht => by
        obtain ⟨path, found, rfl⟩ := List.mem_map.mp ht
        exact F.path (Worded.fits_ofPaths.mp w.left.left.right path found)
      members := by
        simp only [List.mem_append, or_imp, forall_and]
        refine ⟨⟨hf, ho⟩, ?_⟩
        cases b
        · simp
        · exact F.dispatchers
      afterwards := ha }
    exact .ite ((R.pure (by simp)).map fun _ ha => written ha)
      ((deferred_sides F (some name) (by simpa using word) ms h.right w.left.right).map fun _ ha => written ha)

theorem deferred_sides (F : Closing R D names names' Q K Sum Shape G worded) {c : Scene} {p s} (ofClass : Option String)
    (word : ∀ n ∈ ofClass, CleanIf worded (.name n)) : ∀ ms, Fits Q (Visits.ofMembers p s (ms.map D.member)) →
    Fits (CleanIf worded) (Worded.ofMembers ms) →
    R.Rel (deferred (c.under names) ofClass ms) (deferred (c.under names') ofClass (ms.map D.member))
      fun ss => ∀ s ∈ ss, G.stmt s
  | [], _, _ => R.pure (by simp)
  | ⟨name, kind, mods, as, pos⟩ :: ms, h, w => by
    have waits := F.lawful.isDeferred ⟨name, kind, mods, as, pos⟩
    rw [List.map_cons, F.lawful.member] at h ⊢
    have others := deferred_sides F (c := c) ofClass word ms h.right w.right
    rw [F.lawful.member] at waits
    match kind, h.left.right, w.left.left, waits with
    | .field type (some init), h, w, waits =>
      simp only [Redraw.memberKind, Option.map_some] at waits
      simp only [Redraw.memberKind, Option.map_some, deferred, waits]
      refine .ite ((expr_sides F init h w.right.right).map₂ others fun q ss hq hss => ?_) others
      refine List.forall_mem_cons.mpr ⟨?_, hss⟩
      have field := F.word w.left.head
      cases ofClass with
      | none => exact F.storeField field hq.2
      | some n =>
        refine F.stmt (F.added (.assign _ _) ⟨F.added (.classVar _ _) ⟨?_, field⟩, hq.2⟩)
        exact F.added (.name _) (F.word (word n rfl))
    | .field _ none, _, _, _ | .use _, _, _, _ | .property _ _ _, _, _, _ | .method _, _, _, _ => exact others

theorem constructor_sides (F : Closing R D names names' Q K Sum Shape G worded) {c : Scene} {p s} (isInterface : Bool)
    {inits : L (List Stmt)} {inits' : Lower (List Stmt)} (hi : R.Rel inits inits' fun ss => ∀ s ∈ ss, G.stmt s) :
    ∀ ms, Fits Q (Visits.ofMembers p s (ms.map D.member)) → Fits (CleanIf worded) (Worded.ofMembers ms) →
    R.Rel (constructor (c.under names) isInterface inits ms)
      (constructor (c.under names') isInterface inits' (ms.map D.member)) fun ms => ∀ m ∈ ms, G.Member m
  | [], _, _ => R.pure (by simp)
  | ⟨name, kind, mods, as, pos⟩ :: ms, h, w => by
    rw [List.map_cons, F.lawful.member] at h
    simp only [List.map_cons, constructor, F.lawful.name]
    refine .ite ?_ (constructor_sides F isInterface hi ms h.right w.right)
    exact (member_sides F isInterface hi _ h.left w.left).map fun _ hm => List.forall_mem_singleton.mpr hm

theorem members_sides (F : Closing R D names names' Q K Sum Shape G worded) {c : Scene} {p s}
    (isInterface seen : Bool) :
    ∀ ms, Fits Q (Visits.ofMembers p s (ms.map D.member)) → Fits (CleanIf worded) (Worded.ofMembers ms) →
    R.Rel (members (c.under names) isInterface seen ms) (members (c.under names') isInterface seen (ms.map D.member))
      fun ms => ∀ m ∈ ms, G.Member m
  | [], _, _ => R.pure (by simp)
  | ⟨name, kind, mods, as, pos⟩ :: ms, h, w => by
    rw [List.map_cons, F.lawful.member] at h
    simp only [List.map_cons, members, F.lawful.name, isState_redraw F.lawful]
    refine .ite (members_sides F isInterface true ms h.right w.right) ?_
    refine .ite (members_sides F isInterface seen ms h.right w.right) ?_
    exact (member_sides F isInterface (R.pure (by simp)) _ h.left w.left).map₂
      (members_sides F isInterface seen ms h.right w.right) fun _ _ hm hms => List.forall_mem_cons.mpr ⟨hm, hms⟩

theorem member_sides (F : Closing R D names names' Q K Sum Shape G worded) {c : Scene} {p s} (isInterface : Bool)
    {inits : L (List Stmt)}
    {inits' : Lower (List Stmt)} (hi : R.Rel inits inits' fun ss => ∀ s ∈ ss, G.stmt s) : ∀ m : PhaseLang.Member,
    Fits Q (Visits.ofExprs p s (m.attributes.map D.expr) ++
      Visits.ofMemberKind p (Typer.after (Typer.exprs (m.attributes.map D.expr)) s) (D.memberKind m.kind)) →
    Fits (CleanIf worded) (Worded.ofMember m) →
    R.Rel (member (c.under names) isInterface inits m) (member (c.under names') isInterface inits' (D.member m))
      G.Member
  | ⟨name, kind, mods, as, pos⟩, h, w => by
    have made :=
      memberKind_sides F (c := c) ⟨name, kind, mods, as, pos⟩ (modifiers isInterface ⟨name, kind, mods, as, pos⟩)
      isInterface (fun word hw => F.plain (balanced_modifiers isInterface _ word hw)) hi kind w.left.left h.right
        w.left.right
    rw [F.lawful.member] at made ⊢
    exact (attributes_sides <| exprs_sides F as h.left w.right).map₂ made fun _ _ ha hk => ⟨ha, hk⟩

theorem memberKind_sides (F : Closing R D names names' Q K Sum Shape G worded) {c : Scene} {p s} (m : PhaseLang.Member)
    (words : List String)
    (isInterface : Bool) (plain : ∀ word ∈ words, G.text word) {inits : L (List Stmt)} {inits' : Lower (List Stmt)}
    (hi : R.Rel inits inits' fun ss => ∀ s ∈ ss, G.stmt s) : ∀ kind,
    Fits (CleanIf worded) (Worded.ofMemberName m.name kind) → Fits Q (Visits.ofMemberKind p s (D.memberKind kind)) →
    Fits (CleanIf worded) (Worded.ofMemberKind kind) → R.Rel (memberKind (c.under names) m words isInterface inits kind)
      (memberKind (c.under names') (D.member m) words isInterface inits' (D.memberKind kind)) G.MemberKind
  | .use path, _, _, w => R.pure (F.path w.head)
  | .field type init, word, h, w => by
    have bare : (init.map D.expr).isNone = init.isNone := by cases init <;> rfl
    have name := word.head
    have head : ∀ text ∈ (if m.has .isConst then words ++ [m.name]
        else words ++ (typeNames (c.under names) type).toList ++ ["$" ++ m.name]), G.text text := by
      split
      · simpa [or_imp, forall_and] using ⟨plain, F.word name⟩
      · have dollar : G.text ("$" ++ m.name) := F.text fun on => .append (by decide) (balanced_of_isWord (name on))
        simpa [or_imp, forall_and] using ⟨plain, F.result w.left, dollar⟩
    have started {value : Option Expr} (hv : ∀ e ∈ value, G.expr e) (b : Bool) :
        ∀ e ∈ (if b then some (.literal .null) else value), G.expr e := by
      cases b with
      | true => exact fun e he => Option.some.inj he ▸ F.null
      | false => exact hv
    simp only [Redraw.memberKind, memberKind, F.lawful.name, F.lawful.has, F.lawful.isDeferred, bare]
    exact .ite ((R.pure (by simp)).map fun _ hv => ⟨head, started hv _⟩)
      ((optional_sides F init h w.right).map fun _ hv => ⟨head, started hv _⟩)
  | .property type getter setter, word, h, w => by
    have name := word.head
    simp only [Redraw.memberKind, memberKind, F.lawful.name]
    have called {text : String} (ht : Balanced text) : G.text (text ++ m.name) :=
      F.text fun on => ht.append (balanced_of_isWord (name on))
    refine (accessor_sides F words _ _ false plain (called (by decide))
      (F.result w.left.left) getter h.left w.left.right).map₂
      (accessor_sides F words _ _ true plain (called (by decide)) (by simp) setter h.right w.right) fun _ _ hr hw => ?_
    simp only [Asks.MemberKind, List.mem_append, or_imp, forall_and]
    exact ⟨hr, hw⟩
  | .method f, word, h, w => method_sides F m words isInterface plain word.head hi f h w

theorem accessor_sides (F : Closing R D names names' Q K Sum Shape G worded) {c : Scene} {p s} (words : List String)
    (name : String) (result : Option String) (takes : Bool) (plain : ∀ word ∈ words, G.text word) (hn : G.text name)
    (hr : ∀ type ∈ result, G.text type) : ∀ f, Fits Q (Visits.ofAccessor p s (f.map D.func)) →
    Fits (CleanIf worded) (Worded.ofAccessor f) → R.Rel (accessor (c.under names) words name result takes f)
      (accessor (c.under names') words name result takes (f.map D.func)) fun ms => ∀ m ∈ ms, G.Method m
  | none, _, _ => R.pure (by simp)
  | some ⟨_, ps, body, _, _, _⟩, h, w => by
    rw [Option.map_some, F.lawful.func] at h ⊢
    refine .ite (R.bind (params_sides F false ps h.left.right w.left.left.left) ?code) (R.bind (R.pure (by simp)) ?code)
    exact fun qs hqs => (body_sides F body h.right w.left.left.right).map fun ss hss =>
      List.forall_mem_singleton.mpr ⟨plain, hn, hqs, hr, by simpa using hss⟩

theorem method_sides (F : Closing R D names names' Q K Sum Shape G worded) {c : Scene} {p s} (m : PhaseLang.Member)
    (words : List String)
    (isInterface : Bool) (plain : ∀ word ∈ words, G.text word) (word : CleanIf worded (.name m.name))
    {inits : L (List Stmt)} {inits' : Lower (List Stmt)} (hi : R.Rel inits inits' fun ss => ∀ s ∈ ss, G.stmt s) :
    ∀ f, Fits Q (Visits.ofFunc .declaration p s (D.func f)) → Fits (CleanIf worded) (Worded.ofFunc f) →
    R.Rel (method (c.under names) m words isInterface inits f)
      (method (c.under names') (D.member m) words isInterface inits' (D.func f)) G.MemberKind
  | ⟨name, ps, body, result, as, pos⟩, h, w => by
    have bare : (body.map D.stmt).isNone = body.isNone := by cases body <;> rfl
    have promotions := missingPromotions_redraw F.lawful ⟨name, ps, body, result, as, pos⟩
    have called : G.text (methodName m.name) := F.text fun on => balanced_methodName (balanced_of_isWord (word on))
    have type (b : Prop) [Decidable b] : ∀ t ∈ (if b then none else typeNames (c.under names) result), G.text t := by
      split
      · simp
      · exact F.result w.left.right
    rw [F.lawful.func] at promotions h ⊢
    simp only [method, F.lawful.name, F.lawful.has, bare, promotions]
    refine R.bind (params_sides F false ps h.left.right w.left.left.left) fun qs hqs => .ite (R.pure ?_) ?_
    · exact List.forall_mem_singleton.mpr ⟨plain, called, hqs, type _, by simp⟩
    · refine hi.map₂ (body_sides F body h.right w.left.left.right) fun stores ss hs hss => ?_
      refine List.forall_mem_singleton.mpr ⟨plain, called, hqs, type _, fun code found => ?_⟩
      obtain rfl := Option.some.inj found
      simp only [List.mem_append, or_imp, forall_and]
      refine ⟨⟨hs, ?_⟩, hss⟩
      split
      · exact F.missingPromotions w.left.left.left
      · simp

end

omit F in
theorem stmts_self (F : Closing R .refl names names' Q K Sum Shape G worded) (xs : List PhaseLang.Stmt)
    (h : Fits Q (Visits.ofStmts p s xs)) (w : Fits (CleanIf worded) (Worded.ofStmts xs)) :
    R.Rel (stmts (c.under names) xs) (stmts (c.under names') xs) fun qs => ∀ x ∈ qs, G.stmt x := by
  have sides := stmts_sides F (c := c) (p := p) (s := s) xs (by simpa using h) w
  simpa using sides

end

end PhaseLang.Php
