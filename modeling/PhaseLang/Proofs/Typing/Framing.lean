import PhaseLang.Proofs.Typing.Runs

/-!
# Typing and the frames around it

Typing opens frames and leaves them again. Behind an expression or a statement it stands in the frame
and in the namespace that it started in, and of the frames that there were only this one can have
changed: by the names that the statement declares.
-/

namespace PhaseLang

namespace Scopes

variable {s s' : Scopes}

/-- Every frame of an ordered tree stands in a row of frames that ends with the root. -/
theorem Ordered.chain (h : s.Ordered) (i : Nat) (valid : i < s.size) : ∃ top rest, Chain s.frames i (top :: rest) := by
  induction i using Nat.strongRecOn with
  | ind i ih =>
    obtain ⟨f, found⟩ := frame_of_lt valid
    by_cases root : i = 0
    · subst root
      have outermost := h.root
      simp only [parent?, found, Option.bind_some] at outermost
      exact ⟨_, _, .root found outermost⟩
    · obtain ⟨p, parent, lt⟩ := h.older i valid root
      obtain ⟨top, rest, chain⟩ := ih p lt (Nat.lt_trans lt valid)
      simp only [parent?, found, Option.bind_some] at parent
      exact ⟨_, _, .inner found parent lt chain⟩

theorem Binds.resolve (h : s.Binds [] s') (ordered : s.Ordered) (name : String) : s'.resolve name = s.resolve name := by
  obtain ⟨top, rest, stack⟩ := ordered.chain s.current ordered.current
  obtain ⟨new, bound, stack'⟩ := h.stack stack
  obtain rfl : new = [] := List.map_eq_nil_iff.mp bound
  rw [Stack.resolve stack', Stack.resolve stack]
  rfl

theorem Binds.unbound (h : s.Binds [] s') : s'.bindings? s.current = s.bindings? s.current := by
  obtain ⟨new, bound, own⟩ := h.own
  obtain rfl : new = [] := List.map_eq_nil_iff.mp bound
  rw [own]
  cases s.bindings? s.current <;> rfl

end Scopes

def StmtKind.isBinder : StmtKind → Bool
  | .use _ _ _ | .inNamespace _ _ | .var _ _ _ | .global _ | .func _ | .cls _ => true
  | _ => false

theorem Binders.ofStmt_eq_nil {x : Stmt} (h : x.kind.isBinder = false) : ofStmt x = [] := by
  obtain ⟨_, kind⟩ := x
  cases kind <;> first | rfl | cases h

/-- From `s` to `t` all frames were left that were opened, and of those that there were none has
changed but the current one. -/
structure Typing.Framed (s t : Typing) : Prop where
  current : t.scopes.current = s.scopes.current
  ns : t.ns = s.ns
  others : ∀ i, i < s.scopes.size → i ≠ s.scopes.current → t.scopes.bindings? i = s.scopes.bindings? i
  ordered : t.scopes.Ordered

/-- The current frame has not changed either, and all names mean what they meant. -/
structure Typing.Unbound (s t : Typing) : Prop extends Typing.Framed s t where
  own : t.scopes.bindings? s.scopes.current = s.scopes.bindings? s.scopes.current
  resolve : ∀ name, t.scopes.resolve name = s.scopes.resolve name

section
variable {s t : Typing} {names : List String} {vs : List Visit}

theorem Ran.framed (h : Ran names vs s t) (ordered : s.scopes.Ordered) : s.Framed t where
  current := (h.frames ordered.current).current
  ns := h.ns
  others := (h.frames ordered.current).others
  ordered := (h.frames ordered.current).ordered ordered

theorem Ran.unbound (h : Ran [] vs s t) (ordered : s.scopes.Ordered) : s.Unbound t where
  toFramed := h.framed ordered
  own := (h.frames ordered.current).unbound
  resolve := (h.frames ordered.current).resolve ordered

end

theorem Typing.start_ordered (program : List Stmt) (context : Context) : (start program context).scopes.Ordered := by
  have declared (ds : List Declaration) : ∀ s : Scopes, s.Ordered →
      (ds.foldl (fun s d => s.declare d.name d.type) s).Ordered := by
    induction ds with
    | nil => exact fun _ h => h
    | cons d ds ih => exact fun s h => ih _ (h.declare d.name d.type)
  exact declared _ _ .empty

/-- An expression or a statement is typed in a way that respects the frames. A statement binds the
names that it declares, in the current frame; an expression, or a statement that declares nothing,
binds no name at all. -/
theorem typing_respects_frames {s : Typing} (ordered : s.scopes.Ordered) :
    (∀ e, s.Unbound (Typer.after (Typer.expr e) s)) ∧
    (∀ x, s.Framed (Typer.after (Typer.stmt x) s) ∧
      ∃ new : Bindings Ty, new.map (·.1) = (Binders.ofStmt x).map (·.1) ∧
        (Typer.after (Typer.stmt x) s).scopes.bindings? s.scopes.current =
          (s.scopes.bindings? s.scopes.current).map (·.insertAll new)) ∧
    ∀ x, x.kind.isBinder = false → s.Unbound (Typer.after (Typer.stmt x) s) := by
  refine ⟨fun e => (Typer.expr_ran [] s e).unbound ordered, fun x => ?_, fun x plain => ?_⟩
  · have run := Typer.stmt_ran [] s x
    exact ⟨run.framed ordered, (run.frames ordered.current).own⟩
  · have run := Typer.stmt_ran [] s x
    rw [Binders.ofStmt_eq_nil plain] at run
    exact run.unbound ordered

/-- The frame of a block stays in the tree, with the variable in it, and is not seen any more. -/
theorem typing_respects_frames_block :
    let pos : Position := ⟨0, 0, ""⟩
    let block : Stmt := ⟨pos, .block [⟨pos, .var "x" none none⟩]⟩
    let s := Typing.start [] {}
    let t := Typer.after (Typer.stmt block) s
    t.scopes.bindings? 1 = some [("x", .any)] ∧ t.scopes.current = s.scopes.current ∧
      t.scopes.resolve "x" = s.scopes.resolve "x" := by
  intro pos block s t
  have unbound := (typing_respects_frames (Typing.start_ordered [] {})).2.2 block rfl
  exact ⟨rfl, unbound.current, unbound.resolve "x"⟩

end PhaseLang
