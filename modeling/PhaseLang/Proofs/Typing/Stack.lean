import PhaseLang.Typing.Scopes

/-!
# Scopes as a stack

From the current frame outwards the tree of frames is a row of bindings, innermost first. On
that row `enter`, `declare`, `leave` and `resolve` are those of a stack.
-/

namespace PhaseLang.Scopes

inductive Chain (frames : Array Frame) : Nat → List (Bindings Ty) → Prop
  | root {i : Nat} {f : Frame} (found : frames[i]? = some f) (outermost : f.parent = none) :
    Chain frames i [f.bindings]
  | inner {i j : Nat} {f : Frame} {bs : List (Bindings Ty)} (found : frames[i]? = some f)
    (parent : f.parent = some j) (lt : j < i) (rest : Chain frames j bs) :
    Chain frames i (f.bindings :: bs)

/-- The scopes hold the bindings `bs`, those of the current frame first. -/
def Stack (s : Scopes) (bs : List (Bindings Ty)) : Prop := Chain s.frames s.current bs

def Frame.Like (f g : Frame) : Prop := g.parent = f.parent ∧ g.bindings = f.bindings

variable {frames frames' : Array Frame} {s : Scopes} {bs : List (Bindings Ty)} {i : Nat}

theorem Chain.of_like (h : Chain frames i bs)
    (like : ∀ j ≤ i, ∀ f, frames[j]? = some f → ∃ g, frames'[j]? = some g ∧ Frame.Like f g) :
    Chain frames' i bs := by
  induction h with
  | root found outermost =>
    obtain ⟨g, hg, hp, hb⟩ := like _ (Nat.le_refl _) _ found
    exact hb ▸ .root hg (hp ▸ outermost)
  | inner found parent lt _ ih =>
    obtain ⟨g, hg, hp, hb⟩ := like _ (Nat.le_refl _) _ found
    exact hb ▸ .inner hg (hp ▸ parent) lt (ih fun j hj => like j (by omega))

theorem Chain.lt_size (h : Chain frames i bs) : i < frames.size := by
  cases h with
  | root found _ => exact (Array.getElem?_eq_some_iff.mp found).1
  | inner found _ _ _ => exact (Array.getElem?_eq_some_iff.mp found).1

/-! ## Opening and closing frames -/

theorem Stack.enter (h : s.Stack bs) : s.enter.Stack ([] :: bs) := by
  have lt := h.lt_size
  have opened : s.enter.frames[s.enter.current]? = some { parent := some s.current } := by
    simp only [Scopes.enter, size, Array.getElem?_push, Array.size_modify, if_true]
  refine .inner opened rfl lt ?_
  refine Chain.of_like h fun j hj f hf => ?_
  have hjs : j ≠ s.frames.size := by omega
  by_cases hc : s.current = j
  · subst hc
    refine ⟨{ f with children := f.children ++ [s.size] }, ?_, rfl, rfl⟩
    simp [Scopes.enter, Array.getElem?_push, Array.getElem?_modify, hf, hjs]
  · refine ⟨f, ?_, rfl, rfl⟩
    simp [Scopes.enter, Array.getElem?_push, Array.getElem?_modify, hf, hjs, hc]

theorem Stack.leave {top next : Bindings Ty} (h : s.Stack (top :: next :: bs)) : s.leave.Stack (next :: bs) := by
  cases h with
  | inner found parent _ rest => simpa [Stack, Scopes.leave, found, parent] using rest

/-! ## Names -/

theorem Stack.declare {top : Bindings Ty} (h : s.Stack (top :: bs)) (name : String) (type : Ty) :
    (s.declare name type).Stack (top.insert name type :: bs) := by
  have set (f : Frame) (found : s.frames[s.current]? = some f) :
      (s.declare name type).frames[s.current]? =
        some { f with bindings := f.bindings.insert name type } := by
    simp [Scopes.declare, Array.getElem?_modify, found]
  cases h with
  | root found outermost => exact .root (set _ found) outermost
  | inner found parent lt rest =>
    refine .inner (set _ found) parent lt (Chain.of_like rest fun j hj f hf => ⟨f, ?_, rfl, rfl⟩)
    have hc : s.current ≠ j := by omega
    simp [Scopes.declare, Array.getElem?_modify, hf, hc]

def lookUp (name : String) (bs : List (Bindings Ty)) : Option Ty := bs.findSome? (·.get? name)

theorem Chain.resolveFrom (h : Chain s.frames i bs) (name : String) :
    ∀ limit, i < limit → s.resolveFrom name limit i = lookUp name bs := by
  induction h with
  | @root i f found outermost =>
    rintro (_ | limit) hl
    · omega
    · cases hg : f.bindings.get? name <;> simp [Scopes.resolveFrom, found, outermost, lookUp, hg]
  | @inner i j f bs found parent lt _ ih =>
    rintro (_ | limit) hl
    · omega
    · have rest := ih limit (by omega)
      cases hg : f.bindings.get? name <;> simp [Scopes.resolveFrom, found, parent, lookUp, hg]
      exact rest

theorem Stack.resolve (h : s.Stack bs) (name : String) : s.resolve name = lookUp name bs :=
  Chain.resolveFrom h name s.size (Chain.lt_size h)

/-! ## All bindings -/

def All (P : Ty → Prop) (s : Scopes) : Prop :=
  ∀ (i : Nat) (f : Frame), s.frames[i]? = some f → ∀ name t, f.bindings.get? name = some t → P t

section
variable {P : Ty → Prop}

theorem all_empty : All P {} := by
  rintro (_ | i) f hf name t ht
  · obtain rfl : ({ parent := none } : Frame) = f := by simpa using hf
    simp [Bindings.get?] at ht
  · simp at hf

theorem All.declare (h : s.All P) (name : String) {type : Ty} (ht : P type) : (s.declare name type).All P := by
  intro i f hf other t found
  simp only [Scopes.declare, Array.getElem?_modify] at hf
  split at hf
  · obtain ⟨g, hg, rfl⟩ := Option.map_eq_some_iff.mp hf
    rw [Bindings.get?_insert] at found
    split at found
    · exact Option.some.inj found ▸ ht
    · exact h i g hg other t found
  · exact h i f hf other t found

theorem All.enter (h : s.All P) : s.enter.All P := by
  intro i f hf name t found
  simp only [Scopes.enter, Array.getElem?_push, Array.size_modify, Array.getElem?_modify] at hf
  split at hf
  · obtain rfl := Option.some.inj hf
    simp [Bindings.get?] at found
  · split at hf
    · obtain ⟨g, hg, rfl⟩ := Option.map_eq_some_iff.mp hf
      exact h i g hg name t found
    · exact h i f hf name t found

theorem All.leave (h : s.All P) : s.leave.All P := by
  unfold Scopes.leave
  split
  · exact h
  · exact h

theorem All.resolve (h : s.All P) {name : String} {t : Ty} (found : s.resolve name = some t) : P t := by
  have from_ (limit : Nat) : ∀ i, s.resolveFrom name limit i = some t → P t := by
    induction limit with
    | zero =>
      intro i hi
      simp [Scopes.resolveFrom] at hi
    | succ limit ih =>
      intro i hi
      unfold Scopes.resolveFrom at hi
      split at hi
      · cases hi
      · rename_i f hf
        split at hi
        · rename_i u hu
          obtain rfl := Option.some.inj hi
          exact h i f hf name u hu
        · obtain ⟨j, _, hj⟩ := Option.bind_eq_some_iff.mp hi
          exact ih j hj
  exact from_ _ _ found

end

end PhaseLang.Scopes
