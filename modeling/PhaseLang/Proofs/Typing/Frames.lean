import Mathlib.Logic.Function.Basic
import PhaseLang.Proofs.Typing.Stack

/-!
# Frames that stay

Scopes keep every frame that was ever opened. Seen from the current frame outwards they are a stack
of maps: whatever is done to them, they answer as such a stack would. As a whole they stay a tree in
which a frame comes after the one around it, and what has been left is never touched again.
-/

namespace PhaseLang.Scopes

inductive Op where
  | push
  | pop
  | declare (name : String) (type : Ty)
  | resolve (name : String)

def step (s : Scopes) : Op → Scopes
  | .push => s.enter
  | .pop => s.leave
  | .declare name type => s.declare name type
  | .resolve _ => s

def run (s : Scopes) (ops : List Op) : Scopes := ops.foldl step s

def answers (s : Scopes) : List Op → List (Option Ty)
  | [] => []
  | .resolve name :: ops => s.resolve name :: s.answers ops
  | op :: ops => (s.step op).answers ops

/-! ## Stacks of maps -/

abbrev Maps := List (String → Option Ty)

namespace Maps

def step (ms : Maps) : Op → Maps
  | .push => (fun _ => none) :: ms
  -- The last map stays.
  | .pop => if ms.tail.isEmpty then ms else ms.tail
  | .declare name type => ms.modifyHead (Function.update · name (some type))
  | .resolve _ => ms

def run (ms : Maps) (ops : List Op) : Maps := ops.foldl step ms

def lookUp (ms : Maps) (name : String) : Option Ty := ms.findSome? (· name)

def answers (ms : Maps) : List Op → List (Option Ty)
  | [] => []
  | .resolve name :: ops => ms.lookUp name :: ms.answers ops
  | op :: ops => (ms.step op).answers ops

def ofBindings (bs : List (Bindings Ty)) : Maps := bs.map fun b name => b.get? name

theorem ofBindings_declare (top : Bindings Ty) (rest : List (Bindings Ty)) (name : String) (type : Ty) :
    ofBindings (top.insert name type :: rest) = (ofBindings (top :: rest)).step (.declare name type) := by
  have updated : (fun other => (top.insert name type).get? other) =
      Function.update (fun other => top.get? other) name (some type) := by
    funext other
    rw [Bindings.get?_insert, Function.update_apply]
    simp only [eq_comm]
  simp only [ofBindings, List.map_cons, step, List.modifyHead_cons, updated]

end Maps

def Refines (s : Scopes) (ms : Maps) : Prop := ∃ bs, s.Stack bs ∧ ms = Maps.ofBindings bs

variable {s : Scopes} {ms : Maps}

theorem refines_empty : Refines {} [fun _ => none] := ⟨[[]], Chain.root (f := { parent := none }) rfl rfl, rfl⟩

theorem Stack.leave_root {top : Bindings Ty} (h : s.Stack [top]) : s.leave = s := by
  cases h with
  | root found outermost => simp [Scopes.leave, found, outermost]
  | inner _ _ _ rest => cases rest

theorem Refines.step (h : s.Refines ms) (op : Op) : (s.step op).Refines (ms.step op) := by
  obtain ⟨bs, hs, rfl⟩ := h
  cases op with
  | push => exact ⟨[] :: bs, hs.enter, rfl⟩
  | pop =>
    obtain _ | ⟨top, _ | ⟨next, rest⟩⟩ := bs
    · cases hs
    · exact ⟨[top], by rwa [Scopes.step, hs.leave_root], rfl⟩
    · exact ⟨next :: rest, hs.leave, rfl⟩
  | declare name type =>
    obtain _ | ⟨top, rest⟩ := bs
    · cases hs
    · exact ⟨_, hs.declare name type, (Maps.ofBindings_declare top rest name type).symm⟩
  | resolve _ => exact ⟨bs, hs, rfl⟩

theorem Refines.run (h : s.Refines ms) (ops : List Op) : (s.run ops).Refines (ms.run ops) := by
  induction ops generalizing s ms with
  | nil => exact h
  | cons op ops ih => exact ih (h.step op)

theorem Refines.resolve (h : s.Refines ms) (name : String) : s.resolve name = ms.lookUp name := by
  obtain ⟨bs, hs, rfl⟩ := h
  rw [hs.resolve, Maps.lookUp, Maps.ofBindings, List.findSome?_map]
  rfl

theorem Refines.answers (h : s.Refines ms) (ops : List Op) : s.answers ops = ms.answers ops := by
  induction ops generalizing s ms with
  | nil => rfl
  | cons op ops ih =>
    have rest := ih (h.step op)
    cases op with
    | resolve name => exact congrArg₂ List.cons (h.resolve name) rest
    | _ => exact rest

/-! ## The tree -/

def parent? (s : Scopes) (i : Nat) : Option Nat := s.frames[i]?.bind (·.parent)

theorem enter_frame (s : Scopes) (i : Nat) : s.enter.frames[i]? =
    if i = s.size then some { parent := some s.current }
    else if s.current = i then s.frames[i]?.map fun f => { f with children := f.children ++ [s.size] }
    else s.frames[i]? := by
  simp only [enter, Array.getElem?_push, Array.size_modify, Array.getElem?_modify]
  rfl

theorem declare_frame (s : Scopes) (name : String) (type : Ty) (i : Nat) : (s.declare name type).frames[i]? =
    if s.current = i then s.frames[i]?.map fun f => { f with bindings := f.bindings.insert name type }
    else s.frames[i]? := by
  simp only [declare, Array.getElem?_modify]

theorem leave_frames (s : Scopes) : s.leave.frames = s.frames := by
  unfold leave
  split <;> rfl

theorem leave_current (s : Scopes) : s.leave.current = (s.parent? s.current).getD s.current := by
  unfold leave parent?
  split
  · rename_i h
    rw [h, Option.getD_none]
  · rename_i h
    rw [h, Option.getD_some]

theorem frame_of_lt {i : Nat} (h : i < s.size) : ∃ f, s.frames[i]? = some f :=
  ⟨s.frames[i], Array.getElem?_eq_getElem h⟩

section
variable (s)

@[simp] theorem size_enter : s.enter.size = s.size + 1 := by simp [enter, size]

@[simp] theorem size_leave : s.leave.size = s.size := by rw [size, leave_frames, size]

@[simp] theorem size_declare (name : String) (type : Ty) : (s.declare name type).size = s.size := by
  simp [declare, size]

theorem parent?_enter (i : Nat) : s.enter.parent? i = if i = s.size then some s.current else s.parent? i := by
  unfold parent?
  rw [enter_frame]
  split
  · rfl
  · split
    · cases s.frames[i]? <;> rfl
    · rfl

@[simp] theorem parent?_leave (i : Nat) : s.leave.parent? i = s.parent? i := by
  rw [parent?, leave_frames, parent?]

@[simp] theorem parent?_declare (name : String) (type : Ty) (i : Nat) :
    (s.declare name type).parent? i = s.parent? i := by
  unfold parent?
  rw [declare_frame]
  split
  · cases s.frames[i]? <;> rfl
  · rfl

@[simp] theorem children_leave (i : Nat) : s.leave.children i = s.children i := by
  rw [children, leave_frames, children]

@[simp] theorem children_declare (name : String) (type : Ty) (i : Nat) :
    (s.declare name type).children i = s.children i := by
  unfold children
  rw [declare_frame]
  by_cases same : s.current = i
  · rw [if_pos same]
    cases s.frames[i]? <;> rfl
  · rw [if_neg same]

@[simp] theorem current_declare (name : String) (type : Ty) : (s.declare name type).current = s.current := rfl

end

theorem children_of_size_le {i : Nat} (h : s.size ≤ i) : s.children i = [] := by
  unfold children
  rw [Array.getElem?_eq_none h]

theorem children_enter (valid : s.current < s.size) (i : Nat) :
    s.enter.children i = if s.current = i then s.children i ++ [s.size] else s.children i := by
  by_cases new : i = s.size
  · have other : s.current ≠ i := by omega
    rw [if_neg other, children_of_size_le (Nat.le_of_eq new.symm), children, enter_frame, if_pos new]
  · unfold children
    rw [enter_frame, if_neg new]
    by_cases same : s.current = i
    · subst same
      obtain ⟨f, hf⟩ := frame_of_lt valid
      simp only [hf, if_true, Option.map_some]
    · rw [if_neg same, if_neg same]

structure Ordered (s : Scopes) : Prop where
  current : s.current < s.size
  root : s.parent? 0 = none
  /-- All frames but the root stand in an older one. -/
  older : ∀ i, i < s.size → i ≠ 0 → ∃ p, s.parent? i = some p ∧ p < i
  /-- A frame is listed once by the frame that it stands in, and by no other. -/
  listed : ∀ i, i < s.size → ∀ j, (s.children j).count i = if s.parent? i = some j then 1 else 0
  known : ∀ j, ∀ i ∈ s.children j, i < s.size
  increasing : ∀ j, (s.children j).Pairwise (· < ·)

namespace Ordered

theorem empty : Ordered {} where
  current := by decide
  root := rfl
  older i hi hne := by
    have : i < 1 := hi
    omega
  listed i hi j := by
    have : i < 1 := hi
    obtain rfl : i = 0 := by omega
    obtain _ | j := j <;> rfl
  known j i hi := by
    obtain _ | j := j <;> cases hi
  increasing j := by
    obtain _ | j := j <;> exact .nil

theorem parent?_lt (h : s.Ordered) {i p : Nat} (hp : s.parent? i = some p) : p < i ∧ i < s.size := by
  obtain ⟨f, hf, -⟩ := Option.bind_eq_some_iff.mp hp
  have valid : i < s.size := (Array.getElem?_eq_some_iff.mp hf).1
  have inner : i ≠ 0 := by
    rintro rfl
    rw [h.root] at hp
    cases hp
  obtain ⟨q, hq, lt⟩ := h.older i valid inner
  rw [hq] at hp
  exact ⟨Option.some.inj hp ▸ lt, valid⟩

theorem enter (h : s.Ordered) : s.enter.Ordered where
  current := by
    rw [size_enter]
    exact Nat.lt_succ_self _
  root := by
    have := h.current
    rw [parent?_enter, if_neg (by omega), h.root]
  older i hi hne := by
    rw [size_enter] at hi
    rw [parent?_enter]
    split
    · rename_i new
      exact ⟨s.current, rfl, new ▸ h.current⟩
    · exact h.older i (by omega) hne
  listed i hi j := by
    rw [size_enter] at hi
    rw [children_enter h.current, parent?_enter]
    by_cases new : i = s.size
    · -- the new frame is listed by the current one alone
      have unlisted (k : Nat) : (s.children k).count i = 0 :=
        List.count_eq_zero_of_not_mem fun hm => absurd (h.known k i hm) (by omega)
      rw [if_pos new]
      by_cases same : s.current = j
      · rw [if_pos same, if_pos (congrArg some same), List.count_append, unlisted, new, List.count_singleton_self]
      · rw [if_neg same, if_neg (same ∘ Option.some.inj), unlisted]
    · have old := h.listed i (by omega) j
      have other : i ∉ [s.size] := by simpa using new
      rw [if_neg new, ← old]
      split
      · rw [List.count_append, List.count_eq_zero_of_not_mem other, Nat.add_zero]
      · rfl
  known j i hi := by
    have known := h.known j i
    rw [children_enter h.current] at hi
    rw [size_enter]
    split at hi
    · rcases List.mem_append.mp hi with hi | hi
      · exact Nat.lt_succ_of_lt (known hi)
      · simp only [List.mem_singleton] at hi
        omega
    · exact Nat.lt_succ_of_lt (known hi)
  increasing j := by
    rw [children_enter h.current]
    split
    · refine List.pairwise_append.mpr ⟨h.increasing j, List.pairwise_singleton _ _, fun i hi k hk => ?_⟩
      rw [List.mem_singleton.mp hk]
      exact h.known j i hi
    · exact h.increasing j

theorem leave (h : s.Ordered) : s.leave.Ordered where
  current := by
    rw [leave_current, size_leave]
    cases hp : s.parent? s.current with
    | none => exact h.current
    | some p =>
      have := h.parent?_lt hp
      simp only [Option.getD_some]
      omega
  root := by simpa using h.root
  older := by simpa using h.older
  listed := by simpa using h.listed
  known := by simpa using h.known
  increasing := by simpa using h.increasing

theorem declare (h : s.Ordered) (name : String) (type : Ty) : (s.declare name type).Ordered where
  current := by simpa using h.current
  root := by simpa using h.root
  older := by simpa using h.older
  listed := by simpa using h.listed
  known := by simpa using h.known
  increasing := by simpa using h.increasing

theorem step (h : s.Ordered) (op : Op) : (s.step op).Ordered := by
  cases op with
  | push => exact h.enter
  | pop => exact h.leave
  | declare name type => exact h.declare name type
  | resolve _ => exact h

theorem run (h : s.Ordered) (ops : List Op) : (s.run ops).Ordered := by
  induction ops generalizing s with
  | nil => exact h
  | cons op ops ih => exact ih (h.step op)

end Ordered

/-! ## Frames that were left -/

inductive Encloses (s : Scopes) (i : Nat) : Nat → Prop
  | self : Encloses s i i
  | outer {j p : Nat} (parent : s.parent? j = some p) (h : Encloses s i p) : Encloses s i j

def Open (s : Scopes) (i : Nat) : Prop := s.Encloses i s.current

theorem Encloses.of_parents {s' : Scopes} {i j : Nat} (h : s'.Encloses i j) (ordered : s.Ordered) (valid : j < s.size)
    (same : ∀ k, k < s.size → s'.parent? k = s.parent? k) : s.Encloses i j := by
  induction h with
  | self => exact .self
  | outer parent _ ih =>
    rw [same _ valid] at parent
    have lt := (ordered.parent?_lt parent).1
    exact .outer parent (ih (by omega))

theorem Open.of_step (ordered : s.Ordered) {op : Op} {i : Nat} (valid : i < s.size) (h : (s.step op).Open i) :
    s.Open i := by
  cases op with
  | push =>
    have old (k : Nat) (hk : k < s.size) : s.enter.parent? k = s.parent? k := by
      rw [parent?_enter, if_neg (by omega)]
    cases h with
    | self => exact absurd valid (Nat.lt_irrefl _)
    | outer parent rest =>
      have around : s.enter.parent? s.enter.current = some s.current := by
        rw [parent?_enter]
        exact if_pos rfl
      obtain rfl := Option.some.inj (around.symm.trans parent)
      exact rest.of_parents ordered ordered.current old
  | pop =>
    have h : s.leave.Encloses i s.leave.current := h
    rw [leave_current] at h
    cases hp : s.parent? s.current with
    | none =>
      rw [hp] at h
      exact h.of_parents ordered ordered.current fun k _ => parent?_leave s k
    | some p =>
      have lt := ordered.parent?_lt hp
      rw [hp] at h
      exact .outer hp (h.of_parents ordered (Nat.lt_trans lt.1 lt.2) fun k _ => parent?_leave s k)
  | declare name type => exact Encloses.of_parents h ordered ordered.current fun k _ => parent?_declare s name type k
  | resolve _ => exact h

theorem frame_step (op : Op) {i : Nat} {f : Frame} (found : s.frames[i]? = some f) (left : ¬ s.Open i) :
    (s.step op).frames[i]? = some f := by
  have valid : i < s.size := (Array.getElem?_eq_some_iff.mp found).1
  have other : s.current ≠ i := by
    rintro rfl
    exact left .self
  cases op with
  | push => rw [Scopes.step, enter_frame, if_neg (by omega), if_neg other, found]
  | pop => rw [Scopes.step, leave_frames, found]
  | declare name type => rw [Scopes.step, declare_frame, if_neg other, found]
  | resolve _ => exact found

theorem frame_run (ordered : s.Ordered) (ops : List Op) {i : Nat} {f : Frame} (found : s.frames[i]? = some f)
    (left : ¬ s.Open i) : (s.run ops).frames[i]? = some f := by
  have valid : i < s.size := (Array.getElem?_eq_some_iff.mp found).1
  induction ops generalizing s with
  | nil => exact found
  | cons op ops ih =>
    have kept := frame_step op found left
    exact ih (ordered.step op) kept (fun h => left (h.of_step ordered valid)) (Array.getElem?_eq_some_iff.mp kept).1

/-! ## Runs -/

/-- Whatever is done to fresh scopes, they answer like a stack of maps, they are a tree in which frames
come after those around them, and the frames that were left stay as they are. -/
theorem run_refines_maps (ops : List Op) :
    (∀ name, (run {} ops).resolve name = (Maps.run [fun _ => none] ops).lookUp name) ∧
      answers {} ops = Maps.answers [fun _ => none] ops ∧
      (run {} ops).Ordered ∧
      ∀ later i f, (run {} ops).frames[i]? = some f → ¬ (run {} ops).Open i →
        (run {} (ops ++ later)).frames[i]? = some f := by
  have ordered := Ordered.empty.run ops
  refine ⟨(refines_empty.run ops).resolve, refines_empty.answers ops, ordered, fun later i f found left => ?_⟩
  have both : run {} (ops ++ later) = (run {} ops).run later := List.foldl_append
  rw [both]
  exact frame_run ordered later found left

/-- A name that is declared after a frame was left is not found in it. -/
theorem run_refines_maps_left :
    (run {} [.push, .declare "x" .any, .pop, .declare "y" .any]).frames[1]? =
      some { parent := some 0, bindings := [("x", .any)] } := by
  have left : ¬ (run {} [.push, .declare "x" .any, .pop]).Open 1 := by
    intro h
    cases h with
    | outer parent _ => cases parent
  exact (run_refines_maps [.push, .declare "x" .any, .pop]).2.2.2 [.declare "y" .any] 1 _ rfl left

end PhaseLang.Scopes
