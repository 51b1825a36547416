import PhaseLang.Php.Lowering
import PhaseLang.Proofs.Typing.Env

/-!
# Results of a lowering

Lowering threads the context through, so what it makes of a tree depends on what was loaded
before. `Gives` speaks about the results from all states, `Ensures` about those from the states
that have a property and keep it, `Results` about those from some state.
-/

namespace PhaseLang.Php

variable {b d : Prop} {γ : Type}

section
variable {α β : Type} {m : Lower α} {f : α → Lower β}

theorem ite_bind [Decidable b] {n : Lower α} :
    (if b then m >>= f else n >>= f) = (if b then m else n) >>= f := by
  split <;> rfl

theorem ite_ite_bind [Decidable b] [Decidable d] {n : Lower γ} {g : γ → α} {z : α} :
    (if b then m >>= f else if d then n >>= fun c => pure (g c) >>= f else pure z >>= f) =
      (if b then m else if d then n >>= fun c => pure (g c) else pure z) >>= f := by
  split
  · rfl
  · split <;> rfl

end

def Gives {α : Type} (m : Lower α) (P : α → Prop) : Prop := ∀ s, P (m.run s).1

section
variable {α β : Type} {m : Lower α} {f : α → Lower β} {P P' : α → Prop} {Q : β → Prop}

theorem Gives.bind (hm : Gives m P) (hf : ∀ a, P a → Gives (f a) Q) : Gives (m >>= f) Q := fun s => hf _ (hm s) _

theorem Gives.mono (hm : Gives m P) (h : ∀ a, P a → P' a) : Gives m P' := fun s => h _ (hm s)

theorem gives_pure {a : α} (h : P a) : Gives (pure a) P := fun _ => h

theorem gives_any : Gives m fun _ => True := fun _ => trivial

theorem gives_ite [Decidable b] {n : Lower α} (hm : b → Gives m P) (hn : ¬ b → Gives n P) :
    Gives (if b then m else n) P := by
  split
  · exact hm ‹_›
  · exact hn ‹_›

theorem Gives.bind_ite [Decidable b] {n : Lower α} (h : Gives (if b then m else n) P)
    (hf : ∀ a, P a → Gives (f a) Q) : Gives (if b then m >>= f else n >>= f) Q := by
  rw [ite_bind]
  exact h.bind hf

theorem Gives.bind_ite_ite [Decidable b] [Decidable d] {n : Lower γ} {g : γ → α} {z : α}
    (h : Gives (if b then m else if d then n >>= fun c => pure (g c) else pure z) P)
    (hf : ∀ a, P a → Gives (f a) Q) :
    Gives (if b then m >>= f else if d then n >>= fun c => pure (g c) >>= f else pure z >>= f) Q := by
  rw [ite_ite_bind]
  exact h.bind hf

end

/-! ## States on the way -/

def Ensures (I : Progress → Prop) {α : Type} (m : Lower α) (P : α → Prop) : Prop :=
  ∀ s : Progress, I s → P (m.run s).1 ∧ I (m.run s).2

def Lasting (I : Progress → Prop) : Prop := ∀ (s : Progress) (name : String), I s → I ((lookUp name).run s).2

theorem lasting_of_context {I : Context → Prop} (h : Context.Lasting I) : Lasting fun s => I s.context :=
  fun s name hs => h s.context name hs

section
variable {I : Progress → Prop} {α β : Type} {m : Lower α} {f : α → Lower β} {P P' : α → Prop} {Q : β → Prop}

theorem Ensures.bind (hm : Ensures I m P) (hf : ∀ a, P a → Ensures I (f a) Q) : Ensures I (m >>= f) Q := by
  intro s hs
  obtain ⟨hP, next⟩ := hm s hs
  exact hf _ hP _ next

theorem Ensures.mono (hm : Ensures I m P) (h : ∀ a, P a → P' a) : Ensures I m P' :=
  fun s hs => ⟨h _ (hm s hs).1, (hm s hs).2⟩

theorem ensures_pure {a : α} (h : P a) : Ensures I (pure a) P := fun _ hs => ⟨h, hs⟩

theorem Ensures.bind_ite_ite [Decidable b] [Decidable d] {n : Lower γ} {g : γ → α} {z : α}
    (h : Ensures I (if b then m else if d then n >>= fun c => pure (g c) else pure z) P)
    (hf : ∀ a, P a → Ensures I (f a) Q) :
    Ensures I (if b then m >>= f else if d then n >>= fun c => pure (g c) >>= f else pure z >>= f) Q := by
  rw [ite_ite_bind]
  exact h.bind hf

theorem lookUp_ensures (lasting : Lasting I) (name : String) : Ensures I (lookUp name) fun _ => True :=
  fun s hs => ⟨trivial, lasting s name hs⟩

theorem isString_ensures (lasting : Lasting I) (scene : Scene) (e : PhaseLang.Expr) :
    Ensures I (isString scene e) fun _ => True := by
  have compared (type : Ty) : Ensures I (do return type.same (← lookUp "String")) fun _ => True :=
    (lookUp_ensures lasting "String").bind fun _ _ => ensures_pure trivial
  unfold isString
  split
  · exact (lookUp_ensures lasting _).bind fun type _ => compared type
  · exact compared _

theorem ensures_get_bind {g : Progress → Lower α} (h : ∀ s, Ensures I (g s) P) : Ensures I (get >>= g) P :=
  fun s hs => h s s hs

theorem lookUpClass_ensures (lasting : Lasting I) (scene : Scene) (path : TypePath) :
    Ensures I (lookUpClass scene path) fun _ => True := by
  have fromRoot : Ensures I (do return (← lookUp path.qualifiedName).class?) fun _ => True :=
    (lookUp_ensures lasting _).bind fun _ _ => ensures_pure trivial
  refine ensures_get_bind fun s => ?_
  split
  · refine (lookUp_ensures lasting _).bind fun type _ => ?_
    cases type.class? with
    | some c => exact ensures_pure trivial
    | none => exact fromRoot
  · exact fromRoot

theorem searchAll_ensures (lasting : Lasting I) (scene : Scene)
    {search : PhaseLang.Class → Lower (Option MemberInfo)} (h : ∀ c, Ensures I (search c) fun _ => True) :
    ∀ paths, Ensures I (searchAll scene search paths) fun _ => True
  | [] => ensures_pure trivial
  | path :: paths => by
    have rest := searchAll_ensures lasting scene h paths
    refine (lookUpClass_ensures lasting scene path).bind fun c _ => ?_
    cases c with
    | none => exact rest
    | some c =>
      refine (h c).bind fun info _ => ?_
      cases info with
      | some info => exact ensures_pure trivial
      | none => exact rest

theorem findMember_ensures (lasting : Lasting I) (scene : Scene) (name : String) (limit : Nat) :
    ∀ c, Ensures I (findMember scene name limit c) fun _ => True := by
  induction limit with
  | zero =>
    intro c
    unfold findMember
    split
    · exact ensures_pure trivial
    · exact ensures_pure trivial
  | succ limit ih =>
    intro c
    unfold findMember
    split
    · exact ensures_pure trivial
    · exact searchAll_ensures lasting scene ih _

theorem accessTo_ensures (lasting : Lasting I) (scene : Scene) (target : PhaseLang.Expr) (name : String) :
    Ensures I (accessTo scene target name) fun _ => True := by
  unfold accessTo
  split
  · exact ensures_pure trivial
  · exact (findMember_ensures lasting scene name _ _).bind fun _ _ => ensures_pure trivial

theorem Ensures.gives (h : Ensures (fun _ => True) m P) : Gives m P := fun s => (h s trivial).1

end

theorem kind_of_function {scene : Scene} {callee : PhaseLang.Expr} {name : String}
    (form : Lower.callForm scene callee = .function name) : callee.kind = .ident name := by
  obtain ⟨id, pos, kind⟩ := callee
  unfold Lower.callForm at form
  dsimp only at form
  split at form
  · cases form
  · cases form
  · repeat' split at form
    all_goals cases form
    rfl

def Results {α : Type} (m : Lower α) (a : α) : Prop := ∃ s, (m.run s).1 = a

theorem gives_results {α : Type} {m : Lower α} : Gives m (Results m) := fun s => ⟨s, rfl⟩

end PhaseLang.Php
