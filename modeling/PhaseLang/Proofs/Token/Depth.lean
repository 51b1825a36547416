import Mathlib.Data.List.Induction
import PhaseLang.Proofs.Token.Tiling

/-!
# How deep a token stands

A hole interrupts a string: the fragment before it is a token of its own, and so is the fragment
behind its brace, which resumes the string. Counting those two kinds of fragments gives the number
of holes around each token, and the token that resumes the string around a hole.
-/

namespace PhaseLang

variable {t : Token} {holes : List Hole} {cs : List Char}

namespace Token

def isFragment (t : Token) : Bool := t.kind == .string || t.kind == .interpolation

/-- A fragment behind the brace of a hole. -/
def resumes (t : Token) : Bool := t.isFragment && t.lexeme.toList.head? == some '\x7d'

/-- A fragment that starts with its quote. -/
def starts (t : Token) : Bool := t.isFragment && t.lexeme.toList.head?.any Scanner.isQuote

def lowers (t : Token) : Nat := t.resumes.toNat

def raises (t : Token) : Nat := (t.kind == .interpolation).toNat

theorem lowers_of_resumes (h : t.resumes) : t.lowers = 1 := by rw [lowers, h]; rfl

theorem resumes_of_lowers (h : 0 < t.lowers) : t.resumes := by
  unfold lowers at h
  cases hr : t.resumes with
  | true => rfl
  | false => simp [hr] at h

theorem raises_of_kind (h : t.kind = .interpolation) : t.raises = 1 := by simp [raises, h]

theorem kind_of_raises (h : 0 < t.raises) : t.kind = .interpolation := by
  by_contra hk
  have : (t.kind == .interpolation) = false := beq_eq_false_iff_ne.mpr hk
  simp [raises, this] at h

theorem raises_le (t : Token) : t.raises ≤ 1 := Bool.toNat_le _

theorem lowers_of_not_fragment (h : t.isFragment = false) : t.lowers = 0 := by
  simp [lowers, resumes, h]

theorem raises_of_not_fragment (h : t.isFragment = false) : t.raises = 0 := by
  simp only [isFragment, Bool.or_eq_false_iff] at h
  simp [raises, h.2]

theorem not_resumes_of_starts (h : t.starts) : t.resumes = false := by
  simp only [starts, Bool.and_eq_true] at h
  cases hc : t.lexeme.toList.head? with
  | none => simp [resumes, hc]
  | some c =>
    have quote : Scanner.isQuote c := by simpa [hc] using h.2
    have : c ≠ '\x7d' := by
      rintro rfl
      exact absurd quote (by decide)
    simp [resumes, hc, this]

end Token

/-! ## Counting -/

/-- The number of holes around what follows the tokens, if there are `depth` around them; none if
they close more holes than are open. -/
def depthAfter (depth : Nat) : List Token → Option Nat
  | [] => some depth
  | t :: ts => if t.lowers ≤ depth then depthAfter (depth - t.lowers + t.raises) ts else none

/-- The tokens from the one on that closes the hole around `depth` inner ones. -/
def resumption (depth : Nat) : List Token → List Token
  | [] => []
  | t :: ts => if t.lowers ≤ depth then resumption (depth - t.lowers + t.raises) ts else t :: ts

theorem depthAfter_append (d : Nat) (ts us : List Token) :
    depthAfter d (ts ++ us) = (depthAfter d ts).bind (depthAfter · us) := by
  induction ts generalizing d with
  | nil => rfl
  | cons t ts ih =>
    simp only [List.cons_append, depthAfter]
    split
    · exact ih _
    · rfl

theorem resumption_append {d d' : Nat} {ts : List Token} (h : depthAfter d ts = some d') (us : List Token) :
    resumption d (ts ++ us) = resumption d' us := by
  induction ts generalizing d with
  | nil => cases h; rfl
  | cons t ts ih =>
    simp only [depthAfter] at h
    simp only [List.cons_append, resumption]
    split at h
    · rename_i le
      rw [if_pos le]
      exact ih h
    · cases h

theorem resumption_of_resumes (h : t.resumes) (ts : List Token) : resumption 0 (t :: ts) = t :: ts := by
  simp [resumption, Token.lowers_of_resumes h]

theorem exists_resumption {ts : List Token} {d k m : Nat} (h : depthAfter (d + 1 + k) ts = some m) (le : m ≤ d) :
    ∃ u us, resumption k ts = u :: us ∧ u.resumes := by
  induction ts generalizing k with
  | nil =>
    cases h
    omega
  | cons t ts ih =>
    by_cases hk : t.lowers ≤ k
    · have deeper : d + 1 + k - t.lowers + t.raises = d + 1 + (k - t.lowers + t.raises) := by omega
      simp only [depthAfter, if_pos (show t.lowers ≤ d + 1 + k by omega), deeper] at h
      simp only [resumption, if_pos hk]
      exact ih h
    · exact ⟨t, ts, by simp [resumption, hk], Token.resumes_of_lowers (by omega)⟩

/-- Of the holes that are open after the tokens, each was opened among them: the one with `j` holes
inside it by a token after which the depth grew by `j`. -/
theorem exists_opening {ts : List Token} {m : Nat} (h : depthAfter 0 ts = some m) {j : Nat} (lt : j < m) :
    ∃ before t inner, ts = before ++ t :: inner ∧ t.kind = .interpolation ∧ depthAfter 0 inner = some j := by
  induction ts using List.reverseRecOn generalizing m j with
  | nil =>
    cases h
    omega
  | append_singleton ts t ih =>
    rw [depthAfter_append] at h
    obtain ⟨m', hm, step⟩ := Option.bind_eq_some_iff.mp h
    simp only [depthAfter] at step
    split at step
    · rename_i closes
      cases step
      -- The hole that `t` itself opens is the innermost one.
      by_cases hj : j < t.raises
      · obtain rfl : j = 0 := by have := t.raises_le; omega
        exact ⟨ts, t, [], rfl, Token.kind_of_raises hj, rfl⟩
      · obtain ⟨before, u, inner, rfl, kind, depth⟩ := ih hm (show j - t.raises + t.lowers < m' by omega)
        refine ⟨before, u, inner ++ [t], by simp, kind, ?_⟩
        rw [depthAfter_append, depth]
        simp only [Option.bind_some, depthAfter, if_pos (Nat.le_add_left _ _)]
        congr 1
        omega
    · cases step

theorem depthAfter_not_fragment (h : t.isFragment = false) (d : Nat) : depthAfter d [t] = some d := by
  simp [depthAfter, Token.lowers_of_not_fragment h, Token.raises_of_not_fragment h]

section Balanced
variable {tokens ts : List Token} {t : Token} (balanced : depthAfter 0 tokens = some 0)
include balanced

theorem resumption_of_balanced (suffix : t :: ts <:+ tokens) (kind : t.kind = .interpolation) :
    ∃ u us, resumption 0 ts = u :: us ∧ u.resumes := by
  obtain ⟨before, rfl⟩ := suffix
  rw [depthAfter_append] at balanced
  obtain ⟨d, -, rest⟩ := Option.bind_eq_some_iff.mp balanced
  simp only [depthAfter, Token.raises_of_kind kind] at rest
  split at rest
  · exact exists_resumption rest (Nat.zero_le _)
  · cases rest

theorem opening_of_balanced (suffix : t :: ts <:+ tokens) (resumes : t.resumes) :
    ∃ opening inner, opening :: (inner ++ t :: ts) <:+ tokens ∧ opening.kind = .interpolation ∧
      resumption 0 (inner ++ t :: ts) = t :: ts := by
  obtain ⟨before, rfl⟩ := suffix
  rw [depthAfter_append] at balanced
  obtain ⟨d, depth, rest⟩ := Option.bind_eq_some_iff.mp balanced
  simp only [depthAfter, Token.lowers_of_resumes resumes] at rest
  split at rest
  · rename_i pos
    obtain ⟨outside, opening, inner, rfl, kind, level⟩ := exists_opening depth (Nat.lt_of_succ_le pos)
    refine ⟨opening, inner, ⟨outside, by simp⟩, kind, ?_⟩
    rw [resumption_append level]
    exact resumption_of_resumes resumes ts
  · cases rest

end Balanced

/-! ## Scanned tokens -/

namespace Scanner

theorem length_countBrace (kind : TokenKind) (holes : List Hole) : (countBrace kind holes).length = holes.length := by
  cases holes with
  | nil => rfl
  | cons h hs => cases kind <;> rfl

theorem Opens.depthAfter {outer : List Hole} {c quote : Char} (o : Opens holes c quote outer)
    (fragment : t.isFragment) (lexeme : t.lexeme = String.ofList (c :: cs)) :
    depthAfter holes.length [t] = some (outer.length + t.raises) := by
  cases o with
  | quote h =>
    have : t.starts := by simp [Token.starts, fragment, lexeme, h]
    simp [PhaseLang.depthAfter, Token.lowers, Token.not_resumes_of_starts this]
  | resume =>
    have : t.resumes := by simp [Token.resumes, fragment, lexeme]
    simp [PhaseLang.depthAfter, Token.lowers_of_resumes this]

theorem Code.not_fragment {c : Char} {s : Step} (h : Code holes c cs s) :
    s.kind ≠ some .string ∧ s.kind ≠ some .interpolation ∧ s.holes.length = holes.length := by
  cases h with
  | word _ _ _ =>
    have mem := wordKind_mem
    refine ⟨fun e => ?_, fun e => ?_, length_countBrace _ _⟩
    all_goals exact absurd (Option.some.inj e ▸ mem _ _) (by decide)
  | symbol _ _ found =>
    have mem := (symbol?_eq_some found).2.2
    refine ⟨fun e => ?_, fun e => ?_, length_countBrace _ _⟩
    all_goals exact absurd (Option.some.inj e ▸ mem) (by decide)
  | number _ _ => simp [length_countBrace]
  | _ => simp

theorem Lexes.depthAfter {s : Step} (l : Lexes holes cs s)
    (clean : s.problem = none) (file : String) (lo : Nat) :
    depthAfter holes.length (s.token? file lo).toList = some s.holes.length := by
  cases l with
  | code _ h =>
    obtain ⟨string, interpolation, length⟩ := h.not_fragment
    rw [length, Step.token?]
    cases hk : s.kind with
    | none => rfl
    | some kind =>
      rw [hk] at string interpolation
      refine depthAfter_not_fragment ?_ _
      simpa [Token.isFragment] using ⟨fun e => string (e ▸ rfl), fun e => interpolation (e ▸ rfl)⟩
  | string o h => exact o.depthAfter rfl rfl
  | hole o h => exact o.depthAfter rfl rfl
  | missing o h => simp at clean

theorem Run.depthAfter {final : List Hole} {steps : List Step} (r : Run holes cs steps final)
    (clean : ∀ s ∈ steps, s.problem = none) (file : String) (lo : Nat) :
    depthAfter holes.length (tokensOf file lo steps) = some final.length := by
  induction r generalizing lo with
  | done => rfl
  | step l more ih =>
    rw [tokensOf, depthAfter_append, l.depthAfter (clean _ (List.mem_cons_self ..))]
    exact ih (fun s hs => clean s (List.mem_cons_of_mem _ hs)) _

end Scanner

theorem scan_balanced {source file : String} (clean : (scan source file).diagnostics = []) :
    depthAfter 0 (scan source file).tokens = some 0 := by
  obtain ⟨steps, final, run⟩ := Scanner.exists_scan_run source
  obtain ⟨problems, rfl⟩ := (run.scan_diagnostics file).mp clean
  have balanced : depthAfter 0 (Scanner.tokensOf file 0 steps) = some 0 := run.depthAfter problems file 0
  rw [run.scan_tokens, depthAfter_append, balanced]
  rfl

end PhaseLang
