import PhaseLang.Proofs.Grammar.Citations

/-!
# How names are spelled

A segment of a name holds no colon, so a name that is joined of segments has no `::` at its front.
What a tree mentions is spelled if its names are segments.
-/

namespace PhaseLang

/-! ## Segments -/

namespace QualifiedName

def IsSegment (s : String) : Prop := s ≠ "" ∧ ':' ∉ s.toList

def Plain (name : String) : Prop := key name = name

theorem dropRoot_of_head {c : Char} (h : c ≠ ':') (cs : List Char) : dropRoot (c :: cs) = c :: cs := by
  unfold dropRoot
  split
  · rename_i heq
    exact absurd (List.cons.inj heq).1 h
  · rfl

theorem dropRoot_dropRoot (cs : List Char) : dropRoot (dropRoot cs) = dropRoot cs := by
  fun_induction dropRoot cs with
  | case1 cs ih => exact ih
  | case2 cs h => unfold dropRoot; split <;> simp_all

theorem plain_key (name : String) : Plain (key name) := by
  simp [Plain, key, dropRoot_dropRoot]

theorem plain_join {s : String} (h : IsSegment s) (ss : List String) : Plain (join (s :: ss)) := by
  obtain ⟨c, cs, hs⟩ : ∃ c cs, s.toList = c :: cs := by
    cases hs : s.toList with
    | nil => exact absurd (String.toList_eq_nil_iff.mp hs) h.1
    | cons c cs => exact ⟨c, cs, rfl⟩
  have hc : c ≠ ':' := by
    rintro rfl
    exact h.2 (by simp [hs])
  obtain ⟨rest, hj⟩ : ∃ rest, (join (s :: ss)).toList = c :: rest := by
    cases ss with
    | nil => exact ⟨cs, by simp [join, hs]⟩
    | cons t ts => exact ⟨_, by rw [join, String.intercalate_cons_cons]; simp [hs]; rfl⟩
  unfold Plain key
  rw [hj, dropRoot_of_head hc, ← hj, String.ofList_toList]

theorem split_ne_nil (cs : List Char) : split cs ≠ [] := by
  fun_cases split cs <;> simp_all

theorem intercalate_split (cs : List Char) : List.intercalate [':', ':'] (split cs) = cs := by
  fun_induction split cs with
  | case1 => simp
  | case2 cs ih =>
    obtain ⟨s, ss, hs⟩ := List.exists_cons_of_ne_nil (split_ne_nil cs)
    rw [hs] at ih ⊢
    rw [← ih]
    simp [List.intercalate]
  | case3 c cs h hs ih => exact absurd hs (split_ne_nil cs)
  | case4 c cs h s ss hs ih =>
    rw [hs] at ih
    rw [← ih]
    cases ss <;> simp [List.intercalate]

theorem join_segments (name : String) : join (segments name) = key name := by
  rw [← String.toList_inj, join, String.toList_intercalate, segments, List.map_map]
  have : (String.toList ∘ String.ofList) = id := by funext cs; simp
  rw [this, List.map_id]
  simp only [key, String.toList_ofList]
  exact intercalate_split _

end QualifiedName

namespace TypePath

def Spelled (p : TypePath) : Prop := ∀ s ∈ p.segments, QualifiedName.IsSegment s

def Plain (p : TypePath) : Prop := QualifiedName.Plain p.qualifiedName

theorem Spelled.qualify {p : TypePath} (h : p.Spelled) (q : TypePath) : (q.qualify p.segments).Plain := by
  obtain ⟨s, ss, hs⟩ : ∃ s ss, p.segments = s :: ss := by
    cases hp : p.segments with
    | nil => simp [segments] at hp
    | cons s ss => exact ⟨s, ss, rfl⟩
  have first : QualifiedName.IsSegment s := h s (by simp [hs])
  simp only [Plain, qualifiedName, TypePath.qualify, hs, List.cons_append]
  exact QualifiedName.plain_join first _

theorem Spelled.plain {p : TypePath} (h : p.Spelled) : p.Plain := by
  unfold Plain qualifiedName
  cases hns : p.ns with
  | nil => exact QualifiedName.plain_join (h p.name (by simp [segments])) []
  | cons s ss => exact QualifiedName.plain_join (h s (by simp [segments, hns])) _

theorem dropLast_append_getLastD {ss : List String} (h : ss ≠ []) : ss.dropLast ++ [ss.getLastD ""] = ss := by
  rw [List.getLastD_eq_getLast?, List.getLast?_eq_some_getLast h, Option.getD_some, List.dropLast_concat_getLast]

theorem qualifiedName_ofQualified (name : String) : (ofQualified name).qualifiedName = QualifiedName.key name := by
  have ne : QualifiedName.segments name ≠ [] := by
    simp [QualifiedName.segments, QualifiedName.split_ne_nil]
  simp only [ofQualified, qualifiedName]
  rw [dropLast_append_getLastD ne]
  exact QualifiedName.join_segments name

end TypePath

end PhaseLang
