import Mathlib.Order.Bounds.Defs
import PhaseLang.Diagnostic.Excerpt
import PhaseLang.Proofs.Token.Tiling

/-!
# Diagnostics point at their place

A position may be any two numbers: reversed, beyond the end of the source or inside a character. What
a diagnostic quotes is described from the last boundary `s` that is not above the start: the `Line`
around `s`, parted there. `Excerpt.cut?` finds the same by offsets, with every step checked.
-/

namespace PhaseLang

namespace Text

/-! ## Boundaries -/

/-- Whether a character of a text starts at a byte, or the text ends there. -/
def IsBoundary (cs : List Char) (n : Nat) : Prop := ∃ before after, before ++ after = cs ∧ byteLength before = n

/-- The last boundary that is not above a byte. -/
def floor (cs : List Char) (n : Nat) : Nat := byteLength (splitAtByte n cs).1

theorem splitAtByte_join (n : Nat) (cs : List Char) : (splitAtByte n cs).1 ++ (splitAtByte n cs).2 = cs := by
  induction cs generalizing n with
  | nil => rfl
  | cons c cs ih =>
    rw [splitAtByte]
    split
    · exact congrArg (c :: ·) (ih _)
    · rfl

theorem splitAtByte_cons (n : Nat) (c : Char) (cs : List Char) :
    (splitAtByte n (c :: cs)).1 = if c.utf8Size ≤ n then c :: (splitAtByte (n - c.utf8Size) cs).1 else [] := by
  rw [splitAtByte]
  split <;> rfl

theorem byteLength_splitAtByte_le (n : Nat) (cs : List Char) : byteLength (splitAtByte n cs).1 ≤ n := by
  induction cs generalizing n with
  | nil => exact Nat.zero_le n
  | cons c cs ih =>
    have := ih (n - c.utf8Size)
    rw [splitAtByte_cons]
    split
    · rw [byteLength]
      omega
    · exact Nat.zero_le n

theorem le_byteLength_splitAtByte {n : Nat} {before after : List Char} (h : byteLength before ≤ n) :
    byteLength before ≤ byteLength (splitAtByte n (before ++ after)).1 := by
  induction before generalizing n with
  | nil => exact Nat.zero_le _
  | cons c before ih =>
    rw [byteLength] at h
    have := ih (n := n - c.utf8Size) (by omega)
    rw [List.cons_append, splitAtByte_cons, if_pos (by omega), byteLength, byteLength]
    omega

theorem isGreatest_floor (cs : List Char) (n : Nat) :
    IsGreatest {b | IsBoundary cs b ∧ b ≤ min n (byteLength cs)} (floor cs n) := by
  have join := splitAtByte_join n cs
  have inside : floor cs n ≤ byteLength cs := by
    have := congrArg byteLength join
    rw [byteLength_append] at this
    exact Nat.le.intro this
  refine ⟨⟨⟨_, _, join, rfl⟩, Nat.le_min.mpr ⟨byteLength_splitAtByte_le n cs, inside⟩⟩, ?_⟩
  rintro b ⟨⟨before, after, rfl, rfl⟩, le⟩
  exact le_byteLength_splitAtByte (Nat.le_min.mp le).1

theorem splitAtByte_add (cs ds : List Char) (n : Nat) :
    (splitAtByte (byteLength cs + n) (cs ++ ds)).1 = cs ++ (splitAtByte n ds).1 := by
  induction cs with
  | nil => simp [byteLength]
  | cons c cs ih =>
    have rest : c.utf8Size + byteLength cs + n - c.utf8Size = byteLength cs + n := by omega
    rw [byteLength, List.cons_append, splitAtByte_cons, if_pos (by omega), rest, ih, List.cons_append]

theorem splitAtByte_min (cs ds : List Char) (n : Nat) :
    (splitAtByte (min n (byteLength cs)) (cs ++ ds)).1 = (splitAtByte n cs).1 := by
  induction cs generalizing n with
  | nil =>
    have := congrArg Prod.fst (splitAtByte_append [] ds)
    simpa [byteLength, splitAtByte] using this
  | cons c cs ih =>
    have rest : min n (c.utf8Size + byteLength cs) - c.utf8Size = min (n - c.utf8Size) (byteLength cs) := by omega
    rw [byteLength, List.cons_append, splitAtByte_cons, splitAtByte_cons, rest, ih]
    by_cases fits : c.utf8Size ≤ n
    · rw [if_pos (by omega), if_pos fits]
    · rw [if_neg (by omega), if_neg fits]

/-- The characters in front of a byte are those that end there or before. -/
theorem length_splitAtByte (n : Nat) (cs : List Char) :
    (splitAtByte n cs).1.length = (List.range cs.length).countP fun i => byteLength (cs.take (i + 1)) ≤ n := by
  induction cs generalizing n with
  | nil => rfl
  | cons c cs ih =>
    have shift (i : Nat) : byteLength ((c :: cs).take (i + 1)) = c.utf8Size + byteLength (cs.take i) := rfl
    rw [splitAtByte_cons, List.length_cons, List.range_succ_eq_map, List.countP_cons, List.countP_map]
    simp only [Function.comp_def, Nat.succ_eq_add_one, shift, List.take_zero, byteLength, Nat.add_zero]
    by_cases fits : c.utf8Size ≤ n
    · have later (m : Nat) : c.utf8Size + m ≤ n ↔ m ≤ n - c.utf8Size := by omega
      simp [fits, later, ih]
    · have later (m : Nat) : ¬ c.utf8Size + m ≤ n := by omega
      simp [fits, later]

theorem slice?_eq {a b : Nat} {p q r cs : List Char} (whole : p ++ (q ++ r) = cs) (start : byteLength p = a)
    (stop : a + byteLength q = b) : slice? a b cs = some q := by
  rw [← whole, ← stop, ← start, ← byteLength_append]
  exact slice?_append p q r

/-! ## Ends of lines -/

theorem of_head?_dropWhile (p : Char → Bool) (cs : List Char) : ∀ c ∈ (cs.dropWhile p).head?, p c = false := by
  intro c hc
  have first := List.head?_dropWhile_not p cs
  rwa [Option.mem_def.mp hc] at first

theorem trimEnd_join (cs : List Char) : ∃ blanks, trimEnd cs ++ blanks = cs ∧ blanks.all isBlank := by
  refine ⟨(cs.reverse.takeWhile isBlank).reverse, ?_, by simp⟩
  rw [trimEnd, ← List.reverse_append, List.takeWhile_append_dropWhile, List.reverse_reverse]

end Text

open Text

/-! ## Lines -/

/-- The line of a source around a byte, parted there. -/
structure Line (source : List Char) (s : Nat) where
  above : List Char
  left : List Char
  right : List Char
  below : List Char
  whole : above ++ (left ++ (right ++ below)) = source
  parted : byteLength (above ++ left) = s
  starts : ∀ c ∈ above.getLast?, c = '\n'
  ends : ∀ c ∈ below.head?, c = '\n'
  unbroken : '\n' ∉ left ++ right

namespace Line

variable {source : List Char} {s : Nat}

/-- How many characters of the line lie between the byte and another one. -/
def covered (l : Line source s) (stop : Nat) : Nat :=
  (List.range l.right.length).countP fun i => s + byteLength (l.right.take (i + 1)) ≤ stop

/-- The line around the last boundary that is not above a byte. -/
def around (source : List Char) (n : Nat) : Line source (floor source n) where
  above := ((splitAtByte n source).1.reverse.dropWhile (· ≠ '\n')).reverse
  left := lastLine (splitAtByte n source).1
  right := (splitAtByte n source).2.takeWhile (· ≠ '\n')
  below := (splitAtByte n source).2.dropWhile (· ≠ '\n')
  whole := by
    rw [List.takeWhile_append_dropWhile, ← List.append_assoc, lastLine, ← List.reverse_append,
      List.takeWhile_append_dropWhile, List.reverse_reverse, splitAtByte_join]
  parted := by rw [lastLine, ← List.reverse_append, List.takeWhile_append_dropWhile, List.reverse_reverse, floor]
  starts c hc := by
    rw [List.getLast?_reverse] at hc
    simpa using of_head?_dropWhile _ _ c hc
  ends c hc := by simpa using of_head?_dropWhile _ _ c hc
  unbroken h := by
    simp only [lastLine, List.mem_append, List.mem_reverse] at h
    rcases h with h | h
    · simpa using List.mem_takeWhile_imp h
    · simpa using List.mem_takeWhile_imp h

theorem around_front (source : List Char) (n : Nat) :
    (around source n).above ++ (around source n).left = (splitAtByte n source).1 := by
  simp only [around, lastLine]
  rw [← List.reverse_append, List.takeWhile_append_dropWhile, List.reverse_reverse]

theorem around_back (source : List Char) (n : Nat) :
    (around source n).right ++ (around source n).below = (splitAtByte n source).2 := List.takeWhile_append_dropWhile

theorem covered_eq (l : Line source s) (stop : Nat) : l.covered stop = (splitAtByte (stop - s) l.right).1.length := by
  rw [length_splitAtByte]
  refine List.countP_congr fun i hi => ?_
  have more : l.right.take (i + 1) ≠ [] := by
    have := List.mem_range.mp hi
    rw [Ne, List.take_eq_nil_iff, ← List.length_eq_zero_iff]
    omega
  obtain ⟨c, cs, front⟩ := List.exists_cons_of_ne_nil more
  have := c.utf8Size_pos
  rw [front, byteLength, decide_eq_true_eq, decide_eq_true_eq]
  omega

theorem count_above (l : Line source s) : (l.above ++ l.left).count '\n' = l.above.count '\n' := by
  have none : '\n' ∉ l.left := fun h => l.unbroken (List.mem_append_left _ h)
  rw [List.count_append, List.count_eq_zero.mpr none, Nat.add_zero]

/-! Every part of the source that an excerpt looks at stands between boundaries. -/

theorem start_eq (l : Line source s) : byteLength l.above + byteLength l.left = s := by
  rw [← byteLength_append, l.parted]

theorem halves (l : Line source s) : (l.above ++ l.left) ++ (l.right ++ l.below) = source := by
  rw [List.append_assoc, l.whole]

theorem slice?_front (l : Line source s) : slice? 0 s source = some (l.above ++ l.left) :=
  slice?_eq (p := []) l.halves rfl (by rw [Nat.zero_add, l.parted])

theorem slice?_back (l : Line source s) : slice? s (byteLength source) source = some (l.right ++ l.below) := by
  refine slice?_eq (r := []) (by rw [List.append_nil, l.halves]) l.parted ?_
  have := congrArg byteLength l.halves
  rwa [byteLength_append, l.parted] at this

theorem slice?_above (l : Line source s) : slice? 0 (s - byteLength l.left) source = some l.above := by
  have := l.start_eq
  exact slice?_eq (p := []) l.whole rfl (by omega)

theorem slice?_left (l : Line source s) : slice? (s - byteLength l.left) s source = some l.left := by
  have := l.start_eq
  exact slice?_eq l.whole (by omega) (by omega)

theorem slice?_line (l : Line source s) :
    slice? (s - byteLength l.left) (s + byteLength l.right) source = some (l.left ++ l.right) := by
  have := l.start_eq
  refine slice?_eq (p := l.above) (r := l.below) (by rw [List.append_assoc, l.whole]) (by omega) ?_
  rw [byteLength_append]
  omega

theorem slice?_covered (l : Line source s) (stop : Nat) :
    slice? s (floor source (max s (min stop (s + byteLength l.right)))) source =
      some (splitAtByte (stop - s) l.right).1 := by
  have clamped : max s (min stop (s + byteLength l.right)) =
      byteLength (l.above ++ l.left) + min (stop - s) (byteLength l.right) := by
    rw [l.parted]
    omega
  have under := splitAtByte_add (l.above ++ l.left) (l.right ++ l.below) (min (stop - s) (byteLength l.right))
  rw [splitAtByte_min, l.halves, ← clamped] at under
  refine slice?_eq (r := (splitAtByte (stop - s) l.right).2 ++ l.below) ?_ l.parted ?_
  · rw [← List.append_assoc (splitAtByte _ _).1, splitAtByte_join, l.halves]
  · rw [floor, under, byteLength_append, l.parted]

end Line

/-! ## Excerpts -/

namespace Excerpt

/-- A number moved between two bounds, which must not cross. -/
def clamp? (low high n : Nat) : Option Nat := if low ≤ high then some (max low (min n high)) else none

/-- Line number, column, line and how much of it is underlined, found by offsets. Every cut and clamp is checked. -/
def cut? (source : List Char) (pos : Position) : Option (Nat × Nat × List Char × Nat) := do
  let s := floor source pos.start
  let front ← slice? 0 s source
  let lineStart := s - byteLength (lastLine front)
  let rest ← slice? s (byteLength source) source
  let lineEnd := s + byteLength (rest.takeWhile (· ≠ '\n'))
  let above ← slice? 0 lineStart source
  let left ← slice? lineStart s source
  let covered ← slice? s (floor source (← clamp? s lineEnd pos.stop)) source
  let line ← slice? lineStart lineEnd source
  return (above.count '\n' + 1, left.length, line, covered.length)

theorem of_eq (source : List Char) (pos : Position) :
    Excerpt.of source pos =
      let l := Line.around source pos.start
      ⟨(l.above ++ l.left).count '\n' + 1, l.left, l.right, l.covered pos.stop⟩ := by
  simp only [Line.covered_eq, Line.around_front]
  rfl

/-- No check fails. -/
theorem cut?_eq (source : List Char) (pos : Position) :
    cut? source pos =
      let e := Excerpt.of source pos
      some (e.lineNumber, e.before.length, e.before ++ e.after, e.covered) := by
  obtain ⟨l, lined⟩ : ∃ l, Line.around source pos.start = l := ⟨_, rfl⟩
  have first : lastLine (l.above ++ l.left) = l.left := by rw [← lined, Line.around_front]; rfl
  have last : (l.right ++ l.below).takeWhile (· ≠ '\n') = l.right := by rw [← lined, Line.around_back]; rfl
  have ordered : floor source pos.start ≤ floor source pos.start + byteLength l.right := Nat.le_add_right _ _
  rw [of_eq, lined]
  simp only [cut?, Option.bind_eq_bind, l.slice?_front, l.slice?_back, Option.bind_some, first, last, l.slice?_above,
    l.slice?_left, clamp?, if_pos ordered, Option.pure_def, l.slice?_line, l.slice?_covered, l.count_above,
    l.covered_eq]

end Excerpt

/-! ## Diagnostics -/

/-- With `s` the last boundary that is not above the start, no cut fails, the header names the line and the column of
`s`, the line around `s` is quoted without the blanks at its end, and what the span covers of it is underlined. -/
theorem excerpt_points (source message : String) (pos : Position) :
    ∃ (s : Nat) (l : Line source.toList s) (quoted blanks : List Char),
      IsGreatest {b | IsBoundary source.toList b ∧ b ≤ min pos.start (byteLength source.toList)} s ∧
      quoted ++ blanks = l.left ++ l.right ∧ blanks.all isBlank ∧ (∀ c ∈ quoted.getLast?, isBlank c = false) ∧
      let lineNumber := 1 + (l.above ++ l.left).count '\n'
      let number := toString lineNumber
      let column := 1 + l.left.length
      let width := max 2 number.length
      let gutter := fill width ' ' ++ " |"
      let underline := fill (column - 1) ' ' ++ fill (max 1 (l.covered pos.stop)) '^'
      Excerpt.cut? source.toList pos = some (lineNumber, l.left.length, l.left ++ l.right, l.covered pos.stop) ∧
      (Diagnostic.mk pos message).excerpt (some source) = s!"error: {message}\n" ++
        s!"--> {pos.file}:{number}:{column}\n{gutter}\n" ++
        s!"{alignRight width number} | {String.ofList quoted}\n{gutter} {underline}" := by
  refine ⟨floor source.toList pos.start, .around source.toList pos.start, ?_⟩
  obtain ⟨l, lined⟩ : ∃ l, Line.around source.toList pos.start = l := ⟨_, rfl⟩
  obtain ⟨blanks, join, blank⟩ := trimEnd_join (l.left ++ l.right)
  have unblank : ∀ c ∈ (trimEnd (l.left ++ l.right)).getLast?, isBlank c = false := by
    intro c hc
    rw [trimEnd, List.getLast?_reverse] at hc
    exact of_head?_dropWhile _ _ c hc
  rw [lined]
  refine ⟨_, blanks, isGreatest_floor source.toList pos.start, join, blank, unblank, ?_, ?_⟩
  · rw [Excerpt.cut?_eq, Excerpt.of_eq, lined, Nat.add_comm 1]
  · simp only [Diagnostic.excerpt, Excerpt.of_eq, lined, Excerpt.render, Excerpt.line, Excerpt.underline,
      Nat.add_comm 1, Nat.add_sub_cancel]
    exact (String.append_assoc ..).symm

end PhaseLang
