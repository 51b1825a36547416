import PhaseLang.Proofs.Grammar.Operators
import PhaseLang.Proofs.Outcomes
import PhaseLang.Proofs.Token.Written

/-!
# Texts of type paths

The text of a type path is read as that path, whatever stands in its parameters: its tokens are the signs and names
that it was written with, and the grammar puts them together again (`readSource_typePath`).
-/

namespace PhaseLang

/-! ## Paths that can be written -/

/-- An upper case letter, and letters, digits and underscores after it. -/
def isTypeIdentifier (s : String) : Bool := s.toList.head?.any Scanner.isUpper && s.toList.all Scanner.isWordPart

/-- A token without its place. -/
def Token.sign (t : Token) : TokenKind × String := (t.kind, t.lexeme)

namespace TypePath

mutual

/-- All names in the path and in its parameters are type identifiers. -/
def isWritten : TypePath → Bool
  | ⟨ns, name, params, _, _⟩ => (ns ++ [name]).all isTypeIdentifier && areWritten params

def areWritten : List TypePath → Bool
  | [] => true
  | p :: ps => p.isWritten && areWritten ps

end

/-- The signs of names with `::` between them. -/
def segmentSigns : List String → List (TokenKind × String)
  | [] => []
  | s :: ss => (.typeIdentifier, s) :: ss.flatMap fun s => [(.colonColon, "::"), (.typeIdentifier, s)]

mutual

def signs : TypePath → List (TokenKind × String)
  | ⟨ns, name, params, absolute, nullable⟩ =>
    (if nullable then [(.question, "?")] else []) ++ ((if absolute then [(.colonColon, "::")] else []) ++
      (segmentSigns (ns ++ [name]) ++ paramSigns params))

def paramSigns : List TypePath → List (TokenKind × String)
  | [] => []
  | p :: ps => (.less, "<") :: (p.signs ++ moreSigns ps)

def moreSigns : List TypePath → List (TokenKind × String)
  | [] => [(.greater, ">")]
  | p :: ps => (.comma, ",") :: (p.signs ++ moreSigns ps)

end

end TypePath

theorem TypePath.induction {P : TypePath → Prop}
    (step : ∀ ns name params absolute nullable, (∀ p ∈ params, P p) → P ⟨ns, name, params, absolute, nullable⟩)
    (p : TypePath) : P p :=
  @TypePath.rec P (fun ps => ∀ p ∈ ps, P p) step (by simp)
    (fun _ _ head tail => List.forall_mem_cons.mpr ⟨head, tail⟩) p

theorem TypePath.areWritten_iff {ps : List TypePath} : areWritten ps = true ↔ ∀ p ∈ ps, p.isWritten = true := by
  induction ps with
  | nil => simp [areWritten]
  | cons p ps ih => rw [areWritten, Bool.and_eq_true, ih, List.forall_mem_cons]

/-! ## Scanning -/

namespace Scanner

variable {text : List Char} {ss : List (TokenKind × String)} {kind : TokenKind}

/-- The text is scanned as these signs, wherever it stands; behind a sign, it does not change that sign. -/
structure Reads (text : List Char) (ss : List (TokenKind × String)) : Prop where
  apart : text.head? ≠ some '='
  yields (file : String) (lo : Nat) : ∃ ts, ts.map Token.sign = ss ∧ Yields file lo text ts

theorem Reads.cons {c : Char} (front : List Char) {s : TokenKind × String} (apart : c ≠ '=')
    (one : ∀ file lo, ∃ t, t.sign = s ∧ ∀ ts, Yields file t.pos.stop text ts →
      Yields file lo (c :: (front ++ text)) (t :: ts))
    (more : Reads text ss) : Reads (c :: (front ++ text)) (s :: ss) := by
  refine ⟨by simpa using apart, fun file lo => ?_⟩
  obtain ⟨t, rfl, step⟩ := one file lo
  obtain ⟨ts, rfl, yields⟩ := more.yields file t.pos.stop
  exact ⟨t :: ts, rfl, step ts yields⟩

theorem Reads.word {word : String} (h : Word kind word) (stop : ∀ c ∈ text.head?, Ends c) (more : Reads text ss) :
    Reads (word.toList ++ text) ((kind, word) :: ss) := by
  cases spelled : word.toList with
  | nil => exact absurd spelled h.filled
  | cons c cs =>
    have apart : c ≠ '=' := by
      rintro rfl
      exact absurd (h.start '=' (by simp [spelled])) (by decide)
    refine .cons cs apart (fun file lo => ⟨⟨kind, word, none, ⟨lo, lo + word.utf8ByteSize, file⟩⟩, rfl, ?_⟩) more
    intro ts yields
    rw [← List.cons_append, ← spelled]
    exact yields.word h stop

/-- A sign of one character that only `=` could make longer. -/
theorem Reads.sign {c : Char} (kind : TokenKind)
    (mem : (c, kind) ∈ [('?', .question), ('<', .less), ('>', .greater), (',', .comma)])
    (more : Reads text ss) : Reads (c :: text) ((kind, kind.text) :: ss) := by
  have all : ∀ sign ∈ [('?', TokenKind.question), ('<', .less), ('>', .greater), (',', .comma)],
      ([sign.1], sign.2) ∈ symbolTable ∧ sign.1 ≠ '=' ∧
      (isSpace sign.1 = false ∧ sign.1 ≠ '\n' ∧ isDigit sign.1 = false ∧ isWordStart sign.1 = false) ∧
      (isQuote sign.1 = false ∧ sign.1 ≠ '/' ∧ sign.1.utf8Size = 1) ∧
      ∀ entry ∈ symbolTable, entry.1.head? = some sign.1 → entry.1 = [sign.1] ∨ entry.1.tail.head? = some '=' := by
        decide
  obtain ⟨known, apart, ⟨space, newline, digit, word⟩, plain, alone⟩ := all _ mem
  refine .cons [] apart (fun file lo => ⟨⟨kind, kind.text, none, ⟨lo, lo + 1, file⟩⟩, rfl, ?_⟩) more
  intro ts yields
  refine yields.symbol known ⟨space, newline, digit, word⟩ plain fun entry found first => ?_
  exact (alone entry found first).imp_right fun equal same => more.apart (same.symm.trans equal)

theorem Reads.colon (other : text.head? ≠ some ':') (more : Reads text ss) :
    Reads (':' :: text) ((.colon, ":") :: ss) := by
  refine .cons [] (by decide) (fun file lo => ⟨⟨.colon, ":", none, ⟨lo, lo + 1, file⟩⟩, rfl, ?_⟩) more
  intro ts yields
  have alone : ∀ entry ∈ symbolTable, entry.1.head? = some ':' → entry.1 = [':'] ∨ entry.1.tail.head? = some ':' := by
    decide
  refine yields.symbol (show ([':'], .colon) ∈ symbolTable by decide) ⟨by decide, by decide, by decide, by decide⟩
    ⟨by decide, by decide, by decide⟩ fun entry found first => ?_
  exact (alone entry found first).imp_right fun colon same => other (same.symm.trans colon)

theorem Reads.colons (more : Reads text ss) : Reads (':' :: ':' :: text) ((.colonColon, "::") :: ss) := by
  refine .cons [':'] (by decide)
    (fun file lo => ⟨⟨.colonColon, "::", none, ⟨lo, lo + 2, file⟩⟩, rfl, ?_⟩) more
  intro ts yields
  have rule : Code [] ':' ([':'] ++ text) _ :=
    .symbol ⟨by decide, by decide, by decide, by decide⟩ rfl (show _ = some (_, .colonColon) from rfl)
  exact .step [_] (.code (outside_nil rfl) rule) rfl rfl rfl rfl yields

theorem Reads.blank (more : Reads text ss) : Reads (' ' :: text) ss := by
  refine ⟨by simp, fun file lo => ?_⟩
  obtain ⟨ts, rfl, yields⟩ := more.yields file (lo + 1)
  exact ⟨ts, rfl, yields.blank⟩

theorem word_of_isTypeIdentifier {s : String} (h : isTypeIdentifier s = true) : Word .typeIdentifier s := by
  obtain ⟨upper, part⟩ := Bool.and_eq_true_iff.mp h
  refine .of_all ?_ part (if_pos upper)
  obtain ⟨c, first, upper⟩ := (Option.any_eq_true _ _).mp upper
  rw [first]
  simp [isWordStart, upper]

/-- What comes after a path or a part of it. -/
def Stops (text : List Char) : Prop := ∀ c ∈ text.head?, c ∈ [':', '<', '>', ',']

theorem Stops.ends (h : Stops text) : ∀ c ∈ text.head?, Ends c := by
  intro c hc
  have mem := h c hc
  simp only [List.mem_cons, List.not_mem_nil, or_false] at mem
  rcases mem with rfl | rfl | rfl | rfl <;> decide

def paramText : List TypePath → String
  | [] => ""
  | p :: ps => "<" ++ p.text ++ TypePath.textMore ps ++ ">"

theorem toList_join (s : String) (ss : List String) :
    (QualifiedName.join (s :: ss)).toList = s.toList ++ ss.flatMap fun s => ':' :: ':' :: s.toList := by
  induction ss generalizing s with
  | nil => simp [QualifiedName.join]
  | cons t ss ih =>
    rw [QualifiedName.join, String.intercalate_cons_cons, String.toList_append, String.toList_append]
    simp only [QualifiedName.join] at ih
    simp [ih]

theorem reads_segments {names : List String} (filled : names ≠ []) (written : names.all isTypeIdentifier = true)
    (stop : Stops text) (more : Reads text ss) :
    Reads ((QualifiedName.join names).toList ++ text) (TypePath.segmentSigns names ++ ss) := by
  cases names with
  | nil => exact absurd rfl filled
  | cons s rest =>
    rw [List.all_cons, Bool.and_eq_true] at written
    have later : Reads ((rest.flatMap fun s => ':' :: ':' :: s.toList) ++ text)
          ((rest.flatMap fun s => [(.colonColon, "::"), (.typeIdentifier, s)]) ++ ss) ∧
        Stops ((rest.flatMap fun s => ':' :: ':' :: s.toList) ++ text) := by
      clear filled
      obtain ⟨-, written⟩ := written
      induction rest with
      | nil => exact ⟨more, stop⟩
      | cons t rest ih =>
        rw [List.all_cons, Bool.and_eq_true] at written
        obtain ⟨reads, stops⟩ := ih written.2
        simp only [List.flatMap_cons, List.cons_append, List.append_assoc, List.nil_append]
        exact ⟨.colons (.word (word_of_isTypeIdentifier written.1) stops.ends reads), by simp [Stops]⟩
    rw [toList_join, List.append_assoc]
    exact .word (word_of_isTypeIdentifier written.1) later.2.ends later.1

theorem toList_text (p : TypePath) :
    p.text.toList =
      (if p.nullable then ['?'] else []) ++ ((if p.absolute then [':', ':'] else []) ++
        ((QualifiedName.join (p.ns ++ [p.name])).toList ++ (paramText p.params).toList)) := by
  cases p with
  | mk ns name params absolute nullable =>
    cases params <;> cases absolute <;> cases nullable <;> simp [TypePath.text, paramText]

theorem toList_textMore (p : TypePath) (ps : List TypePath) :
    (TypePath.textMore (p :: ps)).toList = ',' :: (p.text.toList ++ (TypePath.textMore ps).toList) := by
  simp [TypePath.textMore]

theorem toList_paramText (p : TypePath) (ps : List TypePath) :
    (paramText (p :: ps)).toList = '<' :: (p.text.toList ++ ((TypePath.textMore ps).toList ++ ['>'])) := by
  simp [paramText]

/-- The text of a path, before what may come after a path, is scanned as the signs of the path. -/
theorem reads_text (p : TypePath) : ∀ (text : List Char) (ss : List (TokenKind × String)), p.isWritten = true →
    Stops text → Reads text ss → Reads (p.text.toList ++ text) (p.signs ++ ss) := by
  induction p using TypePath.induction with
  | step ns name params absolute nullable ih =>
    intro text ss written stop more
    rw [TypePath.isWritten, Bool.and_eq_true, TypePath.areWritten_iff] at written
    obtain ⟨named, written⟩ := written
    -- The parameters after the first, and the bracket behind them.
    have later : ∀ ps : List TypePath, (∀ p ∈ ps, p ∈ params) →
        Reads ((TypePath.textMore ps).toList ++ '>' :: text) (TypePath.moreSigns ps ++ ss) ∧
          Stops ((TypePath.textMore ps).toList ++ '>' :: text) := by
      intro ps mem
      induction ps with
      | nil => exact ⟨.sign .greater (by simp) more, by simp [Stops, TypePath.textMore]⟩
      | cons p ps ihs =>
        rw [List.forall_mem_cons] at mem
        obtain ⟨reads, stops⟩ := ihs mem.2
        have first := ih p mem.1 _ _ (written p mem.1) stops reads
        rw [toList_textMore, TypePath.moreSigns, List.cons_append, List.append_assoc, List.cons_append,
          List.append_assoc]
        exact ⟨.sign .comma (by simp) first, by simp [Stops]⟩
    have behind : Reads ((paramText params).toList ++ text) (TypePath.paramSigns params ++ ss) ∧
        Stops ((paramText params).toList ++ text) := by
      cases params with
      | nil => exact ⟨more, stop⟩
      | cons p ps =>
        obtain ⟨reads, stops⟩ := later ps fun q mem => List.mem_cons_of_mem p mem
        have first := ih p List.mem_cons_self _ _ (written p List.mem_cons_self) stops reads
        rw [toList_paramText, TypePath.paramSigns]
        simp only [List.cons_append, List.append_assoc, List.nil_append]
        exact ⟨.sign .less (by simp) first, by simp [Stops]⟩
    have segments := reads_segments (by simp) named behind.2 behind.1
    rw [toList_text, TypePath.signs]
    simp only [List.append_assoc]
    cases absolute <;> cases nullable
    · exact segments
    · exact .sign .question (by simp) segments
    · exact segments.colons
    · exact .sign .question (by simp) segments.colons

end Scanner

/-! ## Parsing -/

namespace Grammar

open PhaseLang.Parser

variable {c : Cursor} {t : Token} {ts rest : List Token} {r : Rules}

/-- The cursor after tokens of which the given one is the last. -/
def past (c : Cursor) (last : Token) (rest : List Token) : Cursor := { c with previous := last, rest }

theorem peek_of_row (row : c.rest = t :: rest) : c.peek = t := by rw [Cursor.peek, row, List.headD_cons]

theorem advance_of_row (row : c.rest = t :: rest) : c.advance = past c t rest := by
  cases c
  subst row
  rfl

/-- What may come after a path. -/
def PathEnds (c : Cursor) (rest : List Token) : Prop := (rest.headD c.eof).kind ∈ [.comma, .greater, .eof]

theorem PathEnds.ne {kind : TokenKind} (h : PathEnds c rest) (other : kind ∉ [.comma, .greater, .eof]) :
    (rest.headD c.eof).kind ≠ kind := fun same => other (same ▸ h)

def segmentRound (segments : List String) : Parser (Round (List String) (List String)) := do
  let segment ← expect .typeIdentifier "a type name"
  let segments := segments ++ [segment.lexeme]
  if (← atKind .colonColon) && (← peekNext).kind == .typeIdentifier then
    let _ ← advance
    return .again segments
  else return .done segments

theorem segments_read (ss found : List String) (kind : t.kind = .typeIdentifier)
    (signs : ts.map Token.sign = ss.flatMap fun s => [(.colonColon, "::"), (.typeIdentifier, s)])
    (row : c.rest = t :: (ts ++ rest)) (stop : (rest.headD c.eof).kind ≠ .colonColon) :
    ∃ last, iterate segmentRound found c = .ok (found ++ t.lexeme :: ss, past c last rest) := by
  induction ss generalizing t ts found c with
  | nil =>
    obtain rfl := List.map_eq_nil_iff.mp signs
    refine ⟨t, iterate_done ?_⟩
    unfold segmentRound
    rw [← runs_eq_iff, runs_bind, runs_expect, peek_of_row row, advance_of_row row]
    refine ⟨fun _ => ?_, fun other => absurd kind other⟩
    have last : ((past c t ([] ++ rest)).peek.kind == .colonColon) = false := beq_eq_false_iff_ne.mpr stop
    rw [runs_bind, runs_atKind, runs_bind, runs_peekNext, last, Bool.false_and, if_neg Bool.false_ne_true]
    exact ⟨rfl, rfl⟩
  | cons s ss ih =>
    rw [List.flatMap_cons] at signs
    obtain ⟨colons, _, rfl, sign, more⟩ := List.map_eq_cons_iff.mp signs
    obtain ⟨u, ts, rfl, next, later⟩ := List.map_eq_cons_iff.mp more
    obtain ⟨isColons, -⟩ := Prod.mk.inj sign
    obtain ⟨isName, rfl⟩ := Prod.mk.inj next
    obtain ⟨last, read⟩ := ih (c := past c colons (u :: (ts ++ rest))) (found ++ [t.lexeme]) isName later rfl stop
    refine ⟨last, iterate_again ?_ ?_ (read.trans ?_)⟩
    · unfold segmentRound
      rw [← runs_eq_iff, runs_bind, runs_expect, peek_of_row row, advance_of_row row]
      refine ⟨fun _ => ?_, fun other => absurd kind other⟩
      rw [runs_bind, runs_atKind, runs_bind, runs_peekNext]
      have goesOn : (((past c t (colons :: u :: ts ++ rest)).peek.kind == .colonColon) &&
          (past c t (colons :: u :: ts ++ rest)).peekNext.kind == .typeIdentifier) = true := by
        simp [past, Cursor.peek, Cursor.peekNext, isColons, isName]
      rw [goesOn, if_pos rfl]
      exact ⟨rfl, rfl⟩
    · simp [row, past]
    · simp [past]

theorem path_read (names : List String) (filled : names ≠ []) {absolute : Bool}
    (signs : ts.map Token.sign = (if absolute then [(.colonColon, "::")] else []) ++ TypePath.segmentSigns names)
    (row : c.rest = ts ++ rest) (stop : (rest.headD c.eof).kind ≠ .colonColon) :
    ∃ last, path c = .ok ({ ns := names.dropLast, name := names.getLastD "", absolute }, past c last rest) := by
  obtain ⟨s, ss, rfl⟩ := List.exists_cons_of_ne_nil filled
  have segments {c : Cursor} {ts : List Token} (signs : ts.map Token.sign = TypePath.segmentSigns (s :: ss))
      (row : c.rest = ts ++ rest) (stop : (rest.headD c.eof).kind ≠ .colonColon) :
      (∃ last, iterate segmentRound [] c = .ok (s :: ss, past c last rest)) ∧ c.peek.kind = .typeIdentifier := by
    obtain ⟨t, ts, rfl, sign, more⟩ := List.map_eq_cons_iff.mp signs
    obtain ⟨kind, rfl⟩ := Prod.mk.inj sign
    exact ⟨segments_read ss [] kind more row stop, by rw [peek_of_row row, kind]⟩
  have whole {c d : Cursor} {taken : Bool} (first : take .colonColon c = .ok (taken, d))
      (read : ∃ last, iterate segmentRound [] d = .ok (s :: ss, past c last rest)) :
      ∃ last, path c =
        .ok ({ ns := (s :: ss).dropLast, name := (s :: ss).getLastD "", absolute := taken }, past c last rest) := by
    obtain ⟨last, read⟩ := read
    refine ⟨last, ?_⟩
    unfold path
    rw [← runs_eq_iff, runs_bind, runs_of_eq first, runs_bind]
    exact (runs_of_eq read).mpr ⟨rfl, rfl⟩
  cases absolute with
  | false =>
    obtain ⟨read, kind⟩ := segments signs row stop
    refine whole ?_ read
    rw [← runs_eq_iff, runs_take]
    exact ⟨fun found => by simp [kind] at found, fun _ => ⟨rfl, rfl⟩⟩
  | true =>
    obtain ⟨colons, ts, rfl, sign, more⟩ := List.map_eq_cons_iff.mp signs
    obtain ⟨isColons, -⟩ := Prod.mk.inj sign
    obtain ⟨read, -⟩ := segments (c := past c colons (ts ++ rest)) more rfl stop
    refine whole (d := past c colons (ts ++ rest)) ?_ read
    rw [← runs_eq_iff, runs_take, peek_of_row row, advance_of_row row]
    exact ⟨fun _ => ⟨rfl, rfl⟩, fun other => absurd isColons other⟩

/-- The rules read the tokens of the path as the path. -/
def ReadsPath (r : Rules) (p : TypePath) : Prop :=
  ∀ (c : Cursor) (ts rest : List Token), ts.map Token.sign = p.signs → c.rest = ts ++ rest → PathEnds c rest →
    ∃ last, r.typePath true c = .ok (p, past c last rest)

theorem exists_named (ns : List String) (name : String) (absolute : Bool) :
    ∃ s ss, (if absolute then [(.colonColon, "::")] else []) ++ TypePath.segmentSigns (ns ++ [name]) = s :: ss ∧
      s.1 ∈ [.colonColon, .typeIdentifier] := by
  cases absolute
  · cases ns <;> exact ⟨_, _, rfl, by simp⟩
  · exact ⟨_, _, rfl, by simp⟩

theorem exists_signs (p : TypePath) : ∃ s ss, p.signs = s :: ss ∧ s.1 ∈ [.question, .colonColon, .typeIdentifier] := by
  cases p with
  | mk ns name params absolute nullable =>
    obtain ⟨s, ss, named, first⟩ := exists_named ns name absolute
    rw [TypePath.signs, ← List.append_assoc _ _ (TypePath.paramSigns params), named]
    cases nullable
    · exact ⟨s, _, rfl, List.mem_cons_of_mem _ first⟩
    · exact ⟨_, _, rfl, List.mem_cons_self⟩

def paramRound (r : Rules) (items : List TypePath) : Parser (Round (List TypePath) (List TypePath)) := do
  newlines
  let x ← r.typePath true
  newlines
  if ← take .comma then return .again (x :: items)
  else return .done (x :: items).reverse

/-- One round of the loop over parameters, up to what follows the parameter. -/
theorem paramRound_eq {p : TypePath} (h : ReadsPath r p) (signs : ts.map Token.sign = p.signs)
    (row : c.rest = ts ++ t :: rest) (closed : PathEnds c (t :: rest)) (found : List TypePath) :
    ∃ last, (t.kind = .comma → paramRound r found c = .ok (.again (p :: found), past c t rest)) ∧
      (t.kind ≠ .comma → paramRound r found c = .ok (.done (p :: found).reverse, past c last (t :: rest))) := by
  obtain ⟨last, read⟩ := h c ts (t :: rest) signs row closed
  have solid : c.peek.kind ≠ .newline := by
    obtain ⟨s, ss, spelled, first⟩ := exists_signs p
    rw [spelled] at signs
    obtain ⟨u, us, rfl, sign, -⟩ := List.map_eq_cons_iff.mp signs
    rw [peek_of_row row]
    intro newline
    simp [← sign, Token.sign, newline] at first
  have after : (past c last (t :: rest)).skipNewlines = past c last (t :: rest) :=
    Cursor.skipNewlines_of_ne (closed.ne (by decide))
  have row' : (past c last (t :: rest)).rest = t :: rest := rfl
  refine ⟨last, fun comma => ?_, fun other => ?_⟩
  all_goals
    unfold paramRound
    rw [← runs_eq_iff, runs_bind, runs_newlines, Cursor.skipNewlines_of_ne solid, runs_bind]
    refine (runs_of_eq read).mpr ?_
    rw [runs_bind, runs_newlines, after, runs_bind, runs_take, peek_of_row row', advance_of_row row']
  · exact ⟨fun _ => ⟨rfl, rfl⟩, fun other => absurd comma other⟩
  · exact ⟨fun comma => absurd comma other, fun _ => ⟨rfl, rfl⟩⟩

theorem params_read (p : TypePath) (ps found : List TypePath) (h : ∀ q ∈ p :: ps, ReadsPath r q)
    (signs : ts.map Token.sign = p.signs ++ TypePath.moreSigns ps) (row : c.rest = ts ++ rest) :
    ∃ last close, close.kind = .greater ∧
      iterate (paramRound r) found c = .ok (found.reverse ++ p :: ps, past c last (close :: rest)) := by
  induction ps generalizing p found ts c with
  | nil =>
    obtain ⟨front, back, rfl, own, behind⟩ := List.map_eq_append_iff.mp signs
    obtain ⟨close, _, rfl, sign, none⟩ := List.map_eq_cons_iff.mp behind
    obtain rfl := List.map_eq_nil_iff.mp none
    obtain ⟨kind, -⟩ := Prod.mk.inj sign
    obtain ⟨last, -, stops⟩ := paramRound_eq (h p List.mem_cons_self) own
      (show c.rest = front ++ close :: rest from row.trans (by simp)) (by simp [PathEnds, kind]) found
    refine ⟨last, close, kind, iterate_done ((stops (by simp [kind])).trans ?_)⟩
    simp
  | cons q ps ih =>
    rw [List.forall_mem_cons] at h
    obtain ⟨front, back, rfl, own, behind⟩ := List.map_eq_append_iff.mp signs
    obtain ⟨comma, ts, rfl, sign, more⟩ := List.map_eq_cons_iff.mp behind
    obtain ⟨kind, -⟩ := Prod.mk.inj sign
    obtain ⟨-, goesOn, -⟩ := paramRound_eq h.1 own
      (show c.rest = front ++ comma :: (ts ++ rest) from row.trans (by simp)) (by simp [PathEnds, kind]) found
    obtain ⟨last, close, isClose, read⟩ := ih (c := past c comma (ts ++ rest)) q (p :: found) h.2 more rfl
    refine ⟨last, close, isClose, iterate_again (goesOn kind) ?_ (read.trans ?_)⟩
    · rw [row]
      simp [past]
      omega
    · simp [past]

theorem params?_read {params : List TypePath} (h : ∀ q ∈ params, ReadsPath r q)
    (signs : ts.map Token.sign = TypePath.paramSigns params) (row : c.rest = ts ++ rest) (closed : PathEnds c rest) :
    ∃ last found, found.getD [] = params ∧
      (after? .less do
        let params ← separated (r.typePath true)
        let _ ← expect .greater "`>` after type parameters"
        return params) c = .ok (found, past c last rest) := by
  cases params with
  | nil =>
    obtain rfl := List.map_eq_nil_iff.mp signs
    have stop : c.peek.kind ≠ .less := by
      rw [Cursor.peek, row]
      exact closed.ne (by decide)
    refine ⟨c.previous, none, rfl, ?_⟩
    rw [← runs_eq_iff, runs_after?]
    refine ⟨fun found => absurd found stop, fun _ => ⟨rfl, ?_⟩⟩
    cases c
    subst row
    rfl
  | cons p ps =>
    obtain ⟨less, ts, rfl, sign, more⟩ := List.map_eq_cons_iff.mp signs
    obtain ⟨kind, -⟩ := Prod.mk.inj sign
    obtain ⟨last, close, isClose, read⟩ := params_read (c := past c less (ts ++ rest)) p ps [] h more rfl
    have row' : (past (past c less (ts ++ rest)) last (close :: rest)).rest = close :: rest := rfl
    refine ⟨close, some (p :: ps), rfl, ?_⟩
    rw [← runs_eq_iff, runs_after?, peek_of_row row, advance_of_row row]
    refine ⟨fun _ => runs_bind.mpr ((runs_of_eq read).mpr ?_), fun other => absurd kind other⟩
    rw [runs_bind, runs_expect, peek_of_row row', advance_of_row row']
    exact ⟨fun _ => ⟨rfl, rfl⟩, fun other => absurd isClose other⟩

theorem typePath_read {ns : List String} {name : String} {params : List TypePath} {absolute nullable : Bool}
    (h : ∀ q ∈ params, ReadsPath r q)
    (signs : ts.map Token.sign = TypePath.signs ⟨ns, name, params, absolute, nullable⟩)
    (row : c.rest = ts ++ rest) (closed : PathEnds c rest) :
    ∃ last, typePath r true c = .ok (⟨ns, name, params, absolute, nullable⟩, past c last rest) := by
  rw [TypePath.signs, ← List.append_assoc _ _ (TypePath.paramSigns params)] at signs
  obtain ⟨mark, _, rfl, marked, more⟩ := List.map_eq_append_iff.mp signs
  obtain ⟨front, back, rfl, named, behind⟩ := List.map_eq_append_iff.mp more
  have segmentsStop : ((back ++ rest).headD c.eof).kind ≠ .colonColon := by
    cases params with
    | nil =>
      obtain rfl := List.map_eq_nil_iff.mp behind
      exact closed.ne (by decide)
    | cons p ps =>
      obtain ⟨less, back, rfl, sign, -⟩ := List.map_eq_cons_iff.mp behind
      obtain ⟨kind, -⟩ := Prod.mk.inj sign
      simp [kind]
  have whole {d : Cursor} {taken : Bool} (first : take .question c = .ok (taken, d))
    (row : d.rest = front ++ (back ++ rest))
      (same : ∀ last rest, past d last rest = past c last rest) :
      ∃ last, typePath r true c = .ok (⟨ns, name, params, absolute, taken⟩, past c last rest) := by
    have eof : d.eof = c.eof := show (past d c.previous []).eof = _ by rw [same]; rfl
    obtain ⟨last, read⟩ := path_read (ns ++ [name]) (by simp) named row (eof ▸ segmentsStop)
    obtain ⟨last', found, rfl, readParams⟩ :=
      params?_read (c := past d last (back ++ rest)) h behind rfl (show (rest.headD d.eof).kind ∈ _ from eof ▸ closed)
    refine ⟨last', ?_⟩
    unfold typePath
    rw [← runs_eq_iff, runs_bind, runs_of_eq first]
    simp only [Bool.not_true, Bool.and_false, Bool.false_eq_true, if_false]
    rw [runs_bind, runs_of_eq read, runs_bind, runs_of_eq readParams]
    exact ⟨by simp, same last' rest⟩
  cases nullable with
  | true =>
    obtain ⟨question, _, rfl, sign, none⟩ := List.map_eq_cons_iff.mp marked
    obtain rfl := List.map_eq_nil_iff.mp none
    obtain ⟨kind, -⟩ := Prod.mk.inj sign
    rw [List.append_assoc, List.append_assoc] at row
    refine whole (d := past c question (front ++ (back ++ rest))) ?_ rfl fun _ _ => rfl
    rw [← runs_eq_iff, runs_take, peek_of_row row, advance_of_row row]
    exact ⟨fun _ => ⟨rfl, rfl⟩, fun other => absurd kind other⟩
  | false =>
    obtain rfl := List.map_eq_nil_iff.mp marked
    rw [List.nil_append, List.append_assoc] at row
    have other : c.peek.kind ≠ .question := by
      obtain ⟨s, ss, spelled, first⟩ := exists_named ns name absolute
      rw [spelled] at named
      obtain ⟨u, us, rfl, sign, -⟩ := List.map_eq_cons_iff.mp named
      rw [peek_of_row row]
      intro question
      simp [← sign, Token.sign, question] at first
    refine whole (d := c) ?_ row fun _ _ => rfl
    rw [← runs_eq_iff, runs_take]
    exact ⟨fun found => absurd found other, fun _ => ⟨rfl, rfl⟩⟩

theorem length_moreSigns {q : TypePath} {ps : List TypePath} (mem : q ∈ ps) :
    q.signs.length < (TypePath.moreSigns ps).length := by
  induction ps with
  | nil => simp at mem
  | cons p ps ih =>
    rw [TypePath.moreSigns, List.length_cons, List.length_append]
    rcases List.mem_cons.mp mem with rfl | mem
    · omega
    · have := ih mem
      omega

theorem length_paramSigns {q : TypePath} {params : List TypePath} (mem : q ∈ params) :
    q.signs.length < (TypePath.paramSigns params).length := by
  cases params with
  | nil => simp at mem
  | cons p ps => exact (length_moreSigns mem :)

/-- Rules of sufficient depth read every path. -/
theorem readsPath_upTo (p : TypePath) : ∀ n, p.signs.length ≤ n → ReadsPath (.upTo n) p := by
  induction p using TypePath.induction with
  | step ns name params absolute nullable ih =>
    intro n le c ts rest signs row closed
    have filled : 0 < (TypePath.signs ⟨ns, name, params, absolute, nullable⟩).length := by
      obtain ⟨s, ss, spelled, -⟩ := exists_signs ⟨ns, name, params, absolute, nullable⟩
      simp [spelled]
    obtain ⟨n, rfl⟩ : ∃ m, n = m + 1 := ⟨n - 1, by omega⟩
    refine typePath_read (fun q mem => ih q mem n ?_) signs row closed
    have shorter := length_paramSigns mem
    rw [TypePath.signs] at le
    simp only [List.length_append] at le
    omega

theorem declaration_read {p : TypePath} {keyword name colon : Token} (h : ReadsPath r.next p)
    (isVar : keyword.kind = .varKw) (isName : name.kind = .identifier) (isColon : colon.kind = .colon)
    (signs : ts.map Token.sign = p.signs) (row : c.rest = keyword :: name :: colon :: ts) (last : c.eof.kind = .eof) :
    runs (declaration r)
      (fun s d => d.rest = [] ∧ d.eof.kind = .eof ∧ (∃ pos, s = ⟨pos, .var name.lexeme (some p) none⟩) ∧
      d.nextId = c.nextId) (fun _ => False) c := by
  have peek : c.peek.kind = .varKw := by rw [peek_of_row row, isVar]
  have row₁ : c.advance.rest = name :: colon :: ts := by rw [advance_of_row row]; rfl
  have row₂ : c.advance.advance.rest = colon :: ts := by rw [advance_of_row row₁]; rfl
  have same : c.advance.advance.advance = past c colon (ts ++ []) := by
    rw [advance_of_row row₂, advance_of_row row₁, advance_of_row row, List.append_nil]
    rfl
  obtain ⟨final, read⟩ := h (past c colon (ts ++ [])) ts [] signs rfl (by simp [PathEnds, past, last])
  unfold declaration
  rw [runs_bind, runs_of_eq (attributes_of_ne (by simp [peek])), runs_bind, runs_peek, runs_bind, runs_peekNext, peek]
  simp only [List.isEmpty_nil, Bool.not_true, Bool.false_eq_true, if_false]
  unfold statement variableDeclaration annotation?
  rw [if_neg (by simp), if_neg (by simp), runs_bind, runs_peek, peek]
  simp only
  rw [runs_seqRight, runs_advance, runs_bind, runs_previous, runs_bind, runs_expect, peek_of_row row₁]
  refine ⟨fun _ => ?_, fun other => absurd isName other⟩
  rw [runs_bind, runs_after?, peek_of_row row₂, same]
  refine ⟨fun _ => (runs_of_eq read).mpr ?_, fun other => absurd isColon other⟩
  have ended : (past (past c colon (ts ++ [])) final []).peek.kind = .eof := last
  rw [runs_bind, runs_after?, ended]
  refine ⟨fun found => absurd found (by decide), fun _ => ?_⟩
  unfold endStatement
  rw [runs_bind, runs_spanFrom, runs_bind, runs_bind, runs_peek, ended]
  exact ⟨rfl, last, ⟨_, rfl⟩, rfl⟩

end Grammar

/-- The text of a path is read back: behind `var x: `, and whatever its names, flags and parameters are, it gives a
variable of exactly that type, and nothing is reported. -/
theorem readSource_typePath {p : TypePath} (written : p.isWritten = true) (file : String) (nextId : Nat) :
    ∃ pos, readSource ("var x: " ++ p.text) file nextId =
      ⟨.ok ([⟨pos, .var "x" (some p) none⟩], nextId), []⟩ := by
  have spelled : ("var x: " ++ p.text).toList =
      "var".toList ++ (' ' :: ("x".toList ++ (':' :: ' ' :: (p.text.toList ++ [])))) := by simp
  have reads : Scanner.Reads ("var x: " ++ p.text).toList
      ((.varKw, "var") :: (.identifier, "x") :: (.colon, ":") :: (p.signs ++ [])) := by
    have text := Scanner.reads_text p [] [] written (by simp [Scanner.Stops])
      ⟨by simp, fun _ _ => ⟨[], rfl, Scanner.yields_nil⟩⟩
    have var : Scanner.Word .varKw "var" := .of_all rfl rfl rfl
    have x : Scanner.Word .identifier "x" := .of_all rfl rfl rfl
    have blank : Scanner.Ends ' ' := by decide
    have colon : Scanner.Ends ':' := by decide
    rw [spelled]
    exact .word var (by simp [blank]) (.blank (.word x (by simp [colon]) (.colon (by simp) text.blank)))
  obtain ⟨_, signs, yields⟩ := reads.yields file 0
  obtain ⟨keyword, _, rfl, isVar, more⟩ := List.map_eq_cons_iff.mp signs
  obtain ⟨name, _, rfl, isName, more⟩ := List.map_eq_cons_iff.mp more
  obtain ⟨colon, ts, rfl, isColon, more⟩ := List.map_eq_cons_iff.mp more
  rw [List.append_nil] at more
  have tokens := yields.scan_tokens
  have only : ∀ t ∈ keyword :: name :: colon :: ts, t.kind ≠ .eof := by
    obtain ⟨steps, run, rfl', -⟩ := yields
    exact fun t mem => (run.mem_tokensOf file [] (rfl' ▸ mem)).1
  obtain ⟨isVar, -⟩ := Prod.mk.inj isVar
  obtain ⟨isName, nameText⟩ := Prod.mk.inj isName
  obtain ⟨isColon, -⟩ := Prod.mk.inj isColon
  have deep : Grammar.ReadsPath (Rules.upTo ((name :: colon :: ts).length + 1)).next p := by
    refine Grammar.readsPath_upTo p (_ + 1 + 1) ?_
    rw [← more, List.length_map]
    simp
    omega
  obtain ⟨s, next, parsed, ⟨pos, rfl⟩, rfl⟩ := parse_single nextId
    (Q := fun s next => (∃ pos, s = ⟨pos, .var "x" (some p) none⟩) ∧ next = nextId)
    (show Token.kind ⟨.eof, "", none, _⟩ = _ from rfl) only (by simp [isVar])
    fun c row last id => by
      have read := Grammar.declaration_read deep isVar isName isColon more row (by rw [last])
      rwa [nameText, id] at read
  rw [← tokens] at parsed
  refine ⟨pos, ?_⟩
  rw [readSource_of_ok parsed, yields.scan_diagnostics]

/-- Brackets that close side by side, and flags at two levels. -/
theorem readSource_typePath_nested :
    let inner : TypePath :=
      { name := "C", params := [{ ns := ["D"], name := "E", absolute := true }], nullable := true }
    let p : TypePath :=
      { ns := ["A"], name := "B", params := [inner, { name := "F_1" }], absolute := true, nullable := true }
    p.text = "?::A::B<?C<::D::E>,F_1>" ∧ p.isWritten = true ∧
      ∃ pos, readSource ("var x: " ++ p.text) "" 0 = ⟨.ok ([⟨pos, .var "x" (some p) none⟩], 0), []⟩ := by
  intro inner p
  have written : p.isWritten = true := by decide +kernel
  exact ⟨by decide +kernel, written, readSource_typePath written "" 0⟩

end PhaseLang
