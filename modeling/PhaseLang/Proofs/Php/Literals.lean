import PhaseLang.Php.Name
import PhaseLang.Proofs.Grammar.Phrases

/-!
# Literals between quotes

What the scanner takes for one string and what `escape` makes of a text are split into the same escapes: a literal of
any scan, escaped and put between quotes, is scanned as one string again (`scan_quoted_literal`).
-/

namespace PhaseLang

open Php

/-! ## Escaped texts -/

theorem Php.escape_cons {c : Char} (plain : c ≠ '\\') (cs : List Char) :
    escape (c :: cs) = if c = '\x22' ∨ c = '$' then '\\' :: c :: escape cs else c :: escape cs :=
  escape.eq_4 c cs (fun h _ => plain h) (fun _ _ h _ => plain h)

theorem Php.escape_escape (cs : List Char) : escape (escape cs) = escape cs := by
  fun_induction escape cs with
  | case1 => rfl
  | case2 => rfl
  | case3 c cs ih => rw [escape, ih]
  | case4 c cs _ _ _ ih => rw [escape, ih]
  | case5 c cs noEnd noEscape special ih => rw [escape_cons (Scanner.not_escape noEnd noEscape), if_neg special, ih]

namespace Scanner

/-- Nothing in an escaped text ends a string in double quotes. -/
theorem fragmentLength_escape {cs : List Char} (closed : escapesClosed cs = true) (tail : List Char) :
    fragmentLength '\x22' (escape cs ++ '\x22' :: tail) = ((escape cs).length, .quote) := by
  fun_induction escape cs with
  | case1 => simp [fragmentLength_cons]
  | case2 => simp [escapesClosed] at closed
  | case3 c cs ih => simp [fragmentLength, ih (by simpa [escapesClosed] using closed)]
  | case4 c cs noEnd noEscape _ ih =>
    have plain := not_escape noEnd noEscape
    simp [fragmentLength, ih (by simpa [escapesClosed, plain] using closed)]
  | case5 c cs noEnd noEscape special ih =>
    have plain := not_escape noEnd noEscape
    rw [not_or] at special
    rw [List.cons_append, fragmentLength_cons plain fun dollar => absurd dollar special.2, if_neg special.1,
      ih (by simpa [escapesClosed, plain] using closed), List.length_cons]

/-! ## Scans of quoted texts -/

theorem toList_quoted (value : String) : (quoted value).toList = '\x22' :: (escape value.toList ++ ['\x22']) := by
  simp [quoted]

theorem run_quoted {value : String} (closed : escapesClosed value.toList = true) :
    Run [] (quoted value).toList
      [{ kind := some .string, lexeme := (quoted value).toList, literal := some (escape value.toList), rest := [],
         holes := [] }] [] := by
  have whole :
      fragmentLength '\x22' (escape value.toList ++ ['\x22'] ++ []) = ((escape value.toList).length, .quote) := by
    rw [List.append_nil]
    exact fragmentLength_escape closed []
  have rule := @Lexes.string [] _ _ _ _ _ (.quote (c := '\x22') (by decide)) whole
  rw [List.append_nil] at rule
  rw [toList_quoted]
  exact .step rule .done

/-- The scan of a text that is one string token. -/
theorem scan_quoted {value : String} (closed : escapesClosed value.toList = true) (file : String) :
    scan (quoted value) file =
      { tokens :=
          [⟨.string, quoted value, some (String.ofList (escape value.toList)), ⟨0, (quoted value).utf8ByteSize, file⟩⟩,
           ⟨.eof, "", none, ⟨(quoted value).utf8ByteSize, (quoted value).utf8ByteSize, file⟩⟩]
        diagnostics := [] } := by
  have run := run_quoted closed
  have tokens := run.scan_tokens file
  have silent := (run.scan_diagnostics file).mpr ⟨by simp, rfl⟩
  simp only [tokensOf, Step.token?, Option.map_some, Option.toList_some, List.append_nil, Text.byteLength_toList,
    Nat.zero_add, String.ofList_toList] at tokens
  cases found : scan (quoted value) file with
  | mk ts ds =>
    rw [found] at tokens silent
    rw [show ts = _ from tokens, show ds = _ from silent]
    rfl

/-! ## Literals of tokens -/

theorem Lexes.literal_isSome {holes : List Hole} {cs : List Char} {s : Step} (h : Lexes holes cs s)
    {kind : TokenKind} (hkind : s.kind = some kind) (text : kind.isText = true) : s.literal.isSome := by
  cases h with
  | string => rfl
  | hole => rfl
  | missing => simp at hkind
  | code out h =>
    cases h with
    | number => rfl
    | blank => simp at hkind
    | comment => simp at hkind
    | stray => simp at hkind
    | newline =>
      cases hkind
      simp [TokenKind.isText] at text
    | word =>
      cases hkind
      simp [isText_wordKind] at text
    | symbol _ _ found =>
      cases hkind
      have plain : ∀ kind ∈ TokenKind.symbols, kind.isText = false := by decide
      simp [plain _ (symbol?_eq_some found).2.2] at text

theorem Run.literal_isSome {holes final : List Hole} {cs : List Char} {steps : List Step}
    (r : Run holes cs steps final) (file : String) (lo : Nat) {t : Token} (ht : t ∈ tokensOf file lo steps)
    (text : t.kind.isText = true) : t.literal.isSome := by
  induction r generalizing lo with
  | done => simp [tokensOf] at ht
  | step l more ih =>
    rcases mem_tokensOf_cons.mp ht with found | later
    · obtain ⟨kind, hkind, rfl⟩ := Option.map_eq_some_iff.mp found
      simpa using l.literal_isSome hkind text
    · exact ih _ later

end Scanner

/-- Every literal of a string token or of a string fragment, in whichever quotes it stood, can be escaped and put
between double quotes: the scan of that text is one string, whose literal is the escaped text, and nothing is reported.
Escaping a second time changes no text at all. -/
theorem scan_quoted_literal (source file target : String) :
    (∀ t ∈ (scan source file).tokens, t.kind = .string ∨ t.kind = .interpolation →
      ∃ literal, t.literal = some literal ∧
        scan (quoted literal) target =
          { tokens :=
              [⟨.string, quoted literal, some (String.ofList (escape literal.toList)),
                ⟨0, (quoted literal).utf8ByteSize, target⟩⟩,
               ⟨.eof, "", none, ⟨(quoted literal).utf8ByteSize, (quoted literal).utf8ByteSize, target⟩⟩]
            diagnostics := [] }) ∧
      ∀ s : String, escape (escape s.toList) = escape s.toList := by
  refine ⟨fun t ht text => ?_, fun s => escape_escape _⟩
  obtain ⟨steps, final, r⟩ := Scanner.exists_scan_run source
  have clean := (scan_clean source file t ht).string text
  have written : t.literal.isSome := by
    rw [r.scan_tokens, List.mem_append, List.mem_singleton] at ht
    rcases ht with ht | rfl
    · exact r.literal_isSome file 0 ht (by rcases text with text | text <;> rw [text] <;> rfl)
    · simp at text
  obtain ⟨literal, found⟩ := Option.isSome_iff_exists.mp written
  rw [Token.text, found, Option.getD_some] at clean
  exact ⟨literal, found, Scanner.scan_quoted clean target⟩

end PhaseLang
