import PhaseLang.Php.Printer
import PhaseLang.Proofs.Grammar.Wordings

/-!
# Reading PHP

A reader goes through PHP text and keeps track of strings and brackets. It stops at a bracket that
closes nothing and at a dollar in a string that no backslash stands before. `Moves s before after`
says that it gets through `s` with other brackets to close than before, and `Balanced s` that it gets
through with the same ones, in whatever code `s` stands.
-/

namespace PhaseLang.Php

inductive Reader.Spot where
  | code
  | text
  /-- After a backslash in a string. -/
  | escaped
deriving DecidableEq, Repr

structure Reader where
  spot : Reader.Spot
  /-- What closes the brackets that are open, innermost first. -/
  awaited : List Char
deriving DecidableEq, Repr

namespace Reader

def start : Reader := ⟨.code, []⟩

def closing? : Char → Option Char
  | '(' => some ')'
  | '[' => some ']'
  | '\x7b' => some '\x7d'
  | _ => none

def isClosing (c : Char) : Bool := c == ')' || c == ']' || c == '\x7d'

def await (awaited : List Char) (c : Char) : Option (List Char) :=
  match closing? c with
  | some close => some (close :: awaited)
  | none =>
    if isClosing c then
      match awaited with
      | close :: outer => if c = close then some outer else none
      | [] => none
    else some awaited

def next (r : Reader) (c : Char) : Option Reader :=
  match r.spot with
  | .code => if c = '\x22' then some ⟨.text, r.awaited⟩ else (await r.awaited c).map (⟨.code, ·⟩)
  | .text =>
    if c = '\\' then some ⟨.escaped, r.awaited⟩
    else if c = '\x22' then some ⟨.code, r.awaited⟩
    else if c = '$' then none
    else some r
  | .escaped => some ⟨.text, r.awaited⟩

def read (r : Reader) (cs : List Char) : Option Reader := cs.foldlM next r

theorem read_cons (r : Reader) (c : Char) (cs : List Char) : r.read (c :: cs) = (r.next c).bind (·.read cs) := rfl

theorem read_append (r : Reader) (cs ds : List Char) : r.read (cs ++ ds) = (r.read cs).bind (·.read ds) :=
  List.foldlM_append

/-! ## Code around -/

theorem await_append {awaited after : List Char} {c : Char} (h : await awaited c = some after) (outer : List Char) :
    await (awaited ++ outer) c = some (after ++ outer) := by
  unfold await at h ⊢
  cases opens : closing? c with
  | some close =>
    obtain rfl : close :: awaited = after := by simpa [opens] using h
    rfl
  | none =>
    simp only [opens] at h
    split at h
    · rename_i closes
      rw [if_pos closes]
      cases awaited with
      | nil => simp at h
      | cons close awaited =>
        simp only [List.cons_append] at h ⊢
        split at h
        · rename_i same
          rw [if_pos same]
          exact congrArg some (congrArg (· ++ outer) (Option.some.inj h))
        · simp at h
    · rename_i other
      rw [if_neg other, Option.some.inj h]

/-- Brackets that are open around a text make no difference to a reader that gets through it. -/
theorem next_within {r r' : Reader} {c : Char} (h : r.next c = some r') (outer : List Char) :
    next ⟨r.spot, r.awaited ++ outer⟩ c = some ⟨r'.spot, r'.awaited ++ outer⟩ := by
  obtain ⟨spot, awaited⟩ := r
  unfold next at h ⊢
  cases spot with
  | code =>
    dsimp only at h ⊢
    split at h
    · rename_i quote
      rw [if_pos quote, ← Option.some.inj h]
    · rename_i plain
      obtain ⟨after, found, rfl⟩ := Option.map_eq_some_iff.mp h
      rw [if_neg plain, await_append found outer]
      rfl
  | text =>
    dsimp only at h ⊢
    grind
  | escaped =>
    cases h
    rfl

variable {cs : List Char}

theorem read_within {r r' : Reader} (h : r.read cs = some r') (outer : List Char) :
    read ⟨r.spot, r.awaited ++ outer⟩ cs = some ⟨r'.spot, r'.awaited ++ outer⟩ := by
  induction cs generalizing r with
  | nil =>
    cases h
    rfl
  | cons c cs ih =>
    rw [read_cons] at h ⊢
    obtain ⟨between, first, rest⟩ := Option.bind_eq_some_iff.mp h
    rw [next_within first outer]
    exact ih rest

def isQuiet (c : Char) : Bool := c != '\x22' && (closing? c).isNone && !isClosing c

theorem read_quiet (h : ∀ c ∈ cs, isQuiet c = true) (awaited : List Char) :
    read ⟨.code, awaited⟩ cs = some ⟨.code, awaited⟩ := by
  induction cs with
  | nil => rfl
  | cons c cs ih =>
    have quiet := h c (List.mem_cons_self ..)
    simp only [isQuiet, Bool.and_eq_true, bne_iff_ne, Option.isNone_iff_eq_none, Bool.not_eq_true'] at quiet
    obtain ⟨⟨noQuote, noOpening⟩, noClosing⟩ := quiet
    have stays : next ⟨.code, awaited⟩ c = some ⟨.code, awaited⟩ := by
      simp [next, await, noQuote, noOpening, noClosing]
    rw [read_cons, stays]
    exact ih fun d hd => h d (List.mem_cons_of_mem c hd)

theorem read_escape (closed : escapesClosed cs = true) (awaited : List Char) :
    read ⟨.text, awaited⟩ (escape cs) = some ⟨.text, awaited⟩ := by
  fun_induction escape cs with
  | case1 => rfl
  | case2 => simp [escapesClosed] at closed
  | case3 c cs ih => exact ih (by simpa [escapesClosed] using closed)
  | case4 c cs _ _ special ih =>
    have plain : c ≠ '\\' := by
      rintro rfl
      simp at special
    exact ih (by simpa [escapesClosed, plain] using closed)
  | case5 c cs noEnd noEscape plain ih =>
    rw [not_or] at plain
    have letter : c ≠ '\\' := by
      rintro rfl
      cases cs with
      | nil => exact noEnd rfl rfl
      | cons d cs => exact noEscape d cs rfl rfl
    have stays : next ⟨.text, awaited⟩ c = some ⟨.text, awaited⟩ := by simp [next, letter, plain]
    rw [read_cons, stays]
    exact ih (by simpa [escapesClosed, letter] using closed)

end Reader

/-! ## Texts -/

/-- In code with some brackets to close, a text leaves others to close. -/
def Moves (s : String) (before after : List Char) : Prop := Reader.read ⟨.code, before⟩ s.toList = some ⟨.code, after⟩

instance (s : String) (before after : List Char) : Decidable (Moves s before after) :=
  inferInstanceAs (Decidable (_ = _))

/-- Every string in a text ends there, and every bracket in code that it opens or closes is closed or
opened there. -/
def Balanced (s : String) : Prop := Moves s [] []

instance (s : String) : Decidable (Balanced s) := inferInstanceAs (Decidable (Moves s [] []))

theorem Moves.append {s t : String} {before between after : List Char} (hs : Moves s before between)
    (ht : Moves t between after) : Moves (s ++ t) before after := by
  rw [Moves, String.toList_append, Reader.read_append, show Reader.read _ _ = _ from hs]
  exact ht

variable {s : String}

theorem Balanced.within (h : Balanced s) (around : List Char) : Moves s around around := Reader.read_within h around

theorem Balanced.append {s t : String} (hs : Balanced s) (ht : Balanced t) : Balanced (s ++ t) := Moves.append hs ht

theorem Moves.through {s t : String} {before after : List Char} (hs : Moves s before after) (ht : Balanced t) :
    Moves (s ++ t) before after := hs.append (ht.within after)

theorem Balanced.enclosed {opening s closing : String} (around : List Char) (ho : Moves opening [] around)
    (h : Balanced s) (hc : Moves closing around []) : Balanced (opening ++ s ++ closing) :=
  (ho.through h).append hc

theorem balanced_of_quiet (h : ∀ c ∈ s.toList, Reader.isQuiet c = true) : Balanced s := Reader.read_quiet h []

theorem balanced_quoted {value : String} (closed : escapesClosed value.toList = true) : Balanced (quoted value) := by
  have quote : ("\"" : String).toList = ['\x22'] := by decide
  rw [Balanced, Moves, quoted, String.toList_append, String.toList_append, quote, String.toList_ofList,
    Reader.read_append, Reader.read_append]
  show ((Reader.read ⟨.text, []⟩ (escape value.toList)).bind _) = _
  rw [Reader.read_escape closed]
  rfl

-- A bare dollar in a string, and brackets that cross.
example : ¬ Balanced "\"$a\"" ∧ ¬ Balanced "f([)]" := by decide

theorem balanced_intercalate {separator : String} (hs : Balanced separator) :
    ∀ {texts : List String}, (∀ t ∈ texts, Balanced t) → Balanced (separator.intercalate texts)
  | [], _ => by rw [String.intercalate_nil]; decide
  | [t], h => by simpa using h
  | t :: u :: texts, h => by
    rw [String.intercalate_cons_cons]
    refine ((h t (List.mem_cons_self ..)).append hs).append (balanced_intercalate hs fun v hv => ?_)
    exact h v (List.mem_cons_of_mem t hv)

theorem balanced_join : ∀ {texts : List String}, (∀ t ∈ texts, Balanced t) → Balanced (String.join texts)
  | [], _ => by decide
  | t :: texts, h => by
    rw [String.join_cons]
    exact (h t (List.mem_cons_self ..)).append (balanced_join fun v hv => h v (List.mem_cons_of_mem t hv))

/-! ## Names -/

theorem Reader.isQuiet_of_isWordPart {c : Char} (h : Scanner.isWordPart c = true) : isQuiet c = true := by
  have other {d : Char} (hd : Scanner.isWordPart d = false) : c ≠ d := by
    rintro rfl
    simp [hd] at h
  have opensNone : closing? c = none := by
    unfold closing?
    split
    · exact absurd rfl (other (by decide))
    · exact absurd rfl (other (by decide))
    · exact absurd rfl (other (by decide))
    · rfl
  have quote : c ≠ '\x22' := other (by decide)
  have closesNone : c ≠ ')' ∧ c ≠ ']' ∧ c ≠ '\x7d' := ⟨other (by decide), other (by decide), other (by decide)⟩
  simp [isQuiet, isClosing, opensNone, quote, closesNone]

theorem balanced_of_isWord (h : IsWord s) : Balanced s :=
  balanced_of_quiet fun c hc => Reader.isQuiet_of_isWordPart (h.2 c hc)

theorem balanced_of_isNumber (h : IsNumber s) : Balanced s := by
  refine balanced_of_quiet fun c hc => ?_
  rcases h.2 c hc with digit | rfl
  · exact Reader.isQuiet_of_isWordPart (by simp [Scanner.isWordPart, digit])
  · decide

theorem balanced_literal {value : Literal} (h : value.Clean) : Balanced (Printer.literal value) := by
  cases value with
  | string value => exact balanced_quoted h
  | number digits => exact balanced_of_isNumber h
  | true | false | null => decide

theorem balanced_pathName {p : TypePath} (h : p.Clean) : Balanced (pathName p) :=
  balanced_intercalate (by decide) fun s hs => balanced_of_isWord (h s hs)

theorem balanced_typeName {p : TypePath} (h : p.Clean) : Balanced (typeName p) := by
  have builtins : ∀ {name text : String}, builtinType? name = some text → Balanced text := by
    intro name text found
    unfold builtinType? at found
    split at found <;> cases found <;> decide
  have mark (b : Bool) : Balanced (if b then "?" else "") := by cases b <;> decide
  have root (b : Bool) : Balanced (if b then "\\" else "") := by cases b <;> decide
  unfold typeName
  dsimp only
  split
  · rename_i text found
    exact (mark _).append (builtins found)
  · exact ((mark _).append (root _)).append (balanced_pathName h)

theorem balanced_methodName {name : String} (h : Balanced name) : Balanced (methodName name) := by
  unfold methodName
  split
  · decide
  · exact h

end PhaseLang.Php
