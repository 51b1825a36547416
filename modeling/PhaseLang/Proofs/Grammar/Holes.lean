import PhaseLang.Proofs.Grammar.AgreementDeclarations
import PhaseLang.Proofs.Grammar.Termination
import PhaseLang.Proofs.Token.Depth

/-!
# Where strings go on

Behind a fragment with an open hole the grammar reads an expression and then takes whatever fragment
comes next as the continuation of the string. The scanner has its own account of which fragment
resumes the string. The two agree on a whole source exactly if behind every hole a fragment comes
next that resumes some string, be it this one or not.
-/

namespace PhaseLang

open PhaseLang.Parser

variable {eof : Token} {us ts vs : List Token}

/-- An expression that is read from the tokens `ts` ends before the tokens `us`. Both rows are up to
and with the `eof`. -/
def Embedded (ts us : List Token) : Prop :=
  ∃ n c e c', c.rest ++ [c.eof] = ts ∧ c.rest.length < n ∧ (Rules.upTo n).expression.run c = .ok (e, c') ∧
    c'.rest ++ [c'.eof] = us

/-- In a row of tokens, the grammar and the scanner agree about the parts of each string. -/
structure Aligned (tokens : List Token) : Prop where
  /-- A fragment behind a brace continues the string that was interrupted where the hole was opened. -/
  resumed : ∀ u us, u :: us <:+ tokens → u.resumes → ∃ t ts, t :: ts <:+ tokens ∧ t.kind = .interpolation ∧
    resumption 0 ts = u :: us ∧ Embedded ts (u :: us)
  /-- A fragment with its opening quote continues no string. -/
  started : ∀ u us, u :: us <:+ tokens → u.starts → ∀ t ts, t :: ts <:+ tokens → t.kind = .interpolation →
    ¬ Embedded ts (u :: us)
  /-- The tokens from a hole's opening to its brace are one expression. -/
  whole : ∀ t ts, t :: ts <:+ tokens → t.kind = .interpolation → Embedded ts (resumption 0 ts)

/-! ## One expression -/

variable {ts us : List Token}

theorem Embedded.suffix (h : Embedded (ts ++ [eof]) us) (last : eof.kind = .eof)
    (only : ∀ t ∈ ts, t.kind ≠ .eof) : ∃ us', us = us' ++ [eof] ∧ us' <:+ ts := by
  obtain ⟨n, c, e, c', start, lt, run, rfl⟩ := h
  obtain ⟨rfl, rfl⟩ := List.append_singleton_inj.mp start
  have hr := Rules.upTo_front n
  have moved := hr.expression.advances (Course.front_ready last only) trivial lt
  unfold Advances ends at moved
  rw [StateT.run] at run
  rw [run] at moved
  obtain ⟨eof, t, read, rest⟩ := moved
  exact ⟨c'.rest, by rw [eof], t :: read, rest.symm⟩

theorem embedded_of_run (n : Nat) (ts : List Token) (lt : ts.length < n)
    (run : ((Rules.upTo n).expression.run ⟨eof, ts, eof, false, false, 0⟩).toOption.map
      (fun r => r.2.rest ++ [r.2.eof]) = some us) : Embedded (ts ++ [eof]) us := by
  generalize hc : ({ previous := eof, rest := ts, eof, nextId := 0 } : Cursor) = c at run
  cases h : (Rules.upTo n).expression.run c with
  | error e => simp [h, Except.toOption] at run
  | ok r => exact ⟨n, c, r.1, r.2, hc ▸ rfl, hc ▸ lt, h, by simpa [h, Except.toOption] using run⟩

theorem Embedded.unique (last : eof.kind = .eof)
    (only : ∀ t ∈ ts, t.kind ≠ .eof) (h : Embedded (ts ++ [eof]) us) (h' : Embedded (ts ++ [eof]) vs) : us = vs := by
  obtain ⟨us', hus, suffix⟩ := h.suffix last only
  obtain ⟨vs', hvs, suffix'⟩ := h'.suffix last only
  obtain ⟨n, c, e, c', start, -, run, rfl⟩ := h
  obtain ⟨m, d, f, d', start', -, run', rfl⟩ := h'
  obtain ⟨rfl, rfl⟩ := List.append_singleton_inj.mp start
  obtain ⟨rest, eof⟩ := List.append_singleton_inj.mp start'
  -- Run side by side, nothing but the kinds, lexemes and literals of the tokens counts.
  let B : Bond := ⟨false, ⟨fun _ => 0, fun _ => 0⟩, ⟨fun _ => 0, fun _ => 0⟩, false, true⟩
  have alike : ∀ t, B.Tokens t t := fun t => ⟨rfl, rfl, rfl, rfl, Bool.noConfusion⟩
  have cursors : B.Cursors c d := by
    refine ⟨rfl, ?_, eof ▸ alike _, Bool.noConfusion, Bool.noConfusion, fun _ => rfl⟩
    rw [rest]
    exact List.forall₂_same.mpr fun t _ => alike t
  have both := (Rules.upTo_agrees_upTo (B := B) rfl n m).expression c d cursors
  rw [StateT.run] at run run'
  rw [run, run'] at both
  have length := both.2.rest.length_eq
  obtain ⟨rfl, -⟩ := List.append_singleton_inj.mp hus
  obtain ⟨rfl, -⟩ := List.append_singleton_inj.mp hvs
  have same := (List.suffix_of_suffix_length_le suffix suffix' (Nat.le_of_eq length)).eq_of_length length
  rw [hus, hvs, same]

/-! ## Runs that only close holes -/

def Drops (k : Nat) (ts : List Token) : Prop :=
  ∀ d, depthAfter d ts = if k ≤ d then some (d - k) else none

variable {t : Token}

theorem drops_singleton (h : t.raises = 0) : Drops t.lowers [t] := by
  intro d
  simp [depthAfter, h]

theorem drops_plain (h : t.kind.isPlain = true) : Drops 0 [t] := by
  have : t.isFragment = false := by
    simp only [TokenKind.isPlain, Bool.and_eq_true, bne_iff_ne] at h
    simp [Token.isFragment, h.1.1, h.1.2]
  rw [← Token.lowers_of_not_fragment this]
  exact drops_singleton (Token.raises_of_not_fragment this)

theorem Drops.append {k l : Nat} (h : Drops k ts) (h' : Drops l us) : Drops (k + l) (ts ++ us) := by
  intro d
  rw [depthAfter_append, h d]
  by_cases hk : k ≤ d
  · rw [if_pos hk, Option.bind_some, h']
    by_cases hl : l ≤ d - k
    · rw [if_pos hl, if_pos (by omega), Nat.sub_add_eq]
    · rw [if_neg hl, if_neg (by omega)]
  · rw [if_neg hk, if_neg (by omega)]
    rfl

theorem Drops.hole {k l : Nat} (kind : t.kind = .interpolation) (h : Drops k ts)
    (h' : Drops (1 + l) us) : Drops (t.lowers + (k + l)) (t :: (ts ++ us)) := by
  intro d
  rw [depthAfter, Token.raises_of_kind kind, h.append h']
  by_cases ht : t.lowers ≤ d
  · rw [if_pos ht]
    by_cases hk : k + l ≤ d - t.lowers
    · rw [if_pos (by omega), if_pos (by omega)]
      congr 1
      omega
    · rw [if_neg (by omega), if_neg (by omega)]
  · rw [if_neg ht, if_neg (by omega)]

/-- Every hole that is opened among the tokens `used` holds one expression, if `us` are the tokens
behind them. -/
def Filled (used us : List Token) : Prop :=
  ∀ before t inner, used = before ++ t :: inner → t.kind = .interpolation →
    Embedded (inner ++ us) (resumption 0 (inner ++ us))

theorem filled_nil (us : List Token) : Filled [] us := by
  intro before t inner h
  simp at h

theorem Filled.append (h : Filled ts (us ++ vs)) (h' : Filled us vs) :
    Filled (ts ++ us) vs := by
  intro before t inner split kind
  rcases List.append_eq_append_iff.mp split with ⟨before', rfl, rfl⟩ | ⟨inner', rfl, split'⟩
  · exact h' _ t inner rfl kind
  · cases inner' with
    | nil => exact h' [] t inner split'.symm kind
    | cons u inner' =>
      obtain ⟨rfl, rfl⟩ : t = u ∧ inner = inner' ++ us := List.cons_eq_cons.mp split'
      rw [List.append_assoc]
      exact h _ t inner' rfl kind

theorem filled_singleton (us : List Token)
    (h : t.kind = .interpolation → Embedded us (resumption 0 us)) : Filled [t] us := by
  intro before u inner split kind
  obtain ⟨rfl, rfl, rfl⟩ : before = [] ∧ u = t ∧ inner = [] := by
    simpa [List.singleton_eq_append_iff] using split
  exact h kind

/-- A row of tokens in which behind every hole a fragment comes next that resumes a string. -/
structure Resuming (row : List Token) (eof : Token) : Prop where
  last : eof.kind = .eof
  only : ∀ t ∈ row, t.kind ≠ .eof
  resumed : ∀ t ts, t :: ts <:+ row → t.kind = .interpolation →
    ∃ u us, Embedded (ts ++ [eof]) (u :: us) ∧ u.resumes

namespace Resuming

variable {row : List Token} {eof : Token}

/-- What a run through the tokens `used` up to `us` does. If it closes no hole that was open before
it, it respects the holes that it opens. -/
structure Way (eof : Token) (k : Nat) (used us : List Token) : Prop where
  drops : Drops k used
  filled : k = 0 → Filled used (us ++ [eof])

theorem Way.append {k l : Nat} (h : Way eof k ts (us ++ vs)) (h' : Way eof l us vs) :
    Way eof (k + l) (ts ++ us) vs where
  drops := h.drops.append h'.drops
  filled zero := by
    have filled := h.filled (by omega)
    rw [List.append_assoc] at filled
    exact filled.append (h'.filled (by omega))

def Leads (row : List Token) (eof : Token) (ts us : List Token) : Prop :=
  ts <:+ row → ∃ used k, ts = used ++ us ∧ Way eof k used us

theorem Leads.trans (h : Leads row eof ts us) (h' : Leads row eof us vs) :
    Leads row eof ts vs := by
  intro suffix
  obtain ⟨used, k, rfl, way⟩ := h suffix
  obtain ⟨used', l, rfl, way'⟩ := h' ((List.suffix_append _ _).trans suffix)
  exact ⟨used ++ used', k + l, by simp, way.append way'⟩

/-- Along a string, holes are opened and closed again: beyond that, only what its first fragment and
the expressions inside it close is closed. -/
theorem stitched (h : Resuming row eof)
    (string : Stitched (fun ts us => Embedded (ts ++ [eof]) (us ++ [eof])) (Leads row eof) ts us)
    (suffix : ts <:+ row) :
    ∃ t used k, ts = t :: used ++ us ∧ Drops (t.lowers + k) (t :: used) ∧
      (k = 0 → Filled (t :: used) (us ++ [eof])) := by
  induction string with
  | @last t ts kind =>
    have raises : t.raises = 0 := by simp [Token.raises, kind]
    refine ⟨t, [], 0, rfl, drops_singleton raises, fun _ => filled_singleton _ ?_⟩
    simp [kind]
  | @more t ts us rest kind embedded way tail ih =>
    obtain ⟨inside, k, rfl, inner⟩ := way ((List.suffix_cons _ _).trans suffix)
    obtain ⟨u, used, l, rfl, drops, filled⟩ := ih (((List.suffix_append _ _).trans (List.suffix_cons _ _)).trans suffix)
    obtain ⟨u', us', embedded', resumes⟩ := h.resumed t _ suffix kind
    have only : ∀ x ∈ inside ++ (u :: used ++ rest), x.kind ≠ .eof :=
      fun x hx => h.only x (suffix.mem (List.mem_cons_of_mem _ hx))
    obtain ⟨rfl, -⟩ : u = u' ∧ _ := List.cons_eq_cons.mp (embedded.unique h.last only embedded')
    rw [Token.lowers_of_resumes resumes] at drops
    refine ⟨t, inside ++ u :: used, k + l, by simp, inner.drops.hole kind drops, fun zero => ?_⟩
    obtain ⟨rfl, rfl⟩ : k = 0 ∧ l = 0 := by omega
    -- No hole from outside is closed inside, so `u` is where this hole ends.
    have ends : resumption 0 (inside ++ (u :: used ++ rest ++ [eof])) = u :: used ++ rest ++ [eof] := by
      rw [resumption_append (inner.drops 0)]
      exact resumption_of_resumes resumes _
    rw [List.append_assoc] at embedded
    have first : Filled [t] ((inside ++ u :: used) ++ (rest ++ [eof])) := by
      refine filled_singleton _ fun _ => ?_
      simp only [List.append_assoc, List.cons_append] at ends embedded ⊢
      rwa [ends]
    refine first.append (Filled.append ?_ (filled rfl))
    simpa using inner.filled rfl

theorem leads_refl (ts : List Token) : Leads row eof ts ts :=
  fun _ => ⟨[], 0, rfl, fun _ => rfl, fun _ => filled_nil _⟩

theorem leads_plain (kind : t.kind.isPlain = true) : Leads row eof (t :: ts) ts := by
  refine fun _ => ⟨[t], 0, rfl, drops_plain kind, fun _ => filled_singleton _ fun interpolation => ?_⟩
  simp [TokenKind.isPlain, interpolation] at kind

theorem leads_of_stitched (h : Resuming row eof)
    (string : Stitched (fun ts us => Embedded (ts ++ [eof]) (us ++ [eof])) (Leads row eof) ts us) :
    Leads row eof ts us := by
  intro suffix
  obtain ⟨t, used, k, split, drops, filled⟩ := h.stitched string suffix
  exact ⟨t :: used, t.lowers + k, split, drops, fun zero => filled (by omega)⟩

def course (h : Resuming row eof) : Course where
  Knows _ := True
  Closes t := t = eof
  closes same := ⟨same ▸ h.last, trivial⟩
  Embeds ts us := Embedded (ts ++ [eof]) (us ++ [eof])
  Leads := Leads row eof
  refl := leads_refl
  trans := Leads.trans
  plain := leads_plain
  stitched := h.leads_of_stitched

theorem embeds (h : Resuming row eof) (n : Nat) (c : Cursor) (ready : h.course.Ready c) (lt : c.rest.length < n) :
    wp (Rules.upTo n).expression (fun _ c' => h.course.Embeds c.rest c'.rest) c := by
  intro e c' run
  have closed : c.eof = eof := ready.eof
  have embedded : Embedded (c.rest ++ [eof]) (c'.rest ++ [c'.eof]) := ⟨n, c, e, c', by rw [closed], lt, run, rfl⟩
  obtain ⟨us, split, -⟩ := embedded.suffix h.last fun t ht => (ready.inner t ht).1
  obtain ⟨-, eof⟩ := List.append_singleton_inj.mp split
  rwa [eof] at embedded

end Resuming

/-! ## Whole sources -/

theorem exists_parsed {tokens : List Token} {nextId : Nat} (h : (parse tokens nextId).isOk = true) :
    ∃ parsed, parse tokens nextId = .ok parsed := by
  cases parsed : parse tokens nextId with
  | ok r => exact ⟨r, rfl⟩
  | error e => simp [parsed, Except.isOk, Except.toBool] at h

theorem program_wp (r : Rules) (c : Cursor) : wp (Grammar.program r) (fun _ c' => c'.peek.kind = .eof) c := by
  unfold Grammar.program itemsUntil
  rw [wp_bind]
  refine fun _ c _ => wp_iterate (I := fun _ _ => True) trivial fun items c _ => ?_
  rw [wp_bind, wp_peek]
  dsimp only
  split
  · rename_i stop
    simpa using stop
  · rw [wp_bind]
    intro x c' _
    rw [wp_bind]
    exact fun _ _ _ => (wp_pure _).mpr trivial

/-- If a row is accepted, its holes are balanced and behind each a fragment comes next that resumes a
string, then each hole holds one expression. -/
theorem Resuming.filled {row : List Token} (h : Resuming row eof)
    (balanced : depthAfter 0 (row ++ [eof]) = some 0) {nextId : Nat} {parsed : List Stmt × Nat}
    (accepted : parse (row ++ [eof]) nextId = .ok parsed) : Filled row [eof] := by
  obtain ⟨previous, start⟩ := Cursor.ofTokens?_append h.last h.only nextId
  unfold parse at accepted
  rw [start] at accepted
  dsimp only at accepted
  split at accepted <;> cases accepted
  rename_i program c' run
  have ready : h.course.Ready { previous, rest := row, eof, nextId } :=
    ⟨rfl, fun t ht => ⟨h.only t ht, trivial⟩, trivial⟩
  have built := (Grammar.program_builds (Rules.upTo_build h.embeds (row.length + 1))).lays [] _ ready trivial
  rw [StateT.run] at run
  have laid := ((runs_of_eq run).mp built).1
  obtain ⟨used, k, split, way⟩ := laid.way.leads (Nat.lt_succ_self _) (List.suffix_refl _)
  have stopped := program_wp _ _ _ _ run
  have rest : c'.rest = [] := by
    cases hc : c'.rest with
    | nil => rfl
    | cons t ts =>
      simp only [Cursor.peek, hc, List.headD_cons] at stopped
      exact absurd stopped (laid.way.ready.inner t (by simp [hc])).1
  rw [rest, List.append_nil] at split
  obtain rfl : row = used := split
  have zero : k = 0 := by
    by_contra pos
    rw [depthAfter_append, way.drops, if_neg (by omega)] at balanced
    cases balanced
  simpa [rest] using way.filled zero

theorem suffix_of_kind_ne {row : List Token} {t : Token} (last : eof.kind = .eof) (kind : t.kind ≠ .eof)
    (suffix : t :: ts <:+ row ++ [eof]) : ∃ ts', ts = ts' ++ [eof] ∧ t :: ts' <:+ row := by
  obtain ⟨before, split⟩ := suffix
  rcases List.eq_nil_or_concat ts with rfl | ⟨ts', x, rfl⟩
  · obtain ⟨-, rfl⟩ := List.append_singleton_inj.mp split
    exact absurd last kind
  · rw [List.concat_eq_append, ← List.cons_append, ← List.append_assoc] at split
    obtain ⟨rfl, rfl⟩ := List.append_singleton_inj.mp split
    exact ⟨ts', List.concat_eq_append, List.suffix_append _ _⟩

theorem Filled.aligned {row : List Token} (filled : Filled row [eof]) (last : eof.kind = .eof)
    (only : ∀ t ∈ row, t.kind ≠ .eof) (balanced : depthAfter 0 (row ++ [eof]) = some 0) :
    Aligned (row ++ [eof]) := by
  have whole : ∀ t ts, t :: ts <:+ row ++ [eof] → t.kind = .interpolation → Embedded ts (resumption 0 ts) := by
    intro t ts suffix kind
    obtain ⟨ts, rfl, before, rfl⟩ := suffix_of_kind_ne last (by simp [kind]) suffix
    exact filled before t ts rfl kind
  refine ⟨?resumed, ?started, whole⟩
  case resumed =>
    intro u us suffix resumes
    obtain ⟨t, inner, outer, kind, ends⟩ := opening_of_balanced balanced suffix resumes
    have embedded := whole t _ outer kind
    rw [ends] at embedded
    exact ⟨t, _, outer, kind, ends, embedded⟩
  case started =>
    intro u us _ starts t ts suffix kind embedded
    obtain ⟨v, vs, ends, resumes⟩ := resumption_of_balanced balanced suffix kind
    have embedded' := whole t ts suffix kind
    rw [ends] at embedded'
    obtain ⟨ts, rfl, inside⟩ := suffix_of_kind_ne last (by simp [kind]) suffix
    have inner : ∀ x ∈ ts, x.kind ≠ .eof := fun x hx => only x (inside.mem (List.mem_cons_of_mem _ hx))
    obtain ⟨rfl, -⟩ := List.cons_eq_cons.mp (embedded.unique last inner embedded')
    exact Bool.false_ne_true ((Token.not_resumes_of_starts starts).symm.trans resumes)

/-- In a source that is scanned without errors and accepted, the grammar and the scanner agree about
the parts of each string exactly if behind every hole a fragment comes next that resumes a string. -/
theorem aligned_iff_resumes {source file : String} {nextId : Nat} {parsed : List Stmt × Nat}
    (clean : (scan source file).diagnostics = []) (accepted : parse (scan source file).tokens nextId = .ok parsed) :
    Aligned (scan source file).tokens ↔
      ∀ t ts, t :: ts <:+ (scan source file).tokens → t.kind = .interpolation →
        ∃ u us, Embedded ts (u :: us) ∧ u.resumes := by
  have balanced := scan_balanced clean
  constructor
  · intro aligned t ts suffix kind
    obtain ⟨u, us, ends, resumes⟩ := resumption_of_balanced balanced suffix kind
    exact ⟨u, us, ends ▸ aligned.whole t ts suffix kind, resumes⟩
  · intro resumed
    obtain ⟨steps, final, run⟩ := Scanner.exists_scan_run source
    have only := fun t ht => (run.mem_tokensOf file [] (t := t) ht).1
    rw [run.scan_tokens] at balanced accepted resumed ⊢
    refine Filled.aligned (Resuming.filled ⟨rfl, only, fun t ts suffix kind => ?_⟩ balanced accepted) rfl only balanced
    refine resumed t _ ?_ kind
    obtain ⟨before, split⟩ := suffix
    exact ⟨before, by simp [← split]⟩

/-- A string inside a string. -/
theorem aligned_iff_resumes_nested :
    (scan "\"a$\x7b\"b$\x7bc\x7dd\"\x7de\"" "").diagnostics = [] ∧
      (∃ parsed, parse (scan "\"a$\x7b\"b$\x7bc\x7dd\"\x7de\"" "").tokens 0 = .ok parsed) ∧
      Aligned (scan "\"a$\x7b\"b$\x7bc\x7dd\"\x7de\"" "").tokens := by
  have clean : (scan "\"a$\x7b\"b$\x7bc\x7dd\"\x7de\"" "").diagnostics = [] := by decide +kernel
  have accepted : ∃ parsed, parse (scan "\"a$\x7b\"b$\x7bc\x7dd\"\x7de\"" "").tokens 0 = .ok parsed :=
    exists_parsed (by decide +kernel)
  have tokens : (scan "\"a$\x7b\"b$\x7bc\x7dd\"\x7de\"" "").tokens =
      [⟨.interpolation, "\"a$\x7b", some "a", ⟨0, 4, ""⟩⟩, ⟨.interpolation, "\"b$\x7b", some "b", ⟨4, 8, ""⟩⟩,
        ⟨.identifier, "c", none, ⟨8, 9, ""⟩⟩, ⟨.string, "\x7dd\"", some "d", ⟨9, 12, ""⟩⟩,
        ⟨.string, "\x7de\"", some "e", ⟨12, 15, ""⟩⟩, ⟨.eof, "", none, ⟨15, 15, ""⟩⟩] := by decide +kernel
  refine ⟨clean, accepted, (aligned_iff_resumes clean accepted.choose_spec).mpr ?_⟩
  rw [tokens]
  intro t ts suffix kind
  simp only [List.suffix_cons_iff, List.suffix_nil, List.cons.injEq, reduceCtorEq, or_false] at suffix
  rcases suffix with ⟨rfl, rfl⟩ | ⟨rfl, rfl⟩ | ⟨rfl, rfl⟩ | ⟨rfl, rfl⟩ | ⟨rfl, rfl⟩ | ⟨rfl, rfl⟩
  · refine ⟨⟨.string, "\x7de\"", some "e", ⟨12, 15, ""⟩⟩, [⟨.eof, "", none, ⟨15, 15, ""⟩⟩], ?_, by decide +kernel⟩
    exact embedded_of_run 6 [_, _, _, _] (by decide +kernel) (by decide +kernel)
  · refine ⟨⟨.string, "\x7dd\"", some "d", ⟨9, 12, ""⟩⟩,
      [⟨.string, "\x7de\"", some "e", ⟨12, 15, ""⟩⟩, ⟨.eof, "", none, ⟨15, 15, ""⟩⟩], ?_, by decide +kernel⟩
    exact embedded_of_run 6 [_, _, _] (by decide +kernel) (by decide +kernel)
  all_goals cases kind

/-- Behind an empty hole the rest of the string is read as the expression inside the hole, and the
next string as the rest. -/
theorem string_resumed_by_next_string :
    (scan "\"a$\x7b\x7db\" \"c\"" "").diagnostics = [] ∧
      (∃ parsed, parse (scan "\"a$\x7b\x7db\" \"c\"" "").tokens 0 = .ok parsed) ∧
      ¬ Aligned (scan "\"a$\x7b\x7db\" \"c\"" "").tokens := by
  have clean : (scan "\"a$\x7b\x7db\" \"c\"" "").diagnostics = [] := by decide +kernel
  have accepted : ∃ parsed, parse (scan "\"a$\x7b\x7db\" \"c\"" "").tokens 0 = .ok parsed :=
    exists_parsed (by decide +kernel)
  refine ⟨clean, accepted, fun aligned => ?_⟩
  have tokens : (scan "\"a$\x7b\x7db\" \"c\"" "").tokens =
      [⟨.interpolation, "\"a$\x7b", some "a", ⟨0, 4, ""⟩⟩, ⟨.string, "\x7db\"", some "b", ⟨4, 7, ""⟩⟩,
        ⟨.string, "\"c\"", some "c", ⟨8, 11, ""⟩⟩, ⟨.eof, "", none, ⟨11, 11, ""⟩⟩] := by decide +kernel
  rw [tokens] at aligned
  refine aligned.started ⟨.string, "\"c\"", some "c", ⟨8, 11, ""⟩⟩ [_] ⟨[_, _], rfl⟩ (by decide +kernel)
    _ _ ⟨[], rfl⟩ rfl ?_
  exact embedded_of_run 3 [_, _] (by decide +kernel) (by decide +kernel)

end PhaseLang
