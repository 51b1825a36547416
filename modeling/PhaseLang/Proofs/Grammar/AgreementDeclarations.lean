import PhaseLang.Proofs.Grammar.AgreementExpressions
import PhaseLang.Proofs.Grammar.Termination

/-!
# Declarations in two readings

Every rule for statements, members, classes and namespaces agrees with itself, if the rules that it
calls do; and so do all rules, by induction on how deep they nest.
-/

namespace PhaseLang.Grammar

open PhaseLang.Parser

/-! ## What the grammar makes of trees -/

section
variable (v : Sketch)

theorem toBlock_sketch (s : Stmt) : v.stmt s.toBlock = (v.stmt s).toBlock := by
  obtain ⟨pos, kind⟩ := s
  cases kind <;> simp [Stmt.toBlock, Sketch.nowhere]

theorem prepend_sketch (ss : List Stmt) (s : Stmt) : v.stmt (prepend ss s) = prepend (ss.map v.stmt) (v.stmt s) := by
  obtain ⟨pos, kind⟩ := s
  cases kind <;> simp [prepend]

@[simp] theorem member_name (m : Member) : (v.member m).name = m.name := by
  cases m
  rfl

theorem asAbstract_sketch (m : Member) : v.member (asAbstract m) = asAbstract (v.member m) := by
  obtain ⟨name, kind, modifiers, attributes, pos⟩ := m
  by_cases h : Modifier.isAbstract ∈ modifiers <;> simp [asAbstract, Member.has, h]

theorem promotedFields_sketch (m : Member) (found : List Member) :
    (promotedFields m found).map v.member = promotedFields (v.member m) (found.map v.member) := by
  have step (ps : List Param) : ∀ fields : List Member,
      (ps.foldl (fun fields p => if (found ++ fields).any (·.name == p.name) then fields
        else fields ++ [⟨p.name, .field p.type none, [.isPublic], [], p.pos⟩]) fields).map v.member =
      (ps.map v.param).foldl (fun fields p => if (found.map v.member ++ fields).any (·.name == p.name) then fields
        else fields ++ [⟨p.name, .field p.type none, [.isPublic], [], p.pos⟩]) (fields.map v.member) := by
    induction ps with
    | nil => exact fun _ => rfl
    | cons p ps ih =>
      intro fields
      rw [List.foldl_cons, List.map_cons, List.foldl_cons, ih]
      congr 1
      simp only [List.any_append, List.any_map, Function.comp_def, member_name, Sketch.param]
      split
      · rfl
      · simp [Sketch.nowhere]
  obtain ⟨name, kind, modifiers, attributes, pos⟩ := m
  cases kind with
  | method f =>
    obtain ⟨fname, params, body, result, as, fpos⟩ := f
    have filtered : (params.map v.param).filter (·.promoted) = (params.filter (·.promoted)).map v.param := by
      simp [List.filter_map, Function.comp_def, Sketch.param]
    simp only [promotedFields, Sketch.member, Sketch.memberKind, Sketch.func, Sketch.params_eq, filtered]
    exact step _ []
  | _ => rfl

theorem withPromotedFields_sketch (ms : List Member) :
    (withPromotedFields ms).map v.member = withPromotedFields (ms.map v.member) := by
  have step (ms : List Member) : ∀ found : List Member,
      (ms.foldl (fun found m => found ++ promotedFields m found ++ [m]) found).map v.member =
        (ms.map v.member).foldl (fun found m => found ++ promotedFields m found ++ [m]) (found.map v.member) := by
    induction ms with
    | nil => exact fun _ => rfl
    | cons m ms ih =>
      intro found
      rw [List.foldl_cons, List.map_cons, List.foldl_cons, ih]
      simp only [List.map_append, promotedFields_sketch, List.map_cons, List.map_nil]
  exact step ms []

end

/-! ## Synthesized statements -/

section
variable {v w : Sketch}

theorem promotion_sketch {i j : Nat} (ids : ∀ n, v.id (i + n) = w.id (j + n)) (name : String) :
    v.stmt (Synthesis.promotion i name) = w.stmt (Synthesis.promotion j name) := by
  have first := ids 0
  simp [Synthesis.promotion, ids, show v.id i = w.id j from first]

theorem nameList_sketch (names : List String) : ∀ {i j : Nat} (start stop : Nat),
    (∀ n, v.id (i + n) = w.id (j + n)) →
    (Synthesis.nameList i start names).1.map v.expr = (Synthesis.nameList j stop names).1.map w.expr := by
  induction names with
  | nil => exact fun _ _ _ => rfl
  | cons name names ih =>
    intro i j start stop ids
    have first := ids 0
    cases names with
    | nil => simp [Synthesis.nameList, show v.id i = w.id j from first]
    | cons other names =>
      have later := @ih (i + 1) (j + 1) (start + name.utf8ByteSize + 2) (stop + name.utf8ByteSize + 2) fun n => by
        rw [Nat.add_assoc, Nat.add_assoc]
        exact ids (1 + n)
      unfold Synthesis.nameList
      simp [show v.id i = w.id j from first, later]

theorem factory_sketch {i j : Nat} (ids : ∀ n, v.id (i + n) = w.id (j + n)) (enumName caseName : String) (index : Nat)
    (names : List String) : v.stmt (Synthesis.factory i enumName caseName index names) =
      w.stmt (Synthesis.factory j enumName caseName index names) := by
  have first := ids 0
  have items (start stop : Nat) := @nameList_sketch v w names (i + 3) (j + 3) start stop fun n => by
    rw [Nat.add_assoc, Nat.add_assoc]
    exact ids (3 + n)
  simpa [Synthesis.factory, Nat.add_assoc, ids, show v.id i = w.id j from first, Sketch.arg] using items _ _

end

/-! ## Texts in what the grammar makes -/

section
variable {A : Wording → Prop}

theorem fits_toBlock {s : Stmt} : Fits A (Worded.ofStmt s.toBlock) ↔ Fits A (Worded.ofStmt s) := by
  obtain ⟨pos, kind⟩ := s
  cases kind <;> simp [Stmt.toBlock]

theorem fits_prepend {ss : List Stmt} {s : Stmt} (hs : Fits A (ss.flatMap Worded.ofStmt))
    (h : Fits A (Worded.ofStmt s)) : Fits A (Worded.ofStmt (prepend ss s)) := by
  obtain ⟨pos, kind⟩ := s
  cases kind <;> simp_all [prepend]

theorem fits_asAbstract {m : Member} (h : Fits A (Worded.ofMember m)) : Fits A (Worded.ofMember (asAbstract m)) := by
  obtain ⟨name, kind, modifiers, attributes, pos⟩ := m
  unfold asAbstract
  split <;> exact h

theorem fits_promotedFields {m : Member} (h : Fits A (Worded.ofMember m)) (found : List Member) :
    Fits A ((promotedFields m found).flatMap Worded.ofMember) := by
  have step (ps : List Param) : ∀ fields : List Member, Fits A (ps.flatMap Worded.ofParam) →
      Fits A (fields.flatMap Worded.ofMember) →
      Fits A ((ps.foldl (fun fields p => if (found ++ fields).any (·.name == p.name) then fields
        else fields ++ [⟨p.name, .field p.type none, [.isPublic], [], p.pos⟩]) fields).flatMap Worded.ofMember) := by
    induction ps with
    | nil => exact fun _ _ hf => hf
    | cons p ps ih =>
      intro fields hp hf
      simp only [List.flatMap_cons, Worded.ofParam, fits_append, fits_cons] at hp
      refine ih _ hp.2 ?_
      beta_reduce
      split
      · exact hf
      · simp [hf, hp, Worded.ofMemberName]
  obtain ⟨name, kind, modifiers, attributes, pos⟩ := m
  cases kind with
  | method f =>
    obtain ⟨fname, params, body, result, as, fpos⟩ := f
    refine step _ [] ?_ (by simp)
    simp only [Worded.ofMember, Worded.ofMemberKind, Worded.ofFunc, Worded.ofParams_eq, fits_append] at h
    exact fits_flatMap.mpr fun p hp => fits_flatMap.mp h.1.2.1.1.1 p (List.mem_filter.mp hp).1
  | _ => simp [promotedFields]

theorem fits_withPromotedFields {ms : List Member} (h : Fits A (ms.flatMap Worded.ofMember)) :
    Fits A ((withPromotedFields ms).flatMap Worded.ofMember) := by
  have step (ms : List Member) : ∀ found : List Member, Fits A (ms.flatMap Worded.ofMember) →
      Fits A (found.flatMap Worded.ofMember) →
      Fits A ((ms.foldl (fun found m => found ++ promotedFields m found ++ [m]) found).flatMap Worded.ofMember) := by
    induction ms with
    | nil => exact fun _ _ hf => hf
    | cons m ms ih =>
      intro found hm hf
      rw [List.flatMap_cons, fits_append] at hm
      exact ih _ hm.2 (by simp [hf, hm.1, fits_promotedFields hm.1])
  exact step ms [] h (by simp)

theorem fits_nameList : ∀ {names : List String}, (∀ name ∈ names, A (.name name)) →
    ∀ id start : Nat, Fits A ((Synthesis.nameList id start names).1.flatMap Worded.ofExpr)
  | [], _, _, _ => by simp [Synthesis.nameList]
  | [name], h, _, _ => by simpa [Synthesis.nameList] using h
  | name :: other :: names, h, id, start => by
    have rest := fits_nameList (fun n hn => h n (List.mem_cons_of_mem name hn)) (id + 1) (start + name.utf8ByteSize + 2)
    unfold Synthesis.nameList
    simp [h name (List.mem_cons_self ..), rest]

end

section
variable {B : Bond} {r r' : Rules}

theorem fits_factory {enumName caseName : String} {names : List String} (he : B.Clean (.name enumName))
    (hc : B.Clean (.name caseName)) (hn : ∀ name ∈ names, B.Clean (.name name)) (id index : Nat) :
    Fits B.Clean (Worded.ofStmt (Synthesis.factory id enumName caseName index names)) := by
  have path : B.Clean (.path (.ofName enumName)) := fun worded => TypePath.clean_ofName (he worded)
  have ordinal : B.Clean (.literal (.number index.repr)) := fun _ => isNumber_toString index
  have label : B.Clean (.literal (.string caseName)) := fun worded => IsWord.escapesClosed (hc worded)
  simp [Synthesis.factory, Worded.ofArg, path, ordinal, label, fits_nameList hn]

theorem clean_enumBase : B.Clean (.path enumBase) := by
  have segments : enumBase.segments = ["Std", "PhaseEnum"] := by decide +kernel
  refine Bond.clean_of ?_
  simp only [Wording.clean_path, TypePath.Clean, segments, List.forall_mem_cons]
  exact ⟨by decide, by decide, by simp⟩

/-! ## Surroundings -/

/-- A check of whether we are in a namespace. Readings in different surroundings go on together only
if neither of them fails here. -/
theorem agrees_unless {α β : Type} {R : α → β → Prop} {p : Parser α} {q : Parser β} {f : Unit → Parser α}
    {g : Unit → Parser β} (test : Bool → Bool) (t u : Token) (problem : SyntaxProblem) (h : Agrees B R p q) :
    Agrees B R (do if test (← get).inNamespace then failAt t problem >>= f else p)
      (do if test (← get).inNamespace then failAt u problem >>= g else q) := by
  refine agrees_get.bind fun c d hc => ?_
  cases strict : B.strict with
  | true =>
    rw [hc.inNamespace strict]
    exact agrees_ite (agrees_failAt_bind t u) h
  | false =>
    split
    · exact fun _ _ _ => Bond.outcomes_error_left (.inl strict)
    · split
      · exact fun _ _ _ => Bond.outcomes_error_right (.inl strict)
      · exact h

theorem agrees_bodiless {α β : Type} {R : α → β → Prop} {p p' : Parser α} {q q' : Parser β} (isAbstract : Bool)
    (what : String) (h : Agrees B R p q) (h' : Agrees B R p' q') :
    Agrees B R
      (do
        if isAbstract || ((← get).inInterface && !(← atKind .leftBrace)) then p
        else do
          let _ ← expect .leftBrace what
          p')
      (do
        if isAbstract || ((← get).inInterface && !(← atKind .leftBrace)) then q
        else do
          let _ ← expect .leftBrace what
          q') := by
  have otherwise := (agrees_expect : Agrees B _ (expect .leftBrace what) _).andThen h'
  intro c d hc
  have kinds := hc.peek.kind
  show B.Outcomes R
    ((if isAbstract || (c.inInterface && !(c.peek.kind == .leftBrace)) then p
      else expect .leftBrace what >>= fun _ => p') c)
    ((if isAbstract || (d.inInterface && !(d.peek.kind == .leftBrace)) then q
      else expect .leftBrace what >>= fun _ => q') d)
  rw [kinds]
  cases isAbstract with
  | true => exact h c d hc
  | false =>
    cases brace : c.peek.kind == .leftBrace with
    | true =>
      simp only [Bool.not_true, Bool.and_false, Bool.or_false]
      exact otherwise c d hc
    | false =>
      -- Here a body is asked for only outside interfaces, and there is none.
      cases strict : B.strict with
      | true =>
        rw [hc.inInterface strict]
        exact agrees_ite h otherwise c d hc
      | false =>
        have lacks {α : Type} {f : Token → Parser α} {c : Cursor} (h : (c.peek.kind == .leftBrace) = false) :
            (expect .leftBrace what >>= f) c = .error ⟨c.peek.pos, .expected what⟩ := by
          have fails : expect .leftBrace what c = .error ⟨c.peek.pos, .expected what⟩ := by
            show (if c.peek.kind == .leftBrace then advance else fail (.expected what)) c = _
            rw [h]
            rfl
          show (expect .leftBrace what c >>= fun r => f r.1 r.2) = _
          rw [fails]
          rfl
        split
        · split
          · exact h c d hc
          · rw [lacks (by rw [kinds]; exact brace)]
            exact Bond.outcomes_error_right (.inl strict)
        · rw [lacks brace]
          exact Bond.outcomes_error_left (.inl strict)

/-! ## Members -/

variable {t u : Token}

theorem traitUse_agrees (hr : r.Agree B r') (ht : B.Places t.pos u.pos) :
    Agrees B B.Members (traitUse r t) (traitUse r' u) := by
  refine (typePath_agrees hr false).given fun _ hp => agrees_endStatement.next fun _ => ?_
  exact (agrees_spanFrom ht).bind fun _ _ _ => agrees_pure (by simp [hp, Worded.ofMemberName])

variable (hr : r.Agree B r')
include hr

theorem constant_agrees (ht : B.Places t.pos u.pos) : Agrees B B.Members (constant r t) (constant r' u) := by
  refine agrees_expect.bind fun n n' hn => (annotation_agrees hr).given fun type hy => ?_
  refine (agrees_consume _ _).andThen (agrees_newlines.next fun _ => hr.expression.bind fun e e' he => ?_)
  refine (agrees_spanFrom ht).bind fun _ _ _ => agrees_endStatement.next fun _ => ?_
  exact agrees_pure (by simp [hn.lexeme, hn.word rfl, hy, he, Worded.ofMemberName])

omit hr in
theorem writtenModifiers_agrees : Agrees B Eq writtenModifiers writtenModifiers := by
  refine agrees_iterate Eq rfl fun ms ms' hm => agrees_peek.bind fun t u ht => ?_
  rw [ht.kind, hm]
  cases modifier? t.kind with
  | none => exact agrees_pure (.done rfl)
  | some m => exact agrees_ite agrees_failAt (agrees_advance.andThen (agrees_pure (.again rfl)))

@[simp] abbrev Pairs (B : Bond) (x y : Option Func × Option Func) : Prop :=
  B.Options Sketch.func Worded.ofFunc x.1 y.1 ∧ B.Options Sketch.func Worded.ofFunc x.2 y.2

variable {type : Option TypePath}

theorem accessor_agrees (hy : Fits B.Clean (Worded.ofPath type)) {g g' s s' : Option Func}
    (h : Pairs B (g, s) (g', s')) : Agrees B (Pairs B) (accessor r type g s) (accessor r' type g' s') := by
  obtain ⟨hg, hs⟩ := h
  refine agrees_expect.bind fun t u ht => ?_
  have body :=
    (agrees_expect : Agrees B _ (expect .leftBrace "`\x7b` before accessor body") _).andThen (functionBody_agrees hr)
  rw [ht.lexeme]
  refine agrees_ite ?_ (agrees_ite ?_ agrees_failAt)
  · have found : g'.isSome = g.isSome := by cases g <;> cases g' <;> simp_all
    rw [found]
    refine agrees_ite (agrees_failAt_bind _ _) (body.bind fun b b' hb => ?_)
    exact (agrees_spanFrom ht.places).bind fun _ _ _ => agrees_pure ⟨by simp [hb, hy], hs⟩
  · have found : s'.isSome = s.isSome := by cases s <;> cases s' <;> simp_all
    have word : B.Clean (.name "value") := Bond.clean_of (by decide : IsWord "value")
    rw [found]
    refine agrees_ite (agrees_failAt_bind _ _) (body.bind fun b b' hb => ?_)
    refine (agrees_spanFrom ht.places).bind fun _ _ _ => agrees_pure ⟨hg, ?_⟩
    simp [hb, hy, word, setterParam, Sketch.param, Worded.ofParam]

theorem property_agrees (hy : Fits B.Clean (Worded.ofPath type)) :
    Agrees B (B.Same Sketch.memberKind Worded.ofMemberKind) (property r type) (property r' type) := by
  refine agrees_newlines.next fun _ => Agrees.bind (R := Pairs B) ?_ fun found found' hf => ?_
  · refine agrees_iterate (Pairs B) (by simp) fun s s' hs => ?_
    refine agrees_atKind.next fun _ => agrees_atKind.next fun _ => agrees_ite (agrees_pure (.done hs)) ?_
    exact (accessor_agrees hr hy hs).bind fun _ _ h => agrees_newlines.next fun _ => agrees_pure (.again h)
  · exact agrees_expect.andThen (agrees_endStatement.next fun _ => agrees_pure (by simp [hf, hy]))

omit hr in
theorem promotedNames_eq {ps ps' : List Param} (hp : B.Params ps ps') :
    (ps'.filter (·.promoted)).map (·.name) = (ps.filter (·.promoted)).map (·.name) := by
  have names (v : Sketch) (ps : List Param) :
      (ps.filter (·.promoted)).map (·.name) = ((ps.map v.param).filter (·.promoted)).map (·.name) := by
    simp [List.filter_map, Function.comp_def, Sketch.param]
  calc _ = _ := names B.right ps'
    _ = _ := by rw [show ps.map B.left.param = ps'.map B.right.param from hp.1]
    _ = _ := (names B.left ps).symm

omit hr in
theorem promotions_agrees {ps ps' : List Param} (hp : B.Params ps ps') :
    Agrees B (B.Lists Sketch.stmt Worded.ofStmt) (promotions ps) (promotions ps') := by
  intro c d hc
  have later (k : Nat) : ∀ n, B.left.id (c.nextId + k + n) = B.right.id (d.nextId + k + n) := fun n => by
    rw [Nat.add_assoc, Nat.add_assoc]
    exact hc.ids (k + n)
  have names := promotedNames_eq hp
  refine ⟨⟨?_, ?_⟩, hc.previous, hc.rest, hc.eof, hc.inNamespace, hc.inInterface, ?_⟩
  · refine List.ext_getElem? fun i => ?_
    rw [names, List.getElem?_map, List.getElem?_map, List.getElem?_mapIdx, List.getElem?_mapIdx]
    cases ((ps.filter (·.promoted)).map (·.name))[i]? with
    | none => rfl
    | some name => exact congrArg some (promotion_sketch (later _) name)
  · refine fits_flatMap.mpr fun s hs => ?_
    obtain ⟨i, hi, rfl⟩ := List.mem_mapIdx.mp hs
    obtain ⟨param, found, same⟩ := List.mem_map.mp (List.getElem_mem hi)
    have word := fits_flatMap.mp hp.2 param (List.mem_filter.mp found).1
    rw [Worded.ofParam, fits_cons, same] at word
    simpa [Synthesis.promotion] using word.1
  · rw [names]
    exact later _

theorem method_agrees (ht : B.Places t.pos u.pos) (name : String) (isAbstract : Bool)
    {as as' : List Expr} (ha : B.Attributes as as') :
    Agrees B B.Funcs (method r t name isAbstract as) (method r' u name isAbstract as') := by
  refine (params_agrees hr _).bind fun ps ps' hp => (annotation_agrees hr).given fun result hy => ?_
  refine agrees_bodiless isAbstract _
    (agrees_endStatement.andThen (Agrees.bind (R := B.Options Sketch.stmt Worded.ofStmt) (agrees_pure (by simp)) ?rest))
    ((functionBody_agrees hr).bind fun b b' hb => Agrees.bind (agrees_pure (by simp [hb])) ?rest)
  refine fun b b' hb => (agrees_spanFrom ht).bind fun _ _ _ => ?_
  cases b with
  | none =>
    cases b' with
    | none => exact agrees_pure (by simp [hp, ha, hy])
    | some _ => simp at hb
  | some b =>
    cases b' with
    | none => simp at hb
    | some b' =>
      have hb : B.Stmts b b' := by simpa using hb
      refine agrees_ite ((promotions_agrees hp).bind fun ss ss' hs => agrees_pure ?_)
        (agrees_pure (by simp [hp, ha, hb, hy]))
      simp [prepend_sketch, hp, ha, hb, hs, hy, fits_prepend hs.2 hb.2]

theorem valueMember_agrees (ht : B.Places t.pos u.pos) : Agrees B B.Members (valueMember r t) (valueMember r' u) := by
  refine (attributes_agrees hr).bind fun as as' ha => writtenModifiers_agrees.next fun ms => ?_
  refine agrees_expect.bind fun n n' hn => (annotation_agrees hr).given fun type hy => ?_
  have built (kind kind' : MemberKind) (hk : B.Same Sketch.memberKind Worded.ofMemberKind kind kind') :
      Agrees B B.Members
        (do return { name := n.lexeme, kind, modifiers := withVisibility ms, attributes := as, pos := ← spanFrom t })
        (do return { name := n.lexeme, kind := kind', modifiers := withVisibility ms, attributes := as',
                     pos := ← spanFrom u }) :=
    (agrees_spanFrom ht).bind fun _ _ _ => agrees_pure (by
      simp [hk, ha, Worded.fits_ofMemberName (A := B.Clean) (hn.word rfl)])
  refine agrees_peek.bind fun p p' hp => ?_
  rw [hp.kind, hn.lexeme]
  split
  · exact (agrees_advance.seq (property_agrees hr hy)).bind built
  · refine agrees_advance.andThen (agrees_ite (agrees_failAt_bind _ _) (agrees_newlines.andThen ?_))
    refine hr.expression.bind fun e e' he => agrees_endStatement.andThen (Agrees.bind (agrees_pure ?_) built)
    simp [he, hy]
  · refine agrees_advance.andThen ((method_agrees hr ht _ _ ha).bind fun f f' hf => ?_)
    exact Agrees.bind (agrees_pure (by simp [hf])) built
  · exact agrees_endStatement.andThen (Agrees.bind (agrees_pure (by simp [hy])) built)

theorem member_agrees : Agrees B B.Members (member r) (member r') := by
  refine agrees_peek.bind fun t u ht => agrees_take.next fun _ => ?_
  refine agrees_ite (traitUse_agrees hr ht.places) (agrees_take.next fun _ => ?_)
  exact agrees_ite (constant_agrees hr ht.places) (valueMember_agrees hr ht.places)

theorem classBody_agrees : Agrees B (B.Lists Sketch.member Worded.ofMember) (classBody r) (classBody r') := by
  refine agrees_newlines.next fun _ => (agrees_itemsUntil (member_agrees hr)).bind fun ms ms' hm => ?_
  exact agrees_expect.andThen (agrees_pure (by simp [withPromotedFields_sketch, hm, fits_withPromotedFields hm.2]))

/-! ## Classes -/

omit hr in
theorem finishClass_agrees (ht : B.Places t.pos u.pos) {cls cls' : Position → Class}
    (h : ∀ pos pos', B.Places pos pos' →
      B.Same Sketch.cls (fun c => .name c.name :: Worded.ofClass c) (cls pos) (cls' pos')) :
    Agrees B B.Stmts (finishClass t cls) (finishClass u cls') :=
  (agrees_spanFrom ht).bind fun pos pos' hp => agrees_pure (by simp [h pos pos' hp])

omit hr in
theorem place_eq {pos pos' : Position} (h : B.Places pos pos') : B.left.place pos = B.right.place pos' := by
  unfold Sketch.place
  rw [h]

theorem heritage_agrees : Agrees B
    (Equal fun found => Fits B.Clean (Worded.ofPath found.1) ∧ Fits B.Clean (Worded.ofPaths found.2))
    (heritage r) (heritage r') := by
  refine agrees_iterate (Equal fun found : Option TypePath × List TypePath =>
    Fits B.Clean (Worded.ofPath found.1) ∧ Fits B.Clean (Worded.ofPaths found.2)) (by simp [Worded.ofPaths])
    fun s s' hs => ?_
  obtain ⟨rfl, hs⟩ := hs
  refine agrees_newlines.next fun _ => agrees_take.next fun _ => agrees_ite ?_ ?_
  · refine agrees_ite (agrees_previous.bind fun t u _ => agrees_failAt_bind t u) ?_
    exact (typePath_agrees hr false).given fun _ hp => agrees_pure (.again ⟨rfl, by simp [hp], hs.2⟩)
  · refine agrees_take.next fun _ => agrees_ite ?_ (agrees_pure (.done ⟨rfl, hs⟩))
    refine (agrees_separated_eq (typePath_agrees hr false)).given fun _ hp => agrees_pure (.again ⟨rfl, hs.1, ?_⟩)
    rw [Worded.fits_ofPaths] at hs ⊢
    exact List.forall_mem_append.mpr ⟨hs.2, hp⟩

variable {as as' : List Expr} (ha : B.Attributes as as')
include ha

theorem classDeclaration_agrees : Agrees B B.Stmts (classDeclaration r as) (classDeclaration r' as') := by
  refine agrees_previous.bind fun t u ht => agrees_expect.bind fun n n' hn => ?_
  refine (heritage_agrees hr).given fun parents hh => agrees_expect.andThen ?_
  refine (classBody_agrees hr).bind fun ms ms' hm => finishClass_agrees ht fun pos pos' hp => ?_
  simp [hn.lexeme, hn.word rfl, hh, hm, ha, place_eq hp]

omit hr ha in
theorem setInInterface_agrees (value : Bool) : Agrees B Eq (setInInterface value) (setInInterface value) :=
  agrees_modify fun _ _ hc => ⟨hc.previous, hc.rest, hc.eof, hc.inNamespace, fun _ => rfl, hc.ids⟩

theorem interfaceDeclaration_agrees : Agrees B B.Stmts (interfaceDeclaration r as) (interfaceDeclaration r' as') := by
  refine agrees_previous.bind fun t u ht => agrees_expect.bind fun n n' hn => agrees_newlines.andThen ?_
  have parents := (agrees_separated_eq (typePath_agrees hr false)).given fun ps hp =>
    agrees_newlines.andThen (agrees_pure (R := Equal _) ⟨(rfl : ps = ps), hp⟩)
  refine (agrees_after?_eq _ parents).given fun parents hh => agrees_atKind.next fun _ => ?_
  refine agrees_ite (fun _ _ _ => .inl rfl) (agrees_expect.andThen ?_)
  refine (setInInterface_agrees true).andThen ((classBody_agrees hr).bind fun ms ms' hm => ?_)
  refine (setInInterface_agrees false).andThen (finishClass_agrees ht fun pos pos' hp => ?_)
  have abstracted (v : Sketch) (ms : List Member) :
      (ms.map asAbstract).map v.member = (ms.map v.member).map asAbstract := by
    simp [Function.comp_def, asAbstract_sketch]
  have named : Fits B.Clean (Worded.ofPaths (parents.getD [])) := by
    rw [Worded.fits_ofPaths]
    cases parents <;> simp_all
  have members : Fits B.Clean ((ms.map asAbstract).flatMap Worded.ofMember) := by
    have found := fits_flatMap.mp hm.2
    simp only [fits_flatMap, List.forall_mem_map]
    exact fun m h => fits_asAbstract (found m h)
  simp only [Bond.Same, Sketch.cls, Sketch.members_eq, abstracted]
  simp [hn.lexeme, hn.word rfl, named, members, hm.1, ha, place_eq hp]

theorem traitDeclaration_agrees : Agrees B B.Stmts (traitDeclaration r as) (traitDeclaration r' as') := by
  refine agrees_previous.bind fun t u ht => agrees_expect.bind fun n n' hn => agrees_newlines.andThen ?_
  refine agrees_expect.andThen ((classBody_agrees hr).bind fun ms ms' hm => ?_)
  exact finishClass_agrees ht fun pos pos' hp => by
    simp [hn.lexeme, hn.word rfl, hm, ha, place_eq hp, Worded.ofPaths]

/-! ## Enums -/

omit hr ha in
theorem enumCases_agrees {case case' : Nat → Parser Member} (h : ∀ n, Agrees B B.Members (case n) (case' n)) :
    Agrees B (B.Lists Sketch.member Worded.ofMember) (enumCases case) (enumCases case') := by
  refine agrees_newlines.next fun _ => Agrees.bind (R := B.Lists Sketch.member Worded.ofMember) ?_ fun ms ms' hm =>
    agrees_expect.andThen (agrees_pure hm)
  refine agrees_iterate (B.Lists Sketch.member Worded.ofMember) (by simp) fun ms ms' hm => ?_
  refine agrees_atKind.next fun _ => agrees_atKind.next fun _ => agrees_ite (agrees_pure (.done hm)) ?_
  have length : ms'.length = ms.length := by simpa using (congrArg List.length hm.1).symm
  rw [length]
  exact (h _).bind fun m m' hmm => agrees_pure (.again (by simp [hm, hmm]))

omit ha in
theorem valueCase_agrees (overString : Bool) (index : Nat) :
    Agrees B B.Members (valueCase r overString index) (valueCase r' overString index) := by
  refine agrees_expect.bind fun n n' hn => agrees_take.next fun _ => ?_
  rw [hn.lexeme]
  have literal : B.Clean (.literal (if overString then .string n.lexeme else .number (toString index))) := by
    split
    · exact fun worded => IsWord.escapesClosed (hn.word rfl worded)
    · exact fun _ => isNumber_toString index
  refine agrees_ite (agrees_newlines.andThen (hr.expression.bind ?rest))
    ((agrees_node ⟨rfl, by simpa using literal⟩).bind ?rest)
  refine fun e e' he => agrees_endStatement.andThen ((agrees_spanFrom hn.places).bind fun _ _ _ => ?_)
  exact agrees_pure (by simp [he, hn.word rfl, Worded.ofMemberName])

omit ha in
theorem factoryCase_agrees {enumName : String} (enum : B.Clean (.name enumName)) (index : Nat) :
    Agrees B B.Members (factoryCase r enumName index) (factoryCase r' enumName index) := by
  refine agrees_expect.bind fun n n' hn => (agrees_after? (f := fun v => List.map v.param)
    (w := List.flatMap Worded.ofParam) _ (params_agrees hr false)).bind fun ps ps' hp => ?_
  have params : B.Params (ps.getD []) (ps'.getD []) := by
    cases ps <;> cases ps' <;> simp_all
  have names : (ps'.getD []).map (·.name) = (ps.getD []).map (·.name) := by
    simpa [Sketch.param, Function.comp_def] using (congrArg (List.map (·.name)) params.1).symm
  have words : ∀ name ∈ (ps.getD []).map (·.name), B.Clean (.name name) := by
    rw [List.forall_mem_map]
    exact fun p found => (fits_cons.mp (fits_flatMap.mp params.2 p found)).1
  dsimp only
  rw [names, hn.lexeme]
  refine agrees_get.bind fun c d hc => ?_
  have ids (n : Nat) : B.left.id (c.nextId + Synthesis.factoryIds ((ps.getD []).map (·.name)) + n) =
      B.right.id (d.nextId + Synthesis.factoryIds ((ps.getD []).map (·.name)) + n) := by
    rw [Nat.add_assoc, Nat.add_assoc]
    exact hc.ids _
  refine Agrees.next (fun _ _ _ => ⟨rfl, hc.previous, hc.rest, hc.eof, hc.inNamespace, hc.inInterface, ids⟩) fun _ => ?_
  refine agrees_endStatement.andThen ((agrees_spanFrom hn.places).bind fun _ _ _ => agrees_pure ?_)
  have path : B.Clean (.path (.ofName enumName)) := fun worded => TypePath.clean_ofName (enum worded)
  simp [params, factory_sketch hc.ids, fits_factory enum (hn.word rfl) words, path, hn.word rfl, Worded.ofMemberName]

theorem enumDeclaration_agrees : Agrees B B.Stmts (enumDeclaration r as) (enumDeclaration r' as') := by
  refine agrees_previous.bind fun t u ht => agrees_expect.bind fun n n' hn => ?_
  have wrapped : Agrees B (Equal fun _ => True)
      (do
        let wrapped ← expect .typeIdentifier "a wrapped type name"
        if wrapped.lexeme == "String" || wrapped.lexeme == "Int" then return wrapped.lexeme
        else failAt wrapped .wrappedType)
      (do
        let wrapped ← expect .typeIdentifier "a wrapped type name"
        if wrapped.lexeme == "String" || wrapped.lexeme == "Int" then return wrapped.lexeme
        else failAt wrapped .wrappedType) :=
    agrees_expect.bind fun w w' hw => by
      rw [hw.lexeme]
      exact agrees_ite (agrees_pure ⟨rfl, trivial⟩) agrees_failAt
  rw [hn.lexeme]
  refine (agrees_after?_eq _ wrapped).given fun wrapped _ => agrees_newlines.andThen (agrees_expect.andThen ?_)
  cases wrapped with
  | some wrapped =>
    refine (enumCases_agrees fun n => valueCase_agrees hr _ n).bind fun ms ms' hm => ?_
    exact finishClass_agrees ht fun pos pos' hp => by simp [hm, ha, hn.word rfl, place_eq hp, Worded.ofPaths]
  | none =>
    refine (enumCases_agrees fun n => factoryCase_agrees hr (hn.word rfl) n).bind fun ms ms' hm => ?_
    exact finishClass_agrees ht fun pos pos' hp => by
      simp [hm, ha, hn.word rfl, clean_enumBase, place_eq hp, Worded.ofPaths]

/-! ## Statements -/

omit ha

theorem variableDeclaration_agrees : Agrees B B.Stmts (variableDeclaration r) (variableDeclaration r') := by
  refine agrees_previous.bind fun t u ht => agrees_expect.bind fun n n' hn => ?_
  refine (annotation_agrees hr).given fun type hy => ?_
  refine (agrees_after? _ (agrees_newlines.andThen hr.expression)).bind fun e e' he => ?_
  refine (agrees_spanFrom ht).bind fun _ _ _ => agrees_endStatement.andThen (agrees_pure ?_)
  simp [hn.lexeme, hn.word rfl, hy, he]

omit hr in
theorem globalDeclaration_agrees : Agrees B B.Stmts globalDeclaration globalDeclaration := by
  refine agrees_previous.bind fun t u ht => agrees_expect.bind fun n n' hn => ?_
  exact agrees_endStatement.andThen (agrees_pure (by simp [hn.lexeme, hn.word rfl]))

theorem ifStatement_agrees : Agrees B B.Stmts (ifStatement r) (ifStatement r') := by
  refine agrees_previous.bind fun t u ht => (condition_agrees hr _).bind fun c c' hc => ?_
  refine hr.statement.bind fun y y' hy => agrees_takeOnNextLine.next fun _ => ?_
  have rest (n n' : Option Stmt) (hn : B.Options Sketch.stmt Worded.ofStmt n n') : Agrees B B.Stmts
      (do return ⟨← spanFrom t, .branch c y.toBlock n⟩) (do return ⟨← spanFrom u, .branch c' y'.toBlock n'⟩) :=
    (agrees_spanFrom ht).bind fun _ _ _ => agrees_pure (by simp [hc, toBlock_sketch, fits_toBlock, hy, hn])
  refine agrees_ite (agrees_newlines.andThen (hr.statement.bind fun n n' hn => ?_)) (rest none none (by simp))
  exact rest (some n.toBlock) (some n'.toBlock) (by simp [toBlock_sketch, fits_toBlock, hn])

theorem returnStatement_agrees : Agrees B B.Stmts (returnStatement r) (returnStatement r') := by
  refine agrees_previous.bind fun t u ht => agrees_peek.bind fun p p' hp => ?_
  rw [hp.kind]
  have built (e e' : Option Expr) (he : B.Options Sketch.expr Worded.ofExpr e e') : Agrees B B.Stmts
      (do
        let pos ← spanFrom t
        endStatement
        return ⟨pos, .ret e⟩)
      (do
        let pos ← spanFrom u
        endStatement
        return ⟨pos, .ret e'⟩) :=
    (agrees_spanFrom ht).bind fun _ _ _ => agrees_endStatement.andThen (agrees_pure (by simp [he]))
  split
  · exact Agrees.bind (agrees_pure (by simp)) built
  · exact Agrees.bind (agrees_pure (by simp)) built
  · exact Agrees.bind (agrees_pure (by simp)) built
  · exact Agrees.bind (agrees_pure (by simp)) built
  · exact hr.expression.bind fun e e' he => Agrees.bind (agrees_pure (by simp [he])) built

theorem throwStatement_agrees : Agrees B B.Stmts (throwStatement r) (throwStatement r') := by
  refine agrees_previous.bind fun t u ht => hr.expression.bind fun e e' he => ?_
  exact (agrees_spanFrom ht).bind fun _ _ _ => agrees_endStatement.andThen (agrees_pure (by simp [he]))

theorem whileStatement_agrees : Agrees B B.Stmts (whileStatement r) (whileStatement r') := by
  refine agrees_previous.bind fun t u ht => (condition_agrees hr _).bind fun c c' hc => ?_
  refine hr.statement.bind fun b b' hb => (agrees_spanFrom ht).bind fun _ _ _ => ?_
  exact agrees_pure (by simp [hc, hb])

theorem doStatement_agrees : Agrees B B.Stmts (doStatement r) (doStatement r') := by
  refine agrees_previous.bind fun t u ht => agrees_newlines.andThen (hr.statement.bind fun b b' hb => ?_)
  refine agrees_takeOnNextLine.next fun _ => agrees_ite (agrees_expect.andThen ?_) agrees_fail
  refine hr.expression.bind fun c c' hc => agrees_expect.andThen ((agrees_spanFrom ht).bind fun _ _ _ => ?_)
  exact agrees_endStatement.andThen (agrees_pure (by simp [hc, hb]))

theorem forStatement_agrees : Agrees B B.Stmts (forStatement r) (forStatement r') := by
  have second : Agrees B (Equal fun name => B.Clean (.name name))
      (do return (← expect .identifier "a loop variable after `:`").lexeme)
      (do return (← expect .identifier "a loop variable after `:`").lexeme) :=
    agrees_expect.bind fun n n' hn => by
      rw [hn.lexeme]
      exact agrees_pure ⟨rfl, hn.word rfl⟩
  refine agrees_previous.bind fun t u ht => agrees_expect.andThen (agrees_expect.bind fun k k' hk => ?_)
  refine (agrees_after?_eq _ second).given fun value hv => agrees_expect.andThen ?_
  refine hr.expression.bind fun e e' he => agrees_expect.andThen (agrees_newlines.andThen ?_)
  refine hr.statement.bind fun b b' hb => ?_
  have name : Fits B.Clean (Worded.ofName value) := Worded.fits_ofName.mpr hv
  exact (agrees_spanFrom ht).bind fun _ _ _ => agrees_pure (by simp [hk.lexeme, hk.word rfl, name, he, hb])

theorem caseLabel_agrees :
    Agrees B (B.Options (fun v => Option.map v.expr) fun o => o.toList.flatMap Worded.ofExpr) (caseLabel? r)
      (caseLabel? r') := by
  refine agrees_take.next fun _ => agrees_ite (agrees_newlines.andThen ?_) (agrees_take.next fun _ => ?_)
  · exact hr.expression.bind fun e e' he => agrees_pure (by simp [he])
  · exact agrees_ite (agrees_pure (by simp)) (agrees_pure (by simp))

theorem switchStatement_agrees : Agrees B B.Stmts (switchStatement r) (switchStatement r') := by
  refine agrees_previous.bind fun t u ht => (condition_agrees hr _).bind fun c c' hc => ?_
  refine agrees_expect.andThen (agrees_newlines.andThen ?_)
  refine Agrees.bind (R := B.Lists Sketch.case Worded.ofCase) ?_ fun cs cs' hs => ?_
  · refine agrees_iterate (B.Lists Sketch.case Worded.ofCase) (by simp) fun cs cs' hs => ?_
    refine (caseLabel_agrees hr).bind fun l l' hl => ?_
    cases l with
    | none =>
      cases l' with
      | none => exact agrees_pure (.done hs)
      | some _ => simp at hl
    | some l =>
      cases l' with
      | none => simp at hl
      | some l' =>
        refine agrees_expect.andThen (agrees_newlines.andThen ?_)
        refine (agrees_itemsUntil hr.statement).bind fun ss ss' hss => agrees_pure (.again ?_)
        have hl : B.Options Sketch.expr Worded.ofExpr l l' := by simpa using hl
        simp [hs, hss, hl, Sketch.case, Worded.ofCase]
  · exact agrees_expect.andThen ((agrees_spanFrom ht).bind fun _ _ _ => agrees_pure (by simp [hc, hs]))

theorem handler_agrees : Agrees B B.Stmts (handler r) (handler r') := by
  refine agrees_previous.bind fun t u ht => agrees_expect.andThen (agrees_expect.bind fun n n' hn => ?_)
  refine (agrees_after?_eq _ (typePath_agrees hr false)).given fun type hy => agrees_expect.andThen ?_
  refine agrees_newlines.andThen (agrees_expect.andThen ((block_agrees hr).bind fun b b' hb => ?_))
  have caught : Fits B.Clean (Worded.ofPath type) := Worded.fits_ofPath.mpr hy
  exact (agrees_spanFrom ht).bind fun _ _ _ => agrees_pure (by simp [hn.lexeme, hn.word rfl, caught, hb])

theorem tryStatement_agrees : Agrees B B.Stmts (tryStatement r) (tryStatement r') := by
  refine agrees_previous.bind fun t u ht => agrees_newlines.andThen (agrees_expect.andThen ?_)
  refine (block_agrees hr).bind fun b b' hb => ?_
  refine Agrees.bind (R := B.Lists Sketch.stmt Worded.ofStmt) ?_ fun hs hs' h => ?_
  · refine agrees_iterate (B.Lists Sketch.stmt Worded.ofStmt) (by simp) fun hs hs' h => ?_
    refine agrees_takeOnNextLine.next fun _ => agrees_ite ?_ (agrees_pure (.done h))
    exact (handler_agrees hr).bind fun x x' hx => agrees_pure (.again (by simp [h, hx]))
  · exact (agrees_spanFrom ht).bind fun _ _ _ => agrees_pure (by simp [hb, h])

theorem expressionStatement_agrees : Agrees B B.Stmts (expressionStatement r) (expressionStatement r') :=
  (expression_agrees hr).bind fun e e' he => agrees_endStatement.andThen (agrees_pure (by simp [he]))

theorem statement_agrees : Agrees B B.Stmts (statement r) (statement r') := by
  refine agrees_peek.bind fun t u ht => ?_
  rw [ht.kind]
  split
  · exact agrees_advance.seq (variableDeclaration_agrees hr)
  · exact agrees_advance.seq globalDeclaration_agrees
  · exact agrees_advance.seq (ifStatement_agrees hr)
  · exact agrees_advance.seq (returnStatement_agrees hr)
  · exact agrees_advance.seq (whileStatement_agrees hr)
  · exact agrees_advance.seq (doStatement_agrees hr)
  · exact agrees_advance.seq (forStatement_agrees hr)
  · exact agrees_advance.seq (switchStatement_agrees hr)
  · exact agrees_advance.seq (throwStatement_agrees hr)
  · exact agrees_advance.seq (tryStatement_agrees hr)
  · exact agrees_advance.seq (block_agrees hr)
  · exact expressionStatement_agrees hr

/-! ## Declarations -/

omit hr in
theorem setInNamespace_agrees (value : Bool) : Agrees B Eq (setInNamespace value) (setInNamespace value) :=
  agrees_modify fun _ _ hc => ⟨hc.previous, hc.rest, hc.eof, fun _ => rfl, hc.inInterface, hc.ids⟩

theorem namespaceDeclaration_agrees : Agrees B B.Stmts (namespaceDeclaration r) (namespaceDeclaration r') := by
  refine agrees_advance.bind fun t u ht => agrees_unless id t u _ ?_
  refine (typePath_agrees hr false).given fun path hp => (setInNamespace_agrees true).andThen ?_
  refine agrees_take.next fun _ => agrees_ite (agrees_newlines.andThen ?_) (agrees_endStatement.andThen ?_)
  · refine (agrees_itemsUntil hr.declaration).bind fun ss ss' hs => agrees_expect.andThen ?_
    refine (setInNamespace_agrees false).andThen ?_
    refine Agrees.bind (R := B.Lists Sketch.stmt Worded.ofStmt) (agrees_pure hs) ?_
    exact fun ss ss' hs => (agrees_spanFrom ht.places).bind fun _ _ _ => agrees_pure (by simp [hs, hp])
  · refine (agrees_itemsUntil hr.declaration).bind fun ss ss' hs => ?_
    exact (agrees_spanFrom ht.places).bind fun _ _ _ => agrees_pure (by simp [hs, hp])

omit hr in
theorem useTarget_agrees : Agrees B (Equal fun target => B.Clean (.name target.name)) useTarget useTarget := by
  refine agrees_advance.bind fun t u ht => ?_
  rw [ht.kind, ht.lexeme]
  split
  · exact agrees_pure ⟨rfl, (ht.read ‹_›).word rfl⟩
  · exact agrees_pure ⟨rfl, (ht.read ‹_›).word rfl⟩
  · exact agrees_failAt

abbrev UseFits (B : Bond) (found : List String × UseKind) : Prop :=
  (∀ s ∈ found.1, B.Clean (.name s)) ∧ Fits B.Clean (Worded.ofUse found.2)

omit hr in
theorem usePath_agrees : Agrees B (Equal (UseFits B)) usePath usePath := by
  refine agrees_iterate (Equal fun segments => ∀ s ∈ segments, B.Clean (.name s)) (by simp)
    fun segments segments' hs => ?_
  obtain ⟨rfl, hs⟩ := hs
  refine agrees_peek.bind fun t u ht => ?_
  rw [ht.kind, ht.lexeme]
  split
  · rename_i kind
    have more : ∀ s ∈ segments ++ [t.lexeme], B.Clean (.name s) :=
      List.forall_mem_append.mpr ⟨hs, by simpa using (ht.read kind).word rfl⟩
    refine agrees_advance.andThen (agrees_take.next fun _ => ?_)
    exact agrees_ite (agrees_pure (.again ⟨rfl, more⟩)) (agrees_pure (.done ⟨rfl, more, fits_nil⟩))
  · rename_i kind
    refine agrees_advance.andThen (agrees_pure (.done ⟨rfl, hs, ?_⟩))
    simpa [Worded.ofUse, UseTarget.name] using (ht.read kind).word rfl
  · refine agrees_ite agrees_failAt (agrees_advance.andThen ?_)
    refine (agrees_separated_eq useTarget_agrees).given fun targets ht => agrees_newlines.andThen ?_
    refine agrees_expect.andThen (agrees_pure (.done ⟨rfl, hs, ?_⟩))
    simpa [Worded.ofUse, Fits] using ht
  · exact agrees_failAt

omit hr in
theorem useAlias_agrees {segments : List String} {kind : UseKind} (h : UseFits B (segments, kind)) :
    Agrees B (Equal (UseFits B)) (useAlias segments kind) (useAlias segments kind) := by
  refine useTarget_agrees.given fun target ht => ?_
  have renamed : Fits B.Clean (Worded.ofUse (.alias target)) := by simpa [Worded.ofUse] using ht
  split
  · rename_i single
    have last : B.Clean (.name single.name) := by simpa [Worded.ofUse] using h.2
    exact agrees_pure ⟨rfl, List.forall_mem_append.mpr ⟨h.1, by simpa using last⟩, renamed⟩
  · exact agrees_previous.bind fun t u _ => agrees_failAt
  · exact agrees_pure ⟨rfl, h.1, renamed⟩

omit hr in
include ha in
theorem useDeclaration_agrees : Agrees B B.Stmts (useDeclaration as) (useDeclaration as') := by
  refine agrees_advance.bind fun t u ht => agrees_unless Bool.not t u _ ?_
  refine agrees_take.next fun absolute => usePath_agrees.given fun found hf => agrees_take.next fun _ => ?_
  refine agrees_ite ((useAlias_agrees hf).given ?rest) (Agrees.given (agrees_pure ⟨rfl, hf⟩) ?rest)
  intro found hf
  obtain ⟨segments, kind⟩ := found
  dsimp only
  cases last : segments.getLast? with
  | none => exact agrees_failAt
  | some name =>
    have path : B.Clean (.path ⟨segments.dropLast, name, [], absolute, false⟩) := by
      refine Bond.clean_path ?_
      rw [TypePath.segments, List.dropLast_append_getLast? name last]
      exact hf.1
    refine agrees_endStatement.andThen ((agrees_spanFrom ht.places).bind fun _ _ _ => ?_)
    exact agrees_pure (by simp [ha.1, path, hf.2])

include ha in
theorem functionDeclaration_agrees : Agrees B B.Stmts (functionDeclaration r as) (functionDeclaration r' as') :=
  (function_agrees hr false ha).bind fun f f' hf => agrees_pure (by simp [hf.1, hf.2 rfl])

theorem declaration_agrees : Agrees B B.Stmts (declaration r) (declaration r') := by
  refine (attributes_agrees hr).bind fun as as' ha => agrees_peek.bind fun t u ht => ?_
  refine agrees_peekNext.bind fun n n' hn => ?_
  rw [ht.kind, hn.kind]
  split
  · exact useDeclaration_agrees ha
  · exact agrees_advance.seq (classDeclaration_agrees hr ha)
  · exact agrees_advance.seq (interfaceDeclaration_agrees hr ha)
  · exact agrees_advance.seq (traitDeclaration_agrees hr ha)
  · exact agrees_advance.seq (enumDeclaration_agrees hr ha)
  · refine agrees_ite (agrees_advance.seq (functionDeclaration_agrees hr ha)) ?_
    have empty : as'.isEmpty = as.isEmpty := by cases as <;> cases as' <;> simp_all
    rw [empty]
    exact agrees_ite agrees_failAt (agrees_ite (namespaceDeclaration_agrees hr) (statement_agrees hr))

end

/-! ## Programs -/

section
variable {B : Bond}

theorem program_agrees {r r' : Rules} (hr : r.Agree B r') :
    Agrees B (B.Lists Sketch.stmt Worded.ofStmt) (program r) (program r') :=
  agrees_newlines.andThen (agrees_itemsUntil hr.declaration)

end

end PhaseLang.Grammar

namespace PhaseLang.Rules

open PhaseLang.Parser

variable {B : Bond}

theorem Agree.next {r r' : Rules} (hr : r.Agree B r') : r.next.Agree B r'.next where
  typePath := Grammar.typePath_agrees hr
  expression := Grammar.expression_agrees hr
  unary := Grammar.unary_agrees hr
  statement := Grammar.statement_agrees hr
  declaration := Grammar.declaration_agrees hr

theorem upTo_agrees : ∀ n, (upTo n).Agree B (upTo n)
  | 0 => ⟨fun _ => agrees_fail, agrees_fail, agrees_fail, agrees_fail, agrees_fail⟩
  | n + 1 => (upTo_agrees n).next

theorem upTo_agrees_upTo (unbounded : B.unbounded = true) : ∀ m n, (upTo m).Agree B (upTo n)
  | 0, _ => by
    have stalls {α β : Type} {R : α → β → Prop} {q : Parser β} : Agrees B R (Parser.fail .stalled) q :=
      fun _ _ _ => Bond.outcomes_error_left (.inr ⟨unbounded, rfl⟩)
    exact ⟨fun _ => stalls, stalls, stalls, stalls, stalls⟩
  | _ + 1, 0 => by
    have stalls {α β : Type} {R : α → β → Prop} {p : Parser α} : Agrees B R p (Parser.fail .stalled) :=
      fun _ _ _ => Bond.outcomes_error_right (.inr ⟨unbounded, rfl⟩)
    exact ⟨fun _ => stalls, stalls, stalls, stalls, stalls⟩
  | m + 1, n + 1 => (upTo_agrees_upTo unbounded m n).next

end PhaseLang.Rules

namespace PhaseLang

variable {B : Bond} {ts ts' : List Token}

theorem Bond.tokens_row {eof eof' : Token} (length : ts.length = ts'.length)
    (tokens : List.Forall₂ B.Tokens (ts ++ [eof]) (ts' ++ [eof'])) :
    List.Forall₂ B.Tokens ts ts' ∧ B.Tokens eof eof' := by
  have front := List.forall₂_take_append _ ts' [eof'] tokens
  have back := List.forall₂_drop_append _ ts' [eof'] tokens
  rw [← length, List.take_left] at front
  rw [← length, List.drop_left] at back
  exact ⟨front, (List.forall₂_cons.mp back).1⟩

theorem Bond.tokens_only (tokens : List.Forall₂ B.Tokens ts ts') (only : ∀ t ∈ ts, t.kind ≠ .eof) :
    ∀ t ∈ ts', t.kind ≠ .eof := by
  induction tokens with
  | nil => exact only
  | cons head _ ih =>
    rw [List.forall_mem_cons] at only ⊢
    exact ⟨head.kind ▸ only.1, ih only.2⟩

theorem parse_agrees (strict : B.strict = true) (bounded : B.unbounded = false) {eof eof' : Token}
    (last : eof.kind = .eof)
    (only : ∀ t ∈ ts, t.kind ≠ .eof) (tokens : List.Forall₂ B.Tokens (ts ++ [eof]) (ts' ++ [eof']))
    {nextId nextId' : Nat} (ids : ∀ n, B.left.id (nextId + n) = B.right.id (nextId' + n)) :
    (∃ program program' next next', parse (ts ++ [eof]) nextId = .ok (program, next) ∧
      parse (ts' ++ [eof']) nextId' = .ok (program', next') ∧ B.Same Sketch.stmts Worded.ofStmts program program') ∨
    ∃ e e', parse (ts ++ [eof]) nextId = .error e ∧ parse (ts' ++ [eof']) nextId' = .error e' ∧
      e'.problem = e.problem := by
  have length : ts.length = ts'.length := by simpa using tokens.length_eq
  obtain ⟨rest, ends⟩ := Bond.tokens_row length tokens
  have only' := Bond.tokens_only rest only
  have last' : eof'.kind = .eof := ends.kind.trans last
  -- ids are handed out alike on both sides, so every cursor has its partner from here on
  have start : B.Cursors (.ofRow ts eof nextId) (.ofRow ts' eof' nextId') :=
    ⟨(Bond.tokens_headD tokens ends).places, rest, ends, fun _ => rfl, fun _ => rfl, ids⟩
  have outcomes := Grammar.program_agrees (Rules.upTo_agrees (B := B) (ts.length + 1)) _ _ start
  unfold parse
  rw [Cursor.ofTokens?_row last only, Cursor.ofTokens?_row last' only']
  simp only [Cursor.ofRow_rest, StateT.run, ← length]
  revert outcomes
  cases Grammar.program (.upTo (ts.length + 1)) (.ofRow ts eof nextId) with
  | ok r =>
    cases Grammar.program (.upTo (ts.length + 1)) (.ofRow ts' eof' nextId') with
    | ok r' =>
      rintro ⟨drawn, -⟩
      refine .inl ⟨_, _, _, _, rfl, rfl, ?_⟩
      simpa using drawn
    | error e' => exact fun excused => absurd excused (Bond.not_excuses strict bounded e')
  | error e =>
    cases Grammar.program (.upTo (ts.length + 1)) (.ofRow ts' eof' nextId') with
    | ok r' => exact fun excused => absurd excused (Bond.not_excuses strict bounded e)
    | error e' =>
      exact fun same => .inr ⟨e, e', rfl, rfl, same.resolve_right (by simp [Bond.not_excuses strict bounded])⟩

end PhaseLang
