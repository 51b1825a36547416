import PhaseLang.Proofs.Grammar.Citations
import PhaseLang.Proofs.Grammar.Spelling
import PhaseLang.Token.Scanner

/-!
# The wording of a tree

`Worded.ofExpr` and its companions list the texts in a tree that come from the source: names, paths
and literals. A text is clean if it is of the form that the scanner gives it, so a clean name is a
word, and a clean string has no backslash without a character after it. What a tree mentions is
spelled if its wording is clean.
-/

namespace PhaseLang

section
variable {α β : Type} {A : α → Prop} {w : β → List α} {xs : List β}

theorem fits_flatMap : Fits A (xs.flatMap w) ↔ ∀ x ∈ xs, Fits A (w x) := by
  simp only [Fits, List.mem_flatMap]
  refine ⟨fun h x hx c hc => h c ⟨x, hx, hc⟩, fun h c hc => ?_⟩
  obtain ⟨x, hx, hc⟩ := hc
  exact h x hx c hc

@[simp] theorem fits_flatMap_reverse : Fits A (xs.reverse.flatMap w) ↔ Fits A (xs.flatMap w) := by
  simp [fits_flatMap]

end

/-! ## Clean texts -/

def IsWord (s : String) : Prop := s ≠ "" ∧ ∀ c ∈ s.toList, Scanner.isWordPart c = true

instance : DecidablePred IsWord := fun s =>
  decidable_of_iff (s ≠ "" ∧ s.toList.all Scanner.isWordPart = true) (by simp [IsWord])

theorem IsWord.isSegment {s : String} (h : IsWord s) : QualifiedName.IsSegment s :=
  ⟨h.1, fun colon => absurd (h.2 ':' colon) (by decide)⟩

/-- A word that does not start as the names of types do. -/
def IsFunctionName (s : String) : Prop := IsWord s ∧ s.toList.head?.any Scanner.isUpper = false

/-- Every backslash takes a character with it. -/
def escapesClosed : List Char → Bool
  | [] => true
  | ['\\'] => false
  | '\\' :: _ :: cs => escapesClosed cs
  | _ :: cs => escapesClosed cs

theorem escapesClosed_of_notMem {cs : List Char} (h : '\\' ∉ cs) : escapesClosed cs = true := by
  fun_induction escapesClosed cs with
  | case1 => rfl
  | case2 => simp at h
  | case3 => simp at h
  | case4 c cs _ _ ih => exact ih fun hm => h (List.mem_cons_of_mem c hm)

theorem IsWord.escapesClosed {s : String} (h : IsWord s) : PhaseLang.escapesClosed s.toList = true :=
  escapesClosed_of_notMem fun backslash => absurd (h.2 '\\' backslash) (by decide)

def IsNumber (s : String) : Prop := s ≠ "" ∧ ∀ c ∈ s.toList, Scanner.isDigit c = true ∨ c = '.'

theorem isDigit_toString (n : Nat) : ∀ c ∈ (toString n).toList, Scanner.isDigit c = true := by
  intro c hc
  rw [Nat.toString_eq_ofList_toDigits, String.toList_ofList] at hc
  have digit := Nat.isDigit_of_mem_toDigits (by decide) (by decide) hc
  rw [Char.isDigit_iff_toNat] at digit
  simpa [Scanner.isDigit, Char.le_def, UInt32.le_iff_toNat_le] using digit

theorem isNumber_toString (n : Nat) : IsNumber (toString n) := ⟨by simp, fun c hc => .inl (isDigit_toString n c hc)⟩

def Literal.Clean : Literal → Prop
  | .string value => escapesClosed value.toList
  | .number digits => IsNumber digits
  | .true | .false | .null => True

def TypePath.Clean (p : TypePath) : Prop := ∀ s ∈ p.segments, IsWord s

theorem TypePath.Clean.spelled {p : TypePath} (h : p.Clean) : p.Spelled := fun s hs => (h s hs).isSegment

theorem TypePath.clean_ofName {name : String} (h : IsWord name) : (TypePath.ofName name).Clean := by
  simpa [TypePath.Clean, TypePath.segments, TypePath.ofName] using h

inductive Wording where
  | name (name : String)
  | function (name : String)
  | path (path : TypePath)
  | literal (value : Literal)

def Wording.Clean : Wording → Prop
  | .name text => IsWord text
  | .function text => IsFunctionName text
  | .path p => p.Clean
  | .literal value => value.Clean

@[simp] theorem Wording.clean_name {text : String} : (name text).Clean ↔ IsWord text := .rfl

@[simp] theorem Wording.clean_function {text : String} : (function text).Clean ↔ IsFunctionName text := .rfl

@[simp] theorem Wording.clean_path {p : TypePath} : (path p).Clean ↔ p.Clean := .rfl

@[simp] theorem Wording.clean_literal {value : Literal} : (literal value).Clean ↔ value.Clean := .rfl

/-! ## Texts among tokens -/

def TokenKind.isName : TokenKind → Bool
  | .identifier | .typeIdentifier | .templateTag | .classKw => true
  | _ => false

def TokenKind.isText : TokenKind → Bool
  | .string | .interpolation | .number => true
  | _ => false

structure Token.Clean (t : Token) : Prop where
  word : t.kind.isName = true → IsWord t.lexeme
  string : t.kind = .string ∨ t.kind = .interpolation → escapesClosed t.text.toList = true
  number : t.kind = .number → IsNumber t.lexeme
  function : t.kind = .identifier → t.lexeme.toList.head?.any Scanner.isUpper = false

theorem Token.Clean.of_plain {t : Token} (plain : t.kind.isText = false) (word : t.kind.isName = true → IsWord t.lexeme)
    (function : t.kind = .identifier → t.lexeme.toList.head?.any Scanner.isUpper = false) : t.Clean where
  word := word
  function := function
  string text := by rcases text with text | text <;> simp [text, TokenKind.isText] at plain
  number text := by simp [text, TokenKind.isText] at plain

theorem Token.Clean.of_string {t : Token} (text : t.kind = .string ∨ t.kind = .interpolation)
    (closed : escapesClosed t.text.toList = true) : t.Clean where
  word name := by rcases text with text | text <;> simp [text, TokenKind.isName] at name
  string _ := closed
  number digits := by rcases text with text | text <;> simp [text] at digits
  function name := by rcases text with text | text <;> simp [text] at name

theorem Token.Clean.of_number {t : Token} (number : t.kind = .number) (digits : IsNumber t.lexeme) : t.Clean where
  word name := by simp [number, TokenKind.isName] at name
  string text := by simp [number] at text
  number _ := digits
  function name := by simp [number] at name

/-! ## The texts in a tree -/

namespace Worded

def ofName (name : Option String) : List Wording := name.toList.map .name

def ofPath (path : Option TypePath) : List Wording := path.toList.map .path

def ofPaths (paths : List TypePath) : List Wording := paths.map .path

def ofUse : UseKind → List Wording
  | .plain => []
  | .alias target => [.name target.name]
  | .group targets => targets.map fun target => .name target.name

/-- The name of a member. The use of a trait has none of its own. -/
def ofMemberName (name : String) : MemberKind → List Wording
  | .use _ => []
  | .field _ _ | .property _ _ _ | .method _ => [.name name]

theorem fits_ofMemberName {A : Wording → Prop} {name : String} (h : A (.name name)) (kind : MemberKind) :
    Fits A (ofMemberName name kind) := by
  cases kind <;> simp [ofMemberName, h]

mutual

def ofExpr : Expr → List Wording
  | ⟨_, _, kind⟩ => ofKind kind

def ofKind : ExprKind → List Wording
  | .attribute path args => .path path :: ofArgs args
  | .assign name value => .name name :: ofExpr value
  | .unary _ e _ | .group e => ofExpr e
  | .binary a _ b | .logical a _ b | .range a b | .get a b => ofExpr a ++ ofExpr b
  | .isType operand type => ofExpr operand ++ [.path type]
  | .call callee args => ofExpr callee ++ ofArgs args
  | .indexGet target index => ofExpr target ++ ofOption index
  | .indexSet target index value => ofExpr target ++ ofOption index ++ ofExpr value
  | .set a b c | .ternary a b c => ofExpr a ++ ofExpr b ++ ofExpr c
  | .super method => [.name method]
  | .path path => [.path path]
  | .this | .static => []
  | .literal value => [.literal value]
  | .list items _ => ofExprs items
  | .map entries _ => ofEntries entries
  | .lambda f => ofFunc f
  | .ident name => [.name name]
  | .choose target cases => ofExpr target ++ ofCases cases

def ofOption : Option Expr → List Wording
  | none => []
  | some e => ofExpr e

def ofExprs : List Expr → List Wording
  | [] => []
  | e :: es => ofExpr e ++ ofExprs es

def ofArgs : List Arg → List Wording
  | [] => []
  | ⟨name, e⟩ :: as => ofName name ++ ofExpr e ++ ofArgs as

def ofEntries : List Entry → List Wording
  | [] => []
  | ⟨key, value⟩ :: es => ofExpr key ++ ofExpr value ++ ofEntries es

def ofCases : List Case → List Wording
  | [] => []
  | ⟨condition, body⟩ :: cs => ofOption condition ++ ofStmts body ++ ofCases cs

def ofStmt : Stmt → List Wording
  | ⟨_, kind⟩ => ofStmtKind kind

def ofStmtKind : StmtKind → List Wording
  | .expr e | .raise e => ofExpr e
  | .use path kind _ => .path path :: ofUse kind
  | .inNamespace path decls => .path path :: ofStmts decls
  | .var name type init => .name name :: (ofPath type ++ ofOption init)
  | .global name => [.name name]
  | .attempt body handlers => ofStmt body ++ ofStmts handlers
  | .handler name type body => .name name :: (ofPath type ++ ofStmt body)
  | .loop cond body _ => ofExpr cond ++ ofStmt body
  | .forIn key value target body => .name key :: (ofName value ++ ofExpr target ++ ofStmt body)
  | .branch cond yes no => ofExpr cond ++ ofStmt yes ++ ofBody no
  | .switch target cases => ofExpr target ++ ofCases cases
  | .block stmts => ofStmts stmts
  | .ret value => ofOption value
  | .func f => .function f.name :: ofFunc f
  | .cls c => .name c.name :: ofClass c

def ofStmts : List Stmt → List Wording
  | [] => []
  | s :: ss => ofStmt s ++ ofStmts ss

def ofBody : Option Stmt → List Wording
  | none => []
  | some s => ofStmt s

def ofFunc : Func → List Wording
  | ⟨_, params, body, result, attributes, _⟩ =>
    ofParams params ++ ofBody body ++ ofPath result ++ ofExprs attributes

def ofParams : List Param → List Wording
  | [] => []
  | ⟨name, type, default, _, _⟩ :: ps => .name name :: (ofPath type ++ ofOption default) ++ ofParams ps

def ofClass : Class → List Wording
  | ⟨_, _, parent, interfaces, members, attributes, _⟩ =>
    ofPath parent ++ ofPaths interfaces ++ ofMembers members ++ ofExprs attributes

def ofMembers : List Member → List Wording
  | [] => []
  | m :: ms => ofMember m ++ ofMembers ms

def ofMember : Member → List Wording
  | ⟨name, kind, _, attributes, _⟩ => ofMemberName name kind ++ ofMemberKind kind ++ ofExprs attributes

def ofMemberKind : MemberKind → List Wording
  | .use path => [.path path]
  | .field type init => ofPath type ++ ofOption init
  | .property type getter setter => ofPath type ++ ofAccessor getter ++ ofAccessor setter
  | .method f => ofFunc f

def ofAccessor : Option Func → List Wording
  | none => []
  | some f => ofFunc f

end

attribute [simp] ofExpr ofKind ofStmt ofStmtKind ofFunc ofClass ofMember ofMemberKind

def ofArg (a : Arg) : List Wording := ofName a.name ++ ofExpr a.value

def ofEntry (e : Entry) : List Wording := ofExpr e.key ++ ofExpr e.value

def ofCase (c : Case) : List Wording := ofOption c.condition ++ ofStmts c.body

def ofParam (p : Param) : List Wording := .name p.name :: (ofPath p.type ++ ofOption p.default)

@[simp] theorem ofName_none : ofName none = [] := rfl

@[simp] theorem ofName_some (name : String) : ofName (some name) = [.name name] := rfl

@[simp] theorem ofPath_none : ofPath none = [] := rfl

@[simp] theorem ofPath_some (path : TypePath) : ofPath (some path) = [.path path] := rfl

@[simp] theorem ofOption_eq (e : Option Expr) : ofOption e = e.toList.flatMap ofExpr := by
  cases e <;> simp [ofOption]

@[simp] theorem ofBody_eq (s : Option Stmt) : ofBody s = s.toList.flatMap ofStmt := by
  cases s <;> simp [ofBody]

@[simp] theorem ofAccessor_eq (f : Option Func) : ofAccessor f = f.toList.flatMap ofFunc := by
  cases f <;> simp [ofAccessor]

@[simp] theorem ofExprs_eq (es : List Expr) : ofExprs es = es.flatMap ofExpr :=
  eq_flatMap_of_cons rfl (fun _ _ => rfl) es

@[simp] theorem ofArgs_eq (as : List Arg) : ofArgs as = as.flatMap ofArg :=
  eq_flatMap_of_cons rfl (fun x _ => by cases x; rfl) as

@[simp] theorem ofEntries_eq (es : List Entry) : ofEntries es = es.flatMap ofEntry :=
  eq_flatMap_of_cons rfl (fun x _ => by cases x; rfl) es

@[simp] theorem ofStmts_eq (ss : List Stmt) : ofStmts ss = ss.flatMap ofStmt :=
  eq_flatMap_of_cons rfl (fun _ _ => rfl) ss

@[simp] theorem ofCases_eq (cs : List Case) : ofCases cs = cs.flatMap ofCase :=
  eq_flatMap_of_cons rfl (fun x _ => by cases x; rfl) cs

@[simp] theorem ofParams_eq (ps : List Param) : ofParams ps = ps.flatMap ofParam :=
  eq_flatMap_of_cons rfl (fun x _ => by cases x; rfl) ps

@[simp] theorem ofMembers_eq (ms : List Member) : ofMembers ms = ms.flatMap ofMember :=
  eq_flatMap_of_cons rfl (fun _ _ => rfl) ms

section
variable {A : Wording → Prop}

theorem fits_ofName {name : Option String} : Fits A (ofName name) ↔ ∀ n ∈ name, A (.name n) := by
  simp [Fits, ofName]

theorem fits_ofPath {path : Option TypePath} : Fits A (ofPath path) ↔ ∀ p ∈ path, A (.path p) := by
  simp [Fits, ofPath]

theorem fits_ofPaths {paths : List TypePath} : Fits A (ofPaths paths) ↔ ∀ p ∈ paths, A (.path p) := by
  simp [Fits, ofPaths]

theorem fits_ofStmts (ss : List Stmt) : Fits A (ofStmts ss) ↔ ∀ s ∈ ss, Fits A (ofStmt s) := by
  rw [ofStmts_eq, fits_flatMap]

end

end Worded

/-! ## Clean trees are spelled -/

def Citation.Spelled : Citation → Prop
  | .path p | .scope p | .imported p => p.Spelled
  | .declared name => QualifiedName.IsSegment name
  | .node e => Fits Wording.Clean (Worded.ofExpr e)

namespace Cited

theorem ofPath_spelled {path : Option TypePath} (h : Fits Wording.Clean (Worded.ofPath path)) :
    Fits Citation.Spelled (ofPath path) := by
  rw [Worded.fits_ofPath] at h
  rw [fits_ofPath]
  exact fun p hp => (Wording.clean_path.mp (h p hp)).spelled

theorem ofPaths_spelled {paths : List TypePath} (h : Fits Wording.Clean (Worded.ofPaths paths)) :
    Fits Citation.Spelled (ofPaths paths) := by
  rw [Worded.fits_ofPaths] at h
  rw [fits_ofPaths]
  exact fun p hp => (Wording.clean_path.mp (h p hp)).spelled

theorem ofUse_spelled {path : TypePath} (hp : path.Clean) : ∀ {kind : UseKind},
    Fits Wording.Clean (Worded.ofUse kind) → Fits Citation.Spelled (ofUse path kind)
  | .plain, _ | .alias _, _ => by
    simp only [ofUse, fits_cons, fits_nil, and_true]
    exact hp.spelled
  | .group targets, h => by
    simp only [Fits, ofUse, List.mem_map]
    rintro _ ⟨target, ht, rfl⟩
    simp only [Citation.Spelled, TypePath.Spelled, TypePath.segments, List.mem_append, List.mem_singleton]
    have name : IsWord target.name := h (.name target.name) (List.mem_map.mpr ⟨target, ht, rfl⟩)
    rintro s (hs | rfl)
    · exact hp.spelled s (by simpa [TypePath.segments] using hs)
    · exact name.isSegment

/-- What is cited is spelled if the texts are clean. -/
def Speaks (ws : List Wording) (cs : List Citation) : Prop := Fits Wording.Clean ws → Fits Citation.Spelled cs

namespace Speaks

variable {w : Wording} {c : Citation} {ws ws' : List Wording} {cs cs' : List Citation}

theorem nil : Speaks [] [] := fun _ => fits_nil

theorem append (h : Speaks ws cs) (h' : Speaks ws' cs') : Speaks (ws ++ ws') (cs ++ cs') :=
  fun clean => fits_append.mpr ⟨h clean.left, h' clean.right⟩

theorem cons (h : w.Clean → c.Spelled) (t : Speaks ws cs) : Speaks (w :: ws) (c :: cs) :=
  fun clean => fits_cons.mpr ⟨h clean.head, t clean.tail⟩

theorem skip (h : Speaks ws cs) : Speaks (w :: ws) cs := fun clean => h clean.tail

theorem behind (h : Speaks ws cs) : Speaks (ws' ++ ws) cs := fun clean => h clean.right

end Speaks

mutual

theorem ofExpr_spelled : ∀ e, Speaks (Worded.ofExpr e) (ofExpr e)
  | ⟨_, _, kind⟩ => fun h => fits_cons.mpr ⟨h, ofKind_spelled kind h⟩

theorem ofKind_spelled : ∀ kind, Speaks (Worded.ofKind kind) (ofKind kind)
  | .attribute _ args => (ofArgs_spelled args).cons TypePath.Clean.spelled
  | .assign _ e => (ofExpr_spelled e).skip
  | .unary _ e _ | .group e => ofExpr_spelled e
  | .binary a _ b | .logical a _ b | .range a b | .get a b => (ofExpr_spelled a).append (ofExpr_spelled b)
  | .isType e _ => (ofExpr_spelled e).append (.cons TypePath.Clean.spelled .nil)
  | .call callee args => (ofExpr_spelled callee).append (ofArgs_spelled args)
  | .set a b c | .ternary a b c => ((ofExpr_spelled a).append (ofExpr_spelled b)).append (ofExpr_spelled c)
  | .indexGet target index => (ofExpr_spelled target).append (ofOption_spelled index)
  | .indexSet target index value =>
    ((ofExpr_spelled target).append (ofOption_spelled index)).append (ofExpr_spelled value)
  | .path _ => .cons TypePath.Clean.spelled .nil
  | .list items _ => ofExprs_spelled items
  | .map entries _ => ofEntries_spelled entries
  | .lambda f => ofFunc_spelled f
  | .choose target cases => (ofExpr_spelled target).append (ofCases_spelled cases)
  | .super _ | .this | .static | .literal _ | .ident _ => fun _ => fits_nil

theorem ofOption_spelled : ∀ e, Speaks (Worded.ofOption e) (ofOption e)
  | none => .nil
  | some e => ofExpr_spelled e

theorem ofExprs_spelled : ∀ es, Speaks (Worded.ofExprs es) (ofExprs es)
  | [] => .nil
  | e :: es => (ofExpr_spelled e).append (ofExprs_spelled es)

theorem ofArgs_spelled : ∀ as, Speaks (Worded.ofArgs as) (ofArgs as)
  | [] => .nil
  | ⟨_, e⟩ :: as => (ofExpr_spelled e).behind.append (ofArgs_spelled as)

theorem ofEntries_spelled : ∀ es, Speaks (Worded.ofEntries es) (ofEntries es)
  | [] => .nil
  | ⟨key, value⟩ :: es => ((ofExpr_spelled key).append (ofExpr_spelled value)).append (ofEntries_spelled es)

theorem ofCases_spelled : ∀ cs, Speaks (Worded.ofCases cs) (ofCases cs)
  | [] => .nil
  | ⟨condition, body⟩ :: cs => ((ofOption_spelled condition).append (ofStmts_spelled body)).append (ofCases_spelled cs)

theorem ofStmt_spelled : ∀ s, Speaks (Worded.ofStmt s) (ofStmt s)
  | ⟨_, kind⟩ => ofStmtKind_spelled kind

theorem ofStmtKind_spelled : ∀ kind, Speaks (Worded.ofStmtKind kind) (ofStmtKind kind)
  | .expr e | .raise e => ofExpr_spelled e
  | .use _ _ _ => fun h => ofUse_spelled h.head h.tail
  | .inNamespace _ decls => (ofStmts_spelled decls).cons TypePath.Clean.spelled
  | .var _ _ init => (Speaks.append ofPath_spelled (ofOption_spelled init)).skip
  | .global _ => fun _ => fits_nil
  | .attempt body handlers => (ofStmt_spelled body).append (ofStmts_spelled handlers)
  | .handler _ _ body => (Speaks.append ofPath_spelled (ofStmt_spelled body)).skip
  | .loop cond body _ => (ofExpr_spelled cond).append (ofStmt_spelled body)
  | .forIn _ _ target body => ((ofExpr_spelled target).behind.append (ofStmt_spelled body)).skip
  | .branch cond yes no => ((ofExpr_spelled cond).append (ofStmt_spelled yes)).append (ofBody_spelled no)
  | .switch target cases => (ofExpr_spelled target).append (ofCases_spelled cases)
  | .block stmts => ofStmts_spelled stmts
  | .ret value => ofOption_spelled value
  | .func f => (ofFunc_spelled f).cons fun h => h.1.isSegment
  | .cls c => (ofClass_spelled c).cons fun h => IsWord.isSegment h

theorem ofStmts_spelled : ∀ ss, Speaks (Worded.ofStmts ss) (ofStmts ss)
  | [] => .nil
  | s :: ss => (ofStmt_spelled s).append (ofStmts_spelled ss)

theorem ofBody_spelled : ∀ s, Speaks (Worded.ofBody s) (ofBody s)
  | none => .nil
  | some s => ofStmt_spelled s

theorem ofFunc_spelled : ∀ f, Speaks (Worded.ofFunc f) (ofFunc f)
  | ⟨_, params, body, _, attributes, _⟩ =>
    (((ofParams_spelled params).append (ofBody_spelled body)).append ofPath_spelled).append (ofExprs_spelled attributes)

theorem ofParams_spelled : ∀ ps, Speaks (Worded.ofParams ps) (ofParams ps)
  | [] => .nil
  | ⟨_, _, default, _, _⟩ :: ps =>
    (Speaks.append ofPath_spelled (ofOption_spelled default)).skip.append (ofParams_spelled ps)

theorem ofClass_spelled : ∀ c, Speaks (Worded.ofClass c) (ofClass c)
  | ⟨_, _, _, _, members, attributes, _⟩ => ((Speaks.append ofPath_spelled ofPaths_spelled).append
      (ofMembers_spelled members)).append (ofExprs_spelled attributes)

theorem ofMembers_spelled : ∀ ms, Speaks (Worded.ofMembers ms) (ofMembers ms)
  | [] => .nil
  | m :: ms => (ofMember_spelled m).append (ofMembers_spelled ms)

theorem ofMember_spelled : ∀ m, Speaks (Worded.ofMember m) (ofMember m)
  | ⟨_, kind, _, attributes, _⟩ => (ofMemberKind_spelled kind).behind.append (ofExprs_spelled attributes)

theorem ofMemberKind_spelled : ∀ kind, Speaks (Worded.ofMemberKind kind) (ofMemberKind kind)
  | .use _ => .cons TypePath.Clean.spelled .nil
  | .field _ init => Speaks.append ofPath_spelled (ofOption_spelled init)
  | .property _ getter setter =>
    (Speaks.append ofPath_spelled (ofAccessor_spelled getter)).append (ofAccessor_spelled setter)
  | .method f => ofFunc_spelled f

theorem ofAccessor_spelled : ∀ f, Speaks (Worded.ofAccessor f) (ofAccessor f)
  | none => .nil
  | some f => ofFunc_spelled f

end

end Cited

end PhaseLang
