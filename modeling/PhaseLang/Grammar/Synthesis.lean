import PhaseLang.Tree

/-!
# Synthesized statements

Two statements are not written in source text but follow from it: the assignment that
stores a promoted parameter, and the body of an enum's factory. They are laid out and
numbered as the text they stand for would be, in a file of their own.
-/

namespace PhaseLang.Synthesis

def file : String := "<generated>"

def span (start length : Nat) : Position := ⟨start, start + length, file⟩

def promotionIds : Nat := 5

/-- The statement `this.name = name`, with expression ids from `id` on. One id goes to the
member `this.name`, in whose place the assignment comes. -/
def promotion (id : Nat) (name : String) : Stmt :=
  let n := name.utf8ByteSize
  let target : Expr := ⟨id, span 0 4, .this⟩
  let field : Expr := ⟨id + 1, span 5 n, .ident name⟩
  let value : Expr := ⟨id + 3, span (8 + n) n, .ident name⟩
  let pos := span 0 (8 + 2 * n)
  ⟨pos, .expr ⟨id + 4, pos, .set target field value⟩⟩

/-- Names as expressions, with `, ` between them, from byte `start` on; and where they end. -/
def nameList (id start : Nat) : List String → List Expr × Nat
  | [] => ([], start)
  | name :: names =>
    let n := name.utf8ByteSize
    let e : Expr := ⟨id, span start n, .ident name⟩
    match names with
    | [] => ([e], start + n)
    | _ =>
      let (es, stop) := nameList (id + 1) (start + n + 2) names
      (e :: es, stop)

def factoryIds (params : List String) : Nat := 5 + params.length

/-- The block `return Enum(index, "case", [params])` in braces, with expression ids from
`id` on. -/
def factory (id : Nat) (enumName caseName : String) (index : Nat) (params : List String) : Stmt :=
  let digits := toString index
  let callee : Expr := ⟨id, span 9 enumName.utf8ByteSize, .path (.ofName enumName)⟩
  let ordinal : Expr :=
    ⟨id + 1, span (callee.pos.stop + 1) digits.length, .literal (.number digits)⟩
  let label : Expr :=
    ⟨id + 2, span (ordinal.pos.stop + 2) (caseName.utf8ByteSize + 2), .literal (.string caseName)⟩
  let opening := label.pos.stop + 2
  let (items, close) := nameList (id + 3) (opening + 1) params
  let values : Expr := ⟨id + 3 + params.length, ⟨opening, close + 1, file⟩, .list items false⟩
  let args : List Arg := [⟨none, ordinal⟩, ⟨none, label⟩, ⟨none, values⟩]
  let call : Expr := ⟨id + 4 + params.length, ⟨9, close + 2, file⟩, .call callee args⟩
  ⟨⟨0, close + 4, file⟩, .block [⟨⟨2, close + 2, file⟩, .ret (some call)⟩]⟩

end PhaseLang.Synthesis
