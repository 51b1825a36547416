import PhaseLang.Text
import PhaseLang.Tree

/-!
# Outlines

The outline of a tree shows one node on each line, two spaces deeper than its parent. It
leaves out positions. `note` gives the text to put after an expression, by its id: nothing
for a plain outline, the type for a typed one.
-/

namespace PhaseLang.Outline

def line (depth : Nat) (text : String) : String := Text.fill (2 * depth) ' ' ++ text ++ "\n"

def annotation : Option TypePath → String
  | none => ""
  | some type => s!": {type.text}"

def param (p : Param) : String :=
  (if p.promoted then "this." else "") ++ p.name ++ annotation p.type

def params (ps : List Param) : String := ", ".intercalate (ps.map param)

def signature (f : Func) : String := s!"{f.name}({params f.params}){annotation f.result}"

def use (path : TypePath) : UseKind → String
  | .plain => s!"use {path.text}"
  | .alias target => s!"use {path.text} as {target.name}"
  | .group targets =>
    s!"use {path.text}::" ++ "\x7b" ++ ", ".intercalate (targets.map (·.name)) ++ "\x7d"

def classHead (c : Class) : String :=
  let keyword := match c.kind with
    | .plain => "class"
    | .interface => "interface"
    | .trait => "trait"
  let inherits := match c.parent with
    | none => ""
    | some path => s!" extends {path.text}"
  let conforms := match c.kind with
    | .interface => "extends"
    | _ => "implements"
  s!"{keyword} {c.name}{inherits}" ++
    if c.interfaces.isEmpty then ""
    else s!" {conforms} " ++ ", ".intercalate (c.interfaces.map (·.text))

def modifiers (ms : List Modifier) : String := String.join (ms.map (·.text ++ " "))

def memberHead (m : Member) : String :=
  modifiers m.modifiers ++ match m.kind with
    | .use path => s!"use {path.text}"
    | .field type _ => s!"var {m.name}{annotation type}"
    | .property type _ _ => s!"prop {m.name}{annotation type}"
    | .method f => s!"fun {signature f}"

def describe : ExprKind → String
  | .attribute path _ => s!"attribute {path.text}"
  | .assign name _ => s!"assign {name}"
  | .binary _ op _ => s!"binary {op.text}"
  | .unary op _ leading => s!"unary {op.text}" ++ if leading then "" else " (postfix)"
  | .isType _ type => s!"is {type.text}"
  | .logical _ op _ => s!"logical {op.text}"
  | .range _ _ => "range"
  | .call _ _ => "call"
  | .get _ field => match field.ident? with
    | some name => s!"get .{name}"
    | none => "get"
  | .set _ field _ => match field.ident? with
    | some name => s!"set .{name}"
    | none => "set"
  | .indexGet _ _ => "index"
  | .indexSet _ _ _ => "index-set"
  | .ternary _ _ _ => "ternary"
  | .super method => s!"super.{method}"
  | .path path => s!"path {path.text}"
  | .this => "this"
  | .static => "static"
  | .group _ => "grouping"
  | .literal (.string value) => s!"string \"{value}\""
  | .literal (.number digits) => s!"number {digits}"
  | .literal .true => "true"
  | .literal .false => "false"
  | .literal .null => "null"
  | .list _ native => if native then "native array" else "array"
  | .map _ native => if native then "native map" else "map"
  | .lambda f => s!"lambda({params f.params})"
  | .ident name => s!"variable {name}"
  | .choose _ _ => "match"

section
variable (note : Nat → String)

mutual

def expr (depth : Nat) : Expr → String
  | ⟨id, _, kind⟩ => line depth (describe kind ++ note id) ++ parts (depth + 1) kind

def parts (depth : Nat) : ExprKind → String
  | .attribute _ as => args depth as
  | .assign _ value => expr depth value
  | .binary l _ r => expr depth l ++ expr depth r
  | .logical l _ r => expr depth l ++ expr depth r
  | .unary _ e _ => expr depth e
  | .isType e _ => expr depth e
  | .group e => expr depth e
  | .range l u => expr depth l ++ expr depth u
  | .call callee as => expr depth callee ++ args depth as
  | .get target ⟨_, _, .ident _⟩ => expr depth target
  | .get target field => expr depth target ++ expr depth field
  | .set target ⟨_, _, .ident _⟩ value => expr depth target ++ expr depth value
  | .set target field value => expr depth target ++ expr depth field ++ expr depth value
  | .indexGet target none => expr depth target
  | .indexGet target (some index) => expr depth target ++ expr depth index
  | .indexSet target none value => expr depth target ++ expr depth value
  | .indexSet target (some index) value =>
    expr depth target ++ expr depth index ++ expr depth value
  | .ternary cond yes no => expr depth cond ++ expr depth yes ++ expr depth no
  | .list items _ => exprs depth items
  | .map es _ => entries depth es
  | .lambda f => func depth f
  | .choose target cs => expr depth target ++ cases depth cs
  | .super _ => ""
  | .path _ => ""
  | .this => ""
  | .static => ""
  | .literal _ => ""
  | .ident _ => ""

def exprs (depth : Nat) : List Expr → String
  | [] => ""
  | e :: es => expr depth e ++ exprs depth es

def args (depth : Nat) : List Arg → String
  | [] => ""
  | ⟨none, value⟩ :: as => expr depth value ++ args depth as
  | ⟨some name, value⟩ :: as =>
    line depth s!"named {name}" ++ expr (depth + 1) value ++ args depth as

def entries (depth : Nat) : List Entry → String
  | [] => ""
  | ⟨key, value⟩ :: es =>
    line depth "entry" ++ expr (depth + 1) key ++ expr (depth + 1) value ++ entries depth es

def cases (depth : Nat) : List Case → String
  | [] => ""
  | ⟨none, body⟩ :: cs => line depth "default" ++ stmts (depth + 1) body ++ cases depth cs
  | ⟨some condition, body⟩ :: cs =>
    line depth "case" ++ expr (depth + 1) condition ++ stmts (depth + 1) body ++ cases depth cs

def func (depth : Nat) : Func → String
  | ⟨_, ps, none, _, attributes, _⟩ => exprs depth attributes ++ defaults depth ps
  | ⟨_, ps, some body, _, attributes, _⟩ =>
    exprs depth attributes ++ defaults depth ps ++ stmt depth body

def defaults (depth : Nat) : List Param → String
  | [] => ""
  | ⟨_, _, none, _, _⟩ :: ps => defaults depth ps
  | ⟨name, _, some value, _, _⟩ :: ps =>
    line depth s!"default {name}" ++ expr (depth + 1) value ++ defaults depth ps

def stmt (depth : Nat) : Stmt → String
  | ⟨_, .expr e⟩ => expr depth e
  | ⟨_, .use path kind attributes⟩ => line depth (use path kind) ++ exprs (depth + 1) attributes
  | ⟨_, .inNamespace path decls⟩ =>
    line depth s!"namespace {path.text}" ++ stmts (depth + 1) decls
  | ⟨_, .var name type none⟩ => line depth s!"var {name}{annotation type}"
  | ⟨_, .var name type (some init)⟩ =>
    line depth s!"var {name}{annotation type}" ++ expr (depth + 1) init
  | ⟨_, .global name⟩ => line depth s!"global {name}"
  | ⟨_, .raise e⟩ => line depth "throw" ++ expr (depth + 1) e
  | ⟨_, .attempt body handlers⟩ =>
    line depth "try" ++ stmt (depth + 1) body ++ stmts (depth + 1) handlers
  | ⟨_, .handler name type body⟩ =>
    line depth s!"catch {name}{annotation type}" ++ stmt (depth + 1) body
  | ⟨_, .loop cond body inverted⟩ =>
    line depth (if inverted then "do-while" else "while") ++ expr (depth + 1) cond ++
      stmt (depth + 1) body
  | ⟨_, .forIn key value target body⟩ =>
    let names := match value with
      | none => key
      | some value => s!"{key}, {value}"
    line depth s!"for {names} in" ++ expr (depth + 1) target ++ stmt (depth + 1) body
  | ⟨_, .branch cond yes none⟩ =>
    line depth "if" ++ expr (depth + 1) cond ++ stmt (depth + 1) yes
  | ⟨_, .branch cond yes (some no)⟩ =>
    line depth "if" ++ expr (depth + 1) cond ++ stmt (depth + 1) yes ++
      line (depth + 1) "else" ++ stmt (depth + 2) no
  | ⟨_, .switch target cs⟩ =>
    line depth "switch" ++ expr (depth + 1) target ++ cases (depth + 1) cs
  | ⟨_, .block ss⟩ => line depth "block" ++ stmts (depth + 1) ss
  | ⟨_, .ret none⟩ => line depth "return"
  | ⟨_, .ret (some e)⟩ => line depth "return" ++ expr (depth + 1) e
  | ⟨_, .func f⟩ => line depth s!"function {signature f}" ++ func (depth + 1) f
  | ⟨_, .cls c⟩ => line depth (classHead c) ++ classBody (depth + 1) c

def stmts (depth : Nat) : List Stmt → String
  | [] => ""
  | s :: ss => stmt depth s ++ stmts depth ss

def classBody (depth : Nat) : Class → String
  | ⟨_, _, _, _, ms, attributes, _⟩ => exprs depth attributes ++ members depth ms

def members (depth : Nat) : List Member → String
  | [] => ""
  | m :: ms => line depth (memberHead m) ++ member (depth + 1) m ++ members depth ms

def member (depth : Nat) : Member → String
  | ⟨_, .use _, _, _, _⟩ => ""
  | ⟨_, .field _ none, _, attributes, _⟩ => exprs depth attributes
  | ⟨_, .field _ (some init), _, attributes, _⟩ => exprs depth attributes ++ expr depth init
  | ⟨_, .property _ getter setter, _, attributes, _⟩ =>
    exprs depth attributes ++ getterPart depth getter ++ setterPart depth setter
  | ⟨_, .method f, _, _, _⟩ => func depth f

def getterPart (depth : Nat) : Option Func → String
  | none => ""
  | some f => line depth "get" ++ func (depth + 1) f

def setterPart (depth : Nat) : Option Func → String
  | none => ""
  | some f => line depth s!"set({params f.params})" ++ func (depth + 1) f

end

end

def plain (program : List Stmt) : String := stmts (fun _ => "") 0 program

end PhaseLang.Outline
