import MiniJava.Syntax.Site
import MiniJava.Syntax.Walk
/-!
Trees in nested parentheses, one phrase to each pair, with the lines it stands on.
-/
namespace MiniJava.Outline

def lines (s : Span) : String := s!"@{s.first}-{s.last}"

/-- Parts in parentheses, separated by blanks. -/
def node (parts : List String) : String := "(" ++ " ".intercalate parts ++ ")"

def type : TypeName → String
  | .int s => node ["int", lines s]
  | .boolean s => node ["boolean", lines s]
  | .void s => node ["void", lines s]
  | .cls id => node ["classtype", id.name, lines id.span]
  | .array elem s => node ["array", type elem, lines s]

def ref : Ref → String
  | .this s _ => node ["this", lines s]
  | .name id _ => node ["id", id.name, lines id.span]
  | .member q id d => node ["qual", lines (Ref.member q id d).span, ref q, id.name]

def literalKind : Literal → String
  | .int _ => "int"
  | .bool _ => "boolean"
  | .null => "null"

mutual

def expr : Expr → String
  | .unary op s e => node ["unary", op.text, lines (Expr.unary op s e).span, expr e]
  | .binary op s l r => node ["binary", op.text, lines (Expr.binary op s l r).span, expr l, expr r]
  | .ref r => node ["ref", lines r.span, ref r]
  | .index r i s => node ["index", lines s, ref r, expr i]
  | .call r args s => node ("call" :: lines s :: ref r :: exprs args)
  | .literal l s => node ["lit", literalKind l, l.text, toString l.value, lines s]
  | .newObject cls s => node ["newobject", lines s, type (.cls cls)]
  | .newArray elem size s => node ["newarray", lines s, type elem, expr size]

def exprs : List Expr → List String
  | [] => []
  | e :: es => expr e :: exprs es

end

mutual

def stmt : Stmt → String
  | .block body s => node ("block" :: lines s :: stmts body)
  | .declare v init s => node ["var", lines s, v.name, lines v.span, type v.type, expr init]
  | .assign r value s => node ["assign", lines s, ref r, expr value]
  | .assignIndex r i value s => node ["indexassign", lines s, ref r, expr i, expr value]
  | .call r args s => node ("callstmt" :: lines s :: ref r :: exprs args)
  | .ret none s => node ["return", lines s]
  | .ret (some value) s => node ["return", lines s, expr value]
  | .ifThen cond t s => node ["if", lines s, expr cond, stmt t]
  | .ifElse cond t e s => node ["if", lines s, expr cond, stmt t, stmt e]
  | .loop cond body s => node ["while", lines s, expr cond, stmt body]

def stmts : List Stmt → List String
  | [] => []
  | s :: ss => stmt s :: stmts ss

end

def visibility (isPrivate : Bool) : String := if isPrivate then "private" else "public"

def access (isStatic : Bool) : String := if isStatic then "static" else "instance"

def param (v : Variable) : String := node ["param", v.name, lines v.span, type v.type]

def params (vs : List Variable) : String := node ("params" :: vs.map param)

def args (es : List Expr) : String := node ("args" :: exprs es)

def field (f : Field) : String :=
  node ["field", f.name, lines f.span, visibility f.isPrivate, access f.isStatic, type f.type]

def method (m : Method) : String :=
  node ["method", m.name, lines m.span, visibility m.isPrivate, access m.isStatic, type m.type,
    params m.params, node ("body" :: stmts m.body)]

def classDecl (c : ClassDecl) : String :=
  node ["class", c.name, lines c.span, type (.cls c.id), node ("fields" :: c.fields.map field),
    node ("methods" :: c.methods.map method)]

def program (p : Program) : String := node ("package" :: lines p.span :: p.classes.map classDecl)

def exprLabel : Expr → String
  | .unary op _ _ => node ["unary", op.text]
  | .binary op _ _ _ => node ["binary", op.text]
  | .ref _ => node ["ref"]
  | .index _ _ _ => node ["index"]
  | .call _ _ _ => node ["call"]
  | .literal l _ => node ["lit", l.text]
  | .newObject _ _ => node ["newobject"]
  | .newArray _ _ _ => node ["newarray"]

def nodeLabel : Node → String
  | .ref r => s!"{r.text} {lines r.span}"
  | .expr e => s!"{exprLabel e} {lines e.span}"

/-- What every reference of a program denotes. -/
def meanings (p : Program) : List String :=
  p.nodes.filterMap fun (c, m, n) =>
    match n with
    | .ref r => some s!"{nodeLabel n} -> {p.describe c m r.meaning}"
    | .expr _ => none

def memberLabel : Meaning → String
  | .field _ f => s!"field {type f.type}"
  | .method _ m => s!"method {type m.type}"
  | d => d.kind.text

end MiniJava.Outline
