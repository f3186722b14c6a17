import MiniJava.Syntax.Tree
import MiniJava.Text.Quoted
import MiniJava.Typing.Ty
/-!
Trees in full detail: every part of every phrase on a line of its own.
-/
namespace MiniJava.Dump

/-- A value as it is shown: on one line, or as parts between an opening and a closing line. -/
inductive Item where
  | line (text : String)
  | group (opening : String) (parts : List Item) (closing : String)

namespace Item

def labelled (name : String) : Item → Item
  | line text => line (name ++ ": " ++ text)
  | group opening parts closing => group (name ++ ": " ++ opening) parts closing

mutual

/-- The lines of a value; `ending` follows the last one. -/
def lines (ending : String) : Item → List String
  | .line text => [text ++ ending]
  | .group opening parts closing =>
    opening :: (linesOf parts).map ("  " ++ ·) ++ [closing ++ ending]

/-- The lines of parts, which commas separate. -/
def linesOf : List Item → List String
  | [] => []
  | [i] => i.lines ""
  | i :: is => i.lines "," ++ linesOf is

end

end Item

def node (type : String) (parts : List (String × Item)) : Item :=
  .group ("(*internal." ++ type ++ ")(\x7b") (parts.map fun (name, i) => i.labelled name) "\x7d)"

def base (type : String) (parts : List (String × Item)) : String × Item :=
  (type, .group ("(internal." ++ type ++ ") \x7b") (parts.map fun (name, i) => i.labelled name)
    "\x7d")

/-- A list of values; an empty one is shown as nothing. -/
def list (type : String) (items : List Item) : Item :=
  if items.isEmpty then .line ("([]" ++ type ++ ") <nil>")
  else .group ("([]" ++ type ++ ") (len=" ++ toString items.length ++ ") \x7b") items "\x7d"

def span (s : Span) : String × Item := ("Pos", .line ("(internal.SourcePosition) " ++ s.describe))

def bool (b : Bool) : Item := .line ("(bool) " ++ toString b)

def text (s : String) : Item :=
  .line (if s.isEmpty then "(string) \"\"" else "(string) (len=" ++ toString s.utf8ByteSize ++
    ") " ++ Quoted.text s)

def type (t : Ty) : Item :=
  let kind := match t with
    | .cls _ => "ClassType"
    | .array _ => "ArrayType"
    | _ => "BaseType"
  .line ("(*internal." ++ kind ++ ")(" ++ t.text ++ ")")

def ident (id : Ident) : String × Item :=
  ("Id", node "Identifier" [("Spelling", text id.name), span id.span])

def ref : Ref → Item
  | .this s _ => node "ThisRef" [span s]
  | .name id _ => node "IdRef" [ident id]
  | .member q id d => node "QualRef" [("Ref", ref q), ident id, span (Ref.member q id d).span]

def operator (spelling : String) (s : Span) : String × Item :=
  ("Op", node "Operator" [("Spelling", text spelling), span s])

def args (items : List Item) : String × Item := ("Args", list "internal.Expression" items)

def literalKind : Literal → Nat
  | .int _ => 0
  | .bool _ => 1
  | .null => 2

mutual

def expr : Expr → Item
  | .unary op s e =>
    node "UnaryExpression" [operator op.text s, ("Operand", expr e), span (Expr.unary op s e).span]
  | .binary op s l r =>
    node "BinaryExpression"
      [operator op.text s, ("Left", expr l), ("Right", expr r), span (Expr.binary op s l r).span]
  | .ref r => node "RefExpression" [("Ref", ref r), span r.span]
  | .index r i s => node "IndexExpression" [("Ref", ref r), ("Index", expr i), span s]
  | .call r es s => node "CallExpression" [("MethodRef", ref r), args (exprs es), span s]
  | .literal l s =>
    node "LiteralExpression"
      [("Kind", .line ("(internal.LiteralKind) " ++ toString (literalKind l))),
        ("Spelling", text l.text),
        ("Value", .line ("(int) " ++ toString l.value)), span s]
  | .newObject c s => node "NewObjectExpression" [("Class", type (.cls c.name)), span s]
  | .newArray t size s =>
    node "NewArrayExpression" [("ElementType", type t.ty), ("Size", expr size), span s]

def exprs : List Expr → List Item
  | [] => []
  | e :: es => expr e :: exprs es

end

/-- The parts that all declarations share; in a tree none of them is a second one. -/
def declaration (name : String) (t : Ty) (s : Span) : String × Item :=
  base "DeclarationBase" [("Name", text name), ("Type", type t), span s, ("Duplicated", bool false)]

mutual

def stmt : Stmt → Item
  | .block body s =>
    node "BlockStatement" [("Statements", list "internal.Statement" (stmts body)), span s]
  | .declare v init s =>
    node "VarDeclareStatement"
      [("Var", node "VarDecl" [declaration v.name v.type.ty v.span]), ("Init", expr init), span s]
  | .assign r value s => node "AssignStatement" [("Ref", ref r), ("Value", expr value), span s]
  | .assignIndex r i value s =>
    node "IndexAssignStatement" [("Ref", ref r), ("Index", expr i), ("Value", expr value), span s]
  | .call r es s => node "CallStatement" [("MethodRef", ref r), args (exprs es), span s]
  | .ret none s => node "ReturnStatement" [("Value", .line "(internal.Expression) <nil>"), span s]
  | .ret (some value) s => node "ReturnStatement" [("Value", expr value), span s]
  | .ifThen cond t s =>
    node "IfStatement"
      [("Condition", expr cond), ("Then", stmt t), ("Else", .line "(internal.Statement) <nil>"),
        span s]
  | .ifElse cond t e s =>
    node "IfStatement" [("Condition", expr cond), ("Then", stmt t), ("Else", stmt e), span s]
  | .loop cond body s =>
    node "WhileStatement" [("Condition", expr cond), ("Body", stmt body), span s]

def stmts : List Stmt → List Item
  | [] => []
  | s :: ss => stmt s :: stmts ss

end

def member (name : String) (t : Ty) (s : Span) (isPrivate isStatic : Bool) : String × Item :=
  base "MemberBase" [declaration name t s, ("IsPrivate", bool isPrivate),
    ("IsStatic", bool isStatic)]

def field (f : Field) : Item :=
  node "FieldDecl" [member f.name f.type.ty f.span f.isPrivate f.isStatic]

def param (v : Variable) : Item := node "ParameterDecl" [declaration v.name v.type.ty v.span]

def method (m : Method) : Item :=
  node "MethodDecl"
    [member m.name m.type.ty m.span m.isPrivate m.isStatic,
      ("Parameters", list "*internal.ParameterDecl" (m.params.map param)),
      ("Statements", list "internal.Statement" (stmts m.body))]

def classDecl (c : ClassDecl) : Item :=
  node "ClassDecl"
    [declaration c.name (.cls c.name) c.span,
      ("Fields", list "*internal.FieldDecl" (c.fields.map field)),
      ("Methods", list "*internal.MethodDecl" (c.methods.map method))]

def program (p : Program) : Item :=
  node "Package" [("Classes", list "*internal.ClassDecl" (p.classes.map classDecl)), span p.span]

end MiniJava.Dump

/-- A program in full detail, one part to a line. -/
def MiniJava.Program.dump (p : MiniJava.Program) : String :=
  String.join (((MiniJava.Dump.program p).lines "").map (· ++ "\n"))
