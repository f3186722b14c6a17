import MiniJava.Syntax.Tree
/-!
The shape of a program: its tree without the lines where its phrases stand.
-/
namespace MiniJava

def blank : Span := .line 0

def Ident.shape (id : Ident) : Ident := ⟨id.name, blank⟩

def TypeName.shape : TypeName → TypeName
  | int _ => int blank
  | boolean _ => boolean blank
  | void _ => void blank
  | cls id => cls id.shape
  | array elem _ => array elem.shape blank

def Variable.shape (v : Variable) : Variable := ⟨v.name, v.type.shape, blank⟩

def Field.shape (f : Field) : Field := { f with type := f.type.shape, span := blank }

def Ref.shape : Ref → Ref
  | this _ d => this blank d
  | name id d => name id.shape d
  | member q id d => member q.shape id.shape d

mutual

def Expr.shape : Expr → Expr
  | .unary op _ e => .unary op blank e.shape
  | .binary op _ l r => .binary op blank l.shape r.shape
  | .ref r => .ref r.shape
  | .index r i _ => .index r.shape i.shape blank
  | .call r args _ => .call r.shape (Expr.shapes args) blank
  | .literal l _ => .literal l blank
  | .newObject c _ => .newObject c.shape blank
  | .newArray t size _ => .newArray t.shape size.shape blank

def Expr.shapes : List Expr → List Expr
  | [] => []
  | e :: es => e.shape :: Expr.shapes es

end

mutual

def Stmt.shape : Stmt → Stmt
  | .block body _ => .block (Stmt.shapes body) blank
  | .declare v init _ => .declare v.shape init.shape blank
  | .assign r value _ => .assign r.shape value.shape blank
  | .assignIndex r i value _ => .assignIndex r.shape i.shape value.shape blank
  | .call r args _ => .call r.shape (Expr.shapes args) blank
  | .ret none _ => .ret none blank
  | .ret (some value) _ => .ret (some value.shape) blank
  | .ifThen cond t _ => .ifThen cond.shape t.shape blank
  | .ifElse cond t e _ => .ifElse cond.shape t.shape e.shape blank
  | .loop cond body _ => .loop cond.shape body.shape blank

def Stmt.shapes : List Stmt → List Stmt
  | [] => []
  | s :: ss => s.shape :: Stmt.shapes ss

end

def Method.shape (m : Method) : Method :=
  { m with
    type := m.type.shape, span := blank, params := m.params.map Variable.shape, body :=
    Stmt.shapes m.body }

def ClassDecl.shape (c : ClassDecl) : ClassDecl :=
  ⟨c.id.shape, blank, c.fields.map Field.shape, c.methods.map Method.shape⟩

def Program.shape (p : Program) : Program := ⟨p.classes.map ClassDecl.shape, blank⟩

end MiniJava
