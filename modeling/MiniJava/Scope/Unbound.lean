import MiniJava.Syntax.Tree
/-!
Programs whose references denote nothing.
-/
namespace MiniJava

def Ref.unbound : Ref → Ref
  | this s _ => this s none
  | name id _ => name id none
  | member q id _ => member q.unbound id none

mutual

def Expr.unbound : Expr → Expr
  | .unary op s e => .unary op s e.unbound
  | .binary op s l r => .binary op s l.unbound r.unbound
  | .ref r => .ref r.unbound
  | .index r i s => .index r.unbound i.unbound s
  | .call r args s => .call r.unbound (Expr.unboundAll args) s
  | .literal l s => .literal l s
  | .newObject c s => .newObject c s
  | .newArray t size s => .newArray t size.unbound s

def Expr.unboundAll : List Expr → List Expr
  | [] => []
  | e :: es => e.unbound :: Expr.unboundAll es

end

mutual

def Stmt.unbound : Stmt → Stmt
  | .block body s => .block (Stmt.unboundAll body) s
  | .declare v init s => .declare v init.unbound s
  | .assign r value s => .assign r.unbound value.unbound s
  | .assignIndex r i value s => .assignIndex r.unbound i.unbound value.unbound s
  | .call r args s => .call r.unbound (Expr.unboundAll args) s
  | .ret none s => .ret none s
  | .ret (some value) s => .ret (some value.unbound) s
  | .ifThen cond t s => .ifThen cond.unbound t.unbound s
  | .ifElse cond t e s => .ifElse cond.unbound t.unbound e.unbound s
  | .loop cond body s => .loop cond.unbound body.unbound s

def Stmt.unboundAll : List Stmt → List Stmt
  | [] => []
  | s :: ss => s.unbound :: Stmt.unboundAll ss

end

def Method.unbound (m : Method) : Method := { m with body := Stmt.unboundAll m.body }

def ClassDecl.unbound (c : ClassDecl) : ClassDecl :=
  { c with methods := c.methods.map Method.unbound }

def Program.unbound (p : Program) : Program := { p with classes := p.classes.map ClassDecl.unbound }

end MiniJava
