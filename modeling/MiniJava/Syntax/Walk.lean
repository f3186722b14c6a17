import MiniJava.Syntax.Tree
/-!
The references and expressions of a phrase, parts before the whole.
-/
namespace MiniJava

inductive Node where
  | ref (r : Ref)
  | expr (e : Expr)

def Node.span : Node → Span
  | ref r => r.span
  | expr e => e.span

def Ref.nodes : Ref → List Node
  | this s d => [.ref (.this s d)]
  | name id d => [.ref (.name id d)]
  | member q id d => q.nodes ++ [.ref (.member q id d)]

theorem Ref.self_mem_nodes (r : Ref) : .ref r ∈ r.nodes := by
  cases r <;> simp [Ref.nodes]

mutual

def Expr.nodes : Expr → List Node
  | .unary op s e => e.nodes ++ [.expr (.unary op s e)]
  | .binary op s l r => l.nodes ++ r.nodes ++ [.expr (.binary op s l r)]
  | .ref r => r.nodes ++ [.expr (.ref r)]
  | .index r i s => r.nodes ++ i.nodes ++ [.expr (.index r i s)]
  | .call r args s => r.nodes ++ Expr.nodesOf args ++ [.expr (.call r args s)]
  | .literal l s => [.expr (.literal l s)]
  | .newObject c s => [.expr (.newObject c s)]
  | .newArray t size s => size.nodes ++ [.expr (.newArray t size s)]

def Expr.nodesOf : List Expr → List Node
  | [] => []
  | e :: es => e.nodes ++ Expr.nodesOf es

end

mutual

def Stmt.nodes : Stmt → List Node
  | .block body _ => Stmt.nodesOf body
  | .declare _ init _ => init.nodes
  | .assign r value _ => r.nodes ++ value.nodes
  | .assignIndex r i value _ => r.nodes ++ i.nodes ++ value.nodes
  | .call r args _ => r.nodes ++ Expr.nodesOf args
  | .ret none _ => []
  | .ret (some value) _ => value.nodes
  | .ifThen cond t _ => cond.nodes ++ t.nodes
  | .ifElse cond t e _ => cond.nodes ++ t.nodes ++ e.nodes
  | .loop cond body _ => cond.nodes ++ body.nodes

def Stmt.nodesOf : List Stmt → List Node
  | [] => []
  | s :: ss => s.nodes ++ Stmt.nodesOf ss

end

def Method.nodes (m : Method) : List Node := Stmt.nodesOf m.body

def Program.nodes (p : Program) : List (Nat × Nat × Node) :=
  (p.classes.mapIdx fun c d =>
    (d.methods.mapIdx fun i m => m.nodes.map fun n => (c, i, n)).flatten).flatten

end MiniJava
