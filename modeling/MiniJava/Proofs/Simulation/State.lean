import MiniJava.Proofs.Generate.Scoped
import MiniJava.Proofs.Machine.Effect
import MiniJava.Proofs.Semantics.Typed
import MiniJava.Proofs.Syntax.Declarations
/-!
How a machine that runs the code of a program pictures an evaluation of the program: static fields
at the bottom of the stack, then the frames of the callers, then the frame of the current activation
with its parameters, its locals in scope and the operands of the expression that is being evaluated.
-/
namespace MiniJava

/-- What the front end grants about a program. -/
structure Program.Accepted (p : Program) : Prop where
  bound : p.Bound
  methods : ∀ c ∈ p.classes, ∀ m ∈ c.methods, m.WellTyped
  admitted : ∀ c ∈ p.classes, c.Admitted

namespace Simulation

open Generate Machine Semantics

/-- The code of a program in the machine, and the channels of the run. The output takes every
write. -/
structure Host (p : Program) where
  items : Annotated
  address : MethodKey → Option Nat
  code : Code
  input : Option Input
  output : Output
  accepted : p.Accepted
  linked : ∀ (a : Nat) x, items[a]? = some x → ∃ i, x.1.link address = .ok i ∧ code[a]? = some i
  small : code.size < 2 ^ 63
  methods : ∀ key m, p.method? key = some m → ∃ a, address key = some a ∧
    StandsAt p.classLayouts items a m
  fields : ∀ c ∈ p.heads, c.fields.length < 2 ^ 63
  accepts : ∀ bs n, (output.append bs).refusal? n = none

/-- The frames below that of an activation, given its saved local base and the address to come back
to. Each caller is suspended at a call, with its variables in place. -/
inductive Chain {p : Program} (H : Host p) (W : World)
    (statics : Nat) : List Word → Word → Word → Prop
  | entry {lb : Word} {a : Nat} : H.items.scopeAt a = some none →
      Chain H W statics [] lb (Word.ofNat (a + 1))
  | call {below args locals ops : List Word} {ob lb back : Word} {scope : Scope} {a : Nat} :
      Chain H W statics below lb back → H.items.scopeAt a = some (some scope) →
      List.Forall₂ (fun v w => W.Holds v.type.ty w) scope.params args →
      List.Forall₂ (fun x w => W.Holds x.2.type.ty w) scope.vars locals →
      Chain H W statics (below ++ args ++ [ob, lb, back] ++ locals ++ ops)
        (Word.ofNat (statics + below.length + args.length)) (Word.ofNat (a + 1))

theorem Chain.mono {p : Program} {H : Host p} {W W' : World} {statics : Nat} {below : List Word}
    {lb back : Word} (hW : W <+: W')
    (h : Chain H W statics below lb back) : Chain H W' statics below lb back := by
  induction h with
  | entry ha => exact .entry ha
  | call _ ha hargs hlocals ih =>
    exact .call ih ha (hargs.imp fun _ _ h => h.mono hW) (hlocals.imp fun _ _ h => h.mono hW)

/-- A call of a method that has not returned: the words below its arguments, what the call saved,
and the word of its object. -/
structure Activation where
  owner : String
  method : Signature
  below : List Word
  ob : Word
  lb : Word
  back : Word
  object : Word

section

variable {p : Program} (H : Host p) (A : Activation) (σ : Store) (env : Env) (vars : List Local)

/-- The stack up to the locals in scope. -/
def Activation.frame : List Word :=
  σ.statics.map σ.world.word ++ A.below ++ env.params.map σ.world.word ++ [A.ob, A.lb, A.back] ++
    vars.map fun x => σ.world.word (env.locals x.1)

/-- The machine at the instruction `pc` of an activation, with operands on the stack. -/
def Host.view (pc : Nat) (ops : List Word) : View where
  stack := A.frame σ env vars ++ ops
  heap := heapImage σ.world σ.heap
  lb := Word.ofNat (σ.statics.length + A.below.length + env.params.length)
  ob := A.object
  cp := Word.ofNat pc
  input := H.input
  output := H.output.append σ.output

/-- An activation whose variables have their types. -/
structure Activation.Valid : Prop where
  store : σ.Typed p.heads
  params : List.Forall₂ (fun v a => σ.world.Has v.type.ty a) A.method.params env.params
  locals : ∀ x ∈ vars, σ.world.Has x.2.type.ty (env.locals x.1)
  self : A.method.isStatic = false →
    A.object = σ.world.word env.self ∧ env.self ≠ .zero ∧ σ.world.Has (.cls A.owner) env.self
  chain : Chain H σ.world σ.statics.length A.below A.lb A.back

end

/-- Outside of methods the stack holds the static fields made so far, and operands only if all
are. -/
structure Outside {p : Program} (H : Host p) (σ : Store) (ops : List Word) : Prop where
  statics : ∀ (i : Nat) x v, (staticFields p.heads)[i]? = some x → σ.statics[i]? = some v →
    σ.world.Has x.2.type.ty v
  blocks : ∀ b ∈ σ.heap, b.Typed p.heads σ.world
  complete : ops ≠ [] → (staticFields p.heads).length ≤ σ.statics.length

def Host.outerView {p : Program} (H : Host p) (σ : Store) (pc : Nat) (ops : List Word) : View where
  stack := σ.statics.map σ.world.word ++ ops
  heap := heapImage σ.world σ.heap
  lb := 0
  ob := 0
  cp := Word.ofNat pc
  input := H.input
  output := H.output.append σ.output

/-- The `n` addresses from `a` on belong to the code of the method of an activation. -/
def Host.Resides {p : Program} (H : Host p) (A : Activation) (a n : Nat) : Prop :=
  ∃ key m start code after vars, p.method? key = some m ∧ A.method = m.toSignature ∧
    A.owner = key.owner ∧
    scopedStmts p.classLayouts start (.entry m.params.length) [] m.body = .ok (code, after, vars) ∧
    inMethod m.params (code ++ Generate.within vars (closing m)) <+: H.items.drop start ∧
    start ≤ a ∧ a + n ≤ start + code.length + (closing m).length

/-- What holds before every instruction of a run. -/
inductive Host.Stands {p : Program} (H : Host p) (σ : Store) : View → Prop
  | within {A : Activation} {env : Env} {vars : List Local} {pc : Nat} {ops : List Word} :
      A.Valid H σ env vars → H.items.scopeAt pc = some (some ⟨A.method.params, vars⟩) →
        H.Resides A pc 1 →
      Stands H σ (H.view A σ env vars pc ops)
  | outside {pc : Nat} {ops : List Word} :
      Outside H σ ops → H.items.scopeAt pc = some none → Stands H σ (H.outerView σ pc ops)

end Simulation

end MiniJava
