import MiniJava.Proofs.Generate.Complete
import MiniJava.Proofs.Generate.Scoped
/-!
How the code of a phrase is put together: instructions of its own, and between them the code of
smaller phrases. A phrase stands at a spot, which says for which address, frame and scope its code
is made and how many words the code finds above the local base.
-/
namespace MiniJava

/-- The words that a call of a method leaves. -/
def Signature.results (m : Signature) : Nat := if m.type.ty = .void then 0 else 1

namespace Generate

/-- What code is made for. -/
inductive Phrase where
  | ref (r : Ref)
  | expr (e : Expr)
  | exprs (es : List Expr)
  | call (r : Ref) (args : List Expr)
  | stmt (s : Stmt)
  | stmts (ss : List Stmt)

/-- Where the code of a phrase stands. -/
structure Spot where
  start : Nat
  frame : Frame
  /-- The locals in scope, the most recent last. -/
  vars : List Local
  /-- The words above the local base. -/
  height : Nat

/-- Further on in the same scope. -/
def Spot.on (P : Spot) (length words : Nat) : Spot :=
  { P with start := P.start + length, height := P.height + words }

/-- A phrase at its spot. -/
structure Part where
  spot : Spot
  phrase : Phrase

/-- An instruction with the words above the local base that it finds, or the code of a part. -/
inductive Piece where
  | item (i : Item) (height : Nat)
  | part (x : Part) (code : List Item)

def Piece.items : Piece → List Item
  | item i _ => [i]
  | part _ code => code

/-- The code that pieces make up. -/
def assembled (ps : List Piece) : List Item := ps.flatMap Piece.items

@[simp] theorem assembled_nil : assembled [] = [] := rfl

@[simp] theorem assembled_item (i : Item) (h : Nat) (ps : List Piece) :
    assembled (.item i h :: ps) = i :: assembled ps := rfl

@[simp] theorem assembled_part (x : Part) (code : List Item) (ps : List Piece) :
    assembled (.part x code :: ps) = code ++ assembled ps := rfl

@[simp] theorem assembled_items (code : List Item) (h : Nat) :
    assembled (code.map (.item · h)) = code := by
  induction code with
  | nil => rfl
  | cons i code ih => rw [List.map_cons, assembled_item, ih]

/-- What holds of each part among the pieces and its code. -/
def EachPart (φ : Part → List Item → Prop) (ps : List Piece) : Prop :=
  ∀ y code, .part y code ∈ ps → φ y code

section EachPart

variable {φ : Part → List Item → Prop}

@[simp] theorem eachPart_nil : EachPart φ [] := nofun

@[simp] theorem eachPart_item {i : Item} {h : Nat} {ps : List Piece} :
    EachPart φ (.item i h :: ps) ↔ EachPart φ ps := by
  simp [EachPart]

@[simp] theorem eachPart_part {x : Part} {code : List Item} {ps : List Piece} :
    EachPart φ (.part x code :: ps) ↔ φ x code ∧ EachPart φ ps := by
  simp only [EachPart, List.mem_cons, Piece.part.injEq]
  constructor
  · intro hall
    exact ⟨hall x code (.inl ⟨rfl, rfl⟩), fun y c hy => hall y c (.inr hy)⟩
  · rintro ⟨hx, hps⟩ y c (⟨rfl, rfl⟩ | hy)
    · exact hx
    · exact hps y c hy

@[simp] theorem eachPart_items {code : List Item}
    {h : Nat} : EachPart φ (code.map (.item · h)) := by
  simp [EachPart]

end EachPart

/-- Whether the method of a call is named with what it is called on. -/
def isMember : Ref → Bool
  | .member _ _ _ => true
  | _ => false

section

variable (classes : ClassLayouts)

/-- The code of a part, and the words above the local base after it. -/
def Part.made (x : Part) : Except Fault (List Item × Nat) :=
  match x.phrase with
  | .ref r => do return (← ref classes x.spot.frame r, x.spot.height + 1)
  | .expr e => do return (← expr classes x.spot.frame x.spot.start e, x.spot.height + 1)
  | .exprs es => do return (← exprs classes x.spot.frame x.spot.start es, x.spot.height + es.length)
  | .call r args => do
    let (owner, m) ← method r
    let values ← exprs classes x.spot.frame x.spot.start args
    return (values ++ (← invoke classes x.spot.frame r owner m), x.spot.height + m.results)
  | .stmt s => do
    let (code, after) ← stmt classes x.spot.start x.spot.frame s
    return (code, after.size)
  | .stmts ss => do
    let (code, after) ← stmts classes x.spot.start x.spot.frame ss
    return (code, after.size)

/-- The pieces of a phrase. -/
inductive Pattern (P : Spot) : Phrase → List Piece → Prop
  | this {s d} : Pattern P (.ref (.this s d)) [.item .this P.height]
  | field {id owner f place} : classes.field? owner f.name = some place →
      Pattern P (.ref (.name id (some (.field owner f)))) [.item (.loadField place) P.height]
  | param {id i v} :
      Pattern P (.ref (.name id (some (.param i v))))
        [.item (.loadVariable (P.frame.paramOffset i)) P.height]
  | localVar {id i v} {offset : Nat} : P.frame.locals[i]? = some offset →
      Pattern P (.ref (.name id (some (.localVar i v)))) [.item (.loadVariable offset) P.height]
  | length {q id code} :
      Pattern P (.ref (.member q id (some .length)))
        [.part ⟨P, .ref q⟩ code, .item (.prim .arraylen) (P.height + 1)]
  | ownField {q id owner f place} : classes.field? owner f.name = some place →
      (place.isStatic || isThis q) = true →
      Pattern P (.ref (.member q id (some (.field owner f)))) [.item (.loadField place) P.height]
  | memberField {q id owner f place code} : classes.field? owner f.name = some place →
      (place.isStatic || isThis q) = false →
      Pattern P (.ref (.member q id (some (.field owner f))))
        [.part ⟨P, .ref q⟩ code, .item (.literal (Word.ofNat place.offset)) (P.height + 1),
          .item (.prim .fieldref) (P.height + 2)]
  | unary {op s e code} :
      Pattern P (.expr (.unary op s e)) [.part ⟨P, .expr e⟩ code,
        .item (.prim (unaryPrim op)) (P.height + 1)]
  | binary {op s l r p} (left right : List Item) : strategy op = .prim p →
      Pattern P (.expr (.binary op s l r))
        [.part ⟨P, .expr l⟩ left, .part ⟨P.on left.length 1, .expr r⟩ right,
          .item (.prim p) (P.height + 2)]
  | shortCircuit {op s l r decided} (left right : List Item) : strategy op = .shortCircuit decided →
      Pattern P (.expr (.binary op s l r))
        [.part ⟨P, .expr l⟩ left,
          .item (.jumpIf decided (P.start + left.length + right.length + 2)) (P.height + 1),
          .part ⟨P.on (left.length + 1) 0, .expr r⟩ right,
          .item (.jump (P.start + left.length + right.length + 2 + 1)) (P.height + 1),
          .item (.literal decided) P.height]
  | value {r code} : Pattern P (.expr (.ref r)) [.part ⟨P, .ref r⟩ code]
  | index {r i s} (array index : List Item) :
      Pattern P (.expr (.index r i s))
        [.part ⟨P, .ref r⟩ array, .part ⟨P.on array.length 1, .expr i⟩ index,
          .item (.prim .arrayref) (P.height + 2)]
  | callValue {r args s code} : Pattern P (.expr (.call r args s)) [.part ⟨P, .call r args⟩ code]
  | literal {l s} :
      Pattern P (.expr (.literal l s)) [.item (.literal (Word.ofNat l.value)) P.height]
  | newObject {c s layout} : classes.find? c.name = some layout →
      Pattern P (.expr (.newObject c s))
        [.item (.literal (-1)) P.height, .item (.literal (Word.ofNat layout.size)) (P.height + 1),
          .item (.create (.object c.name)) (P.height + 2)]
  | newArray {elem size s code} :
      Pattern P (.expr (.newArray elem size s))
        [.part ⟨P, .expr size⟩ code, .item (.create (.array elem.ty)) (P.height + 1)]
  | noExprs : Pattern P (.exprs []) []
  | consExprs {e es} (first rest : List Item) :
      Pattern P (.exprs (e :: es)) [.part ⟨P, .expr e⟩ first,
        .part ⟨P.on first.length 1, .exprs es⟩ rest]
  | print {r args owner m values} : r.meaning = some (.method owner m) → isPrintln owner m = true →
      Pattern P (.call r args) [.part ⟨P, .exprs args⟩ values,
        .item (.prim .putintnl) (P.height + args.length)]
  | callStatic {r args owner m values} : r.meaning = some (.method owner m) →
      isPrintln owner m = false →
      m.isStatic = true →
      Pattern P (.call r args)
        [.part ⟨P, .exprs args⟩ values, .item (.call ⟨owner, m.name⟩) (P.height + args.length)]
  | callMember {q id args owner m} (values code : List Item) : isPrintln owner m = false →
      m.isStatic = false →
      Pattern P (.call (.member q id (some (.method owner m))) args)
        [.part ⟨P, .exprs args⟩ values, .part ⟨P.on values.length args.length, .ref q⟩ code,
          .item (.callOn ⟨owner, m.name⟩) (P.height + args.length + 1)]
  | callOwn {r args owner m values} : r.meaning = some (.method owner m) → isMember r = false →
      isPrintln owner m = false → m.isStatic = false →
      Pattern P (.call r args)
        [.part ⟨P, .exprs args⟩ values, .item .this (P.height + args.length),
          .item (.callOn ⟨owner, m.name⟩) (P.height + args.length + 1)]
  | block {body s code} {inner : Frame} : stmts classes P.start P.frame body = .ok (code, inner) →
      Pattern P (.stmt (.block body s))
        (.part ⟨P, .stmts body⟩ code :: (dropLocals (inner.size - P.frame.size)).map
          (.item · inner.size))
  | declare {v init s code} :
      Pattern P (.stmt (.declare v init s))
        [.part ⟨⟨P.start, P.frame.declare, v.seenByInit P.frame.locals.length P.vars, P.height⟩,
          .expr init⟩ code]
  | assignField {id owner f value s place code} : classes.field? owner f.name = some place →
      Pattern P (.stmt (.assign (.name id (some (.field owner f))) value s))
        [.part ⟨P, .expr value⟩ code, .item (.storeField place) (P.height + 1)]
  | assignParam {id i v value s code} :
      Pattern P (.stmt (.assign (.name id (some (.param i v))) value s))
        [.part ⟨P, .expr value⟩ code, .item (.storeVariable (P.frame.paramOffset i)) (P.height + 1)]
  | assignLocal {id i v value s code} {offset : Nat} : P.frame.locals[i]? = some offset →
      Pattern P (.stmt (.assign (.name id (some (.localVar i v))) value s))
        [.part ⟨P, .expr value⟩ code, .item (.storeVariable offset) (P.height + 1)]
  | assignOwnField {q id owner f value s place code} : classes.field? owner f.name = some place →
      (place.isStatic || isThis q) = true →
      Pattern P (.stmt (.assign (.member q id (some (.field owner f))) value s))
        [.part ⟨P, .expr value⟩ code, .item (.storeField place) (P.height + 1)]
  | assignMember {q id owner f value s place} (object code : List Item) :
      classes.field? owner f.name = some place → (place.isStatic || isThis q) = false →
      Pattern P (.stmt (.assign (.member q id (some (.field owner f))) value s))
        [.part ⟨P, .ref q⟩ object, .item (.literal (Word.ofNat place.offset)) (P.height + 1),
          .part ⟨P.on (object.length + 1) 2, .expr value⟩ code,
          .item (.prim .fieldupd) (P.height + 3)]
  | assignIndex {r i value s} (array index code : List Item) :
      Pattern P (.stmt (.assignIndex r i value s))
        [.part ⟨P, .ref r⟩ array, .part ⟨P.on array.length 1, .expr i⟩ index,
          .part ⟨P.on (array.length + index.length) 2, .expr value⟩ code,
          .item (.prim .arrayupd) (P.height + 3)]
  | call {r args s owner m code} : r.meaning = some (.method owner m) →
      Pattern P (.stmt (.call r args s))
        (.part ⟨P, .call r args⟩ code :: (dropResult m).map (.item · (P.height + 1)))
  | retNone {s} : Pattern P (.stmt (.ret none s)) [.item (.ret 0 P.frame.params) P.height]
  | ret {value s code} :
      Pattern P (.stmt (.ret (some value) s))
        [.part ⟨P, .expr value⟩ code, .item (.ret 1 P.frame.params) (P.height + 1)]
  | ifThen {cond t s} (test code : List Item) :
      Pattern P (.stmt (.ifThen cond t s))
        [.part ⟨P, .expr cond⟩ test,
          .item (.jumpIf 0 (P.start + test.length + 1 + code.length)) (P.height + 1),
          .part ⟨P.on (test.length + 1) 0, .stmt t⟩ code]
  | ifElse {cond t e s code} {between : Frame} (test otherCode : List Item) :
      stmt classes (P.start + test.length + 1) P.frame t = .ok (code, between) →
      Pattern P (.stmt (.ifElse cond t e s))
        [.part ⟨P, .expr cond⟩ test,
          .item (.jumpIf 0 (P.start + test.length + code.length + 2)) (P.height + 1),
          .part ⟨P.on (test.length + 1) 0, .stmt t⟩ code,
          .item (.jump (P.start + test.length + code.length + 2 + otherCode.length)) P.height,
          .part ⟨⟨P.start + test.length + code.length + 2, between, P.vars, P.height⟩,
            .stmt e⟩ otherCode]
  | loop {cond body s code} {after : Frame} (test : List Item) :
      stmt classes (P.start + 1) P.frame body = .ok (code, after) →
      Pattern P (.stmt (.loop cond body s))
        [.item (.jump (P.start + 1 + code.length)) P.height, .part ⟨P.on 1 0, .stmt body⟩ code,
          .part ⟨⟨P.start + 1 + code.length, after, P.vars, P.height⟩, .expr cond⟩ test,
          .item (.jumpIf 1 (P.start + 1)) (P.height + 1)]
  | noStmts : Pattern P (.stmts []) []
  | consStmts {s ss first} {between : Frame} (rest : List Item) :
      stmt classes P.start P.frame s = .ok (first, between) →
      Pattern P (.stmts (s :: ss))
        [.part ⟨P, .stmt s⟩ first,
          .part ⟨⟨P.start + first.length, between, s.seen P.frame.locals.length P.vars,
            between.size⟩, .stmts ss⟩ rest]

/-- The code of each part among the pieces is made. -/
abbrev AllMade (ps : List Piece) : Prop :=
  EachPart (fun y code => ∃ h, Part.made classes y = .ok (code, h)) ps

/-- A part splits into pieces, and the code of each piece is made. -/
structure Part.Splits (x : Part) (ps : List Piece) : Prop where
  pattern : Pattern classes x.spot x.phrase ps
  made : AllMade classes ps

/-- The phrases for which code is made on the way to the code of `x`. -/
inductive Part.Reaches (x : Part) : Part → Prop
  | self : Reaches x x
  | piece {y z ps code} : Reaches x y → y.Splits classes ps → .part z code ∈ ps → Reaches x z

end

variable {classes : ClassLayouts} {P : Spot} {code : List Item} {h : Nat}

@[simp] theorem made_ref {r : Ref} :
    (⟨P, .ref r⟩ : Part).made classes = .ok (code, h) ↔ ref classes P.frame r = .ok code ∧
      h = P.height + 1 := by
  simp only [Part.made, Except.bind_eq_ok, Except.pure_eq_ok, Prod.mk.injEq]
  grind

@[simp] theorem made_expr {e : Expr} :
    (⟨P, .expr e⟩ : Part).made classes = .ok (code, h) ↔
      expr classes P.frame P.start e = .ok code ∧ h = P.height + 1 := by
  simp only [Part.made, Except.bind_eq_ok, Except.pure_eq_ok, Prod.mk.injEq]
  grind

@[simp] theorem made_exprs {es : List Expr} :
    (⟨P, .exprs es⟩ : Part).made classes = .ok (code, h) ↔
      exprs classes P.frame P.start es = .ok code ∧ h = P.height + es.length := by
  simp only [Part.made, Except.bind_eq_ok, Except.pure_eq_ok, Prod.mk.injEq]
  grind

@[simp] theorem made_stmt {s : Stmt} :
    (⟨P, .stmt s⟩ : Part).made classes = .ok (code, h) ↔
      ∃ after, stmt classes P.start P.frame s = .ok (code, after) ∧ h = after.size := by
  simp only [Part.made, Except.bind_eq_ok, Except.pure_eq_ok, Prod.mk.injEq, Prod.exists]
  grind

@[simp] theorem made_stmts {ss : List Stmt} :
    (⟨P, .stmts ss⟩ : Part).made classes = .ok (code, h) ↔
      ∃ after, stmts classes P.start P.frame ss = .ok (code, after) ∧ h = after.size := by
  simp only [Part.made, Except.bind_eq_ok, Except.pure_eq_ok, Prod.mk.injEq, Prod.exists]
  grind

theorem method_eq_ok {r : Ref} {owner : String} {m : Signature} :
    method r = .ok (owner, m) ↔ r.meaning = some (.method owner m) := by
  unfold method
  split <;> simp_all

@[simp] theorem made_call {r : Ref} {args : List Expr} :
    (⟨P, .call r args⟩ : Part).made classes = .ok (code, h) ↔
      ∃ owner m values rest, r.meaning = some (.method owner m) ∧
      exprs classes P.frame P.start args = .ok values ∧
        invoke classes P.frame r owner m = .ok rest ∧ values ++ rest = code ∧
        h = P.height + m.results := by
  simp only [Part.made, Except.bind_eq_ok, Except.pure_eq_ok, Prod.mk.injEq, Prod.exists,
    method_eq_ok]
  grind

/-- Code with pieces that make it up. -/
def Part.IsAssembled (classes : ClassLayouts) (x : Part) (code : List Item) : Prop :=
  ∃ ps, x.Splits classes ps ∧ assembled ps = code

theorem Part.IsAssembled.intro {X : Phrase} {ps : List Piece} (hX : Pattern classes P X ps)
    (hps : AllMade classes ps)
    (hcode : assembled ps = code) : (⟨P, X⟩ : Part).IsAssembled classes code :=
  ⟨ps, ⟨hX, hps⟩, hcode⟩

theorem placed_eq_ok {α : Type} {x : Option α} {a : α} : placed x = .ok a ↔ x = some a := by
  cases x <;> simp [placed]

theorem assembled_ref {r : Ref} (hr : ref classes P.frame r = .ok code) :
    (⟨P, .ref r⟩ : Part).IsAssembled classes code := by
  cases r with
  | this s d => cases hr; exact .intro .this (by simp) rfl
  | name id d =>
    cases d with
    | none => cases hr
    | some d =>
      cases d with
      | field owner f =>
        obtain ⟨place, hplace, hrest⟩ := Except.bind_eq_ok.mp hr
        cases hrest
        exact .intro (.field (placed_eq_ok.mp hplace)) (by simp) rfl
      | param i v => cases hr; exact .intro .param (by simp) rfl
      | localVar i v =>
        obtain ⟨offset, hoffset, hrest⟩ := Except.bind_eq_ok.mp hr
        cases hrest
        exact .intro (.localVar (placed_eq_ok.mp hoffset)) (by simp) rfl
      | cls | method | length => cases hr
  | member q id d =>
    cases d with
    | none => simp [ref] at hr
    | some d =>
      cases d with
      | length =>
        simp only [ref, Except.bind_eq_ok, Except.pure_eq_ok] at hr
        obtain ⟨object, hobject, rfl⟩ := hr
        exact .intro .length (by simp [hobject]) rfl
      | field owner f =>
        cases hplace : classes.field? owner f.name with
        | none => cases q <;> simp [ref, hplace, placed, bind, Except.bind] at hr
        | some place =>
          rw [ref_memberField hplace] at hr
          cases hown : place.isStatic || isThis q with
          | true =>
            rw [hown] at hr
            cases hr
            exact .intro (.ownField hplace hown) (by simp) rfl
          | false =>
            rw [hown] at hr
            obtain ⟨object, hobject, hrest⟩ := Except.bind_eq_ok.mp hr
            cases hrest
            exact .intro (.memberField hplace hown) (by simp [hobject]) rfl
      | cls | method | param | localVar => simp [ref] at hr

theorem assembled_expr {e : Expr} (he : expr classes P.frame P.start e = .ok code) :
    (⟨P, .expr e⟩ : Part).IsAssembled classes code := by
  cases e with
  | unary op s e =>
    simp only [expr, Except.bind_eq_ok, Except.pure_eq_ok] at he
    obtain ⟨operand, hoperand, rfl⟩ := he
    exact .intro .unary (by simp [hoperand]) rfl
  | binary op s l r =>
    rw [expr] at he
    obtain ⟨left, hleft, he⟩ := Except.bind_eq_ok.mp he
    cases hop : strategy op with
    | prim p =>
      rw [hop] at he
      obtain ⟨right, hright, hrest⟩ := Except.bind_eq_ok.mp he
      cases hrest
      exact .intro (.binary left right hop) (by simp [Spot.on, hleft, hright]) (by simp)
    | shortCircuit decided =>
      rw [hop] at he
      obtain ⟨right, hright, hrest⟩ := Except.bind_eq_ok.mp he
      cases hrest
      exact .intro (.shortCircuit left right hop)
        (by simp [Spot.on, hleft, ← Nat.add_assoc, hright]) (by simp)
  | ref r => exact .intro .value (by simpa [expr] using he) (by simp)
  | index r i s =>
    rw [expr] at he
    obtain ⟨array, harray, he⟩ := Except.bind_eq_ok.mp he
    obtain ⟨index, hindex, hrest⟩ := Except.bind_eq_ok.mp he
    cases hrest
    exact .intro (.index array index) (by simp [Spot.on, harray, hindex]) (by simp)
  | call r args s =>
    rw [expr] at he
    obtain ⟨⟨owner, m⟩, hm, he⟩ := Except.bind_eq_ok.mp he
    obtain ⟨values, hvalues, he⟩ := Except.bind_eq_ok.mp he
    obtain ⟨rest, hrest, hcode⟩ := Except.bind_eq_ok.mp he
    cases hcode
    have hmade :=
      made_call.mpr ⟨owner, m, values, rest, method_eq_ok.mp hm, hvalues, hrest, rfl, rfl⟩
    exact .intro .callValue (eachPart_part.mpr ⟨⟨_, hmade⟩, eachPart_nil⟩) (List.append_nil _)
  | literal l s => cases he; exact .intro .literal (by simp) rfl
  | newObject c s =>
    rw [expr] at he
    obtain ⟨layout, hlayout, hrest⟩ := Except.bind_eq_ok.mp he
    cases hrest
    exact .intro (.newObject (placed_eq_ok.mp hlayout)) (by simp) rfl
  | newArray elem size s =>
    simp only [expr, Except.bind_eq_ok, Except.pure_eq_ok] at he
    obtain ⟨count, hcount, rfl⟩ := he
    exact .intro .newArray (by simp [hcount]) rfl

theorem assembled_exprs {es : List Expr} (hes : exprs classes P.frame P.start es = .ok code) :
    (⟨P, .exprs es⟩ : Part).IsAssembled classes code := by
  cases es with
  | nil => cases hes; exact .intro .noExprs (by simp) rfl
  | cons e es =>
    rw [exprs] at hes
    obtain ⟨first, hfirst, hes⟩ := Except.bind_eq_ok.mp hes
    obtain ⟨rest, hrest, hcode⟩ := Except.bind_eq_ok.mp hes
    cases hcode
    exact .intro (.consExprs first rest) (by simp [Spot.on, hfirst, hrest]) (by simp)

theorem assembled_call {r : Ref} {args : List Expr} {owner : String} {m : Signature}
    {values rest : List Item} (hm : r.meaning = some (.method owner m))
    (hvalues : exprs classes P.frame P.start args = .ok values)
    (hrest : invoke classes P.frame r owner m = .ok rest) :
    (⟨P, .call r args⟩ : Part).IsAssembled classes (values ++ rest) := by
  unfold invoke at hrest
  cases hprint : isPrintln owner m with
  | true =>
    rw [hprint] at hrest
    cases hrest
    exact .intro (.print hm hprint) (by simp [hvalues]) rfl
  | false =>
    rw [hprint, if_neg Bool.false_ne_true] at hrest
    cases hstatic : m.isStatic with
    | true =>
      rw [hstatic] at hrest
      cases hrest
      exact .intro (.callStatic hm hprint hstatic) (by simp [hvalues]) rfl
    | false =>
      rw [hstatic, if_neg Bool.false_ne_true] at hrest
      obtain ⟨object, hobject, hcode⟩ := Except.bind_eq_ok.mp hrest
      cases hcode
      cases r with
      | member q id d =>
        cases hm
        have hobject : ref classes P.frame q = .ok object := hobject
        exact .intro (.callMember values object hprint hstatic)
          (by simp [Spot.on, hvalues, hobject]) (by simp)
      | this | name =>
        cases hobject
        exact .intro (.callOwn hm rfl hprint hstatic) (by simp [hvalues]) rfl

theorem assembled_assign {r : Ref} {value : Expr} {s : Span}
    (hassign : assign classes P.frame P.start value r = .ok code) :
    (⟨P, .stmt (.assign r value s)⟩ : Part).IsAssembled classes code := by
  cases r with
  | this => cases hassign
  | name id d =>
    cases d with
    | none => cases hassign
    | some d =>
      cases d with
      | field owner f =>
        obtain ⟨place, hplace, hassign⟩ := Except.bind_eq_ok.mp hassign
        obtain ⟨code, hcode, hrest⟩ := Except.bind_eq_ok.mp hassign
        cases hrest
        exact .intro (.assignField (placed_eq_ok.mp hplace)) (by simp [hcode]) rfl
      | param i v =>
        obtain ⟨code, hcode, hrest⟩ := Except.bind_eq_ok.mp hassign
        cases hrest
        exact .intro .assignParam (by simp [hcode]) rfl
      | localVar i v =>
        obtain ⟨code, hcode, hassign⟩ := Except.bind_eq_ok.mp hassign
        obtain ⟨offset, hoffset, hrest⟩ := Except.bind_eq_ok.mp hassign
        cases hrest
        exact .intro (.assignLocal (placed_eq_ok.mp hoffset)) (by simp [hcode]) rfl
      | cls | method | length => cases hassign
  | member q id d =>
    cases d with
    | none => simp [assign] at hassign
    | some d =>
      cases d with
      | field owner f =>
        cases hplace : classes.field? owner f.name with
        | none => cases q <;> simp [assign, hplace, placed, bind, Except.bind] at hassign
        | some place =>
          rw [assign_memberField hplace] at hassign
          cases hown : place.isStatic || isThis q with
          | true =>
            rw [hown] at hassign
            obtain ⟨code, hcode, hrest⟩ := Except.bind_eq_ok.mp hassign
            cases hrest
            exact .intro (.assignOwnField hplace hown) (by simp [hcode]) rfl
          | false =>
            rw [hown, if_neg Bool.false_ne_true] at hassign
            obtain ⟨object, hobject, hassign⟩ := Except.bind_eq_ok.mp hassign
            obtain ⟨code, hcode, hrest⟩ := Except.bind_eq_ok.mp hassign
            cases hrest
            exact .intro (.assignMember object code hplace hown)
              (by simp [Spot.on, hobject, ← Nat.add_assoc, hcode]) (by simp)
      | cls | method | param | localVar | length => simp [assign] at hassign

theorem assembled_stmt {s : Stmt} {after : Frame}
    (hs : stmt classes P.start P.frame s = .ok (code, after)) :
    (⟨P, .stmt s⟩ : Part).IsAssembled classes code := by
  cases s with
  | block body sp =>
    rw [stmt] at hs
    obtain ⟨⟨code, inner⟩, hbody, hrest⟩ := Except.bind_eq_ok.mp hs
    cases hrest
    exact .intro (.block hbody) (by simp [hbody]) (by simp)
  | declare v init sp =>
    rw [stmt] at hs
    obtain ⟨code, hcode, hrest⟩ := Except.bind_eq_ok.mp hs
    cases hrest
    exact .intro .declare (by simp [hcode]) (List.append_nil _)
  | assign r value sp =>
    rw [stmt] at hs
    obtain ⟨code, hcode, hrest⟩ := Except.bind_eq_ok.mp hs
    cases hrest
    exact assembled_assign hcode
  | assignIndex r i value sp =>
    rw [stmt] at hs
    obtain ⟨array, harray, hs⟩ := Except.bind_eq_ok.mp hs
    obtain ⟨index, hindex, hs⟩ := Except.bind_eq_ok.mp hs
    obtain ⟨code, hcode, hrest⟩ := Except.bind_eq_ok.mp hs
    cases hrest
    exact .intro (.assignIndex array index code)
      (by simp [Spot.on, harray, hindex, ← Nat.add_assoc, hcode]) (by simp)
  | call r args sp =>
    rw [stmt] at hs
    obtain ⟨⟨owner, m⟩, hm, hs⟩ := Except.bind_eq_ok.mp hs
    obtain ⟨values, hvalues, hs⟩ := Except.bind_eq_ok.mp hs
    obtain ⟨rest, hrest, hcode⟩ := Except.bind_eq_ok.mp hs
    cases hcode
    have hm := method_eq_ok.mp hm
    have hmade := made_call.mpr ⟨owner, m, values, rest, hm, hvalues, hrest, rfl, rfl⟩
    exact .intro (.call hm) (eachPart_part.mpr ⟨⟨_, hmade⟩, eachPart_items⟩) (by simp)
  | ret value sp =>
    cases value with
    | none => cases hs; exact .intro .retNone (by simp) rfl
    | some value =>
      rw [stmt] at hs
      obtain ⟨code, hcode, hrest⟩ := Except.bind_eq_ok.mp hs
      cases hrest
      exact .intro .ret (by simp [hcode]) rfl
  | ifThen cond t sp =>
    rw [stmt] at hs
    obtain ⟨test, htest, hs⟩ := Except.bind_eq_ok.mp hs
    obtain ⟨⟨code, after⟩, hcode, hrest⟩ := Except.bind_eq_ok.mp hs
    cases hrest
    exact .intro (.ifThen test code) (by simp [Spot.on, htest, ← Nat.add_assoc, hcode]) (by simp)
  | ifElse cond t e sp =>
    rw [stmt] at hs
    obtain ⟨test, htest, hs⟩ := Except.bind_eq_ok.mp hs
    obtain ⟨⟨code, between⟩, hcode, hs⟩ := Except.bind_eq_ok.mp hs
    obtain ⟨⟨other, after⟩, hother, hrest⟩ := Except.bind_eq_ok.mp hs
    cases hrest
    exact .intro (.ifElse test other hcode)
      (by simp [Spot.on, htest, ← Nat.add_assoc, hcode, hother]) (by simp)
  | loop cond body sp =>
    rw [stmt] at hs
    obtain ⟨⟨code, after⟩, hcode, hs⟩ := Except.bind_eq_ok.mp hs
    obtain ⟨test, htest, hrest⟩ := Except.bind_eq_ok.mp hs
    cases hrest
    exact .intro (.loop test hcode) (by simp [Spot.on, htest, hcode]) (by simp)

theorem assembled_stmts {ss : List Stmt} {after : Frame}
    (hss : stmts classes P.start P.frame ss = .ok (code, after)) :
    (⟨P, .stmts ss⟩ : Part).IsAssembled classes code := by
  cases ss with
  | nil => cases hss; exact .intro .noStmts (by simp) rfl
  | cons s ss =>
    rw [stmts] at hss
    obtain ⟨⟨first, between⟩, hfirst, hss⟩ := Except.bind_eq_ok.mp hss
    obtain ⟨⟨rest, after⟩, hrest, hcode⟩ := Except.bind_eq_ok.mp hss
    cases hcode
    exact .intro (.consStmts rest hfirst) (by simp [hfirst, hrest]) (by simp)

theorem Part.isAssembled {x : Part}
    (hx : x.made classes = .ok (code, h)) : x.IsAssembled classes code := by
  obtain ⟨P, X⟩ := x
  cases X with
  | ref r => exact assembled_ref (made_ref.mp hx).1
  | expr e => exact assembled_expr (made_expr.mp hx).1
  | exprs es => exact assembled_exprs (made_exprs.mp hx).1
  | call r args =>
    obtain ⟨owner, m, values, rest, hm, hvalues, hrest, rfl, -⟩ := made_call.mp hx
    exact assembled_call hm hvalues hrest
  | stmt s =>
    obtain ⟨after, hs, -⟩ := made_stmt.mp hx
    exact assembled_stmt hs
  | stmts ss =>
    obtain ⟨after, hss, -⟩ := made_stmts.mp hx
    exact assembled_stmts hss

theorem Part.Splits.unique {x : Part} {ps qs : List Piece} (hps : x.Splits classes ps)
    (hqs : x.Splits classes qs) : ps = qs := by
  obtain ⟨P, X⟩ := x
  obtain ⟨hp, hmade⟩ := hps
  obtain ⟨hq, hmade'⟩ := hqs
  -- Two patterns of one phrase are the same, or their side conditions exclude each other.
  cases hp <;> cases hq <;>
    simp only [eachPart_part, eachPart_item, eachPart_items, eachPart_nil, made_ref, made_expr,
      made_exprs, made_stmt, made_stmts, and_true] at hmade hmade' <;>
    grind [Ref.meaning, isMember]

theorem Part.Splits.assembled {x : Part} {ps : List Piece} (hps : x.Splits classes ps)
    (hx : x.made classes = .ok (code, h)) : assembled ps = code := by
  obtain ⟨qs, hqs, hcode⟩ := Part.isAssembled hx
  rw [hps.unique hqs, hcode]

theorem Pattern.sizeOf_lt {X : Phrase} {ps : List Piece} (hX : Pattern classes P X ps) :
    EachPart (fun y _ => sizeOf y.phrase < sizeOf X) ps := by
  have hpos (r : Ref) : 0 < sizeOf r := by
    cases r <;>
      (simp only [Ref.this.sizeOf_spec, Ref.name.sizeOf_spec, Ref.member.sizeOf_spec]; omega)
  cases hX <;> simp [hpos] <;> omega

/-- What holds of a phrase if it holds of its parts holds of every phrase. -/
theorem Part.induct (classes : ClassLayouts) {Q : Part → Prop}
    (step : ∀ x, (∀ ps, x.Splits classes ps → EachPart (fun y _ => Q y) ps) → Q x)
    (x : Part) : Q x := by
  refine step x fun ps hps y code hy => ?_
  have := hps.pattern.sizeOf_lt y code hy
  exact Part.induct classes step y
termination_by sizeOf x.phrase

/-- The parts among the pieces stand where their code comes to stand. -/
def Aligned (start : Nat) : List Piece → Prop
  | [] => True
  | .item _ _ :: ps => Aligned (start + 1) ps
  | .part y code :: ps => y.spot.start = start ∧ Aligned (start + code.length) ps

theorem aligned_items {start : Nat} {code : List Item} : Aligned start (code.map (.item · h)) := by
  induction code generalizing start with
  | nil => trivial
  | cons i code ih => exact ih

theorem Pattern.aligned {X : Phrase} {ps : List Piece}
    (hX : Pattern classes P X ps) : Aligned P.start ps := by
  cases hX <;> simp only [Aligned, aligned_items, Spot.on, and_true, true_and] <;> omega

/-- The instructions among the pieces, with their addresses and the words that they find. -/
def own (start : Nat) : List Piece → List (Nat × Item × Nat)
  | [] => []
  | .item i h :: ps => (start, i, h) :: own (start + 1) ps
  | .part _ code :: ps => own (start + code.length) ps

/-- What holds of each instruction among the pieces. -/
def EachOwn (φ : Nat → Item → Nat → Prop) (start : Nat) : List Piece → Prop
  | [] => True
  | .item i h :: ps => φ start i h ∧ EachOwn φ (start + 1) ps
  | .part _ code :: ps => EachOwn φ (start + code.length) ps

section EachOwn

variable {φ : Nat → Item → Nat → Prop} {start : Nat} {ps : List Piece}

theorem EachOwn.of_mem (hps : EachOwn φ start ps) {a : Nat} {i : Item}
    (hi : (a, i, h) ∈ own start ps) : φ a i h := by
  induction ps generalizing start with
  | nil => cases hi
  | cons piece ps ih =>
    cases piece with
    | item i' h' =>
      rcases List.mem_cons.mp hi with heq | hi
      · cases heq
        exact hps.1
      · exact ih hps.2 hi
    | part y code => exact ih hps hi

/-- Where no instruction is of a kind, anything holds of those of this kind. -/
theorem EachOwn.of_not {q : Item → Prop} (hps : EachOwn (fun _ i _ => ¬ q i) start ps) :
    EachOwn (fun a i h => q i → φ a i h) start ps := by
  induction ps generalizing start with
  | nil => trivial
  | cons piece ps ih =>
    cases piece with
    | item i h => exact ⟨fun hi => absurd hi hps.1, ih hps.2⟩
    | part y code => exact ih hps

@[simp] theorem eachOwn_nil : EachOwn φ start [] := trivial

@[simp] theorem eachOwn_item {i : Item} :
    EachOwn φ start (.item i h :: ps) ↔ φ start i h ∧ EachOwn φ (start + 1) ps := Iff.rfl

@[simp] theorem eachOwn_part {x : Part} :
    EachOwn φ start (.part x code :: ps) ↔ EachOwn φ (start + code.length) ps := Iff.rfl

@[simp] theorem eachOwn_dropLocals {n : Nat} :
    EachOwn φ start ((dropLocals n).map (.item · h)) ↔ (n ≠ 0 → φ start (.drop n) h) := by
  unfold dropLocals
  split <;> simp_all

@[simp] theorem eachOwn_dropResult {m : Signature} :
    EachOwn φ start ((dropResult m).map (.item · h)) ↔
      (m.type.ty ≠ .void → φ start (.drop 1) h) := by
  unfold dropResult
  split <;> simp_all

end EachOwn

/-- Code stands at an address of other code. -/
def CodeAt (all : List Item) (a : Nat) (code : List Item) : Prop := code <+: all.drop a

theorem CodeAt.getElem? {all code : List Item} {a j : Nat} {i : Item} (hcode : CodeAt all a code)
    (hi : code[j]? = some i) : all[a + j]? = some i := by
  obtain ⟨rest, hrest⟩ := hcode
  rw [← List.getElem?_drop, ← hrest, List.getElem?_append_left (List.getElem?_eq_some_iff.mp hi).1,
    hi]

theorem Aligned.bounds {start : Nat} {ps : List Piece} (hps : Aligned start ps) :
    EachPart (fun y code => start ≤ y.spot.start ∧
      y.spot.start + code.length ≤ start + (assembled ps).length) ps := by
  induction ps generalizing start with
  | nil => exact eachPart_nil
  | cons piece ps ih =>
    cases piece with
    | item i h =>
      refine eachPart_item.mpr fun y code hy => ?_
      have := ih hps y code hy
      simp only [assembled_item, List.length_cons]
      omega
    | part x code =>
      simp only [assembled_part, List.length_append]
      refine eachPart_part.mpr ⟨by have := hps.1; omega, fun y c hy => ?_⟩
      have := ih hps.2 y c hy
      omega

/-- The code of every part that is reached lies within the bounds of the whole. -/
theorem Part.Reaches.bounds {x y : Part} (hxy : x.Reaches classes y)
    (hx : x.made classes = .ok (code, h)) :
    ∃ code' h', y.made classes = .ok (code', h') ∧ x.spot.start ≤ y.spot.start ∧
      y.spot.start + code'.length ≤ x.spot.start + code.length := by
  induction hxy with
  | self => exact ⟨code, h, hx, Nat.le_refl _, Nat.le_refl _⟩
  | piece _ hps hz ih =>
    obtain ⟨code', h', hmade, hle, hle'⟩ := ih
    obtain ⟨h'', hmade'⟩ := hps.made _ _ hz
    have hbounds := hps.pattern.aligned.bounds _ _ hz
    rw [hps.assembled hmade] at hbounds
    exact ⟨_, h'', hmade', by omega, by omega⟩

/-- An instruction among the pieces is one of their own, or it is in the code of a part. -/
theorem exists_own {ps : List Piece} {start j : Nat} {i : Item} (hps : Aligned start ps)
    (hi : (assembled ps)[j]? = some i) :
    (∃ h, (start + j, i, h) ∈ own start ps) ∨
      ∃ y code k, .part y code ∈ ps ∧ code[k]? = some i ∧ y.spot.start + k = start + j := by
  induction ps generalizing start j with
  | nil => cases hi
  | cons piece ps ih =>
    cases piece with
    | item i' h =>
      cases j with
      | zero => cases hi; exact .inl ⟨h, List.mem_cons_self⟩
      | succ j =>
        rw [Nat.add_comm j, ← Nat.add_assoc]
        rcases ih hps (j := j) hi with ⟨h, hown⟩ | ⟨y, code, k, hy, hk, ha⟩
        · exact .inl ⟨h, List.mem_cons_of_mem _ hown⟩
        · exact .inr ⟨y, code, k, List.mem_cons_of_mem _ hy, hk, ha⟩
    | part y code =>
      obtain ⟨hstart, hps⟩ := hps
      rcases Nat.lt_or_ge j code.length with hj | hj
      · rw [assembled_part, List.getElem?_append_left hj] at hi
        exact .inr ⟨y, code, j, List.mem_cons_self, hi, by rw [hstart]⟩
      · obtain ⟨k, rfl⟩ := Nat.exists_eq_add_of_le hj
        rw [assembled_part, List.getElem?_append_right hj, Nat.add_sub_cancel_left] at hi
        rw [← Nat.add_assoc]
        rcases ih hps hi with ⟨h, hown⟩ | ⟨z, code', k', hz, hk, ha⟩
        · exact .inl ⟨h, hown⟩
        · exact .inr ⟨z, code', k', List.mem_cons_of_mem _ hz, hk, ha⟩

theorem Part.Reaches.trans {x y z : Part} (hxy : x.Reaches classes y) (hyz : y.Reaches classes z) :
    x.Reaches classes z := by
  induction hyz with
  | self => exact hxy
  | piece _ hps hz ih => exact .piece ih hps hz

/-- Every instruction is one of a part's own. -/
theorem Part.exists_origin (x : Part) :
    ∀ {code : List Item} {h j : Nat} {i : Item}, x.made classes = .ok (code, h) →
      code[j]? = some i → ∃ y ps height, x.Reaches classes y ∧ y.Splits classes ps ∧
      (x.spot.start + j, i, height) ∈ own y.spot.start ps := by
  induction x using Part.induct classes with
  | step x ih =>
    intro code h j i hx hi
    obtain ⟨ps, hps, rfl⟩ := Part.isAssembled hx
    rcases exists_own hps.pattern.aligned hi with ⟨height, hown⟩ | ⟨y, code, k, hy, hk, ha⟩
    · exact ⟨x, ps, height, .self, hps, hown⟩
    · obtain ⟨h', hmade⟩ := hps.made y code hy
      obtain ⟨z, qs, height, hreach, hqs, hown⟩ := ih ps hps y code hy hmade hk
      exact ⟨z, qs, height, (Part.Reaches.piece .self hps hy).trans hreach, hqs, ha ▸ hown⟩

/-- The body of a method whose code starts at an address. -/
def bodyPart (start : Nat) (m : Method) : Part :=
  ⟨⟨start, .entry m.params.length, [], Frame.linkSize⟩, .stmts m.body⟩

theorem methodCode_eq_ok {start : Nat} {owner : String} {m : Method} {mc : MethodCode}
    (hmc : methodCode classes start owner m = .ok mc) :
    ∃ body frame, stmts classes start (.entry m.params.length) m.body = .ok (body, frame) ∧
      mc = ⟨⟨owner, m.name⟩, start, frame.shrink Frame.linkSize, body ++ closing m⟩ := by
  rw [methodCode] at hmc
  obtain ⟨⟨body, frame⟩, hbody, hrest⟩ := Except.bind_eq_ok.mp hmc
  cases hrest
  exact ⟨body, frame, hbody, rfl⟩

theorem methodCodes_eq_ok {start : Nat} {ms : List (String × Method)} {codes : List MethodCode}
    (hcodes : methodCodes classes start ms = .ok codes) :
    List.Forall₂ (fun x mc => methodCode classes mc.address x.1 x.2 = .ok mc) ms codes := by
  induction ms generalizing start codes with
  | nil => cases hcodes; exact .nil
  | cons x ms ih =>
    obtain ⟨owner, m⟩ := x
    rw [methodCodes] at hcodes
    obtain ⟨first, hfirst, hcodes⟩ := Except.bind_eq_ok.mp hcodes
    obtain ⟨rest, hrest, hcode⟩ := Except.bind_eq_ok.mp hcodes
    cases hcode
    obtain ⟨body, frame, -, rfl⟩ := methodCode_eq_ok hfirst
    exact .cons hfirst (ih hrest)

end Generate

end MiniJava
