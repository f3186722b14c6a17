import Mathlib.Data.Int.ModEq
import MiniJava.Proofs.Machine.Return
import MiniJava.Proofs.Object.Codec
/-!
Arithmetic. The operators work on words of 64 bits, which wrap, and cut what comes out to 32 bits.
As 2³² divides 2⁶⁴, the two reductions are one: the result is that of 32 bits, however large the
operands are. A remainder is not cut, for it is never farther from zero than what is divided.
-/
namespace MiniJava

namespace Word

variable {a b v w : Word} {n : Int}

/-- The word is the one number of 32 bits that is congruent to an integer. -/
def Reduces (v : Word) (n : Int) : Prop :=
  ∀ z : Int, (-2 ^ 31 ≤ z ∧ z ≤ 2 ^ 31 - 1) ∧ z ≡ n [ZMOD 2 ^ 32] ↔ z = v.toInt

theorem reduces_of_toInt (h : v.toInt = n.bmod (2 ^ 32)) : v.Reduces n := by
  intro z
  rw [h, eq_comm, Int.bmod_eq_iff (by decide), Int.modEq_comm, Int.modEq_iff_dvd]
  push_cast
  omega

/-- Whether a result has wrapped before it is cut makes no difference. -/
theorem reduces_cut32 (h : w.toInt = n.bmod (2 ^ 64)) : w.cut32.Reduces n := by
  have hdvd : 2 ^ 32 ∣ 2 ^ 64 := Nat.pow_dvd_pow 2 (by decide)
  apply reduces_of_toInt
  rw [toInt_cut32, h, Int.bmod_bmod_of_dvd hdvd]

/-- The word is what the truncated quotient leaves of `a`. -/
structure IsRemainder (a b v : Word) : Prop where
  division : a.toInt = a.toInt.tdiv b.toInt * b.toInt + v.toInt
  sign : v.toInt = 0 ∨ v.toInt.sign = a.toInt.sign
  fits : a.Fits → v.Fits

theorem fits_mod (b : Word) (h : a.Fits) : (a % b).Fits := by
  have hle : (a.toInt.tmod b.toInt).natAbs ≤ a.toInt.natAbs := by
    rw [Int.natAbs_tmod]
    exact Nat.mod_le _ _
  obtain ⟨hlow, hhigh⟩ := h
  unfold Fits
  rw [Int64.toInt_mod]
  rcases Int.le_total 0 a.toInt with hpos | hneg
  · have hnonneg := Int.tmod_nonneg b.toInt hpos
    omega
  · have hnonpos : a.toInt.tmod b.toInt ≤ 0 := by
      have hneg' := Int.tmod_nonneg b.toInt (Int.neg_nonneg_of_nonpos hneg)
      rw [Int.neg_tmod] at hneg'
      omega
    omega

theorem isRemainder_mod (a b : Word) : IsRemainder a b (a % b) where
  division := by
    rw [Int64.toInt_mod]
    exact (Int.tdiv_mul_add_tmod _ _).symm
  sign := by
    rw [Int64.toInt_mod]
    by_cases hdvd : b.toInt ∣ a.toInt
    · exact .inl (Int.tmod_eq_zero_of_dvd hdvd)
    · exact .inr (by rw [Int.sign_tmod, if_neg hdvd])
  fits := fits_mod b

end Word

namespace Machine

/-- The operators of arithmetic. -/
inductive Arith where
  | add
  | sub
  | mult
  | div
  | mod
  deriving DecidableEq, Repr

namespace Arith

def prim : Arith → Prim
  | add => .add
  | sub => .sub
  | mult => .mult
  | div => .div
  | mod => .mod

/-- Nothing is divided by zero. -/
def Refuses (o : Arith) (b : Word) : Prop := (o = div ∨ o = mod) ∧ b = 0

/-- The word is the result for two words: a remainder itself, and of the others what is left of them
in 32 bits. -/
def Gives (a b v : Word) : Arith → Prop
  | add => v.Reduces (a.toInt + b.toInt)
  | sub => v.Reduces (a.toInt - b.toInt)
  | mult => v.Reduces (a.toInt * b.toInt)
  | div => v.Reduces (a.toInt.tdiv b.toInt)
  | mod => Word.IsRemainder a b v

/-- How an operator ends. -/
inductive Computes (o : Arith) (a b : Word) : Except Fault Word → Prop
  | refused : o.Refuses b → Computes o a b (.error .divisionByZero)
  | done {v : Word} : ¬ o.Refuses b → o.Gives a b v → Computes o a b (.ok v)

theorem binary_computes (o : Arith) (a b : Word) : o.Computes a b (binary o.prim a b) := by
  cases o with
  | add => exact .done (by simp [Refuses]) (Word.reduces_cut32 (Int64.toInt_add a b))
  | sub => exact .done (by simp [Refuses]) (Word.reduces_cut32 (Int64.toInt_sub a b))
  | mult => exact .done (by simp [Refuses]) (Word.reduces_cut32 (Int64.toInt_mul a b))
  | div =>
    by_cases hb : b = 0
    · rw [prim, binary, if_pos hb]
      exact .refused ⟨.inl rfl, hb⟩
    · rw [prim, binary, if_neg hb]
      exact .done (fun h => hb h.2) (Word.reduces_cut32 (Int64.toInt_div a b))
  | mod =>
    by_cases hb : b = 0
    · rw [prim, binary, if_pos hb]
      exact .refused ⟨.inr rfl, hb⟩
    · rw [prim, binary, if_neg hb]
      exact .done (fun h => hb h.2) (Word.isRemainder_mod a b)

theorem primitive_prim (o : Arith) : primitive o.prim = binaryTop o.prim := by
  cases o <;> rfl

end Arith

section Operands

variable {s t : State} {a b v w : Word}

/-- A word that is popped leaves a free place in the memory behind. -/
theorem state_of_pop (h : pop s = .ok w t) : t = { s with st := s.st - 1 } ∧ 0 < s.st.toInt ∧
    0 ≤ t.st.toInt ∧ t.height < t.data.size := by
  unfold pop at h
  split at h
  · cases h
  · rename_i hfull
    have hpos : 0 < s.st.toInt := Int64.lt_iff_toInt_lt.mp (Int64.not_le.mp hfull)
    dsimp only at h
    split at h
    · rename_i j hj
      cases h
      unfold Word.index? at hj
      split at hj
      · rename_i hbounds
        exact ⟨rfl, hpos, hbounds⟩
      · cases hj
    · cases h

theorem state_of_pop2 (h : pop2 s = .ok (a, b) t) :
    t = { s with st := s.st - 2 } ∧ t.st.toInt < s.st.toInt ∧ 0 ≤ t.st.toInt ∧
      t.height < t.data.size := by
  obtain ⟨b', u, hfirst, h⟩ := EStateM.bind_eq_ok.mp h
  obtain ⟨a', t', hsecond, h⟩ := EStateM.bind_eq_ok.mp h
  cases h
  obtain ⟨rfl, hpos, -⟩ := state_of_pop hfirst
  obtain ⟨rfl, hpos', hbase, hsize⟩ := state_of_pop hsecond
  have hst : s.st - 1 - 1 = s.st - 2 := by grind
  have hfirst := Word.toInt_sub_one hpos
  have hsecond : (s.st - 1 - 1).toInt = (s.st - 1).toInt - 1 := Word.toInt_sub_one hpos'
  refine ⟨by rw [hst], ?_, hbase, hsize⟩
  change (s.st - 1 - 1).toInt < s.st.toInt
  omega

theorem push_free (v : Word) (hbase : 0 ≤ t.st.toInt) (hsize : t.height < t.data.size)
    (hroom : t.st.toInt < t.ht.toInt) :
    push v t = .ok () { t with data := t.data.setIfInBounds t.height v, st := t.st + 1 } := by
  have hfree : ¬ t.ht ≤ t.st := by
    rw [Int64.le_iff_toInt_le]
    omega
  have hindex : t.st.index? t.data.size = some ⟨t.height, hsize⟩ :=
    Word.index?_of_toInt (Int.toNat_of_nonneg hbase).symm hsize
  rw [push, if_neg hfree]
  simp only [hindex, Array.setIfInBounds, hsize, dif_pos]

theorem binaryTop_of_error {p : Prim} {f : Fault} (h : pop2 s = .ok (a, b) t)
    (hf : binary p a b = .error f) : binaryTop p s = .error (.fault f) t := by
  rw [binaryTop, EStateM.bind_of_ok h]
  simp only [hf]
  rfl

theorem binaryTop_of_ok {p : Prim} (h : pop2 s = .ok (a, b) t) (hv : binary p a b = .ok v)
    (hroom : s.st ≤ s.ht) :
    binaryTop p s = .ok () { t with data := t.data.setIfInBounds t.height v, st := t.st + 1 } := by
  obtain ⟨ht, hless, hbase, hsize⟩ := state_of_pop2 h
  have hheap : t.ht = s.ht := by rw [ht]
  rw [Int64.le_iff_toInt_le] at hroom
  rw [binaryTop, EStateM.bind_of_ok h]
  simp only [hv]
  exact push_free v hbase hsize (by rw [hheap]; omega)

end Operands

/-- Arithmetic is exact up to its reduction to 32 bits. For all words, sum, difference, product and
truncated quotient are the one number of 32 bits that is congruent to them, and a remainder is what
the truncated quotient leaves. Only a division by zero is refused, and then the operands are gone
from the stack and nothing else has changed; else the result takes their place. -/
theorem arithmetic_exact (o : Arith) (a b : Word) :
    o.Computes a b (binary o.prim a b) ∧
    ∀ s t, pop2 s = .ok (a, b) t → s.st ≤ s.ht →
      t = { s with st := s.st - 2 } ∧
      ((∃ e u, primitive o.prim s = .error e u) ↔ o.Refuses b) ∧
      (o.Refuses b → primitive o.prim s = .error (.fault .divisionByZero) t) ∧
      ∀ v, binary o.prim a b = .ok v →
        primitive o.prim s =
          .ok () { t with data := t.data.setIfInBounds t.height v, st := t.st + 1 } := by
  have hcomputes := o.binary_computes a b
  refine ⟨hcomputes, ?_⟩
  intro s t h hroom
  rw [o.primitive_prim]
  refine ⟨(state_of_pop2 h).1, ?_⟩
  cases hr : binary o.prim a b with
  | error f =>
    rw [hr] at hcomputes
    cases hcomputes with
    | refused hrefuses =>
      have hend := binaryTop_of_error h hr
      exact ⟨⟨fun _ => hrefuses, fun _ => ⟨_, _, hend⟩⟩, fun _ => hend, fun v hv => by cases hv⟩
  | ok v =>
    rw [hr] at hcomputes
    cases hcomputes with
    | done hdefined hgives =>
      have hend := binaryTop_of_ok h hr hroom
      refine ⟨⟨?_, fun hrefuses => absurd hrefuses hdefined⟩,
        fun hrefuses => absurd hrefuses hdefined, ?_⟩
      · rintro ⟨e, u, he⟩
        cases hend.symm.trans he
      · intro v' hv'
        cases hv'
        exact hend

/-- Two words on the stack. -/
def twoWords (data : Array Word) : State :=
  { data, st := 2, lb := 0, ob := 0, ht := Word.ofNat memorySize, cp := 0,
    input := none, output := { sink := .accept } }

/-- The memory with the least number of 32 bits and what it is divided by. -/
def dividesLeast (b : Word) : Array Word := State.fill (.replicate memorySize 0) 0 [-2147483648, b]

section Quotient

variable {data : Array Word}

theorem dividesLeast_words (b : Word) :
    (dividesLeast b).size = memorySize ∧ (dividesLeast b).getD 0 0 = -2147483648 ∧
      (dividesLeast b).getD 1 0 = b := by
  have hsize : (Array.replicate memorySize (0 : Word)).size = memorySize := Array.size_replicate
  unfold dividesLeast
  generalize Array.replicate memorySize (0 : Word) = memory at hsize ⊢
  have hfits : 0 + [-2147483648, b].length ≤ memory.size := by
    rw [hsize]
    exact (by decide : 2 ≤ memorySize)
  exact ⟨(size_fill _ _ _).trans hsize, getD_fill hfits, getD_fill hfits⟩

theorem twoWords_pops (hsize : data.size = memorySize) :
    pop2 (twoWords data) = .ok (data.getD 0 0, data.getD 1 0) { twoWords data with st := 0 } := by
  have hs : (twoWords data).Apart := ⟨hsize, (by decide : 0 ≤ (2 : Word).toInt),
    (by decide : (2 : Word).toInt ≤ (Word.ofNat memorySize).toInt),
    (by decide : 0 < (Word.ofNat memorySize).toInt),
    (by decide : (Word.ofNat memorySize).toInt ≤ memorySize)⟩
  exact pop2_words hs (m := 0) (show (2 : Word).toInt.toNat = 2 by decide)

end Quotient

/-- The quotient of the least number by -1 wraps around to the least number, and there is none by
0. -/
theorem dividesLeast_ends :
    (pop2 (twoWords (dividesLeast (-1))) =
        .ok (-2147483648, -1) { twoWords (dividesLeast (-1)) with st := 0 } ∧
      (twoWords (dividesLeast (-1))).st ≤ (twoWords (dividesLeast (-1))).ht ∧
      primitive .div (twoWords (dividesLeast (-1))) =
        .ok () { twoWords ((dividesLeast (-1)).setIfInBounds 0 (-2147483648)) with st := 1 }) ∧
    primitive .div (twoWords (dividesLeast 0)) =
      .error (.fault .divisionByZero) { twoWords (dividesLeast 0) with st := 0 } := by
  have hroom (data : Array Word) : (twoWords data).st ≤ (twoWords data).ht :=
    (by decide : (2 : Word) ≤ Word.ofNat memorySize)
  constructor
  · obtain ⟨hsize, hleast, hb⟩ := dividesLeast_words (-1)
    generalize dividesLeast (-1) = data at hsize hleast hb ⊢
    have hpop := twoWords_pops hsize
    rw [hleast, hb] at hpop
    refine ⟨hpop, hroom data, ?_⟩
    obtain ⟨hcomputes, hends⟩ := arithmetic_exact .div (-2147483648) (-1)
    obtain ⟨-, -, -, hdone⟩ := hends _ _ hpop (hroom data)
    cases hr : binary Arith.div.prim (-2147483648) (-1) with
    | error f =>
      rw [hr] at hcomputes
      cases hcomputes with
      | refused hrefuses => exact absurd hrefuses.2 (by decide)
    | ok v =>
      rw [hr] at hcomputes
      cases hcomputes with
      | done _ hgives =>
        have hv : v = -2147483648 := Int64.toInt_inj.mp ((hgives (-2 ^ 31)).mp (by decide)).symm
        exact hv ▸ hdone v hr
  · obtain ⟨hsize, hleast, hb⟩ := dividesLeast_words 0
    generalize dividesLeast 0 = data at hsize hleast hb ⊢
    have hpop := twoWords_pops hsize
    rw [hleast, hb] at hpop
    exact ((arithmetic_exact .div (-2147483648) 0).2 _ _ hpop (hroom data)).2.2.1 ⟨.inl rfl, rfl⟩

end Machine

end MiniJava
