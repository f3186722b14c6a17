import Mathlib.Data.Nat.Bitwise
import MiniJava.Object.File
/-!
Reading back an object file. The reader gets the instructions that were written with every word cut
to its low 32 bits, so it gets the same instructions exactly if every word is a number of 32 bits.
Bytes that nobody wrote are read as the instructions whose file they are, if they are whole
instructions.
-/
namespace MiniJava

namespace Word

theorem toInt_cut32 (w : Word) : w.cut32.toInt = w.toInt.bmod (2 ^ 32) := by
  rw [cut32, Int32.toInt_toInt64, Int64.toInt_toInt32]

/-- A number of 32 bits. -/
def Fits (w : Word) : Prop := -2 ^ 31 ≤ w.toInt ∧ w.toInt ≤ 2 ^ 31 - 1

theorem cut32_eq_self_iff {w : Word} : w.cut32 = w ↔ w.Fits := by
  rw [← Int64.toInt_inj, toInt_cut32]
  constructor
  · intro h
    rw [Fits, ← h]
    have hlow := Int.le_bmod (x := w.toInt) (m := 2 ^ 32) (by decide)
    have hhigh := Int.bmod_lt (x := w.toInt) (m := 2 ^ 32) (by decide)
    omega
  · rintro ⟨hlow, hhigh⟩
    exact Int.bmod_eq_of_le (by omega) (by omega)

end Word

namespace Instr

/-- The instruction with every word cut to 32 bits. -/
def cut (i : Instr) : Instr := ⟨i.op.cut32, i.n.cut32, i.r.cut32, i.d.cut32⟩

/-- Every word of the instruction is a number of 32 bits. -/
structure Fits (i : Instr) : Prop where
  op : i.op.Fits
  n : i.n.Fits
  r : i.r.Fits
  d : i.d.Fits

theorem cut_eq_self_iff {i : Instr} : i.cut = i ↔ i.Fits := by
  rw [cut, Instr.mk.injEq, Word.cut32_eq_self_iff, Word.cut32_eq_self_iff, Word.cut32_eq_self_iff,
    Word.cut32_eq_self_iff]
  exact ⟨fun ⟨hop, hn, hr, hd⟩ => ⟨hop, hn, hr, hd⟩, fun h => ⟨h.op, h.n, h.r, h.d⟩⟩

end Instr

namespace Object

/-- A number below 2³² is put together from its four bytes. -/
theorem reassemble {n : Nat} (h : n < 2 ^ 32) :
    (((n >>> 24) % 2 ^ 8) <<< 24) % 2 ^ 32 ||| (((n >>> 16) % 2 ^ 8) <<< 16) % 2 ^ 32 |||
      (((n >>> 8) % 2 ^ 8) <<< 8) % 2 ^ 32 ||| n % 2 ^ 8 = n := by
  apply Nat.eq_of_testBit_eq
  intro i
  simp only [Nat.testBit_lor, Nat.testBit_mod_two_pow, Nat.testBit_shiftLeft,
    Nat.testBit_shiftRight]
  by_cases hi : i < 32
  · grind
  · have hbit : n.testBit i = false :=
      Nat.testBit_eq_false_of_lt
        (Nat.lt_of_lt_of_le h (Nat.pow_le_pow_right (by decide) (by omega)))
    grind

theorem wordOf_bytes (n : UInt32) :
    wordOf (n >>> 24).toUInt8 (n >>> 16).toUInt8 (n >>> 8).toUInt8 n.toUInt8 =
      n.toInt32.toInt64 := by
  have hbytes : (n >>> 24).toUInt8.toUInt32 <<< 24 ||| (n >>> 16).toUInt8.toUInt32 <<< 16 |||
      (n >>> 8).toUInt8.toUInt32 <<< 8 ||| n.toUInt8.toUInt32 = n := by
    apply UInt32.toNat_inj.mp
    simp only [UInt32.toNat_or, UInt32.toNat_shiftLeft, UInt8.toNat_toUInt32, UInt32.toNat_toUInt8,
      UInt32.toNat_shiftRight]
    exact reassemble n.toNat_lt
  simp only [wordOf, hbytes]

theorem readFrom_instr (n : Nat) (i : Instr) (rest : Bytes) :
    readFrom n (instrBytes i ++ rest) = (readFrom (n + 1) rest).map (i.cut :: ·) := by
  simp only [instrBytes, wordBytes, List.cons_append, List.nil_append, readFrom, wordOf_bytes]
  rfl

theorem read_write (is : List Instr) : read (write is) = .ok (is.map Instr.cut) := by
  have hfrom : ∀ n, readFrom n (write is) = .ok (is.map Instr.cut) := by
    induction is with
    | nil => exact fun _ => rfl
    | cons i is ih =>
      intro n
      rw [write, List.flatMap_cons, readFrom_instr]
      change Except.map _ (readFrom (n + 1) (write is)) = _
      rw [ih]
      rfl
  exact hfrom 0

/-- A file gives back the instructions written to it exactly if all their words have 32 bits. -/
theorem read_write_eq_iff {is : List Instr} : read (write is) = .ok is ↔ ∀ i ∈ is, i.Fits := by
  have hsame : is.map Instr.cut = is ↔ ∀ i ∈ is, i.cut = i := by
    nth_rewrite 2 [← List.map_id is]
    exact List.map_inj_left
  rw [read_write, Except.ok.injEq, hsame]
  exact forall₂_congr fun _ _ => Instr.cut_eq_self_iff

theorem disassemble (a b c d : UInt8) :
    let n := a.toUInt32 <<< 24 ||| b.toUInt32 <<< 16 ||| c.toUInt32 <<< 8 ||| d.toUInt32
    (n >>> 24).toUInt8 = a ∧ (n >>> 16).toUInt8 = b ∧ (n >>> 8).toUInt8 = c ∧ n.toUInt8 = d := by
  intro n
  have hbyte (x : UInt8) (i : Nat) (hi : 8 ≤ i) : x.toNat.testBit i = false :=
    Nat.testBit_eq_false_of_lt (Nat.lt_of_lt_of_le x.toNat_lt (Nat.pow_le_pow_right (by decide) hi))
  refine ⟨?_, ?_, ?_, ?_⟩ <;> apply UInt8.toNat_inj.mp <;> apply Nat.eq_of_testBit_eq <;> intro i
  all_goals
    simp only [n, UInt32.toNat_or, UInt32.toNat_shiftLeft, UInt8.toNat_toUInt32,
      UInt32.toNat_toUInt8, UInt32.toNat_shiftRight, Nat.testBit_lor, Nat.testBit_mod_two_pow,
      Nat.testBit_shiftLeft, Nat.testBit_shiftRight]
    grind

theorem wordBytes_wordOf (a b c d : UInt8) : wordBytes (wordOf a b c d) = [a, b, c, d] := by
  obtain ⟨ha, hb, hc, hd⟩ := disassemble a b c d
  simp [wordBytes, wordOf, ha, hb, hc, hd]

/-- What is read from any bytes: the instructions whose file they are, or the number of whole
instructions before a rest that is too short for one. -/
theorem readFrom_cases (n : Nat) (bs : Bytes) :
    (16 ∣ bs.length ∧ ∃ is, readFrom n bs = .ok is ∧ write is = bs) ∨
      (¬16 ∣ bs.length ∧ readFrom n bs = .error ⟨n + bs.length / 16⟩) := by
  fun_induction readFrom n bs with
  | case1 n => exact .inl ⟨Nat.dvd_zero 16, [], rfl, rfl⟩
  | case2 n a b c d e f g h i j k l m o p q rest ih =>
    have hlength :
        (a :: b :: c :: d :: e :: f :: g :: h :: i :: j :: k :: l :: m :: o :: p :: q ::
          rest).length =
        rest.length + 16 := rfl
    rw [hlength]
    rcases ih with ⟨hdvd, is, hread, hwrite⟩ | ⟨hdvd, hread⟩
    · refine .inl ⟨by omega, _, by rw [hread]; rfl, ?_⟩
      change instrBytes _ ++ write is = _
      rw [hwrite, instrBytes]
      simp only [wordBytes_wordOf]
      rfl
    · have hcount : n + 1 + rest.length / 16 = n + (rest.length + 16) / 16 := by omega
      refine .inr ⟨by omega, ?_⟩
      rw [hread, hcount]
      rfl
  | case3 bs n hnil hcons =>
    have hshort : bs.length < 16 := by
      by_contra hlong
      rcases bs with _ |
        ⟨a, _ | ⟨b,
        _ | ⟨c, _ | ⟨d, _ | ⟨e, _ | ⟨f, _ | ⟨g, _ | ⟨h, _ | ⟨i, _ | ⟨j, _ | ⟨k, _ | ⟨l, _ | ⟨m,
        _ | ⟨o, _ | ⟨p, _ | ⟨q, rest⟩⟩⟩⟩⟩⟩⟩⟩⟩⟩⟩⟩⟩⟩⟩⟩
      all_goals simp at hlong
      exact hcons _ _ _ _ _ _ _ _ _ _ _ _ _ _ _ _ _ rfl
    have hpos : 0 < bs.length := List.length_pos_iff.mpr hnil
    have hzero : bs.length / 16 = 0 := Nat.div_eq_of_lt hshort
    exact .inr ⟨Nat.not_dvd_of_pos_of_lt hpos hshort, by rw [hzero]; rfl⟩

/-- Writing and reading are exact. A written file is read as what was written, each word cut to its
low 32 bits. Bytes are read if they are whole instructions, and are then the file of what was read;
otherwise the whole ones are counted. -/
theorem codec_exact :
    (∀ is : List Instr, read (write is) = .ok (is.map Instr.cut) ∧
      (read (write is) = .ok is ↔ ∀ i ∈ is, i.Fits)) ∧
    ∀ bs : Bytes, ((∃ is, read bs = .ok is) ↔ 16 ∣ bs.length) ∧
      (∀ is, read bs = .ok is → write is = bs) ∧
      (¬16 ∣ bs.length → read bs = .error ⟨bs.length / 16⟩) := by
  refine ⟨fun is => ⟨read_write is, read_write_eq_iff⟩, fun bs => ?_⟩
  have hcases := readFrom_cases 0 bs
  rw [Nat.zero_add, ← read] at hcases
  rcases hcases with ⟨hdvd, is, hread, hwrite⟩ | ⟨hdvd, hread⟩
  · refine ⟨⟨fun _ => hdvd, fun _ => ⟨is, hread⟩⟩, fun is' hread' => ?_,
      fun hnot => absurd hdvd hnot⟩
    rw [hread] at hread'
    cases hread'
    exact hwrite
  · have hnone (is : List Instr) : read bs ≠ .ok is := by
      rw [hread]
      intro h
      cases h
    refine ⟨⟨?_, fun h => absurd h hdvd⟩, fun is his => absurd his (hnone is), fun _ => hread⟩
    rintro ⟨is, his⟩
    exact absurd his (hnone is)

end Object

end MiniJava
