import MiniJava.Text.Bytes
/-!
White space in UTF-8: U+0009 to U+000D, the blank, U+0085, U+00A0, U+1680, U+2000 to U+200A, U+2028,
U+2029, U+202F, U+205F and U+3000.
-/
namespace MiniJava.Blank

def isAscii (b : UInt8) : Bool := b == 0x20 || (0x09 ≤ b && b ≤ 0x0d)

/-- The last bytes of white space that is encoded as `0xe2 0x80` and one byte more. -/
def isPunctuationSpace (b : UInt8) : Bool :=
  (0x80 ≤ b && b ≤ 0x8a) || b == 0xa8 || b == 0xa9 || b == 0xaf

def strip? : Bytes → Option Bytes
  | 0xc2 :: b :: bs => if b == 0x85 || b == 0xa0 then some bs else none
  | 0xe1 :: 0x9a :: 0x80 :: bs => some bs
  | 0xe2 :: 0x80 :: b :: bs => if isPunctuationSpace b then some bs else none
  | 0xe2 :: 0x81 :: 0x9f :: bs => some bs
  | 0xe3 :: 0x80 :: 0x80 :: bs => some bs
  | b :: bs => if isAscii b then some bs else none
  | [] => none

theorem length_strip?_lt {bs rest : Bytes}
    (h : strip? bs = some rest) : rest.length < bs.length := by
  unfold strip? at h
  split at h <;> grind

def skip (bs : Bytes) : Bytes :=
  match _h : strip? bs with
  | some rest => skip rest
  | none => bs
termination_by bs.length
decreasing_by exact length_strip?_lt _h

theorem length_skip_le (bs : Bytes) : (skip bs).length ≤ bs.length := by
  fun_induction skip bs with
  | case1 bs rest h ih => exact Nat.le_trans ih (Nat.le_of_lt (length_strip?_lt h))
  | case2 => exact Nat.le_refl _

/-- The bytes up to the next white space, and what follows. -/
def word : Bytes → Bytes × Bytes
  | [] => ([], [])
  | b :: bs =>
    match strip? (b :: bs) with
    | some _ => ([], b :: bs)
    | none => (b :: (word bs).1, (word bs).2)

theorem length_word_le (bs : Bytes) : (word bs).2.length ≤ bs.length := by
  fun_induction word bs <;> grind

def fields (bs : Bytes) : List Bytes :=
  match _h : skip bs with
  | [] => []
  | b :: rest => (b :: (word rest).1) :: fields (word rest).2
termination_by bs.length
decreasing_by
  have h₁ := length_skip_le bs
  have h₂ := length_word_le rest
  rw [_h, List.length_cons] at h₁
  omega

end MiniJava.Blank
