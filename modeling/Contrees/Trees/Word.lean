import Contrees.Library.Words

namespace Contrees.Trees.Word

open Library.Words

/-- The target takes the count of a 64-bit shift modulo 64. -/
def count (c : Int) : Nat := (c % 64).toNat

def shl (x : Nat) (c : Int) : Nat := (x <<< count c) % 2 ^ 64

def shr (x : Nat) (c : Int) : Nat := x >>> count c

def ones : Nat := 2 ^ 64 - 1

/-- `__builtin_clzll` of a word that is not 0. -/
def clzll (x : Nat) : Nat := leadingZeros 63 x

theorem count_of_lt {c : Nat} (h : c < 64) : count c = c := by
  rw [count, Int.emod_eq_of_lt (by omega) (by omega)]
  rfl

theorem ones_shr {l : Nat} (hl : l ≤ 64) : ones >>> (64 - l) = 2 ^ l - 1 := by
  apply Nat.eq_of_testBit_eq
  intro j
  rw [ones, Nat.testBit_shiftRight, Nat.testBit_two_pow_sub_one, Nat.testBit_two_pow_sub_one]
  exact decide_eq_decide.mpr (by omega)

end Contrees.Trees.Word
