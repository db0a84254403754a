import Mathlib.Algebra.Order.Ring.Nat

namespace Contrees.Conctrl

/-- The default `LIBCONCTRL_BUFFER_SIZE`, which is its own `bit_ceil`. -/
def bufferSize : Nat := 65536

theorem bufferSize_pos : 0 < bufferSize := by decide

theorem slot_injective {base i j : Nat} (hi : base < i) (hi' : i < base + bufferSize)
    (hj : base < j) (hj' : j < base + bufferSize) (h : i % bufferSize = j % bufferSize) :
    i = j := by
  have hB := bufferSize_pos
  generalize bufferSize = B at *
  have hi'' := Nat.div_add_mod i B
  have hj'' := Nat.div_add_mod j B
  rcases Nat.lt_trichotomy (i / B) (j / B) with hlt | heq | hgt
  · have := Nat.mul_le_mul_left B hlt
    rw [Nat.mul_succ] at this
    omega
  · rw [heq] at hi''; omega
  · have := Nat.mul_le_mul_left B hgt
    rw [Nat.mul_succ] at this
    omega

namespace Operand

def init : Nat := 0x0
def done : Nat := 0xf

end Operand

end Contrees.Conctrl
