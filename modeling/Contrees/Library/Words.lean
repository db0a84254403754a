import Mathlib.Algebra.Order.Ring.Nat
import Mathlib.Tactic.Ring

namespace Contrees.Library.Words

variable {x y r s l j : Nat}

/-- The bits of `x` from `s` to `r`. -/
def slice (r s x : Nat) : Nat := x % 2 ^ r / 2 ^ s

theorem slice_lt (h : s ≤ r) : slice r s x < 2 ^ (r - s) := by
  rw [slice, Nat.div_lt_iff_lt_mul (Nat.two_pow_pos s), ← pow_add, Nat.sub_add_cancel h]
  exact Nat.mod_lt _ (Nat.two_pow_pos r)

@[simp] theorem slice_self : slice r r x = 0 := Nat.div_eq_of_lt (Nat.mod_lt _ (Nat.two_pow_pos r))

theorem testBit_slice : (slice r s x).testBit j = (decide (s + j < r) && x.testBit (s + j)) := by
  rw [slice, Nat.testBit_div_two_pow, Nat.testBit_mod_two_pow, Nat.add_comm]

theorem xor_eq_zero_iff : x ^^^ y = 0 ↔ x = y := by
  constructor
  · intro h
    rw [← Nat.xor_zero x, ← Nat.xor_self y, ← Nat.xor_assoc, h, Nat.zero_xor]
  · rintro rfl
    exact Nat.xor_self x

theorem slice_xor : slice r s (x ^^^ y) = slice r s x ^^^ slice r s y := by
  rw [slice, Nat.xor_mod_two_pow, Nat.xor_div_two_pow]
  rfl

theorem slice_xor_eq_zero : slice r s (x ^^^ y) = 0 ↔ slice r s x = slice r s y := by
  rw [slice_xor, xor_eq_zero_iff]

theorem slice_and_mask {a b : Nat} (hs : b ≤ s) (hr : r ≤ a + b) :
    slice r s (x &&& ((2 ^ a - 1) <<< b)) = slice r s x := by
  apply Nat.eq_of_testBit_eq
  intro j
  simp only [testBit_slice, Nat.testBit_and, Nat.testBit_shiftLeft, Nat.testBit_two_pow_sub_one]
  by_cases hj : s + j < r
  · simp [hj, show b ≤ s + j by omega, show s + j - b < a by omega]
  · simp [hj]

theorem slice_slice {t : Nat} (h : s ≤ t) : slice r s x / 2 ^ (t - s) = slice r t x := by
  rw [slice, slice, Nat.div_div_eq_div_mul, ← pow_add, Nat.add_sub_cancel' h]

theorem slice_mod {t : Nat} (hs : s ≤ t) (ht : t ≤ r) :
    slice r s x % 2 ^ (t - s) = slice t s x := by
  apply Nat.eq_of_testBit_eq
  intro j
  rw [Nat.testBit_mod_two_pow, testBit_slice, testBit_slice, ← Bool.and_assoc, ← Bool.decide_and]
  congr 1
  exact decide_eq_decide.mpr (by omega)

section Same

def SameBits (s r x y : Nat) : Prop := ∀ j, s ≤ j → j < r → x.testBit j = y.testBit j

theorem slice_eq_iff : slice r s x = slice r s y ↔ SameBits s r x y := by
  constructor
  · intro h j hs hr
    have hbit := congrArg (Nat.testBit · (j - s)) h
    simpa [testBit_slice, Nat.add_sub_cancel' hs, hr] using hbit
  · intro h
    apply Nat.eq_of_testBit_eq
    intro j
    rw [testBit_slice, testBit_slice]
    by_cases hj : s + j < r
    · rw [h (s + j) (Nat.le_add_right s j) hj]
    · rw [decide_eq_false hj, Bool.false_and, Bool.false_and]

theorem sameBits_split {m : Nat} (hs : s ≤ m) (hr : m ≤ r) :
    SameBits s r x y ↔ SameBits m r x y ∧ SameBits s m x y := by
  constructor
  · exact fun h => ⟨fun j hj hj' => h j (hs.trans hj) hj', fun j hj hj' => h j hj (hj'.trans_le hr)⟩
  · rintro ⟨hhigh, hlow⟩ j hj hj'
    by_cases hjm : j < m
    · exact hlow j hj hjm
    · exact hhigh j (not_lt.mp hjm) hj'

theorem div_eq_iff_slice (h : s ≤ r) :
    x / 2 ^ s = y / 2 ^ s ↔ x / 2 ^ r = y / 2 ^ r ∧ slice r s x = slice r s y := by
  have hsplit : ∀ z, z / 2 ^ s = z / 2 ^ r * 2 ^ (r - s) + slice r s z := by
    intro z
    have hr : r = s + (r - s) := (Nat.add_sub_cancel' h).symm
    have hslice : slice r s z = z / 2 ^ s % 2 ^ (r - s) := by
      rw [slice]
      conv_lhs => rw [hr, pow_add, Nat.mod_mul_right_div_self]
    have hdiv : z / 2 ^ r = z / 2 ^ s / 2 ^ (r - s) := by
      rw [Nat.div_div_eq_div_mul, ← pow_add, ← hr]
    rw [hslice, hdiv, Nat.div_add_mod']
  have hlt : ∀ z, slice r s z < 2 ^ (r - s) := fun z => slice_lt h
  rw [hsplit, hsplit]
  constructor
  · intro heq
    have hdiv := congrArg (· / 2 ^ (r - s)) heq
    have hmod := congrArg (· % 2 ^ (r - s)) heq
    simp only [Nat.mul_add_mod', Nat.mod_eq_of_lt (hlt _)] at hmod
    simp only [Nat.add_comm _ (slice _ _ _), Nat.add_mul_div_right _ _ (Nat.two_pow_pos (r - s)),
      Nat.div_eq_of_lt (hlt _), Nat.zero_add] at hdiv
    exact ⟨hdiv, hmod⟩
  · rintro ⟨hdiv, hmod⟩
    rw [hdiv, hmod]

/-- The high bits of one word above the `m` low bits of another. -/
def splice (m x y : Nat) : Nat := 2 ^ m * (x / 2 ^ m) + y % 2 ^ m

theorem testBit_splice {m : Nat} :
    (splice m x y).testBit j = if j < m then y.testBit j else x.testBit j := by
  rw [splice, Nat.testBit_two_pow_mul_add _ (Nat.mod_lt _ (Nat.two_pow_pos m))]
  by_cases hj : j < m
  · rw [if_pos hj, if_pos hj, Nat.testBit_mod_two_pow, decide_eq_true hj, Bool.true_and]
  · rw [if_neg hj, if_neg hj, Nat.testBit_div_two_pow, Nat.sub_add_cancel (not_lt.mp hj)]

end Same

def leadingZeros (n x : Nat) : Nat := n - x.log2

theorem le_leadingZeros {n : Nat} (hx : x ≠ 0) (hn : x < 2 ^ (n + 1)) (hj : j ≤ n + 1) :
    j ≤ leadingZeros n x ↔ x < 2 ^ (n + 1 - j) := by
  have hlog : x.log2 < n + 1 := (Nat.log2_lt hx).mpr hn
  rw [leadingZeros, ← Nat.log2_lt hx]
  omega

/-- The words below `2 ^ r`, moved to the top, differ after their common leading bits. -/
theorem le_leadingZeros_xor {n : Nat} (hr : r ≤ n + 1) (hj : j ≤ r)
    (hne : (x ^^^ y) % 2 ^ r * 2 ^ (n + 1 - r) ≠ 0) :
    j ≤ leadingZeros n ((x ^^^ y) % 2 ^ r * 2 ^ (n + 1 - r)) ↔
      slice r (r - j) x = slice r (r - j) y := by
  have hlt : (x ^^^ y) % 2 ^ r * 2 ^ (n + 1 - r) < 2 ^ (n + 1) := by
    calc (x ^^^ y) % 2 ^ r * 2 ^ (n + 1 - r) < 2 ^ r * 2 ^ (n + 1 - r) :=
          Nat.mul_lt_mul_of_pos_right (Nat.mod_lt _ (Nat.two_pow_pos r)) (Nat.two_pow_pos _)
      _ = 2 ^ (n + 1) := by rw [← pow_add, Nat.add_sub_cancel' hr]
  have hpow : 2 ^ (n + 1 - j) = 2 ^ (r - j) * 2 ^ (n + 1 - r) := by
    rw [← pow_add]
    congr 1
    omega
  rw [le_leadingZeros hne hlt (hj.trans hr), hpow, Nat.mul_lt_mul_right (Nat.two_pow_pos _),
    ← slice_xor_eq_zero, slice, Nat.div_eq_zero_iff_lt (Nat.two_pow_pos _)]

theorem xor_shifted_eq_zero {n : Nat} : (x ^^^ y) % 2 ^ r * 2 ^ n = 0 ↔ x % 2 ^ r = y % 2 ^ r := by
  rw [Nat.mul_eq_zero, or_iff_left (Nat.two_pow_pos n).ne', Nat.xor_mod_two_pow, xor_eq_zero_iff]

theorem shiftLeft_mod {n : Nat} (hr : r ≤ n) :
    (x <<< (n - r)) % 2 ^ n = x % 2 ^ r * 2 ^ (n - r) := by
  have hn : 2 ^ n = 2 ^ r * 2 ^ (n - r) := by rw [← pow_add, Nat.add_sub_cancel' hr]
  rw [Nat.shiftLeft_eq, hn, Nat.mul_mod_mul_right]

end Contrees.Library.Words
