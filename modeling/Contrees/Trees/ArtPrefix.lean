import Contrees.Library.Radix
import Contrees.Trees.ArtNode

namespace Contrees.Trees.Art

open Library Library.Words Word

variable {hd : Head} {ofs len key pos x j : Nat}

def rest (ofs : Nat) : Nat := 64 - 8 * ofs

theorem rest_zero : rest 0 = 64 := rfl

theorem rest_add (h : ofs + len < 8) : 8 * len + 8 + rest (ofs + len + 1) = rest ofs := by
  rw [rest, rest]
  omega

theorem partialKey_eq (h : pos < 8) : partialKey key pos = key / 2 ^ rest (pos + 1) % 2 ^ 8 := by
  have hcount : count (56 - 8 * (pos : Int)) = rest (pos + 1) := by
    have hlt : 56 - 8 * pos < 64 := by omega
    rw [show (56 - 8 * (pos : Int)) = ((56 - 8 * pos : Nat) : Int) by omega, count_of_lt hlt, rest]
    omega
  rw [partialKey, shr, hcount, Nat.shiftRight_eq_div_pow, show (0xFF : Nat) = 2 ^ 8 - 1 by rfl,
    Nat.and_two_pow_sub_one_eq_mod]

theorem partialKey_lt (h : pos < 8) : partialKey key pos < 2 ^ 8 := by
  rw [partialKey_eq h]
  exact Nat.mod_lt _ (Nat.two_pow_pos 8)

theorem prefixMask_eq (hpos : 0 < len) (h : ofs + len ≤ 8) :
    prefixMask ofs len = (2 ^ (8 * len) - 1) <<< (rest ofs - 8 * len) := by
  have h₁ : count (8 * (8 - (len : Int))) = 64 - 8 * len := by
    rw [show (8 * (8 - (len : Int))) = ((64 - 8 * len : Nat) : Int) by omega,
      count_of_lt (by omega)]
  have h₂ : count (8 * (8 - (len : Int) - ofs)) = rest ofs - 8 * len := by
    rw [rest, show (8 * (8 - (len : Int) - ofs)) = ((64 - 8 * ofs - 8 * len : Nat) : Int) by omega,
      count_of_lt (by omega)]
  rw [prefixMask, shl, shr, h₁, h₂, ones_shr (by omega)]
  apply Nat.mod_eq_of_lt
  rw [Nat.shiftLeft_eq]
  have hlt : 2 ^ (8 * len) - 1 < 2 ^ (8 * len) := Nat.sub_lt (Nat.two_pow_pos _) Nat.one_pos
  calc (2 ^ (8 * len) - 1) * 2 ^ (rest ofs - 8 * len)
      < 2 ^ (8 * len) * 2 ^ (rest ofs - 8 * len) :=
        Nat.mul_lt_mul_of_pos_right hlt (Nat.two_pow_pos _)
    _ = 2 ^ (rest ofs) := by
        rw [← pow_add]
        congr 1
        rw [rest]
        omega
    _ ≤ 2 ^ 64 := Nat.pow_le_pow_right (by omega) (by rw [rest]; omega)

theorem slice_prefixMask (h : ofs + len ≤ 8) :
    slice (rest ofs) (rest ofs - 8 * len) (x &&& prefixMask ofs len) =
      slice (rest ofs) (rest ofs - 8 * len) x := by
  rcases Nat.eq_zero_or_pos len with rfl | hpos
  · rw [Nat.mul_zero, Nat.sub_zero, slice_self, slice_self]
  · rw [prefixMask_eq hpos h, slice_and_mask (le_refl _) (by rw [rest]; omega)]

theorem le_prefixMatch (hofs : hd.pfxOfs < 8) (hj : hd.pfxOfs + j ≤ 8) :
    slice (rest hd.pfxOfs) (rest hd.pfxOfs - 8 * j) key =
        slice (rest hd.pfxOfs) (rest hd.pfxOfs - 8 * j) hd.pfx ↔
      j ≤ prefixMatch hd key ∨ prefixMatch hd key = hd.pfxLen ∧
        key % 2 ^ rest hd.pfxOfs = hd.pfx % 2 ^ rest hd.pfxOfs := by
  have hcount : count (8 * (hd.pfxOfs : Int)) = 64 - rest hd.pfxOfs := by
    rw [show (8 * (hd.pfxOfs : Int)) = ((8 * hd.pfxOfs : Nat) : Int) by omega,
      count_of_lt (by omega), rest]
    omega
  have hr : rest hd.pfxOfs ≤ 64 := by
    rw [rest]
    omega
  have hd' : shl (key ^^^ hd.pfx) (8 * hd.pfxOfs) =
      (key ^^^ hd.pfx) % 2 ^ rest hd.pfxOfs * 2 ^ (64 - rest hd.pfxOfs) := by
    rw [shl, hcount, shiftLeft_mod hr]
  by_cases hz : (key ^^^ hd.pfx) % 2 ^ rest hd.pfxOfs * 2 ^ (64 - rest hd.pfxOfs) = 0
  · have hpm : prefixMatch hd key = hd.pfxLen := by
      rw [prefixMatch, hd']
      exact if_pos hz
    have heq := xor_shifted_eq_zero.mp hz
    refine iff_of_true ?_ (.inr ⟨hpm, heq⟩)
    rw [slice, heq]
    rfl
  · have hpm : prefixMatch hd key =
        clzll ((key ^^^ hd.pfx) % 2 ^ rest hd.pfxOfs * 2 ^ (64 - rest hd.pfxOfs)) / 8 := by
      rw [prefixMatch, hd']
      exact if_neg hz
    have hne : key % 2 ^ rest hd.pfxOfs ≠ hd.pfx % 2 ^ rest hd.pfxOfs := fun h =>
      hz (xor_shifted_eq_zero.mpr h)
    have hj' : 8 * j ≤ rest hd.pfxOfs := by
      rw [rest]
      omega
    have hlead := le_leadingZeros_xor (n := 63) hr hj' hz
    rw [← hlead, hpm, clzll, Nat.le_div_iff_mul_le (by omega), Nat.mul_comm j 8]
    exact ⟨.inl, fun h => h.resolve_right fun h => hne h.2⟩

theorem prefixMatch_lt (h : hd.pfxOfs + hd.pfxLen ≤ 8) :
    prefixMatch hd key < hd.pfxLen ↔
      slice (rest hd.pfxOfs) (rest hd.pfxOfs - 8 * hd.pfxLen) key ≠
        slice (rest hd.pfxOfs) (rest hd.pfxOfs - 8 * hd.pfxLen) hd.pfx := by
  rcases Nat.eq_zero_or_pos hd.pfxLen with hz | hpos
  · simp [hz]
  · rw [ne_eq, le_prefixMatch (by omega) h, not_or, not_and, not_le]
    exact ⟨fun hlt => ⟨hlt, fun heq => absurd heq hlt.ne⟩, And.left⟩

theorem prefixMatch_differs (h : hd.pfxOfs + hd.pfxLen ≤ 8) (hlt : prefixMatch hd key < hd.pfxLen) :
    slice (rest hd.pfxOfs) (rest hd.pfxOfs - 8 * prefixMatch hd key) key =
        slice (rest hd.pfxOfs) (rest hd.pfxOfs - 8 * prefixMatch hd key) hd.pfx ∧
      slice (rest hd.pfxOfs) (rest hd.pfxOfs - 8 * (prefixMatch hd key + 1)) key ≠
        slice (rest hd.pfxOfs) (rest hd.pfxOfs - 8 * (prefixMatch hd key + 1)) hd.pfx := by
  refine ⟨(le_prefixMatch (by omega) (by omega)).mpr (.inl (le_refl _)), fun heq => ?_⟩
  rcases (le_prefixMatch (by omega) (by omega)).mp heq with hle | ⟨heq, -⟩ <;> omega

theorem slice_digit (h : ofs + j < 8) :
    slice (rest ofs) (rest ofs - 8 * (j + 1)) x =
      slice (rest ofs) (rest ofs - 8 * j) x * 2 ^ 8 + partialKey x (ofs + j) := by
  have hs : rest ofs - 8 * (j + 1) = rest (ofs + j + 1) := by
    rw [rest, rest]
    omega
  have hs' : rest ofs - 8 * j = 8 + rest (ofs + j + 1) := by
    rw [rest, rest]
    omega
  have hr : rest ofs = 8 * (j + 1) + rest (ofs + j + 1) := by
    rw [rest, rest]
    omega
  have hdig : partialKey x (ofs + j) = x % 2 ^ rest ofs / 2 ^ rest (ofs + j + 1) % 2 ^ 8 := by
    rw [partialKey_eq (by omega), hr, Radix.mod_div_pow, Nat.mul_succ, Radix.mod_mod_pow]
  rw [hs, hs', hdig, slice, slice, Radix.div_div_pow, Nat.div_add_mod']

/-- The byte after a partial match tells the order of the key and the prefix. -/
theorem prefix_order (h : hd.pfxOfs + hd.pfxLen ≤ 8) (hlt : prefixMatch hd key < hd.pfxLen) :
    if partialKey hd.pfx (hd.pfxOfs + prefixMatch hd key) <
        partialKey key (hd.pfxOfs + prefixMatch hd key) then
      slice (rest hd.pfxOfs) (rest hd.pfxOfs - 8 * hd.pfxLen) hd.pfx <
        slice (rest hd.pfxOfs) (rest hd.pfxOfs - 8 * hd.pfxLen) key
    else
      slice (rest hd.pfxOfs) (rest hd.pfxOfs - 8 * hd.pfxLen) key <
        slice (rest hd.pfxOfs) (rest hd.pfxOfs - 8 * hd.pfxLen) hd.pfx := by
  obtain ⟨heq, hne⟩ := prefixMatch_differs h hlt
  have hle : rest hd.pfxOfs - 8 * hd.pfxLen ≤ rest hd.pfxOfs - 8 * (prefixMatch hd key + 1) := by
    omega
  have hmono : ∀ {x y : Nat},
      slice (rest hd.pfxOfs) (rest hd.pfxOfs - 8 * (prefixMatch hd key + 1)) x <
        slice (rest hd.pfxOfs) (rest hd.pfxOfs - 8 * (prefixMatch hd key + 1)) y →
      slice (rest hd.pfxOfs) (rest hd.pfxOfs - 8 * hd.pfxLen) x <
        slice (rest hd.pfxOfs) (rest hd.pfxOfs - 8 * hd.pfxLen) y := by
    intro x y hxy
    rw [← slice_slice hle, ← slice_slice hle] at hxy
    by_contra hge
    exact absurd (Nat.div_le_div_right (not_lt.mp hge)) (not_le.mpr hxy)
  have hdig := slice_digit (x := key) (show hd.pfxOfs + prefixMatch hd key < 8 by omega)
  have hdig' := slice_digit (x := hd.pfx) (show hd.pfxOfs + prefixMatch hd key < 8 by omega)
  rw [hdig, hdig', heq] at hne
  split
  · exact hmono (by omega)
  · exact hmono (by omega)

end Contrees.Trees.Art
