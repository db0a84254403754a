import Contrees.Library.Radix
import Contrees.Trees.Aert

namespace Contrees.Trees.Aert

open Library Library.Words Word

variable {hd : Head} {ofs len key pos x j lo : Nat}

def rest (ofs : Nat) : Nat := 64 - ofs

theorem rest_zero : rest 0 = 64 := rfl

theorem rest_add (h : ofs + len + j ≤ 64) : len + j + rest (ofs + len + j) = rest ofs := by
  rw [rest, rest]
  omega

theorem count_sub {a : Nat} (h : a ≤ 64) (ha : 0 < a) : count (64 - a : Int) = 64 - a := by
  rw [show (64 - a : Int) = ((64 - a : Nat) : Int) by omega, count_of_lt (by omega)]

theorem partialKey_eq (hlen : len = 4 ∨ len = 8) (h : pos + len ≤ 64) :
    partialKey key pos len = key / 2 ^ rest (pos + len) % 2 ^ len := by
  have hcount : count (64 - len - pos : Int) = rest (pos + len) := by
    have hsub := count_sub h (by omega)
    rw [rest, ← hsub]
    congr 1
    omega
  rw [partialKey, shr, hcount, Nat.shiftRight_eq_div_pow]
  rcases hlen with rfl | rfl
  · exact Nat.and_two_pow_sub_one_eq_mod _ 4
  · exact Nat.and_two_pow_sub_one_eq_mod _ 8

theorem partialKey_lt (hlen : len = 4 ∨ len = 8) (h : pos + len ≤ 64) :
    partialKey key pos len < 2 ^ len := by
  rw [partialKey_eq hlen h]
  exact Nat.mod_lt _ (Nat.two_pow_pos len)

theorem prefixMask_eq (hpos : 0 < len) (h : ofs + len ≤ 64) :
    prefixMask ofs len = (2 ^ len - 1) <<< (rest ofs - len) := by
  have h₁ : count (64 - len - ofs : Int) = rest ofs - len := by
    rw [rest, show (64 - len - ofs : Int) = ((64 - ofs - len : Nat) : Int) by omega,
      count_of_lt (by omega)]
  rw [prefixMask, if_neg hpos.ne', shl, shr, count_sub (by omega) hpos, h₁, ones_shr (by omega)]
  apply Nat.mod_eq_of_lt
  rw [Nat.shiftLeft_eq]
  have hlt : 2 ^ len - 1 < 2 ^ len := Nat.sub_lt (Nat.two_pow_pos _) Nat.one_pos
  calc (2 ^ len - 1) * 2 ^ (rest ofs - len)
      < 2 ^ len * 2 ^ (rest ofs - len) := Nat.mul_lt_mul_of_pos_right hlt (Nat.two_pow_pos _)
    _ = 2 ^ (rest ofs) := by
        rw [← pow_add]
        congr 1
        rw [rest]
        omega
    _ ≤ 2 ^ 64 := Nat.pow_le_pow_right (by omega) (by rw [rest]; omega)

theorem testBit_prefixMask (h : ofs + len ≤ 64) (i : Nat) :
    (prefixMask ofs len).testBit i = decide (64 - (ofs + len) ≤ i ∧ i < 64 - ofs) := by
  have hr : rest ofs = 64 - ofs := rfl
  rcases Nat.eq_zero_or_pos len with rfl | hpos
  · rw [prefixMask, if_pos rfl, Nat.zero_testBit]
    exact (decide_eq_false (by omega)).symm
  · rw [prefixMask_eq hpos h, Nat.testBit_shiftLeft, Nat.testBit_two_pow_sub_one, ← Bool.decide_and]
    exact decide_eq_decide.mpr (by omega)

theorem slice_prefixMask (h : ofs + len ≤ 64) :
    slice (rest ofs) (rest ofs - len) (x &&& prefixMask ofs len) =
      slice (rest ofs) (rest ofs - len) x := by
  rcases Nat.eq_zero_or_pos len with rfl | hpos
  · rw [Nat.sub_zero, slice_self, slice_self]
  · rw [prefixMask_eq hpos h, slice_and_mask (le_refl _) (by rw [rest]; omega)]

section Match

theorem and_f8 (hx : x ≤ 64) : x &&& 0xF8 = x / 8 * 8 := by
  have hall : ∀ y ≤ 64, y &&& 0xF8 = y / 8 * 8 := by decide
  exact hall x hx

theorem and_fc_f8 (x : Nat) : x &&& 0xFC &&& 0xF8 = x &&& 0xF8 := by
  rw [Nat.and_assoc]
  rfl

theorem clzll_le (x : Nat) : clzll x ≤ 64 := by
  rw [clzll, leadingZeros]
  omega

theorem masked_shifted (hpos : 0 < len) (h : ofs + len ≤ 64) :
    shl (x &&& prefixMask ofs len) ofs = slice (rest ofs) (rest ofs - len) x * 2 ^ (64 - len) := by
  have hr : rest ofs = 64 - ofs := rfl
  have hmask : (x &&& prefixMask ofs len) % 2 ^ rest ofs =
      slice (rest ofs) (rest ofs - len) x * 2 ^ (rest ofs - len) := by
    apply Nat.eq_of_testBit_eq
    intro i
    rw [prefixMask_eq hpos h, Nat.testBit_mod_two_pow, Nat.testBit_and, Nat.testBit_shiftLeft,
      Nat.testBit_two_pow_sub_one, ← Nat.shiftLeft_eq, Nat.testBit_shiftLeft, testBit_slice]
    by_cases hi : rest ofs - len ≤ i
    · have hsub : rest ofs - len + (i - (rest ofs - len)) = i := by omega
      by_cases hi' : i < rest ofs
      · simp [hi, hi', hsub, show i - (rest ofs - len) < len by omega]
      · simp [hi, hi', hsub]
    · simp [hi]
  have hshift := shiftLeft_mod (x := x &&& prefixMask ofs len) (show rest ofs ≤ 64 by omega)
  have hsub : 64 - rest ofs = ofs := by omega
  rw [hsub] at hshift
  rw [shl, count_of_lt (by omega), hshift, hmask, Nat.mul_assoc, ← pow_add]
  congr 2
  omega

theorem le_pmlen (h : hd.pfxOfs + hd.pfxLen ≤ 64) (hlen : 8 ∣ hd.pfxLen) (hj : 8 ∣ j)
    (hle : j ≤ hd.pfxLen) : j ≤ pmlen hd key ↔
      slice (rest hd.pfxOfs) (rest hd.pfxOfs - j) key =
        slice (rest hd.pfxOfs) (rest hd.pfxOfs - j) hd.pfx := by
  rcases Nat.eq_zero_or_pos hd.pfxLen with hz | hpos
  · obtain rfl : j = 0 := by omega
    simp
  have hr : rest hd.pfxOfs = 64 - hd.pfxOfs := rfl
  set r := rest hd.pfxOfs
  have hlt : ∀ x, slice r (r - hd.pfxLen) x < 2 ^ hd.pfxLen := fun x => by
    have hlt := slice_lt (x := x) (Nat.sub_le r hd.pfxLen)
    rwa [Nat.sub_sub_self (by omega)] at hlt
  have hinner : ∀ x, slice hd.pfxLen (hd.pfxLen - j) (slice r (r - hd.pfxLen) x) = slice r (r - j) x :=
    fun x => by
      rw [slice, Nat.mod_eq_of_lt (hlt x), ← slice_slice (show r - hd.pfxLen ≤ r - j by omega)]
      congr 2
      omega
  have hxor : slice r (r - hd.pfxLen) (key ^^^ hd.pfx) =
      (slice r (r - hd.pfxLen) key ^^^ slice r (r - hd.pfxLen) hd.pfx) % 2 ^ hd.pfxLen := by
    rw [slice_xor, Nat.mod_eq_of_lt (Nat.xor_lt_two_pow (hlt _) (hlt _))]
  have hd' : shl ((key ^^^ hd.pfx) &&& prefixMask hd.pfxOfs hd.pfxLen) hd.pfxOfs = _ :=
    masked_shifted hpos h
  rw [hxor] at hd'
  by_cases hz : (slice r (r - hd.pfxLen) key ^^^ slice r (r - hd.pfxLen) hd.pfx) % 2 ^ hd.pfxLen *
      2 ^ (64 - hd.pfxLen) = 0
  · have hpm : prefixMatch hd key = hd.pfxLen := by
      rw [prefixMatch, hd']
      exact if_pos hz
    have heq := xor_shifted_eq_zero.mp hz
    rw [pmlen, hpm, and_f8 (by omega), Nat.div_mul_cancel hlen, ← hinner, ← hinner]
    exact iff_of_true hle (congrArg (· / 2 ^ (hd.pfxLen - j)) heq)
  · have hpm : prefixMatch hd key = clzll ((slice r (r - hd.pfxLen) key ^^^
        slice r (r - hd.pfxLen) hd.pfx) % 2 ^ hd.pfxLen * 2 ^ (64 - hd.pfxLen)) &&& 0xFC := by
      rw [prefixMatch, hd']
      exact if_neg hz
    have hlead := le_leadingZeros_xor (n := 63) (show hd.pfxLen ≤ 63 + 1 by omega) hle hz
    obtain ⟨i, rfl⟩ := hj
    rw [← hinner, ← hinner, ← hlead, pmlen, hpm, and_fc_f8, and_f8 (clzll_le _), clzll,
      Nat.mul_comm 8 i, Nat.mul_le_mul_right_iff (by omega), Nat.le_div_iff_mul_le (by omega)]

theorem pmlen_dvd (h : hd.pfxLen ≤ 64) (hlen : 8 ∣ hd.pfxLen) (key : Nat) : 8 ∣ pmlen hd key := by
  rw [pmlen, prefixMatch]
  split
  · rwa [and_f8 h, Nat.div_mul_cancel hlen]
  · rw [and_fc_f8, and_f8 (clzll_le _)]
    exact Nat.dvd_mul_left 8 _

theorem pmlen_le (h : hd.pfxOfs + hd.pfxLen ≤ 64) (hlen : 8 ∣ hd.pfxLen) (key : Nat) :
    pmlen hd key ≤ hd.pfxLen := by
  rcases Nat.eq_zero_or_pos hd.pfxLen with hz | hpos
  · simp [pmlen, prefixMatch, prefixMask, shl, hz]
  · by_contra hlt
    have heq : slice _ _ key = _ := (le_pmlen h hlen hlen (le_refl _)).mp (not_le.mp hlt).le
    rw [← slice_xor_eq_zero] at heq
    have hpm : prefixMatch hd key = hd.pfxLen := by
      rw [prefixMatch, masked_shifted hpos h, heq, Nat.zero_mul]
      rfl
    rw [pmlen, hpm, and_f8 (by omega), Nat.div_mul_cancel hlen] at hlt
    exact hlt (le_refl _)

theorem pmlen_lt (h : hd.pfxOfs + hd.pfxLen ≤ 64) (hlen : 8 ∣ hd.pfxLen) :
    pmlen hd key < hd.pfxLen ↔
      slice (rest hd.pfxOfs) (rest hd.pfxOfs - hd.pfxLen) key ≠
        slice (rest hd.pfxOfs) (rest hd.pfxOfs - hd.pfxLen) hd.pfx := by
  rw [ne_eq, ← le_pmlen h hlen hlen (le_refl _), not_le]

theorem pmlen_differs (h : hd.pfxOfs + hd.pfxLen ≤ 64) (hlen : 8 ∣ hd.pfxLen)
    (hlt : pmlen hd key < hd.pfxLen) :
    slice (rest hd.pfxOfs) (rest hd.pfxOfs - pmlen hd key) key =
        slice (rest hd.pfxOfs) (rest hd.pfxOfs - pmlen hd key) hd.pfx ∧
      slice (rest hd.pfxOfs) (rest hd.pfxOfs - (pmlen hd key + 8)) key ≠
        slice (rest hd.pfxOfs) (rest hd.pfxOfs - (pmlen hd key + 8)) hd.pfx := by
  have hdvd := pmlen_dvd (by omega) hlen key
  refine ⟨(le_pmlen h hlen hdvd hlt.le).mp (le_refl _), fun heq => ?_⟩
  have := (le_pmlen h hlen (Nat.dvd_add hdvd (Nat.dvd_refl 8)) (by omega)).mpr heq
  omega

theorem slice_digit (hlen : len = 4 ∨ len = 8) (h : ofs + j + len ≤ 64) :
    slice (rest ofs) (rest ofs - (j + len)) x =
      slice (rest ofs) (rest ofs - j) x * 2 ^ len + partialKey x (ofs + j) len := by
  have hs : rest ofs - (j + len) = rest (ofs + j + len) := by
    rw [rest, rest]
    omega
  have hs' : rest ofs - j = len + rest (ofs + j + len) := by
    rw [rest, rest]
    omega
  have hr : rest ofs = j + (len + rest (ofs + j + len)) := by
    rw [rest, rest]
    omega
  have hdig : partialKey x (ofs + j) len = x % 2 ^ rest ofs / 2 ^ rest (ofs + j + len) % 2 ^ len := by
    rw [partialKey_eq hlen h, hr, ← Nat.add_assoc, Radix.mod_div_pow, Radix.mod_mod_pow]
  rw [hs, hs', hdig, slice, slice, Radix.div_div_pow, Nat.div_add_mod']

/-- The byte after a partial match tells the order of the key and the prefix. -/
theorem prefix_order (h : hd.pfxOfs + hd.pfxLen ≤ 64) (hlen : 8 ∣ hd.pfxLen)
    (hlt : pmlen hd key < hd.pfxLen) :
    if partialKey hd.pfx (hd.pfxOfs + pmlen hd key) 8 < partialKey key (hd.pfxOfs + pmlen hd key) 8 then
      slice (rest hd.pfxOfs) (rest hd.pfxOfs - hd.pfxLen) hd.pfx <
        slice (rest hd.pfxOfs) (rest hd.pfxOfs - hd.pfxLen) key
    else
      slice (rest hd.pfxOfs) (rest hd.pfxOfs - hd.pfxLen) key <
        slice (rest hd.pfxOfs) (rest hd.pfxOfs - hd.pfxLen) hd.pfx := by
  obtain ⟨heq, hne⟩ := pmlen_differs h hlen hlt
  have hdvd := pmlen_dvd (by omega) hlen key
  have hle : rest hd.pfxOfs - hd.pfxLen ≤ rest hd.pfxOfs - (pmlen hd key + 8) := by omega
  have hmono : ∀ {x y : Nat},
      slice (rest hd.pfxOfs) (rest hd.pfxOfs - (pmlen hd key + 8)) x <
        slice (rest hd.pfxOfs) (rest hd.pfxOfs - (pmlen hd key + 8)) y →
      slice (rest hd.pfxOfs) (rest hd.pfxOfs - hd.pfxLen) x <
        slice (rest hd.pfxOfs) (rest hd.pfxOfs - hd.pfxLen) y := by
    intro x y hxy
    rw [← slice_slice hle, ← slice_slice hle] at hxy
    by_contra hge
    exact absurd (Nat.div_le_div_right (not_lt.mp hge)) (not_le.mpr hxy)
  have hdig := fun x => slice_digit (x := x) (.inr rfl)
    (show hd.pfxOfs + pmlen hd key + 8 ≤ 64 by omega)
  rw [hdig, hdig, heq] at hne
  split
  · exact hmono (by rw [hdig, hdig]; omega)
  · exact hmono (by rw [hdig, hdig]; omega)

end Match

theorem ptrPfxMatch_le (lo ofs key : Nat) : ptrPfxMatch lo ofs key ≤ 4 := by
  have hbit : shl 1 (64 - 5) = 2 ^ 59 := by decide
  rw [ptrPfxMatch, hbit, clzll, leadingZeros]
  set x := shl (key ^^^ shl lo (64 - ofs : Int)) (ofs - 4 : Int) ||| 2 ^ 59 with hx
  have hle : 2 ^ 59 ≤ x := Nat.right_le_or
  have hlog : 59 ≤ x.log2 := (Nat.le_log2 (by omega)).mpr hle
  omega

theorem ptrPfxMatch_lt (hlo : lo < 2 ^ 4) (h : 4 ≤ ofs) (h' : ofs ≤ 64) :
    ptrPfxMatch lo ofs key < 4 ↔ partialKey key (ofs - 4) 4 ≠ lo := by
  have hmask : shl lo (64 - ofs : Int) = lo * 2 ^ (64 - ofs) := by
    have hlt : lo * 2 ^ (64 - ofs) < 2 ^ 64 := by
      calc lo * 2 ^ (64 - ofs) < 2 ^ 4 * 2 ^ (64 - ofs) :=
            Nat.mul_lt_mul_of_pos_right hlo (Nat.two_pow_pos _)
        _ = 2 ^ (4 + (64 - ofs)) := (pow_add _ _ _).symm
        _ ≤ 2 ^ 64 := Nat.pow_le_pow_right (by omega) (by omega)
    rw [shl, count_sub h' (by omega), Nat.shiftLeft_eq, Nat.mod_eq_of_lt hlt]
  have hshift : shl (key ^^^ lo * 2 ^ (64 - ofs)) (ofs - 4 : Int) =
      (key ^^^ lo * 2 ^ (64 - ofs)) % 2 ^ (68 - ofs) * 2 ^ (ofs - 4) := by
    have hcount : count (ofs - 4 : Int) = 64 - (68 - ofs) := by
      rw [show (ofs - 4 : Int) = ((ofs - 4 : Nat) : Int) by omega, count_of_lt (by omega)]
      omega
    rw [shl, hcount, shiftLeft_mod (by omega)]
    congr 2
    omega
  have hbit : shl 1 (64 - 5) = 2 ^ 59 := by decide
  set a := (key ^^^ lo * 2 ^ (64 - ofs)) % 2 ^ (68 - ofs) with ha
  have hpow : (2 : Nat) ^ 64 = 2 ^ (68 - ofs) * 2 ^ (ofs - 4) := by
    rw [← pow_add]
    congr 1
    omega
  have hpow' : (2 : Nat) ^ 60 = 2 ^ (64 - ofs) * 2 ^ (ofs - 4) := by
    rw [← pow_add]
    congr 1
    omega
  have hlt : a * 2 ^ (ofs - 4) ||| 2 ^ 59 < 2 ^ (63 + 1) := by
    apply Nat.or_lt_two_pow
    · rw [hpow]
      exact Nat.mul_lt_mul_of_pos_right (Nat.mod_lt _ (Nat.two_pow_pos _)) (Nat.two_pow_pos _)
    · exact Nat.pow_lt_pow_right (by omega) (by omega)
  have hor : a * 2 ^ (ofs - 4) ||| 2 ^ 59 < 2 ^ 60 ↔ a * 2 ^ (ofs - 4) < 2 ^ 60 :=
    ⟨fun hlt => lt_of_le_of_lt Nat.left_le_or hlt, fun hlt =>
      Nat.or_lt_two_pow hlt (Nat.pow_lt_pow_right (by omega) (by omega))⟩
  have hne : a * 2 ^ (ofs - 4) ||| 2 ^ 59 ≠ 0 := fun hz => by
    have hle : 2 ^ 59 ≤ a * 2 ^ (ofs - 4) ||| 2 ^ 59 := Nat.right_le_or
    omega
  have hslice : a < 2 ^ (64 - ofs) ↔ slice (68 - ofs) (64 - ofs) key = lo := by
    have hlow : slice (68 - ofs) (64 - ofs) (lo * 2 ^ (64 - ofs)) = lo := by
      rw [slice, show 68 - ofs = 4 + (64 - ofs) by omega, Radix.mod_div_pow,
        Nat.mul_div_cancel _ (Nat.two_pow_pos _), Nat.mod_eq_of_lt hlo]
    have hxor : slice (68 - ofs) (64 - ofs) (key ^^^ lo * 2 ^ (64 - ofs)) = 0 ↔
        slice (68 - ofs) (64 - ofs) key = lo := by
      rw [slice_xor_eq_zero, hlow]
    rw [← hxor, slice, Nat.div_eq_zero_iff_lt (Nat.two_pow_pos _)]
  have hdig : partialKey key (ofs - 4) 4 = slice (68 - ofs) (64 - ofs) key := by
    rw [partialKey_eq (.inl rfl) (by omega), rest, slice,
      show 64 - (ofs - 4 + 4) = 64 - ofs by omega, show 68 - ofs = 4 + (64 - ofs) by omega,
      Radix.mod_div_pow]
  rw [ptrPfxMatch, hmask, hshift, hbit, clzll, ← not_le, le_leadingZeros hne hlt (by omega), hor,
    hpow', Nat.mul_lt_mul_right (Nat.two_pow_pos _), hslice, hdig]

end Contrees.Trees.Aert
