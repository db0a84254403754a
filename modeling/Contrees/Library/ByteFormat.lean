import Mathlib.Data.List.Basic
import Mathlib.Algebra.Order.Ring.Nat

namespace Contrees.Library.ByteFormat

variable {α : Type} {read : List UInt8 → Option (α × List UInt8)} {encode : α → List UInt8}

/-- The `k` low bytes of `n`, the lowest first. -/
def bytes : Nat → Nat → List UInt8
  | 0, _ => []
  | k + 1, n => UInt8.ofNat n :: bytes k (n / 256)

def value (bs : List UInt8) : Nat := bs.foldr (fun b n => b.toNat + 256 * n) 0

def readWord (k : Nat) (bs : List UInt8) : Option (Nat × List UInt8) :=
  if k ≤ bs.length then some (value (bs.take k), bs.drop k) else none

def readMany (read : List UInt8 → Option (α × List UInt8)) :
    Nat → List UInt8 → Option (List α × List UInt8)
  | 0, bs => some ([], bs)
  | n + 1, bs =>
      match read bs with
      | none => none
      | some (a, bs) =>
          match readMany read n bs with
          | none => none
          | some (as, bs) => some (a :: as, bs)

@[simp] theorem length_bytes (k n : Nat) : (bytes k n).length = k := by
  induction k generalizing n with
  | zero => rfl
  | succ k ih => simp [bytes, ih]

theorem value_bytes {k n : Nat} (h : n < 256 ^ k) : value (bytes k n) = n := by
  induction k generalizing n with
  | zero =>
      rw [Nat.pow_zero, Nat.lt_one_iff] at h
      rw [h]
      rfl
  | succ k ih =>
      have hdiv : n / 256 < 256 ^ k := Nat.div_lt_of_lt_mul (by rwa [Nat.pow_succ'] at h)
      change (UInt8.ofNat n).toNat + 256 * value (bytes k (n / 256)) = n
      rw [ih hdiv, UInt8.toNat_ofNat']
      exact Nat.mod_add_div n 256

theorem readWord_bytes {k n : Nat} (h : n < 256 ^ k) (rest : List UInt8) :
    readWord k (bytes k n ++ rest) = some (n, rest) := by
  have hlen : k ≤ (bytes k n ++ rest).length := by simp
  rw [readWord, if_pos hlen, List.take_left' (length_bytes k n), List.drop_left' (length_bytes k n),
    value_bytes h]

theorem readMany_encode {as : List α}
    (h : ∀ a ∈ as, ∀ rest, read (encode a ++ rest) = some (a, rest)) (rest : List UInt8) :
    readMany read as.length (as.flatMap encode ++ rest) = some (as, rest) := by
  induction as with
  | nil => rfl
  | cons a as ih =>
      have ih := ih fun b hb => h b (List.mem_cons_of_mem a hb)
      rw [List.flatMap_cons, List.append_assoc, List.length_cons, readMany,
        h a List.mem_cons_self]
      simp only [ih]

end Contrees.Library.ByteFormat
