import Contrees.Library.OrderedMap
import Mathlib.Data.List.Flatten
import Mathlib.Tactic.Ring

namespace Contrees.Library

open OrderedMap

/-- A radix tree over words: a node has a prefix of `len` bits and branches on
the next `wid` bits, a leaf has all bits that are left. Words and prefixes are
relative to the subtree. -/
inductive Radix (V : Type)
  | null
  | leaf (sfx : Nat) (val : V)
  | node (len pfx wid : Nat) (ch : Nat → Radix V)

namespace Radix

variable {V : Type} {r len pfx wid m : Nat} {ch ch' : Nat → Radix V} {k x d s : Nat} {v : V}

def Fits : Nat → Radix V → Prop
  | _, .null => True
  | r, .leaf sfx _ => sfx < 2 ^ r
  | r, .node len pfx wid ch =>
      len + wid ≤ r ∧ pfx < 2 ^ len ∧ ∀ d < 2 ^ wid, (ch d).Fits (r - len - wid)

def find : Nat → Radix V → Nat → Option V
  | _, .null, _ => none
  | _, .leaf sfx val, k => if k = sfx then some val else none
  | r, .node len pfx wid ch, k =>
      if k / 2 ^ (r - len) = pfx then
        (ch (k / 2 ^ (r - len - wid) % 2 ^ wid)).find (r - len - wid) (k % 2 ^ (r - len - wid))
      else none

def offset (b : Nat) (e : Nat × V) : Nat × V := (b + e.1, e.2)

def pairs : Nat → Radix V → List (Nat × V)
  | _, .null => []
  | _, .leaf sfx val => [(sfx, val)]
  | r, .node len pfx wid ch => (List.range (2 ^ wid)).flatMap (fun d =>
      ((ch d).pairs (r - len - wid)).map (offset ((pfx * 2 ^ wid + d) * 2 ^ (r - len - wid))))

def values : Radix V → List V
  | .null => []
  | .leaf _ val => [val]
  | .node _ _ wid ch => (List.range (2 ^ wid)).flatMap (fun d => (ch d).values)

theorem pairs_values (r : Nat) (R : Radix V) : (R.pairs r).map Prod.snd = R.values := by
  induction R generalizing r with
  | null => rfl
  | leaf sfx val => rfl
  | node len pfx wid ch ih =>
      simp only [pairs, values, List.map_flatMap, List.map_map]
      congr 1
      funext d
      rw [← ih d (r - len - wid)]
      rfl

section Digits

theorem digits_eq (wid m k : Nat) :
    (k / 2 ^ (wid + m) * 2 ^ wid + k / 2 ^ m % 2 ^ wid) * 2 ^ m + k % 2 ^ m = k := by
  have hdiv : k / 2 ^ (wid + m) = k / 2 ^ m / 2 ^ wid := by
    rw [Nat.div_div_eq_div_mul, ← pow_add, Nat.add_comm]
  rw [hdiv, Nat.div_add_mod', Nat.div_add_mod']

theorem digits_lt (hp : pfx < 2 ^ len) (hd : d < 2 ^ wid) (hx : x < 2 ^ m) :
    (pfx * 2 ^ wid + d) * 2 ^ m + x < 2 ^ (len + wid + m) := by
  have h₁ : pfx * 2 ^ wid + d < 2 ^ (len + wid) := by
    rw [pow_add]
    calc pfx * 2 ^ wid + d < pfx * 2 ^ wid + 2 ^ wid := by omega
      _ = (pfx + 1) * 2 ^ wid := by ring
      _ ≤ 2 ^ len * 2 ^ wid := Nat.mul_le_mul_right _ hp
  rw [pow_add]
  calc (pfx * 2 ^ wid + d) * 2 ^ m + x < (pfx * 2 ^ wid + d) * 2 ^ m + 2 ^ m := by omega
    _ = (pfx * 2 ^ wid + d + 1) * 2 ^ m := by ring
    _ ≤ 2 ^ (len + wid) * 2 ^ m := Nat.mul_le_mul_right _ h₁

theorem digits_low (hx : x < 2 ^ m) : ((pfx * 2 ^ wid + d) * 2 ^ m + x) % 2 ^ m = x := by
  rw [Nat.mul_add_mod', Nat.mod_eq_of_lt hx]

theorem digits_shift (hx : x < 2 ^ m) :
    ((pfx * 2 ^ wid + d) * 2 ^ m + x) / 2 ^ m = pfx * 2 ^ wid + d := by
  rw [Nat.add_comm, Nat.add_mul_div_right _ _ (Nat.two_pow_pos m), Nat.div_eq_of_lt hx, Nat.zero_add]

theorem digits_mid (hd : d < 2 ^ wid) (hx : x < 2 ^ m) :
    ((pfx * 2 ^ wid + d) * 2 ^ m + x) / 2 ^ m % 2 ^ wid = d := by
  rw [digits_shift hx, Nat.mul_add_mod', Nat.mod_eq_of_lt hd]

theorem digits_high (hd : d < 2 ^ wid) (hx : x < 2 ^ m) :
    ((pfx * 2 ^ wid + d) * 2 ^ m + x) / 2 ^ (wid + m) = pfx := by
  rw [Nat.add_comm wid m, pow_add, ← Nat.div_div_eq_div_mul, digits_shift hx, Nat.add_comm,
    Nat.add_mul_div_right _ _ (Nat.two_pow_pos wid), Nat.div_eq_of_lt hd, Nat.zero_add]

theorem eq_digits_iff (hd : d < 2 ^ wid) (hx : x < 2 ^ m) :
    k = (pfx * 2 ^ wid + d) * 2 ^ m + x ↔
      k / 2 ^ (wid + m) = pfx ∧ k / 2 ^ m % 2 ^ wid = d ∧ k % 2 ^ m = x := by
  constructor
  · rintro rfl
    exact ⟨digits_high hd hx, digits_mid hd hx, digits_low hx⟩
  · rintro ⟨rfl, rfl, rfl⟩
    exact (digits_eq wid m k).symm

theorem eq_iff_digits (wid m k s : Nat) : k = s ↔ k / 2 ^ (wid + m) = s / 2 ^ (wid + m) ∧
    k / 2 ^ m % 2 ^ wid = s / 2 ^ m % 2 ^ wid ∧ k % 2 ^ m = s % 2 ^ m := by
  constructor
  · rintro rfl
    exact ⟨rfl, rfl, rfl⟩
  · rintro ⟨hp, hd, hx⟩
    rw [← digits_eq wid m k, hp, hd, hx, digits_eq]

theorem mod_div_pow (k a b : Nat) : k % 2 ^ (a + b) / 2 ^ b = k / 2 ^ b % 2 ^ a := by
  rw [Nat.add_comm, pow_add, Nat.mod_mul_right_div_self]

theorem div_div_pow (k a b : Nat) : k / 2 ^ (a + b) = k / 2 ^ b / 2 ^ a := by
  rw [Nat.div_div_eq_div_mul, ← pow_add, Nat.add_comm]

theorem mod_mod_pow (k a b : Nat) : k % 2 ^ (a + b) % 2 ^ b = k % 2 ^ b :=
  Nat.mod_mod_of_dvd _ (pow_dvd_pow 2 (Nat.le_add_left b a))

end Digits

section Node

theorem fits_node : (node len pfx wid ch).Fits (len + wid + m) ↔
    pfx < 2 ^ len ∧ ∀ d < 2 ^ wid, (ch d).Fits m := by
  have h₁ : len + wid + m - len - wid = m := by omega
  have h₂ : len + wid ≤ len + wid + m := by omega
  simp [Fits, h₁, h₂]

theorem find_node (k : Nat) : (node len pfx wid ch).find (len + wid + m) k =
    if k / 2 ^ (wid + m) = pfx then (ch (k / 2 ^ m % 2 ^ wid)).find m (k % 2 ^ m) else none := by
  have h₁ : len + wid + m - len = wid + m := by omega
  have h₂ : wid + m - wid = m := by omega
  simp only [find, h₁, h₂]

theorem find_digit (hd : d < 2 ^ wid) (hx : x < 2 ^ m) :
    (node len pfx wid ch).find (len + wid + m) ((pfx * 2 ^ wid + d) * 2 ^ m + x) = (ch d).find m x := by
  rw [find_node, digits_high hd hx, digits_mid hd hx, digits_low hx, if_pos rfl]

theorem find_rel {R : V → V → Prop}
    (h : ∀ d < 2 ^ wid, ∀ x, Option.Rel R ((ch d).find m x) ((ch' d).find m x)) (k : Nat) :
    Option.Rel R ((node len pfx wid ch).find (len + wid + m) k)
      ((node len pfx wid ch').find (len + wid + m) k) := by
  rw [find_node, find_node]
  split
  · exact h _ (Nat.mod_lt _ (Nat.two_pow_pos _)) _
  · exact .none

theorem pairs_node : (node len pfx wid ch).pairs (len + wid + m) =
    (List.range (2 ^ wid)).flatMap (fun d =>
      ((ch d).pairs m).map (offset ((pfx * 2 ^ wid + d) * 2 ^ m))) := by
  have h₁ : len + wid + m - len - wid = m := by omega
  simp only [pairs, h₁]

theorem Fits.rest (h : (node len pfx wid ch).Fits r) : ∃ m, r = len + wid + m :=
  Nat.exists_eq_add_of_le h.1

end Node

section Order

/-- A tree stores each of its words once, in ascending order. -/
theorem lists_pairs {R : Radix V} (h : R.Fits r) :
    Lists (R.find r) (R.pairs r) ∧ ∀ e ∈ R.pairs r, e.1 < 2 ^ r := by
  induction R generalizing r with
  | null => exact ⟨Lists.nil, by simp [pairs]⟩
  | leaf sfx val =>
      refine ⟨⟨by simp [pairs], fun k v => ?_⟩, by simpa [pairs, Fits] using h⟩
      simp [pairs, find, eq_comm]
  | node len pfx wid ch ih =>
      obtain ⟨m, rfl⟩ := h.rest
      obtain ⟨hpfx, hch⟩ := fits_node.mp h
      have hmem : ∀ k v, (k, v) ∈ (node len pfx wid ch).pairs (len + wid + m) ↔
          ∃ d < 2 ^ wid, ∃ x, (x, v) ∈ (ch d).pairs m ∧ (pfx * 2 ^ wid + d) * 2 ^ m + x = k := by
        intro k v
        rw [pairs_node]
        simp only [List.mem_flatMap, List.mem_range, List.mem_map, offset, Prod.mk.injEq]
        constructor
        · rintro ⟨d, hd, e, he, rfl, rfl⟩
          exact ⟨d, hd, e.1, he, rfl⟩
        · rintro ⟨d, hd, x, hx, rfl⟩
          exact ⟨d, hd, (x, v), hx, rfl, rfl⟩
      refine ⟨⟨?_, fun k v => ?_⟩, ?_⟩
      · rw [pairs_node, List.map_flatMap, List.flatMap, List.pairwise_flatten]
        constructor
        · intro l hl
          obtain ⟨d, hd, rfl⟩ := List.mem_map.mp hl
          have hasc := (ih d (hch d (List.mem_range.mp hd))).1.ascending
          rw [List.map_map]
          exact List.pairwise_map.mpr ((List.pairwise_map.mp hasc).imp fun hlt =>
            Nat.add_lt_add_left hlt _)
        · rw [List.pairwise_map]
          refine List.pairwise_lt_range.imp_of_mem fun {d d'} hd hd' hlt => ?_
          simp only [List.map_map, List.mem_map, Function.comp_apply, offset]
          rintro a ⟨e, he, rfl⟩ b ⟨e', he', rfl⟩
          have hx := (ih d (hch d (List.mem_range.mp hd))).2 e he
          calc (pfx * 2 ^ wid + d) * 2 ^ m + e.1 < (pfx * 2 ^ wid + d) * 2 ^ m + 2 ^ m := by omega
            _ = (pfx * 2 ^ wid + d + 1) * 2 ^ m := by ring
            _ ≤ (pfx * 2 ^ wid + d') * 2 ^ m := Nat.mul_le_mul_right _ (by omega)
            _ ≤ _ := Nat.le_add_right _ _
      · rw [hmem, find_node]
        constructor
        · rintro ⟨d, hd, x, hx, rfl⟩
          obtain ⟨hl, hlt⟩ := ih d (hch d hd)
          rw [digits_high hd (hlt _ hx), if_pos rfl, digits_mid hd (hlt _ hx), digits_low (hlt _ hx)]
          exact (hl.mem_iff _ _).mp hx
        · intro hv
          split at hv
          · rename_i hk
            have hd : k / 2 ^ m % 2 ^ wid < 2 ^ wid := Nat.mod_lt _ (Nat.two_pow_pos _)
            refine ⟨_, hd, _, ((ih _ (hch _ hd)).1.mem_iff _ _).mpr hv, ?_⟩
            rw [← hk, digits_eq]
          · simp at hv
      · rintro ⟨k, v⟩ he
        obtain ⟨d, hd, x, hx, rfl⟩ := (hmem k v).mp he
        exact digits_lt hpfx hd ((ih d (hch d hd)).2 _ hx)

theorem pairs_lt {R : Radix V} (h : R.Fits r) {e : Nat × V} (he : e ∈ R.pairs r) : e.1 < 2 ^ r :=
  (lists_pairs h).2 e he

theorem find_lt {R : Radix V} (h : R.Fits r) (hv : R.find r k = some v) : k < 2 ^ r :=
  pairs_lt h (((lists_pairs h).1.mem_iff k v).mpr hv)

end Order

def single (d : Nat) (c : Radix V) : Nat → Radix V := Function.update (fun _ => null) d c

theorem flatMap_single (c : Radix V) {l : List Nat} (hl : l.Nodup) :
    l.flatMap (fun e => (single d c e).values) = if d ∈ l then c.values else [] := by
  induction l with
  | nil => rfl
  | cons e l ih =>
      obtain ⟨he, hl⟩ := List.nodup_cons.mp hl
      rw [List.flatMap_cons, ih hl, single, Function.update_apply]
      by_cases hde : d = e
      · subst hde
        simp [he]
      · simp [hde, Ne.symm hde, values]

section Range

theorem filter_all {l : List (Nat × V)} (h : ∀ e ∈ l, k ≤ e.1) : l.filter (k ≤ ·.1) = l :=
  List.filter_eq_self.mpr (by simpa using h)

theorem filter_none {l : List (Nat × V)} (h : ∀ e ∈ l, e.1 < k) : l.filter (k ≤ ·.1) = [] :=
  List.filter_eq_nil_iff.mpr (by simpa using h)

def valuesFrom (r : Nat) (R : Radix V) (k : Nat) : List V :=
  ((R.pairs r).filter (k ≤ ·.1)).map Prod.snd

theorem pair_high {e : Nat × V} (h : (node len pfx wid ch).Fits (len + wid + m))
    (he : e ∈ (node len pfx wid ch).pairs (len + wid + m)) : e.1 / 2 ^ (wid + m) = pfx := by
  have hv := ((lists_pairs h).1.mem_iff e.1 e.2).mp he
  rw [find_node] at hv
  by_contra hne
  simp [hne] at hv

theorem valuesFrom_lower (h : (node len pfx wid ch).Fits (len + wid + m))
    (hk : pfx < k / 2 ^ (wid + m)) : (node len pfx wid ch).valuesFrom (len + wid + m) k = [] := by
  rw [valuesFrom, filter_none, List.map_nil]
  intro e he
  by_contra hle
  have := Nat.div_le_div_right (c := 2 ^ (wid + m)) (not_lt.mp hle)
  rw [pair_high h he] at this
  omega

theorem valuesFrom_higher (h : (node len pfx wid ch).Fits (len + wid + m))
    (hk : k / 2 ^ (wid + m) < pfx) :
    (node len pfx wid ch).valuesFrom (len + wid + m) k = (node len pfx wid ch).values := by
  rw [valuesFrom, filter_all, pairs_values]
  intro e he
  by_contra hle
  have := Nat.div_le_div_right (c := 2 ^ (wid + m)) (not_le.mp hle).le
  rw [pair_high h he] at this
  omega

theorem range_around {n : Nat} (h : d < n) :
    List.range n = List.range d ++ d :: List.range' (d + 1) (n - (d + 1)) := by
  have hsum : d + (n - (d + 1) + 1) = n := by omega
  have happ := List.range'_append_1 (s := 0) (m := d) (n := n - (d + 1) + 1)
  rw [Nat.zero_add, hsum, List.range'_succ] at happ
  rw [List.range_eq_range', List.range_eq_range', happ]

theorem values_around (hlt : d < 2 ^ wid) : (node len pfx wid ch).values =
    (List.range d).flatMap (fun e => (ch e).values) ++ ((ch d).values ++
      (List.range' (d + 1) (2 ^ wid - (d + 1))).flatMap (fun e => (ch e).values)) := by
  rw [values, range_around hlt, List.flatMap_append, List.flatMap_cons]

theorem valuesFrom_path (h : (node len pfx wid ch).Fits (len + wid + m))
    (hk : k / 2 ^ (wid + m) = pfx) (hd : k / 2 ^ m % 2 ^ wid = d) :
    (node len pfx wid ch).valuesFrom (len + wid + m) k =
      (ch d).valuesFrom m (k % 2 ^ m) ++
        (List.range' (d + 1) (2 ^ wid - (d + 1))).flatMap (fun e => (ch e).values) := by
  obtain ⟨-, hch⟩ := fits_node.mp h
  have hlt : d < 2 ^ wid := hd ▸ Nat.mod_lt _ (Nat.two_pow_pos _)
  have hrange := range_around hlt
  have hkey := digits_eq wid m k
  rw [hk, hd] at hkey
  have hx := Nat.mod_lt k (Nat.two_pow_pos m)
  have hstep : ∀ e < 2 ^ wid, ∀ x ∈ (ch e).pairs m, x.1 < 2 ^ m := fun e he x hx =>
    pairs_lt (hch e he) hx
  have hlow : ∀ e < d, (((ch e).pairs m).map (offset ((pfx * 2 ^ wid + e) * 2 ^ m))).filter
      (k ≤ ·.1) = [] := by
    intro e he
    refine filter_none fun x hx => ?_
    obtain ⟨y, hy, rfl⟩ := List.mem_map.mp hx
    have := hstep e (by omega) y hy
    calc (pfx * 2 ^ wid + e) * 2 ^ m + y.1 < (pfx * 2 ^ wid + e) * 2 ^ m + 2 ^ m := by omega
      _ = (pfx * 2 ^ wid + e + 1) * 2 ^ m := by ring
      _ ≤ (pfx * 2 ^ wid + d) * 2 ^ m := Nat.mul_le_mul_right _ (by omega)
      _ ≤ k := by omega
  have hhigh : ∀ e, d < e → (((ch e).pairs m).map (offset ((pfx * 2 ^ wid + e) * 2 ^ m))).filter
      (k ≤ ·.1) = ((ch e).pairs m).map (offset ((pfx * 2 ^ wid + e) * 2 ^ m)) := by
    intro e he
    refine filter_all fun x hx => ?_
    obtain ⟨x, hx, rfl⟩ := List.mem_map.mp hx
    calc k ≤ (pfx * 2 ^ wid + d) * 2 ^ m + 2 ^ m := by omega
      _ = (pfx * 2 ^ wid + d + 1) * 2 ^ m := by ring
      _ ≤ (pfx * 2 ^ wid + e) * 2 ^ m := Nat.mul_le_mul_right _ (by omega)
      _ ≤ _ := Nat.le_add_right _ _
  rw [valuesFrom, pairs_node, List.filter_flatMap, hrange, List.flatMap_append, List.flatMap_cons,
    List.flatMap_eq_nil_iff.mpr (by simpa using hlow), List.nil_append, List.map_append]
  congr 1
  · rw [valuesFrom, List.filter_map, List.map_map]
    congr 1
    refine List.filter_congr fun x _ => ?_
    have hle : k ≤ (offset ((pfx * 2 ^ wid + d) * 2 ^ m) x).1 ↔ k % 2 ^ m ≤ x.1 := by
      rw [offset]
      omega
    exact decide_eq_decide.mpr hle
  · rw [List.map_flatMap]
    refine List.flatMap_congr fun e he => ?_
    rw [hhigh e (List.mem_range'_1.mp he).1, List.map_map, ← pairs_values m]
    rfl

theorem values_single (c : Radix V) (hlt : d < 2 ^ wid) :
    (node len pfx wid (single d c)).values = c.values := by
  rw [values, flatMap_single c List.nodup_range, if_pos (List.mem_range.mpr hlt)]

@[simp] theorem valuesFrom_null : (null : Radix V).valuesFrom r k = [] := rfl

theorem valuesFrom_single (c : Radix V) (hlt : d < 2 ^ wid)
    (h : (node len pfx wid (single d c)).Fits (len + wid + m)) (hk : k / 2 ^ (wid + m) = pfx) :
    (node len pfx wid (single d c)).valuesFrom (len + wid + m) k =
      if k / 2 ^ m % 2 ^ wid = d then c.valuesFrom m (k % 2 ^ m)
      else if k / 2 ^ m % 2 ^ wid < d then c.values else [] := by
  rw [valuesFrom_path h hk rfl, flatMap_single c List.nodup_range', single, Function.update_apply]
  by_cases hd : k / 2 ^ m % 2 ^ wid = d
  · simp [hd]
  · rw [if_neg hd, if_neg hd, valuesFrom_null, List.nil_append]
    have hiff : d ∈ List.range' (k / 2 ^ m % 2 ^ wid + 1) (2 ^ wid - (k / 2 ^ m % 2 ^ wid + 1)) ↔
        k / 2 ^ m % 2 ^ wid < d := by
      rw [List.mem_range'_1]
      omega
    simp only [hiff]

theorem valuesFrom_leaf : (leaf s v).valuesFrom r k = if k ≤ s then [v] else [] := by
  by_cases hk : k ≤ s <;> simp [valuesFrom, pairs, hk]

theorem mem_valuesFrom {R : Radix V} (h : R.Fits r) :
    v ∈ R.valuesFrom r k ↔ ∃ k', k ≤ k' ∧ R.find r k' = some v := by
  simp only [valuesFrom, List.mem_map, List.mem_filter, decide_eq_true_eq]
  constructor
  · rintro ⟨⟨k', v'⟩, ⟨hmem, hle⟩, rfl⟩
    exact ⟨k', hle, ((lists_pairs h).1.mem_iff k' v').mp hmem⟩
  · rintro ⟨k', hle, hv⟩
    exact ⟨(k', v), ⟨((lists_pairs h).1.mem_iff k' v).mpr hv, hle⟩, rfl⟩

end Range

section Update

theorem find_leaf : (leaf s v).find r = Function.update (fun _ => none) s (some v) := by
  funext k
  simp [find, Function.update_apply]

theorem find_set {c : Radix V} (hd : d < 2 ^ wid) (hx : x < 2 ^ m)
    (hc : c.find m = Function.update ((ch d).find m) x (some v)) :
    (node len pfx wid (Function.update ch d c)).find (len + wid + m) =
      Function.update ((node len pfx wid ch).find (len + wid + m))
        ((pfx * 2 ^ wid + d) * 2 ^ m + x) (some v) := by
  funext k
  have hiff : k = (pfx * 2 ^ wid + d) * 2 ^ m + x ↔ _ := eq_digits_iff hd hx
  rw [Function.update_apply, find_node, find_node]
  by_cases hp : k / 2 ^ (wid + m) = pfx
  · by_cases hk : k / 2 ^ m % 2 ^ wid = d
    · rw [if_pos hp, hk, Function.update_self, hc, Function.update_apply]
      simp [hp, hk, hiff]
    · rw [if_pos hp, Function.update_of_ne hk]
      simp [hp, hk, hiff]
  · simp [hp, hiff]

theorem find_split (a wid b w m p : Nat) (ch : Nat → Radix V) :
    (node a (p / 2 ^ (wid + b)) wid (single (p / 2 ^ b % 2 ^ wid)
      (node b (p % 2 ^ b) w ch))).find (a + wid + (b + w + m)) =
      (node (a + wid + b) p w ch).find (a + wid + b + w + m) := by
  funext k
  have hiff := eq_iff_digits wid b (k / 2 ^ (w + m)) p
  have hb : b + w + m = b + (w + m) := Nat.add_assoc _ _ _
  have hrest : k % 2 ^ (b + w + m) / 2 ^ m % 2 ^ w = k / 2 ^ m % 2 ^ w := by
    rw [mod_div_pow, mod_mod_pow]
  rw [find_node, find_node, div_div_pow k wid, hb, div_div_pow k b, ← div_div_pow _ wid b]
  by_cases hp : k / 2 ^ (w + m) / 2 ^ (wid + b) = p / 2 ^ (wid + b)
  · by_cases hd : k / 2 ^ (w + m) / 2 ^ b % 2 ^ wid = p / 2 ^ b % 2 ^ wid
    · rw [if_pos hp, hd, single, Function.update_self, ← hb, find_node, hrest, mod_mod_pow, hb,
        mod_div_pow]
      simp [hp, hd, hiff]
    · simp [single, find, hp, hd, hiff]
  · simp [hp, hiff]

theorem find_split_leaf (a wid m s : Nat) :
    (node a (s / 2 ^ (wid + m)) wid (single (s / 2 ^ m % 2 ^ wid) (leaf (s % 2 ^ m) v))).find
      (a + wid + m) = (leaf s v).find (a + wid + m) := by
  funext k
  have hiff := eq_iff_digits wid m k s
  rw [find_node]
  by_cases hp : k / 2 ^ (wid + m) = s / 2 ^ (wid + m)
  · by_cases hd : k / 2 ^ m % 2 ^ wid = s / 2 ^ m % 2 ^ wid
    · simp [find, single, hp, hd, hiff]
    · simp [find, single, hp, hd, hiff]
  · simp [find, hp, hiff]

theorem find_congr (h : ∀ d < 2 ^ wid, (ch d).find m = (ch' d).find m) :
    (node len pfx wid ch).find (len + wid + m) = (node len pfx wid ch').find (len + wid + m) := by
  funext k
  rw [find_node, find_node, h _ (Nat.mod_lt _ (Nat.two_pow_pos _))]

/-- A node that branches on `wid` bits does so on the high ones first. -/
theorem find_regroup {hi lo : Nat} : (node len pfx (hi + lo) ch).find (len + (hi + lo) + m) =
    (node len pfx hi (fun a => node 0 0 lo (fun b => ch (a * 2 ^ lo + b)))).find
      (len + hi + (0 + lo + m)) := by
  funext k
  rw [find_node, find_node, find_node]
  have hsmall : k % 2 ^ (0 + lo + m) / 2 ^ (lo + m) = 0 := by
    rw [Nat.zero_add]
    exact Nat.div_eq_of_lt (Nat.mod_lt _ (Nat.two_pow_pos _))
  have hdig : k / 2 ^ (0 + lo + m) % 2 ^ hi * 2 ^ lo + k % 2 ^ (0 + lo + m) / 2 ^ m % 2 ^ lo =
      k / 2 ^ m % 2 ^ (hi + lo) := by
    rw [Nat.zero_add, mod_div_pow, div_div_pow, Nat.mod_mod, ← mod_mod_pow (k / 2 ^ m) hi lo,
      ← mod_div_pow, Nat.div_add_mod']
  rw [if_pos hsmall, hdig, Nat.zero_add, mod_mod_pow, Nat.add_assoc]

end Update

section Branching

variable {f : Nat → Option V} {g len' pfx' y e : Nat}

/-- The words share their first `len` bits and differ in the next `g`. -/
structure Branches (f : Nat → Option V) (r g len pfx : Nat) : Prop where
  shared : ∀ k, f k ≠ none → k / 2 ^ (r - len) = pfx
  differ : ∃ k k', f k ≠ none ∧ f k' ≠ none ∧ k / 2 ^ (r - (len + g)) ≠ k' / 2 ^ (r - (len + g))

theorem Branches.len_le (h : Branches f r g len pfx) (h' : Branches f r g len' pfx') (hg : g ∣ len)
    (hg' : g ∣ len') (hr : len' ≤ r) : len' ≤ len := by
  by_contra hlt
  obtain ⟨a, rfl⟩ := hg
  obtain ⟨b, rfl⟩ := hg'
  have hnext : g * a + g ≤ g * b := by
    rw [← Nat.mul_succ]
    exact Nat.mul_le_mul_left g (Nat.lt_of_mul_lt_mul_left (not_le.mp hlt))
  obtain ⟨k, k', hk, hk', hne⟩ := h.differ
  have hsplit : r - (g * a + g) = (g * b - (g * a + g)) + (r - g * b) := by omega
  apply hne
  rw [hsplit, div_div_pow, div_div_pow, h'.shared k hk, h'.shared k' hk']

/-- The prefix of a node that branches is determined by its words. -/
theorem Branches.unique (h : Branches f r g len pfx) (h' : Branches f r g len' pfx') (hg : g ∣ len)
    (hg' : g ∣ len') (hr : len ≤ r) (hr' : len' ≤ r) : len = len' ∧ pfx = pfx' := by
  obtain rfl : len = len' := le_antisymm (h'.len_le h hg' hg hr) (h.len_le h' hg hg' hr')
  obtain ⟨k, -, hk, -, -⟩ := h.differ
  exact ⟨rfl, (h.shared k hk).symm.trans (h'.shared k hk)⟩

theorem branches_node (h : (node len pfx wid ch).Fits (len + wid + m)) (hg : wid ≤ g)
    (hg' : g ≤ wid + m) (hd : d < 2 ^ wid) (he : e < 2 ^ wid) (hne : d ≠ e)
    (hx : (ch d).find m x ≠ none) (hy : (ch e).find m y ≠ none) :
    Branches ((node len pfx wid ch).find (len + wid + m)) (len + wid + m) g len pfx := by
  obtain ⟨-, hch⟩ := fits_node.mp h
  have hlt : ∀ {d x : Nat}, d < 2 ^ wid → (ch d).find m x ≠ none → x < 2 ^ m := by
    intro d x hd hx
    obtain ⟨v, hv⟩ := Option.ne_none_iff_exists'.mp hx
    exact find_lt (hch d hd) hv
  refine ⟨fun k hk => ?_, (pfx * 2 ^ wid + d) * 2 ^ m + x, (pfx * 2 ^ wid + e) * 2 ^ m + y, ?_, ?_,
    fun heq => hne ?_⟩
  · rw [find_node] at hk
    have hsub : len + wid + m - len = wid + m := by omega
    by_contra hp
    rw [hsub] at hp
    exact hk (if_neg hp)
  · rwa [find_digit hd (hlt hd hx)]
  · rwa [find_digit he (hlt he hy)]
  · have hsub : len + wid + m - (len + g) = m - (g - wid) := by omega
    have hm : m = (g - wid) + (m - (g - wid)) := by omega
    have hdig := congrArg (· / 2 ^ (g - wid)) heq
    rw [hsub] at hdig
    simp only [← div_div_pow] at hdig
    rw [← hm, digits_shift (hlt hd hx), digits_shift (hlt he hy)] at hdig
    omega

theorem find_child (h : (node len pfx wid ch).Fits (len + wid + m))
    (h' : (node len pfx wid ch').Fits (len + wid + m))
    (heq : (node len pfx wid ch).find (len + wid + m) = (node len pfx wid ch').find (len + wid + m))
    (hd : d < 2 ^ wid) : (ch d).find m = (ch' d).find m := by
  funext x
  by_cases hx : x < 2 ^ m
  · rw [← find_digit hd hx, ← find_digit hd hx, heq]
  · have hnone : ∀ {R : Radix V}, R.Fits m → R.find m x = none := by
      intro R hR
      by_contra hne
      obtain ⟨v, hv⟩ := Option.ne_none_iff_exists'.mp hne
      exact hx (find_lt hR hv)
    rw [hnone ((fits_node.mp h).2 d hd), hnone ((fits_node.mp h').2 d hd)]

end Branching

end Radix

end Contrees.Library
