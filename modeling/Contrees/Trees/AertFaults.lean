import Contrees.Trees.AertCanon
import Contrees.Trees.AertUpdate
import Mathlib.Data.List.Dedup

namespace Contrees.Trees.Aert.Cow

open Library Library.Words Library.Slots Library.Memory Library.OrderedMap

variable {ofs ofs' lo hi len m b d key x y : Nat} {hd : Head} {chs : List Tree} {t c : Tree}

section Words

/-- Two keys have the same bits from one bit to another, counted from the top. -/
def Agrees (lo hi x y : Nat) : Prop := SameBits (rest hi) (rest lo) x y

theorem Agrees.symm (h : Agrees lo hi x y) : Agrees lo hi y x := fun j hj hj' => (h j hj hj').symm

theorem Agrees.trans {z : Nat} (h : Agrees lo hi x y) (h' : Agrees lo hi y z) : Agrees lo hi x z :=
  fun j hj hj' => (h j hj hj').trans (h' j hj hj')

theorem agrees_self : Agrees lo lo x y := fun _ hj hj' => absurd hj' (not_lt.mpr hj)

theorem rest_le (h : lo ≤ hi) : rest hi ≤ rest lo := Nat.sub_le_sub_left h 64

theorem agrees_split (hlo : lo ≤ m) (hhi : m ≤ hi) :
    Agrees lo hi x y ↔ Agrees lo m x y ∧ Agrees m hi x y :=
  sameBits_split (rest_le hhi) (rest_le hlo)

theorem Agrees.within (h : Agrees lo hi x y) (hlo : lo ≤ m) (hhi : b ≤ hi) : Agrees m b x y :=
  fun j hj hj' => h j ((rest_le hhi).trans hj) (hj'.trans_le (rest_le hlo))

theorem partialKey_slice (hlen : len = 4 ∨ len = 8) (h : b + len ≤ 64) :
    partialKey x b len = slice (rest b) (rest (b + len)) x := by
  rw [partialKey_eq hlen h]
  apply Nat.eq_of_testBit_eq
  intro j
  rw [Nat.testBit_mod_two_pow, Nat.testBit_div_two_pow, testBit_slice, Nat.add_comm j]
  congr 1
  exact decide_eq_decide.mpr (by rw [rest, rest]; omega)

theorem partialKey_agrees (hlen : len = 4 ∨ len = 8) (h : b + len ≤ 64) :
    partialKey x b len = partialKey y b len ↔ Agrees b (b + len) x y := by
  rw [partialKey_slice hlen h, partialKey_slice hlen h]
  exact slice_eq_iff

theorem splice_agrees (lo ofs key x : Nat) :
    Agrees lo ofs (splice (rest ofs) key x) key ∧ Agrees ofs 64 (splice (rest ofs) key x) x := by
  constructor
  · intro j hj _
    rw [testBit_splice, if_neg (not_lt.mpr hj)]
  · intro j _ hj
    rw [testBit_splice, if_pos hj]

theorem find_congr (w : Wf ofs t) (h : Agrees ofs 64 x y) : find x t = find y t := by
  have hmod : x % 2 ^ rest ofs = y % 2 ^ rest ofs := by
    apply Nat.eq_of_testBit_eq
    intro j
    rw [Nat.testBit_mod_two_pow, Nat.testBit_mod_two_pow]
    by_cases hj : j < rest ofs
    · rw [h j (Nat.zero_le j) hj]
    · rw [decide_eq_false hj, Bool.false_and, Bool.false_and]
  rw [find_radix w, find_radix w, hmod]

theorem prefix_agrees (hd : Head) :
    slice (rest ofs) (rest ofs - hd.pfxLen) x = slice (rest ofs) (rest ofs - hd.pfxLen) y ↔
    Agrees ofs (ofs + hd.pfxLen) x y := by
  have hr : rest ofs - hd.pfxLen = rest (ofs + hd.pfxLen) := by
    rw [rest, rest]
    omega
  rw [hr]
  exact slice_eq_iff

theorem has_node (w : Wf ofs (.node hd chs)) : find x (.node hd chs) ≠ none ↔
    slice (rest ofs) (rest ofs - hd.pfxLen) x = hd.prefixBits ∧
      find x (findch hd chs (partialKey x (ofs + hd.pfxLen) (nodeKeyLen hd.type))) ≠ none := by
  cases w with
  | node pfxOfs aligned len_le head full live children =>
      subst pfxOfs
      have hpm : pmlen hd x < hd.pfxLen ↔ _ := pmlen_lt (by omega) aligned.1
      rw [find_node_eq]
      by_cases hmis : pmlen hd x < hd.pfxLen
      · rw [if_pos hmis]
        exact ⟨fun hne => absurd rfl hne, fun hne => absurd hne.1 (hpm.mp hmis)⟩
      · rw [if_neg hmis]
        exact ⟨fun hne => ⟨not_not.mp (mt hpm.mpr hmis), hne⟩, fun hne => hne.2⟩

theorem has_tagged (w : Wf ofs (.tagged lo t)) :
    find x (.tagged lo t) ≠ none ↔ partialKey x ofs 4 = lo ∧ find x t ≠ none := by
  cases w with
  | tagged half ofs_le lo_lt pfxOfs child =>
      have hpm : ptrPfxMatch lo t.pfxOfs x < 4 ↔ partialKey x ofs 4 ≠ lo := by
        rw [pfxOfs, ptrPfxMatch_lt lo_lt (by omega) ofs_le, Nat.add_sub_cancel]
      rw [find]
      by_cases hmis : ptrPfxMatch lo t.pfxOfs x < 4
      · rw [if_pos hmis]
        exact ⟨fun hne => absurd rfl hne, fun hne => absurd hne.1 (hpm.mp hmis)⟩
      · rw [if_neg hmis]
        exact ⟨fun hne => ⟨not_not.mp (mt hpm.mpr hmis), hne⟩, fun hne => hne.2⟩

theorem has_leaf {val : Nat} (w : Wf ofs (.leaf hd val)) (hx : find x (.leaf hd val) ≠ none)
    (hy : find y (.leaf hd val) ≠ none) : Agrees ofs 64 x y := by
  cases w with
  | leaf type pfxOfs aligned ofs_le pfxLen =>
      subst pfxOfs
      have hword : ∀ {x}, find x (.leaf hd val) ≠ none →
          x % 2 ^ rest hd.pfxOfs = hd.pfx % 2 ^ rest hd.pfxOfs := by
        intro x hx
        rw [find] at hx
        by_contra hne
        exact hx (if_pos ((pmlen_leaf (by omega) (by omega)).mpr hne))
      intro j _ hj
      have hbit := congrArg (Nat.testBit · j) ((hword hx).trans (hword hy).symm)
      simpa [Nat.testBit_mod_two_pow, hj] using hbit

theorem has_word (w : Wf ofs t) (hne : t ≠ .null) : ∃ x, find x t ≠ none := by
  obtain ⟨x, hx⟩ := w.word hne
  obtain ⟨v, hv⟩ := Option.ne_none_iff_exists'.mp hx
  refine ⟨x, ?_⟩
  rw [find_radix w, Nat.mod_eq_of_lt (Radix.find_lt w.fits hv), hv]
  simp

theorem word_of_child (w : Wf ofs (.node hd chs)) (hd' : d < 2 ^ nodeKeyLen hd.type)
    (hx : find x (findch hd chs d) ≠ none) : ∃ y, find y (.node hd chs) ≠ none ∧
      partialKey y (ofs + hd.pfxLen) (nodeKeyLen hd.type) = d ∧
        Agrees (ofs + hd.pfxLen + nodeKeyLen hd.type) 64 y x := by
  have hwf := w
  cases w with
  | node pfxOfs aligned len_le head full live children =>
      have hchild := Wf.findch children hd d
      have hlt : x % 2 ^ rest (ofs + hd.pfxLen + nodeKeyLen hd.type) <
          2 ^ rest (ofs + hd.pfxLen + nodeKeyLen hd.type) :=
        Nat.mod_lt _ (Nat.two_pow_pos _)
      have hfind : (Tree.node hd chs).radix.find (rest ofs)
          ((hd.prefixBits * 2 ^ nodeKeyLen hd.type + d) * 2 ^ rest
            (ofs + hd.pfxLen + nodeKeyLen hd.type) +
            x % 2 ^ rest (ofs + hd.pfxLen + nodeKeyLen hd.type)) =
          (findch hd chs d).radix.find (rest (ofs + hd.pfxLen + nodeKeyLen hd.type))
            (x % 2 ^ rest (ofs + hd.pfxLen + nodeKeyLen hd.type)) := by
        rw [radix_node, ← rest_add len_le, Radix.find_digit hd' hlt]
      rw [find_radix hchild, ← hfind] at hx
      generalize hy : (hd.prefixBits * 2 ^ nodeKeyLen hd.type + d) *
        2 ^ rest (ofs + hd.pfxLen + nodeKeyLen hd.type) +
          x % 2 ^ rest (ofs + hd.pfxLen + nodeKeyLen hd.type) = y at hx
      obtain ⟨v, hv⟩ : ∃ v, (Tree.node hd chs).radix.find (rest ofs) y = some v := by
        rw [ne_eq, Option.map_eq_none_iff] at hx
        exact Option.ne_none_iff_exists'.mp hx
      refine ⟨y, ?_, ?_, ?_⟩
      · rw [find_radix hwf, Nat.mod_eq_of_lt (Radix.find_lt hwf.fits hv), hv]
        simp
      · rw [partialKey_eq (nodeKeyLen_eq _) len_le, ← hy, Nat.add_comm, Nat.add_mul_div_right _ _
          (Nat.two_pow_pos _),
          Nat.div_eq_of_lt hlt, Nat.zero_add, Nat.mul_comm, Nat.mul_add_mod, Nat.mod_eq_of_lt hd']
      · intro j _ hj
        rw [← hy, Nat.mul_comm, Nat.testBit_two_pow_mul_add _ hlt, if_pos hj,
          Nat.testBit_mod_two_pow,
          decide_eq_true hj, Bool.true_and]

theorem node_differ (w : Wf ofs (.node hd chs)) (hc : Canon (.node hd chs)) : ∃ x y,
    find x (.node hd chs) ≠ none ∧ find y (.node hd chs) ≠ none ∧
      ¬ Agrees (ofs + hd.pfxLen) (ofs + hd.pfxLen + nodeKeyLen hd.type) x y := by
  obtain ⟨d, e, hne, ⟨hd', hdne⟩, he, hene⟩ := two_children w hc
  have hwf := w
  cases w with
  | node pfxOfs aligned len_le head full live children =>
      obtain ⟨x, hx⟩ := has_word (Wf.findch children hd d) hdne
      obtain ⟨y, hy⟩ := has_word (Wf.findch children hd e) hene
      obtain ⟨x', hx', hdx, -⟩ := word_of_child hwf hd' hx
      obtain ⟨y', hy', hdy, -⟩ := word_of_child hwf he hy
      refine ⟨x', y', hx', hy', fun hagree => hne ?_⟩
      rw [← hdx, ← hdy]
      exact (partialKey_agrees (nodeKeyLen_eq _) len_le).mpr hagree

end Words

section Bytes

def BytesAt (key ofs : Nat) (t : Tree) (b d : Nat) : Prop :=
  ∃ x, find x t ≠ none ∧ Agrees ofs b x key ∧ partialKey x b 8 = d

/-- The words that share the key's bits have sixteen bytes next, of which the key's is none. -/
structure Sixteen (key ofs : Nat) (t : Tree) (b : Nat) : Prop where
  aligned : 8 ∣ b
  le : ofs ≤ b
  lt : b < 64
  many : Many 16 (BytesAt key ofs t b)
  few : ¬ Many 17 (BytesAt key ofs t b)
  absent : ¬ BytesAt key ofs t b (partialKey key b 8)

/-- More than sixteen bytes at `a`, and below the key's own high bits there a full NODE16. -/
structure Jams (key ofs : Nat) (t : Tree) (a b : Nat) : Prop where
  aligned : 8 ∣ a
  le : ofs ≤ a
  lt : a < b
  split : Many 17 (BytesAt key ofs t a)
  alone : ∀ x, find x t ≠ none → Agrees ofs (a + 4) x key → Agrees ofs b x key
  full : Sixteen key ofs t b

structure Filled (key ofs : Nat) (t : Tree) (b : Nat) : Prop where
  all : ∀ x, find x t ≠ none → Agrees ofs b x key
  full : Sixteen key ofs t b

def Flat (key ofs : Nat) (t : Tree) : Prop :=
  ∀ b, 8 ∣ b → ofs ≤ b → b < 64 → ¬ Many 2 (BytesAt key ofs t b)

theorem Flat.not_sixteen (h : Flat key ofs t) : ¬ Sixteen key ofs t b := fun hs =>
  h b hs.aligned hs.le hs.lt (hs.many.le (by omega))

theorem not_many_of_agree (hall : ∀ x y, find x t ≠ none → find y t ≠ none → Agrees ofs m x y)
    (hle : ofs ≤ b) (hm : b + 8 ≤ m) (h64 : m ≤ 64) : ¬ Many 2 (BytesAt key ofs t b) := by
  intro hmany
  obtain ⟨d, e, hne, ⟨x, hx, -, hdx⟩, ⟨y, hy, -, hdy⟩⟩ := hmany.two le_rfl
  refine hne ?_
  rw [← hdx, ← hdy]
  exact (partialKey_agrees (.inr rfl) (by omega)).mpr ((hall x y hx hy).within hle hm)

end Bytes

section Descent

/-- The words of `t` that share the key's bits to `ofs'` are those of `c`. -/
structure Descends (key ofs : Nat) (t : Tree) (ofs' : Nat) (c : Tree) : Prop where
  le : ofs ≤ ofs'
  down : ∀ x, find x t ≠ none → Agrees ofs ofs' x key → find x c ≠ none
  up : ∀ x, find x c ≠ none → ∃ y, find y t ≠ none ∧ Agrees ofs ofs' y key ∧ Agrees ofs' 64 y x

theorem descends_node (w : Wf ofs (.node hd chs))
    (hmatch : slice (rest ofs) (rest ofs - hd.pfxLen) key = hd.prefixBits) :
    Descends key ofs (.node hd chs) (ofs + hd.pfxLen + nodeKeyLen hd.type)
      (findch hd chs (partialKey key (ofs + hd.pfxLen) (nodeKeyLen hd.type))) := by
  have hle : ofs + hd.pfxLen + nodeKeyLen hd.type ≤ 64 := by
    cases w with
    | node _ _ len_le _ _ _ _ => exact len_le
  have hbits : ∀ {x}, Agrees ofs (ofs + hd.pfxLen + nodeKeyLen hd.type) x key →
      slice (rest ofs) (rest ofs - hd.pfxLen) x = hd.prefixBits ∧
        partialKey x (ofs + hd.pfxLen) (nodeKeyLen hd.type) = partialKey key (ofs + hd.pfxLen)
          (nodeKeyLen hd.type) := by
    intro x hx
    obtain ⟨hpfx, hdig⟩ := (agrees_split (m := ofs + hd.pfxLen) (by omega) (by omega)).mp hx
    exact ⟨((prefix_agrees hd).mpr hpfx).trans hmatch,
      (partialKey_agrees (nodeKeyLen_eq _) hle).mpr hdig⟩
  refine ⟨by omega, fun x hx hagree => ?_, fun x hx => ?_⟩
  · obtain ⟨-, hdig⟩ := hbits hagree
    have hchild := ((has_node w).mp hx).2
    rwa [hdig] at hchild
  · obtain ⟨hkey, hlow⟩ := splice_agrees ofs (ofs + hd.pfxLen + nodeKeyLen hd.type) key x
    obtain ⟨hpfx, hdig⟩ := hbits hkey
    refine ⟨_, (has_node w).mpr ⟨hpfx, ?_⟩, hkey, hlow⟩
    have hchild : Wf (ofs + hd.pfxLen + nodeKeyLen hd.type)
        (findch hd chs (partialKey key (ofs + hd.pfxLen) (nodeKeyLen hd.type))) := by
      cases w with
      | node _ _ _ _ _ _ children => exact Wf.findch children hd _
    rw [hdig, find_congr hchild hlow]
    exact hx

theorem descends_tagged (w : Wf ofs (.tagged lo t)) (hmatch : partialKey key ofs 4 = lo) :
    Descends key ofs (.tagged lo t) (ofs + 4) t := by
  have hle : ofs + 4 ≤ 64 := by
    cases w with
    | tagged _ ofs_le _ _ _ => exact ofs_le
  refine ⟨by omega, fun x hx _ => ((has_tagged w).mp hx).2, fun x hx => ?_⟩
  obtain ⟨hkey, hlow⟩ := splice_agrees ofs (ofs + 4) key x
  refine ⟨_, (has_tagged w).mpr ⟨?_, ?_⟩, hkey, hlow⟩
  · rw [← hmatch]
    exact (partialKey_agrees (.inl rfl) hle).mpr hkey
  · cases w with
    | tagged _ _ _ _ child =>
        rw [find_congr child hlow]
        exact hx

variable (h : Descends key ofs t ofs' c)
include h

theorem Descends.bytes (hb : ofs' ≤ b) (hb8 : b + 8 ≤ 64) :
    BytesAt key ofs t b d ↔ BytesAt key ofs' c b d := by
  constructor
  · rintro ⟨x, hx, hagree, hdig⟩
    obtain ⟨hkey, hlow⟩ := (agrees_split h.le hb).mp hagree
    exact ⟨x, h.down x hx hkey, hlow, hdig⟩
  · rintro ⟨x, hx, hagree, hdig⟩
    obtain ⟨y, hy, hkey, hlow⟩ := h.up x hx
    refine ⟨y, hy,
      (agrees_split h.le hb).mpr ⟨hkey, (hlow.within le_rfl (by omega)).trans hagree⟩, ?_⟩
    rw [← hdig]
    exact (partialKey_agrees (.inr rfl) hb8).mpr (hlow.within hb hb8)

theorem Descends.many {n : Nat} (hb : ofs' ≤ b) (hb8 : b + 8 ≤ 64) :
    Many n (BytesAt key ofs t b) ↔ Many n (BytesAt key ofs' c b) :=
  ⟨fun hm => hm.mono fun _ => (h.bytes hb hb8).mp, fun hm => hm.mono fun _ => (h.bytes hb hb8).mpr⟩

theorem Descends.sixteen (hb : ofs' ≤ b) : Sixteen key ofs t b ↔ Sixteen key ofs' c b := by
  have hle := h.le
  constructor
  · rintro ⟨aligned, -, lt, many, few, absent⟩
    have hb8 : b + 8 ≤ 64 := by omega
    exact ⟨aligned, hb, lt, (h.many hb hb8).mp many, mt (h.many hb hb8).mpr few,
      mt (h.bytes hb hb8).mpr absent⟩
  · rintro ⟨aligned, -, lt, many, few, absent⟩
    have hb8 : b + 8 ≤ 64 := by omega
    exact ⟨aligned, by omega, lt, (h.many hb hb8).mpr many, mt (h.many hb hb8).mp few,
      mt (h.bytes hb hb8).mp absent⟩

theorem Descends.alone (hm : ofs' ≤ m) (hb : m ≤ b) (h64 : b ≤ 64) :
    (∀ x, find x t ≠ none → Agrees ofs m x key → Agrees ofs b x key) ↔
      ∀ x, find x c ≠ none → Agrees ofs' m x key → Agrees ofs' b x key := by
  constructor
  · intro hall x hx hagree
    obtain ⟨y, hy, hkey, hlow⟩ := h.up x hx
    have hy' :=
      hall y hy ((agrees_split h.le hm).mpr ⟨hkey, (hlow.within le_rfl (by omega)).trans hagree⟩)
    exact (hlow.within le_rfl h64).symm.trans ((agrees_split h.le (hm.trans hb)).mp hy').2
  · intro hall x hx hagree
    obtain ⟨hkey, hlow⟩ := (agrees_split h.le hm).mp hagree
    exact (agrees_split h.le (hm.trans hb)).mpr ⟨hkey, hall x (h.down x hx hkey) hlow⟩

theorem Descends.jams {a : Nat} (ha : ofs' ≤ a) : Jams key ofs t a b ↔ Jams key ofs' c a b := by
  have hle := h.le
  constructor
  · rintro ⟨aligned, -, lt, split, alone, full⟩
    have hlt := full.lt
    have hdvd := full.aligned
    exact ⟨aligned, ha, lt, (h.many ha (by omega)).mp split,
      (h.alone (by omega) (by omega) (by omega)).mp alone,
      (h.sixteen (by omega)).mp full⟩
  · rintro ⟨aligned, -, lt, split, alone, full⟩
    have hlt := full.lt
    have hdvd := full.aligned
    exact ⟨aligned, by omega, lt, (h.many ha (by omega)).mpr split,
      (h.alone (by omega) (by omega) (by omega)).mpr alone,
      (h.sixteen (by omega)).mpr full⟩

theorem Descends.jams_filled {a : Nat} (ha : a + 4 = ofs') (hdvd : 8 ∣ a) (hle : ofs ≤ a)
    (hmany : Many 17 (BytesAt key ofs t a)) : Jams key ofs t a b ↔ Filled key ofs' c b := by
  constructor
  · rintro ⟨-, -, lt, -, alone, full⟩
    have hlt := full.lt
    have hdvd' := full.aligned
    refine ⟨fun x hx => ?_, (h.sixteen (by omega)).mp full⟩
    rw [ha] at alone
    exact (h.alone le_rfl (by omega) (by omega)).mp alone x hx agrees_self
  · rintro ⟨all, full⟩
    have hlt := full.lt
    have hle' := full.le
    refine ⟨hdvd, hle, by omega, hmany, ?_, (h.sixteen hle').mpr full⟩
    rw [ha]
    exact (h.alone le_rfl hle' (by omega)).mpr fun x hx _ => all x hx

end Descent

section Stops

/-- The keys of a subtree at which an update faults. -/
def Stops (key ofs : Nat) (t : Tree) (below : Bool) : Prop :=
  (∃ a b, Jams key ofs t a b) ∨ (below = true ∨ ofs % 8 = 4) ∧ ∃ b, Filled key ofs t b

theorem Flat.not_stops {below : Bool} (h : Flat key ofs t) : ¬ Stops key ofs t below := by
  rintro (⟨a, b, hjams⟩ | ⟨-, b, hfilled⟩)
  · exact h.not_sixteen hjams.full
  · exact h.not_sixteen hfilled.full

theorem flat_null : Flat key ofs .null := by
  intro b _ _ _ hmany
  obtain ⟨d, e, -, ⟨x, hx, -⟩, -⟩ := hmany.two le_rfl
  exact hx (by rw [find])

theorem flat_leaf {val : Nat} (w : Wf ofs (.leaf hd val)) : Flat key ofs (.leaf hd val) := by
  intro b hdvd hle hlt
  exact not_many_of_agree (fun x y hx hy => has_leaf w hx hy) hle (by omega) le_rfl

theorem node_agree (w : Wf ofs (.node hd chs)) (hx : find x (.node hd chs) ≠ none)
    (hy : slice (rest ofs) (rest ofs - hd.pfxLen) y = hd.prefixBits) :
    Agrees ofs (ofs + hd.pfxLen) x y :=
  (prefix_agrees hd).mp (((has_node w).mp hx).1.trans hy.symm)

theorem node_unbranched (w : Wf ofs (.node hd chs)) (hdvd : 8 ∣ b) (hle : ofs ≤ b)
    (hlt : b < ofs + hd.pfxLen) :
    ¬ Many 2 (BytesAt key ofs (.node hd chs) b) := by
  have hall : ∀ x y, find x (.node hd chs) ≠ none → find y (.node hd chs) ≠ none →
      Agrees ofs (ofs + hd.pfxLen) x y := fun x y hx hy => node_agree w hx ((has_node w).mp hy).1
  cases w with
  | node pfxOfs aligned len_le _ _ _ _ =>
      obtain ⟨hlen, hofs⟩ := aligned
      exact not_many_of_agree hall hle (by omega) (by omega)

theorem flat_node (w : Wf ofs (.node hd chs))
    (hmis : slice (rest ofs) (rest ofs - hd.pfxLen) key ≠ hd.prefixBits) :
    Flat key ofs (.node hd chs) := by
  intro b hdvd hle _ hmany
  by_cases hlt : b < ofs + hd.pfxLen
  · exact node_unbranched w hdvd hle hlt hmany
  · obtain ⟨d, e, -, ⟨x, hx, hagree, -⟩, -⟩ := hmany.two le_rfl
    refine hmis (((prefix_agrees hd).mpr ?_).trans ((has_node w).mp hx).1)
    exact (hagree.within le_rfl (not_lt.mp hlt)).symm

theorem flat_tagged (w : Wf ofs (.tagged lo t)) (hmis : partialKey key ofs 4 ≠ lo) :
    Flat key ofs (.tagged lo t) := by
  intro b hdvd hle hlt hmany
  obtain ⟨d, e, -, ⟨x, hx, hagree, -⟩, -⟩ := hmany.two le_rfl
  have hhalf : ofs % 8 = 4 := by
    cases w with
    | tagged half _ _ _ _ => exact half
  refine hmis (Eq.trans ?_ ((has_tagged w).mp hx).1)
  exact (partialKey_agrees (.inl rfl) (by omega)).mpr (hagree.within le_rfl (by omega)).symm

theorem filled_le (w : Wf ofs (.node hd chs)) (hc : Canon (.node hd chs))
    (h : Filled key ofs (.node hd chs) b) :
    b < ofs + hd.pfxLen + nodeKeyLen hd.type := by
  obtain ⟨x, y, hx, hy, hdiffer⟩ := node_differ w hc
  by_contra hge
  exact hdiffer (((h.all x hx).trans (h.all y hy).symm).within (by omega) (not_lt.mp hge))

end Stops

section Wide

theorem wide_bytes (w : Wf ofs (.node hd chs)) (hw : nodeKeyLen hd.type = 8)
    (hmatch : slice (rest ofs) (rest ofs - hd.pfxLen) key = hd.prefixBits) :
    BytesAt key ofs (.node hd chs) (ofs + hd.pfxLen) d ↔ d ∈ hd.keys := by
  have hwf := w
  cases w with
  | node pfxOfs aligned len_le head full live children =>
      have hcomp : Compact hd := head.laid.cases.resolve_right fun hn => by
        simp [hn, nodeKeyLen] at hw
      rw [hcomp.mem_keys head.laid (full hcomp.not_direct)]
      constructor
      · rintro ⟨x, hx, -, rfl⟩
        have hchild := ((has_node hwf).mp hx).2
        rw [hw] at hchild
        intro hnull
        rw [hnull] at hchild
        exact hchild (by rw [find])
      · intro hne
        have hlt : d < 2 ^ nodeKeyLen hd.type := (hcomp.sorted head.laid).keys_lt d
          ((hcomp.mem_keys head.laid (full hcomp.not_direct)).mpr hne)
        obtain ⟨x, hx⟩ := has_word (Wf.findch children hd d) hne
        obtain ⟨y, hy, hdig, -⟩ := word_of_child hwf hlt hx
        exact ⟨y, hy, node_agree hwf hy hmatch, hw ▸ hdig⟩

theorem wide_few (w : Wf ofs (.node hd chs)) (hw : nodeKeyLen hd.type = 8)
    (hmatch : slice (rest ofs) (rest ofs - hd.pfxLen) key = hd.prefixBits) :
    ¬ Many 17 (BytesAt key ofs (.node hd chs) (ofs + hd.pfxLen)) := by
  intro hmany
  have hlen := hmany.le_length hd.keys fun d => (wide_bytes w hw hmatch).mp
  cases w with
  | node pfxOfs aligned len_le head full live children =>
      have hcomp : Compact hd := head.laid.cases.resolve_right fun hn => by
        simp [hn, nodeKeyLen] at hw
      have hkeys : hd.keys.length = hd.size := (hcomp.sorted head.laid).keys_length
      have hsize := hcomp.size_le head.laid
      omega

theorem wide_jams (w : Wf ofs (.node hd chs)) (hw : nodeKeyLen hd.type = 8)
    (hmatch : slice (rest ofs) (rest ofs - hd.pfxLen) key = hd.prefixBits) (a b : Nat) :
    Jams key ofs (.node hd chs) a b ↔ Jams key (ofs + hd.pfxLen + nodeKeyLen hd.type)
      (findch hd chs (partialKey key (ofs + hd.pfxLen) (nodeKeyLen hd.type))) a b := by
  have hdesc := descends_node w hmatch
  have hofs : 8 ∣ ofs + hd.pfxLen := by
    cases w with
    | node pfxOfs aligned _ _ _ _ _ =>
        obtain ⟨hlen, hofs⟩ := aligned
        omega
  constructor
  · intro hj
    have halign := hj.aligned
    have hge : ofs + hd.pfxLen + nodeKeyLen hd.type ≤ a := by
      by_contra hlt
      have hle : a ≤ ofs + hd.pfxLen := by omega
      rcases hle.lt_or_eq with hlt | rfl
      · exact node_unbranched w halign hj.le hlt (hj.split.le (by omega))
      · exact wide_few w hw hmatch hj.split
    exact (hdesc.jams hge).mp hj
  · exact fun hj => (hdesc.jams hj.le).mpr hj

theorem wide_filled (w : Wf ofs (.node hd chs)) (hc : Canon (.node hd chs))
    (hw : nodeKeyLen hd.type = 8)
    (hmatch : slice (rest ofs) (rest ofs - hd.pfxLen) key = hd.prefixBits) :
    (∃ b, Filled key ofs (.node hd chs) b) ↔
      hd.size = 16 ∧ partialKey key (ofs + hd.pfxLen) 8 ∉ hd.keys := by
  have hwf := w
  have hbytes : ∀ {d}, BytesAt key ofs (.node hd chs) (ofs + hd.pfxLen) d ↔ d ∈ hd.keys :=
    wide_bytes w hw hmatch
  have hfew := wide_few w hw hmatch
  cases w with
  | node pfxOfs aligned len_le head full live children =>
      have hcomp : Compact hd := head.laid.cases.resolve_right fun hn => by
        simp [hn, nodeKeyLen] at hw
      have hsorted : Sorted hd chs.length := hcomp.sorted head.laid
      have hkeys : hd.keys.length = hd.size := hsorted.keys_length
      have hsize := hcomp.size_le head.laid
      obtain ⟨hlen, hofs⟩ := aligned
      constructor
      · rintro ⟨b, hf⟩
        have hlt := filled_le hwf hc hf
        have halign := hf.full.aligned
        have hle : b ≤ ofs + hd.pfxLen := by omega
        rcases hle.lt_or_eq with hlt' | rfl
        · exact absurd (hf.full.many.le (by omega)) (node_unbranched hwf halign hf.full.le hlt')
        · have := hf.full.many.le_length hd.keys fun d => hbytes.mp
          exact ⟨by omega, mt hbytes.mpr hf.full.absent⟩
      · rintro ⟨hfull, habs⟩
        have hmany : Many 16 (BytesAt key ofs (.node hd chs) (ofs + hd.pfxLen)) :=
          ⟨hd.keys, by omega, hsorted.ascending.imp Nat.ne_of_lt, fun d => hbytes.mpr⟩
        exact ⟨ofs + hd.pfxLen, fun x hx => node_agree hwf hx hmatch,
          ⟨by omega, by omega, by omega, hmany, hfew, mt hbytes.mp habs⟩⟩

theorem wide_iff (w : Wf ofs (.node hd chs)) (hc : Canon (.node hd chs))
    (hw : nodeKeyLen hd.type = 8)
    (hmatch : slice (rest ofs) (rest ofs - hd.pfxLen) key = hd.prefixBits) (below : Bool)
    (ih : ∀ c ∈ chs, splitsTagged key c (ofs + hd.pfxLen + nodeKeyLen hd.type) false = true ↔
      Stops key (ofs + hd.pfxLen + nodeKeyLen hd.type) c false) :
    splitsTagged key (.node hd chs) ofs below = true ↔ Stops key ofs (.node hd chs) below := by
  have hjams := wide_jams w hw hmatch
  have hfilled := wide_filled w hc hw hmatch
  cases w with
  | node pfxOfs aligned len_le head full live children =>
      subst pfxOfs
      have hcomp : Compact hd := head.laid.cases.resolve_right fun hn => by
        simp [hn, nodeKeyLen] at hw
      obtain ⟨hlen, hofs⟩ := aligned
      have hmis : ¬ pmlen hd key < hd.pfxLen := fun hlt => (pmlen_lt (by omega) hlen).mp hlt hmatch
      have hhalf : ¬ (false = true ∨ (hd.pfxOfs + hd.pfxLen + nodeKeyLen hd.type) % 8 = 4) := by
        rw [hw]
        simp only [Bool.false_eq_true, false_or]
        omega
      rw [splitsTagged_node, if_neg hmis]
      cases hi : findidx hd (partialKey key (hd.pfxOfs + hd.pfxLen) (nodeKeyLen hd.type)) with
      | some idx =>
          have hmem : partialKey key (hd.pfxOfs + hd.pfxLen) (nodeKeyLen hd.type) ∈ hd.keys := by
            rw [hcomp.findidx head, List.findIdx?_eq_some_iff_getElem] at hi
            obtain ⟨hlt, heq, -⟩ := hi
            exact of_decide_eq_true heq ▸ List.getElem_mem hlt
          have hchild : findch hd chs
              (partialKey key (hd.pfxOfs + hd.pfxLen) (nodeKeyLen hd.type)) ∈ chs :=
            (findch_mem hd chs _).resolve_left
              ((hcomp.mem_keys head.laid (full hcomp.not_direct)).mp hmem)
          have hnot : ¬ ∃ b, Filled key hd.pfxOfs (.node hd chs) b :=
            fun h => (hfilled.mp h).2 (hw ▸ hmem)
          simp only [← findch_eq_getch hi]
          rw [ih _ hchild, Stops, Stops, or_iff_left fun h => hhalf h.1, or_iff_left
            fun h => hnot h.2]
          exact exists_congr fun a => exists_congr fun b => (hjams a b).symm
      | none =>
          have habs : partialKey key (hd.pfxOfs + hd.pfxLen) (nodeKeyLen hd.type) ∉ hd.keys :=
            hcomp.absent head hi
          have hnull : findch hd chs (partialKey key (hd.pfxOfs + hd.pfxLen) (nodeKeyLen hd.type)) =
              .null :=
            findch_eq_default hi
          have hnot : ¬ ∃ a b, Jams key hd.pfxOfs (.node hd chs) a b := by
            rintro ⟨a, b, hj⟩
            have hchild := (hjams a b).mp hj
            rw [hnull] at hchild
            exact flat_null.not_sixteen hchild.full
          rw [hw] at habs
          rw [Stops, or_iff_right hnot, hfilled]
          have hwhole : ¬ hd.pfxOfs % 8 = 4 := by omega
          simp only [Bool.and_eq_true, decide_eq_true_eq, habs, not_false_eq_true, and_true,
            or_iff_left hwhole]

end Wide

section Half

theorem splitsTagged_half {below : Bool} (w : Wf ofs (.node hd chs)) (hw : nodeKeyLen hd.type = 4)
    (hmatch : slice (rest ofs) (rest ofs - hd.pfxLen) key = hd.prefixBits) :
    splitsTagged key (.node hd chs) ofs below = splitsTagged key (findch hd chs
      (partialKey key (ofs + hd.pfxLen) (nodeKeyLen hd.type)))
      (ofs + hd.pfxLen + nodeKeyLen hd.type) false := by
  cases w with
  | node pfxOfs aligned len_le head full live children =>
      subst pfxOfs
      have hmis : ¬ pmlen hd key < hd.pfxLen :=
        fun hlt => (pmlen_lt (by omega) aligned.1).mp hlt hmatch
      have hsize : hd.size ≠ 16 := by
        intro hfull
        have hn := node16_of_full head.laid hfull
        simp [hn, nodeKeyLen] at hw
      rw [splitsTagged_node, if_neg hmis]
      cases hi : findidx hd (partialKey key (hd.pfxOfs + hd.pfxLen) (nodeKeyLen hd.type)) with
      | some idx => rw [findch_eq_getch hi]
      | none =>
          have hnull : findch hd chs (partialKey key (hd.pfxOfs + hd.pfxLen) (nodeKeyLen hd.type)) =
              .null :=
            findch_eq_default hi
          rw [hnull, splitsTagged]
          simp [hsize]

theorem partialKey_halves (h : b + 8 ≤ 64) :
    partialKey x b 8 = partialKey x b 4 * 16 + partialKey x (b + 4) 4 := by
  have hr : rest (b + 4) = rest (b + 8) + 4 := by
    rw [rest, rest]
    omega
  have hr' : b + 4 + 4 = b + 8 := rfl
  rw [partialKey_eq (.inr rfl) h, partialKey_eq (.inl rfl) (by omega), partialKey_eq (.inl rfl)
    (by omega), hr, hr',
    pow_add, ← Nat.div_div_eq_div_mul]
  omega

theorem upper_many (w : Wf ofs (.node hd chs)) (hc : Canon (.node hd chs))
    (hw : nodeKeyLen hd.type = 4)
    (hofs : 8 ∣ ofs) (hmatch : slice (rest ofs) (rest ofs - hd.pfxLen) key = hd.prefixBits) :
    Many 17 (BytesAt key ofs (.node hd chs) (ofs + hd.pfxLen)) := by
  have hwf := w
  cases w with
  | node pfxOfs aligned len_le head full live children =>
      subst pfxOfs
      cases hc with
      | node masked sized canon =>
          refine (sized.upper hw hofs).mono ?_
          rintro d ⟨hlt, x, hx, hlow⟩
          have hchild := Wf.findch children hd (d / 16)
          rw [hw] at len_le hchild
          obtain ⟨v, hv⟩ := Option.ne_none_iff_exists'.mp hx
          have hword : find x (findch hd chs (d / 16)) ≠ none := by
            rw [find_radix hchild, Nat.mod_eq_of_lt (Radix.find_lt hchild.fits hv), hv]
            simp
          have hd16 : d / 16 < 2 ^ nodeKeyLen hd.type := by
            rw [hw]
            omega
          obtain ⟨y, hy, hdig, hagree⟩ := word_of_child hwf hd16 hword
          rw [hw] at hdig hagree
          obtain ⟨hlen, hofs'⟩ := aligned
          have hle : hd.pfxOfs + hd.pfxLen + 8 ≤ 64 := by omega
          have hlow' : partialKey y (hd.pfxOfs + hd.pfxLen + 4) 4 = d % 16 := by
            have hsame : partialKey y (hd.pfxOfs + hd.pfxLen + 4) 4 = partialKey x
                (hd.pfxOfs + hd.pfxLen + 4) 4 :=
              (partialKey_agrees (.inl rfl) (by omega)).mpr (hagree.within le_rfl (by omega))
            rw [hsame, partialKey_eq (.inl rfl) (by omega), hlow]
            omega
          refine ⟨y, hy, node_agree hwf hy hmatch, ?_⟩
          rw [partialKey_halves hle, hdig, hlow']
          omega

theorem upper_iff (w : Wf ofs (.node hd chs)) (hc : Canon (.node hd chs))
    (hw : nodeKeyLen hd.type = 4)
    (hofs : 8 ∣ ofs) (hmatch : slice (rest ofs) (rest ofs - hd.pfxLen) key = hd.prefixBits)
    (below : Bool)
    (ih : splitsTagged key (findch hd chs (partialKey key (ofs + hd.pfxLen) (nodeKeyLen hd.type)))
      (ofs + hd.pfxLen + nodeKeyLen hd.type) false = true ↔
      Stops key (ofs + hd.pfxLen + nodeKeyLen hd.type)
        (findch hd chs (partialKey key (ofs + hd.pfxLen) (nodeKeyLen hd.type))) false) :
    splitsTagged key (.node hd chs) ofs below = true ↔ Stops key ofs (.node hd chs) below := by
  have hmany := upper_many w hc hw hofs hmatch
  have hdesc := descends_node w hmatch
  have hdvd : 8 ∣ ofs + hd.pfxLen := by
    cases w with
    | node pfxOfs aligned _ _ _ _ _ => exact Nat.dvd_add hofs aligned.1
  have hhalf : (ofs + hd.pfxLen + nodeKeyLen hd.type) % 8 = 4 := by
    rw [hw]
    omega
  rw [splitsTagged_half w hw hmatch, ih, Stops, Stops]
  generalize hchild : findch hd chs (partialKey key (ofs + hd.pfxLen) (nodeKeyLen hd.type)) =
    c at hdesc
  rw [hw] at hdesc hhalf ⊢
  constructor
  · rintro (⟨a, b, hj⟩ | ⟨-, b, hf⟩)
    · exact .inl ⟨a, b, (hdesc.jams hj.le).mpr hj⟩
    · exact .inl ⟨ofs + hd.pfxLen, b, (hdesc.jams_filled rfl hdvd (by omega) hmany).mpr hf⟩
  · rintro (⟨a, b, hj⟩ | ⟨-, b, hf⟩)
    · have halign := hj.aligned
      rcases lt_trichotomy a (ofs + hd.pfxLen) with hlt | rfl | hgt
      · exact absurd (hj.split.le (by omega)) (node_unbranched w halign hj.le hlt)
      · exact .inr ⟨.inr hhalf, b, (hdesc.jams_filled rfl hdvd hj.le hmany).mp hj⟩
      · exact .inl ⟨a, b, (hdesc.jams (by omega)).mp hj⟩
    · have hlt := filled_le w hc hf
      have halign := hf.full.aligned
      have hle : b ≤ ofs + hd.pfxLen := by omega
      rcases hle.lt_or_eq with hlt' | rfl
      · exact absurd (hf.full.many.le (by omega)) (node_unbranched w halign hf.full.le hlt')
      · exact absurd hmany hf.full.few

theorem lower_iff (w : Wf ofs (.node hd chs)) (hc : Canon (.node hd chs))
    (hw : nodeKeyLen hd.type = 4)
    (hofs : ofs % 8 = 4) (hmatch : slice (rest ofs) (rest ofs - hd.pfxLen) key = hd.prefixBits)
    (below : Bool)
    (ih : splitsTagged key (findch hd chs (partialKey key (ofs + hd.pfxLen) (nodeKeyLen hd.type)))
      (ofs + hd.pfxLen + nodeKeyLen hd.type) false = true ↔
      Stops key (ofs + hd.pfxLen + nodeKeyLen hd.type)
        (findch hd chs (partialKey key (ofs + hd.pfxLen) (nodeKeyLen hd.type))) false) :
    splitsTagged key (.node hd chs) ofs below = true ↔ Stops key ofs (.node hd chs) below := by
  have hdesc := descends_node w hmatch
  have hlen : hd.pfxLen = 0 := by
    cases w with
    | node pfxOfs aligned _ _ _ _ _ =>
        obtain ⟨-, hofs' | ⟨-, hlen, -⟩⟩ := aligned
        · omega
        · exact hlen
  have hwhole : ¬ (false = true ∨ (ofs + hd.pfxLen + nodeKeyLen hd.type) % 8 = 4) := by
    rw [hw]
    simp only [Bool.false_eq_true, false_or]
    omega
  rw [splitsTagged_half w hw hmatch, ih, Stops, Stops, or_iff_left fun h => hwhole h.1]
  constructor
  · rintro ⟨a, b, hj⟩
    exact .inl ⟨a, b, (hdesc.jams hj.le).mpr hj⟩
  · rintro (⟨a, b, hj⟩ | ⟨-, b, hf⟩)
    · have halign := hj.aligned
      have hle := hj.le
      exact ⟨a, b, (hdesc.jams (by omega)).mp hj⟩
    · have hlt := filled_le w hc hf
      have halign := hf.full.aligned
      have hle := hf.full.le
      omega

end Half

section Runs

theorem tagged_iff (w : Wf ofs (.tagged lo t)) (hmatch : partialKey key ofs 4 = lo) (below : Bool) :
    Stops key ofs (.tagged lo t) below ↔ Stops key (ofs + 4) t true := by
  have hdesc := descends_tagged w hmatch
  have hhalf : ofs % 8 = 4 := by
    cases w with
    | tagged half _ _ _ _ => exact half
  have hagree : ∀ x, find x (.tagged lo t) ≠ none → Agrees ofs (ofs + 4) x key := by
    have hle : ofs + 4 ≤ 64 := by
      cases w with
      | tagged _ ofs_le _ _ _ => exact ofs_le
    exact fun x hx => (partialKey_agrees (.inl rfl) hle).mp
      (((has_tagged w).mp hx).1.trans hmatch.symm)
  have hjams : ∀ a b, Jams key ofs (.tagged lo t) a b ↔ Jams key (ofs + 4) t a b := by
    intro a b
    constructor
    · intro hj
      have halign := hj.aligned
      have hle := hj.le
      exact (hdesc.jams (by omega)).mp hj
    · exact fun hj => (hdesc.jams hj.le).mpr hj
  have hfilled : ∀ b, Filled key ofs (.tagged lo t) b ↔ Filled key (ofs + 4) t b := by
    intro b
    constructor
    · rintro ⟨all, full⟩
      have halign := full.aligned
      have hle := full.le
      have hlt := full.lt
      refine ⟨fun x hx => ?_, (hdesc.sixteen (by omega)).mp full⟩
      exact (hdesc.alone le_rfl (by omega) (by omega)).mp (fun x hx _ => all x hx) x hx agrees_self
    · rintro ⟨all, full⟩
      have hle := full.le
      have hlt := full.lt
      refine ⟨fun x hx => ?_, (hdesc.sixteen hle).mpr full⟩
      exact (hdesc.alone le_rfl hle (by omega)).mpr (fun x hx _ => all x hx) x hx (hagree x hx)
  simp only [Stops, hjams, hfilled, hhalf, or_true, true_and, true_or]

theorem splitsTagged_iff (w : Wf ofs t) (hc : Canon t) (below : Bool) :
    splitsTagged key t ofs below = true ↔ Stops key ofs t below := by
  induction w generalizing below with
  | null =>
      rw [splitsTagged]
      exact iff_of_false Bool.false_ne_true flat_null.not_stops
  | @leaf ofs hd val type pfxOfs aligned ofs_le pfxLen =>
      rw [splitsTagged]
      exact iff_of_false Bool.false_ne_true
        (flat_leaf (.leaf type pfxOfs aligned ofs_le pfxLen)).not_stops
  | @node ofs hd chs pfxOfs aligned len_le head full live children ih =>
      have w : Wf ofs (.node hd chs) := .node pfxOfs aligned len_le head full live children
      have hdown : ∀ c ∈ chs, splitsTagged key c (ofs + hd.pfxLen + nodeKeyLen hd.type) false =
        true ↔
          Stops key (ofs + hd.pfxLen + nodeKeyLen hd.type) c false := by
        cases hc with
        | node _ _ canon => exact fun c hmem => ih c hmem (canon c hmem) false
      by_cases hmis : slice (rest ofs) (rest ofs - hd.pfxLen) key = hd.prefixBits
      · rcases nodeKeyLen_eq hd.type with hw | hw
        · have hchild : splitsTagged key
            (findch hd chs (partialKey key (ofs + hd.pfxLen) (nodeKeyLen hd.type)))
              (ofs + hd.pfxLen + nodeKeyLen hd.type) false = true ↔
                Stops key (ofs + hd.pfxLen + nodeKeyLen hd.type)
                (findch hd chs (partialKey key (ofs + hd.pfxLen) (nodeKeyLen hd.type))) false := by
            rcases findch_mem hd chs
              (partialKey key (ofs + hd.pfxLen) (nodeKeyLen hd.type)) with hnull | hmem
            · rw [hnull]
              exact iff_of_false Bool.false_ne_true flat_null.not_stops
            · exact hdown _ hmem
          obtain ⟨-, hofs | ⟨hofs, -⟩⟩ := aligned
          · exact upper_iff w hc hw (pfxOfs ▸ hofs) hmis below hchild
          · exact lower_iff w hc hw (pfxOfs ▸ hofs) hmis below hchild
        · exact wide_iff w hc hw hmis below hdown
      · have hlt : pmlen hd key < hd.pfxLen :=
          (pmlen_lt (by omega) aligned.1).mpr (by rw [pfxOfs]; exact pfxOfs ▸ hmis)
        rw [splitsTagged_node, if_pos hlt]
        exact iff_of_false Bool.false_ne_true (flat_node w hmis).not_stops
  | @tagged ofs lo t half ofs_le lo_lt pfxOfs child ih =>
      have w : Wf ofs (.tagged lo t) := .tagged half ofs_le lo_lt pfxOfs child
      have hpm : ptrPfxMatch lo t.pfxOfs key < 4 ↔ partialKey key ofs 4 ≠ lo := by
        rw [pfxOfs, ptrPfxMatch_lt lo_lt (by omega) ofs_le, Nat.add_sub_cancel]
      rw [splitsTagged]
      by_cases hmatch : partialKey key ofs 4 = lo
      · rw [if_neg (fun hlt => hpm.mp hlt hmatch), tagged_iff w hmatch]
        cases hc with
        | tagged canon => exact ih canon true
      · rw [if_pos (hpm.mpr hmatch)]
        exact iff_of_false Bool.false_ne_true (flat_tagged w hmatch).not_stops

end Runs

section Keys

variable {n : Nat} {ks : List Nat} {f : Nat → Option Nat} {T : Tree}

def Shares (n x y : Nat) : Prop := x / 2 ^ rest n = y / 2 ^ rest n

instance (n x y : Nat) : Decidable (Shares n x y) := inferInstanceAs (Decidable (_ = _))

def nextBytes (ks : List Nat) (key b : Nat) : List Nat :=
  ((ks.filter (fun x => decide (Shares b x key))).map (fun x => partialKey x b 8)).dedup

def Fills (ks : List Nat) (key b : Nat) : Prop :=
  (nextBytes ks key b).length = 16 ∧ partialKey key b 8 ∉ nextBytes ks key b

/-- A byte of `key` that has more than sixteen values, and a later one, up to which
the upper half of the first determines the keys, that a new value fills. -/
def SplitsTag (ks : List Nat) (key : Nat) : Prop :=
  ∃ j < 8, ∃ i < j, 16 < (nextBytes ks key (8 * i)).length ∧
    (∀ x ∈ ks, Shares (8 * i + 4) x key → Shares (8 * j) x key) ∧ Fills ks key (8 * j)

instance (ks : List Nat) (key b : Nat) : Decidable (Fills ks key b) :=
  inferInstanceAs (Decidable (_ ∧ _))

instance (ks : List Nat) (key : Nat) : Decidable (SplitsTag ks key) :=
  inferInstanceAs (Decidable (∃ j < 8, ∃ i < j, _ ∧ _))

theorem agrees_iff (hx : x < 2 ^ 64) (hy : y < 2 ^ 64) : Agrees 0 n x y ↔ Shares n x y := by
  rw [Agrees, ← slice_eq_iff, slice, slice, rest_zero, Nat.mod_eq_of_lt hx, Nat.mod_eq_of_lt hy,
    Shares]

theorem mem_nextBytes :
    d ∈ nextBytes ks key b ↔ ∃ x ∈ ks, Shares b x key ∧ partialKey x b 8 = d := by
  simp only [nextBytes, List.mem_dedup, List.mem_map, List.mem_filter, decide_eq_true_eq, and_assoc]

theorem many_nextBytes : Many n (· ∈ nextBytes ks key b) ↔ n ≤ (nextBytes ks key b).length :=
  ⟨fun hm => hm.le_length _ fun _ => id, fun hle => ⟨_, hle, List.nodup_dedup _, fun _ => id⟩⟩

structure HasKeys (ks : List Nat) (T : Tree) : Prop where
  wf : Wf 0 T
  lt : ∀ x ∈ ks, x < 2 ^ 64
  find : ∀ x < 2 ^ 64, find x T ≠ none ↔ x ∈ ks

variable (hT : HasKeys ks T) (hkey : key < 2 ^ 64)
include hT

theorem HasKeys.of_mem (hx : x ∈ ks) : Aert.find x T ≠ none := (hT.find x (hT.lt x hx)).mpr hx

theorem HasKeys.exists_key (hx : Aert.find x T ≠ none) : ∃ y ∈ ks, Agrees 0 64 x y := by
  have hagree : Agrees 0 64 x (x % 2 ^ 64) := fun j _ hj => by
    rw [Nat.testBit_mod_two_pow, decide_eq_true (show j < 64 from hj), Bool.true_and]
  have hlt : x % 2 ^ 64 < 2 ^ 64 := Nat.mod_lt _ (Nat.two_pow_pos 64)
  exact ⟨x % 2 ^ 64, (hT.find _ hlt).mp (find_congr hT.wf hagree ▸ hx), hagree⟩

include hkey

theorem HasKeys.bytes (hb : b + 8 ≤ 64) : BytesAt key 0 T b d ↔ d ∈ nextBytes ks key b := by
  rw [mem_nextBytes]
  constructor
  · rintro ⟨x, hx, hagree, hd⟩
    obtain ⟨y, hy, hsame⟩ := hT.exists_key hx
    refine ⟨y, hy, ?_, ?_⟩
    · exact (agrees_iff (hT.lt y hy) hkey).mp ((hsame.within le_rfl (by omega)).symm.trans hagree)
    · rw [← hd]
      exact (partialKey_agrees (.inr rfl) hb).mpr (hsame.within (by omega) hb).symm
  · rintro ⟨x, hx, hshares, hd⟩
    exact ⟨x, hT.of_mem hx, (agrees_iff (hT.lt x hx) hkey).mpr hshares, hd⟩

theorem HasKeys.many (hb : b + 8 ≤ 64) :
    Many n (BytesAt key 0 T b) ↔ n ≤ (nextBytes ks key b).length := by
  rw [← many_nextBytes]
  exact ⟨fun hm => hm.mono fun _ => (hT.bytes hkey hb).mp, fun hm => hm.mono
    fun _ => (hT.bytes hkey hb).mpr⟩

theorem HasKeys.sixteen (hdvd : 8 ∣ b) (hb : b < 64) : Sixteen key 0 T b ↔ Fills ks key b := by
  have hb8 : b + 8 ≤ 64 := by omega
  constructor
  · rintro ⟨-, -, -, many, few, absent⟩
    have hge := (hT.many hkey hb8).mp many
    have hle := mt (hT.many hkey hb8).mpr few
    exact ⟨by omega, mt (hT.bytes hkey hb8).mpr absent⟩
  · rintro ⟨hlen, habsent⟩
    exact ⟨hdvd, Nat.zero_le b, hb, (hT.many hkey hb8).mpr hlen.ge, fun hmany => by
      have := (hT.many hkey hb8).mp hmany
      omega, mt (hT.bytes hkey hb8).mp habsent⟩

theorem HasKeys.alone (hm : m ≤ 64) (hb : b ≤ 64) :
    (∀ x, Aert.find x T ≠ none → Agrees 0 m x key → Agrees 0 b x key) ↔
      ∀ x ∈ ks, Shares m x key → Shares b x key := by
  constructor
  · intro hall x hx hshares
    exact (agrees_iff (hT.lt x hx) hkey).mp
      (hall x (hT.of_mem hx) ((agrees_iff (hT.lt x hx) hkey).mpr hshares))
  · intro hall x hx hagree
    obtain ⟨y, hy, hsame⟩ := hT.exists_key hx
    have hshares := (agrees_iff (hT.lt y hy) hkey).mp ((hsame.within le_rfl hm).symm.trans hagree)
    exact (hsame.within le_rfl hb).trans ((agrees_iff (hT.lt y hy) hkey).mpr (hall y hy hshares))

theorem HasKeys.splitsTagged_iff (hc : Canon T) :
    splitsTagged key T 0 false = true ↔ SplitsTag ks key := by
  have hjams : (∃ a b, Jams key 0 T a b) ↔ SplitsTag ks key := by
    constructor
    · rintro ⟨_, _, ⟨i, rfl⟩, -, lt, split, alone, full⟩
      obtain ⟨j, rfl⟩ := full.aligned
      have hlt := full.lt
      exact ⟨j, by omega, i, by omega, (hT.many hkey (by omega)).mp split,
        (hT.alone hkey (by omega) (by omega)).mp alone, (hT.sixteen hkey full.aligned hlt).mp full⟩
    · rintro ⟨j, hj, i, hi, hsplit, halone, hfull⟩
      have hsixteen := (hT.sixteen hkey (Nat.dvd_mul_right 8 j) (by omega)).mpr hfull
      exact ⟨8 * i, 8 * j, Nat.dvd_mul_right 8 i, Nat.zero_le _, by omega,
        (hT.many hkey (by omega)).mpr hsplit,
        (hT.alone hkey (by omega) (by omega)).mpr halone, hsixteen⟩
  rw [Cow.splitsTagged_iff hT.wf hc, Stops, hjams]
  exact or_iff_left fun h => by simp at h

end Keys

section Clean

variable {t : Nat} {h : NodeHeap} {r : Option NodePtr} {T : Tree}

theorem clean_iff (us : List (Nat × Nat)) (T : Tree) : Clean us T ↔
    ∀ us₁ u us₂, us = us₁ ++ u :: us₂ → splitsTagged u.1 (inplaceAll us₁ T) 0 false = false := by
  induction us generalizing T with
  | nil => simp [Clean]
  | cons v us ih =>
      rw [Clean, ih]
      constructor
      · rintro ⟨hfirst, hrest⟩ us₁ u us₂ heq
        cases us₁ with
        | nil =>
            obtain ⟨rfl, -⟩ := List.cons.inj heq
            exact hfirst
        | cons w us₁ =>
            obtain ⟨rfl, htail⟩ := List.cons.inj heq
            exact hrest us₁ u us₂ htail
      · intro hall
        exact ⟨hall [] v us rfl, fun us₁ u us₂ heq => hall (v :: us₁) u us₂ (congrArg (v :: ·) heq)⟩

theorem hasKeys {us : List (Nat × Nat)} (hus : ∀ u ∈ us, u.1 < 2 ^ 64) :
    HasKeys (us.map Prod.fst) (build us) := by
  have hholds : Holds (writes us (fun _ => none)) (build us) := inplaceAll_holds hus holds_null
  refine ⟨hholds.wf, fun x hx => ?_, fun x hx => ?_⟩
  · obtain ⟨u, hu, rfl⟩ := List.mem_map.mp hx
    exact hus u hu
  · rw [hholds.find_eq hx, ne_eq, writes_eq_none, not_and_or, not_not]
    simp

/-- A run of updates in memory, of a tree that updates built, ends exactly if no update
fills a NODE16 below a tagged pointer; then it has computed the updates in place. -/
theorem endsAll_keys_iff (P : Tree → Prop) (elems us : List (Nat × Nat)) (helems : ∀ e ∈ elems, e.1 < 2 ^ 64)
    (hus : ∀ u ∈ us, u.1 < 2 ^ 64) (hr : Denotes (Ptr.Before t) h r (build elems)) :
    EndsAll (HoldsTree t h P) t r h us ↔
      (∀ us₁ u us₂, us = us₁ ++ u :: us₂ → ¬ SplitsTag ((elems ++ us₁).map Prod.fst) u.1) ∧
        P (inplaceAll us (build elems)) := by
  have hbuild : Holds (writes elems (fun _ => none)) (build elems) :=
    inplaceAll_holds helems holds_null
  rw [endsAll_clean_iff P us hbuild.wf hr, clean_iff]
  apply and_congr_left'
  apply forall_congr'
  intro us₁
  apply forall_congr'
  intro u
  apply forall_congr'
  intro us₂
  apply imp_congr_right
  rintro rfl
  have hboth : ∀ e ∈ elems ++ us₁, e.1 < 2 ^ 64 := by
    intro e he
    rcases List.mem_append.mp he with he | he
    exacts [helems e he, hus e (List.mem_append_left _ he)]
  have happend : build (elems ++ us₁) = inplaceAll us₁ (build elems) := List.foldl_append ..
  have hcanon : Canon (build (elems ++ us₁)) := inplaceAll_canon hboth holds_null .null
  have hkey : u.1 < 2 ^ 64 := hus u (List.mem_append_right _ List.mem_cons_self)
  rw [← happend, ← Bool.not_eq_true, (hasKeys hboth).splitsTagged_iff hkey hcanon]

def crowded : List (Nat × Nat) :=
  (List.range 16).map (fun i => (i * 2 ^ 56, i)) ++
    (List.range 16).map (fun i => (2 ^ 60 + i * 2 ^ 48, i))

theorem endsAll_keys_iff_sample :
    ¬ EndsAll (HoldsTree 1 (fun _ => none) (fun _ => True)) 1 none (fun _ => none)
      (crowded ++ [(2 ^ 60 + 16 * 2 ^ 48, 0)]) := by
  rw [endsAll_keys_iff _ [] _ (by simp) (by decide +kernel) rfl]
  exact fun hends => hends.1 crowded (2 ^ 60 + 16 * 2 ^ 48, 0) [] rfl (by decide +kernel)

end Clean

end Contrees.Trees.Aert.Cow
