import Contrees.Trees.ArtCanon
import Contrees.Trees.ArtShifts
import Mathlib.Data.List.Dedup

namespace Contrees.Trees.Art

open Library Library.Memory Library.Words Library.OrderedMap Library.Slots Conctrl Word

variable {hd : Head} {ofs n m d key x y : Nat} {ks : List Nat} {T : Tree} {chs : List Tree}

section Shares

def Shares (n x y : Nat) : Prop := x / 2 ^ rest n = y / 2 ^ rest n

instance (n x y : Nat) : Decidable (Shares n x y) := inferInstanceAs (Decidable (_ = _))

theorem rest_le (h : m ≤ n) : rest n ≤ rest m := by
  rw [rest, rest]
  omega

theorem Shares.mono (h : Shares n x y) (hm : m ≤ n) : Shares m x y :=
  ((div_eq_iff_slice (rest_le hm)).mp h).1

theorem shares_iff_slice (hm : m ≤ n) (h : Shares m x y) :
    Shares n x y ↔ slice (rest m) (rest n) x = slice (rest m) (rest n) y := by
  rw [Shares, div_eq_iff_slice (rest_le hm)]
  exact and_iff_right h

theorem shares_succ (hn : n < 8) :
    Shares (n + 1) x y ↔ Shares n x y ∧ partialKey x n = partialKey y n := by
  have hdig : ∀ z, partialKey z n = slice (rest n) (rest (n + 1)) z := by
    intro z
    have hr : rest n = 8 + rest (n + 1) := by
      rw [rest, rest]
      omega
    rw [partialKey_eq hn, slice, hr, Radix.mod_div_pow]
  rw [hdig, hdig]
  exact div_eq_iff_slice (rest_le (Nat.le_succ n))

theorem shares_eight : Shares 8 x y ↔ x = y := by
  have hone : (2 : Nat) ^ rest 8 = 1 := rfl
  rw [Shares, hone, Nat.div_one, Nat.div_one]

theorem shares_zero (hx : x < 2 ^ 64) : Shares 0 x y ↔ y < 2 ^ 64 := by
  rw [Shares, rest_zero, Nat.div_eq_of_lt hx, eq_comm, Nat.div_eq_zero_iff]
  omega

theorem shares_splice (n x y : Nat) : Shares n (splice (rest n) x y) x := by
  rw [Shares, splice, Nat.mul_add_div (Nat.two_pow_pos _), Nat.mod_div_self, Nat.add_zero]

theorem slice_splice (n m x y : Nat) :
    slice (rest n) (rest m) (splice (rest n) x y) = slice (rest n) (rest m) y := by
  rw [slice, splice, Nat.mul_add_mod, Nat.mod_mod, slice]

theorem exists_digit (hn : n < 8) (hd : d < 256) (x : Nat) :
    ∃ y, Shares n y x ∧ partialKey y n = d := by
  refine ⟨splice (rest n) x (d * 2 ^ rest (n + 1)), shares_splice _ _ _, ?_⟩
  have hr : rest n = 8 + rest (n + 1) := by
    rw [rest, rest]
    omega
  rw [partialKey_eq hn, ← Radix.mod_div_pow, ← hr]
  have hslice := slice_splice n (n + 1) x (d * 2 ^ rest (n + 1))
  rw [slice, slice] at hslice
  rw [hslice, hr, Radix.mod_div_pow, Nat.mul_div_cancel _ (Nat.two_pow_pos _)]
  exact Nat.mod_eq_of_lt hd

end Shares

section Paths

/-- The bytes before a node are those of the key, the ones of its prefix its own. -/
def path (hd : Head) (key : Nat) : Nat := splice (rest hd.pfxOfs) key hd.pfx

theorem shares_path (hd : Head) (key : Nat) :
    Shares hd.pfxOfs (path hd key) key := shares_splice _ _ _

theorem shares_path_iff (h : Shares hd.pfxOfs x key) (hm : hd.pfxOfs + m ≤ 8) :
    Shares (hd.pfxOfs + m) x (path hd key) ↔
      slice (rest hd.pfxOfs) (rest hd.pfxOfs - 8 * m) x =
        slice (rest hd.pfxOfs) (rest hd.pfxOfs - 8 * m) hd.pfx := by
  have hr : rest hd.pfxOfs - 8 * m = rest (hd.pfxOfs + m) := by
    rw [rest, rest]
    omega
  rw [shares_iff_slice (Nat.le_add_right _ _) (h.trans (shares_path hd key).symm), path,
    slice_splice, hr]

theorem prefixMatch_lt_iff (h : Shares hd.pfxOfs x key) (hle : hd.pfxOfs + hd.pfxLen ≤ 8) :
    prefixMatch hd x < hd.pfxLen ↔ ¬ Shares (hd.pfxOfs + hd.pfxLen) x (path hd key) := by
  rw [prefixMatch_lt hle, shares_path_iff h hle]

theorem prefixMatch_leaves (hle : hd.pfxOfs + hd.pfxLen ≤ 8)
    (hlt : prefixMatch hd key < hd.pfxLen) :
    Shares (hd.pfxOfs + prefixMatch hd key) key (path hd key) ∧
      ¬ Shares (hd.pfxOfs + prefixMatch hd key + 1) key (path hd key) := by
  have hrefl : Shares hd.pfxOfs key key := rfl
  obtain ⟨hsame, hdif⟩ := prefixMatch_differs hle hlt
  rw [shares_path_iff hrefl (by omega), Nat.add_assoc, shares_path_iff hrefl (by omega)]
  exact ⟨hsame, hdif⟩

end Paths

section Keys

def Alike (ks : List Nat) (n m key : Nat) : Prop :=
  ∀ x ∈ ks, ∀ y ∈ ks, Shares n x key → Shares n y key → Shares m x y

/-- `key` has `n` bytes in common with some of the keys, and more with none. -/
def Parts (ks : List Nat) (n key : Nat) : Prop :=
  (∃ x ∈ ks, Shares n x key) ∧ ∀ x ∈ ks, ¬ Shares (n + 1) x key

/-- The keys do not part before byte `n`, so that a prefix goes on there. -/
def Prefixed (ks : List Nat) (n key : Nat) : Prop := 1 ≤ n ∧ Alike ks (n - 1) n key

def nextBytes (ks : List Nat) (n key : Nat) : List Nat :=
  ((ks.filter (fun x => decide (Shares n x key))).map (fun x => partialKey x n)).dedup

/-- The keys have `key` and another one that differs from it in the last byte alone. -/
def Crowded (ks : List Nat) (key : Nat) : Prop :=
  key ∈ ks ∧ ∃ x ∈ ks, x ≠ key ∧ x / 2 ^ 8 = key / 2 ^ 8

/-- The new parent of a fork has a prefix, and so has the node that it moves, where
the prefix of that one is masked. -/
def ForkRoom (masksLeaf : Prop) (ks : List Nat) (n key : Nat) : Prop :=
  Prefixed ks n key ∧ (masksLeaf ∨ ¬ Alike ks n 8 key → n + 2 ≤ 8 ∧ Alike ks n (n + 2) key)

/-- An update of `key` makes and masks no empty prefix, neither in a fork nor in a
full node that grows. -/
structure Roomy (masksLeaf : Prop) (ks : List Nat) (key : Nat) : Prop where
  crowded : ¬ Crowded ks key
  fork : ∀ n < 8, Parts ks n key → Alike ks n (n + 1) key → ForkRoom masksLeaf ks n key
  grow : ∀ n < 8, Parts ks n key → (nextBytes ks n key).length ∈ [4, 16, 48] → Prefixed ks n key

instance (ks : List Nat) (n m key : Nat) : Decidable (Alike ks n m key) :=
  inferInstanceAs (Decidable (∀ x ∈ ks, _))

instance (ks : List Nat) (n key : Nat) : Decidable (Parts ks n key) :=
  inferInstanceAs (Decidable (_ ∧ _))

instance (ks : List Nat) (n key : Nat) : Decidable (Prefixed ks n key) :=
  inferInstanceAs (Decidable (_ ∧ _))

instance (ks : List Nat) (key : Nat) : Decidable (Crowded ks key) :=
  inferInstanceAs (Decidable (_ ∧ _))

instance (masksLeaf : Prop) [Decidable masksLeaf] (ks : List Nat) (n key : Nat) :
    Decidable (ForkRoom masksLeaf ks n key) := inferInstanceAs (Decidable (_ ∧ _))

instance (masksLeaf : Prop) [Decidable masksLeaf] (ks : List Nat) (key : Nat) :
    Decidable (Roomy masksLeaf ks key) :=
  decidable_of_iff (_ ∧ (∀ n < 8, _) ∧ ∀ n < 8, _)
    ⟨fun h => ⟨h.1, h.2.1, h.2.2⟩, fun h => ⟨h.crowded, h.fork, h.grow⟩⟩

theorem mem_nextBytes : d ∈ nextBytes ks n key ↔ ∃ x ∈ ks, Shares n x key ∧ partialKey x n = d := by
  simp only [nextBytes, List.mem_dedup, List.mem_map, List.mem_filter, decide_eq_true_eq, and_assoc]

theorem Alike.mono {n' m' : Nat} (h : Alike ks n m key) (hn : n ≤ n') (hm : m' ≤ m) :
    Alike ks n' m' key :=
  fun x hx y hy hxk hyk => (h x hx y hy (hxk.mono hn) (hyk.mono hn)).mono hm

theorem Parts.absent (h : Parts ks n key) : key ∉ ks := fun hmem => h.2 key hmem rfl

theorem Parts.unique (h : Parts ks n key) (h' : Parts ks m key) : n = m := by
  have hle : ∀ {n m}, Parts ks n key → Parts ks m key → n ≤ m := by
    intro n m hn hm
    obtain ⟨x, hx, hshare⟩ := hn.1
    by_contra hlt
    exact hm.2 x hx (hshare.mono (by omega))
  exact le_antisymm (hle h h') (hle h' h)

end Keys

section Words

theorem find_leaf_iff (h : Wf hd.pfxOfs (.leaf hd n)) (hx : Shares hd.pfxOfs x key) :
    find x (.leaf hd n) ≠ none ↔ Shares 8 x (path hd key) := by
  cases h with
  | leaf _ _ ofs_le pfxLen =>
      have hend : hd.pfxOfs + hd.pfxLen = 8 := by omega
      have hlt : prefixMatch hd x < hd.pfxLen ↔ _ := prefixMatch_lt_iff hx hend.le
      rw [hend] at hlt
      rw [find]
      split <;> simp_all

theorem find_node_iff (h : Wf hd.pfxOfs (.node hd chs)) (hx : Shares hd.pfxOfs x key) :
    find x (.node hd chs) ≠ none ↔ Shares (hd.pfxOfs + hd.pfxLen) x (path hd key) ∧
      find x (findch hd chs (partialKey x (hd.pfxOfs + hd.pfxLen))) ≠ none := by
  cases h with
  | node _ len_lt _ _ _ =>
      have hlt : prefixMatch hd x < hd.pfxLen ↔ _ := prefixMatch_lt_iff hx len_lt.le
      rw [find_node_eq]
      split <;> simp_all

theorem Wf.exists_find (h : Wf ofs T) (hc : Canon T) (hne : T ≠ .null) (y : Nat) :
    ∃ x, Shares ofs x y ∧ find x T ≠ none := by
  induction h generalizing y with
  | null => exact absurd rfl hne
  | @leaf ofs hd val type pfxOfs ofs_le pfxLen =>
      subst pfxOfs
      exact ⟨path hd y, shares_path hd y, (find_leaf_iff (.leaf type rfl ofs_le pfxLen)
        (shares_path hd y)).mpr rfl⟩
  | @node ofs hd chs pfxOfs len_lt head full children ih =>
      subst pfxOfs
      cases hc with
      | node sized canon =>
          obtain ⟨d, -, -, hlive, -⟩ := sized.two head.not_leaf
          have hmem := (findch_mem hd chs d).resolve_left hlive.2
          obtain ⟨z, hz, hdig⟩ := exists_digit len_lt hlive.1 (path hd y)
          obtain ⟨x, hx, hfind⟩ := ih _ hmem (canon _ hmem) hlive.2 z
          obtain ⟨hxz, hbyte⟩ := (shares_succ len_lt).mp hx
          have hpath : Shares (hd.pfxOfs + hd.pfxLen) x (path hd y) := hxz.trans hz
          have hofs := (hpath.mono (Nat.le_add_right _ _)).trans (shares_path hd y)
          refine ⟨x, hofs, (find_node_iff (.node rfl len_lt head full children) hofs).mpr
            ⟨hpath, ?_⟩⟩
          rwa [hbyte, hdig]

end Words

section Size

theorem live_le_size (h : hd.Wf chs.length) (hn : hd.type ≠ .node256) {l : List Nat} (hl : l.Nodup)
    (hlive : ∀ d ∈ l, Live hd chs d) : l.length ≤ hd.size := by
  cases htype : hd.type with
  | node4 | node16 =>
      have hc : Compact hd := by simp [Compact, htype]
      rw [← (hc.sorted h).keys_length]
      refine (List.subperm_of_subset hl fun d hd' => ?_).length_le
      by_contra hmem
      have hfind := (hlive d hd').2
      rw [hc.findch h, look_eq_default hmem] at hfind
      exact hfind rfl
  | node48 =>
      have hs := (wf_node48 htype).mp h
      have hslot : ∀ d ∈ l, hd.keys.getD d noSlot ≠ noSlot := by
        intro d hd' hnone
        have hfind := (hlive d hd').2
        rw [slotted_findch htype, if_pos hnone] at hfind
        exact hfind rfl
      have hnodup : (l.map (hd.keys.getD · noSlot)).Nodup :=
        List.Nodup.map_on (fun d hd' e _ heq => hs.injective d e (hslot d hd') heq) hl
      have hsub : l.map (hd.keys.getD · noSlot) ⊆ List.range hd.size := by
        intro i hi
        obtain ⟨d, hd', rfl⟩ := List.mem_map.mp hi
        exact List.mem_range.mpr (hs.slot_lt d (hslot d hd'))
      simpa using (List.subperm_of_subset hnodup hsub).length_le
  | node256 => exact absurd htype hn
  | leaf => exact absurd htype h.not_leaf

theorem isFull_iff (h : hd.Wf chs.length) (hs : Sized hd chs) {l : List Nat} (hl : l.Nodup)
    (hlive : ∀ d, d ∈ l ↔ Live hd chs d) : isFull hd = true ↔ l.length ∈ [4, 16, 48] := by
  have hle := hs.least_le
  have hmany := hs.many.le_length l fun d => (hlive d).mpr
  have hsize : hd.type ≠ .node256 → l.length ≤ hd.size := fun hn =>
    live_le_size h hn hl fun d => (hlive d).mp
  simp only [List.mem_cons, List.not_mem_nil, or_false]
  cases htype : hd.type with
  | node4 =>
      obtain ⟨-, -, hupper⟩ := (wf_node4 htype).mp h
      have hsize := hsize (by simp [htype])
      simp only [Head.held, htype, reduceCtorEq, if_false] at hmany
      simp only [isFull, htype, decide_eq_true_eq]
      omega
  | node16 =>
      obtain ⟨-, hupper⟩ := (wf_node16 htype).mp h
      have hsize := hsize (by simp [htype])
      simp only [Head.held, htype, least, reduceCtorEq, if_false] at hle hmany
      simp only [isFull, htype, decide_eq_true_eq]
      omega
  | node48 =>
      have hupper := ((wf_node48 htype).mp h).size_le
      have hsize := hsize (by simp [htype])
      simp only [Head.held, htype, least, reduceCtorEq, if_false] at hle hmany
      simp only [isFull, htype, decide_eq_true_eq]
      omega
  | node256 =>
      simp only [Head.held, htype, if_true] at hmany
      simp only [isFull, htype, Bool.false_eq_true, false_iff]
      omega
  | leaf => exact absurd htype h.not_leaf

end Size

section Ends

structure Under (ks : List Nat) (key ofs : Nat) (T : Tree) : Prop where
  wf : Wf ofs T
  canon : Canon T
  keys : ∀ x, Shares ofs x key → (find x T ≠ none ↔ x ∈ ks)
  start : ofs = 0 ∨ ¬ Alike ks (ofs - 1) ofs key

structure Covers (ks : List Nat) (key : Nat) (hd : Head) : Prop where
  start : hd.pfxOfs = 0 ∨ ¬ Alike ks (hd.pfxOfs - 1) hd.pfxOfs key
  le : hd.pfxOfs + hd.pfxLen ≤ 8
  leaf : hd.type = .leaf ↔ hd.pfxOfs + hd.pfxLen = 8
  alike : Alike ks hd.pfxOfs (hd.pfxOfs + hd.pfxLen) key

inductive Stops (ks : List Nat) (key : Nat) (hd : Head) : Prop
  | fork (lt : prefixMatch hd key < hd.pfxLen)
      (parts : Parts ks (hd.pfxOfs + prefixMatch hd key) key)
      (branch : hd.type ≠ .leaf →
        ¬ Alike ks (hd.pfxOfs + prefixMatch hd key) (hd.pfxOfs + hd.pfxLen + 1) key)
  | found (type : hd.type = .leaf) (not_lt : ¬ prefixMatch hd key < hd.pfxLen) (mem : key ∈ ks)
  | gap (type : hd.type ≠ .leaf) (not_lt : ¬ prefixMatch hd key < hd.pfxLen)
      (parts : Parts ks (hd.pfxOfs + hd.pfxLen) key)
      (branch : ¬ Alike ks (hd.pfxOfs + hd.pfxLen) (hd.pfxOfs + hd.pfxLen + 1) key)
      (full : isFull hd = true ↔ (nextBytes ks (hd.pfxOfs + hd.pfxLen) key).length ∈ [4, 16, 48])
      (absent : isFull hd = true → findIdx hd (partialKey key (hd.pfxOfs + hd.pfxLen)) = none)

theorem Under.covers_leaf {val : Nat} (h : Under ks key hd.pfxOfs (.leaf hd val)) :
    Covers ks key hd := by
  have hwf := h.wf
  cases hwf with
  | leaf type _ ofs_le pfxLen =>
      have hend : hd.pfxOfs + hd.pfxLen = 8 := by omega
      refine ⟨h.start, hend.le, iff_of_true type hend, fun x hx y hy hxk hyk => ?_⟩
      have hx := (find_leaf_iff h.wf hxk).mp ((h.keys x hxk).mpr hx)
      have hy := (find_leaf_iff h.wf hyk).mp ((h.keys y hyk).mpr hy)
      rw [hend]
      exact hx.trans hy.symm

theorem Under.stops_leaf {val : Nat} (h : Under ks key hd.pfxOfs (.leaf hd val)) :
    Stops ks key hd := by
  have hcovers := h.covers_leaf
  have hwf := h.wf
  cases hwf with
  | leaf type _ ofs_le pfxLen =>
      have hend : hd.pfxOfs + hd.pfxLen = 8 := by omega
      by_cases hlt : prefixMatch hd key < hd.pfxLen
      · obtain ⟨hsame, hdif⟩ := prefixMatch_leaves hend.le hlt
        refine .fork hlt ⟨⟨path hd key, ?_, hsame.symm⟩, fun x hx hxk => hdif ?_⟩
          fun hn => absurd type hn
        · exact (h.keys _ (shares_path hd key)).mp
            ((find_leaf_iff h.wf (shares_path hd key)).mpr rfl)
        · have hofs := hxk.mono (show hd.pfxOfs ≤ hd.pfxOfs + prefixMatch hd key + 1 by omega)
          have hpath := (find_leaf_iff h.wf hofs).mp ((h.keys x hofs).mpr hx)
          exact hxk.symm.trans (hpath.mono (by omega))
      · refine .found type hlt ((h.keys key rfl).mp ((find_leaf_iff h.wf rfl).mpr ?_))
        have hmatch := not_not.mp (mt (prefixMatch_lt_iff rfl hend.le).mpr hlt)
        rwa [hend] at hmatch

theorem Under.on_path (h : Under ks key hd.pfxOfs (.node hd chs)) (hx : x ∈ ks)
    (hxk : Shares hd.pfxOfs x key) : Shares (hd.pfxOfs + hd.pfxLen) x (path hd key) :=
  ((find_node_iff h.wf hxk).mp ((h.keys x hxk).mpr hx)).1

theorem Under.exists_key (h : Under ks key hd.pfxOfs (.node hd chs)) (hlive : Live hd chs d) :
    ∃ x ∈ ks, Shares (hd.pfxOfs + hd.pfxLen) x (path hd key) ∧
      partialKey x (hd.pfxOfs + hd.pfxLen) = d := by
  have hwf := h.wf
  cases hwf with
  | node _ len_lt _ _ children =>
      have hcanon : Canon (findch hd chs d) := by
        have hcanon := h.canon
        cases hcanon with
        | node _ canon => exact Canon.findch (F := id) .null canon hd d
      obtain ⟨y, hy, hdig⟩ := exists_digit len_lt hlive.1 (path hd key)
      obtain ⟨x, hx, hfind⟩ := (Wf.findch children hd d).exists_find hcanon hlive.2 y
      obtain ⟨hxy, hbyte⟩ := (shares_succ len_lt).mp hx
      have hpath : Shares (hd.pfxOfs + hd.pfxLen) x (path hd key) := hxy.trans hy
      have hofs := (hpath.mono (Nat.le_add_right _ _)).trans (shares_path hd key)
      refine ⟨x, (h.keys x hofs).mp ((find_node_iff h.wf hofs).mpr ⟨hpath, ?_⟩), hpath,
        hbyte.trans hdig⟩
      rwa [hbyte, hdig]

theorem Under.covers_node (h : Under ks key hd.pfxOfs (.node hd chs)) : Covers ks key hd := by
  have hwf := h.wf
  cases hwf with
  | node _ len_lt head _ _ =>
      exact ⟨h.start, len_lt.le, iff_of_false head.not_leaf len_lt.ne,
        fun x hx y hy hxk hyk => (h.on_path hx hxk).trans (h.on_path hy hyk).symm⟩

theorem Under.live (h : Under ks key hd.pfxOfs (.node hd chs)) :
    ∃ d e, d ≠ e ∧ Live hd chs d ∧ Live hd chs e := by
  have hwf := h.wf
  have hcanon := h.canon
  cases hwf with
  | node _ _ head _ _ =>
      cases hcanon with
      | node sized _ => exact sized.two head.not_leaf

theorem Under.branches (h : Under ks key hd.pfxOfs (.node hd chs)) (hn : n ≤ hd.pfxOfs + hd.pfxLen)
    (hkey : Shares n key (path hd key)) : ¬ Alike ks n (hd.pfxOfs + hd.pfxLen + 1) key := by
  intro halike
  obtain ⟨d, e, hne, hd', he⟩ := h.live
  obtain ⟨x, hx, hxp, rfl⟩ := h.exists_key hd'
  obtain ⟨y, hy, hyp, rfl⟩ := h.exists_key he
  have hshare := halike x hx y hy ((hxp.mono hn).trans hkey.symm) ((hyp.mono hn).trans hkey.symm)
  have hwf := h.wf
  cases hwf with
  | node _ len_lt _ _ _ => exact hne ((shares_succ len_lt).mp hshare).2

theorem Under.stops_fork (h : Under ks key hd.pfxOfs (.node hd chs))
    (hlt : prefixMatch hd key < hd.pfxLen) : Stops ks key hd := by
  obtain ⟨hsame, hdif⟩ := prefixMatch_leaves h.covers_node.le hlt
  refine .fork hlt ⟨?_, fun x hx hxk => hdif ?_⟩ fun _ => h.branches (by omega) hsame
  · obtain ⟨d, -, -, hlive, -⟩ := h.live
    obtain ⟨x, hx, hxp, -⟩ := h.exists_key hlive
    exact ⟨x, hx, (hxp.mono (by omega)).trans hsame.symm⟩
  · have hofs := hxk.mono (show hd.pfxOfs ≤ hd.pfxOfs + prefixMatch hd key + 1 by omega)
    exact hxk.symm.trans ((h.on_path hx hofs).mono (by omega))

theorem Under.mem_nextBytes (h : Under ks key hd.pfxOfs (.node hd chs))
    (hkey : Shares (hd.pfxOfs + hd.pfxLen) key (path hd key)) :
    d ∈ nextBytes ks (hd.pfxOfs + hd.pfxLen) key ↔ Live hd chs d := by
  rw [Art.mem_nextBytes]
  constructor
  · rintro ⟨x, hx, hxk, rfl⟩
    have hofs := hxk.mono (Nat.le_add_right _ _)
    have hfind := ((find_node_iff h.wf hofs).mp ((h.keys x hofs).mpr hx)).2
    have hwf := h.wf
    cases hwf with
    | node _ len_lt _ _ _ =>
        refine ⟨partialKey_lt len_lt, fun hnull => hfind ?_⟩
        rw [hnull, find]
  · intro hlive
    obtain ⟨x, hx, hxp, hbyte⟩ := h.exists_key hlive
    exact ⟨x, hx, hxp.trans hkey.symm, hbyte⟩

theorem Under.stops_gap (h : Under ks key hd.pfxOfs (.node hd chs))
    (hlt : ¬ prefixMatch hd key < hd.pfxLen)
    (hnull : findch hd chs (partialKey key (hd.pfxOfs + hd.pfxLen)) = .null) : Stops ks key hd := by
  have hkey := not_not.mp (mt (prefixMatch_lt_iff rfl h.covers_node.le).mpr hlt)
  have hwf := h.wf
  have hcanon := h.canon
  cases hwf with
  | node _ len_lt head full _ =>
      cases hcanon with
      | node sized _ =>
          refine .gap head.not_leaf hlt ⟨?_, fun x hx hxk => ?_⟩ (h.branches le_rfl hkey)
            (isFull_iff head sized (List.nodup_dedup _) fun d => h.mem_nextBytes hkey)
              fun hfull => ?_
          · obtain ⟨d, -, -, hlive, -⟩ := h.live
            obtain ⟨x, hx, hxp, -⟩ := h.exists_key hlive
            exact ⟨x, hx, hxp.trans hkey.symm⟩
          · have hofs := hxk.mono (show hd.pfxOfs ≤ hd.pfxOfs + hd.pfxLen + 1 by omega)
            have hfind := ((find_node_iff h.wf hofs).mp ((h.keys x hofs).mpr hx)).2
            rw [((shares_succ len_lt).mp hxk).2, hnull] at hfind
            exact hfind (find.eq_1 x)
          · have hn : hd.type ≠ .node256 := by
              intro hn
              simp [isFull, hn] at hfull
            by_contra hsome
            obtain ⟨idx, hi⟩ := Option.ne_none_iff_exists'.mp hsome
            have hlt := slot_lt head hn hi
            rw [findch_eq_getch hi, getch, List.getD_eq_getElem?_getD, List.getElem?_eq_getElem hlt,
              Option.getD_some] at hnull
            exact full hn (hnull ▸ List.getElem_mem hlt)

theorem Under.child (h : Under ks key hd.pfxOfs (.node hd chs))
    (hlt : ¬ prefixMatch hd key < hd.pfxLen) : Under ks key (hd.pfxOfs + hd.pfxLen + 1)
      (findch hd chs (partialKey key (hd.pfxOfs + hd.pfxLen))) := by
  have hkey := not_not.mp (mt (prefixMatch_lt_iff rfl h.covers_node.le).mpr hlt)
  have hwf := h.wf
  have hcanon := h.canon
  cases hwf with
  | node _ len_lt _ _ children =>
      cases hcanon with
      | node _ canon =>
          refine ⟨Wf.findch children hd _, Canon.findch (F := id) .null canon hd _, fun x hxk => ?_,
            .inr (h.branches le_rfl hkey)⟩
          obtain ⟨hpath, hbyte⟩ := (shares_succ len_lt).mp hxk
          have hofs := hpath.mono (Nat.le_add_right _ _)
          rw [← h.keys x hofs, find_node_iff h.wf hofs, hbyte]
          exact (and_iff_right (hpath.trans hkey)).symm

theorem Under.ends (h : Under ks key ofs T) (hne : T ≠ .null) :
    ∃ hd, endHead key T = some hd ∧ Covers ks key hd ∧ Stops ks key hd := by
  have hwf := h.wf
  induction hwf with
  | null => exact absurd rfl hne
  | @leaf ofs hd val type pfxOfs ofs_le pfxLen =>
      subst pfxOfs
      exact ⟨hd, by rw [endHead], h.covers_leaf, h.stops_leaf⟩
  | @node ofs hd chs pfxOfs len_lt head full children ih =>
      subst pfxOfs
      by_cases hlt : prefixMatch hd key < hd.pfxLen
      · exact ⟨hd, by rw [endHead, if_pos hlt], h.covers_node, h.stops_fork hlt⟩
      · have hchild := h.child hlt
        by_cases hnull : findch hd chs (partialKey key (hd.pfxOfs + hd.pfxLen)) = .null
        · refine ⟨hd, ?_, h.covers_node, h.stops_gap hlt hnull⟩
          cases hi : findIdx hd (partialKey key (hd.pfxOfs + hd.pfxLen)) with
          | none => simp only [endHead, if_neg hlt, hi]
          | some idx =>
              rw [endHead_go hlt hi, ← findch_eq_getch hi, hnull, endHead, Option.none_or]
        · have hmem := (findch_mem hd chs _).resolve_left hnull
          obtain ⟨last, hlast, hspec⟩ := ih _ hmem hchild hnull
          refine ⟨last, ?_, hspec⟩
          cases hi : findIdx hd (partialKey key (hd.pfxOfs + hd.pfxLen)) with
          | none => exact absurd (findch_eq_default hi) hnull
          | some idx =>
              rw [endHead_go hlt hi, ← findch_eq_getch hi, hlast, Option.some_or]

end Ends

section Conditions

theorem Covers.prefixed_iff (h : Covers ks key hd) (hn : hd.pfxOfs ≤ n)
    (hn' : n ≤ hd.pfxOfs + hd.pfxLen) : Prefixed ks n key ↔ hd.pfxOfs < n := by
  constructor
  · rintro ⟨hpos, halike⟩
    by_contra hle
    obtain rfl : hd.pfxOfs = n := by omega
    rcases h.start with hzero | hbranch
    · omega
    · exact hbranch halike
  · intro hlt
    exact ⟨by omega, h.alike.mono (by omega) hn'⟩

theorem crowded_iff (hc : Covers ks key hd) (hs : Stops ks key hd) :
    Crowded ks key ↔ ¬ hd.pfxOfs < 8 := by
  have hseven : ∀ x, x / 2 ^ 8 = key / 2 ^ 8 ↔ Shares 7 x key := fun x => Iff.rfl
  cases hs with
  | fork lt parts _ =>
      have hle := hc.le
      exact iff_of_false (fun h => parts.absent h.1) (by omega)
  | gap type _ parts _ _ _ =>
      have hle := hc.le
      have hne := mt hc.leaf.mpr type
      exact iff_of_false (fun h => parts.absent h.1) (by omega)
  | found type _ mem =>
      have hend := hc.leaf.mp type
      have halike := hc.alike
      rw [hend] at halike
      constructor
      · rintro ⟨-, x, hx, hne, hhigh⟩ hlt
        have hshare : Shares hd.pfxOfs x key := ((hseven x).mp hhigh).mono (by omega)
        exact hne (shares_eight.mp (halike x hx key mem hshare rfl))
      · intro hlt
        have hofs : hd.pfxOfs = 8 := by omega
        refine ⟨mem, ?_⟩
        by_contra hnone
        refine (hc.start.resolve_left (by omega)) fun x hx y hy hxk hyk => ?_
        rw [hofs] at hxk hyk ⊢
        have heq : ∀ z ∈ ks, Shares 7 z key → z = key := by
          intro z hz hzk
          by_contra hne
          exact hnone ⟨z, hz, hne, hzk⟩
        rw [heq x hx hxk, heq y hy hyk]
        rfl

theorem findOk_iff (hc : Covers ks key hd) (hs : Stops ks key hd) :
    FindOk hd ↔ ¬ Crowded ks key := by
  rw [crowded_iff hc hs, not_not, FindOk]

theorem forkRoom_iff {masksLeaf : Prop} (hc : Covers ks key hd)
    (hlt : prefixMatch hd key < hd.pfxLen) (branch : hd.type ≠ .leaf →
      ¬ Alike ks (hd.pfxOfs + prefixMatch hd key) (hd.pfxOfs + hd.pfxLen + 1) key) :
    ForkRoom masksLeaf ks (hd.pfxOfs + prefixMatch hd key) key ↔ 1 ≤ prefixMatch hd key ∧
      (hd.type = .leaf → masksLeaf → prefixMatch hd key + 1 < hd.pfxLen) ∧
        (hd.type ≠ .leaf → prefixMatch hd key + 1 < hd.pfxLen) := by
  have hle := hc.le
  have halike := hc.alike.mono (Nat.le_add_right hd.pfxOfs (prefixMatch hd key)) le_rfl
  have hleaf : Alike ks (hd.pfxOfs + prefixMatch hd key) 8 key ↔ hd.type = .leaf := by
    refine ⟨fun h => ?_, fun h => hc.leaf.mp h ▸ halike⟩
    by_contra hn
    exact branch hn (h.mono le_rfl (by have := mt hc.leaf.mpr hn; omega))
  have hroom : (hd.pfxOfs + prefixMatch hd key + 2 ≤ 8 ∧
      Alike ks (hd.pfxOfs + prefixMatch hd key) (hd.pfxOfs + prefixMatch hd key + 2) key) ↔
        prefixMatch hd key + 1 < hd.pfxLen := by
    constructor
    · rintro ⟨hend, h⟩
      by_contra hge
      by_cases hn : hd.type = .leaf
      · have := hc.leaf.mp hn
        omega
      · exact branch hn (h.mono le_rfl (by omega))
    · exact fun h => ⟨by omega, halike.mono le_rfl (by omega)⟩
  rw [ForkRoom, hc.prefixed_iff (by omega) (by omega), hroom, hleaf]
  constructor
  · rintro ⟨hpos, h⟩
    exact ⟨by omega, fun _ hmasks => h (.inl hmasks), fun hn => h (.inr hn)⟩
  · rintro ⟨hpos, hmasked, hn⟩
    refine ⟨by omega, fun h => ?_⟩
    by_cases htype : hd.type = .leaf
    · exact hmasked htype (h.resolve_right fun h => h htype)
    · exact hn htype

/-- An update is in range where its search ends if and only if the keys leave it room. -/
theorem updateOk_iff {masksLeaf : Prop} (hc : Covers ks key hd) (hs : Stops ks key hd) :
    UpdateOk masksLeaf key hd ↔ Roomy masksLeaf ks key := by
  have hcrowded := crowded_iff hc hs
  have hle := hc.le
  cases hs with
  | fork lt parts branch =>
      have hfork : ForkRoom masksLeaf ks _ key ↔ _ := forkRoom_iff hc lt branch
      have halike := hc.alike.mono (Nat.le_add_right hd.pfxOfs (prefixMatch hd key))
        (show hd.pfxOfs + prefixMatch hd key + 1 ≤ _ by omega)
      constructor
      · rintro ⟨hofs, hroom, -⟩
        refine ⟨fun h => hcrowded.mp h hofs, fun n _ hparts _ => ?_, fun n _ hparts hcount => ?_⟩
        · obtain rfl := hparts.unique parts
          exact hfork.mpr (hroom lt)
        · obtain rfl := hparts.unique parts
          exact (hfork.mpr (hroom lt)).1
      · intro h
        have hroom := hfork.mp (h.fork _ (by omega) parts halike)
        exact ⟨not_not.mp (mt hcrowded.mpr h.crowded), fun _ => hroom, fun hn => absurd lt hn⟩
  | found type not_lt mem =>
      constructor
      · rintro ⟨hofs, -, -⟩
        exact ⟨fun h => hcrowded.mp h hofs, fun n _ hparts => absurd mem hparts.absent,
          fun n _ hparts => absurd mem hparts.absent⟩
      · intro h
        exact ⟨not_not.mp (mt hcrowded.mpr h.crowded), fun hlt => absurd hlt not_lt,
          fun _ hn => absurd type hn⟩
  | gap type not_lt parts branch full absent =>
      have hend := mt hc.leaf.mpr type
      have hprefixed := hc.prefixed_iff (Nat.le_add_right hd.pfxOfs hd.pfxLen) le_rfl
      constructor
      · rintro ⟨hofs, -, hextend⟩
        refine ⟨fun h => hcrowded.mp h hofs, fun n _ hparts halike => ?_,
          fun n _ hparts hcount => ?_⟩
        · obtain rfl := hparts.unique parts
          exact absurd halike branch
        · obtain rfl := hparts.unique parts
          have hfull := full.mpr hcount
          have := hextend not_lt type hfull (absent hfull)
          exact hprefixed.mpr (by omega)
      · intro h
        refine ⟨not_not.mp (mt hcrowded.mpr h.crowded), fun hlt => absurd hlt not_lt,
          fun _ _ hfull _ => ?_⟩
        have := hprefixed.mp (h.grow _ (by omega) parts (full.mp hfull))
        omega

theorem roomy_of_none {masksLeaf : Prop} (h : ∀ x ∈ ks, ¬ Shares 0 x key) :
    Roomy masksLeaf ks key := by
  have hparts : ∀ n, ¬ Parts ks n key := by
    rintro n ⟨⟨x, hx, hshare⟩, -⟩
    exact h x hx (hshare.mono (Nat.zero_le n))
  exact ⟨fun hc => h key hc.1 rfl, fun n _ hp => absurd hp (hparts n),
    fun n _ hp => absurd hp (hparts n)⟩

theorem Under.endsWell_iff {P : Head → Prop} {Q : Prop} (h : Under ks key 0 T)
    (hnone : (∀ x ∈ ks, ¬ Shares 0 x key) → Q)
    (hiff : ∀ hd, Covers ks key hd → Stops ks key hd → (P hd ↔ Q)) : EndsWell P key T ↔ Q := by
  by_cases hne : T = .null
  · subst hne
    refine iff_of_true (by simp [EndsWell, endHead]) (hnone fun x hx hshare => ?_)
    exact (h.keys x hshare).mpr hx (find.eq_1 x)
  · obtain ⟨hd, hlast, hcovers, hstops⟩ := h.ends hne
    rw [EndsWell, hlast]
    simpa using hiff hd hcovers hstops

end Conditions

section Reachability

variable {us : List (Nat × Nat)}

/-- The trees that updates make, in place or through the handlers, with the updates. -/
inductive Reachable : List (Nat × Nat) → Tree → Prop
  | null : Reachable [] .null
  | inplace {us : List (Nat × Nat)} {T : Tree} {key : Nat} (hT : Reachable us T)
      (hkey : key < 2 ^ 64) (val : Nat) : Reachable (us ++ [(key, val)]) (updateInplace key val T 0)
  | cow {us : List (Nat × Nat)} {T T' : Tree} {key : Nat} {t fuel : Nat} {h h' : NodeHeap}
      {r : Option NodePtr} {ctx : Context} (hT : Reachable us T) (hkey : key < 2 ^ 64) (val : Nat)
      (hr : Denotes (Ptr.Before t) h r T)
      (hrun : interface.run next t fuel 0 (interface.start t key val r) h = some (ctx, h'))
      (hT' : Denotes (Ptr.Before (t + 1)) h' ctx.root T') : Reachable (us ++ [(key, val)]) T'

theorem Reachable.sound (hT : Reachable us T) : Serves (writes us (fun _ => none)) T ∧ Canon T := by
  induction hT with
  | null => exact ⟨holds_null.serves, .null⟩
  | inplace _ hkey val ih =>
      rw [writes_append]
      exact ⟨ih.1.inplace hkey val, updateInplace_canon ih.1.wf ih.2 (Nat.zero_le 8) _ val⟩
  | @cow us T T' key t fuel h h' r ctx _ hkey val hr hrun hT' ih =>
      obtain ⟨fuel', res, hrun', hden⟩ := update_ends key val hr
      have hres : (ctx, h') = res := by
        have h₁ := Handlers.run_le (Nat.le_max_left fuel fuel') hrun
        have h₂ := Handlers.run_le (Nat.le_max_right fuel fuel') hrun'
        exact Option.some.inj (h₁.symm.trans h₂)
      subst hres
      obtain rfl := hT'.unique hden
      rw [writes_append]
      exact ⟨ih.1.update hkey val, cowUpdate_canon ih.1.wf ih.2 (Nat.zero_le 8) _ val⟩

theorem Reachable.under (hT : Reachable us T) (hkey : key < 2 ^ 64) :
    Under (us.map Prod.fst) key 0 T := by
  obtain ⟨hserves, hcanon⟩ := hT.sound
  refine ⟨hserves.wf, hcanon, fun x hx => ?_, .inl rfl⟩
  have hlt := (shares_zero hkey).mp hx.symm
  rw [hserves.find x hlt, ne_eq, writes_eq_none, eq_self, and_true, not_not]

def HandlersOk (t : Nat) (h : NodeHeap) (r : Option NodePtr) (key val : Nat) : Prop :=
  ∃ fuel res, interface.run next t fuel 0 (interface.start t key val r) h = some res ∧
    AllOk (runEvals t fuel 0 (interface.start t key val r) h)

theorem handlersOk_iff {t : Nat} {h : NodeHeap} {r : Option NodePtr}
    (hr : Denotes (Ptr.Before t) h r T)
    (key val : Nat) : HandlersOk t h r key val ↔ AllOk (cowEvals key T 0) := by
  have hfollows := update_follows key val hr
  constructor
  · rintro ⟨fuel, res, hrun, hok⟩
    rwa [hfollows fuel 0 res hrun] at hok
  · intro hok
    obtain ⟨fuel, res, hrun, -⟩ := update_ends key val hr
    refine ⟨fuel, res, hrun, ?_⟩
    rwa [hfollows fuel 0 res hrun]

def KeyOk (T : Tree) (key val : Nat) : Prop :=
  AllOk (findEvals key T) ∧ AllOk (scanEvals key T) ∧ AllOk (updateInplaceEvals key T 0) ∧
    ∀ t h r, Denotes (Ptr.Before t) h r T → HandlersOk t h r key val

/-- Lookups shift out of range for the keys that share all but their last byte with
another one: their LEAFs start after the last byte, and `prefix_match` shifts by
64. Updates do so for these and where a prefix gets empty, for which `prefix_mask`
shifts by 64. -/
theorem shifts_ok_iff (hT : Reachable us T) (hkey : key < 2 ^ 64) (val : Nat) :
    (AllOk (findEvals key T) ↔ ¬ Crowded (us.map Prod.fst) key) ∧
      (AllOk (scanEvals key T) ↔ ¬ Crowded (us.map Prod.fst) key) ∧
      (AllOk (updateInplaceEvals key T 0) ↔ Roomy False (us.map Prod.fst) key) ∧
      ∀ t h r, Denotes (Ptr.Before t) h r T →
        (HandlersOk t h r key val ↔ Roomy True (us.map Prod.fst) key) := by
  have hwf := hT.sound.1.wf
  have hunder := hT.under hkey
  have hfind : EndsWell FindOk key T ↔ ¬ Crowded (us.map Prod.fst) key :=
    hunder.endsWell_iff (fun hnone hc => hnone key hc.1 rfl) fun hd => findOk_iff
  have hupdate : ∀ {b : Prop}, EndsWell (UpdateOk b key) key T ↔ Roomy b (us.map Prod.fst) key :=
    hunder.endsWell_iff roomy_of_none fun hd => updateOk_iff
  refine ⟨(find_searches.allOk_iff hwf (Nat.zero_le 8)).trans hfind,
    (scan_searches.allOk_iff hwf (Nat.zero_le 8)).trans hfind,
    (inplace_searches.allOk_iff hwf (Nat.zero_le 8)).trans hupdate, fun t h r hr => ?_⟩
  exact (handlersOk_iff hr key val).trans
    ((cow_searches.allOk_iff hwf (Nat.zero_le 8)).trans hupdate)

def fourLeaves : List (Nat × Nat) := [(0, 0), (2 ^ 32, 1), (2 * 2 ^ 32, 2), (3 * 2 ^ 32, 3)]

theorem inplaceAll_reachable (hT : Reachable us T) {vs : List (Nat × Nat)}
    (hvs : ∀ v ∈ vs, v.1 < 2 ^ 64) :
    Reachable (us ++ vs) (inplaceAll vs T) := by
  induction vs generalizing us T with
  | nil =>
      rw [List.append_nil]
      exact hT
  | cons v vs ih =>
      have htail := ih (hT.inplace (hvs v List.mem_cons_self) v.2) fun v' hv' =>
        hvs v' (List.mem_cons_of_mem v hv')
      rwa [List.append_assoc] at htail

/-- The NODE4 grows, one of its LEAFs forks, and it forks itself. -/
theorem shifts_ok_iff_sample : KeyOk (inplaceAll fourLeaves .null) (4 * 2 ^ 32) 4 ∧
    KeyOk (inplaceAll fourLeaves .null) (2 ^ 16) 4 ∧ KeyOk (inplaceAll fourLeaves .null) (2 ^ 48) 4 := by
  have hT : Reachable fourLeaves (inplaceAll fourLeaves .null) :=
    inplaceAll_reachable .null (by decide)
  have hok : ∀ key < 2 ^ 64, ¬ Crowded (fourLeaves.map Prod.fst) key →
      Roomy False (fourLeaves.map Prod.fst) key → Roomy True (fourLeaves.map Prod.fst) key →
        KeyOk (inplaceAll fourLeaves .null) key 4 := by
    intro key hkey hcrowded hroomy hroomy'
    obtain ⟨hfind, hscan, hinplace, hhandlers⟩ := shifts_ok_iff hT hkey 4
    exact ⟨hfind.mpr hcrowded, hscan.mpr hcrowded, hinplace.mpr hroomy,
      fun t h r hr => (hhandlers t h r hr).mpr hroomy'⟩
  refine ⟨hok _ ?_ ?_ ?_ ?_, hok _ ?_ ?_ ?_ ?_, hok _ ?_ ?_ ?_ ?_⟩ <;> decide

instance : DecidablePred Eval.Ok := fun e =>
  match e with
  | .shift count => inferInstanceAs (Decidable (0 ≤ count ∧ count < 64))
  | .call ofs len => inferInstanceAs (Decidable (ofs + len ≤ 8))

instance (es : List Eval) : Decidable (AllOk es) := inferInstanceAs (Decidable (∀ e ∈ es, e.Ok))

/-- The keys 0 and 1 fork at the last byte, and a search for one of them ends in
a LEAF at offset 8. -/
theorem shift_64 : ¬ ∀ (us : List (Nat × Nat)) (T : Tree) (key val : Nat), Reachable us T →
    key < 2 ^ 64 → KeyOk T key val := by
  intro hall
  have hT : Reachable [(0, 0), (1, 0)] (updateInplace 1 0 (updateInplace 0 0 .null 0) 0) :=
    .inplace (.inplace .null (by decide) 0) (by decide) 0
  obtain ⟨hfind, -⟩ := hall _ _ 0 0 hT (by decide)
  exact absurd hfind (by decide)

end Reachability

end Contrees.Trees.Art
