import Contrees.Trees.AertNode
import Contrees.Trees.AertPrefix

namespace Contrees.Trees.Aert

open Library Library.Words Library.OrderedMap Library.Slots Word

variable {hd : Head} {ofs key val n d lo : Nat} {t : Tree} {chs : List Tree} {pkey : Option Nat}
  {ret : List (Nat × Nat)}

instance : Inhabited (Radix (Nat × Nat)) := ⟨.null⟩

def Head.prefixBits (hd : Head) : Nat :=
  slice (rest hd.pfxOfs) (rest hd.pfxOfs - hd.pfxLen) hd.pfx

mutual

/-- The words of a subtree below the bits of its parents, each with what its
leaf stores; a tagged pointer is a node with one child. -/
def Tree.radix : Tree → Radix (Nat × Nat)
  | .null => .null
  | .leaf hd val => .leaf (hd.pfx % 2 ^ rest hd.pfxOfs) (hd.pfx, val)
  | .node hd chs => .node hd.pfxLen hd.prefixBits (nodeKeyLen hd.type) (findch hd (radixes chs))
  | .tagged lo t => .node 0 0 4 (Radix.single lo t.radix)

def radixes : List Tree → List (Radix (Nat × Nat))
  | [] => []
  | t :: ts => t.radix :: radixes ts

end

theorem radixes_eq (ts : List Tree) : radixes ts = ts.map Tree.radix := by
  induction ts with
  | nil => rfl
  | cons t ts ih => rw [radixes, ih, List.map_cons]

theorem radix_node (hd : Head) (chs : List Tree) : (Tree.node hd chs).radix =
    .node hd.pfxLen hd.prefixBits (nodeKeyLen hd.type) (fun d => (findch hd chs d).radix) := by
  rw [Tree.radix, radixes_eq]
  congr 1
  funext d
  exact findch_map (f := Tree.radix) rfl d

/-- Prefixes start and end at bytes; the lower half of a split node has none. -/
def Aligned (hd : Head) : Prop :=
  8 ∣ hd.pfxLen ∧ (8 ∣ hd.pfxOfs ∨ hd.pfxOfs % 8 = 4 ∧ hd.pfxLen = 0 ∧ nodeKeyLen hd.type = 4)

inductive Wf : Nat → Tree → Prop
  | null {ofs : Nat} : Wf ofs .null
  | leaf {ofs : Nat} {hd : Head} {val : Nat} (type : hd.type = .leaf) (pfxOfs : hd.pfxOfs = ofs)
      (aligned : 8 ∣ ofs) (ofs_le : ofs ≤ 64) (pfxLen : hd.pfxLen = 64 - ofs) :
      Wf ofs (.leaf hd val)
  | node {ofs : Nat} {hd : Head} {chs : List Tree} (pfxOfs : hd.pfxOfs = ofs) (aligned : Aligned hd)
      (len_le : ofs + hd.pfxLen + nodeKeyLen hd.type ≤ 64) (head : hd.Wf chs.length)
      (full : hd.type ≠ .nodeh16 → Tree.null ∉ chs)
      (live : ∃ d < 2 ^ nodeKeyLen hd.type, findch hd chs d ≠ .null)
      (children : ∀ c ∈ chs, Wf (ofs + hd.pfxLen + nodeKeyLen hd.type) c) : Wf ofs (.node hd chs)
  | tagged {ofs lo : Nat} {t : Tree} (half : ofs % 8 = 4) (ofs_le : ofs + 4 ≤ 64)
      (lo_lt : lo < 2 ^ 4) (pfxOfs : t.pfxOfs = ofs + 4) (child : Wf (ofs + 4) t) :
      Wf ofs (.tagged lo t)

theorem nodeKeyLen_eq (type : NodeType) : nodeKeyLen type = 4 ∨ nodeKeyLen type = 8 := by
  cases type <;> simp [nodeKeyLen]

theorem nodeKeyLen_pos (type : NodeType) : 0 < nodeKeyLen type := by
  rcases nodeKeyLen_eq type with h | h <;> omega

theorem Wf.findch (h : ∀ c ∈ chs, Wf ofs c) (hd : Head) (d : Nat) : Wf ofs (findch hd chs d) := by
  rcases findch_mem hd chs d with heq | hmem
  · rw [heq]
    exact .null
  · exact h _ hmem

theorem Wf.plain_ne (h : t.pfxOfs = ofs + 4) : t ≠ .null := by
  rintro rfl
  simp [Tree.pfxOfs] at h

theorem prefixBits_lt (h : hd.pfxOfs + hd.pfxLen ≤ 64) : hd.prefixBits < 2 ^ hd.pfxLen := by
  have hlt : hd.prefixBits < 2 ^ (rest hd.pfxOfs - (rest hd.pfxOfs - hd.pfxLen)) :=
    slice_lt (Nat.sub_le _ _)
  have hr : rest hd.pfxOfs - (rest hd.pfxOfs - hd.pfxLen) = hd.pfxLen := by
    rw [rest]
    omega
  rwa [hr] at hlt

theorem rest_four (h : ofs + 4 ≤ 64) : 0 + 4 + rest (ofs + 4) = rest ofs := by
  rw [rest, rest]
  omega

theorem Wf.fits (h : Wf ofs t) : t.radix.Fits (rest ofs) := by
  induction h with
  | null => exact trivial
  | leaf _ pfxOfs => exact pfxOfs ▸ Nat.mod_lt _ (Nat.two_pow_pos _)
  | @node ofs hd chs pfxOfs _ len_le _ _ _ _ ih =>
      rw [radix_node, ← rest_add len_le, Radix.fits_node]
      refine ⟨prefixBits_lt (by omega), fun d _ => ?_⟩
      rcases findch_mem hd chs d with heq | hmem
      · rw [heq]
        exact trivial
      · exact ih _ hmem
  | @tagged ofs lo t _ ofs_le _ _ _ ih =>
      rw [Tree.radix, ← rest_four ofs_le, Radix.fits_node]
      refine ⟨by omega, fun d _ => ?_⟩
      rw [Radix.single, Function.update_apply]
      split
      · exact ih
      · exact trivial

theorem key_digits (len : Nat) {w : Nat} (hw : w = 4 ∨ w = 8) (h : ofs + len + w ≤ 64) (key : Nat) :
    key % 2 ^ rest ofs / 2 ^ (w + rest (ofs + len + w)) = slice (rest ofs) (rest ofs - len) key ∧
      key % 2 ^ rest ofs / 2 ^ rest (ofs + len + w) % 2 ^ w = partialKey key (ofs + len) w ∧
      key % 2 ^ rest ofs % 2 ^ rest (ofs + len + w) = key % 2 ^ rest (ofs + len + w) := by
  have hr := rest_add h
  have hs : rest ofs - len = w + rest (ofs + len + w) := by omega
  refine ⟨by rw [hs, slice], ?_, ?_⟩
  · rw [partialKey_eq hw h, ← hr, Radix.mod_div_pow, Radix.mod_mod_pow]
  · rw [← hr, Radix.mod_mod_pow]

theorem key_nibble (h : ofs + 4 ≤ 64) (key : Nat) :
    key % 2 ^ rest ofs / 2 ^ rest (ofs + 4) % 2 ^ 4 = partialKey key ofs 4 ∧
      key % 2 ^ rest ofs % 2 ^ rest (ofs + 4) = key % 2 ^ rest (ofs + 4) := by
  exact (key_digits 0 (.inl rfl) h key).2

theorem tagged_find (h : ofs + 4 ≤ 64) (lo key : Nat) (t : Tree) :
    (Tree.tagged lo t).radix.find (rest ofs) (key % 2 ^ rest ofs) =
      if partialKey key ofs 4 = lo then t.radix.find (rest (ofs + 4)) (key % 2 ^ rest (ofs + 4))
      else none := by
  obtain ⟨hdig, hlow⟩ := key_nibble h key
  have hfind : (Radix.node 0 0 4 (Radix.single lo t.radix)).find (0 + 4 + rest (ofs + 4))
      (key % 2 ^ rest ofs) = _ := Radix.find_node _
  have hr : 4 + rest (ofs + 4) = rest ofs := by rw [← rest_four h, Nat.zero_add]
  have hzero : key % 2 ^ rest ofs / 2 ^ (4 + rest (ofs + 4)) = 0 := by
    rw [hr]
    exact Nat.div_eq_of_lt (Nat.mod_lt _ (Nat.two_pow_pos _))
  rw [hzero, if_pos rfl, hdig, hlow, rest_four h] at hfind
  rw [Tree.radix, hfind, Radix.single, Function.update_apply]
  split <;> rfl

theorem findAt_eq (key : Nat) (chs : List Tree) (i : Nat) :
    findAt key chs i = find key (chs.getD i .null) :=
  at_eq Tree.null (fun _ => by rw [findAt, find]) (fun _ _ => rfl) (fun _ _ _ => rfl) chs i

theorem find_node_eq (key : Nat) (hd : Head) (chs : List Tree) :
    find key (.node hd chs) =
      if hd.pfxLen > pmlen hd key then none
      else
        find key
          (findch hd chs (partialKey key (hd.pfxOfs + hd.pfxLen) (nodeKeyLen hd.type))) := by
  rw [find]
  split
  · rfl
  · rw [findch]
    cases findidx hd (partialKey key (hd.pfxOfs + hd.pfxLen) (nodeKeyLen hd.type)) with
    | none => exact (find.eq_1 key).symm
    | some i => exact findAt_eq key chs _

theorem pmlen_leaf (h : hd.pfxOfs + hd.pfxLen = 64) (hdvd : 8 ∣ hd.pfxLen) :
    pmlen hd key < hd.pfxLen ↔ key % 2 ^ rest hd.pfxOfs ≠ hd.pfx % 2 ^ rest hd.pfxOfs := by
  have hz : rest hd.pfxOfs - hd.pfxLen = 0 := by
    rw [rest]
    omega
  rw [pmlen_lt h.le hdvd, hz, slice, slice, pow_zero, Nat.div_one, Nat.div_one]

/-- `find` looks a word up. -/
theorem find_radix (h : Wf ofs t) (key : Nat) :
    find key t = (t.radix.find (rest ofs) (key % 2 ^ rest ofs)).map Prod.snd := by
  induction h with
  | null => rfl
  | @leaf ofs hd val type pfxOfs aligned ofs_le pfxLen =>
      subst pfxOfs
      have hlt : hd.pfxLen > pmlen hd key ↔ _ := pmlen_leaf (by omega) (by omega)
      by_cases heq : key % 2 ^ rest hd.pfxOfs = hd.pfx % 2 ^ rest hd.pfxOfs
      · simp [find, Tree.radix, Radix.find, hlt, heq]
      · simp [find, Tree.radix, Radix.find, hlt, heq]
  | @node ofs hd chs pfxOfs aligned len_le _ _ _ _ ih =>
      subst pfxOfs
      obtain ⟨hhigh, hdig, hlow⟩ := key_digits hd.pfxLen (nodeKeyLen_eq hd.type) len_le key
      have hlt : hd.pfxLen > pmlen hd key ↔ _ := pmlen_lt (by omega) aligned.1
      rw [find_node_eq, radix_node, ← rest_add len_le, Radix.find_node, rest_add len_le, hhigh,
        hdig,
        hlow]
      by_cases heq : slice (rest hd.pfxOfs) (rest hd.pfxOfs - hd.pfxLen) key = hd.prefixBits
      · rw [if_neg fun hne => hlt.mp hne heq, if_pos heq]
        rcases findch_mem hd chs (partialKey key (hd.pfxOfs + hd.pfxLen) (nodeKeyLen hd.type)) with
          hnull | hmem
        · rw [hnull]
          rfl
        · exact ih _ hmem
      · rw [if_pos (hlt.mpr heq), if_neg heq]
        rfl
  | @tagged ofs lo t half ofs_le lo_lt pfxOfs child ih =>
      have hpm : ptrPfxMatch lo t.pfxOfs key < 4 ↔ partialKey key ofs 4 ≠ lo := by
        rw [pfxOfs, ptrPfxMatch_lt lo_lt (by omega) ofs_le, Nat.add_sub_cancel]
      rw [find, tagged_find ofs_le]
      by_cases heq : partialKey key ofs 4 = lo
      · rw [if_neg fun hne => hpm.mp hne heq, if_pos heq]
        exact ih
      · rw [if_pos (hpm.mpr heq), if_neg heq]
        rfl

end Contrees.Trees.Aert
