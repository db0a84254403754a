import Contrees.Trees.ArtPrefix

namespace Contrees.Trees.Art

open Library Library.Words Library.OrderedMap Library.Slots Word

variable {hd : Head} {ofs key val n d : Nat} {t : Tree} {chs : List Tree} {pkey : Option Nat}
  {ret : List (Nat × Nat)}

instance : Inhabited (Radix (Nat × Nat)) := ⟨.null⟩

def Head.prefixBits (hd : Head) : Nat :=
  slice (rest hd.pfxOfs) (rest hd.pfxOfs - 8 * hd.pfxLen) hd.pfx

mutual

/-- The words of a subtree below the bits of its parents, each with what its
leaf stores. -/
def Tree.radix : Tree → Radix (Nat × Nat)
  | .null => .null
  | .leaf hd val => .leaf (hd.pfx % 2 ^ rest hd.pfxOfs) (hd.pfx, val)
  | .node hd chs => .node (8 * hd.pfxLen) hd.prefixBits 8 (findch hd (radixes chs))

def radixes : List Tree → List (Radix (Nat × Nat))
  | [] => []
  | t :: ts => t.radix :: radixes ts

end

theorem radixes_eq (ts : List Tree) : radixes ts = ts.map Tree.radix := by
  induction ts with
  | nil => rfl
  | cons t ts ih => rw [radixes, ih, List.map_cons]

theorem radix_node (hd : Head) (chs : List Tree) : (Tree.node hd chs).radix =
    .node (8 * hd.pfxLen) hd.prefixBits 8 (fun d => (findch hd chs d).radix) := by
  rw [Tree.radix, radixes_eq]
  congr 1
  funext d
  exact findch_map (f := Tree.radix) rfl d

inductive Wf : Nat → Tree → Prop
  | null {ofs : Nat} : Wf ofs .null
  | leaf {ofs : Nat} {hd : Head} {val : Nat} (type : hd.type = .leaf) (pfxOfs : hd.pfxOfs = ofs)
      (ofs_le : ofs ≤ 8) (pfxLen : hd.pfxLen = 8 - ofs) : Wf ofs (.leaf hd val)
  | node {ofs : Nat} {hd : Head} {chs : List Tree} (pfxOfs : hd.pfxOfs = ofs)
      (len_lt : ofs + hd.pfxLen < 8) (head : hd.Wf chs.length)
      (full : hd.type ≠ .node256 → Tree.null ∉ chs)
      (children : ∀ c ∈ chs, Wf (ofs + hd.pfxLen + 1) c) : Wf ofs (.node hd chs)

theorem findch_mem (hd : Head) (chs : List Tree) (d : Nat) :
    findch hd chs d = .null ∨ findch hd chs d ∈ chs := by
  rw [findch]
  cases findIdx hd d with
  | none => exact .inl rfl
  | some i =>
      simp only [getch, List.getD_eq_getElem?_getD]
      cases hc : chs[slot hd i]? with
      | none => exact .inl rfl
      | some c => exact .inr (List.mem_of_getElem? hc)

theorem Wf.findch (h : ∀ c ∈ chs, Wf ofs c) (hd : Head) (d : Nat) : Wf ofs (findch hd chs d) := by
  rcases findch_mem hd chs d with heq | hmem
  · rw [heq]
    exact .null
  · exact h _ hmem

theorem prefixBits_lt (h : hd.pfxOfs + hd.pfxLen ≤ 8) : hd.prefixBits < 2 ^ (8 * hd.pfxLen) := by
  have hlt : hd.prefixBits < 2 ^ (rest hd.pfxOfs - (rest hd.pfxOfs - 8 * hd.pfxLen)) :=
    slice_lt (Nat.sub_le _ _)
  have hr : rest hd.pfxOfs - (rest hd.pfxOfs - 8 * hd.pfxLen) = 8 * hd.pfxLen := by
    rw [rest]
    omega
  rwa [hr] at hlt

theorem Wf.fits (h : Wf ofs t) : t.radix.Fits (rest ofs) := by
  induction h with
  | null => exact trivial
  | leaf _ pfxOfs => exact pfxOfs ▸ Nat.mod_lt _ (Nat.two_pow_pos _)
  | @node ofs hd chs pfxOfs len_lt _ _ _ ih =>
      rw [radix_node, ← rest_add len_lt, Radix.fits_node]
      refine ⟨prefixBits_lt (by omega), fun d _ => ?_⟩
      rcases findch_mem hd chs d with heq | hmem
      · rw [heq]
        exact trivial
      · exact ih _ hmem

theorem key_digits {len : Nat} (h : ofs + len < 8) (key : Nat) :
    key % 2 ^ rest ofs / 2 ^ (8 + rest (ofs + len + 1)) = slice (rest ofs) (rest ofs - 8 * len) key ∧
      key % 2 ^ rest ofs / 2 ^ rest (ofs + len + 1) % 2 ^ 8 = partialKey key (ofs + len) ∧
      key % 2 ^ rest ofs % 2 ^ rest (ofs + len + 1) = key % 2 ^ rest (ofs + len + 1) := by
  have hr := rest_add h
  have hs : rest ofs - 8 * len = 8 + rest (ofs + len + 1) := by omega
  refine ⟨by rw [hs, slice], ?_, ?_⟩
  · rw [partialKey_eq h, ← hr, Radix.mod_div_pow, Radix.mod_mod_pow]
  · rw [← hr, Radix.mod_mod_pow]

theorem findAt_eq (key : Nat) (chs : List Tree) (i : Nat) :
    findAt key chs i = find key (chs.getD i .null) :=
  at_eq Tree.null (fun _ => by rw [findAt, find]) (fun _ _ => rfl) (fun _ _ _ => rfl) chs i

theorem find_node_eq (key : Nat) (hd : Head) (chs : List Tree) : find key (.node hd chs) =
    if prefixMatch hd key < hd.pfxLen then none
    else find key (findch hd chs (partialKey key (hd.pfxOfs + hd.pfxLen))) := by
  rw [find]
  split
  · rfl
  · rw [findch]
    cases findIdx hd (partialKey key (hd.pfxOfs + hd.pfxLen)) with
    | none => exact (find.eq_1 key).symm
    | some i => exact findAt_eq key chs _

/-- `find` looks a word up. -/
theorem find_radix (h : Wf ofs t) (key : Nat) :
    find key t = (t.radix.find (rest ofs) (key % 2 ^ rest ofs)).map Prod.snd := by
  induction h with
  | null => rfl
  | @leaf ofs hd val type pfxOfs ofs_le pfxLen =>
      subst pfxOfs
      have hlt : prefixMatch hd key < hd.pfxLen ↔ _ := prefixMatch_lt (by omega)
      have hz : rest hd.pfxOfs - 8 * hd.pfxLen = 0 := by
        rw [rest]
        omega
      simp only [hz, slice, pow_zero, Nat.div_one] at hlt
      by_cases heq : key % 2 ^ rest hd.pfxOfs = hd.pfx % 2 ^ rest hd.pfxOfs
      · simp [find, Tree.radix, Radix.find, hlt, heq]
      · simp [find, Tree.radix, Radix.find, hlt, heq]
  | @node ofs hd chs pfxOfs len_lt _ _ _ ih =>
      subst pfxOfs
      obtain ⟨hhigh, hdig, hlow⟩ := key_digits len_lt key
      have hlt : prefixMatch hd key < hd.pfxLen ↔ _ := prefixMatch_lt len_lt.le
      rw [find_node_eq, radix_node, ← rest_add len_lt, Radix.find_node, rest_add len_lt, hhigh, hdig,
        hlow]
      by_cases heq : slice (rest hd.pfxOfs) (rest hd.pfxOfs - 8 * hd.pfxLen) key = hd.prefixBits
      · rw [if_neg fun hne => hlt.mp hne heq, if_pos heq]
        rcases findch_mem hd chs (partialKey key (hd.pfxOfs + hd.pfxLen)) with hnull | hmem
        · rw [hnull]
          rfl
        · exact ih _ hmem
      · rw [if_pos (hlt.mpr heq), if_neg heq]
        rfl

section Scan

theorem scanEach_eq (n : Nat) (ts : List Tree) : scanEach n ts = ts.map (scanAppend n · none) := by
  induction ts with
  | nil => rfl
  | cons t ts ih => rw [scanEach, ih, List.map_cons]

theorem scanSearchAt_eq (key n : Nat) (chs : List Tree) (i : Nat) (ret : List (Nat × Nat)) :
    scanSearchAt key n chs i ret = scanSearch key n (chs.getD i .null) ret :=
  congrFun (at_eq Tree.null (fun _ => by funext ret; rw [scanSearchAt, scanSearch]) (fun _ _ => rfl) (fun _ _ _ => rfl) chs i) ret

theorem scanAppend_node (h : Wf ofs (.node hd chs)) (ih : ∀ c ∈ chs, c ≠ .null →
      ∀ ret : List (Nat × Nat), ret.length < n →
        scanAppend n c none ret = some (ret ++ c.radix.values.take (n - ret.length)))
    (pkey : Option Nat) (ret : List (Nat × Nat)) :
    scanAppend n (.node hd chs) pkey ret = some (ret ++
      ((digits pkey).flatMap (fun d => (findch hd chs d).radix.values)).take (n - ret.length)) := by
  cases h with
  | node _ _ head full _ =>
      have hheld : ((visited hd chs pkey).flatMap fun i => (chs.getD i .null).radix.values) = _ :=
        visited_spec (f := fun t => t.radix.values) head rfl
      rw [scanAppend, scanEach_eq, ← hheld]
      refine foldlM_take (fun i hi ret hlt => ?_) ret
      obtain ⟨c, hc, hne⟩ := visited_ne head full i hi
      have hscan : (chs.map (scanAppend n · none)).getD i (fun _ => none) = scanAppend n c none := by
        simp [hc]
      have hget : chs.getD i .null = c := by simp [hc]
      rw [hscan, hget]
      exact ih c (List.mem_of_getElem? hc) hne ret hlt

theorem scanAppend_eq (h : Wf ofs t) (hne : t ≠ .null) (hlt : ret.length < n) :
    scanAppend n t none ret = some (ret ++ t.radix.values.take (n - ret.length)) := by
  induction h generalizing ret with
  | null => exact absurd rfl hne
  | leaf =>
      obtain ⟨m, hm⟩ : ∃ m, n - ret.length = m + 1 := ⟨n - ret.length - 1, by omega⟩
      simp [scanAppend, Tree.radix, Radix.values, hm]
  | @node ofs hd chs pfxOfs len_lt head full children ih =>
      rw [scanAppend_node (.node pfxOfs len_lt head full children)
        (fun c hc hne ret hlt => ih c hc hne hlt), radix_node]
      rfl

theorem scanSearch_node (key n : Nat) (hd : Head) (chs : List Tree) (ret : List (Nat × Nat)) :
    scanSearch key n (.node hd chs) ret =
      if prefixMatch hd key < hd.pfxLen then
        if partialKey hd.pfx (hd.pfxOfs + prefixMatch hd key) <
          partialKey key (hd.pfxOfs + prefixMatch hd key) then some ret
        else scanAppend n (.node hd chs) none ret
      else
        (scanSearch key n (findch hd chs (partialKey key (hd.pfxOfs + hd.pfxLen))) ret).bind
          (scanAppend n (.node hd chs) (some (partialKey key (hd.pfxOfs + hd.pfxLen)))) := by
  have hnull : scanSearch key n default ret = some ret := scanSearch.eq_1 key n ret
  have hnull' : (default : Tree) = .null := rfl
  simp only [scanSearch, findch, scanSearchAt_eq, getch, hnull']
  cases hi : findIdx hd (partialKey key (hd.pfxOfs + hd.pfxLen)) with
  | none => simp only [scanSearch]
  | some i => rfl

/-- `scan_search` appends the leaves from the key on. -/
theorem scanSearch_eq (h : Wf ofs t) (key : Nat) (hlt : ret.length < n) :
    scanSearch key n t ret = some (ret ++
      (t.radix.valuesFrom (rest ofs) (key % 2 ^ rest ofs)).take (n - ret.length)) := by
  induction h generalizing ret with
  | null => simp [scanSearch, Tree.radix]
  | @leaf ofs hd val type pfxOfs ofs_le pfxLen =>
      subst pfxOfs
      obtain ⟨m, hm⟩ : ∃ m, n - ret.length = m + 1 := ⟨n - ret.length - 1, by omega⟩
      have hz : rest hd.pfxOfs - 8 * hd.pfxLen = 0 := by
        rw [rest]
        omega
      have hpm : prefixMatch hd key < hd.pfxLen ↔ _ := prefixMatch_lt (by omega)
      rw [Tree.radix, Radix.valuesFrom_leaf, hm]
      simp only [hz, slice, pow_zero, Nat.div_one] at hpm
      rw [scanSearch]
      by_cases hmis : prefixMatch hd key < hd.pfxLen
      · have hord := prefix_order (show hd.pfxOfs + hd.pfxLen ≤ 8 by omega) hmis
        simp only [hz, slice, pow_zero, Nat.div_one] at hord
        rw [if_pos hmis]
        split
        · rw [if_pos ‹_›] at hord
          rw [if_neg (by omega)]
          simp
        · rw [if_neg ‹_›] at hord
          rw [if_pos (by omega)]
          simp [scanAppend]
      · have heq := not_not.mp (mt hpm.mpr hmis)
        rw [if_neg hmis, if_pos heq.le]
        simp
  | @node ofs hd chs pfxOfs len_lt head full children ih =>
      subst pfxOfs
      have happend : ∀ pkey ret, scanAppend n (.node hd chs) pkey ret = _ :=
        scanAppend_node (.node rfl len_lt head full children)
          (fun c hc hne ret hlt => scanAppend_eq (children c hc) hne hlt)
      have hfits := Wf.fits (.node rfl len_lt head full children)
      have hpm : prefixMatch hd key < hd.pfxLen ↔ _ := prefixMatch_lt len_lt.le
      obtain ⟨hhigh, hdig, hlow⟩ := key_digits len_lt key
      rw [radix_node, ← rest_add len_lt] at hfits ⊢
      rw [rest_add len_lt, scanSearch_node]
      by_cases hmis : prefixMatch hd key < hd.pfxLen
      · have hord := prefix_order len_lt.le hmis
        rw [if_pos hmis]
        split
        · rw [if_pos ‹_›] at hord
          have hlower := Radix.valuesFrom_lower hfits (hhigh ▸ hord)
          rw [rest_add len_lt] at hlower
          rw [hlower, List.take_nil, List.append_nil]
        · rw [if_neg ‹_›] at hord
          have hhigher := Radix.valuesFrom_higher hfits (hhigh ▸ hord)
          rw [rest_add len_lt] at hhigher
          rw [hhigher, happend]
          rfl
      · have heq := not_not.mp (mt hpm.mpr hmis)
        have hpath := Radix.valuesFrom_path hfits (hhigh.trans heq) hdig
        rw [rest_add len_lt, hlow] at hpath
        have hchild : scanSearch key n (findch hd chs (partialKey key (hd.pfxOfs + hd.pfxLen))) ret =
            some (ret ++ ((findch hd chs (partialKey key (hd.pfxOfs + hd.pfxLen))).radix.valuesFrom
              (rest (hd.pfxOfs + hd.pfxLen + 1))
              (key % 2 ^ rest (hd.pfxOfs + hd.pfxLen + 1))).take (n - ret.length)) := by
          rcases findch_mem hd chs (partialKey key (hd.pfxOfs + hd.pfxLen)) with hnull | hmem
          · rw [hnull]
            simp [scanSearch, Tree.radix]
          · exact ih _ hmem hlt
        rw [if_neg hmis, hpath, hchild, Option.bind_some, happend]
        exact congrArg some (SearchTree.Multiway.take_append_take n ret _ _)

end Scan

section Update

theorem radix_set {new : Head} {chs' : List Tree} {c : Tree} {w : Nat × Nat}
    (hlen : new.pfxLen = hd.pfxLen)
    (hpfx : new.prefixBits = hd.prefixBits) (len_lt : hd.pfxOfs + hd.pfxLen < 8)
    (hmatch : slice (rest hd.pfxOfs) (rest hd.pfxOfs - 8 * hd.pfxLen) key = hd.prefixBits)
    (hch : findch new chs' =
      Function.update (findch hd chs) (partialKey key (hd.pfxOfs + hd.pfxLen)) c)
    (hc : c.radix.find (rest (hd.pfxOfs + hd.pfxLen + 1)) = Function.update
      ((findch hd chs (partialKey key (hd.pfxOfs + hd.pfxLen))).radix.find
        (rest (hd.pfxOfs + hd.pfxLen + 1))) (key % 2 ^ rest (hd.pfxOfs + hd.pfxLen + 1)) (some w)) :
    (Tree.node new chs').radix.find (rest hd.pfxOfs) =
      Function.update ((Tree.node hd chs).radix.find (rest hd.pfxOfs)) (key % 2 ^ rest hd.pfxOfs)
        (some w) := by
  obtain ⟨hhigh, hdig, hlow⟩ := key_digits len_lt key
  have hchs : (fun d => (findch new chs' d).radix) = Function.update
      (fun d => (findch hd chs d).radix) (partialKey key (hd.pfxOfs + hd.pfxLen)) c.radix := by
    funext d
    rw [hch, Function.update_apply, Function.update_apply]
    split <;> rfl
  have hkey := Radix.digits_eq 8 (rest (hd.pfxOfs + hd.pfxLen + 1)) (key % 2 ^ rest hd.pfxOfs)
  rw [hhigh, hdig, hlow, hmatch] at hkey
  rw [radix_node, radix_node, hchs, hlen, hpfx, ← rest_add len_lt,
    Radix.find_set (partialKey_lt len_lt) (Nat.mod_lt _ (Nat.two_pow_pos _)) hc, hkey,
    rest_add len_lt]

theorem newLeaf_wf (h : ofs ≤ 8) (key val : Nat) : Wf ofs (newLeaf ofs key val) :=
  .leaf rfl rfl h rfl

theorem newLeaf_find (key val : Nat) : (newLeaf ofs key val).radix.find (rest ofs) =
    Function.update (fun _ => none) (key % 2 ^ rest ofs) (some (key, val)) :=
  Radix.find_leaf

theorem updateAt_eq (key val : Nat) (chs : List Tree) (i ofs : Nat) :
    updateAt key val chs i ofs = updateInplace key val (chs.getD i .null) ofs :=
  congrFun (at_eq Tree.null (fun _ => by funext ofs; rw [updateAt, updateInplace]) (fun _ _ => rfl) (fun _ _ _ => rfl) chs i) ofs

/-- A node and how it is made from its head; below the new parent of a fork it
holds the same words. -/
structure Forks (t : Tree) (hd : Head) (old : Head → Tree) : Prop where
  same : t = old hd
  ne : ∀ hd, old hd ≠ .null
  shorten : ∀ m, m < hd.pfxLen → Wf hd.pfxOfs t → Wf (hd.pfxOfs + m + 1) (old (shorten hd m))
  split : ∀ m, m < hd.pfxLen → Wf hd.pfxOfs t →
    (Radix.node (8 * m) (slice (rest hd.pfxOfs) (rest hd.pfxOfs - 8 * m) hd.pfx) 8
      (Radix.single (partialKey hd.pfx (hd.pfxOfs + m)) (old (Art.shorten hd m)).radix)).find
        (rest hd.pfxOfs) = t.radix.find (rest hd.pfxOfs)

theorem forks_leaf (hd : Head) (val : Nat) : Forks (.leaf hd val) hd (.leaf · val) := by
  refine ⟨rfl, by simp, fun m hm h => ?_, fun m hm h => ?_⟩
  · cases h with
    | leaf type _ ofs_le pfxLen =>
        refine .leaf type rfl ?_ ?_
        · omega
        · simp only [shorten]
          omega
  · cases h with
    | leaf type _ ofs_le pfxLen =>
        have hlt : hd.pfxOfs + m < 8 := by omega
        obtain ⟨hhigh, hdig, hlow⟩ := key_digits hlt hd.pfx
        have hsplit := Radix.find_split_leaf (8 * m) 8 (rest (hd.pfxOfs + m + 1))
          (hd.pfx % 2 ^ rest hd.pfxOfs) (v := (hd.pfx, val))
        rw [hhigh, hdig, hlow, rest_add hlt] at hsplit
        have hleaf : (Tree.leaf (Art.shorten hd m) val).radix =
            .leaf (hd.pfx % 2 ^ rest (hd.pfxOfs + m + 1)) (hd.pfx, val) := by
          simp only [Tree.radix, shorten, type, if_true, Nat.add_assoc]
        rw [hleaf, hsplit]
        rfl

theorem shorten_prefixBits {m : Nat} (type : hd.type ≠ .leaf) (hm : m < hd.pfxLen)
    (hle : hd.pfxOfs + hd.pfxLen ≤ 8) :
    (shorten hd m).prefixBits = hd.prefixBits % 2 ^ (8 * (hd.pfxLen - (m + 1))) := by
  have hmask : (shorten hd m).prefixBits = slice (rest (hd.pfxOfs + (m + 1)))
      (rest (hd.pfxOfs + (m + 1)) - 8 * (hd.pfxLen - (m + 1))) hd.pfx := by
    simp only [Head.prefixBits, shorten, if_neg type]
    exact slice_prefixMask (by omega)
  have hs : rest (hd.pfxOfs + (m + 1)) - 8 * (hd.pfxLen - (m + 1)) =
      rest hd.pfxOfs - 8 * hd.pfxLen := by
    rw [rest, rest]
    omega
  have ht : 8 * (hd.pfxLen - (m + 1)) =
      rest (hd.pfxOfs + (m + 1)) - (rest hd.pfxOfs - 8 * hd.pfxLen) := by
    rw [rest, rest]
    omega
  rw [hmask, hs, ht, Head.prefixBits, slice_mod]
  · rw [rest, rest]
    omega
  · rw [rest, rest]
    omega

theorem Head.Wf.not_leaf {m : Nat} (h : hd.Wf m) : hd.type ≠ .leaf := by
  intro hn
  simp [Head.Wf, hn] at h

theorem shorten_node {m : Nat} (h : Wf hd.pfxOfs (.node hd chs)) (hm : m < hd.pfxLen) :
    (Tree.node (shorten hd m) chs).radix = .node (8 * (hd.pfxLen - (m + 1)))
      (hd.prefixBits % 2 ^ (8 * (hd.pfxLen - (m + 1)))) 8 (fun d => (findch hd chs d).radix) := by
  cases h with
  | node _ len_lt head full children =>
      rw [radix_node, shorten_prefixBits head.not_leaf hm len_lt.le]
      rfl

theorem forks_node (hd : Head) (chs : List Tree) : Forks (.node hd chs) hd (.node · chs) := by
  refine ⟨rfl, by simp, fun m hm h => ?_, fun m hm h => ?_⟩
  · cases h with
    | node _ len_lt head full children =>
        have hofs : hd.pfxOfs + m + 1 + (shorten hd m).pfxLen = hd.pfxOfs + hd.pfxLen := by
          simp only [shorten]
          omega
        exact .node rfl (by rw [hofs]; exact len_lt) (head.carry rfl rfl rfl) full
          (by rw [hofs]; exact children)
  · have hnode := shorten_node h hm
    cases h with
    | node _ len_lt head full children =>
        have hsplit := Radix.find_split (8 * m) 8 (8 * (hd.pfxLen - (m + 1))) 8
          (rest (hd.pfxOfs + hd.pfxLen + 1)) hd.prefixBits (fun d => (findch hd chs d).radix)
        have hlen : 8 * m + 8 + 8 * (hd.pfxLen - (m + 1)) = 8 * hd.pfxLen := by omega
        have hlen' : 8 * m + 8 + (8 * (hd.pfxLen - (m + 1)) + 8 + rest (hd.pfxOfs + hd.pfxLen + 1)) =
            rest hd.pfxOfs := by
          rw [← rest_add len_lt]
          omega
        have hdig := slice_digit (x := hd.pfx) (show hd.pfxOfs + m < 8 by omega)
        have hmid : hd.prefixBits / 2 ^ (8 * (hd.pfxLen - (m + 1))) =
            slice (rest hd.pfxOfs) (rest hd.pfxOfs - 8 * (m + 1)) hd.pfx := by
          rw [Head.prefixBits, ← slice_slice (show rest hd.pfxOfs - 8 * hd.pfxLen ≤
            rest hd.pfxOfs - 8 * (m + 1) by omega)]
          congr 2
          rw [rest]
          omega
        have hhigh : hd.prefixBits / 2 ^ (8 + 8 * (hd.pfxLen - (m + 1))) =
            slice (rest hd.pfxOfs) (rest hd.pfxOfs - 8 * m) hd.pfx := by
          rw [Radix.div_div_pow, hmid, hdig, Nat.add_comm, Nat.add_mul_div_right _ _ (by norm_num),
            Nat.div_eq_of_lt (partialKey_lt (by omega)), Nat.zero_add]
        rw [hlen, hlen', rest_add len_lt, hhigh, hmid, hdig, Nat.mul_add_mod',
          Nat.mod_eq_of_lt (partialKey_lt (by omega))] at hsplit
        rw [hnode, hsplit, radix_node]

def word (t : Tree) (ofs key : Nat) : Nat :=
  (t.radix.find (rest ofs) (key % 2 ^ rest ofs)).elim key Prod.fst

structure Updates (t t' : Tree) (ofs key val : Nat) : Prop where
  wf : Wf ofs t'
  ne : t' ≠ .null
  find : t'.radix.find (rest ofs) = Function.update (t.radix.find (rest ofs)) (key % 2 ^ rest ofs)
    (some (word t ofs key, val))

theorem word_of_absent (h : t.radix.find (rest ofs) (key % 2 ^ rest ofs) = none) :
    word t ofs key = key := by
  rw [word, h]
  rfl

theorem forkHead_radix {m pk0 pk1 : Nat} (x y : Tree) (hm : ofs + m < 8) (hne : pk0 ≠ pk1)
    (h0 : pk0 < 2 ^ 8) (h1 : pk1 < 2 ^ 8) :
    (Tree.node (forkHead ofs m key pk0 pk1) (pairUp pk0 pk1 x y)).radix =
      .node (8 * m) (slice (rest ofs) (rest ofs - 8 * m) key) 8
        (Function.update (Radix.single pk0 x.radix) pk1 y.radix) := by
  have hpfx : (forkHead ofs m key pk0 pk1).prefixBits = slice (rest ofs) (rest ofs - 8 * m) key :=
    slice_prefixMask hm.le
  have hch : (fun d => (findch (forkHead ofs m key pk0 pk1) (pairUp pk0 pk1 x y) d).radix) =
      Function.update (Radix.single pk0 x.radix) pk1 y.radix := by
    funext d
    rw [(forkHead_spec ofs m key x y hne h0 h1).2, Function.update_apply, Radix.single,
      Function.update_apply]
    by_cases hd0 : d = pk0
    · rw [if_pos hd0, if_pos hd0, if_neg (hd0 ▸ hne)]
    · rw [if_neg hd0, if_neg hd0]
      split <;> rfl
  rw [radix_node, hpfx, hch]
  rfl

theorem forkHead_wf {m pk0 pk1 : Nat} {x y : Tree} (hm : ofs + m < 8) (hne : pk0 ≠ pk1)
    (h0 : pk0 < 2 ^ 8) (h1 : pk1 < 2 ^ 8) (hx : Wf (ofs + m + 1) x) (hy : Wf (ofs + m + 1) y)
    (hx' : x ≠ .null) (hy' : y ≠ .null) :
    Wf ofs (.node (forkHead ofs m key pk0 pk1) (pairUp pk0 pk1 x y)) := by
  refine .node rfl hm (forkHead_spec ofs m key x y hne h0 h1).1 (fun _ hnull => ?_) fun c hc => ?_
  · rcases mem_pairUp.mp hnull with heq | heq
    exacts [hx' heq.symm, hy' heq.symm]
  · rcases mem_pairUp.mp hc with rfl | rfl
    exacts [hx, hy]

theorem fork_updates {old : Head → Tree} (hf : Forks t hd old) (h : Wf hd.pfxOfs t)
    (hle : hd.pfxOfs + hd.pfxLen ≤ 8) (hlt : prefixMatch hd key < hd.pfxLen)
    (habs : find key t = none) (val : Nat) :
    Updates t (nodeForkInplace hd old hd.pfxOfs (prefixMatch hd key) key val) hd.pfxOfs key val := by
  have hm : hd.pfxOfs + prefixMatch hd key < 8 := by omega
  have hsame := (prefixMatch_differs hle hlt).1
  have hne : partialKey hd.pfx (hd.pfxOfs + prefixMatch hd key) ≠
      partialKey key (hd.pfxOfs + prefixMatch hd key) := by
    have hdif := (prefixMatch_differs hle hlt).2
    rw [slice_digit hm, slice_digit hm, hsame] at hdif
    omega
  have h0 : partialKey hd.pfx (hd.pfxOfs + prefixMatch hd key) < 2 ^ 8 := partialKey_lt hm
  have h1 : partialKey key (hd.pfxOfs + prefixMatch hd key) < 2 ^ 8 := partialKey_lt hm
  refine ⟨forkHead_wf hm hne h0 h1 (hf.shorten _ hlt h) (newLeaf_wf hm key val) (hf.ne _)
    (by simp [newLeaf]), by simp [nodeForkInplace], ?_⟩
  have hword : word t hd.pfxOfs key = key := by
    apply word_of_absent
    rw [find_radix h] at habs
    simpa using habs
  obtain ⟨hhigh, hdig, hlow⟩ := key_digits hm key
  have hkey := Radix.digits_eq 8 (rest (hd.pfxOfs + prefixMatch hd key + 1)) (key % 2 ^ rest hd.pfxOfs)
  rw [hhigh, hdig, hlow] at hkey
  have hleaf : (newLeaf (hd.pfxOfs + prefixMatch hd key + 1) key val).radix.find
      (rest (hd.pfxOfs + prefixMatch hd key + 1)) = Function.update
        ((Radix.single (partialKey hd.pfx (hd.pfxOfs + prefixMatch hd key))
          (old (shorten hd (prefixMatch hd key))).radix
            (partialKey key (hd.pfxOfs + prefixMatch hd key))).find
          (rest (hd.pfxOfs + prefixMatch hd key + 1)))
        (key % 2 ^ rest (hd.pfxOfs + prefixMatch hd key + 1)) (some (key, val)) := by
    rw [Radix.single, Function.update_of_ne (Ne.symm hne), newLeaf_find]
    rfl
  have hset : (Radix.node (8 * prefixMatch hd key) (slice (rest hd.pfxOfs)
      (rest hd.pfxOfs - 8 * prefixMatch hd key) key) 8 (Function.update
        (Radix.single (partialKey hd.pfx (hd.pfxOfs + prefixMatch hd key))
          (old (shorten hd (prefixMatch hd key))).radix)
        (partialKey key (hd.pfxOfs + prefixMatch hd key))
        (newLeaf (hd.pfxOfs + prefixMatch hd key + 1) key val).radix)).find
          (8 * prefixMatch hd key + 8 + rest (hd.pfxOfs + prefixMatch hd key + 1)) = _ :=
    Radix.find_set h1 (Nat.mod_lt _ (Nat.two_pow_pos _)) hleaf
  rw [rest_add hm, hkey] at hset
  rw [nodeForkInplace, forkHead_radix _ _ hm hne h0 h1, hset, ← hf.split _ hlt h, hword, hsame]

theorem updateInplace_node (key val ofs : Nat) (hd : Head) (chs : List Tree) :
    updateInplace key val (.node hd chs) ofs =
      if prefixMatch hd key < hd.pfxLen then
        nodeForkInplace hd (.node · chs) ofs (prefixMatch hd key) key val
      else
        match findIdx hd (partialKey key (ofs + hd.pfxLen)) with
        | some idx => .node hd (setch hd chs idx
            (updateInplace key val (getch hd chs idx) (ofs + hd.pfxLen + 1)))
        | none =>
            if isFull hd then
              .node (append (nodeExtend hd) (partialKey key (ofs + hd.pfxLen))).2
                (setch (append (nodeExtend hd) (partialKey key (ofs + hd.pfxLen))).2
                  (copychAt (append (nodeExtend hd) (partialKey key (ofs + hd.pfxLen))).2 hd chs
                    (append (nodeExtend hd) (partialKey key (ofs + hd.pfxLen))).1)
                  (append (nodeExtend hd) (partialKey key (ofs + hd.pfxLen))).1
                  (newLeaf (ofs + hd.pfxLen + 1) key val))
            else
              .node (append hd (partialKey key (ofs + hd.pfxLen))).2
                (insertch (append hd (partialKey key (ofs + hd.pfxLen))).2 chs
                  (append hd (partialKey key (ofs + hd.pfxLen))).1
                  (newLeaf (ofs + hd.pfxLen + 1) key val)) := by
  simp only [updateInplace, updateAt_eq]
  rfl

theorem word_node (len_lt : hd.pfxOfs + hd.pfxLen < 8)
    (hmatch : slice (rest hd.pfxOfs) (rest hd.pfxOfs - 8 * hd.pfxLen) key = hd.prefixBits) :
    word (.node hd chs) hd.pfxOfs key =
      word (findch hd chs (partialKey key (hd.pfxOfs + hd.pfxLen))) (hd.pfxOfs + hd.pfxLen + 1) key := by
  obtain ⟨hhigh, hdig, hlow⟩ := key_digits len_lt key
  have hnode : (Radix.node (8 * hd.pfxLen) hd.prefixBits 8 (fun d => (findch hd chs d).radix)).find
      (8 * hd.pfxLen + 8 + rest (hd.pfxOfs + hd.pfxLen + 1)) (key % 2 ^ rest hd.pfxOfs) = _ :=
    Radix.find_node _
  rw [rest_add len_lt, hhigh, hdig, hlow, if_pos hmatch] at hnode
  rw [word, word, radix_node, hnode]

theorem nodeExtend_carries (hn : hd.type ≠ .node256) (hle : hd.pfxOfs + hd.pfxLen ≤ 8) :
    (nodeExtend hd).pfxOfs = hd.pfxOfs ∧ (nodeExtend hd).pfxLen = hd.pfxLen ∧
      (nodeExtend hd).prefixBits = hd.prefixBits := by
  have hmask := slice_prefixMask (x := hd.pfx) hle
  cases htype : hd.type with
  | node4 | node16 | node48 =>
      simp only [Head.prefixBits, nodeExtend, htype, newNode, reduceCtorEq, if_false]
      exact ⟨trivial, trivial, hmask⟩
  | node256 => exact absurd htype hn
  | leaf =>
      simp [nodeExtend, htype]

theorem append_carries (hd : Head) (d : Nat) : (append hd d).2.pfxOfs = hd.pfxOfs ∧
    (append hd d).2.pfxLen = hd.pfxLen ∧ (append hd d).2.prefixBits = hd.prefixBits := by
  cases hn : hd.type <;> simp [append, grow, hn, Head.prefixBits]

theorem node_updates {new : Head} {chs' : List Tree} {c : Tree} (h : Wf hd.pfxOfs (.node hd chs))
    (hmis : ¬ prefixMatch hd key < hd.pfxLen)
    (hnew : new.pfxOfs = hd.pfxOfs ∧ new.pfxLen = hd.pfxLen ∧ new.prefixBits = hd.prefixBits)
    (hspec : findch new chs' =
        Function.update (findch hd chs) (partialKey key (hd.pfxOfs + hd.pfxLen)) c ∧
      new.Wf chs'.length)
    (hmem : ∀ c' ∈ chs', c' = c ∨ c' ∈ chs ∨ new.type = .node256 ∧ c' = .null)
    (hc : Updates (findch hd chs (partialKey key (hd.pfxOfs + hd.pfxLen))) c
      (hd.pfxOfs + hd.pfxLen + 1) key val)
    (hfull : new.type ≠ .node256 → hd.type ≠ .node256) :
    Updates (.node hd chs) (.node new chs') hd.pfxOfs key val := by
  obtain ⟨hofs, hlen, hpfx⟩ := hnew
  cases h with
  | node _ len_lt head full children =>
      have hmatch : slice (rest hd.pfxOfs) (rest hd.pfxOfs - 8 * hd.pfxLen) key = hd.prefixBits :=
        not_not.mp (mt (prefixMatch_lt len_lt.le).mpr hmis)
      refine ⟨.node hofs (hlen ▸ len_lt) hspec.2 (fun hn hnull => ?_) fun c' hc' => ?_, by simp, ?_⟩
      · rcases hmem _ hnull with heq | hmem | ⟨h256, -⟩
        exacts [hc.ne heq.symm, full (hfull hn) hmem, hn h256]
      · rw [hlen]
        rcases hmem c' hc' with rfl | hmem | ⟨-, rfl⟩
        exacts [hc.wf, children c' hmem, .null]
      · rw [word_node len_lt hmatch]
        exact radix_set hlen hpfx len_lt hmatch hspec.1 hc.find

/-- `update_inplace` writes one word. -/
theorem updateInplace_updates (h : Wf ofs t) (hofs : ofs ≤ 8) (key val : Nat) :
    Updates t (updateInplace key val t ofs) ofs key val := by
  induction h with
  | null =>
      refine ⟨newLeaf_wf hofs key val, by simp [updateInplace, newLeaf], ?_⟩
      rw [updateInplace, newLeaf_find]
      rfl
  | @leaf ofs hd old type pfxOfs ofs_le pfxLen =>
      subst pfxOfs
      have h : Wf hd.pfxOfs (.leaf hd old) := .leaf type rfl ofs_le pfxLen
      rw [updateInplace]
      by_cases hmis : prefixMatch hd key < hd.pfxLen
      · rw [if_pos hmis]
        exact fork_updates (forks_leaf hd old) h (by omega) hmis (by simp [find, hmis]) val
      · rw [if_neg hmis]
        refine ⟨.leaf type rfl ofs_le pfxLen, by simp, ?_⟩
        have hz : rest hd.pfxOfs - 8 * hd.pfxLen = 0 := by
          rw [rest]
          omega
        have hpm : prefixMatch hd key < hd.pfxLen ↔ _ := prefixMatch_lt (by omega)
        simp only [hz, slice, pow_zero, Nat.div_one] at hpm
        have heq := not_not.mp (mt hpm.mpr hmis)
        have hword : word (.leaf hd old) hd.pfxOfs key = hd.pfx := by
          simp [word, Tree.radix, Radix.find, heq]
        rw [hword, heq, Tree.radix, Tree.radix, Radix.find_leaf, Radix.find_leaf]
        funext k
        simp only [Function.update_apply]
        split <;> rfl
  | @node ofs hd chs pfxOfs len_lt head full children ih =>
      subst pfxOfs
      have h : Wf hd.pfxOfs (.node hd chs) := .node rfl len_lt head full children
      have hlt : partialKey key (hd.pfxOfs + hd.pfxLen) < 256 := partialKey_lt len_lt
      rw [updateInplace_node]
      by_cases hmis : prefixMatch hd key < hd.pfxLen
      · rw [if_pos hmis]
        exact fork_updates (forks_node hd chs) h len_lt.le hmis (by rw [find_node_eq, if_pos hmis]) val
      · rw [if_neg hmis]
        cases hi : findIdx hd (partialKey key (hd.pfxOfs + hd.pfxLen)) with
        | some idx =>
            have hchild : Updates (findch hd chs (partialKey key (hd.pfxOfs + hd.pfxLen)))
                (updateInplace key val (getch hd chs idx) (hd.pfxOfs + hd.pfxLen + 1))
                (hd.pfxOfs + hd.pfxLen + 1) key val := by
              rw [← findch_eq_getch hi]
              rcases findch_mem hd chs (partialKey key (hd.pfxOfs + hd.pfxLen)) with hnull | hmem
              · rw [hnull]
                refine ⟨newLeaf_wf len_lt key val, by simp [updateInplace, newLeaf], ?_⟩
                rw [updateInplace, newLeaf_find]
                rfl
              · exact ih _ hmem len_lt
            exact node_updates h hmis ⟨rfl, rfl, rfl⟩ (setch_spec head hi)
              (fun c hc => mem_setch head hi hc) hchild id
        | none =>
            have hchild : Updates (findch hd chs (partialKey key (hd.pfxOfs + hd.pfxLen)))
                (newLeaf (hd.pfxOfs + hd.pfxLen + 1) key val) (hd.pfxOfs + hd.pfxLen + 1) key val := by
              rw [findch_eq_default hi]
              refine ⟨newLeaf_wf len_lt key val, by simp [newLeaf], ?_⟩
              rw [newLeaf_find]
              rfl
            by_cases hfull : isFull hd = true
            · obtain ⟨hfind, hwf, hmem⟩ := extend_spec (x := newLeaf (hd.pfxOfs + hd.pfxLen + 1) key val)
                head hlt hi hfull rfl
              have hn : hd.type ≠ .node256 := by
                intro hn
                simp [isFull, hn] at hfull
              have happ := append_carries (nodeExtend hd) (partialKey key (hd.pfxOfs + hd.pfxLen))
              have hext := nodeExtend_carries hn len_lt.le
              rw [if_pos hfull]
              exact node_updates h hmis ⟨happ.1.trans hext.1, happ.2.1.trans hext.2.1,
                happ.2.2.trans hext.2.2⟩ ⟨hfind, hwf⟩ hmem hchild fun _ => hn
            · have hroom : isFull hd = false := by simpa using hfull
              rw [if_neg hfull]
              exact node_updates h hmis (append_carries hd _) (insertch_spec head hlt hi hroom)
                (fun c hc => or_assoc.mp (.inl (mem_insertch head hlt hi hc))) hchild
                fun hn => append_type hd _ ▸ hn

end Update

section Build

/-- The tree of a map: every leaf stores its whole word. -/
structure Holds (f : Nat → Option Nat) (t : Tree) : Prop where
  wf : Wf 0 t
  find : t.radix.find 64 = fun k => (f k).map (fun v => (k, v))

variable {f : Nat → Option Nat}

theorem holds_null : Holds (fun _ => none) .null := ⟨.null, rfl⟩

theorem Holds.update (h : Holds f t) (hkey : key < 2 ^ 64) (val : Nat) :
    Holds (Function.update f key (some val)) (updateInplace key val t 0) := by
  have hu := updateInplace_updates h.wf (Nat.zero_le 8) key val
  have hword : word t 0 key = key := by
    rw [word, rest_zero, Nat.mod_eq_of_lt hkey, h.find]
    cases hf : f key <;> simp [hf]
  have hfind := hu.find
  rw [rest_zero, Nat.mod_eq_of_lt hkey, hword, h.find] at hfind
  refine ⟨hu.wf, hfind.trans ?_⟩
  funext k
  by_cases hk : k = key
  · simp [hk]
  · simp [Function.update_of_ne hk]

theorem Holds.find_eq (h : Holds f t) {k : Nat} (hk : k < 2 ^ 64) : Art.find k t = f k := by
  rw [find_radix h.wf, rest_zero, Nat.mod_eq_of_lt hk, h.find, Option.map_map]
  exact Option.map_id'

theorem Holds.pairs (h : Holds f t) {l : List (Nat × Nat)} (hl : Lists f l) :
    t.radix.pairs 64 = l.map (fun e => (e.1, e)) := by
  have hlist := (Radix.lists_pairs h.wf.fits).1
  rw [rest_zero, h.find] at hlist
  exact hlist.unique hl.keyed

theorem Holds.scan_eq (h : Holds f t) {l : List (Nat × Nat)} (hl : Lists f l) {k : Nat}
    (hk : k < 2 ^ 64) (hn : 1 ≤ n) : scan t k n = some ((l.filter (k ≤ ·.1)).take n) := by
  rw [scan, scanSearch_eq h.wf k hn, rest_zero, Nat.mod_eq_of_lt hk, Radix.valuesFrom, h.pairs hl,
    List.filter_map, List.map_map, List.nil_append]
  have hid : (Prod.snd ∘ fun e : Nat × Nat => (e.1, e)) = id := rfl
  rw [hid, List.map_id]
  rfl

def inplaceAll (us : List (Nat × Nat)) (t : Tree) : Tree :=
  us.foldl (fun t u => updateInplace u.1 u.2 t 0) t

theorem inplaceAll_holds {us : List (Nat × Nat)} (hus : ∀ u ∈ us, u.1 < 2 ^ 64) (h : Holds f t) :
    Holds (writes us f) (inplaceAll us t) := by
  induction us generalizing t f with
  | nil => exact h
  | cons u us ih =>
      exact ih (fun u' hu' => hus u' (List.mem_cons_of_mem u hu'))
        (h.update (hus u List.mem_cons_self) u.2)

/-- In-place updates of an empty tree serve the map of their writes. -/
theorem inplace_orderedMap (us : List (Nat × Nat)) (hus : ∀ u ∈ us, u.1 < 2 ^ 64) :
    (∀ k < 2 ^ 64, find k (inplaceAll us .null) = writes us (fun _ => none) k) ∧
      ∃ l, Lists (writes us (fun _ => none)) l ∧ ∀ k < 2 ^ 64, ∀ n, 1 ≤ n →
        scan (inplaceAll us .null) k n = some ((l.filter (k ≤ ·.1)).take n) := by
  have hholds := inplaceAll_holds hus holds_null
  obtain ⟨l, hl⟩ := Lists.nil.writes us
  exact ⟨fun k hk => hholds.find_eq hk, l, hl, fun k hk n hn => hholds.scan_eq hl hk hn⟩

theorem inplace_orderedMap_sample :
    find 7 (inplaceAll [(7, 1), (2 ^ 40, 2), (7, 3)] .null) = some 3 ∧
      ∃ l, Lists (writes [(7, 1), (2 ^ 40, 2), (7, 3)] (fun _ => none)) l ∧
        scan (inplaceAll [(7, 1), (2 ^ 40, 2), (7, 3)] .null) 8 1 = some ((l.filter (8 ≤ ·.1)).take 1) := by
  obtain ⟨hfind, l, hl, hscan⟩ := inplace_orderedMap [(7, 1), (2 ^ 40, 2), (7, 3)] (by simp)
  exact ⟨(hfind 7 (by omega)).trans (by simp), l, hl, hscan 8 (by omega) 1 (le_refl 1)⟩

end Build

end Contrees.Trees.Art
