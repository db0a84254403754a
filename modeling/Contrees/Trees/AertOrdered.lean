import Contrees.Trees.AertSplit

namespace Contrees.Trees.Aert

open Library Library.Words Library.OrderedMap Library.Slots Word

variable {hd new : Head} {ofs key val n lo : Nat} {t : Tree} {chs chs' : List Tree} {c : Tree}

section Update

theorem radix_child (chs : List Tree) (c : Tree) (w : Nat × Nat)
    (len_le : hd.pfxOfs + hd.pfxLen + nodeKeyLen hd.type ≤ 64)
    (hmatch : slice (rest hd.pfxOfs) (rest hd.pfxOfs - hd.pfxLen) key = hd.prefixBits)
    (hc : c.radix.find (rest (hd.pfxOfs + hd.pfxLen + nodeKeyLen hd.type)) = Function.update
      ((findch hd chs (partialKey key (hd.pfxOfs + hd.pfxLen) (nodeKeyLen hd.type))).radix.find
        (rest (hd.pfxOfs + hd.pfxLen + nodeKeyLen hd.type)))
      (key % 2 ^ rest (hd.pfxOfs + hd.pfxLen + nodeKeyLen hd.type)) (some w)) :
    (Radix.node hd.pfxLen hd.prefixBits (nodeKeyLen hd.type)
    fun d => (Function.update (findch hd chs)
      (partialKey key (hd.pfxOfs + hd.pfxLen) (nodeKeyLen hd.type)) c d).radix).find
      (rest hd.pfxOfs) =
      Function.update ((Tree.node hd chs).radix.find (rest hd.pfxOfs)) (key % 2 ^ rest hd.pfxOfs)
        (some w) := by
  obtain ⟨hhigh, hdig, hlow⟩ := key_digits hd.pfxLen (nodeKeyLen_eq hd.type) len_le key
  have hchs : (fun d => (Function.update (findch hd chs)
        (partialKey key (hd.pfxOfs + hd.pfxLen) (nodeKeyLen hd.type)) c d).radix) =
      Function.update (fun d => (findch hd chs d).radix)
        (partialKey key (hd.pfxOfs + hd.pfxLen) (nodeKeyLen hd.type)) c.radix := by
    funext d
    rw [Function.update_apply, Function.update_apply]
    split <;> rfl
  have hkey := Radix.digits_eq (nodeKeyLen hd.type)
    (rest (hd.pfxOfs + hd.pfxLen + nodeKeyLen hd.type)) (key % 2 ^ rest hd.pfxOfs)
  rw [hhigh, hdig, hlow, hmatch] at hkey
  rw [radix_node, hchs, ← rest_add len_le, Radix.find_set (partialKey_lt (nodeKeyLen_eq _) len_le)
    (Nat.mod_lt _ (Nat.two_pow_pos _)) hc, hkey, rest_add len_le]

theorem half_child {w : Nat × Nat} {ch : Nat → Radix (Nat × Nat)} {c : Radix (Nat × Nat)}
    (h : ofs + 4 ≤ 64) (hc : c.find (rest (ofs + 4)) = Function.update
      ((ch (partialKey key ofs 4)).find (rest (ofs + 4))) (key % 2 ^ rest (ofs + 4)) (some w)) :
    (Radix.node 0 0 4 (Function.update ch (partialKey key ofs 4) c)).find (rest ofs) =
      Function.update ((Radix.node 0 0 4 ch).find (rest ofs)) (key % 2 ^ rest ofs) (some w) := by
  obtain ⟨hdig, hlow⟩ := key_nibble h key
  have hkey := Radix.digits_eq 4 (rest (ofs + 4)) (key % 2 ^ rest ofs)
  have hz : key % 2 ^ rest ofs / 2 ^ (4 + rest (ofs + 4)) = 0 := by
    have hr : 4 + rest (ofs + 4) = rest ofs := by rw [← rest_four h, Nat.zero_add]
    rw [hr]
    exact Nat.div_eq_of_lt (Nat.mod_lt _ (Nat.two_pow_pos _))
  rw [hdig, hlow, hz] at hkey
  rw [← rest_four h, Radix.find_set (partialKey_lt (.inl rfl) h)
    (Nat.mod_lt _ (Nat.two_pow_pos _)) hc,
    hkey, rest_four h]

theorem half_null (h : ofs + 4 ≤ 64) :
    (Radix.node 0 0 4 (fun _ => .null) : Radix (Nat × Nat)).find (rest ofs) = fun _ => none := by
  funext k
  rw [← rest_four h, Radix.find_node]
  split <;> rfl

theorem newLeaf_wf (hdvd : 4 ∣ ofs) (h : ofs ≤ 64) (key val : Nat) :
    Wf ofs (newLeaf ofs key val) := by
  rw [newLeaf]
  by_cases half : ofs % 8 = 4
  · rw [if_pos half]
    exact .tagged half (by omega) (partialKey_lt (.inl rfl) (by omega)) rfl
      (.leaf rfl rfl (by omega) (by omega) (by simp only [newNode]; omega))
  · rw [if_neg half]
    exact .leaf rfl rfl (by omega) h rfl

theorem newLeaf_ne (ofs key val : Nat) : newLeaf ofs key val ≠ .null := by
  rw [newLeaf]
  split <;> simp

theorem newLeaf_find (h : ofs ≤ 64) (key val : Nat) : (newLeaf ofs key val).radix.find (rest ofs) =
    Function.update (fun _ => none) (key % 2 ^ rest ofs) (some (key, val)) := by
  rw [newLeaf]
  by_cases half : ofs % 8 = 4
  · rw [if_pos half]
    have hofs : ofs + 4 ≤ 64 := by omega
    rw [Tree.radix, Radix.single, half_child hofs Radix.find_leaf, half_null hofs]
    rfl
  · rw [if_neg half]
    exact Radix.find_leaf

theorem updateAt_eq (key val : Nat) (chs : List Tree) (i ofs : Nat) :
    updateAt key val chs i ofs = updateInplace key val (chs.getD i .null) ofs :=
  congrFun (at_eq Tree.null (fun _ => by funext ofs; rw [updateAt, updateInplace]) (fun _ _ => rfl)
    (fun _ _ _ => rfl) chs i) ofs

/-- A node and how it is made from its head; below the new parent of a fork it
holds the same words. -/
structure Forks (t : Tree) (hd : Head) (old : Head → Tree) : Prop where
  ne : ∀ hd, old hd ≠ .null
  shorten : ∀ m, 8 ∣ m → m < hd.pfxLen → Wf hd.pfxOfs t →
    Wf (hd.pfxOfs + m + 8) (old (shorten hd m))
  split : ∀ m, 8 ∣ m → m < hd.pfxLen → Wf hd.pfxOfs t →
    (Radix.node m (slice (rest hd.pfxOfs) (rest hd.pfxOfs - m) hd.pfx) 8
      (Radix.single (partialKey hd.pfx (hd.pfxOfs + m) 8) (old (Aert.shorten hd m)).radix)).find
        (rest hd.pfxOfs) = t.radix.find (rest hd.pfxOfs)

theorem forks_leaf (hd : Head) (val : Nat) : Forks (.leaf hd val) hd (.leaf · val) := by
  refine ⟨by simp, fun m hdvd hm h => ?_, fun m hdvd hm h => ?_⟩
  · cases h with
    | leaf type _ aligned ofs_le pfxLen =>
        refine .leaf type rfl ?_ ?_ ?_
        · omega
        · omega
        · simp only [shorten]
          omega
  · cases h with
    | leaf type _ aligned ofs_le pfxLen =>
        have hle : hd.pfxOfs + m + 8 ≤ 64 := by omega
        obtain ⟨hhigh, hdig, hlow⟩ := key_digits m (.inr rfl) hle hd.pfx
        have hsplit := Radix.find_split_leaf m 8 (rest (hd.pfxOfs + m + 8))
          (hd.pfx % 2 ^ rest hd.pfxOfs) (v := (hd.pfx, val))
        rw [hhigh, hdig, hlow, rest_add hle] at hsplit
        have hleaf : (Tree.leaf (Aert.shorten hd m) val).radix =
            .leaf (hd.pfx % 2 ^ rest (hd.pfxOfs + m + 8)) (hd.pfx, val) := by
          simp only [Tree.radix, shorten, type, if_true, Nat.add_assoc]
        rw [hleaf, hsplit]
        rfl

theorem shorten_prefixBits {m : Nat} (type : hd.type ≠ .leaf) (hm : m + 8 ≤ hd.pfxLen)
    (hle : hd.pfxOfs + hd.pfxLen ≤ 64) :
    (shorten hd m).prefixBits = hd.prefixBits % 2 ^ (hd.pfxLen - (m + 8)) := by
  have hmask : (shorten hd m).prefixBits = slice (rest (hd.pfxOfs + (m + 8)))
      (rest (hd.pfxOfs + (m + 8)) - (hd.pfxLen - (m + 8))) hd.pfx := by
    simp only [Head.prefixBits, shorten, if_neg type]
    exact slice_prefixMask (by omega)
  have hs : rest (hd.pfxOfs + (m + 8)) - (hd.pfxLen - (m + 8)) = rest hd.pfxOfs - hd.pfxLen := by
    rw [rest, rest]
    omega
  have ht : hd.pfxLen - (m + 8) = rest (hd.pfxOfs + (m + 8)) - (rest hd.pfxOfs - hd.pfxLen) := by
    rw [rest, rest]
    omega
  rw [hmask, hs, ht, Head.prefixBits, slice_mod]
  · rw [rest, rest]
    omega
  · rw [rest, rest]
    omega

theorem forks_node (hd : Head) (chs : List Tree) : Forks (.node hd chs) hd (.node · chs) := by
  refine ⟨by simp, fun m hdvd hm h => ?_, fun m hdvd hm h => ?_⟩
  · cases h with
    | node _ aligned len_le head full live children =>
        obtain ⟨hlen, hofs⟩ := aligned
        have hpos : hd.pfxOfs + m + 8 + (shorten hd m).pfxLen = hd.pfxOfs + hd.pfxLen := by
          simp only [shorten]
          omega
        refine .node rfl ⟨?_, .inl ?_⟩ ?_ (head.carry rfl rfl rfl) full live ?_
        · simp only [shorten]
          omega
        · simp only [shorten]
          omega
        · rw [hpos]
          exact len_le
        · rw [hpos]
          exact children
  · cases h with
    | node _ aligned len_le head full live children =>
        obtain ⟨hlen, -⟩ := aligned
        have hm8 : m + 8 ≤ hd.pfxLen := by omega
        have hle : hd.pfxOfs + m + 8 ≤ 64 := by omega
        have hnode : (Tree.node (Aert.shorten hd m) chs).radix = .node (hd.pfxLen - (m + 8))
            (hd.prefixBits % 2 ^ (hd.pfxLen - (m + 8))) (nodeKeyLen hd.type)
            (fun d => (findch hd chs d).radix) := by
          rw [radix_node, shorten_prefixBits head.laid.not_leaf hm8 (by omega)]
          rfl
        have hsplit := Radix.find_split m 8 (hd.pfxLen - (m + 8)) (nodeKeyLen hd.type)
          (rest (hd.pfxOfs + hd.pfxLen + nodeKeyLen hd.type)) hd.prefixBits
          (fun d => (findch hd chs d).radix)
        have hwhole : m + 8 + (hd.pfxLen - (m + 8)) = hd.pfxLen := by omega
        have hrest : m + 8 + (hd.pfxLen - (m + 8) + nodeKeyLen hd.type +
            rest (hd.pfxOfs + hd.pfxLen + nodeKeyLen hd.type)) = rest hd.pfxOfs := by
          rw [← rest_add len_le]
          omega
        have hdig := slice_digit (x := hd.pfx) (.inr rfl) hle
        have hlt : partialKey hd.pfx (hd.pfxOfs + m) 8 < 2 ^ 8 := partialKey_lt (.inr rfl) hle
        have hmid : hd.prefixBits / 2 ^ (hd.pfxLen - (m + 8)) =
            slice (rest hd.pfxOfs) (rest hd.pfxOfs - (m + 8)) hd.pfx := by
          rw [Head.prefixBits, ← slice_slice (show rest hd.pfxOfs - hd.pfxLen ≤
            rest hd.pfxOfs - (m + 8) by omega)]
          congr 2
          rw [rest]
          omega
        have hhigh : hd.prefixBits / 2 ^ (8 + (hd.pfxLen - (m + 8))) =
            slice (rest hd.pfxOfs) (rest hd.pfxOfs - m) hd.pfx := by
          rw [Radix.div_div_pow, hmid, hdig, Nat.add_comm, Nat.add_mul_div_right _ _ (by norm_num),
            Nat.div_eq_of_lt hlt, Nat.zero_add]
        rw [hwhole, hrest, rest_add len_le, hhigh, hmid, hdig, Nat.mul_add_mod',
          Nat.mod_eq_of_lt hlt]
          at hsplit
        rw [hnode, hsplit, radix_node]

def word (t : Tree) (ofs key : Nat) : Nat :=
  (t.radix.find (rest ofs) (key % 2 ^ rest ofs)).elim key Prod.fst

structure Updates (t t' : Tree) (ofs key val : Nat) : Prop where
  wf : Wf ofs t'
  ne : t' ≠ .null
  find : t'.radix.find (rest ofs) = Function.update (t.radix.find (rest ofs)) (key % 2 ^ rest ofs)
    (some (word t ofs key, val))

theorem word_of_absent (h : t.radix.find (rest ofs) (key % 2 ^ rest ofs) = none) :
    word t ofs key = key := by
  rw [word, h]
  rfl

theorem newLeaf_updates (hdvd : 4 ∣ ofs) (h : ofs ≤ 64) (key val : Nat) :
    Updates .null (newLeaf ofs key val) ofs key val :=
  ⟨newLeaf_wf hdvd h key val, newLeaf_ne ofs key val, newLeaf_find h key val⟩

section Fork

variable {type : NodeType} {m pk0 pk1 : Nat} {x y : Tree}

theorem forkHead_radix (htype : type = .node4 ∨ type = .nodeh4) (x y : Tree) (hm : ofs + m ≤ 64)
    (hne : pk0 ≠ pk1) (h0 : pk0 < 2 ^ nodeKeyLen type) (h1 : pk1 < 2 ^ nodeKeyLen type) :
    (Tree.node (forkHead type ofs m key pk0 pk1) (pairUp pk0 pk1 x y)).radix =
      .node m (slice (rest ofs) (rest ofs - m) key) (nodeKeyLen type)
        (Function.update (Radix.single pk0 x.radix) pk1 y.radix) := by
  have hpfx : (forkHead type ofs m key pk0 pk1).prefixBits = slice (rest ofs)
      (rest ofs - m) key := by
    rcases htype with rfl | rfl <;> exact slice_prefixMask hm
  have hch : (fun d => (findch (forkHead type ofs m key pk0 pk1) (pairUp pk0 pk1 x y) d).radix) =
      Function.update (Radix.single pk0 x.radix) pk1 y.radix := by
    funext d
    rw [(forkHead_spec htype ofs m key x y hne h0 h1).2, Function.update_apply, Radix.single,
      Function.update_apply]
    by_cases hd0 : d = pk0
    · rw [if_pos hd0, if_pos hd0, if_neg (hd0 ▸ hne)]
    · rw [if_neg hd0, if_neg hd0]
      split <;> rfl
  rw [radix_node, hpfx, hch]
  rfl

theorem forkHead_wf (htype : type = .node4 ∨ type = .nodeh4)
    (aligned : Aligned (forkHead type ofs m key pk0 pk1)) (hm : ofs + m + nodeKeyLen type ≤ 64)
    (hne : pk0 ≠ pk1) (h0 : pk0 < 2 ^ nodeKeyLen type) (h1 : pk1 < 2 ^ nodeKeyLen type)
    (hx : Wf (ofs + m + nodeKeyLen type) x) (hy : Wf (ofs + m + nodeKeyLen type) y)
    (hx' : x ≠ .null)
    (hy' : y ≠ .null) : Wf ofs (.node (forkHead type ofs m key pk0 pk1) (pairUp pk0 pk1 x y)) := by
  obtain ⟨hwf, hfind⟩ := forkHead_spec htype ofs m key x y hne h0 h1
  refine .node rfl aligned hm hwf (fun _ hnull => ?_) ⟨pk0, h0, ?_⟩ fun c hc => ?_
  · rcases mem_pairUp.mp hnull with heq | heq
    exacts [hx' heq.symm, hy' heq.symm]
  · rw [hfind, if_pos rfl]
    exact hx'
  · rcases mem_pairUp.mp hc with rfl | rfl
    exacts [hx, hy]

theorem fork_updates {old : Head → Tree} (hf : Forks t hd old) (h : Wf hd.pfxOfs t)
    (hofs : 8 ∣ hd.pfxOfs) (hlen : 8 ∣ hd.pfxLen) (hle : hd.pfxOfs + hd.pfxLen ≤ 64)
    (hlt : pmlen hd key < hd.pfxLen) (habs : find key t = none) (val : Nat) :
    Updates t (nodeForkInplace hd old (pmlen hd key) hd.pfxOfs key val) hd.pfxOfs key val := by
  have hdvd := pmlen_dvd (by omega) hlen key
  obtain ⟨hsame, hdif⟩ := pmlen_differs hle hlen hlt
  set m := pmlen hd key
  have hm : hd.pfxOfs + m + 8 ≤ 64 := by omega
  have hne : partialKey hd.pfx (hd.pfxOfs + m) 8 ≠ partialKey key (hd.pfxOfs + m) 8 := by
    rw [slice_digit (.inr rfl) hm, slice_digit (.inr rfl) hm, hsame] at hdif
    omega
  have h0 : partialKey hd.pfx (hd.pfxOfs + m) 8 < 2 ^ 8 := partialKey_lt (.inr rfl) hm
  have h1 : partialKey key (hd.pfxOfs + m) 8 < 2 ^ 8 := partialKey_lt (.inr rfl) hm
  refine ⟨forkHead_wf (.inl rfl) ⟨hdvd, .inl hofs⟩ hm hne h0 h1 (hf.shorten m hdvd hlt h)
    (newLeaf_wf (by omega) hm key val) (hf.ne _) (newLeaf_ne _ _ _), by simp [nodeForkInplace], ?_⟩
  have hword : word t hd.pfxOfs key = key := by
    apply word_of_absent
    rw [find_radix h] at habs
    simpa using habs
  obtain ⟨hhigh, hdig, hlow⟩ := key_digits m (.inr rfl) hm key
  have hkey := Radix.digits_eq 8 (rest (hd.pfxOfs + m + 8)) (key % 2 ^ rest hd.pfxOfs)
  rw [hhigh, hdig, hlow] at hkey
  have hleaf : (newLeaf (hd.pfxOfs + m + 8) key val).radix.find (rest (hd.pfxOfs + m + 8)) =
      Function.update
        ((Radix.single (partialKey hd.pfx (hd.pfxOfs + m) 8) (old (shorten hd m)).radix
          (partialKey key (hd.pfxOfs + m) 8)).find (rest (hd.pfxOfs + m + 8)))
        (key % 2 ^ rest (hd.pfxOfs + m + 8)) (some (key, val)) := by
    rw [Radix.single, Function.update_of_ne (Ne.symm hne), newLeaf_find hm]
    rfl
  have hset : (Radix.node m (slice (rest hd.pfxOfs) (rest hd.pfxOfs - m) key) 8 (Function.update
        (Radix.single (partialKey hd.pfx (hd.pfxOfs + m) 8) (old (shorten hd m)).radix)
        (partialKey key (hd.pfxOfs + m) 8) (newLeaf (hd.pfxOfs + m + 8) key val).radix)).find
          (m + 8 + rest (hd.pfxOfs + m + 8)) = _ :=
    Radix.find_set h1 (Nat.mod_lt _ (Nat.two_pow_pos _)) hleaf
  rw [rest_add hm, hkey] at hset
  rw [nodeForkInplace, forkHead_radix (.inl rfl) _ _ (by omega) hne h0 h1]
  refine hset.trans ?_
  rw [← hf.split m hdvd hlt h, hword, hsame]

theorem halfFork_updates (h : Wf ofs (.tagged lo t)) (hne : partialKey key ofs 4 ≠ lo) (val : Nat) :
    Updates (.tagged lo t) (nodehForkInplace t lo ofs key val) ofs key val := by
  cases h with
  | tagged half ofs_le lo_lt pfxOfs child =>
      have h1 : partialKey key ofs 4 < 2 ^ 4 := partialKey_lt (.inl rfl) ofs_le
      refine ⟨forkHead_wf (.inr rfl) ⟨Nat.dvd_zero 8,
        .inr ⟨half, rfl, rfl⟩⟩ ofs_le hne.symm lo_lt h1
        child (newLeaf_wf (by omega) ofs_le key val) (Wf.plain_ne pfxOfs) (newLeaf_ne _ _ _),
        by simp [nodehForkInplace], ?_⟩
      have hword : word (.tagged lo t) ofs key = key := by
        apply word_of_absent
        rw [tagged_find ofs_le, if_neg hne]
      have hleaf : (newLeaf (ofs + 4) key val).radix.find (rest (ofs + 4)) =
          Function.update ((Radix.single lo t.radix (partialKey key ofs 4)).find (rest (ofs + 4)))
            (key % 2 ^ rest (ofs + 4)) (some (key, val)) := by
        rw [Radix.single, Function.update_of_ne hne, newLeaf_find ofs_le]
        rfl
      have hzero : slice (rest ofs) (rest ofs - 0) key = 0 := slice_self
      rw [nodehForkInplace, forkHead_radix (.inr rfl) _ _ (by omega) hne.symm lo_lt h1, hzero,
        hword]
      exact half_child ofs_le hleaf

end Fork

section Place

theorem updateInplace_node (key val ofs : Nat) (hd : Head) (chs : List Tree) :
    updateInplace key val (.node hd chs) ofs =
      if pmlen hd key < hd.pfxLen then
        nodeForkInplace hd (.node · chs) (pmlen hd key) ofs key val
      else
        match findidx hd (partialKey key (ofs + hd.pfxLen) (nodeKeyLen hd.type)) with
        | some idx => .node hd (setch chs idx
            (updateInplace key val (getch chs idx) (ofs + hd.pfxLen + nodeKeyLen hd.type)))
        | none =>
            if hd.size = 16 then
              nodeSplitInplace hd chs (partialKey key (ofs + hd.pfxLen) (nodeKeyLen hd.type))
                (ofs + hd.pfxLen + nodeKeyLen hd.type) key val
            else if isFull hd then
              .node (extendAppend hd (partialKey key (ofs + hd.pfxLen) (nodeKeyLen hd.type))).2
                (setch (copychAt
                    (extendAppend hd
                      (partialKey key (ofs + hd.pfxLen) (nodeKeyLen hd.type))).2 hd chs
                    (extendAppend hd (partialKey key (ofs + hd.pfxLen) (nodeKeyLen hd.type))).1)
                  (extendAppend hd (partialKey key (ofs + hd.pfxLen) (nodeKeyLen hd.type))).1
                  (newLeaf (ofs + hd.pfxLen + nodeKeyLen hd.type) key val))
            else
              .node (append hd (partialKey key (ofs + hd.pfxLen) (nodeKeyLen hd.type))).2
                (insertch (append hd (partialKey key (ofs + hd.pfxLen) (nodeKeyLen hd.type))).2 chs
                  (append hd (partialKey key (ofs + hd.pfxLen) (nodeKeyLen hd.type))).1
                  (newLeaf (ofs + hd.pfxLen + nodeKeyLen hd.type) key val)) := by
  simp only [updateInplace, updateAt_eq]
  rfl

theorem word_node (len_le : hd.pfxOfs + hd.pfxLen + nodeKeyLen hd.type ≤ 64)
    (hmatch : slice (rest hd.pfxOfs) (rest hd.pfxOfs - hd.pfxLen) key = hd.prefixBits) :
    word (.node hd chs) hd.pfxOfs key =
      word (findch hd chs (partialKey key (hd.pfxOfs + hd.pfxLen) (nodeKeyLen hd.type)))
        (hd.pfxOfs + hd.pfxLen + nodeKeyLen hd.type) key := by
  obtain ⟨hhigh, hdig, hlow⟩ := key_digits hd.pfxLen (nodeKeyLen_eq hd.type) len_le key
  have hnode : (Radix.node hd.pfxLen hd.prefixBits (nodeKeyLen hd.type)
      (fun d => (findch hd chs d).radix)).find (hd.pfxLen + nodeKeyLen hd.type +
        rest (hd.pfxOfs + hd.pfxLen + nodeKeyLen hd.type)) (key % 2 ^ rest hd.pfxOfs) = _ :=
    Radix.find_node _
  rw [rest_add len_le, hhigh, hdig, hlow, if_pos hmatch] at hnode
  rw [word, word, radix_node, hnode]

structure Carries (hd new : Head) : Prop where
  pfxOfs : new.pfxOfs = hd.pfxOfs
  pfxLen : new.pfxLen = hd.pfxLen
  prefixBits : new.prefixBits = hd.prefixBits
  width : nodeKeyLen new.type = nodeKeyLen hd.type

theorem append_carries (hd : Head) (d : Nat) : Carries hd (append hd d).2 := by
  obtain ⟨hofs, hlen, hpfx⟩ := append_head hd d
  refine ⟨hofs, hlen, ?_, ?_⟩
  · rw [Head.prefixBits, Head.prefixBits, hofs, hlen, hpfx]
  · rw [append_type]

theorem extend_carries (hle : hd.pfxOfs + hd.pfxLen ≤ 64) (d : Nat) :
    Carries hd (extendAppend hd d).2 := by
  have hmask := slice_prefixMask (x := hd.pfx) hle
  cases hn : hd.type with
  | node4 =>
      exact ⟨by simp [extendAppend, hn, newNode, grow], by simp [extendAppend, hn, newNode, grow],
      by simpa [extendAppend, hn, newNode, grow, Head.prefixBits] using hmask,
      by simp [extendAppend, hn, newNode, grow, nodeKeyLen]⟩
  | nodeh4 =>
      exact ⟨by simp [extendAppend, hn, newNode], by simp [extendAppend, hn, newNode],
        by simpa [extendAppend, hn, newNode, Head.prefixBits] using hmask,
        by simp [extendAppend, hn, newNode, nodeKeyLen]⟩
  | node16 | nodeh16 | leaf =>
      have hext : (extendAppend hd d).2 = hd := by simp [extendAppend, hn]
      rw [hext]
      exact ⟨rfl, rfl, rfl, by rw [hn]⟩

theorem node_updates (h : Wf hd.pfxOfs (.node hd chs)) (hmis : ¬ pmlen hd key < hd.pfxLen)
    (hnew : Carries hd new)
    (hspec : findch new chs' = Function.update (findch hd chs)
        (partialKey key (hd.pfxOfs + hd.pfxLen) (nodeKeyLen hd.type)) c ∧ new.Wf chs'.length)
    (hmem : ∀ c' ∈ chs', c' = c ∨ c' ∈ chs ∨ new.type = .nodeh16 ∧ c' = .null)
    (hc : Updates (findch hd chs (partialKey key (hd.pfxOfs + hd.pfxLen) (nodeKeyLen hd.type))) c
      (hd.pfxOfs + hd.pfxLen + nodeKeyLen hd.type) key val)
    (hfull : new.type ≠ .nodeh16 → hd.type ≠ .nodeh16) :
    Updates (.node hd chs) (.node new chs') hd.pfxOfs key val := by
  obtain ⟨hofs, hlen, hpfx, hwidth⟩ := hnew
  cases h with
  | node _ aligned len_le head full live children =>
      have hpm : pmlen hd key < hd.pfxLen ↔ _ := pmlen_lt (by omega) aligned.1
      have hmatch : slice (rest hd.pfxOfs) (rest hd.pfxOfs - hd.pfxLen) key = hd.prefixBits :=
        not_not.mp (mt hpm.mpr hmis)
      have hdig_lt : partialKey key (hd.pfxOfs + hd.pfxLen) (nodeKeyLen hd.type) <
          2 ^ nodeKeyLen hd.type := partialKey_lt (nodeKeyLen_eq hd.type) len_le
      have hlive : ∃ d < 2 ^ nodeKeyLen new.type, findch new chs' d ≠ .null := by
        rw [hwidth, hspec.1]
        refine ⟨_, hdig_lt, ?_⟩
        rw [Function.update_self]
        exact hc.ne
      refine ⟨.node hofs ?_ ?_ hspec.2 (fun hn hnull => ?_) hlive fun c' hc' => ?_, by simp, ?_⟩
      · rw [Aligned, hlen, hofs, hwidth]
        exact aligned
      · rw [hlen, hwidth]
        exact len_le
      · rcases hmem _ hnull with heq | hmem | ⟨h16, -⟩
        exacts [hc.ne heq.symm, full (hfull hn) hmem, hn h16]
      · rw [hlen, hwidth]
        rcases hmem c' hc' with rfl | hmem | ⟨-, rfl⟩
        exacts [hc.wf, children c' hmem, .null]
      · rw [word_node len_le hmatch, radix_node, hlen, hpfx, hwidth, hspec.1]
        exact radix_child chs c _ len_le hmatch hc.find

theorem split_full {uh : Head × List Tree} {val : Nat} (h : Wf hd.pfxOfs (.node hd chs))
    (hn : hd.type = .node16) (hsize : hd.size = 16)
    (hi : findidx hd (partialKey key (hd.pfxOfs + hd.pfxLen) 8) = none)
    (hs : Halves hd (partialKey key (hd.pfxOfs + hd.pfxLen) 8) uh (Function.update (findch hd chs)
      (partialKey key (hd.pfxOfs + hd.pfxLen) 8) (newLeaf (hd.pfxOfs + hd.pfxLen + 8) key val))) :
    Full hd (partialKey key (hd.pfxOfs + hd.pfxLen) 8) uh (Function.update (findch hd chs)
      (partialKey key (hd.pfxOfs + hd.pfxLen) 8)
      (newLeaf (hd.pfxOfs + hd.pfxLen + 8) key val)) := by
  have hwidth : nodeKeyLen hd.type = 8 := by rw [hn]; rfl
  have hc : Compact hd := .inr (.inl hn)
  cases h with
  | node _ aligned len_le head full live children =>
      have hdvd : 8 ∣ hd.pfxLen ∧ 8 ∣ hd.pfxOfs := by
        obtain ⟨hlen, hofs⟩ := aligned
        omega
      have hsorted : Sorted hd chs.length := hc.sorted head.laid
      have hlen : hd.keys.length = chs.length := hsorted.keys_length.trans hsorted.chs_length.symm
      rw [hwidth] at len_le children
      have hlt : partialKey key (hd.pfxOfs + hd.pfxLen) 8 < 2 ^ 8 := partialKey_lt (.inr rfl) len_le
      have habs := hc.absent head hi
      refine ⟨hs, hdvd, len_le,
        List.nodup_cons.mpr ⟨habs, hsorted.ascending.imp Nat.ne_of_lt⟩, ?_,
        node16_keys_lt hn head hlt, fun d hd' => ?_, fun d => ?_⟩
      · rw [List.length_cons, hsorted.keys_length, hsize]
      · rw [Function.update_apply]
        split
        · exact newLeaf_ne _ _ _
        · rw [hc.findch head.laid]
          intro hnull
          have hmem := look_mem hlen ((List.mem_cons.mp hd').resolve_left ‹_›)
          rw [hnull] at hmem
          exact full (by simp [hn]) hmem
      · rw [Function.update_apply]
        split
        · exact newLeaf_wf (by omega) len_le key val
        · exact Wf.findch children hd d

theorem split_updates (h : Wf hd.pfxOfs (.node hd chs)) (hn : hd.type = .node16)
    (hsize : hd.size = 16) (hmis : ¬ pmlen hd key < hd.pfxLen)
    (hi : findidx hd (partialKey key (hd.pfxOfs + hd.pfxLen) 8) = none) (val : Nat) :
    Updates (.node hd chs) (nodeSplitInplace hd chs (partialKey key (hd.pfxOfs + hd.pfxLen) 8)
      (hd.pfxOfs + hd.pfxLen + 8) key val) hd.pfxOfs key val := by
  have hwidth : nodeKeyLen hd.type = 8 := by rw [hn]; rfl
  have hc : Compact hd := .inr (.inl hn)
  have hnode := h
  cases h with
  | node _ aligned len_le head full live children =>
      obtain ⟨hdvd, hofs⟩ := aligned
      have hpm : pmlen hd key < hd.pfxLen ↔ _ := pmlen_lt (by omega) hdvd
      have hmatch : slice (rest hd.pfxOfs) (rest hd.pfxOfs - hd.pfxLen) key = hd.prefixBits :=
        not_not.mp (mt hpm.mpr hmis)
      rw [hwidth] at len_le
      have hlt : partialKey key (hd.pfxOfs + hd.pfxLen) 8 < 2 ^ 8 := partialKey_lt (.inr rfl) len_le
      have hleaf : Updates .null (newLeaf (hd.pfxOfs + hd.pfxLen + 8) key val)
          (hd.pfxOfs + hd.pfxLen + 8) key val := newLeaf_updates (by omega) len_le key val
      obtain ⟨uh, huh, hhalves⟩ := nodeSplit_halves hn head (full (by simp [hn]))
        (congrArg (partialKey key · 8) (Nat.add_sub_cancel (hd.pfxOfs + hd.pfxLen) 8)) hlt
        (hc.absent head hi) hleaf.ne
      have hF := split_full hnode hn hsize hi hhalves
      have hnull : findch hd chs (partialKey key (hd.pfxOfs + hd.pfxLen) 8) = .null :=
        findch_eq_default hi
      rw [huh]
      refine ⟨hF.wf_node, by simp, ?_⟩
      rw [← hwidth] at len_le
      have hword : word (.node hd chs) hd.pfxOfs key = _ := word_node len_le hmatch
      have hchild := radix_child chs (newLeaf (hd.pfxOfs + hd.pfxLen + 8) key val)
        (word (.node hd chs) hd.pfxOfs key, val) len_le hmatch
      rw [hwidth, hnull] at hword hchild
      rw [hF.find_node]
      exact hchild (hword ▸ hleaf.find)

theorem gap_updates (h : Wf hd.pfxOfs (.node hd chs)) (hmis : ¬ pmlen hd key < hd.pfxLen)
    (hi : findidx hd (partialKey key (hd.pfxOfs + hd.pfxLen) (nodeKeyLen hd.type)) = none)
    (val : Nat) :
    Updates (.node hd chs) (updateInplace key val (.node hd chs) hd.pfxOfs) hd.pfxOfs key val := by
  have hnode := h
  rw [updateInplace_node, if_neg hmis]
  simp only [hi]
  cases h with
  | node _ aligned len_le head full live children =>
      obtain ⟨hlen, hofs⟩ := aligned
      have hwidth := nodeKeyLen_eq hd.type
      have hlt : partialKey key (hd.pfxOfs + hd.pfxLen) (nodeKeyLen hd.type) <
          2 ^ nodeKeyLen hd.type :=
        partialKey_lt hwidth len_le
      have hchild : Updates
          (findch hd chs (partialKey key (hd.pfxOfs + hd.pfxLen) (nodeKeyLen hd.type)))
          (newLeaf (hd.pfxOfs + hd.pfxLen + nodeKeyLen hd.type) key val)
          (hd.pfxOfs + hd.pfxLen + nodeKeyLen hd.type) key val := by
        rw [findch_eq_default hi]
        exact newLeaf_updates (by omega) len_le key val
      by_cases hsize : hd.size = 16
      · have hn : hd.type = .node16 := by
          have hlaid := head.laid
          cases hn : hd.type <;> simp only [Head.Laid, hn] at hlaid
          all_goals first | rfl | omega
        have hw8 : nodeKeyLen hd.type = 8 := by rw [hn]; rfl
        rw [if_pos hsize, hw8]
        exact split_updates hnode hn hsize hmis (hw8 ▸ hi) val
      · rw [if_neg hsize]
        by_cases hfull : isFull hd = true
        · obtain ⟨hfind, hwf, hmem⟩ := extend_spec
            (x := newLeaf
              (hd.pfxOfs + hd.pfxLen + nodeKeyLen hd.type) key val) head hlt hi hfull hsize
          have hn : hd.type ≠ .nodeh16 := by
            intro hn
            simp [isFull, hn] at hfull
          rw [if_pos hfull]
          exact node_updates hnode hmis (extend_carries (by omega) _) ⟨hfind, hwf⟩ hmem hchild
            fun _ => hn
        · have hroom : isFull hd = false := by simpa using hfull
          obtain ⟨hfind, hlaid⟩ := insertch_spec
            (x := newLeaf (hd.pfxOfs + hd.pfxLen + nodeKeyLen hd.type) key val) head.laid hlt
            (fun hc => hc.absent head hi) hroom
          have htype := append_type hd
            (partialKey key (hd.pfxOfs + hd.pfxLen) (nodeKeyLen hd.type))
          rw [if_neg hfull]
          refine node_updates hnode hmis (append_carries hd _) ⟨hfind, hlaid, fun hn => ?_⟩
            (fun c hc => ?_) hchild fun hn => htype ▸ hn
          · rw [htype] at hn
            rcases head.laid.cases with hc | hn'
            · rw [hc.append, grow_size]
              exact (head.two_le hn).trans (Nat.le_succ _)
            · exact absurd hn' hn
          · rw [htype]
            exact mem_insertch head.laid hc

end Place

/-- `update_inplace` writes one word. -/
theorem updateInplace_updates (h : Wf ofs t) (hdvd : 4 ∣ ofs) (hofs : ofs ≤ 64) (key val : Nat) :
    Updates t (updateInplace key val t ofs) ofs key val := by
  induction h with
  | null => exact newLeaf_updates hdvd hofs key val
  | @leaf ofs hd old type pfxOfs aligned ofs_le pfxLen =>
      subst pfxOfs
      have h : Wf hd.pfxOfs (.leaf hd old) := .leaf type rfl aligned ofs_le pfxLen
      rw [updateInplace]
      by_cases hmis : pmlen hd key < hd.pfxLen
      · rw [if_pos hmis]
        exact fork_updates (forks_leaf hd old) h aligned (by omega) (by omega) hmis
          (by simp [find, hmis]) val
      · rw [if_neg hmis]
        refine ⟨.leaf type rfl aligned ofs_le pfxLen, by simp, ?_⟩
        have heq := not_not.mp (mt (pmlen_leaf (by omega) (by omega)).mpr hmis)
        have hword : word (.leaf hd old) hd.pfxOfs key = hd.pfx := by
          simp [word, Tree.radix, Radix.find, heq]
        rw [hword, heq, Tree.radix, Tree.radix, Radix.find_leaf, Radix.find_leaf]
        funext k
        simp only [Function.update_apply]
        split <;> rfl
  | @node ofs hd chs pfxOfs aligned len_le head full live children ih =>
      subst pfxOfs
      have h : Wf hd.pfxOfs (.node hd chs) := .node rfl aligned len_le head full live children
      by_cases hmis : pmlen hd key < hd.pfxLen
      · rw [updateInplace_node, if_pos hmis]
        obtain ⟨hlen, hofs⟩ := aligned
        exact fork_updates (forks_node hd chs) h (by omega) hlen (by omega) hmis
          (by rw [find_node_eq, if_pos hmis]) val
      · cases hi : findidx hd (partialKey key (hd.pfxOfs + hd.pfxLen) (nodeKeyLen hd.type)) with
        | none => exact gap_updates h hmis hi val
        | some idx =>
            have hdvd' : 4 ∣ hd.pfxOfs + hd.pfxLen + nodeKeyLen hd.type := by
              obtain ⟨hlen, hofs⟩ := aligned
              have hwidth := nodeKeyLen_eq hd.type
              omega
            have hchild : Updates
                (findch hd chs (partialKey key (hd.pfxOfs + hd.pfxLen) (nodeKeyLen hd.type)))
                (updateInplace key val (getch chs idx) (hd.pfxOfs + hd.pfxLen + nodeKeyLen hd.type))
                (hd.pfxOfs + hd.pfxLen + nodeKeyLen hd.type) key val := by
              rw [← findch_eq_getch hi]
              rcases findch_mem hd chs
                (partialKey key (hd.pfxOfs + hd.pfxLen) (nodeKeyLen hd.type)) with
                hnull | hmem
              · rw [hnull]
                exact newLeaf_updates hdvd' len_le key val
              · exact ih _ hmem hdvd' len_le
            rw [updateInplace_node, if_neg hmis]
            simp only [hi]
            exact node_updates h hmis ⟨rfl, rfl, rfl, rfl⟩ (setch_spec head hi)
              (fun c hc => mem_setch head hi hc) hchild id
  | @tagged ofs lo t half ofs_le lo_lt pfxOfs child ih =>
      have hpm : ptrPfxMatch lo t.pfxOfs key < 4 ↔ partialKey key ofs 4 ≠ lo := by
        rw [pfxOfs, ptrPfxMatch_lt lo_lt (by omega) ofs_le, Nat.add_sub_cancel]
      rw [updateInplace]
      by_cases hmis : ptrPfxMatch lo t.pfxOfs key < 4
      · rw [if_pos hmis]
        exact halfFork_updates (.tagged half ofs_le lo_lt pfxOfs child) (hpm.mp hmis) val
      · have heq := not_not.mp (mt hpm.mpr hmis)
        have hu := ih (by omega) ofs_le
        rw [if_neg hmis]
        refine ⟨.tagged half ofs_le lo_lt (hu.wf.plain (by omega) hu.ne) hu.wf, by simp, ?_⟩
        have hword : word (.tagged lo t) ofs key = word t (ofs + 4) key := by
          rw [word, word, tagged_find ofs_le, if_pos heq]
        have hsingle : Radix.single lo (updateInplace key val t (ofs + 4)).radix =
            Function.update (Radix.single lo t.radix) (partialKey key ofs 4)
              (updateInplace key val t (ofs + 4)).radix := by
          rw [heq, Radix.single, Radix.single, Function.update_idem]
        rw [hword, Tree.radix, hsingle, Tree.radix]
        apply half_child ofs_le
        rw [heq, Radix.single, Function.update_self]
        exact hu.find

end Update

section Build

/-- The tree of a map: every leaf stores its whole word. -/
structure Holds (f : Nat → Option Nat) (t : Tree) : Prop where
  wf : Wf 0 t
  find : t.radix.find 64 = fun k => (f k).map (fun v => (k, v))

variable {f : Nat → Option Nat}

theorem holds_null : Holds (fun _ => none) .null := ⟨.null, rfl⟩

theorem Holds.update (h : Holds f t) (hkey : key < 2 ^ 64) (val : Nat) :
    Holds (Function.update f key (some val)) (updateInplace key val t 0) := by
  have hu := updateInplace_updates h.wf (Nat.dvd_zero 4) (Nat.zero_le 64) key val
  have hword : word t 0 key = key := by
    rw [word, rest_zero, Nat.mod_eq_of_lt hkey, h.find]
    cases hf : f key <;> simp [hf]
  have hfind := hu.find
  rw [rest_zero, Nat.mod_eq_of_lt hkey, hword, h.find] at hfind
  refine ⟨hu.wf, hfind.trans ?_⟩
  funext k
  by_cases hk : k = key
  · simp [hk]
  · simp [Function.update_of_ne hk]

theorem Holds.find_eq (h : Holds f t) {k : Nat} (hk : k < 2 ^ 64) : Aert.find k t = f k := by
  rw [find_radix h.wf, rest_zero, Nat.mod_eq_of_lt hk, h.find, Option.map_map]
  exact Option.map_id'

theorem Holds.pairs (h : Holds f t) {l : List (Nat × Nat)} (hl : Lists f l) :
    t.radix.pairs 64 = l.map (fun e => (e.1, e)) := by
  have hlist := (Radix.lists_pairs h.wf.fits).1
  rw [rest_zero, h.find] at hlist
  exact hlist.unique hl.keyed

theorem inplaceAll_holds {us : List (Nat × Nat)} (hus : ∀ u ∈ us, u.1 < 2 ^ 64) (h : Holds f t) :
    Holds (writes us f) (inplaceAll us t) := by
  induction us generalizing t f with
  | nil => exact h
  | cons u us ih =>
      exact ih (fun u' hu' => hus u' (List.mem_cons_of_mem u hu'))
        (h.update (hus u List.mem_cons_self) u.2)

/-- In-place updates of an empty tree implement the map of their writes. -/
theorem inplace_finds (us : List (Nat × Nat)) (hus : ∀ u ∈ us, u.1 < 2 ^ 64) :
    ∀ k < 2 ^ 64, find k (inplaceAll us .null) = writes us (fun _ => none) k :=
  fun _ hk => (inplaceAll_holds hus holds_null).find_eq hk

theorem inplace_finds_sample : find 7 (inplaceAll [(7, 1), (2 ^ 40, 2), (7, 3)] .null) = some 3 :=
  (inplace_finds [(7, 1), (2 ^ 40, 2), (7, 3)] (by simp) 7 (by omega)).trans (by simp)

end Build

end Contrees.Trees.Aert
