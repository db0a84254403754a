import Contrees.Trees.AertScan

namespace Contrees.Trees.Aert

open Library Library.Words Library.OrderedMap Library.Slots Word

variable {hd hd' : Head} {ofs n d lo : Nat} {t t' : Tree} {chs chs' : List Tree}

inductive Same : Tree → Tree → Prop
  | null : Same .null .null
  | leaf (hd : Head) (val : Nat) : Same (.leaf hd val) (.leaf hd val)
  | node (hd : Head) {chs chs' : List Tree}
      (children : ∀ i < 16, Same (getch chs i) (getch chs' i)) :
      Same (.node hd chs) (.node hd chs')
  | tagged (lo : Nat) {t t' : Tree} (child : Same t t') : Same (.tagged lo t) (.tagged lo t')

theorem Same.null_iff (h : Same t t') : t = .null ↔ t' = .null := by
  cases h <;> simp

section Canon

def HasByte (e : Nat) (F : Nat → Tree) (b : Nat) : Prop :=
  b < 256 ∧ ∃ x, (F (b / 16)).radix.find (rest e) x ≠ none ∧ x / 2 ^ rest (e + 4) = b % 16

/-- The type of a node is that of its number of children; what branches on four
bits at a byte has more than sixteen bytes. -/
structure Sized (hd : Head) (F : Nat → Tree) : Prop where
  node16 : hd.type = .node16 → 5 ≤ hd.size
  nodeh16 : hd.type = .nodeh16 → hd.keys = [] ∧ Many 5 (fun d => d < 16 ∧ F d ≠ .null)
  upper : nodeKeyLen hd.type = 4 → 8 ∣ hd.pfxOfs → Many 17 (HasByte (hd.pfxOfs + hd.pfxLen + 4) F)

def Head.Masked (hd : Head) : Prop := hd.pfx = hd.pfx &&& prefixMask hd.pfxOfs hd.pfxLen

/-- The trees that updates in place build. -/
inductive Canon : Tree → Prop
  | null : Canon .null
  | leaf {hd : Head} {val : Nat} (size : hd.size = 1) (keys : hd.keys = []) : Canon (.leaf hd val)
  | node {hd : Head} {chs : List Tree} (masked : hd.Masked) (sized : Sized hd (findch hd chs))
      (children : ∀ c ∈ chs, Canon c) : Canon (.node hd chs)
  | tagged {lo : Nat} {t : Tree} (child : Canon t) : Canon (.tagged lo t)

theorem Canon.findch (h : ∀ c ∈ chs, Canon c) (hd : Head) (d : Nat) : Canon (findch hd chs d) := by
  rcases findch_mem hd chs d with heq | hmem
  · rw [heq]
    exact .null
  · exact h _ hmem

end Canon

section Words

theorem Wf.word (h : Wf ofs t) (hne : t ≠ .null) : ∃ x, t.radix.find (rest ofs) x ≠ none := by
  have hvalues := h.values_ne hne
  rw [← Radix.pairs_values (rest ofs)] at hvalues
  have hpairs : t.radix.pairs (rest ofs) ≠ [] := fun heq => hvalues (by rw [heq]; rfl)
  obtain ⟨e, he⟩ := List.exists_mem_of_ne_nil _ hpairs
  have hfind := ((Radix.lists_pairs h.fits).1.mem_iff e.1 e.2).mp he
  exact ⟨e.1, by simp [hfind]⟩

theorem masked_slice (h : hd.pfxOfs + hd.pfxLen ≤ 64) (hm : hd.Masked) :
    hd.pfx = hd.prefixBits * 2 ^ (rest hd.pfxOfs - hd.pfxLen) := by
  have hr : rest hd.pfxOfs = 64 - hd.pfxOfs := rfl
  rcases Nat.eq_zero_or_pos hd.pfxLen with hz | hpos
  · rw [Head.Masked, prefixMask, if_pos hz, Nat.and_zero] at hm
    rw [hm, Head.prefixBits, hz, Nat.sub_zero, slice_self, Nat.zero_mul]
  · apply Nat.eq_of_testBit_eq
    intro j
    rw [← Nat.shiftLeft_eq, Nat.testBit_shiftLeft, Head.prefixBits, testBit_slice]
    have hbit := congrArg (Nat.testBit · j) hm
    simp only [prefixMask_eq hpos h, Nat.testBit_and, Nat.testBit_shiftLeft,
      Nat.testBit_two_pow_sub_one] at hbit
    by_cases hj : rest hd.pfxOfs - hd.pfxLen ≤ j ∧ j < rest hd.pfxOfs
    · have hsub : rest hd.pfxOfs - hd.pfxLen + (j - (rest hd.pfxOfs - hd.pfxLen)) = j := by omega
      simp [hj, hsub]
    · have hout : ¬ (rest hd.pfxOfs - hd.pfxLen ≤ j ∧
          j - (rest hd.pfxOfs - hd.pfxLen) < hd.pfxLen) := by
        omega
      have hzero : hd.pfx.testBit j = false := by
        rw [hbit]
        simpa using fun _ => hout
      have hout' : ¬ (rest hd.pfxOfs - hd.pfxLen ≤ j ∧
          rest hd.pfxOfs - hd.pfxLen + (j - (rest hd.pfxOfs - hd.pfxLen)) < rest hd.pfxOfs) := by
        omega
      rw [hzero]
      symm
      by_contra hne
      simp only [Bool.not_eq_false, Bool.and_eq_true, decide_eq_true_eq] at hne
      exact hout' ⟨hne.1, hne.2.1⟩

end Words

section Digits

theorem Compact.mem_keys (hc : Compact hd) (h : hd.Laid chs.length) (hfull : Tree.null ∉ chs) :
    d ∈ hd.keys ↔ Aert.findch hd chs d ≠ .null := by
  have hs : Sorted hd chs.length := hc.sorted h
  have hlen : hd.keys.length = chs.length := hs.keys_length.trans hs.chs_length.symm
  rw [hc.findch h]
  constructor
  · intro hd' hnull
    exact hfull (hnull ▸ look_mem hlen hd')
  · intro hne
    by_contra habs
    exact hne (look_eq_default habs)

theorem two_children (h : Wf ofs (.node hd chs)) (hc : Canon (.node hd chs)) :
    ∃ d e, d ≠ e ∧ (d < 2 ^ nodeKeyLen hd.type ∧ findch hd chs d ≠ .null) ∧
      e < 2 ^ nodeKeyLen hd.type ∧ findch hd chs e ≠ .null := by
  cases h with
  | node _ _ _ head full _ _ =>
      rcases head.laid.cases with hcomp | hn
      · have hs : Sorted hd chs.length := hcomp.sorted head.laid
        have hkeys : Many hd.size (· ∈ hd.keys) :=
          ⟨hd.keys, hs.keys_length.ge, hs.ascending.imp Nat.ne_of_lt, fun d hd' => hd'⟩
        obtain ⟨d, e, hne, hd', he⟩ := hkeys.two (head.two_le hcomp.not_direct)
        have hmem : ∀ {d : Nat}, d ∈ hd.keys ↔ _ :=
          hcomp.mem_keys head.laid (full hcomp.not_direct)
        exact ⟨d, e, hne, ⟨hs.keys_lt d hd', hmem.mp hd'⟩, hs.keys_lt e he, hmem.mp he⟩
      · cases hc with
        | node _ sized _ =>
            obtain ⟨d, e, hne, hd', he⟩ := (sized.nodeh16 hn).2.two (by omega)
            have hwidth : 2 ^ nodeKeyLen hd.type = 16 := by rw [hn]; rfl
            rw [hwidth]
            exact ⟨d, e, hne, hd', he⟩

theorem node_branches {g : Nat} (h : Wf ofs (.node hd chs)) (hc : Canon (.node hd chs))
    (hg : nodeKeyLen hd.type ≤ g) (hg' : ofs + hd.pfxLen + g ≤ 64) :
    Radix.Branches ((Tree.node hd chs).radix.find (rest ofs))
    (rest ofs) g hd.pfxLen hd.prefixBits := by
  obtain ⟨d, e, hne, ⟨hd', hdne⟩, he, hene⟩ := two_children h hc
  have hfits := h.fits
  cases h with
  | node pfxOfs _ len_le _ _ _ children =>
      obtain ⟨x, hx⟩ := (Wf.findch children hd d).word hdne
      obtain ⟨y, hy⟩ := (Wf.findch children hd e).word hene
      have hwid : g ≤ nodeKeyLen hd.type + rest (ofs + hd.pfxLen + nodeKeyLen hd.type) := by
        rw [rest]
        omega
      rw [radix_node, ← rest_add len_le] at hfits ⊢
      exact Radix.branches_node hfits hg hwid hd' he hne hx hy

theorem Compact.type_eq (hc : Compact hd) (h : hd.Laid chs.length)
    (hs : Sized hd (Aert.findch hd chs)) :
    hd.type = if nodeKeyLen hd.type = 4 then .nodeh4 else if hd.size ≤
    4 then .node4 else .node16 := by
  have hsmall := hc.small h
  have hbig := hs.node16
  rcases hc with hn | hn | hn <;> simp only [hn, nodeKeyLen] at hsmall hbig ⊢
  · simp [hsmall]
  · have := hbig trivial
    simp
    omega
  · simp

theorem Compact.getch_eq (hc : Compact hd) (h : hd.Laid chs.length) {i : Nat}
    (hi : i < hd.keys.length) :
    getch chs i = Aert.findch hd chs hd.keys[i] := by
  have hs : Sorted hd chs.length := hc.sorted h
  rw [hc.findch h, look_getElem (hs.ascending.imp Nat.ne_of_lt)
    (hs.keys_length.trans hs.chs_length.symm) hi]
  rfl

theorem Sized.not_small (hs : Sized hd' (findch hd' chs')) (hn : hd'.type = .nodeh16)
    (h : hd.Wf chs.length) (hfull : hd.type ≠ .nodeh16 → Tree.null ∉ chs) (hc : Compact hd)
    (hwidth : nodeKeyLen hd.type = nodeKeyLen hd'.type)
    (hnull : ∀ d < 2 ^ nodeKeyLen hd.type, findch hd chs d = .null ↔ findch hd' chs' d = .null) :
    False := by
  have hw : nodeKeyLen hd.type = 4 := by rw [hwidth, hn]; rfl
  have hn4 : hd.type ≠ .node16 := fun heq => by simp [heq, nodeKeyLen] at hw
  have hle := (hs.nodeh16 hn).2.le_length hd.keys fun d hd' =>
    (hc.mem_keys h.laid (hfull hc.not_direct)).mpr
      (mt (hnull d (by rw [hw]; exact hd'.1)).mp hd'.2)
  have hsmall := hc.small h.laid hn4
  rw [(hc.sorted h.laid).keys_length] at hle
  omega

theorem node_same (h : Wf ofs (.node hd chs)) (h' : Wf ofs (.node hd' chs'))
    (hc : Canon (.node hd chs)) (hc' : Canon (.node hd' chs'))
    (hwidth : nodeKeyLen hd.type = nodeKeyLen hd'.type) (hlen : hd.pfxLen = hd'.pfxLen)
    (hbits : hd.prefixBits = hd'.prefixBits)
    (hch : ∀ d < 2 ^ nodeKeyLen hd.type, Same (findch hd chs d) (findch hd' chs' d)) :
    Same (.node hd chs) (.node hd' chs') := by
  cases h with
  | node pfxOfs _ len_le head full _ _ =>
  cases h' with
  | node pfxOfs' _ len_le' head' full' _ _ =>
  cases hc with
  | node masked sized _ =>
  cases hc' with
  | node masked' sized' _ =>
      have hpfx : hd.pfx = hd'.pfx := by
        rw [masked_slice (by omega) masked, masked_slice (by omega) masked', hbits, hlen, pfxOfs,
          pfxOfs']
      have hnull : ∀ d < 2 ^ nodeKeyLen hd.type,
          findch hd chs d = .null ↔ findch hd' chs' d = .null := fun d hd' => (hch d hd').null_iff
      rcases head.laid.cases with hcomp | hn <;> rcases head'.laid.cases with hcomp' | hn'
      · have hs : Sorted hd chs.length := hcomp.sorted head.laid
        have hs' : Sorted hd' chs'.length := hcomp'.sorted head'.laid
        have hmem : ∀ {d : Nat}, d ∈ hd.keys ↔ _ :=
          hcomp.mem_keys head.laid (full hcomp.not_direct)
        have hmem' : ∀ {d : Nat}, d ∈ hd'.keys ↔ _ :=
          hcomp'.mem_keys head'.laid (full' hcomp'.not_direct)
        have hkeys : hd.keys = hd'.keys := by
          apply ascending_ext hs.ascending hs'.ascending
          intro d
          constructor
          · intro hd'
            exact hmem'.mpr (mt (hnull d (hs.keys_lt d hd')).mpr (hmem.mp hd'))
          · intro hd'
            have hlt := hs'.keys_lt d hd'
            rw [← hwidth] at hlt
            exact hmem.mpr (mt (hnull d hlt).mp (hmem'.mp hd'))
        have hsize : hd.size = hd'.size := by rw [← hs.keys_length, hkeys, hs'.keys_length]
        have htype : hd.type = hd'.type := by
          rw [hcomp.type_eq head.laid sized, hcomp'.type_eq head'.laid sized', hwidth, hsize]
        obtain rfl : hd = hd' := by
          cases hd
          cases hd'
          simp_all
        refine .node hd fun i _ => ?_
        by_cases hi : i < hd.keys.length
        · rw [hcomp.getch_eq head.laid hi, hcomp.getch_eq head'.laid hi]
          exact hch _ (hs.keys_lt _ (List.getElem_mem hi))
        · have hout : ∀ {chs : List Tree}, hd.Laid chs.length → getch chs i = .null := by
            intro chs h
            have hs : Sorted hd chs.length := hcomp.sorted h
            have hlen : chs.length ≤ i := by
              rw [hs.chs_length, ← hs.keys_length]
              exact not_lt.mp hi
            rw [getch, List.getD_eq_getElem?_getD, List.getElem?_eq_none hlen]
            rfl
          rw [hout head.laid, hout head'.laid]
          exact .null
      · exact (sized'.not_small hn' head full hcomp hwidth hnull).elim
      · rw [hwidth] at hnull
        exact (sized.not_small hn head' full' hcomp' hwidth.symm
          fun d hd' => (hnull d hd').symm).elim
      · have hsize : hd.size = 0 := by simpa only [Head.Laid, hn] using head.laid
        have hsize' : hd'.size = 0 := by simpa only [Head.Laid, hn'] using head'.laid
        have hkeys := (sized.nodeh16 hn).1
        have hkeys' := (sized'.nodeh16 hn').1
        obtain rfl : hd = hd' := by
          cases hd
          cases hd'
          simp_all
        refine .node hd fun i hi => ?_
        have hsame := hch i (by rw [hn]; exact hi)
        rwa [direct_findch hn, direct_findch hn] at hsame

end Digits

section Unique

theorem leaf_word {val k : Nat} (hk : (Tree.leaf hd val).radix.find (rest ofs) k ≠ none) :
    k = hd.pfx % 2 ^ rest hd.pfxOfs := by
  by_contra hne
  exact hk (if_neg hne)

theorem tagged_word {k : Nat} (h : Wf ofs (.tagged lo t))
    (hk : (Tree.tagged lo t).radix.find (rest ofs) k ≠ none) : k / 2 ^ rest (ofs + 4) = lo := by
  cases h with
  | tagged _ ofs_le lo_lt _ _ =>
      rw [Tree.radix, ← rest_four ofs_le, Radix.find_node, Radix.div_div_pow] at hk
      by_cases hz : k / 2 ^ rest (ofs + 4) / 2 ^ 4 = 0
      · rw [if_pos hz, Radix.single, Function.update_apply] at hk
        by_cases hlo : k / 2 ^ rest (ofs + 4) % 2 ^ 4 = lo
        · rwa [Nat.mod_eq_of_lt (Nat.lt_of_div_eq_zero (Nat.two_pow_pos 4) hz)] at hlo
        · rw [if_neg hlo] at hk
          exact absurd rfl hk
      · rw [if_neg hz] at hk
        exact absurd rfl hk

theorem leaf_same {val val' : Nat} (h : Wf ofs (.leaf hd val)) (h' : Wf ofs (.leaf hd' val'))
    (hc : Canon (.leaf hd val)) (hc' : Canon (.leaf hd' val'))
    (heq : (Tree.leaf hd val).radix.find (rest ofs) = (Tree.leaf hd' val').radix.find (rest ofs)) :
    Same (.leaf hd val) (.leaf hd' val') := by
  cases h with
  | leaf type pfxOfs _ _ pfxLen =>
  cases h' with
  | leaf type' pfxOfs' _ _ pfxLen' =>
  cases hc with
  | leaf size keys =>
  cases hc' with
  | leaf size' keys' =>
      have hword := congrFun heq (hd.pfx % 2 ^ rest hd.pfxOfs)
      have hstored : some (hd.pfx, val) =
          if hd.pfx % 2 ^ rest hd.pfxOfs = hd'.pfx % 2 ^ rest hd'.pfxOfs then some (hd'.pfx, val')
          else none := by
        simpa [Tree.radix, Radix.find] using hword
      split at hstored
      · simp only [Option.some.injEq, Prod.mk.injEq] at hstored
        obtain ⟨hpfx, rfl⟩ := hstored
        obtain rfl : hd = hd' := by
          cases hd
          cases hd'
          simp_all
        exact .leaf hd val
      · simp at hstored

theorem tagged_same {lo' : Nat} (h : Wf ofs (.tagged lo t)) (h' : Wf ofs (.tagged lo' t'))
    (hc : Canon (.tagged lo t)) (hc' : Canon (.tagged lo' t'))
    (heq : (Tree.tagged lo t).radix.find (rest ofs) = (Tree.tagged lo' t').radix.find (rest ofs))
    (ih : ∀ {ofs' : Nat} {c c' : Tree}, rest ofs' < rest ofs → Wf ofs' c → Wf ofs' c' → Canon c →
      Canon c' → c.radix.find (rest ofs') = c'.radix.find (rest ofs') → Same c c') :
    Same (.tagged lo t) (.tagged lo' t') := by
  obtain ⟨k, hk⟩ := h.word (by simp)
  have hk' := hk
  rw [heq] at hk'
  obtain rfl : lo = lo' := (tagged_word h hk).symm.trans (tagged_word h' hk')
  have hfits := h.fits
  have hfits' := h'.fits
  cases h with
  | tagged _ ofs_le lo_lt _ child =>
  cases h' with
  | tagged _ _ _ _ child' =>
  cases hc with
  | tagged canon =>
  cases hc' with
  | tagged canon' =>
      have hlt : rest (ofs + 4) < rest ofs := by
        rw [rest, rest]
        omega
      rw [Tree.radix, ← rest_four ofs_le] at hfits hfits'
      simp only [Tree.radix, ← rest_four ofs_le] at heq
      have hchild := Radix.find_child hfits hfits' heq lo_lt
      rw [Radix.single, Radix.single, Function.update_self, Function.update_self] at hchild
      exact .tagged lo (ih hlt child child' canon canon' hchild)

theorem leaf_ne_node {val : Nat} (h : Wf ofs (.node hd' chs')) (hc : Canon (.node hd' chs'))
    (heq : (Tree.leaf hd val).radix.find (rest ofs) = (Tree.node hd' chs').radix.find (rest ofs)) :
    False := by
  have hle : ofs + hd'.pfxLen + nodeKeyLen hd'.type ≤ 64 := by
    cases h with
    | node _ _ len_le _ _ _ _ => exact len_le
  obtain ⟨k, k', hk, hk', hne⟩ := (node_branches h hc le_rfl hle).differ
  rw [← heq] at hk hk'
  rw [leaf_word hk, leaf_word hk'] at hne
  exact hne rfl

theorem tagged_ne_node (h : Wf ofs (.tagged lo t)) (h' : Wf ofs (.node hd' chs'))
    (hc : Canon (.node hd' chs'))
    (heq : (Tree.tagged lo t).radix.find (rest ofs) = (Tree.node hd' chs').radix.find (rest ofs)) :
    False := by
  have hhalf : ofs % 8 = 4 ∧ ofs + 4 ≤ 64 := by
    cases h with
    | tagged half ofs_le _ _ _ => exact ⟨half, ofs_le⟩
  have hnode : hd'.pfxLen = 0 ∧ nodeKeyLen hd'.type = 4 := by
    cases h' with
    | node pfxOfs aligned _ _ _ _ _ =>
        obtain ⟨-, hofs | ⟨-, hlen, hwidth⟩⟩ := aligned
        · omega
        · exact ⟨hlen, hwidth⟩
  obtain ⟨k, k', hk, hk', hne⟩ :=
    (node_branches h' hc hnode.2.le (by rw [hnode.1]; exact hhalf.2)).differ
  have hr : rest ofs - (hd'.pfxLen + 4) = rest (ofs + 4) := by
    rw [rest, rest]
    omega
  rw [← heq] at hk hk'
  rw [hr, tagged_word h hk, tagged_word h hk'] at hne
  exact hne rfl

theorem wide_ne_upper (h : Wf ofs (.node hd chs)) (h' : Wf ofs (.node hd' chs'))
    (hc' : Canon (.node hd' chs')) (hwide : nodeKeyLen hd.type = 8)
    (hupper : nodeKeyLen hd'.type = 4) (hofs : 8 ∣ ofs) (hlen : hd.pfxLen = hd'.pfxLen)
    (heq : (Tree.node hd chs).radix.find (rest ofs) = (Tree.node hd' chs').radix.find (rest ofs)) :
    False := by
  cases h with
  | node pfxOfs _ len_le head full _ _ =>
  cases h' with
  | node pfxOfs' _ len_le' _ _ _ children' =>
  cases hc' with
  | node _ sized' _ =>
      have hcomp : Compact hd := head.laid.cases.resolve_right fun hn => by
        simp [hn, nodeKeyLen] at hwide
      have hmany := sized'.upper hupper (pfxOfs'.symm ▸ hofs)
      have hle := hmany.le_length hd.keys fun b hb => by
        obtain ⟨hlt, x, hx, hlow⟩ := hb
        rw [pfxOfs'] at hx hlow
        rw [hwide] at len_le
        rw [hupper] at len_le' children'
        have hchild := (Wf.findch children' hd' (b / 16)).fits
        obtain ⟨v, hv⟩ := Option.ne_none_iff_exists'.mp hx
        have hxlt := Radix.find_lt hchild hv
        have hword : (Tree.node hd' chs').radix.find (rest ofs)
            ((hd'.prefixBits * 2 ^ 4 + b / 16) * 2 ^ rest (ofs + hd'.pfxLen + 4) + x) ≠ none := by
          rw [radix_node, hupper, ← rest_add len_le', Radix.find_digit (by omega) hxlt]
          exact hx
        have hrest : rest (ofs + hd'.pfxLen + 4) = 4 + rest (ofs + hd.pfxLen + 8) := by
          rw [rest, rest]
          omega
        have hrest' : rest (ofs + hd'.pfxLen + 4 + 4) = rest (ofs + hd.pfxLen + 8) := by
          rw [rest, rest]
          omega
        have hdig : ((hd'.prefixBits * 2 ^ 4 + b / 16) * 2 ^ rest (ofs + hd'.pfxLen + 4) + x) /
            2 ^ rest (ofs + hd.pfxLen + 8) % 2 ^ 8 = b := by
          rw [hrest'] at hlow
          rw [hrest, pow_add, ← Nat.mul_assoc, Nat.add_comm, Nat.add_mul_div_right _ _
            (Nat.two_pow_pos _),
            hlow]
          omega
        rw [← heq, radix_node, hwide, ← rest_add len_le, Radix.find_node, hdig] at hword
        rw [hcomp.mem_keys head.laid (full hcomp.not_direct)]
        intro hnull
        rw [hnull] at hword
        split at hword <;> exact hword rfl
      have hsize := hcomp.size_le head.laid
      rw [(hcomp.sorted head.laid).keys_length] at hle
      omega

theorem nodes_same (h : Wf ofs (.node hd chs)) (h' : Wf ofs (.node hd' chs'))
    (hc : Canon (.node hd chs)) (hc' : Canon (.node hd' chs'))
    (heq : (Tree.node hd chs).radix.find (rest ofs) = (Tree.node hd' chs').radix.find (rest ofs))
    (ih : ∀ {ofs' : Nat} {c c' : Tree}, rest ofs' < rest ofs → Wf ofs' c → Wf ofs' c' → Canon c →
      Canon c' → c.radix.find (rest ofs') = c'.radix.find (rest ofs') → Same c c') :
    Same (.node hd chs) (.node hd' chs') := by
  have hwf := h
  have hwf' := h'
  have hcanon := hc
  have hcanon' := hc'
  have hfits := h.fits
  have hfits' := h'.fits
  cases h with
  | node pfxOfs aligned len_le head full _ children =>
  cases h' with
  | node pfxOfs' aligned' len_le' _ _ _ children' =>
  cases hc with
  | node _ _ canon =>
  cases hc' with
  | node _ _ canon' =>
      obtain ⟨hdvd, hofs⟩ := aligned
      obtain ⟨hdvd', hofs'⟩ := aligned'
      rw [pfxOfs] at hofs
      rw [pfxOfs'] at hofs'
      have hwid := nodeKeyLen_eq hd.type
      have hwid' := nodeKeyLen_eq hd'.type
      have hprefix : hd.pfxLen = hd'.pfxLen ∧ hd.prefixBits = hd'.prefixBits ∧
          nodeKeyLen hd.type = nodeKeyLen hd'.type := by
        by_cases hbyte : 8 ∣ ofs
        · have hb := node_branches (g := 8) hwf hcanon (by omega) (by omega)
          have hb' := node_branches (g := 8) hwf' hcanon' (by omega) (by omega)
          rw [heq] at hb
          have hr : rest ofs = 64 - ofs := rfl
          obtain ⟨hlen, hbits⟩ := hb.unique hb' hdvd hdvd' (by omega) (by omega)
          refine ⟨hlen, hbits, ?_⟩
          rcases hwid with hw | hw <;> rcases hwid' with hw' | hw'
          · rw [hw, hw']
          · exact (wide_ne_upper hwf' hwf hcanon hw' hw hbyte hlen.symm heq.symm).elim
          · exact (wide_ne_upper hwf hwf' hcanon' hw hw' hbyte hlen heq).elim
          · rw [hw, hw']
        · obtain ⟨-, hlen, hw⟩ := hofs.resolve_left hbyte
          obtain ⟨-, hlen', hw'⟩ := hofs'.resolve_left hbyte
          refine ⟨by rw [hlen, hlen'], ?_, by rw [hw, hw']⟩
          rw [Head.prefixBits, Head.prefixBits, hlen, hlen', Nat.sub_zero, Nat.sub_zero, slice_self,
            slice_self]
      obtain ⟨hlen, hbits, hwidth⟩ := hprefix
      refine node_same hwf hwf' hcanon hcanon' hwidth hlen hbits fun d hd' => ?_
      have hlt : rest (ofs + hd.pfxLen + nodeKeyLen hd.type) < rest ofs := by
        rw [rest, rest]
        omega
      rw [← hlen, ← hwidth] at children'
      refine ih hlt (Wf.findch children hd d) (Wf.findch children' _ d) (Canon.findch canon hd d)
        (Canon.findch canon' _ d) ?_
      rw [radix_node, ← rest_add len_le] at hfits heq
      rw [radix_node, ← hlen, ← hbits, ← hwidth, ← rest_add len_le] at hfits'
      rw [radix_node, ← hlen, ← hbits, ← hwidth] at heq
      exact Radix.find_child hfits hfits' heq hd'

/-- The words of a tree that updates build determine its nodes. -/
theorem canon_unique (h : Wf ofs t) (h' : Wf ofs t') (hc : Canon t) (hc' : Canon t')
    (heq : t.radix.find (rest ofs) = t'.radix.find (rest ofs)) : Same t t' := by
  induction hn : rest ofs using Nat.strong_induction_on generalizing ofs t t' with
  | _ n ih =>
      subst hn
      have hempty : ∀ {t : Tree}, Wf ofs t → t.radix.find (rest ofs) = (fun _ => none) →
          t = .null := by
        intro t h hnone
        by_contra hne
        obtain ⟨x, hx⟩ := h.word hne
        exact hx (congrFun hnone x)
      cases t with
      | null =>
          obtain rfl := hempty h' heq.symm
          exact .null
      | leaf hd val =>
          cases t' with
          | null => exact absurd (hempty h heq) (by simp)
          | leaf hd' val' =>
              exact leaf_same h h' hc hc' heq
          | node hd' chs' => exact (leaf_ne_node h' hc' heq).elim
          | tagged lo' c' =>
              cases h with
              | leaf _ _ aligned _ _ =>
              cases h' with
              | tagged half _ _ _ _ => omega
      | node hd chs =>
          cases t' with
          | null => exact absurd (hempty h heq) (by simp)
          | leaf hd' val' => exact (leaf_ne_node h hc heq.symm).elim
          | node hd' chs' =>
              exact nodes_same h h' hc hc' heq
                fun hlt h h' hc hc' heq => ih _ hlt h h' hc hc' heq rfl
          | tagged lo' c' => exact (tagged_ne_node h' h hc heq.symm).elim
      | tagged lo c =>
          cases t' with
          | null => exact absurd (hempty h heq) (by simp)
          | leaf hd' val' =>
              cases h with
              | tagged half _ _ _ _ =>
              cases h' with
              | leaf _ _ aligned _ _ => omega
          | node hd' chs' => exact (tagged_ne_node h h' hc' heq).elim
          | tagged lo' c' =>
              exact tagged_same h h' hc hc' heq
                fun hlt h h' hc hc' heq => ih _ hlt h h' hc hc' heq rfl

end Unique

end Contrees.Trees.Aert
