import Contrees.Trees.AertOrdered

namespace Contrees.Trees.Aert

open Library Library.Words Library.OrderedMap Library.Slots Word

variable {hd : Head} {ofs key n lo : Nat} {t : Tree} {chs : List Tree} {ret : List (Nat × Nat)}

theorem scanEach_eq (n : Nat) (ts : List Tree) : scanEach n ts = ts.map (scanAppend n · none) := by
  induction ts with
  | nil => rfl
  | cons t ts ih => rw [scanEach, ih, List.map_cons]

theorem scanSearchAt_eq (key n : Nat) (chs : List Tree) (i : Nat) (ret : List (Nat × Nat)) :
    scanSearchAt key n chs i ret = scanSearch key n (chs.getD i .null) ret :=
  congrFun (at_eq Tree.null (fun _ => by funext ret; rw [scanSearchAt, scanSearch]) (fun _ _ => rfl) (fun _ _ _ => rfl) chs i) ret

theorem scanAppend_node (h : Wf ofs (.node hd chs)) (ih : ∀ c ∈ chs, c ≠ .null →
      ∀ ret : List (Nat × Nat), ret.length < n →
        scanAppend n c none ret = some (ret ++ c.radix.values.take (n - ret.length)))
    (pkey : Option Nat) (ret : List (Nat × Nat)) :
    scanAppend n (.node hd chs) pkey ret = some (ret ++ ((above (nodeKeyLen hd.type) pkey).flatMap
      (fun d => (findch hd chs d).radix.values)).take (n - ret.length)) := by
  cases h with
  | node _ _ _ head full _ _ =>
      have hheld : ((visited hd chs pkey).flatMap fun i => (chs.getD i .null).radix.values) = _ :=
        visited_spec (f := fun t => t.radix.values) head.laid rfl
      rw [scanAppend, scanEach_eq, ← hheld]
      refine foldlM_take (fun i hi ret hlt => ?_) ret
      obtain ⟨c, hc, hne⟩ := visited_ne head.laid full i hi
      have hscan : (chs.map (scanAppend n · none)).getD i (fun _ => none) = scanAppend n c none := by
        simp [hc]
      have hget : chs.getD i .null = c := by simp [hc]
      rw [hscan, hget]
      exact ih c (List.mem_of_getElem? hc) hne ret hlt

theorem scanAppend_eq (h : Wf ofs t) (hne : t ≠ .null) (hlt : ret.length < n) :
    scanAppend n t none ret = some (ret ++ t.radix.values.take (n - ret.length)) := by
  induction h generalizing ret with
  | null => exact absurd rfl hne
  | leaf =>
      obtain ⟨m, hm⟩ : ∃ m, n - ret.length = m + 1 := ⟨n - ret.length - 1, by omega⟩
      simp [scanAppend, Tree.radix, Radix.values, hm]
  | @node ofs hd chs pfxOfs aligned len_le head full live children ih =>
      rw [scanAppend_node (.node pfxOfs aligned len_le head full live children)
        (fun c hc hne ret hlt => ih c hc hne hlt), radix_node]
      rfl
  | @tagged ofs lo t _ _ lo_lt pfxOfs _ ih =>
      rw [scanAppend, Tree.radix, Radix.values_single _ lo_lt]
      exact ih (Wf.plain_ne pfxOfs) hlt

theorem Wf.values_ne (h : Wf ofs t) (hne : t ≠ .null) : t.radix.values ≠ [] := by
  induction h with
  | null => exact absurd rfl hne
  | leaf => simp [Tree.radix, Radix.values]
  | @node ofs hd chs _ _ _ _ _ live _ ih =>
      obtain ⟨d, hd256, hd'⟩ := live
      rw [radix_node, Radix.values, ne_eq, List.flatMap_eq_nil_iff]
      intro hnil
      have hmem : Aert.findch hd chs d ∈ chs := (findch_mem hd chs d).resolve_left hd'
      exact ih _ hmem hd' (hnil d (List.mem_range.mpr hd256))
  | @tagged ofs lo t _ _ lo_lt pfxOfs _ ih =>
      rw [Tree.radix, Radix.values_single _ lo_lt]
      exact ih (Wf.plain_ne pfxOfs)

mutual

/-- Where the search of a scan leaves the key at a tagged pointer, the nibble
after the embedded one says what the key's nibble in its place would say. -/
def decides (key : Nat) : Tree → Bool
  | .null | .leaf _ _ => true
  | .tagged lo t =>
      if ptrPfxMatch lo t.pfxOfs key < 4 then
        decide (lo < partialKey key t.pfxOfs 4 ↔ lo < partialKey key (t.pfxOfs - 4) 4)
      else decides key t
  | .node hd chs =>
      if hd.pfxLen > pmlen hd key then true
      else
        match findidx hd (partialKey key (hd.pfxOfs + hd.pfxLen) (nodeKeyLen hd.type)) with
        | some idx => decidesAt key chs idx
        | none => true

def decidesAt (key : Nat) : List Tree → Nat → Bool
  | [], _ => true
  | t :: _, 0 => decides key t
  | _ :: ts, i + 1 => decidesAt key ts i

end

theorem decidesAt_eq (key : Nat) (chs : List Tree) (i : Nat) :
    decidesAt key chs i = decides key (chs.getD i .null) :=
  at_eq Tree.null (fun _ => by rw [decidesAt, decides]) (fun _ _ => rfl) (fun _ _ _ => rfl) chs i

theorem decides_node (hmis : ¬ hd.pfxLen > pmlen hd key) : decides key (.node hd chs) =
    decides key (findch hd chs (partialKey key (hd.pfxOfs + hd.pfxLen) (nodeKeyLen hd.type))) := by
  rw [decides, if_neg hmis, findch]
  cases findidx hd (partialKey key (hd.pfxOfs + hd.pfxLen) (nodeKeyLen hd.type)) with
  | none => exact (decides.eq_1 key).symm
  | some idx => exact decidesAt_eq key chs _

theorem scanSearch_node (key n : Nat) (hd : Head) (chs : List Tree) (ret : List (Nat × Nat)) :
    scanSearch key n (.node hd chs) ret =
      if hd.pfxLen > pmlen hd key then
        if partialKey hd.pfx (hd.pfxOfs + pmlen hd key) 8 <
          partialKey key (hd.pfxOfs + pmlen hd key) 8 then some ret
        else scanAppend n (.node hd chs) none ret
      else
        (scanSearch key n
          (findch hd chs (partialKey key (hd.pfxOfs + hd.pfxLen) (nodeKeyLen hd.type))) ret).bind
          (scanAppend n (.node hd chs)
            (some (partialKey key (hd.pfxOfs + hd.pfxLen) (nodeKeyLen hd.type)))) := by
  have hnull : scanSearch key n default ret = some ret := scanSearch.eq_1 key n ret
  have hnull' : (default : Tree) = .null := rfl
  simp only [scanSearch, findch, scanSearchAt_eq, getch, hnull']
  cases hi : findidx hd (partialKey key (hd.pfxOfs + hd.pfxLen) (nodeKeyLen hd.type)) with
  | none => simp only [scanSearch]
  | some i => rfl

/-- A scan of a subtree from the key on appends the first of the pairs `l`:
those from the key on, unless the search leaves the key at a wrong decision. -/
structure Scans (key ofs : Nat) (t : Tree) (l : List (Nat × Nat)) : Prop where
  run : ∀ n (ret : List (Nat × Nat)), ret.length < n →
    scanSearch key n t ret = some (ret ++ l.take (n - ret.length))
  suffix : l <:+ t.radix.values
  right : decides key t = true → l = t.radix.valuesFrom (rest ofs) (key % 2 ^ rest ofs)
  wrong : decides key t = false → ∃ pre ≠ [],
    t.radix.valuesFrom (rest ofs) (key % 2 ^ rest ofs) = pre ++ l ∨
      l = pre ++ t.radix.valuesFrom (rest ofs) (key % 2 ^ rest ofs)

theorem Scans.of_right {l : List (Nat × Nat)} (run : ∀ n (ret : List (Nat × Nat)), ret.length < n →
      scanSearch key n t ret = some (ret ++ l.take (n - ret.length)))
    (suffix : l <:+ t.radix.values) (hd : decides key t = true)
    (heq : l = t.radix.valuesFrom (rest ofs) (key % 2 ^ rest ofs)) : Scans key ofs t l :=
  ⟨run, suffix, fun _ => heq, fun hne => by simp [hd] at hne⟩

theorem scans_null : Scans key ofs .null [] :=
  .of_right (by simp [scanSearch]) List.nil_suffix (by simp [decides]) rfl

theorem scans_leaf {val : Nat} (h : Wf hd.pfxOfs (.leaf hd val)) (key : Nat) :
    ∃ l, Scans key hd.pfxOfs (.leaf hd val) l := by
  cases h with
  | leaf type _ aligned ofs_le pfxLen =>
      have hpm : hd.pfxLen > pmlen hd key ↔ _ := pmlen_leaf (by omega) (by omega)
      refine ⟨_, .of_right (fun n ret hlt => ?_) ?_ (by simp [decides]) rfl⟩
      · obtain ⟨m, hm⟩ : ∃ m, n - ret.length = m + 1 := ⟨n - ret.length - 1, by omega⟩
        rw [Tree.radix, Radix.valuesFrom_leaf, hm, scanSearch]
        by_cases hmis : hd.pfxLen > pmlen hd key
        · have hord := prefix_order (show hd.pfxOfs + hd.pfxLen ≤ 64 by omega) (by omega) hmis
          have hz : rest hd.pfxOfs - hd.pfxLen = 0 := by
            rw [rest]
            omega
          simp only [hz, slice, pow_zero, Nat.div_one] at hord
          rw [if_pos hmis]
          split
          · rw [if_pos ‹_›] at hord
            rw [if_neg (by omega)]
            simp
          · rw [if_neg ‹_›] at hord
            rw [if_pos (by omega)]
            simp [scanAppend]
        · have heq := not_not.mp (mt hpm.mpr hmis)
          rw [if_neg hmis, if_pos heq.le]
          simp
      · rw [Tree.radix, Radix.valuesFrom_leaf, Radix.values]
        split
        · exact List.suffix_refl _
        · exact List.nil_suffix

theorem scans_node (h : Wf hd.pfxOfs (.node hd chs))
    (ih : ∀ c ∈ chs, ∃ l, Scans key (hd.pfxOfs + hd.pfxLen + nodeKeyLen hd.type) c l) :
    ∃ l, Scans key hd.pfxOfs (.node hd chs) l := by
  have happend : ∀ n pkey ret, scanAppend n (.node hd chs) pkey ret = _ := fun n =>
    scanAppend_node h fun c hc hne ret hlt => by
      cases h with
      | node _ _ _ _ _ _ children => exact scanAppend_eq (children c hc) hne hlt
  have hfits := h.fits
  cases h with
  | node _ aligned len_le head full live children =>
      have hpm : hd.pfxLen > pmlen hd key ↔ _ := pmlen_lt (by omega) aligned.1
      obtain ⟨hhigh, hdig, hlow⟩ := key_digits hd.pfxLen (nodeKeyLen_eq hd.type) len_le key
      rw [radix_node, ← rest_add len_le] at hfits
      by_cases hmis : hd.pfxLen > pmlen hd key
      · have hord := prefix_order (show hd.pfxOfs + hd.pfxLen ≤ 64 by omega) aligned.1 hmis
        have hdecides : decides key (.node hd chs) = true := by rw [decides, if_pos hmis]
        by_cases hlt : partialKey hd.pfx (hd.pfxOfs + pmlen hd key) 8 <
            partialKey key (hd.pfxOfs + pmlen hd key) 8
        · rw [if_pos hlt] at hord
          have hlower := Radix.valuesFrom_lower hfits (hhigh ▸ hord)
          rw [rest_add len_le, ← radix_node] at hlower
          refine ⟨[], .of_right (fun n ret _ => ?_) List.nil_suffix hdecides hlower.symm⟩
          rw [scanSearch_node, if_pos hmis, if_pos hlt, List.take_nil, List.append_nil]
        · rw [if_neg hlt] at hord
          have hhigher := Radix.valuesFrom_higher hfits (hhigh ▸ hord)
          rw [rest_add len_le, ← radix_node] at hhigher
          refine ⟨_, .of_right (fun n ret _ => ?_) (List.suffix_refl _) hdecides hhigher.symm⟩
          rw [scanSearch_node, if_pos hmis, if_neg hlt, happend, radix_node]
          rfl
      · have heq : slice (rest hd.pfxOfs) (rest hd.pfxOfs - hd.pfxLen) key = hd.prefixBits :=
          not_not.mp (mt hpm.mpr hmis)
        have hpath := Radix.valuesFrom_path hfits (hhigh.trans heq) hdig
        rw [rest_add len_le, hlow] at hpath
        have hdig_lt : partialKey key (hd.pfxOfs + hd.pfxLen) (nodeKeyLen hd.type) <
            2 ^ nodeKeyLen hd.type := partialKey_lt (nodeKeyLen_eq hd.type) len_le
        obtain ⟨l, hl⟩ : ∃ l, Scans key (hd.pfxOfs + hd.pfxLen + nodeKeyLen hd.type)
            (findch hd chs (partialKey key (hd.pfxOfs + hd.pfxLen) (nodeKeyLen hd.type))) l := by
          rcases findch_mem hd chs (partialKey key (hd.pfxOfs + hd.pfxLen) (nodeKeyLen hd.type)) with
            hnull | hmem
          · rw [hnull]
            exact ⟨[], scans_null⟩
          · exact ih _ hmem
        refine ⟨l ++ (above (nodeKeyLen hd.type) (some (partialKey key (hd.pfxOfs + hd.pfxLen)
          (nodeKeyLen hd.type)))).flatMap (fun d => (findch hd chs d).radix.values),
          fun n ret hlt => ?_, ?_, fun hdec => ?_, fun hdec => ?_⟩
        · rw [scanSearch_node, if_neg hmis, hl.run n ret hlt, Option.bind_some, happend,
            SearchTree.Multiway.take_append_take]
        · obtain ⟨pre, hpre⟩ := hl.suffix
          rw [radix_node, Radix.values_around hdig_lt, ← hpre, List.append_assoc, ← List.append_assoc]
          exact List.suffix_append _ _
        · rw [decides_node hmis] at hdec
          rw [radix_node, hpath, ← hl.right hdec]
          rfl
        · rw [decides_node hmis] at hdec
          rw [radix_node, hpath]
          obtain ⟨pre, hne, hpre | hpre⟩ := hl.wrong hdec
          · refine ⟨pre, hne, .inl ?_⟩
            rw [hpre, List.append_assoc]
            rfl
          · refine ⟨pre, hne, .inr ?_⟩
            rw [hpre, List.append_assoc]
            rfl

theorem scans_tagged (h : Wf ofs (.tagged lo t)) (ih : ∃ l, Scans key (ofs + 4) t l) :
    ∃ l, Scans key ofs (.tagged lo t) l := by
  have hfits := h.fits
  cases h with
  | tagged half ofs_le lo_lt pfxOfs child =>
      obtain ⟨hdig, hlow⟩ := key_nibble ofs_le key
      have hz : key % 2 ^ rest ofs / 2 ^ (4 + rest (ofs + 4)) = 0 := by
        rw [← Nat.zero_add (4 + rest (ofs + 4)), ← Nat.add_assoc, rest_four ofs_le]
        exact Nat.div_eq_of_lt (Nat.mod_lt _ (Nat.two_pow_pos _))
      rw [Tree.radix, ← rest_four ofs_le] at hfits
      have hfrom := Radix.valuesFrom_single t.radix lo_lt hfits hz
      rw [rest_four ofs_le, hdig, hlow, ← Tree.radix] at hfrom
      have hvalues : (Tree.tagged lo t).radix.values = t.radix.values :=
        Radix.values_single t.radix lo_lt
      have hpm : ptrPfxMatch lo t.pfxOfs key < 4 ↔ partialKey key ofs 4 ≠ lo := by
        rw [pfxOfs, ptrPfxMatch_lt lo_lt (by omega) ofs_le, Nat.add_sub_cancel]
      have hne : t ≠ .null := Wf.plain_ne pfxOfs
      by_cases hmis : partialKey key ofs 4 = lo
      · obtain ⟨l, hl⟩ := ih
        have hdecides : decides key (.tagged lo t) = decides key t := by
          rw [decides, if_neg (not_not.mpr hmis ∘ hpm.mp)]
        rw [if_pos hmis] at hfrom
        refine ⟨l, fun n ret hlt => ?_, hvalues ▸ hl.suffix, fun hdec => ?_, fun hdec => ?_⟩
        · rw [scanSearch, if_neg (not_not.mpr hmis ∘ hpm.mp)]
          exact hl.run n ret hlt
        · rw [hfrom]
          exact hl.right (hdecides ▸ hdec)
        · rw [hfrom]
          exact hl.wrong (hdecides ▸ hdec)
      · have hdecides : decides key (.tagged lo t) =
            decide (lo < partialKey key t.pfxOfs 4 ↔ lo < partialKey key ofs 4) := by
          rw [decides, if_pos (hpm.mpr hmis), pfxOfs, Nat.add_sub_cancel]
        have hiff : partialKey key ofs 4 < lo ↔ ¬ lo < partialKey key ofs 4 := by omega
        rw [if_neg hmis] at hfrom
        simp only [hiff] at hfrom
        refine ⟨if lo < partialKey key t.pfxOfs 4 then [] else t.radix.values, fun n ret hlt => ?_, ?_,
          fun hdec => ?_, fun hdec => ?_⟩
        · rw [scanSearch, if_pos (hpm.mpr hmis)]
          split
          · simp
          · exact scanAppend_eq child hne hlt
        · rw [hvalues]
          split
          · exact List.nil_suffix
          · exact List.suffix_refl _
        · rw [hdecides, decide_eq_true_eq] at hdec
          rw [hfrom, ite_not]
          simp only [hdec]
        · rw [hdecides, decide_eq_false_iff_not] at hdec
          rw [hfrom, ite_not]
          refine ⟨t.radix.values, child.values_ne hne, ?_⟩
          by_cases hright : lo < partialKey key ofs 4
          · exact .inr (by simp [hright, mt (iff_of_true · hright) hdec])
          · exact .inl (by simp [hright, not_not.mp (mt (iff_of_false · hright) hdec)])

/-- `scan_search` of any subtree. -/
theorem scans (h : Wf ofs t) (key : Nat) : ∃ l, Scans key ofs t l := by
  induction h with
  | null => exact ⟨[], scans_null⟩
  | leaf type pfxOfs aligned ofs_le pfxLen =>
      subst pfxOfs
      exact scans_leaf (.leaf type rfl aligned ofs_le pfxLen) key
  | node pfxOfs aligned len_le head full live children ih =>
      subst pfxOfs
      exact scans_node (.node rfl aligned len_le head full live children) ih
  | tagged half ofs_le lo_lt pfxOfs child ih =>
      exact scans_tagged (.tagged half ofs_le lo_lt pfxOfs child) ih

section Build

variable {f : Nat → Option Nat} {l : List (Nat × Nat)}

theorem take_ne {pre xs : List (Nat × Nat)} (hn : (pre ++ xs).Nodup) (hpre : pre ≠ []) (h1 : 1 ≤ n) :
    (pre ++ xs).take n ≠ xs.take n := by
  obtain ⟨n, rfl⟩ : ∃ m, n = m + 1 := ⟨n - 1, by omega⟩
  obtain ⟨x, pre, rfl⟩ := List.exists_cons_of_ne_nil hpre
  cases xs with
  | nil => simp
  | cons y xs =>
      rw [List.cons_append, List.take_succ_cons, List.take_succ_cons]
      intro heq
      obtain ⟨rfl, -⟩ := List.cons.inj heq
      exact (List.nodup_cons.mp hn).1 (List.mem_append_right pre List.mem_cons_self)

theorem Holds.scan_iff (h : Holds f t) (hl : Lists f l) {k : Nat} (hk : k < 2 ^ 64) (hn : 1 ≤ n) :
    scan t k n = some ((l.filter (k ≤ ·.1)).take n) ↔ decides k t = true := by
  obtain ⟨seen, hseen⟩ := scans h.wf k
  have hid : (Prod.snd ∘ fun e : Nat × Nat => (e.1, e)) = id := rfl
  have hvalues : t.radix.values = l := by
    rw [← Radix.pairs_values 64, h.pairs hl, List.map_map, hid, List.map_id]
  have hfrom : t.radix.valuesFrom (rest 0) (k % 2 ^ rest 0) = l.filter (k ≤ ·.1) := by
    rw [rest_zero, Nat.mod_eq_of_lt hk, Radix.valuesFrom, h.pairs hl, List.filter_map, List.map_map,
      hid, List.map_id]
    rfl
  have hnodup : l.Nodup := (List.pairwise_map.mp hl.ascending).imp fun hlt heq => (heq ▸ hlt).false
  have hrun : scan t k n = some (seen.take n) := hseen.run n [] hn
  rw [hrun, Option.some.injEq, ← hfrom]
  constructor
  · intro heq
    by_contra hwrong
    obtain ⟨pre, hpre, heq' | heq'⟩ := hseen.wrong (by simpa using hwrong)
    · have hfilter : (pre ++ seen).Nodup := by
        rw [← heq', hfrom]
        exact hnodup.filter _
      rw [heq'] at heq
      exact take_ne hfilter hpre hn heq.symm
    · have hsuffix : (pre ++ t.radix.valuesFrom (rest 0) (k % 2 ^ rest 0)).Nodup := by
        rw [← heq']
        exact hnodup.sublist (hvalues ▸ hseen.suffix).sublist
      rw [heq'] at heq
      exact take_ne hsuffix hpre hn heq
  · intro hdec
    rw [hseen.right hdec]

end Build

end Contrees.Trees.Aert
