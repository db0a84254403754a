import Contrees.Trees.BtreeUpdate

namespace Contrees.Trees.Btree

open Library Library.Memory Library.SearchTree Conctrl Bnode

variable {a : NodeType} {ks : List Nat} {vs : List (Option Nat)} {cs : List (NodeTree NodeType)}
  {T T' : NodeTree NodeType} {us : List (Nat × Nat)} {k v d : Nat}

def inplace : Style NodeType (Option Nat) where
  hit := fun i v vs => vs.set i v
  grown := fun _ => .leaf
  fresh := .leaf
  half := fun _ => .internal
  hit_length := by simp

theorem updateLeafInplace_eq (hlen : ks.length = vs.length) :
    updateLeafInplace a ks vs k v = updateLeaf inplace B k (some v) a ks vs := by
  have hi := findval_le ks k
  have hi' : findval ks k ≤ vs.length := hlen ▸ hi
  by_cases hhit : ks[findval ks k]? = some k
  · simp only [updateLeafInplace, updateLeaf, if_pos hhit]
    rfl
  · by_cases hroom : ks.length < 2 * B - 1
    · simp only [updateLeafInplace, updateLeaf, if_neg hhit, if_pos hroom]
      rfl
    · have hsep : (ks.insertIdx (findval ks k) k).getD B k =
          ((ks.insertIdx (findval ks k) k).drop B).getD 0 k := by
        simp only [List.getD_eq_getElem?_getD, List.getElem?_drop, Nat.add_zero]
      simp only [updateLeafInplace, updateLeaf, if_neg hhit, if_neg hroom, hsep]
      by_cases hiB : findval ks k < B
      · obtain ⟨hkl, hkr⟩ := halves_of_lt k hiB hi
        obtain ⟨hvl, hvr⟩ := halves_of_lt (some v) hiB hi'
        rw [if_pos hiB, hkl, hkr, hvl, hvr]
        rfl
      · obtain ⟨hkl, hkr⟩ := halves_of_ge k (not_lt.mp hiB) hi
        obtain ⟨hvl, hvr⟩ := halves_of_ge (some v) (not_lt.mp hiB) hi'
        rw [if_neg hiB, hkl, hkr, hvl, hvr]
        rfl

theorem updateInternalInplace_child {c : NodeTree NodeType} (hc : cs[findch ks k]? = some c) :
    updateInternalInplace k v (.node a ks cs) = match c with
      | .leaf b lks lvs =>
          some (Updated.absorb a ks cs (findch ks k) (updateLeafInplace b lks lvs k v))
      | .node b cks ccs =>
          if cks.length < 2 * B - 1 then
            (updateInternalInplace k v (.node b cks ccs)).map (fun c =>
              Updated.absorb a ks cs (findch ks k) (.one c))
          else
            match cks[B - 1]? with
            | none => none
            | some p =>
                if p ≤ k then
                  (updateInternalInplace k v (halves cks ccs).2).map (fun r =>
                    Updated.absorb a ks cs (findch ks k) (.two p (halves cks ccs).1 r))
                else
                  (updateInternalInplace k v (halves cks ccs).1).map (fun l =>
                    Updated.absorb a ks cs (findch ks k) (.two p l (halves cks ccs).2)) := by
  rw [updateInternalInplace]
  split
  · simp_all
  · rename_i hc'
    obtain rfl := Option.some.inj (hc.symm.trans hc')
    rfl
  · rename_i hc'
    obtain rfl := Option.some.inj (hc.symm.trans hc')
    rfl

theorem halves_shaped (hshaped : (Multiway.node a ks cs).Shaped B B (d + 1))
    (hfull : ¬ ks.length < 2 * B - 1) :
    (halves ks cs).1.Shaped B B (d + 1) ∧ (halves ks cs).2.Shaped B B (d + 1) := by
  obtain ⟨hmax, hlen, hall⟩ := hshaped
  have := B_pos
  refine ⟨⟨?_, ?_, fun c hc => hall c (List.mem_of_mem_take hc)⟩,
    ⟨?_, ?_, fun c hc => hall c (List.mem_of_mem_drop hc)⟩⟩
  · rw [List.length_take]; omega
  · rw [List.length_take, List.length_take]; omega
  · rw [List.length_drop]; omega
  · rw [List.length_drop, List.length_drop]; omega

/-- What the in-place code does to the halves of a full node is what an
insertion does to the node. -/
theorem insert_full {p : Nat} (hshaped : (Multiway.node a ks cs).Shaped B B (d + 1))
    (hfull : ¬ ks.length < 2 * B - 1) (hp : ks[B - 1]? = some p)
    (ih : ∀ {b cks ccs}, (Multiway.node b cks ccs).Shaped B B (d + 1) →
      updateInternalInplace k v (.node b cks ccs) =
        (insertAt inplace B k (some v) (findch cks k) ccs).map
          (Updated.absorb b cks ccs (findch cks k))) :
    SearchTree.insert inplace B k (some v) (.node a ks cs) =
      if p ≤ k then
        (updateInternalInplace k v (halves ks cs).2).map fun r => .two p (halves ks cs).1 r
      else
        (updateInternalInplace k v (halves ks cs).1).map fun l => .two p l (halves ks cs).2 := by
  obtain ⟨hl, hr⟩ := halves_shaped hshaped hfull
  have hmax := hshaped.1
  simp only [SearchTree.insert, if_neg hfull, hp]
  by_cases hle : p ≤ k
  · rw [if_pos hle, if_pos hle, insertAt_drop, halves, ih hr, Option.map_map]
    rfl
  · have hfind : findch (ks.take (B - 1)) k < B := by
      have := B_pos
      have := findch_le (ks.take (B - 1)) k
      rw [List.length_take] at this
      omega
    rw [if_neg hle, if_neg hle, insertAt_take _ _ _ _ hfind, halves, ih hl, Option.map_map]
    rfl

theorem updateInternalInplace_eq (hshaped : (Multiway.node a ks cs).Shaped B B (d + 1)) :
    updateInternalInplace k v (.node a ks cs) =
      (insertAt inplace B k (some v) (findch ks k) cs).map
        (Updated.absorb a ks cs (findch ks k)) := by
  induction d generalizing a ks cs with
  | zero =>
      obtain ⟨-, hlen, hall⟩ := hshaped
      have hi : findch ks k < cs.length := by
        have := findch_le ks k
        omega
      have hc := List.getElem?_eq_getElem hi
      have hcs := hall _ (List.getElem_mem hi)
      generalize cs[findch ks k] = c at hc hcs
      rw [insertAt_eq _ _ _ _ hc, updateInternalInplace_child hc]
      cases c with
      | node b cks ccs => exact hcs.elim
      | leaf b lks lvs =>
          simp only [SearchTree.insert, Option.map_some]
          rw [updateLeafInplace_eq hcs.2.2.symm]
  | succ d ih =>
      obtain ⟨-, hlen, hall⟩ := hshaped
      have hi : findch ks k < cs.length := by
        have := findch_le ks k
        omega
      have hc := List.getElem?_eq_getElem hi
      have hcs := hall _ (List.getElem_mem hi)
      generalize cs[findch ks k] = c at hc hcs
      rw [insertAt_eq _ _ _ _ hc, updateInternalInplace_child hc]
      cases c with
      | leaf b lks lvs => exact hcs.elim
      | node b cks ccs =>
          by_cases hroom : cks.length < 2 * B - 1
          · simp only [if_pos hroom, SearchTree.insert]
            rw [ih hcs, Option.map_map, Option.map_map]
            rfl
          · obtain ⟨p, hp⟩ : ∃ p, cks[B - 1]? = some p :=
              ⟨_, List.getElem?_eq_getElem (by have := B_pos; omega)⟩
            simp only [if_neg hroom, hp]
            rw [insert_full hcs hroom hp ih]
            by_cases hle : p ≤ k
            · rw [if_pos hle, if_pos hle, Option.map_map]
              rfl
            · rw [if_neg hle, if_neg hle, Option.map_map]
              rfl

theorem updateRootInplace_eq (hT : Sound T) : updateRootInplace k v T =
    (SearchTree.insert inplace B k (some v) T).map (Updated.rooted .internal) := by
  obtain ⟨-, hshaped⟩ := hT
  cases T with
  | leaf a ks vs =>
      obtain ⟨-, -, hlen⟩ : (Multiway.leaf a ks vs).Shaped 0 B 0 := by
        rcases hshaped with hs | ⟨d, hs⟩
        exacts [hs, hs.elim]
      simp only [updateRootInplace, SearchTree.insert, updateLeafInplace_eq hlen.symm]
      cases updateLeaf inplace B k (some v) a ks vs <;> rfl
  | node a ks cs =>
      obtain ⟨d, hs⟩ : ∃ d, (Multiway.node a ks cs).Shaped B B (d + 1) := by
        rcases hshaped with hs | hs
        exacts [hs.elim, hs]
      by_cases hroom : ks.length < 2 * B - 1
      · simp only [updateRootInplace, if_pos hroom, SearchTree.insert, updateInternalInplace_eq hs,
          Option.map_map]
        rfl
      · obtain ⟨p, hp⟩ : ∃ p, ks[B - 1]? = some p :=
          ⟨_, List.getElem?_eq_getElem (by have := B_pos; omega)⟩
        rw [insert_full hs hroom hp updateInternalInplace_eq]
        simp only [updateRootInplace, if_neg hroom, hp]
        by_cases hle : p ≤ k
        · rw [if_pos hle, if_pos hle, Option.map_map]
          rfl
        · rw [if_neg hle, if_neg hle, Option.map_map]
          rfl

def inplaceAll : List (Nat × Nat) → NodeTree NodeType → Option (NodeTree NodeType)
  | [], T => some T
  | (k, v) :: us, T => (updateRootInplace k v T).bind (inplaceAll us)

/-- A B-tree with an INTERNAL root and no value left unwritten. -/
structure Valid (T : NodeTree NodeType) : Prop where
  ordered : T.Ordered none none
  shaped : ∃ d, T.Shaped B B (d + 1)
  written : none ∉ valsOf T.leaves

theorem Valid.sound (hT : Valid T) : Sound T := ⟨hT.ordered, .inr hT.shaped⟩

theorem sound_inserts (st : Style NodeType (Option Nat)) (hord : T.Ordered none none)
    (hshaped : ∃ d, T.Shaped B B (d + 1)) : ∃ T',
    (SearchTree.insert st B k (some v) T).map (Updated.rooted .internal) = some T' ∧
      T'.Ordered none none ∧ (∃ d, T'.Shaped B B (d + 1)) ∧
      Touches st B k (some v) T.leaves T'.leaves := by
  obtain ⟨d, hs⟩ := hshaped
  obtain ⟨u, hins, hsu⟩ : ∃ u, SearchTree.insert st B k (some v) T = some u ∧
      u.Shaped B B (d + 1) :=
    insert_shaped B_pos hs
  obtain ⟨hu, htouch⟩ := insert_inserted B_pos hord (within_none k) hins
  refine ⟨u.rooted .internal, by rw [hins]; rfl, hu.rooted _, ?_, by rwa [Updated.leaves_rooted]⟩
  cases u with
  | one c => exact ⟨d, hsu⟩
  | two sep l r => exact ⟨d + 1, two_shaped hsu.1 hsu.2⟩

theorem Valid.updateRootInplace (hT : Valid T) (k v : Nat) :
    ∃ T', updateRootInplace k v T = some T' ∧ Valid T' := by
  obtain ⟨T', hT', hord, hshaped, htouch⟩ := sound_inserts inplace hT.ordered hT.shaped
  refine ⟨T', by rw [updateRootInplace_eq hT.sound, hT'], hord, hshaped, fun hnone => ?_⟩
  rcases htouch.vals_of_set (fun _ _ _ => rfl) hnone with h | h
  · cases h
  · exact hT.written h

theorem inplaceAll_valid (hT : Valid T) (us : List (Nat × Nat)) :
    ∃ T', inplaceAll us T = some T' ∧ Valid T' := by
  induction us generalizing T with
  | nil => exact ⟨T, rfl, hT⟩
  | cons u us ih =>
      obtain ⟨T₁, hT₁, hval⟩ := hT.updateRootInplace u.1 u.2
      obtain ⟨T', hT', hval'⟩ := ih hval
      exact ⟨T', by simp [inplaceAll, hT₁, hT'], hval'⟩

theorem cowUpdate_node (hshaped : ∃ d, T.Shaped B B (d + 1)) : cowUpdate k v T =
    (SearchTree.insert (cow kind) B k (some v) T).map (Updated.rooted .internal) := by
  obtain ⟨d, hs⟩ := hshaped
  cases T with
  | leaf a ks vs => exact hs.elim
  | node a ks cs => rfl

theorem cow_hit_loses {old new : List (List Nat × List (Option Nat))}
    (h : Touches (cow kind) B k (some v) old new) (hk : k ∈ keysOf old)
    (hsize : ∀ l ∈ old, B ≤ l.1.length) : none ∈ valsOf new := by
  obtain ⟨pre, post, ks, vs, -, hlen, -, rfl, rfl⟩ := h.hit hk
  have hks : B ≤ ks.length := hsize (ks, vs) (by simp)
  have hnone : none ∈ ((vs.map (fun _ => (none : Option Nat))).set (findval ks k) (some v)) := by
    rw [List.mem_iff_getElem?]
    by_cases hi : findval ks k = 0
    · refine ⟨1, ?_⟩
      rw [List.getElem?_set_ne (by omega), List.getElem?_map,
        List.getElem?_eq_getElem (by rw [← hlen]; exact lt_of_lt_of_le (by decide) hks)]
      rfl
    · refine ⟨0, ?_⟩
      rw [List.getElem?_set_ne hi, List.getElem?_map,
        List.getElem?_eq_getElem (by rw [← hlen]; exact lt_of_lt_of_le (by decide) hks)]
      rfl
  simp only [valsOf_append, valsOf_singleton, List.mem_append]
  exact .inl (.inr hnone)

theorem cowAll_loses (hord : T.Ordered none none) (hshaped : ∃ d, T.Shaped B B (d + 1))
    (hnone : none ∈ valsOf T.leaves) (hT' : cowAll us T = some T') : none ∈ valsOf T'.leaves := by
  induction us generalizing T with
  | nil =>
      obtain rfl : T = T' := by simpa [cowAll] using hT'
      exact hnone
  | cons u us ih =>
      obtain ⟨k, v⟩ := u
      obtain ⟨T₁, hT₁, hord₁, hshaped₁, htouch⟩ :=
        sound_inserts (cow kind) hord hshaped (k := k) (v := v)
      rw [cowAll, cowUpdate_node hshaped, hT₁, Option.bind_some] at hT'
      refine ih hord₁ hshaped₁ ?_ hT'
      by_cases hk : k ∈ keysOf T.leaves
      · obtain ⟨d, hs⟩ := hshaped
        exact cow_hit_loses htouch hk fun l hl => (hs.leaves l hl).1
      · exact (htouch.mem_vals hk none).mpr (.inr hnone)

theorem agree_iff (hT : Valid T) :
    (∃ T', cowAll us T = some T' ∧ inplaceAll us T = some T') ↔
      (us.map Prod.fst).Nodup ∧ ∀ k ∈ us.map Prod.fst, k ∉ keysOf T.leaves := by
  induction us generalizing T with
  | nil => simp [cowAll, inplaceAll]
  | cons u us ih =>
      obtain ⟨k, v⟩ := u
      obtain ⟨T₁, hT₁, hval⟩ := hT.updateRootInplace k v
      by_cases hk : k ∈ keysOf T.leaves
      · refine iff_of_false ?_ (fun h => h.2 k (by simp) hk)
        rintro ⟨T', hcow, hin⟩
        obtain ⟨T₂, hT₂, hord₂, hshaped₂, htouch⟩ :=
          sound_inserts (cow kind) hT.ordered hT.shaped (k := k) (v := v)
        rw [cowAll, cowUpdate_node hT.shaped, hT₂, Option.bind_some] at hcow
        obtain ⟨d, hs⟩ := hT.shaped
        have hlost :=
          cowAll_loses hord₂ hshaped₂ (cow_hit_loses htouch hk fun l hl => (hs.leaves l hl).1)
          hcow
        obtain ⟨T₃, hT₃, hval₃⟩ := inplaceAll_valid hT ((k, v) :: us)
        obtain rfl := Option.some.inj (hin.symm.trans hT₃)
        exact hval₃.written hlost
      · have hsame : cowUpdate k v T = some T₁ := by
          have hcongr : SearchTree.insert (cow kind) B k (some v) T =
              SearchTree.insert inplace B k (some v) T := insert_congr rfl rfl rfl hk
          rw [cowUpdate_node hT.shaped, hcongr, ← updateRootInplace_eq hT.sound, hT₁]
        have hkeys := (cowUpdate_sound hT.sound hsame).2.2.mem_keys
        simp only [cowAll, inplaceAll, hsame, hT₁, Option.bind_some, ih hval, List.map_cons,
          List.nodup_cons, List.forall_mem_cons]
        constructor
        · rintro ⟨hnodup, hnew⟩
          refine ⟨⟨fun h => hnew k h ((hkeys k).mpr (.inl rfl)), hnodup⟩, hk, fun k' hk' => ?_⟩
          exact fun h => hnew k' hk' ((hkeys k').mpr (.inr h))
        · rintro ⟨⟨hnot, hnodup⟩, -, hnew⟩
          refine ⟨hnodup, fun k' hk' h => ?_⟩
          rcases (hkeys k').mp h with rfl | h
          exacts [hnot hk', hnew k' hk' h]

/-- On a valid tree the handlers and the in-place code leave the same tree
after a sequence of updates if and only if no update finds its key stored:
`copy_leaf` carries over no values. -/
theorem cow_agrees_iff {t : Nat} {h : NodeHeap NodeType} {p : NodePtr NodeType} (hT : Valid T)
    (hp : Denotes kind (Old t) h p T) :
    interface.EndsAll next (Holds fun T' => inplaceAll us T = some T') t (some p) h us ↔
      (us.map Prod.fst).Nodup ∧ ∀ k ∈ us.map Prod.fst, k ∉ keysOf T.leaves := by
  rw [endsAll_iff hT.sound hp, agree_iff hT]

def sampleTree : NodeTree NodeType :=
  .node .internal [8]
    [.leaf .leaf (List.range 8) (List.replicate 8 (some 0)),
      .leaf .leaf (List.range' 8 8) (List.replicate 8 (some 0))]

def sampleHeap : NodeHeap NodeType :=
  heapOf
    [(⟨0, 0, 0, .internal⟩, ⟨0, .internal, [8], []⟩, some [⟨0, 0, 1, .leaf⟩, ⟨0, 0, 2, .leaf⟩]),
      (⟨0, 0, 1, .leaf⟩, ⟨0, .leaf, List.range 8, List.replicate 8 (some 0)⟩, none),
      (⟨0, 0, 2, .leaf⟩, ⟨0, .leaf, List.range' 8 8, List.replicate 8 (some 0)⟩, none)]

theorem sampleTree_valid : Valid sampleTree := by
  refine ⟨?_, ⟨0, ?_⟩, by decide⟩
  · simp [sampleTree, Multiway.Ordered, Multiway.OrderedList, Within, Cut]
    decide
  · simp [sampleTree, Multiway.Shaped, B]

theorem sampleHeap_denotes : Denotes kind (Old 1) sampleHeap ⟨0, 0, 0, .internal⟩ sampleTree := by
  refine ⟨Nat.zero_lt_one, rfl, ⟨0, [], rfl⟩, _, rfl, _, _, rfl, ?_, _, _, rfl, ?_, rfl⟩
  · exact ⟨Nat.zero_lt_one, rfl, ⟨0, rfl⟩, rfl⟩
  · exact ⟨Nat.zero_lt_one, rfl, ⟨0, rfl⟩, rfl⟩

theorem cow_agrees_iff_sample :
    interface.EndsAll next (Holds fun T' => inplaceAll [(16, 1)] sampleTree = some T') 1
      (some ⟨0, 0, 0, .internal⟩) sampleHeap [(16, 1)] :=
  (cow_agrees_iff sampleTree_valid sampleHeap_denotes).mpr (by decide)

/-- An update of the stored key 3 leaves its seven neighbours unwritten. -/
theorem cow_disagrees : ¬ ∀ (T : NodeTree NodeType) (t : Nat) (h : NodeHeap NodeType)
    (p : NodePtr NodeType) (us : List (Nat × Nat)), Valid T → Denotes kind (Old t) h p T →
      interface.EndsAll next (Holds fun T' => inplaceAll us T = some T') t (some p) h us := by
  intro hall
  have hagree := hall sampleTree 1 sampleHeap ⟨0, 0, 0, .internal⟩ [(3, 99)] sampleTree_valid
    sampleHeap_denotes
  rw [endsAll_iff sampleTree_valid.sound sampleHeap_denotes, agree_iff sampleTree_valid] at hagree
  exact hagree.2 3 (by simp) (by decide)

end Contrees.Trees.Btree
