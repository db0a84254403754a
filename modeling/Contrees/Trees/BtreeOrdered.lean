import Contrees.Library.OrderedMap
import Contrees.Library.SearchTreeShape
import Contrees.Trees.BtreeInplace
import Contrees.Trees.BnodeBuild

namespace Contrees.Trees.Btree

open Library Library.Memory Library.SearchTree Library.OrderedMap Conctrl Bnode

variable {a : NodeType} {ks : List Nat} {cs : List (NodeTree NodeType)} {T T' : NodeTree NodeType}
  {elems us : List (Nat × Nat)} {k v d : Nat}

/-- A valid B-tree: 8 to 15 keys in a leaf and 7 to 15 in an INTERNAL node below
the root, and an INTERNAL root has a key. -/
structure Balanced (T : NodeTree NodeType) : Prop where
  ordered : T.Ordered none none
  shaped : T.Shaped 0 B 0 ∨ ∃ d, T.Shaped B B (d + 1)
  filled : T.Filled B 2

theorem Balanced.sound (hT : Balanced T) : Sound T := ⟨hT.ordered, hT.shaped⟩

def leafInserts (k : Nat) (ks : List Nat) : List Nat :=
  if ks[findval ks k]? = some k then [] else if ks.length < 2 * B - 1 then [ks.length] else []

/-- The sizes of the nodes that `update_internal_inplace` inserts into, on the
same path and at the time of the insertion. -/
def internalInserts (k : Nat) : NodeTree NodeType → List Nat
  | .leaf _ _ _ => []
  | .node _a ks cs =>
      match _hc : cs[findch ks k]? with
      | none => []
      | some (.leaf b lks lvs) =>
          match updateLeafInplace b lks lvs k 0 with
          | .one _ => leafInserts k lks
          | .two _ _ _ => [ks.length]
      | some (.node b cks ccs) =>
          if cks.length < 2 * B - 1 then internalInserts k (.node b cks ccs)
          else
            match cks[B - 1]? with
            | none => []
            | some p =>
                if p ≤ k then ks.length :: internalInserts k (halves cks ccs).2
                else ks.length :: internalInserts k (halves cks ccs).1
  termination_by t => t.height
  decreasing_by
    all_goals
      have hlt : (Multiway.node b cks ccs).height < (Multiway.node _a ks cs).height :=
        Multiway.height_lt (List.mem_of_getElem? _hc)
      have htake : Multiway.heights (ccs.take B) ≤ Multiway.heights ccs :=
        Multiway.heights_mono fun c h => List.mem_of_mem_take h
      have hdrop : Multiway.heights (ccs.drop B) ≤ Multiway.heights ccs :=
        Multiway.heights_mono fun c h => List.mem_of_mem_drop h
      simp only [Multiway.height, halves] at hlt ⊢
      omega

def rootInserts (k : Nat) : NodeTree NodeType → List Nat
  | .leaf _ ks _ => leafInserts k ks
  | .node a ks cs =>
      if ks.length < 2 * B - 1 then internalInserts k (.node a ks cs)
      else
        match ks[B - 1]? with
        | none => []
        | some p =>
            if p ≤ k then internalInserts k (halves ks cs).2 else internalInserts k (halves ks cs).1

theorem leafInserts_room : ∀ s ∈ leafInserts k ks, s < 2 * B - 1 := by
  intro s hs
  simp only [leafInserts] at hs
  split at hs
  · simp at hs
  · split at hs
    · rename_i hroom
      rwa [List.mem_singleton.mp hs]
    · simp at hs

theorem halves_room : (ks.take (B - 1)).length < 2 * B - 1 := by
  rw [List.length_take]
  exact lt_of_le_of_lt (min_le_left _ _) (by decide)

theorem internalInserts_room (hshaped : (Multiway.node a ks cs).Shaped B B (d + 1))
    (hroom : ks.length < 2 * B - 1) : ∀ s ∈ internalInserts k (.node a ks cs), s < 2 * B - 1 := by
  induction d generalizing a ks cs with
  | zero =>
      obtain ⟨-, -, hall⟩ := hshaped
      intro s hs
      rw [internalInserts] at hs
      split at hs
      · simp at hs
      · split at hs
        · exact leafInserts_room s hs
        · rwa [List.mem_singleton.mp hs]
      · rename_i hc
        exact (hall _ (List.mem_of_getElem? hc)).elim
  | succ d ih =>
      obtain ⟨-, -, hall⟩ := hshaped
      intro s hs
      rw [internalInserts] at hs
      split at hs
      · simp at hs
      · rename_i hc
        exact (hall _ (List.mem_of_getElem? hc)).elim
      · rename_i b cks ccs hc
        have hcs := hall _ (List.mem_of_getElem? hc)
        split at hs
        · rename_i hlt
          exact ih hcs hlt s hs
        · rename_i hfull
          obtain ⟨hl, hr⟩ := halves_shaped hcs hfull
          have hdrop : (cks.drop B).length < 2 * B - 1 := by
            have hmax := hcs.1
            rw [List.length_drop]
            exact lt_of_le_of_lt (Nat.sub_le_sub_right hmax B) (by decide)
          split at hs
          · simp at hs
          · split at hs
            · rcases List.mem_cons.mp hs with rfl | hs
              exacts [hroom, ih hr hdrop s hs]
            · rcases List.mem_cons.mp hs with rfl | hs
              exacts [hroom, ih hl halves_room s hs]

theorem rootInserts_room (hT : Sound T) (k : Nat) : ∀ s ∈ rootInserts k T, s < 2 * B - 1 := by
  obtain ⟨-, hshaped⟩ := hT
  cases T with
  | leaf a ks vs => exact leafInserts_room
  | node a ks cs =>
      obtain ⟨d, hs⟩ : ∃ d, (Multiway.node a ks cs).Shaped B B (d + 1) := by
        rcases hshaped with hs | hs
        exacts [hs.elim, hs]
      simp only [rootInserts]
      split
      · rename_i hroom
        exact internalInserts_room hs hroom
      · rename_i hfull
        obtain ⟨hl, hr⟩ := halves_shaped hs hfull
        have hdrop : (ks.drop B).length < 2 * B - 1 := by
          rw [List.length_drop]
          exact lt_of_le_of_lt (Nat.sub_le_sub_right hs.1 B) (by decide)
        split
        · simp
        · split
          · exact internalInserts_room hr hdrop
          · exact internalInserts_room hl halves_room

theorem Balanced.updateRootInplace (hT : Balanced T) (k v : Nat) : ∃ T',
    updateRootInplace k v T = some T' ∧ Balanced T' ∧ T'.pairs = insertPair k (some v) T.pairs := by
  have result : ∀ {u : Updated NodeType Nat (Option Nat)},
      SearchTree.insert inplace B k (some v) T = some u →
        ∃ T', Btree.updateRootInplace k v T = some T' ∧
        T' = u.rooted .internal ∧ T'.Ordered none none ∧
          T'.pairs = insertPair k (some v) T.pairs := by
    intro u hins
    obtain ⟨hu, htouch⟩ := insert_inserted B_pos hT.ordered (within_none k) hins
    have hpairs := htouch.pairs_of_set fun _ _ _ => rfl
    refine ⟨u.rooted .internal, by rw [updateRootInplace_eq hT.sound, hins]; rfl, rfl,
      hu.rooted _, ?_⟩
    rwa [Multiway.pairs, Updated.leaves_rooted]
  obtain ⟨u, hins, hsu, hfu⟩ : ∃ u, SearchTree.insert inplace B k (some v) T = some u ∧
      ((u.Shaped 0 B 0 ∨ ∃ d, u.Shaped B B (d + 1)) ∧ u.Filled B 2) := by
    rcases hT.shaped with hs | ⟨d, hs⟩
    · cases T with
      | leaf a ks vs =>
          exact ⟨_, rfl, .inl (updateLeaf_shaped B_pos hs), insert_filled hs hT.filled rfl⟩
      | node a ks cs => exact hs.elim
    · obtain ⟨u, hins, hsu⟩ : ∃ u, SearchTree.insert inplace B k (some v) T = some u ∧
          u.Shaped B B (d + 1) := insert_shaped B_pos hs
      exact ⟨u, hins, .inr ⟨d, hsu⟩, insert_filled hs hT.filled hins⟩
  obtain ⟨T', hT', rfl, hord, hpairs⟩ := result hins
  refine ⟨_, hT', ⟨hord, ?_, ?_⟩, hpairs⟩
  · cases u with
    | one c => exact hsu
    | two p l r =>
        right
        rcases hsu with hsu | ⟨d, hsu⟩
        exacts [⟨0, two_shaped hsu.1 hsu.2⟩, ⟨d + 1, two_shaped hsu.1 hsu.2⟩]
  · cases u with
    | one c => exact hfu
    | two p l r =>
        refine .node (by simp) fun c hc => ?_
        simp only [List.mem_cons, List.not_mem_nil, or_false] at hc
        rcases hc with rfl | rfl
        exacts [hfu.1, hfu.2]

theorem inplaceAll_balanced (hT : Balanced T) {f : Nat → Option Nat}
    (hf : Lists (fun k => (f k).map some) T.pairs) (us : List (Nat × Nat)) :
    ∃ T', inplaceAll us T = some T' ∧ Balanced T' ∧
      Lists (fun k => (writes us f k).map some) T'.pairs := by
  induction us generalizing T f with
  | nil => exact ⟨T, rfl, hT, hf⟩
  | cons u us ih =>
      obtain ⟨k, v⟩ := u
      obtain ⟨T₁, hT₁, hbal, hpairs⟩ := hT.updateRootInplace k v
      have hf₁ : Lists (fun k' => (Function.update f k (some v) k').map some) T₁.pairs := by
        have hins := hf.insertPair k (some v)
        rw [← hpairs] at hins
        convert hins using 1
        funext k'
        simp only [Function.update_apply]
        split <;> rfl
      obtain ⟨T', hT', hbal', hf'⟩ := ih hbal hf₁
      exact ⟨T', by simp [inplaceAll, hT₁, hT'], hbal', hf'⟩

theorem build_balanced (hd : (elems.map Prod.fst).Nodup) : ∃ T, build elems = some T ∧ Balanced T ∧
    Lists (fun k => (elems.lookup k).map some) T.pairs := by
  obtain ⟨T, hT, hord, hpairs, hcase⟩ : ∃ T, build elems = some T ∧ T.Ordered none none ∧
      T.pairs = (sorted elems).map (fun e => (e.1, some e.2)) ∧
      ((sorted elems).length < 2 * B ∧ T = leafOf NodeType.leaf (sorted elems) ∨
        2 * B ≤ (sorted elems).length ∧ (∃ d, T.Shaped B B (d + 1)) ∧
          T.Filled B (minChildren 0)) := by
    refine buildSorted_spec (R := fun d c => c.2.Filled B (minChildren d)) ?_
      (fun _ _ _ _ _ => .leaf)
      (sorted_keys hd)
    intro d chs hmin _ hchs
    refine .node (by simpa using hmin) fun c hc => ?_
    obtain ⟨x, hx, rfl⟩ := List.mem_map.mp hc
    exact hchs x hx
  refine ⟨T, hT, ⟨hord, ?_, ?_⟩, ?_⟩
  · rcases hcase with ⟨hlt, rfl⟩ | ⟨-, hs, -⟩
    · refine .inl ⟨Nat.zero_le _, ?_, by simp⟩
      rw [List.length_map]
      omega
    · exact .inr hs
  · rcases hcase with ⟨-, rfl⟩ | ⟨-, -, hfilled⟩
    exacts [.leaf, hfilled]
  · rw [hpairs]
    have hlist := (Lists.of_lookup (sorted_keys hd)).map some
    convert hlist using 1
    funext k
    rw [lookup_perm (sorted_perm elems) (((sorted_perm elems).map _).nodup_iff.mpr hd)]

/-- Trees that are built and then updated in place are valid B-trees, serve the
map of the last writes, and no update inserts into a full node. -/
theorem inplace_serves (elems us : List (Nat × Nat)) (hd : (elems.map Prod.fst).Nodup) :
    ∃ T T', build elems = some T ∧ inplaceAll us T = some T' ∧ Balanced T' ∧
      Serves (fun k => (writes us (fun k => elems.lookup k) k).map some) T'.find T'.scan ∧
      ∀ k, ∀ s ∈ rootInserts k T', s < 2 * B - 1 := by
  obtain ⟨T, hT, hbal, hlist⟩ := build_balanced hd
  obtain ⟨T', hT', hbal', hlist'⟩ := inplaceAll_balanced hbal hlist us
  exact ⟨T, T', hT, hT', hbal', serves_of_pairs hbal'.ordered hlist', rootInserts_room hbal'.sound⟩

def sampleElems : List (Nat × Nat) := (List.range 16).map fun k => (k, 0)

theorem build_sampleElems : build sampleElems = some sampleTree := by
  have hsorted : sorted sampleElems = sampleElems := List.mergeSort_of_pairwise (by decide)
  rw [build, hsorted]
  rfl

theorem inplace_serves_sample : build sampleElems = some sampleTree ∧ ∃ T',
    inplaceAll ((List.range' 16 8).map fun k => (k, k)) sampleTree = some T' ∧ T'.leaves.length = 3 ∧
      Balanced T' ∧ Serves (fun k => (writes ((List.range' 16 8).map fun k => (k, k))
        (fun k => sampleElems.lookup k) k).map some) T'.find T'.scan ∧
          ∀ k, ∀ s ∈ rootInserts k T', s < 2 * B - 1 := by
  obtain ⟨T, T', hT, hT', hserves⟩ :=
    inplace_serves sampleElems ((List.range' 16 8).map fun k => (k, k)) (by decide)
  obtain rfl := Option.some.inj (build_sampleElems.symm.trans hT)
  have hlen : (inplaceAll ((List.range' 16 8).map fun k => (k, k)) sampleTree).map
      (·.leaves.length) = some 3 := by decide +kernel
  rw [hT'] at hlen
  exact ⟨hT, T', hT', Option.some.inj hlen, hserves⟩

end Contrees.Trees.Btree
