import Contrees.Trees.BnodeBuild
import Contrees.Trees.BtreeUpdate

namespace Contrees.Trees.Btree

open Library Library.Memory Library.SearchTree Conctrl Bnode

variable {T T' : NodeTree NodeType} {us : List (Nat × Nat)} {k v : Nat}

structure WellFormed (keys : List Nat) (T : NodeTree NodeType) : Prop where
  ordered : T.Ordered none none
  shaped : ∃ d, T.Shaped 0 B d
  mem_keys : ∀ k, k ∈ keysOf T.leaves ↔ k ∈ keys

theorem WellFormed.of_shaped {keys : List Nat} (hord : T.Ordered none none)
    (hshaped : ∃ d, T.Shaped B B (d + 1)) (hkeys : ∀ k, k ∈ keysOf T.leaves ↔ k ∈ keys) :
    WellFormed keys T := by
  obtain ⟨d, hs⟩ := hshaped
  exact ⟨hord, ⟨d + 1, hs.mono (Nat.zero_le B)⟩, hkeys⟩

theorem cowAll_internal (hord : T.Ordered none none) (hshaped : ∃ d, T.Shaped B B (d + 1))
    (us : List (Nat × Nat)) {keys : List Nat} (hkeys : ∀ k, k ∈ keysOf T.leaves ↔ k ∈ keys) :
    ∃ T', cowAll us T = some T' ∧ WellFormed (us.map Prod.fst ++ keys) T' := by
  induction us generalizing T keys with
  | nil => exact ⟨T, rfl, .of_shaped hord hshaped hkeys⟩
  | cons u us ih =>
      obtain ⟨key, val⟩ := u
      have hT : Sound T := ⟨hord, .inr hshaped⟩
      obtain ⟨d, hs⟩ := hshaped
      obtain ⟨u, hins, -⟩ : ∃ u, SearchTree.insert (cow kind) B key (some val) T = some u ∧
          u.Shaped B B (d + 1) := insert_shaped B_pos hs
      cases T with
      | leaf a ks vs => exact hs.elim
      | node a ks cs =>
          have hu : cowUpdate key val (.node a ks cs) = some (u.rooted .internal) := by
            simp [cowUpdate, hins]
          obtain ⟨hshaped₁, hord₁, htouch⟩ := cowUpdate_sound hT hu
          have hkeys₁ : ∀ k, k ∈ keysOf (u.rooted NodeType.internal).leaves ↔ k ∈ key :: keys := by
            intro k
            rw [htouch.mem_keys, hkeys, List.mem_cons]
          obtain ⟨T', hT', hwf⟩ := ih hord₁ hshaped₁ hkeys₁
          refine ⟨T', by simp [cowAll, hu, hT'], hwf.ordered, hwf.shaped, fun k => ?_⟩
          rw [hwf.mem_keys]
          simp only [List.map_cons, List.mem_append, List.mem_cons]
          tauto

theorem cowUpdate_leaf_iff {a : NodeType} {ks : List Nat} {vs : List (Option Nat)}
    (hs : ks.Pairwise (· < ·)) :
    (∃ T', cowUpdate k v (.leaf a ks vs) = some T') ↔ k ∉ ks ∧ 2 * B - 1 ≤ ks.length := by
  by_cases hmem : k ∈ ks
  · simp [cowUpdate, updateLeaf_of_mem a hs hmem, hmem]
  · by_cases hroom : ks.length < 2 * B - 1
    · simp only [cowUpdate, updateLeaf_of_room a hmem hroom, reduceCtorEq, exists_false, false_iff]
      exact fun h => absurd h.2 (not_le.mpr hroom)
    · simp [cowUpdate, updateLeaf_of_full a hmem (not_lt.mp hroom), hmem, not_lt.mp hroom]

theorem wellFormed_leaf {a : NodeType} {ks : List Nat} {vs : List (Option Nat)}
    (hord : (Multiway.leaf a ks vs : NodeTree NodeType).Ordered none none)
    (hmax : ks.length ≤ 2 * B - 1)
    {keys : List Nat} (hkeys : ∀ k, k ∈ ks ↔ k ∈ keys) : WellFormed keys (.leaf a ks vs) :=
  ⟨hord, ⟨0, Nat.zero_le _, hmax, hord.2.1.symm⟩, by simpa [Multiway.leaves] using hkeys⟩

theorem cowAll_leaf_iff {a : NodeType} {ks : List Nat} {vs : List (Option Nat)}
    (hord : (Multiway.leaf a ks vs : NodeTree NodeType).Ordered none none)
    (hmax : ks.length ≤ 2 * B - 1)
    {keys : List Nat} (hkeys : ∀ k, k ∈ ks ↔ k ∈ keys) (us : List (Nat × Nat)) :
    (∃ T', cowAll us (.leaf a ks vs) = some T' ∧ WellFormed (us.map Prod.fst ++ keys) T') ↔
      us = [] ∨ ks.length = 2 * B - 1 ∧ ∃ u us', us = u :: us' ∧ u.1 ∉ keys := by
  cases us with
  | nil => simpa [cowAll] using wellFormed_leaf hord hmax hkeys
  | cons u us =>
      obtain ⟨k, v⟩ := u
      have hiff : (∃ T', cowUpdate k v (.leaf a ks vs) = some T') ↔ k ∉ ks ∧
          2 * B - 1 ≤ ks.length :=
        cowUpdate_leaf_iff hord.1
      simp only [reduceCtorEq, false_or, List.cons.injEq]
      constructor
      · rintro ⟨T', hT', -⟩
        obtain ⟨T₁, hT₁, -⟩ := Option.bind_eq_some_iff.mp hT'
        obtain ⟨hk, hfull⟩ := hiff.mp ⟨T₁, hT₁⟩
        exact ⟨le_antisymm hmax hfull, (k, v), us, ⟨rfl, rfl⟩, fun h => hk ((hkeys k).mpr h)⟩
      · rintro ⟨hfull, _, _, ⟨rfl, rfl⟩, hk⟩
        obtain ⟨T₁, hT₁⟩ := hiff.mpr ⟨fun h => hk ((hkeys k).mp h), hfull.ge⟩
        have hsound : Sound (.leaf a ks vs) :=
          ⟨hord, .inl ⟨Nat.zero_le _, hmax, hord.2.1.symm⟩⟩
        obtain ⟨hshaped₁, hord₁, htouch⟩ := cowUpdate_sound hsound hT₁
        have hkeys₁ : ∀ k', k' ∈ keysOf T₁.leaves ↔ k' ∈ k :: keys := by
          intro k'
          rw [htouch.mem_keys, List.mem_cons]
          simp [Multiway.leaves, hkeys]
        obtain ⟨T', hT', hwf⟩ := cowAll_internal hord₁ hshaped₁ us hkeys₁
        refine ⟨T', by simp [cowAll, hT₁, hT'], hwf.ordered, hwf.shaped, fun k' => ?_⟩
        rw [hwf.mem_keys]
        simp only [List.map_cons, List.mem_append, List.mem_cons]
        tauto

def keysAfter (elems us : List (Nat × Nat)) (n : Nat) : List Nat :=
  (us.take n).map Prod.fst ++ elems.map Prod.fst

theorem build_spec {elems : List (Nat × Nat)} (hd : (elems.map Prod.fst).Nodup) :
    ∃ T, build elems = some T ∧ T.Ordered none none ∧
      (∀ k, k ∈ keysOf T.leaves ↔ k ∈ elems.map Prod.fst) ∧
      ((∃ a ks vs, elems.length < 2 * B ∧ T = .leaf a ks vs ∧ ks.length = elems.length) ∨
        2 * B ≤ elems.length ∧ ∃ d, T.Shaped B B (d + 1)) := by
  obtain ⟨T, hT, hord, hpairs, hcase⟩ : ∃ T, build elems = some T ∧ T.Ordered none none ∧
      T.pairs = (sorted elems).map (fun e => (e.1, some e.2)) ∧
      ((sorted elems).length < 2 * B ∧ T = leafOf NodeType.leaf (sorted elems) ∨
        2 * B ≤ (sorted elems).length ∧ (∃ d, T.Shaped B B (d + 1)) ∧ True) :=
    buildSorted_spec (R := fun _ _ => True) (fun _ _ _ _ _ => trivial) (fun _ _ _ _ _ => trivial)
      (sorted_keys hd)
  have hperm := (sorted_perm elems).map Prod.fst
  have hlen : (sorted elems).length = elems.length := (sorted_perm elems).length_eq
  refine ⟨T, hT, hord, fun k => ?_, ?_⟩
  · rw [← hord.map_fst_pairs, hpairs, List.map_map, ← hperm.mem_iff]
    rfl
  · rw [hlen] at hcase
    rcases hcase with ⟨hlt, rfl⟩ | ⟨hge, hs, -⟩
    · exact .inl ⟨_, _, _, hlt, rfl, by simp [hlen]⟩
    · exact .inr ⟨hge, hs⟩

/-- Updates of a built tree keep it a B-tree with the right keys if and only if
its root is INTERNAL, or its root is a full LEAF and the first key is new: after
every other update of a LEAF root `handle_init` goes on where it should return. -/
theorem wellFormed_iff (elems us : List (Nat × Nat)) (hd : (elems.map Prod.fst).Nodup) :
    ∃ T, build elems = some T ∧ ∀ t h p, Denotes kind (Old t) h p T →
      ((∀ n ≤ us.length, interface.EndsAll next (Holds (WellFormed (keysAfter elems us n))) t
          (some p) h (us.take n)) ↔
        us = [] ∨ 2 * B ≤ elems.length ∨
          elems.length = 2 * B - 1 ∧ ∃ u us', us = u :: us' ∧ u.1 ∉ elems.map Prod.fst) := by
  obtain ⟨T, hT, hord, hkeys, hcase⟩ := build_spec hd
  refine ⟨T, hT, fun t h p hp => ?_⟩
  rcases hcase with ⟨a, ks, vs, hlt, rfl, hlen⟩ | ⟨hge, hs⟩
  · have hmax : ks.length ≤ 2 * B - 1 := by omega
    have hsound : Sound (.leaf a ks vs) := ⟨hord, .inl ⟨Nat.zero_le _, hmax, hord.2.1.symm⟩⟩
    have hks : ∀ k, k ∈ ks ↔ k ∈ elems.map Prod.fst := by simpa [Multiway.leaves] using hkeys
    have hiff : ∀ n, interface.EndsAll next (Holds (WellFormed (keysAfter elems us n))) t (some p) h
        (us.take n) ↔ us.take n = [] ∨ ks.length = 2 * B - 1 ∧ ∃ u us', us.take n = u :: us' ∧
          u.1 ∉ elems.map Prod.fst := fun n => by
      rw [endsAll_iff hsound hp, keysAfter, cowAll_leaf_iff hord hmax hks]
    have hnot : ¬ 2 * B ≤ elems.length := not_le.mpr hlt
    constructor
    · intro hall
      have hlast := (hiff us.length).mp (hall us.length le_rfl)
      rw [List.take_length, hlen] at hlast
      exact hlast.imp_right .inr
    · rintro (rfl | hge | ⟨hfull, u, us', rfl, hu⟩) n -
      · exact (hiff n).mpr (.inl (by simp))
      · exact absurd hge hnot
      · refine (hiff n).mpr ?_
        cases n with
        | zero => exact .inl rfl
        | succ n => exact .inr ⟨hlen.trans hfull, u, us'.take n, rfl, hu⟩
  · refine iff_of_true (fun n _ => ?_) (.inr (.inl hge))
    rw [endsAll_iff ⟨hord, .inr hs⟩ hp]
    exact cowAll_internal hord hs _ hkeys

def samplePairs : List (Nat × Nat) := (List.range 16).map (fun k => (k, 0))

theorem wellFormed_sample : ∃ T, build samplePairs = some T ∧ ∀ t h p, Denotes kind (Old t) h p T →
    ∀ n ≤ 1, interface.EndsAll next (Holds (WellFormed (keysAfter samplePairs [(7, 1)] n))) t (some p)
      h ([(7, 1)].take n) := by
  obtain ⟨T, hT, hiff⟩ := wellFormed_iff samplePairs [(7, 1)] (by decide)
  exact ⟨T, hT, fun t h p hp => (hiff t h p hp).mpr (.inr (.inl (by decide)))⟩

/-- On a tree of one pair the first update already goes wrong. -/
theorem illFormed : ¬ ∀ (elems us : List (Nat × Nat)) (T : NodeTree NodeType) (t : Nat)
    (h : NodeHeap NodeType) (p : NodePtr NodeType), (elems.map Prod.fst).Nodup →
      build elems = some T → Denotes kind (Old t) h p T → ∀ n ≤ us.length,
        interface.EndsAll next (Holds (WellFormed (keysAfter elems us n))) t (some p) h (us.take n) := by
  intro hall
  obtain ⟨T, hT, hiff⟩ := wellFormed_iff [(5, 0)] [(6, 1)] (by simp)
  obtain rfl : T = .leaf .leaf [5] [some 0] := by
    simpa [build, buildSorted, sorted, leafOf, B] using hT.symm
  have hp : Denotes kind (Old 1) (heapOf [(⟨0, 0, 0, .leaf⟩, ⟨0, .leaf, [5], [some 0]⟩, none)])
      ⟨0, 0, 0, .leaf⟩ (.leaf .leaf [5] [some 0]) := ⟨Nat.zero_lt_one, rfl, ⟨0, rfl⟩, rfl⟩
  have hwrong := (hiff 1 _ _ hp).mp (hall _ _ _ _ _ _ (by simp) hT hp)
  simp [B] at hwrong

end Contrees.Trees.Btree
