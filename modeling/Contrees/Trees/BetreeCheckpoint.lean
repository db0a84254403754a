import Contrees.Trees.BetreeRebuild
import Mathlib.Data.List.Nodup

namespace Contrees.Trees.Betree

open Library Library.Memory Library.SearchTree Conctrl Bnode

section Updates

variable {T T' c : NodeTree Ann} {u : Updated Ann Nat (Option Nat)} {lo hi : Option Nat}
  {b e D m h key val : Nat}

theorem depth_le {d m : Nat} (hord : c.Ordered lo hi) (hkeys : ∀ k ∈ keysOf c.leaves, k < 2 ^ 64)
    (hs : c.Shaped B B d) (hf : c.Filled B m) (htwo : 2 ≤ m) : d ≤ 64 := by
  have hpow : 2 ^ d ≤ (keysOf c.leaves).length := two_pow_le_keys (by decide) htwo (by decide) hs hf
  have hnodup : (keysOf c.leaves).Nodup := hord.keys_ascend.imp fun h => h.ne
  have hlen := (List.subperm_of_subset hnodup fun k hk => List.mem_range.mpr (hkeys k hk)).length_le
  rw [List.length_range] at hlen
  exact (Nat.pow_le_pow_iff_right (by decide)).mp (hpow.trans hlen)

theorem Part.heightOf (hp : Part b e c) : heightOf c = e := by
  obtain ⟨hs, hg, -⟩ := hp
  cases c with
  | leaf a ks vs =>
      cases hbe : b + e with
      | zero =>
          simp only [Betree.heightOf]
          omega
      | succ d =>
          rw [hbe] at hs
          exact hs.elim
  | node a ks cs =>
      generalize hbe : b + e = d at hg
      cases hg with
      | node ha =>
          rw [Betree.heightOf, ha.2]
          omega

theorem Part.insert (hp : Part b e c) (he : e ≤ 64)
    (hu : SearchTree.insert (cow kind) B key (some val) c = some u) :
    ∃ e, Part b e (u.rooted ⟨.lower, 0, grow (Betree.heightOf c)⟩) := by
  obtain ⟨u', hu', hsu⟩ : ∃ u, SearchTree.insert (cow kind) B key (some val) c = some u ∧
      u.Shaped B B (b + e) := insert_shaped B_pos hp.shaped
  obtain rfl : u' = u := Option.some.inj (hu'.symm.trans hu)
  have hgu : u'.Graded (partAnn b) (b + e) := by
    refine insert_graded (fun a ha => ⟨rfl, ?_⟩) ⟨rfl, ?_⟩ (fun d a ha => ⟨rfl, ha.2⟩) hp.graded hu
    all_goals exact (Nat.zero_sub b).symm
  have hfu := insert_filled hp.shaped hp.filled hu
  cases u' with
  | one t => exact ⟨e, hsu, hgu, hfu⟩
  | two p l r =>
      refine ⟨e + 1, two_shaped hsu.1 hsu.2, .node ⟨rfl, ?_⟩ (by simpa using And.intro hgu.1 hgu.2),
        .node (by simp) (by simpa using And.intro hfu.1 hfu.2)⟩
      change grow (Betree.heightOf c) = b + e + 1 - b
      rw [hp.heightOf, grow, Nat.mod_eq_of_lt (by omega)]
      omega

theorem part_of_leaf (hs : c.Shaped B B 0) (hc : c.All (fun a => a.type = .leaf ∧ a.height = 0)) :
    Part 0 0 c := by
  cases hc with
  | leaf ha => exact ⟨hs, .leaf ha, .leaf⟩
  | node => exact hs.elim

theorem cowUpdate_tiered (hT : Tiered b D m T) (hord : T.Ordered lo hi)
    (hkeys : ∀ k ∈ keysOf T.leaves, k < 2 ^ 64) (hu : cowUpdate key val T = some T') :
    Tiered b D m T' := by
  induction hT generalizing lo hi T' with
  | @leaf m a ks vs hb ha hmin hmax hlen =>
      have hs : (updateLeaf (cow kind) B key (some val) a ks vs).Shaped m B 0 :=
        updateLeaf_shaped B_pos ⟨hmin, hmax, hlen⟩
      have hall : (updateLeaf (cow kind) B key (some val) a ks vs).All
          (fun a => a.type = .leaf ∧ a.height = 0) :=
        updateLeaf_all (fun _ _ => ⟨rfl, rfl⟩) ⟨rfl, rfl⟩ ha
      rw [cowUpdate] at hu
      obtain rfl := Option.some.inj hu
      subst hb
      cases hup : updateLeaf (cow kind) B key (some val) a ks vs with
      | one T' =>
          rw [hup] at hs hall
          cases T' with
          | node b ks' cs' => exact hs.elim
          | leaf b ks' vs' =>
              obtain ⟨hb⟩ := hall
              exact .leaf rfl hb hs.1 hs.2.1 hs.2.2
      | two p l r =>
          rw [hup] at hs hall
          refine .boundary rfl rfl le_rfl (fun h => h.false.elim) fun c hc => ⟨0, ?_⟩
          have hparts : ∀ c ∈ [l, r], Part 0 0 c := by
            simpa using ⟨part_of_leaf hs.1 hall.1, part_of_leaf hs.2 hall.2⟩
          exact hparts c hc
  | @boundary m a ks cs ha hlen htwo hm hcs =>
      have hi : findch ks key < cs.length := by
        have := findch_le ks key
        omega
      obtain ⟨e, hp⟩ := hcs _ (List.getElem_mem hi)
      obtain ⟨lo', hi', hco⟩ := Multiway.OrderedList.mem hord _ (List.getElem_mem hi)
      rw [cowUpdate_child (List.getElem?_eq_getElem hi), if_pos ha, Option.map_map] at hu
      obtain ⟨u, hins, rfl⟩ := Option.map_eq_some_iff.mp hu
      have he : b + e ≤ 64 := by
        refine depth_le hco
          (fun k hk => hkeys k (mem_keysOf_child (List.getElem_mem hi) hk)) hp.shaped
          hp.filled ?_
        split <;> decide
      refine .boundary ha (set_length hlen) (by simpa using htwo) (by simpa using hm) fun c hc => ?_
      rcases List.mem_or_eq_of_mem_set hc with hc | rfl
      exacts [hcs c hc, hp.insert (by omega) hins]
  | @upper m D a ks cs ha hlen htwo hm hcs ih =>
      have hi : findch ks key < cs.length := by
        have := findch_le ks key
        omega
      have hne : ¬ a.type = .boundary := by simp [ha]
      obtain ⟨lo', hi', hco⟩ := Multiway.OrderedList.mem hord _ (List.getElem_mem hi)
      rw [cowUpdate_child (List.getElem?_eq_getElem hi), if_neg hne] at hu
      obtain ⟨c', hc', rfl⟩ := Option.map_eq_some_iff.mp hu
      refine .upper ha (set_length hlen) (by simpa using htwo) (by simpa using hm) fun c hc => ?_
      rcases List.mem_or_eq_of_mem_set hc with hc | rfl
      · exact hcs c hc
      · exact ih _ (List.getElem_mem hi) hco
          (fun k hk => hkeys k (mem_keysOf_child (List.getElem_mem hi) hk)) hc'

theorem cowUpdate_verge (hu : cowUpdate key val T = some T') : vergeOf T' = vergeOf T := by
  cases T with
  | leaf a ks vs =>
      rw [cowUpdate] at hu
      obtain rfl := Option.some.inj hu
      simp only [updateLeaf]
      split
      · rfl
      · split <;> rfl
  | node a ks cs =>
      cases hc : cs[findch ks key]? with
      | none =>
          rw [cowUpdate] at hu
          split at hu
          · simp [hc] at hu
          · split at hu <;> simp_all
      | some c =>
          rw [cowUpdate_child hc] at hu
          obtain ⟨c', -, rfl⟩ := Option.map_eq_some_iff.mp hu
          rfl

theorem cowUpdate_reached (hT : Reached h T) (hkey : key < 2 ^ 64) (val : Nat) :
    ∃ T', cowUpdate key val T = some T' ∧ Reached h T' := by
  obtain ⟨b, D, htiers, hD, hbD⟩ := hT.tiers
  obtain ⟨T', hT', hsound, htouch⟩ := cowUpdate_sound ⟨hT.ordered, htiers.layered⟩ key val
  refine ⟨T', hT', hsound.1, fun k hk => ?_, by rw [cowUpdate_verge hT', hT.verge],
    b, D, cowUpdate_tiered htiers hT.ordered hT.keys hT', hD, hbD⟩
  rcases (htouch.mem_keys k).mp hk with rfl | hk
  exacts [hkey, hT.keys k hk]

theorem Tiered.kinded (hT : Tiered b D m T) : Kinded kind T := by
  have hpart : ∀ {d : Nat} {c : NodeTree Ann}, c.Graded (partAnn b) d → Kinded kind c := by
    intro d c hc
    induction hc with
    | leaf ha => exact .leaf (by simpa [kind, lowerType] using ha.1)
    | node ha _ ih => exact .node (by simp [kind, ha.1, lowerType]) ih
  induction hT with
  | leaf _ ha => exact .leaf (by simpa [kind] using ha.1)
  | boundary ha _ _ _ hcs =>
      refine .node (by simp [kind, ha]) fun c hc => ?_
      obtain ⟨e, hp⟩ := hcs c hc
      exact hpart hp.graded
  | upper ha _ _ _ _ ih => exact .node (by simp [kind, ha]) ih

end Updates

section Runs

variable {T T' : NodeTree Ann} {t h : Nat} {heap : NodeHeap Ann} {p : NodePtr Ann}
  {elems : List (Nat × Nat)}

inductive Step
  | update (key val : Nat)
  | rebuild

def Step.key : Step → Nat
  | .update key _ => key
  | .rebuild => 0

/-- A rebuilt tree is a search tree with the pairs of the old one, and answers
like it. -/
structure Rebuilt (T T' : NodeTree Ann) : Prop where
  ordered : T'.Ordered none none
  pairs : T'.pairs = T.pairs
  find : ∀ k, T'.find k = T.find k
  scan : ∀ k n, T'.scan k n = T.scan k n

theorem rebuilt_of_pairs (hT : T.Ordered none none) (hT' : T'.Ordered none none)
    (hpairs : T'.pairs = T.pairs) : Rebuilt T T' := by
  have hwithin : ∀ k : Nat, Within none none k := fun k => ⟨by simp, by simp⟩
  refine ⟨hT', hpairs, fun k => ?_, fun k n => ?_⟩
  · rw [Multiway.find_eq_lookup hT' (hwithin k), Multiway.find_eq_lookup hT (hwithin k), hpairs]
  · rw [Multiway.scan_eq hT' (hwithin k), Multiway.scan_eq hT (hwithin k), hpairs]

/-- The handlers run through at every update, and every rebuild returns the tree
it should; a rebuilt tree may lie anywhere in memory. -/
def RunsWell : Nat → Option (NodePtr Ann) → NodeHeap Ann → List Step → Prop
  | _, _, _, [] => True
  | t, root, heap, .update key val :: steps =>
      interface.Ends next t 0 (interface.start t key val root) heap (fun ctx heap' =>
        RunsWell (t + 1) (interface.root ctx) heap' steps)
  | t, root, heap, .rebuild :: steps =>
      ∃ p T T', root = some p ∧ Denotes kind (Old t) heap p T ∧ rebuild T (vergeOf T) = some T' ∧
        Rebuilt T T' ∧ ∀ heap' p', Denotes kind (Old (t + 1)) heap' p' T' →
          RunsWell (t + 1) (some p') heap' steps

def AllGuarded : NodeTree Ann → List Step → Prop
  | _, [] => True
  | T, .update key val :: steps => ∀ T', cowUpdate key val T = some T' → AllGuarded T' steps
  | T, .rebuild :: steps => Guarded T ∧ ∀ T', rebuild T (vergeOf T) = some T' → AllGuarded T' steps

theorem Reached.stored (hT : Reached h T) (t : Nat) :
    ∃ heap p, Denotes kind (Old (t + 1)) heap p T := by
  obtain ⟨b, D, htiers, -⟩ := hT.tiers
  obtain ⟨heap, p, m, -, hden⟩ := htiers.kinded.realized 0
  exact ⟨heap, p, hden.frame fun q hq => ⟨by rw [Old, hq.1]; exact Nat.succ_pos t, fun _ => rfl⟩⟩

theorem runsWell_iff (hT : Reached h T) (hp : Denotes kind (Old t) heap p T) (steps : List Step)
    (hkeys : ∀ s ∈ steps, s.key < 2 ^ 64) :
    RunsWell t (some p) heap steps ↔ AllGuarded T steps := by
  induction steps generalizing t heap p T with
  | nil => simp [RunsWell, AllGuarded]
  | cons s steps ih =>
      obtain ⟨hkey, hrest⟩ := List.forall_mem_cons.mp hkeys
      cases s with
      | update key val =>
          obtain ⟨T₁, hT₁, hreach⟩ : ∃ T₁, cowUpdate key val T = some T₁ ∧ Reached h T₁ :=
            cowUpdate_reached hT hkey val
          obtain ⟨b, D, htiers, -⟩ := hT.tiers
          have hends := update_ends (fun s _ => Nat.lt_succ_self s : ∀ s c, s < next s c)
            htiers.layered hp hT₁
          have hguarded : AllGuarded T (.update key val :: steps) ↔ AllGuarded T₁ steps := by
            simp [AllGuarded, hT₁]
          rw [hguarded, RunsWell]
          constructor
          · intro hall
            obtain ⟨fuel, r, -, ⟨r', hr', hden⟩, hrun⟩ := hends.and hall
            rw [show interface.root r.1 = some r' from hr'] at hrun
            exact (ih hreach hden hrest).mp hrun
          · intro hsteps
            apply hends.mono
            rintro ctx heap' ⟨r', hr', hden⟩
            rw [show interface.root ctx = some r' from hr']
            exact (ih hreach hden hrest).mpr hsteps
      | rebuild =>
          rw [RunsWell, AllGuarded]
          by_cases hg : Guarded T
          · obtain ⟨T₁, hT₁, hreach, hpairs⟩ := rebuild_reached hT hg
            have hrebuilt := rebuilt_of_pairs hT.ordered hreach.ordered hpairs
            constructor
            · rintro ⟨p₂, T₂, T₃, hp₂, hden, hT₃, -, hrun⟩
              obtain rfl := Option.some.inj hp₂
              obtain rfl := hp.unique hden
              obtain rfl := Option.some.inj (hT₁.symm.trans hT₃)
              obtain ⟨heap', p', hden'⟩ := hreach.stored t
              refine ⟨hg, fun T' hT' => ?_⟩
              obtain rfl := Option.some.inj (hT₁.symm.trans hT')
              exact (ih hreach hden' hrest).mp (hrun _ _ hden')
            · rintro ⟨-, hsteps⟩
              exact ⟨p, T, T₁, rfl, hp, hT₁, hrebuilt, fun heap' p' hden =>
                (ih hreach hden hrest).mpr (hsteps T₁ hT₁)⟩
          · refine iff_of_false ?_ fun hall => hg hall.1
            rintro ⟨p₂, T₂, T₃, hp₂, hden, hT₃, -⟩
            obtain rfl := Option.some.inj hp₂
            obtain rfl := hp.unique hden
            rw [rebuild_stuck hT hg] at hT₃
            cases hT₃

theorem build_reached (h : Nat) (hd : (elems.map Prod.fst).Nodup)
    (hkeys : ∀ k ∈ elems.map Prod.fst, k < 2 ^ 64) : ∃ T, build h elems = some T ∧ Reached h T := by
  have hperm := (sorted_perm elems).map Prod.fst
  obtain ⟨T, hT, hreach, -⟩ := buildStored_reached h
    (by rw [map_fst_written]; exact sorted_keys hd : ((written
      (sorted elems)).map Prod.fst).Pairwise (· < ·))
    fun k hk => hkeys k (hperm.mem_iff.mp (by rwa [map_fst_written] at hk))
  exact ⟨T, by rw [build, buildSorted_eq]; exact hT, hreach⟩

/-- A run of updates and rebuilds of a built tree goes well if and only if at
every rebuild the first path has a LEAF down to the boundary, or no path has one
above it: `leaf_over_boundary` looks at the first path only. -/
theorem rebuilds_iff (h : Nat) (elems : List (Nat × Nat)) (steps : List Step)
    (hd : (elems.map Prod.fst).Nodup) (hkeys : ∀ k ∈ elems.map Prod.fst, k < 2 ^ 64)
    (hsteps : ∀ s ∈ steps, s.key < 2 ^ 64) : ∃ T, build h elems = some T ∧
      ∀ t heap p, Denotes kind (Old t) heap p T →
        (RunsWell t (some p) heap steps ↔ AllGuarded T steps) := by
  obtain ⟨T, hT, hreach⟩ := build_reached h hd hkeys
  exact ⟨T, hT, fun t heap p hp => runsWell_iff hreach hp steps hsteps⟩

/-- Pairs for sixteen leaves, eight below each of two BOUNDARY nodes. -/
def sixteenLeaves : List (Nat × Nat) := (List.range 128).map (fun k => (16 * k, 0))

def leafAt (i : Nat) : NodeTree Ann :=
  .leaf ⟨.leaf, 0, 0⟩ ((List.range' (8 * i) 8).map (16 * ·)) (List.replicate 8 (some 0))

def slotTree (c : NodeTree Ann) : NodeTree Ann :=
  .node ⟨.upper, 1, 0⟩ [1024]
    [.node ⟨.boundary, 0, 0⟩ ((List.range' 1 7).map (128 * ·)) (c :: (List.range' 1 7).map leafAt),
      .node ⟨.boundary, 0, 0⟩ ((List.range' 9 7).map (128 * ·)) ((List.range' 8 8).map leafAt)]

theorem sixteenLeaves_lt : sixteenLeaves.Pairwise (fun a b => a.1 < b.1) := by
  rw [sixteenLeaves, List.pairwise_map]
  exact List.pairwise_lt_range.imp fun h => by simpa using h

theorem sixteenLeaves_keys : (sixteenLeaves.map Prod.fst).Nodup ∧
    ∀ k ∈ sixteenLeaves.map Prod.fst, k < 2 ^ 64 := by
  constructor
  · rw [List.Nodup, List.pairwise_map]
    exact sixteenLeaves_lt.imp fun h => h.ne
  · intro k hk
    obtain ⟨n, hn, rfl⟩ : ∃ n < 128, 16 * n = k := by simpa [sixteenLeaves] using hk
    omega

set_option maxRecDepth 4000 in
theorem build_sixteenLeaves : build 1 sixteenLeaves = some (slotTree (leafAt 0)) := by
  have hsorted : sorted sixteenLeaves = sixteenLeaves :=
    List.mergeSort_of_pairwise (sixteenLeaves_lt.imp fun h => by simp [h])
  rw [build, hsorted]
  rfl

def slotLeaf (ks : List Nat) : NodeTree Ann :=
  .leaf ⟨.leaf, 0, 0⟩ ks (List.replicate ks.length (some 0))

theorem cowUpdate_slotTree {key : Nat} (hkey : key < 128) (ks : List Nat) :
    cowUpdate key 0 (slotTree (slotLeaf ks)) = some (slotTree
      ((updateLeaf (cow kind) B key (some 0) ⟨.leaf, 0, 0⟩ ks
      (List.replicate ks.length (some 0))).rooted
        ⟨.lower, 0, 1⟩)) := by
  have hroot : findch [1024] key = 0 := by
    have : key < 1024 := by omega
    simp [findch, this]
  have hboundary : findch ((List.range' 1 7).map (128 * ·)) key = 0 := by
    simp [findch, hkey, List.range'_succ]
  have hslot : (slotLeaf ks :: (List.range' 1 7).map leafAt)[
      findch ((List.range' 1 7).map (128 * ·)) key]? = some (slotLeaf ks) := by
    rw [hboundary]
    rfl
  rw [slotTree, cowUpdate_child (by rw [hroot]; rfl), if_neg (by decide), cowUpdate_child hslot,
    if_pos rfl, hroot, hboundary, slotLeaf, SearchTree.insert]
  rfl

def slotKeys (n : Nat) : List Nat := List.range (n + 1) ++ (List.range' 1 7).map (16 * ·)

def insertions (n : Nat) : List (Nat × Nat) := (List.range' 1 n).map (fun key => (key, 0))

theorem slot_fills {n : Nat} (hn : n ≤ 7) :
    (insertions n).foldlM (fun T u => cowUpdate u.1 u.2 T) (slotTree (leafAt 0)) =
      some (slotTree (slotLeaf (slotKeys n))) := by
  induction n with
  | zero => rfl
  | succ n ih =>
      rw [insertions, List.range'_concat, List.map_append, List.foldlM_append]
      change (insertions n).foldlM _ _ >>= _ = _
      rw [ih (by omega), Option.bind_eq_bind, Option.bind_some]
      simp only [List.map_cons, List.map_nil, List.foldlM_cons, List.foldlM_nil]
      rw [cowUpdate_slotTree (by omega)]
      match n, hn with
      | 0, _ | 1, _ | 2, _ | 3, _ | 4, _ | 5, _ | 6, _ => rfl

def splitSlot : NodeTree Ann :=
  .node ⟨.lower, 0, 1⟩ [8] [slotLeaf (List.range 8), slotLeaf (8 :: (List.range' 1 7).map (16 * ·))]

theorem slot_splits : (insertions 8).foldlM (fun T u => cowUpdate u.1 u.2 T) (slotTree (leafAt 0)) =
    some (slotTree splitSlot) := by
  change (insertions 7 ++ [(8, 0)]).foldlM _ _ = _
  rw [List.foldlM_append, slot_fills le_rfl, Option.bind_eq_bind, Option.bind_some,
    List.foldlM_cons,
    cowUpdate_slotTree (by decide)]
  rfl

theorem slotTree_stored : ∃ heap p, Denotes kind (Old 1) heap p (slotTree (leafAt 0)) := by
  obtain ⟨T, hT, hreach⟩ := build_reached 1 sixteenLeaves_keys.1 sixteenLeaves_keys.2
  obtain rfl := Option.some.inj (build_sixteenLeaves.symm.trans hT)
  exact hreach.stored 0

theorem allGuarded_updates (us : List (Nat × Nat)) (steps : List Step)
    (h : ∀ T', us.foldlM (fun T u => cowUpdate u.1 u.2 T) T = some T' → AllGuarded T' steps) :
    AllGuarded T (us.map (fun u => .update u.1 u.2) ++ steps) := by
  induction us generalizing T with
  | nil => exact h T rfl
  | cons u us ih =>
      intro T₁ hT₁
      refine ih fun T' hT' => h T' ?_
      rw [List.foldlM_cons, hT₁]
      exact hT'

theorem slotTree_guarded (c : NodeTree Ann) : Guarded (slotTree c) := by
  refine .inr fun habove => ?_
  cases habove with
  | node _ hc habove =>
      rcases List.mem_pair.mp hc with rfl | rfl <;>
        cases habove with
        | node ha _ _ => exact ha rfl

/-- The rebuild has leaves below the boundary only, so that it is `rebuild_internal`. -/
theorem rebuilds_sample : build 1 sixteenLeaves = some (slotTree (leafAt 0)) ∧
    leafOverBoundary 1 (slotTree splitSlot) = some false ∧
    ∃ heap p, Denotes kind (Old 1) heap p (slotTree (leafAt 0)) ∧
      RunsWell 1 (some p) heap ((insertions 8).map (fun u => .update u.1 u.2) ++ [.rebuild, .update 200 1]) := by
  obtain ⟨T, hT, hiff⟩ := rebuilds_iff 1 sixteenLeaves
    ((insertions 8).map (fun u => .update u.1 u.2) ++ [.rebuild,
      .update 200 1]) sixteenLeaves_keys.1
    sixteenLeaves_keys.2 (by decide)
  obtain rfl := Option.some.inj (build_sixteenLeaves.symm.trans hT)
  obtain ⟨heap, p, hp⟩ := slotTree_stored
  refine ⟨build_sixteenLeaves, rfl, heap, p, hp, (hiff 1 heap p hp).mpr ?_⟩
  refine allGuarded_updates _ _ fun T' hT' => ?_
  obtain rfl := Option.some.inj (slot_splits.symm.trans hT')
  exact ⟨slotTree_guarded _, fun _ _ _ _ => trivial⟩

def twoLeaves : List (Nat × Nat) := (List.range 23).map (fun k => (10 * k, 0))

def rightLeaf : NodeTree Ann :=
  .leaf ⟨.leaf, 0, 0⟩ ((List.range' 11 12).map (10 * ·)) (List.replicate 12 (some 0))

def leftKeys (n : Nat) : List Nat := List.range (n + 1) ++ (List.range' 1 10).map (10 * ·)

def twoTree (ks : List Nat) : NodeTree Ann :=
  .node ⟨.upper, 1, 0⟩ [110] [.leaf ⟨.leaf, 0, 0⟩ ks (List.replicate ks.length (some 0)), rightLeaf]

theorem build_twoLeaves : build 1 twoLeaves = some (twoTree (leftKeys 0)) := by
  have hsorted : sorted twoLeaves = twoLeaves := List.mergeSort_of_pairwise (by decide)
  rw [build, hsorted]
  rfl

theorem cowUpdate_twoTree {key : Nat} (hkey : key < 110) (ks : List Nat) :
    cowUpdate key 0 (twoTree ks) = some (.node ⟨.upper, 1, 0⟩ [110]
      [(updateLeaf (cow kind) B key (some 0) ⟨.leaf, 0, 0⟩ ks
        (List.replicate ks.length (some 0))).rooted ⟨.boundary, 0, 0⟩, rightLeaf]) := by
  have hi : findch [110] key = 0 := by simp [findch, hkey]
  have hc : ([.leaf ⟨.leaf, 0, 0⟩ ks (List.replicate ks.length (some 0)), rightLeaf] :
      List (NodeTree Ann))[findch [110] key]? =
        some (.leaf ⟨.leaf, 0, 0⟩ ks (List.replicate ks.length (some 0))) := by
    rw [hi]
    rfl
  rw [twoTree, cowUpdate_child hc, if_neg (by decide), hi, cowUpdate]
  rfl

/-- Five updates split the left leaf while the right one stays above the
boundary; the rebuild then takes the values of the right one for children. -/
theorem leaf_descended : ¬ ∀ (h : Nat) (elems : List (Nat × Nat)) (steps : List Step) (T : NodeTree Ann)
    (t : Nat) (heap : NodeHeap Ann) (p : NodePtr Ann), (elems.map Prod.fst).Nodup →
      (∀ k ∈ elems.map Prod.fst, k < 2 ^ 64) → (∀ s ∈ steps, s.key < 2 ^ 64) →
        build h elems = some T → Denotes kind (Old t) heap p T → RunsWell t (some p) heap steps := by
  intro hall
  obtain ⟨T, hT, hreach⟩ := build_reached 1 (by decide : (twoLeaves.map Prod.fst).Nodup) (by decide)
  obtain rfl := Option.some.inj (build_twoLeaves.symm.trans hT)
  obtain ⟨heap, p, hp⟩ := hreach.stored 0
  have hruns :=
    hall 1 twoLeaves [.update 1 0, .update 2 0, .update 3 0, .update 4 0, .update 5 0, .rebuild]
    _ 1 heap p (by decide) (by decide) (by decide) hT hp
  rw [runsWell_iff hreach hp _ (by decide)] at hruns
  have hsplit := hruns _ (cowUpdate_twoTree (by decide) (leftKeys 0))
    _ (cowUpdate_twoTree (by decide) (leftKeys 1)) _ (cowUpdate_twoTree (by decide) (leftKeys 2))
    _ (cowUpdate_twoTree (by decide) (leftKeys 3)) _ (cowUpdate_twoTree (by decide) (leftKeys 4))
  have hright : ∀ c : NodeTree Ann, rightLeaf ∈ [c, rightLeaf] := fun c => by simp
  rcases hsplit.1 with hleaf | habove
  · exact absurd hleaf (by decide)
  · exact habove (.node (by decide) (hright _) .leaf)

end Runs

end Contrees.Trees.Betree
