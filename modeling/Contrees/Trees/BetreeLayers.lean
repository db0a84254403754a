import Contrees.Trees.BetreeCheckpoint
import Contrees.Trees.BetreeLayout

namespace Contrees.Trees.Betree

open Library Library.Memory Library.SearchTree Conctrl Bnode

section Definitions

/-- What a child slot of a BOUNDARY node holds: heights that count down to 0 over
`k` levels and stay there, and leaves that are all `e` levels down. -/
inductive Slot : Nat → Nat → NodeTree Ann → Prop
  | leaf {a : Ann} {ks : List Nat} {vs : List (Option Nat)} (ha : a.type = .leaf ∧ a.height = 0)
      (hmax : ks.length ≤ 2 * B - 1) : Slot 0 0 (.leaf a ks vs)
  | flat {e : Nat} {a : Ann} {ks : List Nat} {cs : List (NodeTree Ann)}
      (ha : a.type = .lower ∧ a.height = 0) (hmax : ks.length ≤ 2 * B - 1)
      (hlen : cs.length = ks.length + 1) (hcs : ∀ c ∈ cs, Slot 0 e c) :
      Slot 0 (e + 1) (.node a ks cs)
  | grown {k e : Nat} {a : Ann} {ks : List Nat} {cs : List (NodeTree Ann)}
      (ha : a.type = .lower ∧ a.height = k + 1) (hmax : ks.length ≤ 2 * B - 1)
      (hlen : cs.length = ks.length + 1) (hcs : ∀ c ∈ cs, Slot k e c) :
      Slot (k + 1) (e + 1) (.node a ks cs)

/-- A subtree at distance `d` from the root: UPPER nodes down to a LEAF or a
BOUNDARY node, which is not below `h`. -/
inductive Upper (h : Nat) : Nat → NodeTree Ann → Prop
  | leaf {d : Nat} {a : Ann} {ks : List Nat} {vs : List (Option Nat)} (hd : d ≤ h)
      (ha : a.type = .leaf) (hmax : ks.length ≤ 2 * B - 1) : Upper h d (.leaf a ks vs)
  | boundary {d : Nat} {a : Ann} {ks : List Nat} {cs : List (NodeTree Ann)} (hd : d ≤ h)
      (ha : a.type = .boundary) (hmax : ks.length ≤ 2 * B - 1) (hlen : cs.length = ks.length + 1)
      (hcs : ∀ c ∈ cs, ∃ k e, Slot k e c) : Upper h d (.node a ks cs)
  | upper {d : Nat} {a : Ann} {ks : List Nat} {cs : List (NodeTree Ann)} (hd : d < h)
      (ha : a.type = .upper) (hmax : ks.length ≤ 2 * B - 1) (hlen : cs.length = ks.length + 1)
      (hcs : ∀ c ∈ cs, Upper h (d + 1) c) : Upper h d (.node a ks cs)

/-- What an update makes of the nodes above the elastic parts: copies that differ
in the child on the path. -/
inductive Copies : NodeTree Ann → NodeTree Ann → Prop
  | leaf {a : Ann} {ks : List Nat} {vs : List (Option Nat)} {T' : NodeTree Ann} :
      Copies (.leaf a ks vs) T'
  | boundary {a : Ann} {ks : List Nat} {cs : List (NodeTree Ann)} {i : Nat} {c' : NodeTree Ann}
      (ha : a.type = .boundary) : Copies (.node a ks cs) (.node a ks (cs.set i c'))
  | upper {a : Ann} {ks : List Nat} {cs : List (NodeTree Ann)} {i : Nat} {c c' : NodeTree Ann}
      (ha : a.type = .upper) (hc : cs[i]? = some c) (h : Copies c c') :
      Copies (.node a ks cs) (.node a ks (cs.set i c'))

/-- Updates and rebuilds go through one after another, with a property of the tree
under every root and a relation between a tree and its updated copy. A rebuilt
tree may lie anywhere in memory. -/
def Passes (h : Nat) (P : NodeTree Ann → Prop) (R : NodeTree Ann → NodeTree Ann → Prop) :
    Nat → NodePtr Ann → NodeHeap Ann → NodeTree Ann → List Step → Prop
  | _, _, _, T, [] => P T
  | t, p, heap, T, .update key val :: steps =>
      P T ∧ interface.Ends next t 0 (interface.start t key val (some p)) heap (fun ctx heap' =>
        ∃ p' T', interface.root ctx = some p' ∧ Denotes kind (Old (t + 1)) heap' p' T' ∧ R T T' ∧
          Passes h P R (t + 1) p' heap' T' steps)
  | t, _, _, T, .rebuild :: steps =>
      P T ∧ ∃ T', rebuild T h = some T' ∧ ∀ heap' p', Denotes kind (Old (t + 1)) heap' p' T' →
        Passes h P R (t + 1) p' heap' T' steps

end Definitions

section Layers

variable {T T' c : NodeTree Ann} {b D d e m h key val : Nat} {lo hi : Option Nat}

inductive Sized : NodeTree Ann → Prop
  | leaf {a : Ann} {ks : List Nat} {vs : List (Option Nat)} (hmax : ks.length ≤ 2 * B - 1) :
      Sized (.leaf a ks vs)
  | node {a : Ann} {ks : List Nat} {cs : List (NodeTree Ann)} (hmax : ks.length ≤ 2 * B - 1)
      (hcs : ∀ c ∈ cs, Sized c) : Sized (.node a ks cs)

theorem sized_of_shaped (hs : c.Shaped m B d) : Sized c := by
  induction d generalizing c m with
  | zero =>
      cases c with
      | leaf a ks vs => exact .leaf hs.2.1
      | node a ks cs => exact hs.elim
  | succ d ih =>
      cases c with
      | leaf a ks vs => exact hs.elim
      | node a ks cs =>
          obtain ⟨hmax, hlen, hall⟩ := hs
          exact .node (by omega) fun c hc => ih (hall c hc)

theorem Laid.sized (hT : Laid h d e T) : Sized T := by
  induction hT with
  | leaf ha hmin hmax hlen => exact .leaf hmax
  | node ha hmin hmax hlen hsep hcs ih => exact .node (by omega) ih

theorem sized_rooted {u : Updated Ann Nat (Option Nat)} (a : Ann) (hs : u.Shaped m B d) :
    Sized (u.rooted a) := by
  cases u with
  | one t => exact sized_of_shaped hs
  | two p l r =>
      refine .node (by simp [B]) fun c hc => ?_
      have hboth : ∀ c ∈ [l, r], Sized c := by
        simpa using And.intro (sized_of_shaped hs.1) (sized_of_shaped hs.2)
      exact hboth c hc

theorem cowUpdate_sized (hT : Tiered b D m T) (hs : Sized T) (hu : cowUpdate key val T = some T') :
    Sized T' := by
  induction hT generalizing T' with
  | @leaf m a ks vs hb ha hmin hmax hlen =>
      have hleaf : (updateLeaf (cow kind) B key (some val) a ks vs).Shaped m B 0 :=
        updateLeaf_shaped B_pos ⟨hmin, hmax, hlen⟩
      rw [cowUpdate] at hu
      obtain rfl := Option.some.inj hu
      exact sized_rooted _ hleaf
  | @boundary m a ks cs ha hlen htwo hm hcs =>
      cases hs with
      | node hmax hall =>
          have hi : findch ks key < cs.length := by
            have := findch_le ks key
            omega
          obtain ⟨e, hp⟩ := hcs _ (List.getElem_mem hi)
          rw [cowUpdate_child (List.getElem?_eq_getElem hi), if_pos ha, Option.map_map] at hu
          obtain ⟨u, hins, rfl⟩ := Option.map_eq_some_iff.mp hu
          obtain ⟨u', hu', hsu⟩ : ∃ u, SearchTree.insert (cow kind) B key (some val) _ = some u ∧
              u.Shaped B B (b + e) := insert_shaped B_pos hp.shaped
          obtain rfl : u' = u := Option.some.inj (hu'.symm.trans hins)
          refine .node hmax fun c hc => ?_
          rcases List.mem_or_eq_of_mem_set hc with hc | rfl
          exacts [hall c hc, sized_rooted _ hsu]
  | @upper m D a ks cs ha hlen htwo hm hcs ih =>
      cases hs with
      | node hmax hall =>
          have hi : findch ks key < cs.length := by
            have := findch_le ks key
            omega
          rw [cowUpdate_child (List.getElem?_eq_getElem hi), if_neg (by simp [ha])] at hu
          obtain ⟨c', hc', rfl⟩ := Option.map_eq_some_iff.mp hu
          refine .node hmax fun c hc => ?_
          rcases List.mem_or_eq_of_mem_set hc with hc | rfl
          exacts [hall c hc, ih _ (List.getElem_mem hi) (hall _ (List.getElem_mem hi)) hc']

theorem slot_of_part (hg : c.Graded (partAnn b) d) (hs : c.Shaped m B d) : Slot (d - b) d c := by
  induction hg generalizing m with
  | leaf ha =>
      rw [Nat.zero_sub]
      exact .leaf ⟨ha.1, ha.2.trans (Nat.zero_sub b)⟩ hs.2.1
  | @node d a ks cs ha hcs ih =>
      obtain ⟨hmax, hlen, hall⟩ := hs
      have hkeys : ks.length ≤ 2 * B - 1 := by omega
      have hchild : ∀ c ∈ cs, Slot (d - b) d c := fun c hc => ih c hc (hall c hc)
      by_cases hb : b ≤ d
      · have hsub : d + 1 - b = d - b + 1 := by omega
        rw [hsub]
        exact .grown ⟨ha.1, ha.2.trans hsub⟩ hkeys hlen hchild
      · have hsub : d + 1 - b = 0 ∧ d - b = 0 := by omega
        rw [hsub.2] at hchild
        rw [hsub.1]
        exact .flat ⟨ha.1, ha.2.trans hsub.1⟩ hkeys hlen hchild

theorem Tiered.upper_of_sized (hT : Tiered b D m T) (hs : Sized T) (hd : d + D ≤ h) :
    Upper h d T := by
  induction hT generalizing d with
  | leaf hb ha hmin hmax hlen => exact .leaf hd ha.1 hmax
  | boundary ha hlen htwo hm hcs =>
      cases hs with
      | node hmax _ =>
          refine .boundary hd ha hmax hlen fun c hc => ?_
          obtain ⟨e, hp⟩ := hcs c hc
          exact ⟨_, _, slot_of_part hp.graded hp.shaped⟩
  | upper ha hlen htwo hm hcs ih =>
      cases hs with
      | node hmax hall =>
          exact .upper (by omega) ha hmax hlen fun c hc => ih c hc (hall c hc)
            (by omega)

theorem cowUpdate_copies (hT : Layered m T) (hu : cowUpdate key val T = some T') : Copies T T' := by
  induction hT generalizing T' with
  | leaf => exact .leaf
  | @upper m a ks cs ha hlen hcs ih =>
      have hi : findch ks key < cs.length := by
        have := findch_le ks key
        omega
      rw [cowUpdate_child (List.getElem?_eq_getElem hi), if_neg (by simp [ha])] at hu
      obtain ⟨c', hc', rfl⟩ := Option.map_eq_some_iff.mp hu
      exact .upper ha (List.getElem?_eq_getElem hi) (ih _ (List.getElem_mem hi) hc')
  | @boundary m a ks cs ha hlen hcs =>
      have hi : findch ks key < cs.length := by
        have := findch_le ks key
        omega
      rw [cowUpdate_child (List.getElem?_eq_getElem hi)] at hu
      obtain ⟨c', -, rfl⟩ := Option.map_eq_some_iff.mp hu
      exact .boundary ha

end Layers

section Runs

variable {T : NodeTree Ann} {t h : Nat} {heap : NodeHeap Ann} {p : NodePtr Ann}
    {us : List (Nat × Nat)}

def Shape (h : Nat) (T : NodeTree Ann) : Prop := vergeOf T = h ∧ Upper h 0 T

theorem shape_of_reached (hT : Reached h T) (hs : Sized T) : Shape h T := by
  obtain ⟨b, D, htiers, hD, -⟩ := hT.tiers
  exact ⟨hT.verge, htiers.upper_of_sized hs (by omega)⟩

theorem passes_of_reached (hT : Reached h T) (hs : Sized T) (hp : Denotes kind (Old t) heap p T)
    (hus : ∀ u ∈ us, u.1 < 2 ^ 64) :
    Passes h (Shape h) Copies t p heap T (us.map (fun u => .update u.1 u.2)) := by
  induction us generalizing t heap p T with
  | nil => exact shape_of_reached hT hs
  | cons u us ih =>
      obtain ⟨key, val⟩ := u
      obtain ⟨hkey, hrest⟩ := List.forall_mem_cons.mp hus
      obtain ⟨T', hT', hreach⟩ : ∃ T', cowUpdate key val T = some T' ∧ Reached h T' :=
        cowUpdate_reached hT hkey val
      obtain ⟨b, D, htiers, -⟩ := hT.tiers
      refine ⟨shape_of_reached hT hs, ?_⟩
      apply (update_ends (fun s _ => Nat.lt_succ_self s : ∀ s c,
        s < next s c) htiers.layered hp hT').mono
      rintro ctx heap' ⟨p', hp', hden⟩
      exact ⟨p', T', hp', hden, cowUpdate_copies htiers.layered hT',
        ih hreach (cowUpdate_sized htiers hs hT') hden hrest⟩

/-- Copy-on-write updates keep the layers of a built betree, and copy the nodes
above the elastic parts as they are. -/
theorem updates_keep_layers (h : Nat) (elems us : List (Nat × Nat)) (hd : (elems.map Prod.fst).Nodup)
    (hkeys : ∀ k ∈ elems.map Prod.fst, k < 2 ^ 64) (hus : ∀ u ∈ us, u.1 < 2 ^ 64) :
    ∃ T, build h elems = some T ∧ ∀ t heap p, Denotes kind (Old t) heap p T →
      Passes h (Shape h) Copies t p heap T (us.map (fun u => .update u.1 u.2)) := by
  obtain ⟨T, hT, hreach⟩ := build_reached h hd hkeys
  obtain ⟨T', e, hT', -, hlaid, -⟩ := build_layout h elems hd
  obtain rfl := Option.some.inj (hT.symm.trans hT')
  exact ⟨T, hT, fun t heap p hp => passes_of_reached hreach hlaid.sized hp hus⟩

theorem updates_keep_layers_splits : build 1 sixteenLeaves = some (slotTree (leafAt 0)) ∧
    (insertions 8).foldlM (fun T u => cowUpdate u.1 u.2 T) (slotTree (leafAt 0)) =
      some (slotTree splitSlot) ∧
    ∃ heap p, Denotes kind (Old 1) heap p (slotTree (leafAt 0)) ∧
      Passes 1 (Shape 1) Copies 1 p heap (slotTree (leafAt 0))
        ((insertions 9).map (fun u => .update u.1 u.2)) := by
  obtain ⟨T, hT, hpasses⟩ := updates_keep_layers 1 sixteenLeaves (insertions 9) sixteenLeaves_keys.1
    sixteenLeaves_keys.2 (by decide)
  obtain rfl := Option.some.inj (build_sixteenLeaves.symm.trans hT)
  obtain ⟨heap, p, hp⟩ := slotTree_stored
  exact ⟨build_sixteenLeaves, slot_splits, heap, p, hp, hpasses 1 heap p hp⟩

end Runs

end Contrees.Trees.Betree
