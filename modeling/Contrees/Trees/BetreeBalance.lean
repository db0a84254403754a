import Contrees.Trees.BetreeLayers

namespace Contrees.Trees.Betree

open Library Library.Memory Library.SearchTree Conctrl Bnode

section Definitions

inductive LeavesBelow : Nat → NodeTree Ann → Prop
  | zero {a : Ann} {ks : List Nat} {cs : List (NodeTree Ann)} : LeavesBelow 0 (.node a ks cs)
  | succ {h : Nat} {a : Ann} {ks : List Nat} {cs : List (NodeTree Ann)}
      (hcs : ∀ c ∈ cs, LeavesBelow h c) : LeavesBelow (h + 1) (.node a ks cs)

/-- A subtree at distance `d` from the root whose nodes have the type of their
depth and height 0, with all of its leaves `e` levels down and below `h`. -/
inductive Balanced (h : Nat) : Nat → Nat → NodeTree Ann → Prop
  | leaf {d : Nat} {a : Ann} {ks : List Nat} {vs : List (Option Nat)} (hd : h < d)
      (ha : a.type = .leaf ∧ a.height = 0) : Balanced h d 0 (.leaf a ks vs)
  | node {d e : Nat} {a : Ann} {ks : List Nat} {cs : List (NodeTree Ann)}
      (ha : a.type = typeAt h d ∧ a.height = 0) (hcs : ∀ c ∈ cs, Balanced h (d + 1) e c) :
      Balanced h d (e + 1) (.node a ks cs)

/-- A subtree at distance `d` from the root, of new nodes down to old ones. -/
inductive NewlyBuilt (old : List (NodeTree Ann)) : Nat → NodeTree Ann → Prop
  | old {d : Nat} {T : NodeTree Ann} (hT : T ∈ old) : NewlyBuilt old d T
  | new {d : Nat} {a : Ann} {ks : List Nat} {cs : List (NodeTree Ann)}
      (hmin : 0 < d → B ≤ cs.length) (hmax : cs.length ≤ 2 * B - 1) (hcs : ∀ c ∈ cs, NewlyBuilt old (d + 1) c) :
      NewlyBuilt old d (.node a ks cs)

def Balances (h : Nat) (T : NodeTree Ann) : Prop :=
  leafOverBoundary h T = some false ∧ ∃ parts T', unfoldUpperPart T = some parts ∧
    rebuild T h = some T' ∧ (∃ e, Balanced h 0 e T') ∧ NewlyBuilt parts.2 0 T' ∧ vergeOf T' = h ∧
      T'.Ordered none none ∧ T'.pairs = T.pairs

end Definitions

section Rebuilding

variable {T T' c : NodeTree Ann} {b d D e h L m : Nat} {old : List (NodeTree Ann)}

theorem newlyBuilt_internalOf : Inherits (annAt h) (fun d c => NewlyBuilt old d c.2) := by
  intro d chs hmin hmax hchs
  refine .new (fun hd => ?_) (by simpa using hmax) fun c hc => ?_
  · rw [minChildren, if_neg (by omega)] at hmin
    simpa using hmin
  · obtain ⟨x, hx, rfl⟩ := List.mem_map.mp hc
    exact hchs x hx

theorem balanced_of_flat (hc : c.Graded flatAnn b) (hd : h < d) : Balanced h d b c := by
  induction hc generalizing d with
  | leaf ha => exact .leaf hd ha
  | node ha hcs ih =>
      refine .node ⟨ha.1.trans ?_, ha.2⟩ fun c hc => ih c hc (by omega)
      rw [typeAt, if_neg (by omega), if_neg (by omega)]
      rfl

theorem Over.balanced (hT : Over (Base b) h L d T) (hL : h < L) : Balanced h d (b + (L - d)) T := by
  induction hT with
  | base hQ => simpa using balanced_of_flat hQ.graded hL
  | @node d ks cs hm hcs ih =>
      obtain ⟨c, hc⟩ :=
        List.exists_mem_of_length_pos (l := cs) (by have := minChildren_two d; omega)
      have hle := (hcs c hc).le
      have hdL : b + (L - d) = b + (L - (d + 1)) + 1 := by omega
      rw [hdL]
      refine .node ⟨annAt_type h d, ?_⟩ ih
      cases d <;> rfl

theorem Over.tallUpper {Q : NodeTree Ann → Prop} (hT : Over Q h L d T) (hd : d ≤ h) (hL : h < L) :
    Tall (h - d) (minChildren d) T := by
  induction hT with
  | base => omega
  | @node d ks cs hm hcs ih =>
      by_cases hlt : d < h
      · have hD : h - d = h - (d + 1) + 1 := by omega
        rw [hD]
        refine .upper ?_ hm fun c hc => ih c hc hlt
        rw [annAt_type, if_pos hlt]
      · obtain rfl : d = h := by omega
        rw [Nat.sub_self]
        refine .boundary ?_ hm
        rw [annAt_type, if_neg hlt, if_pos rfl]

theorem Tall.mono {m' : Nat} (hT : Tall D m T) (hm : m' ≤ m) : Tall D m' T := by
  cases hT with
  | boundary ha hlen => exact .boundary ha (hm.trans hlen)
  | upper ha hlen hcs => exact .upper ha (hm.trans hlen) hcs

theorem Tall.not_leafAbove (hT : Tall D m T) : ¬ LeafAbove T := by
  induction hT with
  | boundary ha =>
      intro habove
      cases habove with
      | node hne => exact hne ha
  | upper ha hm hcs ih =>
      intro habove
      cases habove with
      | node hne hc h => exact ih _ hc h

theorem Tall.leafOverBoundary (hT : Tall D m T) (hs : Tiered b L e T) :
    Betree.leafOverBoundary D T = some false := by
  induction hT generalizing L e with
  | boundary => rfl
  | @upper m D a ks cs ha hm hcs ih =>
      cases hs with
      | boundary ha' => simp [ha] at ha'
      | upper _ hlen htwo _ htiers =>
          cases cs with
          | nil => simp at hlen
          | cons c cs => exact ih c (by simp) (htiers c (by simp))

theorem Over.verge {Q : NodeTree Ann → Prop} (hT : Over Q h L 0 T) (hL : 0 < L) :
    vergeOf T = h := by
  cases hT with
  | base => exact absurd hL (lt_irrefl 0)
  | node => rfl

/-- The nodes above the boundary are as many as when they were built, so that what
is built on as many bases or more has a boundary at the same depth. -/
theorem rebuild_tall (hT : Reached h T) (htall : Tall h 0 T) :
    Balances h T ∧ ∀ T', rebuild T h = some T' → Reached h T' ∧ Tall h 0 T' := by
  obtain ⟨b, D, htiers, -, -⟩ := hT.tiers
  have hpath := htall.leafOverBoundary htiers
  obtain ⟨p, hp, hu⟩ := unfoldUpperPart_spec htiers htall.not_leafAbove hT.ordered
  have hcount := unfoldUpperPart_count htall htiers hT.ordered hp
  obtain ⟨T', hT', hord, hshaped, hpairs, -, hover, hnew⟩ : ∃ T', rebuildInternal h T = some T' ∧
      T'.Ordered none none ∧ (∃ d, T'.Shaped B B (d + 1)) ∧ T'.pairs = T.pairs ∧
        ∃ _ : Nat, Over (Base b) h (depth p.2.length p.2.length) 0 T' ∧ NewlyBuilt p.2 0 T' := by
    refine rebuildInternal_spec hp hu (unfoldUpperPart_two htiers htall.not_leafAbove hT.ordered hp)
      (R := fun d c => Over (Base b) h (depth p.2.length p.2.length) d c.2 ∧ NewlyBuilt p.2 d c.2)
      (fun d chs hmin hmax hchs => ?_) fun x hx => ⟨.base (hu.all x.2 hx), .old hx⟩
    exact ⟨over_internalOf d chs hmin hmax fun c hc => (hchs c hc).1,
      newlyBuilt_internalOf d chs hmin hmax fun c hc => (hchs c hc).2⟩
  have hL : h < depth p.2.length p.2.length := lt_depth hcount le_rfl
  have hrebuild : rebuild T h = some T' := by
    rw [rebuild, hpath]
    exact hT'
  refine ⟨⟨hpath, p, T', hp, hrebuild, ⟨_, hover.balanced hL⟩, hnew, hover.verge (depth_pos _ _),
    hord,
    hpairs⟩, fun T₁ hT₁ => ?_⟩
  obtain rfl := Option.some.inj (hrebuild.symm.trans hT₁)
  exact ⟨hover.reached (depth_pos _ _) (fun _ => hL) hord
    (keys_of_pairs hT.ordered hord hpairs hT.keys) hshaped,
    (hover.tallUpper (Nat.zero_le h) hL).mono (Nat.zero_le _)⟩

theorem Copies.tall (hc : Copies T T') (hT : Tall D m T) : Tall D m T' := by
  induction hc generalizing D m with
  | leaf => cases hT
  | boundary ha =>
      cases hT with
      | boundary _ hm => exact .boundary ha (by simpa using hm)
      | upper ha' => simp [ha] at ha'
  | @upper a ks cs i c c' ha hc hcopy ih =>
      cases hT with
      | boundary ha' => simp [ha] at ha'
      | upper _ hm hcs =>
          refine .upper ha (by simpa using hm) fun x hx => ?_
          rcases List.mem_or_eq_of_mem_set hx with hx | rfl
          exacts [hcs x hx, ih (hcs c (List.mem_of_getElem? hc))]

theorem leastSize_of {n : Nat} (hn : 0 < d → B ≤ n) : leastSize d ≤ n := by
  rw [leastSize]
  split
  · exact Nat.zero_le n
  · exact hn (by omega)

theorem Laid.tall (hT : Laid h d e T) (hb : LeavesBelow D T) (hD : d + D = h) :
    Tall D (leastSize d) T := by
  induction hb generalizing d e with
  | zero =>
      cases hT with
      | node ha hmin =>
          refine .boundary ?_ (leastSize_of hmin)
          rw [ha, typeAt, if_neg (by omega), if_pos (by omega)]
  | @succ D a ks cs hcs ih =>
      cases hT with
      | node ha hmin hmax hlen hsep hlaid =>
          refine .upper ?_ (leastSize_of hmin) fun c hc => ?_
          · rw [ha, typeAt, if_pos (by omega)]
          · exact ih c hc (hlaid c hc) (by omega)

end Rebuilding

section Runs

variable {T : NodeTree Ann} {t h : Nat} {heap : NodeHeap Ann} {p : NodePtr Ann}

theorem passes_of_tall (hT : Reached h T) (htall : Tall h 0 T) (hp : Denotes kind (Old t) heap p T)
    {steps : List Step} (hkeys : ∀ s ∈ steps, s.key < 2 ^ 64) :
    Passes h (Balances h) Copies t p heap T steps := by
  induction steps generalizing t heap p T with
  | nil => exact (rebuild_tall hT htall).1
  | cons s steps ih =>
      obtain ⟨hkey, hrest⟩ := List.forall_mem_cons.mp hkeys
      obtain ⟨hbal, hnext⟩ := rebuild_tall hT htall
      cases s with
      | update key val =>
          obtain ⟨T', hT', hreach⟩ : ∃ T', cowUpdate key val T = some T' ∧ Reached h T' :=
            cowUpdate_reached hT hkey val
          obtain ⟨b, D, htiers, -⟩ := hT.tiers
          have hcopies := cowUpdate_copies htiers.layered hT'
          refine ⟨hbal, ?_⟩
          apply (update_ends (fun s _ => Nat.lt_succ_self s : ∀ s c, s < next s c) htiers.layered hp
            hT').mono
          rintro ctx heap' ⟨p', hp', hden⟩
          exact ⟨p', T', hp', hden, hcopies, ih hreach (hcopies.tall htall) hden hrest⟩
      | rebuild =>
          obtain ⟨-, parts, T', -, hT', -⟩ := id hbal
          obtain ⟨hreach, htall'⟩ := hnext T' hT'
          exact ⟨hbal, T', hT', fun heap' p' hden => ih hreach htall' hden hrest⟩

/-- Where a built tree has all of its leaves below the boundary, a rebuild after
any updates and rebuilds restores the balance. -/
theorem rebuilds_balance (h : Nat) (elems : List (Nat × Nat)) (steps : List Step)
    (hd : (elems.map Prod.fst).Nodup) (hkeys : ∀ k ∈ elems.map Prod.fst, k < 2 ^ 64)
    (hsteps : ∀ s ∈ steps, s.key < 2 ^ 64) (hdeep : ∀ T, build h elems = some T → LeavesBelow h T) :
    ∃ T, build h elems = some T ∧ ∀ t heap p, Denotes kind (Old t) heap p T →
      Passes h (Balances h) Copies t p heap T steps := by
  obtain ⟨T, hT, hreach⟩ := build_reached h hd hkeys
  obtain ⟨T', e, hT', -, hlaid, -⟩ := build_layout h elems hd
  obtain rfl := Option.some.inj (hT.symm.trans hT')
  have htall : Tall h 0 T := hlaid.tall (hdeep T hT) (Nat.zero_add h)
  exact ⟨T, hT, fun t heap p hp => passes_of_tall hreach htall hp hsteps⟩

theorem rebuilds_balance_sample : ∃ T, build 0 ((List.range 16).map (fun k => (k, 0))) = some T ∧
    ∀ t heap p, Denotes kind (Old t) heap p T →
      Passes 0 (Balances 0) Copies t p heap T [.update 7 1, .rebuild, .update 20 0] := by
  refine rebuilds_balance 0 _ _ (by decide) (by decide) (by decide) fun T hT => ?_
  have hsorted : sorted ((List.range 16).map (fun k => (k, 0))) = (List.range 16).map
      (fun k => (k, 0)) :=
    List.mergeSort_of_pairwise (by decide)
  rw [build, hsorted] at hT
  obtain rfl := Option.some.inj hT
  exact .zero

end Runs

end Contrees.Trees.Betree
