import Contrees.Library.SearchTreeInsert
import Mathlib.Algebra.Order.BigOperators.Group.List
import Mathlib.Algebra.Order.Ring.Nat

namespace Contrees.Library.SearchTree

open Multiway Updated

variable {ι K V : Type}

section Filling

variable [LinearOrder K] {st : Style ι V} {B m m' d : Nat} {key : K} {v : V}

/-- Every node below the root has at least `B` children, and the root `m`. -/
inductive Multiway.Filled (B : Nat) : Nat → Multiway ι K V → Prop
  | leaf {m : Nat} {a : ι} {ks : List K} {vs : List V} : Filled B m (.leaf a ks vs)
  | node {m : Nat} {a : ι} {ks : List K} {cs : List (Multiway ι K V)} (hm : m ≤ cs.length)
      (hcs : ∀ c ∈ cs, Filled B B c) : Filled B m (.node a ks cs)

omit [LinearOrder K] in
theorem Multiway.Filled.mono {t : Multiway ι K V} (hmm : m' ≤ m) (h : t.Filled B m) :
    t.Filled B m' := by
  cases h with
  | leaf => exact .leaf
  | node hm hcs => exact .node (hmm.trans hm) hcs

def Updated.Filled (B m : Nat) : Updated ι K V → Prop
  | .one t => t.Filled B m
  | .two _ l r => l.Filled B B ∧ r.Filled B B

omit [LinearOrder K] in
theorem absorb_filled {a : ι} {ks : List K} {cs : List (Multiway ι K V)} {u : Updated ι K V}
    (i : Nat) (hm : m ≤ cs.length) (hcs : ∀ c ∈ cs, c.Filled B B) (hu : u.Filled B B) :
    (absorb a ks cs i u).Filled B m := by
  cases u with
  | one c =>
      refine .node (by simpa using hm) fun x hx => ?_
      rcases List.mem_or_eq_of_mem_set hx with hx | rfl
      exacts [hcs x hx, hu]
  | two p l r =>
      refine .node (hm.trans ?_) fun x hx => ?_
      · rw [List.length_insertIdx, List.length_set]
        split
        exacts [Nat.le_succ _, le_rfl]
      · rcases List.eq_or_mem_of_mem_insertIdx hx with rfl | hx
        · exact hu.2
        · rcases List.mem_or_eq_of_mem_set hx with hx | rfl
          exacts [hcs x hx, hu.1]

theorem insert_filled {t : Multiway ι K V} {u : Updated ι K V} (hs : t.Shaped m' B d)
    (ht : t.Filled B m) (hu : insert st B key v t = some u) : u.Filled B m := by
  induction t generalizing m m' d u with
  | leaf a ks vs =>
      obtain rfl : updateLeaf st B key v a ks vs = u := by simpa [insert] using hu
      simp only [updateLeaf]
      split
      · exact .leaf
      · split
        exacts [.leaf, ⟨.leaf, .leaf⟩]
  | node a ks cs ih =>
      cases d with
      | zero => exact hs.elim
      | succ d =>
          obtain ⟨hmax, hlen, hall⟩ := hs
          cases ht with
          | node hm hcs =>
              have child : ∀ {i u}, insertAt st B key v i cs = some u → u.Filled B B := by
                intro i u hu
                rw [insertAt_eq_bind] at hu
                obtain ⟨c, hc, hu⟩ := Option.bind_eq_some_iff.mp hu
                have hmem := List.mem_of_getElem? hc
                exact ih c hmem (hall c hmem) (hcs c hmem) hu
              rw [insert] at hu
              split at hu
              · obtain ⟨u', hu', rfl⟩ := Option.map_eq_some_iff.mp hu
                exact absorb_filled _ hm hcs (child hu')
              · have hl : B ≤ (cs.take B).length := by
                  rw [List.length_take]
                  omega
                have hr : B ≤ (cs.drop B).length := by
                  rw [List.length_drop]
                  omega
                have htake : ∀ c ∈ cs.take B, c.Filled B B :=
                  fun c hc => hcs c (List.mem_of_mem_take hc)
                have hdrop : ∀ c ∈ cs.drop B, c.Filled B B :=
                  fun c hc => hcs c (List.mem_of_mem_drop hc)
                split at hu
                · simp at hu
                · simp only at hu
                  split at hu
                  all_goals obtain ⟨u', hu', rfl⟩ := Option.map_eq_some_iff.mp hu
                  · exact ⟨.node hl htake, absorb_filled _ hr hdrop (child hu')⟩
                  · exact ⟨absorb_filled _ hl htake (child hu'), .node hr hdrop⟩

end Filling

section Grading

variable [LinearOrder K] {st : Style ι V} {B d : Nat} {key : K} {v : V} {P : Nat → ι → Prop}

/-- Every node records something that fits its height above the leaves. -/
inductive Multiway.Graded (P : Nat → ι → Prop) : Nat → Multiway ι K V → Prop
  | leaf {a : ι} {ks : List K} {vs : List V} (ha : P 0 a) : Graded P 0 (.leaf a ks vs)
  | node {d : Nat} {a : ι} {ks : List K} {cs : List (Multiway ι K V)} (ha : P (d + 1) a)
      (hcs : ∀ c ∈ cs, Graded P d c) : Graded P (d + 1) (.node a ks cs)

omit [LinearOrder K] in
theorem Multiway.Graded.imp {Q : Nat → ι → Prop} {t : Multiway ι K V} (ht : t.Graded P d)
    (h : ∀ e ≤ d, ∀ a, P e a → Q e a) : t.Graded Q d := by
  induction ht with
  | leaf ha => exact .leaf (h 0 le_rfl _ ha)
  | node ha hcs ih =>
      refine .node (h _ le_rfl _ ha) fun c hc => ih c hc fun e he => ?_
      exact h e (Nat.le_succ_of_le he)

omit [LinearOrder K] in
theorem Multiway.Graded.all {Q : ι → Prop} {t : Multiway ι K V} (ht : t.Graded P d)
    (h : ∀ e a, P e a → Q a) : t.All Q := by
  induction ht with
  | leaf ha => exact .leaf (h _ _ ha)
  | node ha _ ih => exact .node (h _ _ ha) ih

def Updated.Graded (P : Nat → ι → Prop) (d : Nat) : Updated ι K V → Prop
  | .one t => t.Graded P d
  | .two _ l r => l.Graded P d ∧ r.Graded P d

omit [LinearOrder K] in
theorem absorb_graded {a : ι} {ks : List K} {cs : List (Multiway ι K V)} {u : Updated ι K V}
    (i : Nat) (ha : P (d + 1) a) (hcs : ∀ c ∈ cs, c.Graded P d) (hu : u.Graded P d) :
    (absorb a ks cs i u).Graded P (d + 1) := by
  cases u with
  | one c =>
      refine .node ha fun x hx => ?_
      rcases List.mem_or_eq_of_mem_set hx with hx | rfl
      exacts [hcs x hx, hu]
  | two p l r =>
      refine .node ha fun x hx => ?_
      rcases List.eq_or_mem_of_mem_insertIdx hx with rfl | hx
      · exact hu.2
      · rcases List.mem_or_eq_of_mem_set hx with hx | rfl
        exacts [hcs x hx, hu.1]

theorem insert_graded {t : Multiway ι K V} {u : Updated ι K V}
    (hgrown : ∀ a, P 0 a → P 0 (st.grown a))
    (hfresh : P 0 st.fresh) (hhalf : ∀ d a, P (d + 1) a → P (d + 1) (st.half a)) (ht : t.Graded P d)
    (hu : insert st B key v t = some u) : u.Graded P d := by
  induction ht generalizing u with
  | @leaf a ks vs ha =>
      obtain rfl : updateLeaf st B key v a ks vs = u := by simpa [insert] using hu
      simp only [updateLeaf]
      split
      · exact .leaf ha
      · split
        exacts [.leaf (hgrown a ha), ⟨.leaf hfresh, .leaf hfresh⟩]
  | @node d a ks cs ha hcs ih =>
      have child : ∀ {i u}, insertAt st B key v i cs = some u → u.Graded P d := by
        intro i u hu
        rw [insertAt_eq_bind] at hu
        obtain ⟨c, hc, hu⟩ := Option.bind_eq_some_iff.mp hu
        exact ih c (List.mem_of_getElem? hc) hu
      have htake : ∀ c ∈ cs.take B, c.Graded P d := fun c hc => hcs c (List.mem_of_mem_take hc)
      have hdrop : ∀ c ∈ cs.drop B, c.Graded P d := fun c hc => hcs c (List.mem_of_mem_drop hc)
      rw [insert] at hu
      split at hu
      · obtain ⟨u', hu', rfl⟩ := Option.map_eq_some_iff.mp hu
        exact absorb_graded _ ha hcs (child hu')
      · split at hu
        · simp at hu
        · simp only at hu
          split at hu
          all_goals obtain ⟨u', hu', rfl⟩ := Option.map_eq_some_iff.mp hu
          · exact ⟨.node (hhalf _ a ha) htake, absorb_graded _ (hhalf _ a ha) hdrop (child hu')⟩
          · exact ⟨absorb_graded _ (hhalf _ a ha) htake (child hu'), .node (hhalf _ a ha) hdrop⟩

end Grading

section Counting

variable {B m m' d : Nat} {t : Multiway ι K V}

theorem keysOf_leavesList (cs : List (Multiway ι K V)) :
    (keysOf (leavesList cs)).length = (cs.map (fun c => (keysOf c.leaves).length)).sum := by
  induction cs with
  | nil => rfl
  | cons c cs ih => simp [leavesList, ih]

theorem two_pow_le_keys (hm : 1 ≤ m) (htwo : 2 ≤ m') (hB : 2 ≤ B) (hs : t.Shaped m B d)
    (hf : t.Filled B m') : 2 ^ d ≤ (keysOf t.leaves).length := by
  induction t generalizing m m' d with
  | leaf a ks vs =>
      cases d with
      | zero => simpa [Multiway.leaves] using hm.trans hs.1
      | succ d => exact hs.elim
  | node a ks cs ih =>
      cases d with
      | zero => exact hs.elim
      | succ d =>
          cases hf with
          | node hlen hcs =>
              have hall : ∀ x ∈ cs.map (fun c => (keysOf c.leaves).length), 2 ^ d ≤ x := by
                intro x hx
                obtain ⟨c, hc, rfl⟩ := List.mem_map.mp hx
                exact ih c hc (by omega) hB (hs.2.2 c hc) (hcs c hc)
              have hsum := List.card_nsmul_le_sum _ _ hall
              rw [Multiway.leaves, keysOf_leavesList, pow_succ]
              rw [List.length_map, nsmul_eq_mul, Nat.cast_id] at hsum
              exact (Nat.mul_comm _ _ ▸ Nat.mul_le_mul_right _ (htwo.trans hlen)).trans hsum

end Counting

section Joining

variable [LinearOrder K] {lo hi : Option K}

theorem Multiway.OrderedList.append {k : K} {ks ks' : List K} {cs cs' : List (Multiway ι K V)}
    (hk : Cut lo hi k) (h : OrderedList lo (some k) ks cs) (h' : OrderedList (some k) hi ks' cs') :
    OrderedList lo hi (ks ++ k :: ks') (cs ++ cs') := by
  induction ks generalizing lo cs with
  | nil =>
      cases cs with
      | nil => exact h.elim
      | cons c cs =>
          obtain ⟨rfl, hc⟩ := h
          exact ⟨hk, hc, h'⟩
  | cons x ks ih =>
      cases cs with
      | nil => exact h.elim
      | cons c cs =>
          obtain ⟨hcut, hc, hrest⟩ := h
          have hx : x < k := hcut.2 k rfl
          refine ⟨⟨hcut.1, fun u hu => hx.trans (hk.2 u hu)⟩, hc, ih ⟨?_, hk.2⟩ hrest⟩
          simpa using hx

theorem Multiway.Ordered.keys_ascend {t : Multiway ι K V} (h : t.Ordered lo hi) :
    (keysOf t.leaves).Pairwise (· < ·) := by
  induction t generalizing lo hi with
  | leaf a ks vs => simpa [Multiway.leaves] using h.1
  | node a ks cs ih =>
      rw [Multiway.leaves]
      have hlist : ∀ (lo : Option K) (ks : List K) (cs' : List (Multiway ι K V)),
        (∀ c ∈ cs', c ∈ cs) →
          OrderedList lo hi ks cs' → (keysOf (leavesList cs')).Pairwise (· < ·) := by
        intro lo ks
        induction ks generalizing lo with
        | nil =>
            intro cs' hsub h
            cases cs' with
            | nil => exact h.elim
            | cons c cs' =>
                obtain ⟨rfl, hc⟩ := h
                simpa [leavesList] using ih c (hsub c (by simp)) hc
        | cons k ks ihk =>
            intro cs' hsub h
            cases cs' with
            | nil => exact h.elim
            | cons c cs' =>
                obtain ⟨-, hc, hrest⟩ := h
                rw [leavesList, keysOf_append, List.pairwise_append]
                refine ⟨ih c (hsub c (by simp)) hc,
                  ihk _ cs' (fun x hx => hsub x (by simp [hx])) hrest, ?_⟩
                intro x hx y hy
                obtain ⟨l, hl, hxl⟩ := mem_keysOf.mp hx
                obtain ⟨l', hl', hyl⟩ := mem_keysOf.mp hy
                exact ((hc.within l hl x hxl).2 k rfl).trans_le
                  ((hrest.within l' hl' y hyl).1 k rfl)
      exact hlist lo ks cs (fun _ hc => hc) h

end Joining

end Contrees.Library.SearchTree
