import Contrees.Trees.BnodeDenote

namespace Contrees.Trees.Bnode

open Library Library.SearchTree

variable {ι α : Type}

/-- The loop of `build` over `m` nodes: `size` is a `uint8_t`, the remainder of
`r / m` is carried on in `k`, and `none` is a read past the end of the array. -/
def chunks (m r : Nat) : Nat → Nat → List α → Option (List (List α))
  | _, _, [] => some []
  | 0, _, _ :: _ => none
  | fuel + 1, k, x :: xs =>
      let size := (B + (k + r) / m) % 256
      if (x :: xs).length < size then none
      else
        (chunks m r fuel ((k + r) % m) ((x :: xs).drop size)).map (fun cs =>
          (x :: xs).take size :: cs)

def cut (l : List α) : Option (List (List α)) :=
  chunks (l.length / B) (l.length - l.length / B * B) l.length 0 l

def leafOf (ann : ι) (elems : List (Nat × Nat)) : NodeTree ι :=
  .leaf ann (elems.map Prod.fst) (elems.map (fun e => some e.2))

def internalOf (ann : ι) (chs : List (Nat × NodeTree ι)) : NodeTree ι :=
  .node ann (chs.tail.map Prod.fst) (chs.map Prod.snd)

def level {β : Type} (make : List (Nat × β) → NodeTree ι) (cs : List (List (Nat × β))) :
    List (Nat × NodeTree ι) :=
  cs.map (fun c => ((c.map Prod.fst).headD 0, make c))

def depth : Nat → Nat → Nat
  | 0, _ => 1
  | fuel + 1, n => if n < 2 * B then 1 else depth fuel (n / B) + 1

/-- `build_internal`, with what the nodes at each distance from the root record. -/
def buildInternal (ann : Nat → ι) : Nat → List (Nat × NodeTree ι) → Option (NodeTree ι)
  | 0, _ => none
  | fuel + 1, chs =>
      if chs.length < 2 * B then some (internalOf (ann 0) chs)
      else
        (cut chs).bind (fun cs =>
          buildInternal ann fuel (level (internalOf (ann (depth fuel cs.length))) cs))

def buildSorted (ann : Nat → ι) (leaf rootLeaf : ι) (elems : List (Nat × Nat)) :
    Option (NodeTree ι) :=
  if elems.length < 2 * B then some (leafOf rootLeaf elems)
  else (cut elems).bind (fun cs => buildInternal ann elems.length (level (leafOf leaf) cs))

def leafOver (ann : ι) (elems : List (Nat × Option Nat)) : NodeTree ι :=
  .leaf ann (elems.map Prod.fst) (elems.map Prod.snd)

/-- `build_sorted` on an array of stored pairs. -/
def buildStored (ann : Nat → ι) (leaf rootLeaf : ι) (elems : List (Nat × Option Nat)) :
    Option (NodeTree ι) :=
  if elems.length < 2 * B then some (leafOver rootLeaf elems)
  else (cut elems).bind (fun cs => buildInternal ann elems.length (level (leafOver leaf) cs))

def sorted (elems : List (Nat × Nat)) : List (Nat × Nat) :=
  elems.mergeSort (fun a b => a.1 < b.1 || (a.1 == b.1 && a.2 ≤ b.2))

theorem chunks_spec {m r : Nat} (hm : 2 ≤ m) (hr : r < B) {j k : Nat} (hk : k < m) {l : List α}
    (hl : l.length = j * B + (k + j * r) / m) (fuel : Nat) (hfuel : l.length ≤ fuel) :
    ∃ cs, chunks m r fuel k l = some cs ∧ cs.flatten = l ∧ cs.length = j ∧
      ∀ c ∈ cs, B ≤ c.length ∧ c.length ≤ 2 * B - 1 := by
  induction j generalizing k l fuel with
  | zero =>
      have : (k + 0 * r) / m = 0 := Nat.div_eq_of_lt (by simpa using hk)
      obtain rfl : l = [] := List.eq_nil_of_length_eq_zero (by rw [hl, this]; simp)
      exact ⟨[], by simp [chunks], rfl, rfl, by simp⟩
  | succ j ih =>
      have hB := B_pos
      have hsplit : (k + (j + 1) * r) / m = (k + r) / m + ((k + r) % m + j * r) / m := by
        have hdiv := Nat.div_add_mod (k + r) m
        have hsum : k + (j + 1) * r = m * ((k + r) / m) + ((k + r) % m + j * r) := by
          rw [Nat.succ_mul]
          omega
        rw [hsum, Nat.mul_add_div (by omega)]
      have hcarry : (k + r) / m < B := by
        rw [Nat.div_lt_iff_lt_mul (by omega)]
        have := Nat.mul_le_mul_left B hm
        have := Nat.mul_le_mul_right m (show 2 ≤ B by decide)
        omega
      rw [hsplit, Nat.succ_mul] at hl
      generalize hq : (k + r) / m = q at hl hcarry
      generalize hrest : ((k + r) % m + j * r) / m = rest at hl
      have hsize : (B + q) % 256 = B + q :=
        Nat.mod_eq_of_lt (lt_trans (Nat.add_lt_add_left hcarry B) (by decide))
      cases l with
      | nil =>
          simp only [List.length_nil] at hl
          omega
      | cons x xs =>
          cases fuel with
          | zero => simp at hfuel
          | succ fuel =>
              have hdrop : ((x :: xs).drop (B + q)).length = j * B + ((k + r) % m + j * r) / m := by
                rw [List.length_drop, hrest]
                omega
              obtain ⟨cs, hcs, hflat, hlen, hall⟩ := ih (Nat.mod_lt _ (by omega)) hdrop fuel
                (by rw [List.length_drop]; simp only [List.length_cons] at hfuel ⊢; omega)
              refine ⟨(x :: xs).take (B + q) :: cs, ?_, ?_, by simp [hlen], ?_⟩
              · simp only [chunks, hq, hsize]
                rw [if_neg (by omega), hcs]
                rfl
              · rw [List.flatten_cons, hflat, List.take_append_drop]
              · intro c hc
                rcases List.mem_cons.mp hc with rfl | hc
                · rw [List.length_take]
                  omega
                · exact hall c hc

/-- The parts make up the array, and each holds from `B` to `2 B - 1` entries. -/
theorem cut_spec {l : List α} (hl : 2 * B ≤ l.length) :
    ∃ cs, cut l = some cs ∧ cs.flatten = l ∧ cs.length = l.length / B ∧
      ∀ c ∈ cs, B ≤ c.length ∧ c.length ≤ 2 * B - 1 := by
  have hB := B_pos
  have hm : 2 ≤ l.length / B := (Nat.le_div_iff_mul_le hB).mpr hl
  have hdiv := Nat.div_add_mod l.length B
  have hmod := Nat.mod_lt l.length hB
  rw [Nat.mul_comm] at hdiv
  have hr : l.length - l.length / B * B = l.length % B := by omega
  refine chunks_spec hm (by omega) (by omega) ?_ _ (Nat.le_refl _)
  rw [hr, Nat.zero_add, Nat.mul_div_cancel_left _ (by omega)]
  omega

section Levels

open Multiway

variable {lo hi : Option Nat}

def Chained (lo hi : Option Nat) (chs : List (Nat × NodeTree ι)) : Prop :=
  OrderedList lo hi (chs.tail.map Prod.fst) (chs.map Prod.snd)

theorem Chained.append {l l' : List (Nat × NodeTree ι)} {k : Nat} {t : NodeTree ι} (hl : l ≠ [])
    (h : Chained lo hi (l ++ (k, t) :: l')) :
    Cut lo hi k ∧ Chained lo (some k) l ∧ Chained (some k) hi ((k, t) :: l') := by
  cases l with
  | nil => exact absurd rfl hl
  | cons e l =>
      have hk : ((l ++ (k, t) :: l').map Prod.fst)[l.length]? = some k := by
        rw [List.getElem?_map, List.getElem?_append_right (Nat.le_refl _), Nat.sub_self]
        rfl
      obtain ⟨hcut, hleft, hright⟩ := OrderedList.split h hk
      refine ⟨hcut, ?_, ?_⟩
      · simpa [Chained] using hleft
      · have hkeys : (l.map Prod.fst ++ k :: l'.map Prod.fst).drop (l.length + 1) =
            l'.map Prod.fst := by
          have := @List.drop_length_add_append _ (l.map Prod.fst) (k :: l'.map Prod.fst) 1
          simpa using this
        simpa [Chained, hkeys] using hright

theorem level_chained {cs : List (List (Nat × NodeTree ι))} {a : ι} (hcs : cs ≠ [])
    (hne : ∀ c ∈ cs, c ≠ []) (h : Chained lo hi cs.flatten) :
    Chained lo hi (level (internalOf a) cs) := by
  induction cs generalizing lo with
  | nil => exact absurd rfl hcs
  | cons c cs ih =>
      cases cs with
      | nil => exact ⟨rfl, by simpa [Chained, internalOf, Multiway.Ordered] using h⟩
      | cons c' cs =>
          obtain ⟨⟨k, t⟩, l, rfl⟩ : ∃ e l, c' = e :: l :=
            List.exists_cons_of_ne_nil (hne c' (by simp))
          have hflat : ((c :: ((k, t) :: l) :: cs).flatten) = c ++ (k, t) :: (l ++ cs.flatten) := by
            simp
          rw [hflat] at h
          obtain ⟨hcut, hleft, hright⟩ := h.append (hne c (by simp))
          have hrest : Chained (some k) hi (level (internalOf a) (((k, t) :: l) :: cs)) :=
            ih (by simp) (fun x hx => hne x (by simp [hx])) (by simpa using hright)
          exact ⟨hcut, hleft, hrest⟩

theorem leaves_chained {cs : List (List (Nat × Option Nat))} {a : ι} (hcs : cs ≠ [])
    (hne : ∀ c ∈ cs, c ≠ []) (hs : (cs.flatten.map Prod.fst).Pairwise (· < ·))
    (hw : ∀ k ∈ cs.flatten.map Prod.fst, Within lo hi k) :
    Chained lo hi (level (leafOver a) cs) := by
  induction cs generalizing lo with
  | nil => exact absurd rfl hcs
  | cons c cs ih =>
      rw [List.flatten_cons, List.map_append] at hs hw
      rw [List.pairwise_append] at hs
      obtain ⟨hsc, hsr, hcr⟩ := hs
      have hwc : ∀ k ∈ c.map Prod.fst, Within lo hi k :=
        fun k hk => hw k (List.mem_append_left _ hk)
      have hwr : ∀ k ∈ cs.flatten.map Prod.fst, Within lo hi k := fun k hk =>
        hw k (List.mem_append_right _ hk)
      cases cs with
      | nil => exact ⟨rfl, hsc, by simp, hwc⟩
      | cons c' cs =>
          obtain ⟨⟨k, v⟩, l, rfl⟩ : ∃ e l, c' = e :: l :=
            List.exists_cons_of_ne_nil (hne c' (by simp))
          obtain ⟨e, c, rfl⟩ := List.exists_cons_of_ne_nil (hne c (by simp))
          have hk : k ∈ (((k, v) :: l) :: cs).flatten.map Prod.fst := by simp
          have hlow : ∀ x ∈ (((k, v) :: l) :: cs).flatten.map Prod.fst, k ≤ x := by
            intro x hx
            rw [List.flatten_cons, List.cons_append, List.map_cons] at hx hsr
            rcases List.mem_cons.mp hx with rfl | hx
            · exact le_rfl
            · exact ((List.pairwise_cons.mp hsr).1 x hx).le
          refine ⟨⟨fun b hb => ?_, (hwr k hk).2⟩, ⟨hsc, by simp, fun x hx => ?_⟩, ?_⟩
          · exact ((hwc e.1 (by simp)).1 b hb).trans_lt (hcr e.1 (by simp) k hk)
          · exact ⟨(hwc x hx).1, by simpa using hcr x hx k hk⟩
          · exact ih (by simp) (fun x hx => hne x (by simp [hx])) hsr
              fun x hx => ⟨by simpa using hlow x hx, (hwr x hx).2⟩

theorem leavesList_level {a : ι} (cs : List (List (Nat × NodeTree ι))) :
    leavesList ((level (internalOf a) cs).map Prod.snd) = leavesList (cs.flatten.map Prod.snd) := by
  induction cs with
  | nil => rfl
  | cons c cs ih =>
      rw [List.flatten_cons, List.map_append, leavesList_append, ← ih]
      rfl

theorem leaves_level {a : ι} (cs : List (List (Nat × Option Nat))) :
    leavesList ((level (leafOver a) cs).map Prod.snd) =
      cs.map (fun c => (c.map Prod.fst, c.map Prod.snd)) := by
  induction cs with
  | nil => rfl
  | cons c cs ih =>
      rw [List.map_cons, ← ih]
      rfl

theorem internalOf_shaped {a : ι} {chs : List (Nat × NodeTree ι)} {d : Nat} (hne : chs ≠ [])
    (hmax : chs.length ≤ 2 * B) (hall : ∀ c ∈ chs, c.2.Shaped B B d) :
    (internalOf a chs).Shaped B B (d + 1) := by
  obtain ⟨e, chs, rfl⟩ := List.exists_cons_of_ne_nil hne
  refine ⟨?_, by simp, fun c hc => ?_⟩
  · simp only [List.length_cons, List.length_map, List.tail_cons] at hmax ⊢
    omega
  · obtain ⟨x, hx, rfl⟩ := List.mem_map.mp hc
    exact hall x hx

theorem two_shaped {a : ι} {l r : NodeTree ι} {d sep : Nat} (hl : l.Shaped B B d)
    (hr : r.Shaped B B d) : (Multiway.node a [sep] [l, r]).Shaped B B (d + 1) := by
  exact ⟨by simp [B], rfl, by simpa using ⟨hl, hr⟩⟩

theorem depth_pos (fuel n : Nat) : 0 < depth fuel n := by
  cases fuel with
  | zero => exact Nat.one_pos
  | succ fuel =>
      simp only [depth]
      split
      exacts [Nat.one_pos, Nat.succ_pos _]

def minChildren (d : Nat) : Nat := if d = 0 then 2 else B

def firstKey {β : Type} (l : List (Nat × β)) : Nat := (l.map Prod.fst).headD 0

theorem firstKey_level {β : Type} {make : List (Nat × β) → NodeTree ι} {cs : List (List (Nat × β))}
    (hcs : cs ≠ []) (hne : ∀ c ∈ cs, c ≠ []) : firstKey (level make cs) = firstKey cs.flatten := by
  obtain ⟨c, cs, rfl⟩ := List.exists_cons_of_ne_nil hcs
  obtain ⟨e, c, rfl⟩ := List.exists_cons_of_ne_nil (hne c (by simp))
  rfl

/-- What nodes at distance `d` from the root, with the key before each, get from
their children. -/
def Inherits (ann : Nat → ι) (R : Nat → Nat × NodeTree ι → Prop) : Prop :=
  ∀ d chs, minChildren d ≤ chs.length → chs.length ≤ 2 * B - 1 → (∀ c ∈ chs, R (d + 1) c) →
    R d (firstKey chs, internalOf (ann d) chs)

/-- `build_internal` keeps order and leaves and makes a B-tree; `R` may be any
property that nodes get from their children. -/
theorem buildInternal_spec {ann : Nat → ι} {R : Nat → Nat × NodeTree ι → Prop} (hR : Inherits ann R)
    (fuel : Nat) (chs : List (Nat × NodeTree ι)) {d : Nat} (htwo : 2 ≤ chs.length)
    (hfuel : chs.length ≤ fuel) (hchain : Chained none none chs)
    (hshaped : ∀ c ∈ chs, c.2.Shaped B B d) (hchs : ∀ c ∈ chs, R (depth fuel chs.length) c) :
    ∃ T, buildInternal ann fuel chs = some T ∧ T.Ordered none none ∧ (∃ d, T.Shaped B B (d + 1)) ∧
      T.leaves = leavesList (chs.map Prod.snd) ∧ R 0 (firstKey chs, T) := by
  have hne : chs ≠ [] := List.ne_nil_of_length_pos (by omega)
  induction fuel generalizing chs d with
  | zero => omega
  | succ fuel ih =>
      have hB := B_pos
      by_cases hlt : chs.length < 2 * B
      · have hdepth : depth (fuel + 1) chs.length = 1 := by simp [depth, hlt]
        rw [hdepth] at hchs
        refine ⟨internalOf (ann 0) chs, by simp [buildInternal, hlt], hchain,
          ⟨d, internalOf_shaped hne hlt.le hshaped⟩, rfl, hR 0 chs htwo (by omega) hchs⟩
      · obtain ⟨cs, hcs, hflat, hlen, hall⟩ := cut_spec (not_lt.mp hlt)
        have hdepth : depth (fuel + 1) chs.length = depth fuel cs.length + 1 := by
          simp [depth, hlt, hlen]
        rw [hdepth] at hchs
        have hsub : ∀ c ∈ cs, ∀ x ∈ c, x ∈ chs := fun c hc x hx => by
          rw [← hflat]
          exact List.mem_flatten_of_mem hc hx
        have hcne : ∀ c ∈ cs, c ≠ [] :=
          fun c hc => List.ne_nil_of_length_pos (by have := (hall c hc).1; omega)
        have hlen' : (level (internalOf (ann (depth fuel cs.length))) cs).length = cs.length := by
          simp [level]
        have hdiv : cs.length < chs.length ∧ 2 ≤ cs.length := by
          rw [hlen]
          exact ⟨Nat.div_lt_self (by omega) (by decide),
            (Nat.le_div_iff_mul_le hB).mpr (not_lt.mp hlt)⟩
        have hcsne : cs ≠ [] := List.ne_nil_of_length_pos (by omega)
        have hmem : ∀ x ∈ level (internalOf (ann (depth fuel cs.length))) cs, ∃ c ∈ cs,
            x = (firstKey c, internalOf (ann (depth fuel cs.length)) c) := by
          intro x hx
          obtain ⟨c, hc, rfl⟩ := List.mem_map.mp hx
          exact ⟨c, hc, rfl⟩
        obtain ⟨T, hT, hord, hsh, hleaves, hR0⟩ :=
          ih (level (internalOf (ann (depth fuel cs.length))) cs) (by rw [hlen']; exact hdiv.2)
            (by omega) (level_chained hcsne hcne (by rw [hflat]; exact hchain))
            (fun x hx => by
              obtain ⟨c, hc, heq⟩ := hmem x hx
              rw [heq]
              exact internalOf_shaped (hcne c hc) (by have := (hall c hc).2; omega)
                fun y hy => hshaped y (hsub c hc y hy))
            (fun x hx => by
              obtain ⟨c, hc, heq⟩ := hmem x hx
              rw [heq, hlen']
              refine hR _ c ?_ (hall c hc).2 fun y hy => hchs y (hsub c hc y hy)
              rw [minChildren, if_neg (depth_pos _ _).ne']
              exact (hall c hc).1)
            (by simpa [level] using hcsne)
        refine ⟨T, ?_, hord, hsh, ?_, ?_⟩
        · simp only [buildInternal, if_neg hlt, hcs, Option.bind_some]
          exact hT
        · rw [hleaves, leavesList_level, hflat]
        · rw [firstKey_level hcsne hcne, hflat] at hR0
          exact hR0

theorem map_leaves (cs : List (List (Nat × Option Nat))) :
    pairsOf (cs.map (fun c => (c.map Prod.fst, c.map Prod.snd))) = cs.flatten := by
  induction cs with
  | nil => rfl
  | cons c cs ih =>
      have hzip : (c.map Prod.fst).zip (c.map Prod.snd) = c := by
        rw [List.zip_map', List.map_id']
      rw [List.flatten_cons, ← ih]
      conv_rhs => rw [← hzip]
      rfl

/-- `build_sorted` makes a B-tree of its pairs: a LEAF below 16 pairs, an INTERNAL
root from 16 on. -/
theorem buildStored_spec {ann : Nat → ι} {leaf rootLeaf : ι} {R : Nat → Nat × NodeTree ι → Prop}
    (hR : Inherits ann R) {elems : List (Nat × Option Nat)}
    (hs : (elems.map Prod.fst).Pairwise (· < ·))
    (hRleaf : ∀ c, B ≤ c.length → c.length ≤ 2 * B - 1 →
      R (depth elems.length (elems.length / B)) (firstKey c, leafOver leaf c)) :
    ∃ T, buildStored ann leaf rootLeaf elems = some T ∧ T.Ordered none none ∧ T.pairs = elems ∧
      (elems.length < 2 * B ∧ T = leafOver rootLeaf elems ∨
        2 * B ≤ elems.length ∧ (∃ d, T.Shaped B B (d + 1)) ∧ R 0 (firstKey elems, T)) := by
  have hwithin : ∀ k : Nat, Within none none k := fun k => ⟨by simp, by simp⟩
  by_cases hlt : elems.length < 2 * B
  · refine ⟨leafOver rootLeaf elems, by simp [buildStored, hlt],
      ⟨hs, by simp, fun k _ => hwithin k⟩, ?_,
      .inl ⟨hlt, rfl⟩⟩
    simpa [Multiway.pairs, leafOver, Multiway.leaves] using map_leaves [elems]
  · have hB := B_pos
    obtain ⟨cs, hcs, hflat, hlen, hall⟩ := cut_spec (not_lt.mp hlt)
    have hcne : ∀ c ∈ cs, c ≠ [] := fun c hc =>
      List.ne_nil_of_length_pos (by have := (hall c hc).1; omega)
    have hdiv : cs.length ≤ elems.length := by
      rw [hlen]
      exact Nat.div_le_self _ _
    have htwo : 2 ≤ cs.length := by
      rw [hlen]
      exact (Nat.le_div_iff_mul_le hB).mpr (not_lt.mp hlt)
    have hmem : ∀ x ∈ level (leafOver leaf) cs, ∃ c ∈ cs, x = (firstKey c, leafOver leaf c) := by
      intro x hx
      obtain ⟨c, hc, rfl⟩ := List.mem_map.mp hx
      exact ⟨c, hc, rfl⟩
    have hshaped : ∀ x ∈ level (leafOver leaf) cs, x.2.Shaped B B 0 := by
      intro x hx
      obtain ⟨c, hc, heq⟩ := hmem x hx
      rw [heq]
      exact ⟨by simpa using (hall c hc).1, by simpa using (hall c hc).2, by simp⟩
    have hleafR : ∀ x ∈ level (leafOver leaf) cs,
        R (depth elems.length (level (leafOver leaf) cs).length) x := by
      intro x hx
      obtain ⟨c, hc, heq⟩ := hmem x hx
      rw [heq, level, List.length_map, hlen]
      exact hRleaf c (hall c hc).1 (hall c hc).2
    obtain ⟨T, hT, hord, hsh, hleaves, hR0⟩ := buildInternal_spec hR elems.length
      (level (leafOver leaf) cs) (by simpa [level] using htwo) (by simpa [level] using hdiv)
      (leaves_chained (List.ne_nil_of_length_pos (by omega)) hcne (by rw [hflat]; exact hs)
        fun k _ => hwithin k) hshaped hleafR
    rw [firstKey_level (List.ne_nil_of_length_pos (by omega)) hcne, hflat] at hR0
    refine ⟨T, ?_, hord, ?_, .inr ⟨not_lt.mp hlt, hsh, hR0⟩⟩
    · simp only [buildStored, if_neg hlt, hcs, Option.bind_some]
      exact hT
    · rw [Multiway.pairs, hleaves, leaves_level, map_leaves, hflat]

theorem cut_map {β : Type} (f : α → β) (l : List α) :
    cut (l.map f) = (cut l).map (List.map (List.map f)) := by
  have hchunks : ∀ (m r fuel k : Nat) (l : List α),
      chunks m r fuel k (l.map f) = (chunks m r fuel k l).map (List.map (List.map f)) := by
    intro m r fuel
    induction fuel with
    | zero => intro k l; cases l <;> rfl
    | succ fuel ih =>
        intro k l
        cases l with
        | nil => rfl
        | cons x xs =>
            simp only [chunks, List.map_cons]
            rw [← List.map_cons, List.length_map]
            split
            · rfl
            · rw [← List.map_drop, ih, Option.map_map, Option.map_map, ← List.map_take]
              rfl
  simp only [cut, List.length_map]
  exact hchunks _ _ _ _ l

theorem leafOf_eq (ann : ι) (elems : List (Nat × Nat)) :
    leafOf ann elems = leafOver ann (elems.map (fun e => (e.1, some e.2))) := by
  simp [leafOf, leafOver]

theorem buildSorted_eq (ann : Nat → ι) (leaf rootLeaf : ι) (elems : List (Nat × Nat)) :
    buildSorted ann leaf rootLeaf elems =
      buildStored ann leaf rootLeaf (elems.map (fun e => (e.1, some e.2))) := by
  have hlevel : ∀ cs : List (List (Nat × Nat)), level (leafOver leaf)
      (cs.map (List.map (fun e => (e.1, some e.2)))) = level (leafOf leaf) cs := by
    intro cs
    simp [level, leafOf_eq, Function.comp_def]
  simp only [buildSorted, buildStored, List.length_map, leafOf_eq rootLeaf, cut_map,
    Option.bind_map,
    Function.comp_def, hlevel]

theorem buildSorted_spec {ann : Nat → ι} {leaf rootLeaf : ι} {R : Nat → Nat × NodeTree ι → Prop}
    (hR : Inherits ann R)
    (hRleaf : ∀ d c, 0 < d → B ≤ c.length → c.length ≤ 2 * B - 1 →
      R d (firstKey c, leafOver leaf c))
    {elems : List (Nat × Nat)} (hs : (elems.map Prod.fst).Pairwise (· < ·)) :
    ∃ T, buildSorted ann leaf rootLeaf elems = some T ∧ T.Ordered none none ∧
      T.pairs = elems.map (fun e => (e.1, some e.2)) ∧
      (elems.length < 2 * B ∧ T = leafOf rootLeaf elems ∨
        2 * B ≤ elems.length ∧ (∃ d, T.Shaped B B (d + 1)) ∧ R 0 (firstKey elems, T)) := by
  have hkeys : (elems.map (fun e => (e.1, some e.2))).map Prod.fst = elems.map Prod.fst := by
    simp
  obtain ⟨T, hT, hord, hpairs, hcase⟩ : ∃ T, buildStored ann leaf rootLeaf
      (elems.map (fun e => (e.1, some e.2))) = some T ∧ _ :=
    buildStored_spec hR (hkeys ▸ hs) fun c => hRleaf _ c (depth_pos _ _)
  refine ⟨T, by rw [buildSorted_eq, hT], hord, hpairs, ?_⟩
  simpa only [List.length_map, ← leafOf_eq, firstKey, hkeys] using hcase

theorem sorted_perm (elems : List (Nat × Nat)) :
    (sorted elems).Perm elems := List.mergeSort_perm _ _

theorem sorted_keys {elems : List (Nat × Nat)} (hd : (elems.map Prod.fst).Nodup) :
    ((sorted elems).map Prod.fst).Pairwise (· < ·) := by
  have hle : (sorted elems).Pairwise (fun a b => a.1 ≤ b.1) := by
    refine (List.pairwise_mergeSort ?_ ?_ elems).imp ?_
    · intro a b c hab hbc
      simp only [Bool.or_eq_true, Bool.and_eq_true, decide_eq_true_eq, beq_iff_eq] at hab hbc ⊢
      omega
    · intro a b
      simp only [Bool.or_eq_true, Bool.and_eq_true, decide_eq_true_eq, beq_iff_eq]
      omega
    · intro a b hab
      simp only [Bool.or_eq_true, Bool.and_eq_true, decide_eq_true_eq, beq_iff_eq] at hab
      omega
  have hnd : ((sorted elems).map Prod.fst).Nodup := ((sorted_perm elems).map _).nodup_iff.mpr hd
  have hboth := (List.pairwise_map.mpr hle).and hnd
  exact hboth.imp fun hab => lt_of_le_of_ne hab.1 hab.2

end Levels

end Contrees.Trees.Bnode
