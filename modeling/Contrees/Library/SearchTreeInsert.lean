import Contrees.Library.SearchTree
import Mathlib.Data.List.InsertIdx

namespace Contrees.Library.SearchTree

variable {ι K V : Type}

/-- What an insertion writes into the nodes it touches: the values of a leaf
that has the key already, the record of a leaf that grows by one, of the halves
of a full leaf, and of the halves of a full node. -/
structure Style (ι V : Type) where
  hit : Nat → V → List V → List V
  grown : ι → ι
  fresh : ι
  half : ι → ι
  hit_length : ∀ i v vs, (hit i v vs).length = vs.length

/-- The tree that replaces an updated one, or two with a separator. -/
inductive Updated (ι K V : Type)
  | one (t : Multiway ι K V)
  | two (p : K) (l r : Multiway ι K V)

namespace Updated

def leaves : Updated ι K V → List (List K × List V)
  | .one t => t.leaves
  | .two _ l r => l.leaves ++ r.leaves

def absorb (a : ι) (ks : List K) (cs : List (Multiway ι K V)) (i : Nat) :
    Updated ι K V → Multiway ι K V
  | .one c => .node a ks (cs.set i c)
  | .two p l r => .node a (ks.insertIdx i p) ((cs.set i l).insertIdx (i + 1) r)

def rooted (root : ι) : Updated ι K V → Multiway ι K V
  | .one t => t
  | .two p l r => .node root [p] [l, r]

@[simp] theorem leaves_rooted (root : ι) (u : Updated ι K V) :
    (u.rooted root).leaves = u.leaves := by
  cases u <;> simp [rooted, Multiway.leaves, Multiway.leavesList, leaves]

end Updated

open Multiway Updated

section Insertion

variable [LinearOrder K] (st : Style ι V) (B : Nat) (key : K) (v : V)

def updateLeaf (a : ι) (ks : List K) (vs : List V) : Updated ι K V :=
  let i := findval ks key
  if ks[i]? = some key then .one (.leaf a ks (st.hit i v vs))
  else if ks.length < 2 * B - 1 then
    .one (.leaf (st.grown a) (ks.insertIdx i key) (vs.insertIdx i v))
  else
    let ks' := ks.insertIdx i key
    let vs' := vs.insertIdx i v
    .two (ks'.getD B key) (.leaf st.fresh (ks'.take B) (vs'.take B))
      (.leaf st.fresh (ks'.drop B) (vs'.drop B))

mutual
/-- Insertion into a tree of minimum degree `B` that splits full nodes on the
way down. -/
def insert : Multiway ι K V → Option (Updated ι K V)
  | .leaf a ks vs => some (updateLeaf st B key v a ks vs)
  | .node a ks cs =>
      if ks.length < 2 * B - 1 then
        (insertAt (findch ks key) cs).map (fun u => .one (absorb a ks cs (findch ks key) u))
      else
        match ks[B - 1]? with
        | none => none
        | some p =>
            let kl := ks.take (B - 1)
            let kr := ks.drop B
            if p ≤ key then
              (insertAt (B + findch kr key) cs).map (fun u =>
                .two p (.node (st.half a) kl (cs.take B))
                  (absorb (st.half a) kr (cs.drop B) (findch kr key) u))
            else
              (insertAt (findch kl key) cs).map (fun u =>
                .two p (absorb (st.half a) kl (cs.take B) (findch kl key) u)
                  (.node (st.half a) kr (cs.drop B)))
def insertAt : Nat → List (Multiway ι K V) → Option (Updated ι K V)
  | _, [] => none
  | 0, c :: _ => insert c
  | i + 1, _ :: cs => insertAt i cs
end

theorem insertAt_eq_bind (i : Nat) (cs : List (Multiway ι K V)) :
    insertAt st B key v i cs = cs[i]?.bind (insert st B key v) := by
  induction cs generalizing i with
  | nil => rfl
  | cons c cs ih =>
      cases i with
      | zero => rfl
      | succ i => simpa [insertAt] using ih i

theorem insertAt_eq {i : Nat} {cs : List (Multiway ι K V)} {c : Multiway ι K V}
    (h : cs[i]? = some c) :
    insertAt st B key v i cs = insert st B key v c := by
  rw [insertAt_eq_bind, h]
  rfl

theorem insertAt_drop (m i : Nat) (cs : List (Multiway ι K V)) :
    insertAt st B key v (m + i) cs = insertAt st B key v i (cs.drop m) := by
  rw [insertAt_eq_bind, insertAt_eq_bind, List.getElem?_drop]

theorem insertAt_take {m i : Nat} (h : i < m) (cs : List (Multiway ι K V)) :
    insertAt st B key v i cs = insertAt st B key v i (cs.take m) := by
  rw [insertAt_eq_bind, insertAt_eq_bind, List.getElem?_take_of_lt h]

end Insertion

section Order

variable [LinearOrder K] {st : Style ι V} {B : Nat} {key : K} {v : V}

def Updated.Ordered (lo hi : Option K) : Updated ι K V → Prop
  | .one t => t.Ordered lo hi
  | .two p l r => Cut lo hi p ∧ l.Ordered lo (some p) ∧ r.Ordered (some p) hi

theorem findval_lt {ks : List K} {x : K} (h : x ∈ ks.take (findval ks key)) : x < key := by
  induction ks with
  | nil => simp at h
  | cons k ks ih =>
      by_cases hlt : k < key
      · simp only [findval, hlt, if_true, List.take_succ_cons, List.mem_cons] at h
        rcases h with rfl | h
        · exact hlt
        · exact ih h
      · simp [findval, hlt] at h

theorem findval_ge {ks : List K} {x : K} (hs : ks.Pairwise (· < ·))
    (h : x ∈ ks.drop (findval ks key)) : key ≤ x := by
  induction ks with
  | nil => simp at h
  | cons k ks ih =>
      obtain ⟨hk, hs⟩ := List.pairwise_cons.mp hs
      by_cases hlt : k < key
      · exact ih hs (by simpa [findval, hlt] using h)
      · have hle : key ≤ k := not_lt.mp hlt
        simp only [findval, hlt, if_false, List.drop_zero, List.mem_cons] at h
        rcases h with rfl | h
        · exact hle
        · exact hle.trans (hk x h).le

theorem getElem?_findval_iff {ks : List K} (hs : ks.Pairwise (· < ·)) :
    ks[findval ks key]? = some key ↔ key ∈ ks := by
  refine ⟨List.mem_of_getElem?, fun h => ?_⟩
  induction ks with
  | nil => simp at h
  | cons k ks ih =>
      obtain ⟨hk, hs⟩ := List.pairwise_cons.mp hs
      rcases List.mem_cons.mp h with rfl | h
      · simp [findval]
      · simpa [findval, hk key h] using ih hs h

theorem insertIdx_eq_append {α : Type} {l : List α} {i : Nat} (h : i ≤ l.length) (x : α) :
    l.insertIdx i x = l.take i ++ x :: l.drop i := by
  induction l generalizing i with
  | nil =>
      obtain rfl : i = 0 := by simpa using h
      simp
  | cons y l ih =>
      cases i with
      | zero => simp
      | succ i => simpa using ih (by simpa using h)

theorem insertIdx_findval_sorted {ks : List K} (hs : ks.Pairwise (· < ·)) (hkey : key ∉ ks) :
    (ks.insertIdx (findval ks key) key).Pairwise (· < ·) := by
  rw [insertIdx_eq_append (findval_le ks key), List.pairwise_append]
  refine ⟨hs.sublist (List.take_sublist _ _), List.pairwise_cons.mpr ⟨?_, ?_⟩, ?_⟩
  · intro x hx
    exact lt_of_le_of_ne (findval_ge hs hx) (fun h => hkey (h ▸ List.mem_of_mem_drop hx))
  · exact hs.sublist (List.drop_sublist _ _)
  · intro x hx y hy
    rcases List.mem_cons.mp hy with rfl | hy
    · exact findval_lt hx
    · exact (findval_lt hx).trans_le (findval_ge hs hy)

theorem sorted_cut {lo hi : Option K} {ks : List K} {p : K} (hs : ks.Pairwise (· < ·))
    (hw : ∀ k ∈ ks, Within lo hi k) (hB : 0 < B) (hp : ks[B]? = some p) :
    Cut lo hi p ∧ (∀ k ∈ ks.take B, Within lo (some p) k) ∧
      ∀ k ∈ ks.drop B, Within (some p) hi k := by
  have hlen : B < ks.length := (List.getElem?_eq_some_iff.mp hp).1
  have hdrop : ks.drop B = p :: ks.drop (B + 1) := by
    rw [List.drop_eq_getElem_cons hlen, (List.getElem?_eq_some_iff.mp hp).2]
  have hsplit := List.take_append_drop B ks
  rw [hdrop] at hsplit
  rw [← hsplit, List.pairwise_append] at hs
  obtain ⟨-, hright, hleft⟩ := hs
  have hbelow : ∀ k ∈ ks.take B, k < p := fun k hk => hleft k hk p (by simp)
  refine ⟨⟨fun l hl => ?_, (hw p (List.mem_of_getElem? hp)).2⟩, ?_, ?_⟩
  · obtain ⟨k, hk⟩ := List.exists_mem_of_length_pos (l := ks.take B) (by
      rw [List.length_take]; omega)
    exact ((hw k (List.mem_of_mem_take hk)).1 l hl).trans_lt (hbelow k hk)
  · exact fun k hk => ⟨(hw k (List.mem_of_mem_take hk)).1, by simpa using hbelow k hk⟩
  · intro k hk
    refine ⟨?_, (hw k (List.mem_of_mem_drop hk)).2⟩
    rw [hdrop] at hk
    rcases List.mem_cons.mp hk with rfl | hk
    · simp
    · simpa using ((List.pairwise_cons.mp hright).1 k hk).le

theorem insertIdx_within {lo hi : Option K} {ks : List K} (hkey : Within lo hi key)
    (hw : ∀ k ∈ ks, Within lo hi k) : ∀ k ∈ ks.insertIdx (findval ks key) key, Within lo hi k := by
  intro k hk
  rcases (List.mem_insertIdx (findval_le ks key)).mp hk with rfl | hk
  · exact hkey
  · exact hw k hk

section Leaf

variable {ks : List K} {vs : List V} (a : ι)

theorem updateLeaf_of_mem (hs : ks.Pairwise (· < ·)) (hkey : key ∈ ks) :
    updateLeaf st B key v a ks vs = .one (.leaf a ks (st.hit (findval ks key) v vs)) := by
  simp only [updateLeaf, if_pos ((getElem?_findval_iff hs).mpr hkey)]

theorem updateLeaf_of_room (hkey : key ∉ ks) (hlt : ks.length < 2 * B - 1) :
    updateLeaf st B key v a ks vs = .one (.leaf (st.grown a)
      (ks.insertIdx (findval ks key) key) (vs.insertIdx (findval ks key) v)) := by
  have habsent : ks[findval ks key]? ≠ some key := fun h => hkey (List.mem_of_getElem? h)
  simp only [updateLeaf, if_neg habsent, if_pos hlt]

theorem updateLeaf_of_full (hkey : key ∉ ks) (hle : 2 * B - 1 ≤ ks.length) :
    updateLeaf st B key v a ks vs = .two ((ks.insertIdx (findval ks key) key).getD B key)
      (.leaf st.fresh ((ks.insertIdx (findval ks key) key).take B)
        ((vs.insertIdx (findval ks key) v).take B))
      (.leaf st.fresh ((ks.insertIdx (findval ks key) key).drop B)
        ((vs.insertIdx (findval ks key) v).drop B)) := by
  have habsent : ks[findval ks key]? ≠ some key := fun h => hkey (List.mem_of_getElem? h)
  simp only [updateLeaf, if_neg habsent, if_neg hle.not_gt]

theorem updateLeaf_ordered {lo hi : Option K} (hB : 0 < B) (h : Ordered lo hi (.leaf a ks vs))
    (hkey : Within lo hi key) : (updateLeaf st B key v a ks vs).Ordered lo hi := by
  obtain ⟨hs, hlen, hw⟩ := h
  by_cases hmem : key ∈ ks
  · rw [updateLeaf_of_mem a hs hmem]
    exact ⟨hs, by rw [st.hit_length, hlen], hw⟩
  · have hs' := insertIdx_findval_sorted hs hmem
    have hw' := insertIdx_within hkey hw
    have hi' := findval_le ks key
    have hlen' : (ks.insertIdx (findval ks key) key).length =
        (vs.insertIdx (findval ks key) v).length := by
      rw [List.length_insertIdx_of_le_length hi', List.length_insertIdx_of_le_length (hlen ▸ hi'),
        hlen]
    by_cases hroom : ks.length < 2 * B - 1
    · rw [updateLeaf_of_room a hmem hroom]
      exact ⟨hs', hlen', hw'⟩
    · have hB' : B < (ks.insertIdx (findval ks key) key).length := by
        rw [List.length_insertIdx_of_le_length hi']
        omega
      obtain ⟨p, hp⟩ : ∃ p, (ks.insertIdx (findval ks key) key)[B]? = some p :=
        ⟨_, List.getElem?_eq_getElem hB'⟩
      obtain ⟨hcut, hl, hr⟩ := sorted_cut hs' hw' hB hp
      rw [updateLeaf_of_full a hmem (not_lt.mp hroom), List.getD_eq_getElem?_getD, hp,
        Option.getD_some]
      exact ⟨hcut, ⟨hs'.sublist (List.take_sublist _ _), by simp [hlen'], hl⟩,
        ⟨hs'.sublist (List.drop_sublist _ _), by simp [hlen'], hr⟩⟩

end Leaf

/-- The stretch of leaves that an insertion replaces: one leaf, by the leaf or
the two that `updateLeaf` makes of it. -/
inductive Touches (st : Style ι V) (B : Nat) (key : K) (v : V) :
    List (List K × List V) → List (List K × List V) → Prop
  | intro (pre post : List (List K × List V)) (a : ι) (ks : List K) (vs : List V)
      (sorted : ks.Pairwise (· < ·)) (len : ks.length = vs.length)
      (below : ∀ l ∈ pre, ∀ k ∈ l.1, k < key) (above : ∀ l ∈ post, ∀ k ∈ l.1, key < k) :
      Touches st B key v (pre ++ [(ks, vs)] ++ post)
        (pre ++ (updateLeaf st B key v a ks vs).leaves ++ post)

theorem Touches.within {old new : List (List K × List V)} (h : Touches st B key v old new)
    (pre post : List (List K × List V)) (hpre : ∀ l ∈ pre, ∀ k ∈ l.1, k < key)
    (hpost : ∀ l ∈ post, ∀ k ∈ l.1, key < k) :
    Touches st B key v (pre ++ old ++ post) (pre ++ new ++ post) := by
  obtain ⟨pre', post', a, ks, vs, hs, hlen, hbelow, habove⟩ := h
  have hold : pre ++ (pre' ++ [(ks, vs)] ++ post') ++ post =
      (pre ++ pre') ++ [(ks, vs)] ++ (post' ++ post) := by simp
  have hnew : pre ++ (pre' ++ (updateLeaf st B key v a ks vs).leaves ++ post') ++ post =
      (pre ++ pre') ++ (updateLeaf st B key v a ks vs).leaves ++ (post' ++ post) := by simp
  rw [hold, hnew]
  refine .intro _ _ a ks vs hs hlen ?_ ?_
  · intro l hl
    rcases List.mem_append.mp hl with hl | hl
    exacts [hpre l hl, hbelow l hl]
  · intro l hl
    rcases List.mem_append.mp hl with hl | hl
    exacts [habove l hl, hpost l hl]

theorem Multiway.OrderedList.split {lo hi : Option K} {ks : List K} {cs : List (Multiway ι K V)}
    {m : Nat} {p : K} (h : OrderedList lo hi ks cs) (hp : ks[m]? = some p) :
    Cut lo hi p ∧ OrderedList lo (some p) (ks.take m) (cs.take (m + 1)) ∧
      OrderedList (some p) hi (ks.drop (m + 1)) (cs.drop (m + 1)) := by
  induction ks generalizing lo cs m with
  | nil => simp at hp
  | cons k ks ih =>
      cases cs with
      | nil => simp [OrderedList] at h
      | cons c cs =>
          obtain ⟨hcut, hc, hrest⟩ := h
          cases m with
          | zero =>
              obtain rfl : k = p := by simpa using hp
              exact ⟨hcut, ⟨by simp, hc⟩, by simpa using hrest⟩
          | succ m =>
              obtain ⟨hcut', hl, hr⟩ := ih hrest (by simpa using hp)
              have hkp : k < p := hcut'.1 k rfl
              refine ⟨⟨fun l hl => (hcut.1 l hl).trans hkp, hcut'.2⟩, ?_, by simpa using hr⟩
              exact ⟨⟨hcut.1, by simpa using hkp⟩, hc, by simpa using hl⟩

theorem Updated.Ordered.rooted {lo hi : Option K} {u : Updated ι K V} (h : u.Ordered lo hi)
    (root : ι) : (u.rooted root).Ordered lo hi := by
  cases u with
  | one t => exact h
  | two p l r => exact ⟨h.1, h.2.1, rfl, h.2.2⟩

def Inserted (st : Style ι V) (B : Nat) (key : K) (v : V) (lo hi : Option K)
    (old : List (List K × List V)) (u : Updated ι K V) : Prop :=
  u.Ordered lo hi ∧ Touches st B key v old u.leaves

theorem Multiway.Focus.absorb {lo hi lo' hi' : Option K} {ks : List K} {cs : List (Multiway ι K V)}
    {c : Multiway ι K V} {pre post : List (List K × List V)} {u : Updated ι K V}
    (hc : Focus lo hi ks cs key c lo' hi' pre post) (hu : Inserted st B key v lo' hi' c.leaves u)
    (a : ι) : (absorb a ks cs (findch ks key) u).Ordered lo hi ∧
      Touches st B key v (leavesList cs) (absorb a ks cs (findch ks key) u).leaves := by
  obtain ⟨hord, htouch⟩ := hu
  rw [hc.leaves]
  cases u with
  | one t =>
      refine ⟨hc.replace t hord, ?_⟩
      simpa only [Updated.absorb, Multiway.leaves, Updated.leaves, hc.replaced t] using
        htouch.within pre post hc.below hc.above
  | two p l r =>
      refine ⟨hc.split l p r hord.1 hord.2.1 hord.2.2, ?_⟩
      simpa only [Updated.absorb, Multiway.leaves, Updated.leaves, hc.splitted l r] using
        htouch.within pre post hc.below hc.above

/-- An insertion keeps the order and touches one leaf. -/
theorem insert_inserted {lo hi : Option K} {t : Multiway ι K V} {u : Updated ι K V} (hB : 0 < B)
    (ht : t.Ordered lo hi) (hkey : Within lo hi key) (h : insert st B key v t = some u) :
    Inserted st B key v lo hi t.leaves u := by
  induction t generalizing lo hi u with
  | leaf a ks vs =>
      obtain rfl : updateLeaf st B key v a ks vs = u := by simpa [insert] using h
      refine ⟨updateLeaf_ordered a hB ht hkey, ?_⟩
      simpa [Multiway.leaves] using Touches.intro [] [] a ks vs ht.1 ht.2.1 (by simp) (by simp)
  | node a ks cs ih =>
      have child : ∀ {lo hi ks' ds i c lo' hi' pre post u'},
          Focus lo hi ks' ds key c lo' hi' pre post → cs[i]? = some c →
          insertAt st B key v i cs = some u' → Inserted st B key v lo' hi' c.leaves u' := by
        intro lo hi ks' ds i c lo' hi' pre post u' hc hi hu
        rw [insertAt_eq st B key v hi] at hu
        exact ih c (List.mem_of_getElem? hi) hc.ordered hc.inside hu
      rw [insert] at h
      split at h
      · obtain ⟨c, lo', hi', pre, post, hc⟩ := OrderedList.focus ht hkey
        obtain ⟨u', hu', rfl⟩ := Option.map_eq_some_iff.mp h
        exact hc.absorb (child hc hc.child hu') a
      · split at h
        · simp at h
        · rename_i p hp
          obtain ⟨hcut, hl, hr⟩ := OrderedList.split ht hp
          have hB1 : B - 1 + 1 = B := by omega
          rw [hB1] at hl hr
          have hleaves : leavesList (cs.take B) ++ leavesList (cs.drop B) = leavesList cs := by
            rw [← leavesList_append, List.take_append_drop]
          simp only at h
          split at h
          · rename_i hle
            obtain ⟨c, lo', hi', pre, post, hc⟩ := hr.focus ⟨by simpa using hle, hkey.2⟩
            obtain ⟨u', hu', rfl⟩ := Option.map_eq_some_iff.mp h
            have hci : cs[B + findch (ks.drop B) key]? = some c := by
              rw [← List.getElem?_drop]; exact hc.child
            obtain ⟨hord, htouch⟩ := hc.absorb (child hc hci hu') (st.half a)
            refine ⟨⟨hcut, hl, hord⟩, ?_⟩
            have := htouch.within (leavesList (cs.take B)) [] (fun l hl' k hk =>
              ((hl.within l hl' k hk).2 p rfl).trans_le hle) (by simp)
            simpa [Updated.leaves, Multiway.leaves, hleaves] using this
          · rename_i hlt
            have hlt : key < p := not_le.mp hlt
            obtain ⟨c, lo', hi', pre, post, hc⟩ := hl.focus ⟨hkey.1, by simpa using hlt⟩
            obtain ⟨u', hu', rfl⟩ := Option.map_eq_some_iff.mp h
            have hci : cs[findch (ks.take (B - 1)) key]? = some c := by
              have hlt' := (List.getElem?_eq_some_iff.mp hc.child).1
              rw [← hc.child, List.getElem?_take_of_lt (by rw [List.length_take] at hlt'; omega)]
            obtain ⟨hord, htouch⟩ := hc.absorb (child hc hci hu') (st.half a)
            refine ⟨⟨hcut, hord, hr⟩, ?_⟩
            have := htouch.within [] (leavesList (cs.drop B)) (by simp)
              (fun l hl' k hk => hlt.trans_le ((hr.within l hl' k hk).1 p rfl))
            simpa [Updated.leaves, Multiway.leaves, hleaves] using this

end Order

section Pairs

variable [LinearOrder K] {st : Style ι V} {B : Nat} {key : K} {v : V}

def insertPair (key : K) (v : V) : List (K × V) → List (K × V)
  | [] => [(key, v)]
  | (k, w) :: l =>
      if k < key then (k, w) :: insertPair key v l
      else if k = key then (key, v) :: l
      else (key, v) :: (k, w) :: l

theorem lookup_cons_pair (p : K × V) (l : List (K × V)) (k : K) :
    (p :: l).lookup k = if k = p.1 then some p.2 else l.lookup k := by
  obtain ⟨k', w⟩ := p
  by_cases hk : k = k'
  · simp [hk]
  · have hne : (k == k') = false := by simpa using hk
    simp [List.lookup_cons, hk, hne]

theorem lookup_insertPair (l : List (K × V)) (k : K) :
    (insertPair key v l).lookup k = if k = key then some v else l.lookup k := by
  induction l with
  | nil => simp [insertPair, lookup_cons_pair]
  | cons p l ih =>
      obtain ⟨k', w⟩ := p
      simp only [insertPair]
      split
      · rename_i hlt
        by_cases hk : k = k'
        · simp [lookup_cons_pair, hk, hlt.ne]
        · simp [lookup_cons_pair, hk, ih]
      · split
        · rename_i heq
          simp only [lookup_cons_pair, heq]
          split <;> rfl
        · simp only [lookup_cons_pair]

theorem insertPair_append_left {pre : List (K × V)} (h : ∀ p ∈ pre, p.1 < key) (l : List (K × V)) :
    insertPair key v (pre ++ l) = pre ++ insertPair key v l := by
  induction pre with
  | nil => rfl
  | cons p pre ih =>
      obtain ⟨k, w⟩ := p
      have hlt : k < key := h (k, w) (by simp)
      simp [insertPair, hlt, ih (fun p hp => h p (by simp [hp]))]

theorem insertPair_append_right {post : List (K × V)} (h : ∀ p ∈ post, key < p.1)
    (l : List (K × V)) : insertPair key v (l ++ post) = insertPair key v l ++ post := by
  induction l with
  | nil =>
      cases post with
      | nil => rfl
      | cons p post =>
          obtain ⟨k, w⟩ := p
          have hlt : key < k := h (k, w) (by simp)
          simp [insertPair, hlt.not_gt, hlt.ne']
  | cons p l ih =>
      obtain ⟨k, w⟩ := p
      simp only [List.cons_append, insertPair]
      split
      · simp [ih]
      · split <;> simp

theorem zip_insertIdx {ks : List K} {vs : List V} (hs : ks.Pairwise (· < ·))
    (hlen : ks.length = vs.length) (hkey : key ∉ ks) :
    (ks.insertIdx (findval ks key) key).zip (vs.insertIdx (findval ks key) v) =
      insertPair key v (ks.zip vs) := by
  induction ks generalizing vs with
  | nil =>
      obtain rfl : vs = [] := by simpa using hlen.symm
      simp [findval, insertPair]
  | cons k ks ih =>
      obtain ⟨w, vs, rfl⟩ : ∃ w vs', vs = w :: vs' :=
        List.exists_cons_of_length_eq_add_one hlen.symm
      obtain ⟨hk, hs⟩ := List.pairwise_cons.mp hs
      simp only [List.mem_cons, not_or] at hkey
      by_cases hlt : k < key
      · simpa [findval, hlt, insertPair] using ih hs (by simpa using hlen) hkey.2
      · simp [findval, hlt, insertPair, Ne.symm hkey.1]

theorem zip_set {ks : List K} {vs : List V} (hs : ks.Pairwise (· < ·))
    (hlen : ks.length = vs.length) (hkey : key ∈ ks) :
    ks.zip (vs.set (findval ks key) v) = insertPair key v (ks.zip vs) := by
  induction ks generalizing vs with
  | nil => simp at hkey
  | cons k ks ih =>
      obtain ⟨w, vs, rfl⟩ : ∃ w vs', vs = w :: vs' :=
        List.exists_cons_of_length_eq_add_one hlen.symm
      obtain ⟨hk, hs⟩ := List.pairwise_cons.mp hs
      rcases List.mem_cons.mp hkey with rfl | hkey
      · simp [findval, insertPair]
      · simpa [findval, hk key hkey, insertPair] using ih hs (by simpa using hlen) hkey

def keysOf (ls : List (List K × List V)) : List K := ls.flatMap Prod.fst

omit [LinearOrder K] in
@[simp] theorem keysOf_append (ls ms : List (List K × List V)) :
    keysOf (ls ++ ms) = keysOf ls ++ keysOf ms := List.flatMap_append

omit [LinearOrder K] in
@[simp] theorem keysOf_singleton (l : List K × List V) : keysOf [l] = l.1 := by simp [keysOf]

omit [LinearOrder K] in
theorem mem_keysOf {ls : List (List K × List V)} {k : K} : k ∈ keysOf ls ↔ ∃ l ∈ ls, k ∈ l.1 :=
  List.mem_flatMap

theorem keysOf_updateLeaf {a : ι} {ks : List K} {vs : List V} (hs : ks.Pairwise (· < ·)) (k : K) :
    k ∈ keysOf (updateLeaf st B key v a ks vs).leaves ↔ k = key ∨ k ∈ ks := by
  by_cases hmem : key ∈ ks
  · rw [updateLeaf_of_mem a hs hmem]
    simp only [Updated.leaves, Multiway.leaves, keysOf_singleton]
    refine ⟨Or.inr, ?_⟩
    rintro (rfl | h)
    exacts [hmem, h]
  · have hins := List.mem_insertIdx (a := k) (b := key) (findval_le ks key)
    by_cases hroom : ks.length < 2 * B - 1
    · rw [updateLeaf_of_room a hmem hroom]
      simpa [Updated.leaves, Multiway.leaves] using hins
    · rw [updateLeaf_of_full a hmem (not_lt.mp hroom)]
      simpa only [Updated.leaves, Multiway.leaves, keysOf_append, keysOf_singleton,
        List.take_append_drop] using hins

theorem Touches.mem_keys {old new : List (List K × List V)} (h : Touches st B key v old new)
    (k : K) : k ∈ keysOf new ↔ k = key ∨ k ∈ keysOf old := by
  obtain ⟨pre, post, a, ks, vs, hs, -, -, -⟩ := h
  simp only [keysOf_append, List.mem_append, keysOf_updateLeaf hs, keysOf_singleton]
  tauto

theorem Touches.pairs {old new : List (List K × List V)} (h : Touches st B key v old new)
    (hpairs : ∀ (a : ι) (ks : List K) (vs : List V), (ks, vs) ∈ old → ks.Pairwise (· < ·) →
      ks.length = vs.length →
      pairsOf (updateLeaf st B key v a ks vs).leaves = insertPair key v (ks.zip vs)) :
    pairsOf new = insertPair key v (pairsOf old) := by
  obtain ⟨pre, post, a, ks, vs, hs, hlen, hbelow, habove⟩ := h
  have hpre : ∀ p ∈ pairsOf pre, p.1 < key := fun p hp => by
    obtain ⟨l, hl, hk⟩ := mem_pairsOf hp
    exact hbelow l hl p.1 hk
  have hpost : ∀ p ∈ pairsOf post, key < p.1 := fun p hp => by
    obtain ⟨l, hl, hk⟩ := mem_pairsOf hp
    exact habove l hl p.1 hk
  rw [pairsOf_append, pairsOf_append, hpairs a ks vs (by simp) hs hlen, pairsOf_append,
    pairsOf_append, pairsOf_singleton, insertPair_append_right hpost, insertPair_append_left hpre]

theorem pairsOf_updateLeaf_absent {a : ι} {ks : List K} {vs : List V} (hs : ks.Pairwise (· < ·))
    (hlen : ks.length = vs.length) (hkey : key ∉ ks) :
    pairsOf (updateLeaf st B key v a ks vs).leaves = insertPair key v (ks.zip vs) := by
  have hzip := zip_insertIdx (v := v) hs hlen hkey
  by_cases hroom : ks.length < 2 * B - 1
  · rw [updateLeaf_of_room a hkey hroom]
    simpa [Updated.leaves, Multiway.leaves] using hzip
  · rw [updateLeaf_of_full a hkey (not_lt.mp hroom)]
    simp only [Updated.leaves, Multiway.leaves, pairsOf_append, pairsOf_singleton]
    rw [← hzip, List.zip, ← List.take_zipWith, ← List.drop_zipWith, List.take_append_drop]

/-- An insertion that keeps the other values is a map update. -/
theorem Touches.pairs_of_set {old new : List (List K × List V)} (h : Touches st B key v old new)
    (hset : ∀ i v vs, st.hit i v vs = vs.set i v) :
    pairsOf new = insertPair key v (pairsOf old) := by
  refine h.pairs (fun a ks vs _ hs hlen => ?_)
  by_cases hkey : key ∈ ks
  · rw [updateLeaf_of_mem a hs hkey, hset]
    simpa [Updated.leaves, Multiway.leaves] using zip_set hs hlen hkey
  · exact pairsOf_updateLeaf_absent hs hlen hkey

theorem Touches.pairs_of_absent {old new : List (List K × List V)} (h : Touches st B key v old new)
    (hkey : key ∉ keysOf old) : pairsOf new = insertPair key v (pairsOf old) :=
  h.pairs (fun _ ks vs hmem hs hlen => pairsOf_updateLeaf_absent hs hlen
    (fun hk => hkey (mem_keysOf.mpr ⟨(ks, vs), hmem, hk⟩)))

theorem Touches.hit {old new : List (List K × List V)} (h : Touches st B key v old new)
    (hkey : key ∈ keysOf old) : ∃ pre post ks vs, key ∈ ks ∧ ks.length = vs.length ∧
      ks.Pairwise (· < ·) ∧ old = pre ++ [(ks, vs)] ++ post ∧
      new = pre ++ [(ks, st.hit (findval ks key) v vs)] ++ post := by
  obtain ⟨pre, post, a, ks, vs, hs, hlen, hbelow, habove⟩ := h
  have hmem : key ∈ ks := by
    simp only [keysOf_append, List.mem_append, keysOf_singleton] at hkey
    rcases hkey with (hkey | hkey) | hkey
    · obtain ⟨l, hl, hk⟩ := mem_keysOf.mp hkey
      exact absurd (hbelow l hl key hk) (lt_irrefl _)
    · exact hkey
    · obtain ⟨l, hl, hk⟩ := mem_keysOf.mp hkey
      exact absurd (habove l hl key hk) (lt_irrefl _)
  refine ⟨pre, post, ks, vs, hmem, hlen, hs, rfl, ?_⟩
  rw [updateLeaf_of_mem a hs hmem]
  rfl

def valsOf (ls : List (List K × List V)) : List V := ls.flatMap Prod.snd

omit [LinearOrder K] in
@[simp] theorem valsOf_append (ls ms : List (List K × List V)) :
    valsOf (ls ++ ms) = valsOf ls ++ valsOf ms := List.flatMap_append

omit [LinearOrder K] in
@[simp] theorem valsOf_singleton (l : List K × List V) : valsOf [l] = l.2 := by simp [valsOf]

theorem mem_valsOf_updateLeaf {a : ι} {ks : List K} {vs : List V} (hlen : ks.length = vs.length)
    (hkey : key ∉ ks) (w : V) :
    w ∈ valsOf (updateLeaf st B key v a ks vs).leaves ↔ w = v ∨ w ∈ vs := by
  have hins := List.mem_insertIdx (a := w) (b := v) (hlen ▸ findval_le ks key)
  by_cases hroom : ks.length < 2 * B - 1
  · rw [updateLeaf_of_room a hkey hroom]
    simpa [Updated.leaves, Multiway.leaves] using hins
  · rw [updateLeaf_of_full a hkey (not_lt.mp hroom)]
    simpa only [Updated.leaves, Multiway.leaves, valsOf_append, valsOf_singleton,
      List.take_append_drop] using hins

theorem Touches.mem_vals {old new : List (List K × List V)} (h : Touches st B key v old new)
    (hkey : key ∉ keysOf old) (w : V) : w ∈ valsOf new ↔ w = v ∨ w ∈ valsOf old := by
  obtain ⟨pre, post, a, ks, vs, hs, hlen, -, -⟩ := h
  have hks : key ∉ ks := fun hk => hkey (mem_keysOf.mpr ⟨(ks, vs), by simp, hk⟩)
  simp only [valsOf_append, List.mem_append, mem_valsOf_updateLeaf hlen hks, valsOf_singleton]
  tauto

theorem Touches.vals_of_set {old new : List (List K × List V)} (h : Touches st B key v old new)
    (hset : ∀ i v vs, st.hit i v vs = vs.set i v) {w : V} (hw : w ∈ valsOf new) :
    w = v ∨ w ∈ valsOf old := by
  by_cases hkey : key ∈ keysOf old
  · obtain ⟨pre, post, ks, vs, -, -, -, rfl, rfl⟩ := h.hit hkey
    simp only [hset, valsOf_append, valsOf_singleton, List.mem_append] at hw ⊢
    rcases hw with (hw | hw) | hw
    · exact .inr (.inl (.inl hw))
    · rcases List.mem_or_eq_of_mem_set hw with hw | hw
      exacts [.inr (.inl (.inr hw)), .inl hw]
    · exact .inr (.inr hw)
  · exact (h.mem_vals hkey w).mp hw

end Pairs

section Shape

variable [LinearOrder K] {st st' : Style ι V} {B m d : Nat} {key : K} {v : V}

/-- All leaves at depth `d` with `m` to `2B - 1` keys, at most `2B - 1` keys in
each node. -/
def Multiway.Shaped (m B : Nat) : Nat → Multiway ι K V → Prop
  | 0, .leaf _ ks vs => m ≤ ks.length ∧ ks.length ≤ 2 * B - 1 ∧ vs.length = ks.length
  | d + 1, .node _ ks cs =>
      ks.length ≤ 2 * B - 1 ∧ cs.length = ks.length + 1 ∧ ∀ c ∈ cs, c.Shaped m B d
  | _, _ => False

def Updated.Shaped (m B d : Nat) : Updated ι K V → Prop
  | .one t => t.Shaped m B d
  | .two _ l r => l.Shaped B B d ∧ r.Shaped B B d

omit [LinearOrder K] in
theorem Multiway.Shaped.mono {m' : Nat} {t : Multiway ι K V} (hm : m ≤ m') (h : t.Shaped m' B d) :
    t.Shaped m B d := by
  induction d generalizing t with
  | zero =>
      cases t with
      | leaf a ks vs => exact ⟨hm.trans h.1, h.2⟩
      | node a ks cs => exact h
  | succ d ih =>
      cases t with
      | leaf a ks vs => exact h
      | node a ks cs => exact ⟨h.1, h.2.1, fun c hc => ih (h.2.2 c hc)⟩

theorem updateLeaf_shaped {a : ι} {ks : List K} {vs : List V} (hB : 0 < B)
    (h : (Multiway.leaf a ks vs).Shaped m B 0) : (updateLeaf st B key v a ks vs).Shaped m B 0 := by
  obtain ⟨hmin, hmax, hvs⟩ := h
  have hi := findval_le ks key
  have hlen := List.length_insertIdx_of_le_length hi key
  have hi' : findval ks key ≤ vs.length := hvs ▸ hi
  have hlen' := List.length_insertIdx_of_le_length hi' v
  simp only [updateLeaf]
  split
  · exact ⟨hmin, hmax, by rw [st.hit_length, hvs]⟩
  · split
    · exact ⟨by rw [hlen]; omega, by rw [hlen]; omega, by rw [hlen, hlen', hvs]⟩
    · constructor
      · simp only [Multiway.Shaped, List.length_take, hlen, hlen', hvs, and_true]
        omega
      · simp only [Multiway.Shaped, List.length_drop, hlen, hlen', hvs, and_true]
        omega

theorem absorb_shaped {u : Updated ι K V} (a : ι) {ks : List K} {cs : List (Multiway ι K V)}
    (hks : ks.length < 2 * B - 1) (hcs : cs.length = ks.length + 1)
    (hall : ∀ c ∈ cs, c.Shaped B B d) (hu : u.Shaped B B d) :
    (absorb a ks cs (findch ks key) u).Shaped B B (d + 1) := by
  have hi := findch_le ks key
  cases u with
  | one c =>
      refine ⟨by omega, by simpa using hcs, fun x hx => ?_⟩
      rcases List.mem_or_eq_of_mem_set hx with hx | rfl
      exacts [hall x hx, hu]
  | two p l r =>
      refine ⟨?_, ?_, fun x hx => ?_⟩
      · rw [List.length_insertIdx_of_le_length hi]
        omega
      · rw [List.length_insertIdx_of_le_length hi, List.length_insertIdx_of_le_length
          (by simp; omega)]
        simpa using hcs
      · rcases (List.mem_insertIdx (by simp; omega)).mp hx with rfl | hx
        · exact hu.2
        · rcases List.mem_or_eq_of_mem_set hx with hx | rfl
          exacts [hall x hx, hu.1]

theorem insert_shaped {t : Multiway ι K V} (hB : 0 < B) (h : t.Shaped B B d) :
    ∃ u, insert st B key v t = some u ∧ u.Shaped B B d := by
  induction t generalizing d with
  | leaf a ks vs =>
      cases d with
      | zero => exact ⟨_, rfl, updateLeaf_shaped hB h⟩
      | succ d => exact h.elim
  | node a ks cs ih =>
      cases d with
      | zero => exact h.elim
      | succ d =>
          obtain ⟨hks, hcs, hall⟩ := h
          have child : ∀ i < cs.length, ∃ u, insertAt st B key v i cs = some u ∧
              u.Shaped B B d := by
            intro i hi
            rw [insertAt_eq st B key v (List.getElem?_eq_getElem hi)]
            exact ih _ (List.getElem_mem hi) (hall _ (List.getElem_mem hi))
          rw [insert]
          split
          · rename_i hlt
            obtain ⟨u, hu, hs⟩ := child (findch ks key) (by have := findch_le ks key; omega)
            rw [hu]
            exact ⟨_, rfl, absorb_shaped a hlt hcs hall hs⟩
          · rw [List.getElem?_eq_getElem (by omega)]
            have hkl : (ks.take (B - 1)).length = B - 1 := by rw [List.length_take]; omega
            have hkr : (ks.drop B).length = B - 1 := by rw [List.length_drop]; omega
            have hcl : (cs.take B).length = B := by rw [List.length_take]; omega
            have hcr : (cs.drop B).length = B := by rw [List.length_drop]; omega
            have hall_l : ∀ c ∈ cs.take B, c.Shaped B B d :=
              fun c hc => hall c (List.mem_of_mem_take hc)
            have hall_r : ∀ c ∈ cs.drop B, c.Shaped B B d :=
              fun c hc => hall c (List.mem_of_mem_drop hc)
            have hil := findch_le (ks.take (B - 1)) key
            have hir := findch_le (ks.drop B) key
            simp only
            split
            · obtain ⟨u, hu, hs⟩ := child (B + findch (ks.drop B) key) (by omega)
              rw [hu]
              exact ⟨_, rfl, ⟨by omega, by omega, hall_l⟩,
                absorb_shaped _ (by omega) (by omega) hall_r hs⟩
            · obtain ⟨u, hu, hs⟩ := child (findch (ks.take (B - 1)) key) (by omega)
              rw [hu]
              exact ⟨_, rfl, absorb_shaped _ (by omega) (by omega) hall_l hs,
                ⟨by omega, by omega, hall_r⟩⟩

omit [LinearOrder K] in
theorem mem_keysOf_child {c : Multiway ι K V} {cs : List (Multiway ι K V)} {k : K} (hc : c ∈ cs)
    (hk : k ∈ keysOf c.leaves) : k ∈ keysOf (leavesList cs) := by
  induction cs with
  | nil => simp at hc
  | cons d ds ih =>
      simp only [leavesList, keysOf_append, List.mem_append]
      rcases List.mem_cons.mp hc with rfl | hc
      exacts [.inl hk, .inr (ih hc)]

/-- Two styles that only differ in the values of a present key insert a new
key alike. -/
theorem insert_congr {t : Multiway ι K V} (hgrown : st.grown = st'.grown)
    (hfresh : st.fresh = st'.fresh) (hhalf : st.half = st'.half) (hkey : key ∉ keysOf t.leaves) :
    insert st B key v t = insert st' B key v t := by
  induction t with
  | leaf a ks vs =>
      have habsent : ks[findval ks key]? ≠ some key := fun h =>
        hkey (by simpa [Multiway.leaves] using List.mem_of_getElem? h)
      simp only [insert, updateLeaf, if_neg habsent, hgrown, hfresh]
  | node a ks cs ih =>
      have child : ∀ i, insertAt st B key v i cs = insertAt st' B key v i cs := by
        intro i
        rw [insertAt_eq_bind, insertAt_eq_bind]
        cases hi : cs[i]? with
        | none => rfl
        | some c =>
            have hc : c ∈ cs := List.mem_of_getElem? hi
            exact ih c hc (fun hk => hkey (mem_keysOf_child hc hk))
      simp only [insert, child, hhalf]

omit [LinearOrder K] in
theorem Multiway.Shaped.leaves {t : Multiway ι K V} (h : t.Shaped m B d) :
    ∀ l ∈ t.leaves, m ≤ l.1.length ∧ l.1.length = l.2.length := by
  induction t generalizing d with
  | leaf a ks vs =>
      cases d with
      | zero => simpa [Multiway.leaves] using ⟨h.1, h.2.2.symm⟩
      | succ d => exact h.elim
  | node a ks cs ih =>
      cases d with
      | zero => exact h.elim
      | succ d =>
          have hall := h.2.2
          clear h
          induction cs with
          | nil => simp [Multiway.leaves, leavesList]
          | cons c cs ihc =>
              intro l hl
              rcases List.mem_append.mp hl with hl | hl
              · exact ih c (by simp) (hall c (by simp)) l hl
              · exact ihc (fun x hx => ih x (by simp [hx])) (fun x hx => hall x (by simp [hx])) l hl

omit [LinearOrder K] in
theorem map_fst_pairsOf {ls : List (List K × List V)} (hlen : ∀ l ∈ ls, l.1.length ≤ l.2.length) :
    (pairsOf ls).map Prod.fst = keysOf ls := by
  induction ls with
  | nil => rfl
  | cons l ls ih =>
      have hfst : (l.1.zip l.2).map Prod.fst = l.1 := List.map_fst_zip (hlen l (by simp))
      have hrest := ih fun x hx => hlen x (by simp [hx])
      rw [show l :: ls = [l] ++ ls from rfl, pairsOf_append, keysOf_append, List.map_append,
        pairsOf_singleton, keysOf_singleton, hfst, hrest]

theorem Multiway.OrderedList.mem {lo hi : Option K} {ks : List K} {cs : List (Multiway ι K V)}
    (h : OrderedList lo hi ks cs) : ∀ c ∈ cs, ∃ lo hi, c.Ordered lo hi := by
  induction ks generalizing lo cs with
  | nil =>
      cases cs with
      | nil => simp
      | cons c cs =>
          obtain ⟨rfl, hc⟩ := h
          simpa using ⟨lo, hi, hc⟩
  | cons k ks ih =>
      cases cs with
      | nil => simp
      | cons c cs =>
          obtain ⟨-, hc, hrest⟩ := h
          intro x hx
          rcases List.mem_cons.mp hx with rfl | hx
          exacts [⟨lo, some k, hc⟩, ih hrest x hx]

theorem Multiway.Ordered.leaves {lo hi : Option K} {t : Multiway ι K V} (h : t.Ordered lo hi) :
    ∀ l ∈ t.leaves, l.1.length = l.2.length := by
  induction t generalizing lo hi with
  | leaf a ks vs => simpa [Multiway.leaves] using h.2.1
  | node a ks cs ih =>
      have hmem := OrderedList.mem h
      clear h
      rw [Multiway.leaves]
      induction cs with
      | nil => simp [leavesList]
      | cons c cs ihc =>
          intro l hl
          rcases List.mem_append.mp hl with hl | hl
          · obtain ⟨lo, hi, hc⟩ := hmem c (by simp)
            exact ih c (by simp) hc l hl
          · exact ihc (fun x hx => ih x (by simp [hx])) (fun x hx => hmem x (by simp [hx])) l hl

theorem Multiway.Ordered.map_fst_pairs {lo hi : Option K} {t : Multiway ι K V}
    (h : t.Ordered lo hi) : t.pairs.map Prod.fst = keysOf t.leaves :=
  map_fst_pairsOf fun l hl => (h.leaves l hl).le

end Shape

section Records

variable [LinearOrder K] {st : Style ι V} {B : Nat} {key : K} {v : V} {P : ι → Prop}

inductive Multiway.All (P : ι → Prop) : Multiway ι K V → Prop
  | leaf {a : ι} {ks : List K} {vs : List V} (ha : P a) : All P (.leaf a ks vs)
  | node {a : ι} {ks : List K} {cs : List (Multiway ι K V)} (ha : P a) (hcs : ∀ c ∈ cs, All P c) :
      All P (.node a ks cs)

omit [LinearOrder K] in
theorem Multiway.All.imp {Q : ι → Prop} {t : Multiway ι K V} (ht : t.All P) (h : ∀ a, P a → Q a) :
    t.All Q := by
  induction ht with
  | leaf ha => exact .leaf (h _ ha)
  | node ha _ ih => exact .node (h _ ha) ih

def Updated.All (P : ι → Prop) : Updated ι K V → Prop
  | .one t => t.All P
  | .two _ l r => l.All P ∧ r.All P

omit [LinearOrder K] in
theorem absorb_all {a : ι} {ks : List K} {cs : List (Multiway ι K V)} {u : Updated ι K V} (i : Nat)
    (ha : P a) (hcs : ∀ c ∈ cs, c.All P) (hu : u.All P) : (absorb a ks cs i u).All P := by
  cases u with
  | one c =>
      refine .node ha fun x hx => ?_
      rcases List.mem_or_eq_of_mem_set hx with hx | rfl
      exacts [hcs x hx, hu]
  | two p l r =>
      refine .node ha fun x hx => ?_
      rcases List.eq_or_mem_of_mem_insertIdx hx with rfl | hx
      · exact hu.2
      · rcases List.mem_or_eq_of_mem_set hx with hx | rfl
        exacts [hcs x hx, hu.1]

theorem updateLeaf_all {a : ι} {ks : List K} {vs : List V} (hgrown : ∀ a, P a → P (st.grown a))
    (hfresh : P st.fresh) (ha : P a) : (updateLeaf st B key v a ks vs).All P := by
  simp only [updateLeaf]
  split
  · exact .leaf ha
  · split
    exacts [.leaf (hgrown a ha), ⟨.leaf hfresh, .leaf hfresh⟩]

theorem insert_all {t : Multiway ι K V} {u : Updated ι K V} (hgrown : ∀ a, P a → P (st.grown a))
    (hfresh : P st.fresh) (hhalf : ∀ a, P a → P (st.half a)) (ht : t.All P)
    (hu : insert st B key v t = some u) : u.All P := by
  induction ht generalizing u with
  | @leaf a ks vs ha =>
      obtain rfl : updateLeaf st B key v a ks vs = u := by simpa [insert] using hu
      exact updateLeaf_all hgrown hfresh ha
  | @node a ks cs ha hcs ih =>
      have child : ∀ {i u}, insertAt st B key v i cs = some u → u.All P := by
        intro i u hu
        rw [insertAt_eq_bind] at hu
        obtain ⟨c, hc, hu⟩ := Option.bind_eq_some_iff.mp hu
        exact ih c (List.mem_of_getElem? hc) hu
      have hl : ∀ c ∈ cs.take B, c.All P := fun c hc => hcs c (List.mem_of_mem_take hc)
      have hr : ∀ c ∈ cs.drop B, c.All P := fun c hc => hcs c (List.mem_of_mem_drop hc)
      rw [insert] at hu
      split at hu
      · obtain ⟨u', hu', rfl⟩ := Option.map_eq_some_iff.mp hu
        exact absorb_all _ ha hcs (child hu')
      · split at hu
        · simp at hu
        · simp only at hu
          split at hu
          all_goals obtain ⟨u', hu', rfl⟩ := Option.map_eq_some_iff.mp hu
          · exact ⟨.node (hhalf a ha) hl, absorb_all _ (hhalf a ha) hr (child hu')⟩
          · exact ⟨absorb_all _ (hhalf a ha) hl (child hu'), .node (hhalf a ha) hr⟩

end Records

end Contrees.Library.SearchTree
