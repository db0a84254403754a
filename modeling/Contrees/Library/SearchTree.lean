import Mathlib.Order.Basic
import Mathlib.Order.Lattice
import Mathlib.Data.List.Basic

namespace Contrees.Library.SearchTree

variable {ι K V : Type}

/-- Multiway search trees whose pairs sit in the leaves. A node with keys
`k₁ .. kₙ` has `n + 1` children; `ι` is whatever else a node records. -/
inductive Multiway (ι K V : Type)
  | leaf (a : ι) (keys : List K) (vals : List V)
  | node (a : ι) (keys : List K) (chs : List (Multiway ι K V))

namespace Multiway

/-- Induction with one hypothesis for all children of a node. -/
@[elab_as_elim, induction_eliminator]
theorem inductionOn {P : Multiway ι K V → Prop}
    (leaf : ∀ a keys vals, P (.leaf a keys vals))
    (node : ∀ a keys chs, (∀ c ∈ chs, P c) → P (.node a keys chs)) (t : Multiway ι K V) : P t :=
  @Multiway.rec ι K V P (fun cs => ∀ c ∈ cs, P c) leaf node
    (by simp) (fun c cs hc hcs => by simpa using ⟨hc, hcs⟩) t

mutual
def height : Multiway ι K V → Nat
  | .leaf _ _ _ => 0
  | .node _ _ chs => heights chs + 1
def heights : List (Multiway ι K V) → Nat
  | [] => 0
  | c :: cs => max c.height (heights cs)
end

mutual
def leaves : Multiway ι K V → List (List K × List V)
  | .leaf _ keys vals => [(keys, vals)]
  | .node _ _ chs => leavesList chs
def leavesList : List (Multiway ι K V) → List (List K × List V)
  | [] => []
  | c :: cs => c.leaves ++ leavesList cs
end

def pairsOf (ls : List (List K × List V)) : List (K × V) := ls.flatMap (fun l => l.1.zip l.2)

def pairs (t : Multiway ι K V) : List (K × V) := pairsOf t.leaves

@[simp] theorem pairsOf_append (ls ms : List (List K × List V)) :
    pairsOf (ls ++ ms) = pairsOf ls ++ pairsOf ms := List.flatMap_append

@[simp] theorem pairsOf_singleton (l : List K × List V) : pairsOf [l] = l.1.zip l.2 := by
  simp [pairsOf]

theorem mem_pairsOf {ls : List (List K × List V)} {p : K × V} (h : p ∈ pairsOf ls) :
    ∃ l ∈ ls, p.1 ∈ l.1 := by
  obtain ⟨l, hl, hp⟩ := List.mem_flatMap.mp h
  obtain ⟨k, v⟩ := p
  exact ⟨l, hl, (List.of_mem_zip hp).1⟩

theorem height_le_heights {c : Multiway ι K V} {cs : List (Multiway ι K V)} (h : c ∈ cs) :
    c.height ≤ heights cs := by
  induction cs with
  | nil => simp at h
  | cons d ds ih =>
      simp only [heights]
      rcases List.mem_cons.mp h with rfl | h
      · exact Nat.le_max_left _ _
      · exact (ih h).trans (Nat.le_max_right _ _)

theorem height_lt {c : Multiway ι K V} {a : ι} {keys : List K} {cs : List (Multiway ι K V)}
    (h : c ∈ cs) :
    c.height < (node a keys cs).height := by
  simpa only [height] using Nat.lt_succ_of_le (height_le_heights h)

theorem heights_mono {cs ds : List (Multiway ι K V)} (h : ∀ c ∈ cs, c ∈ ds) :
    heights cs ≤ heights ds := by
  induction cs with
  | nil => simp [heights]
  | cons c cs ih =>
      simp only [heights]
      exact max_le (height_le_heights (h c (by simp))) (ih (fun d hd => h d (by simp [hd])))

theorem leavesList_append (cs ds : List (Multiway ι K V)) :
    leavesList (cs ++ ds) = leavesList cs ++ leavesList ds := by
  induction cs with
  | nil => rfl
  | cons c cs ih => simp [leavesList, ih]

end Multiway

open Multiway

section Search

variable [LinearOrder K]

def findch : List K → K → Nat
  | [], _ => 0
  | k :: ks, key => if key < k then 0 else findch ks key + 1

def findval : List K → K → Nat
  | [], _ => 0
  | k :: ks, key => if k < key then findval ks key + 1 else 0

theorem findch_le (ks : List K) (key : K) : findch ks key ≤ ks.length := by
  induction ks with
  | nil => simp [findch]
  | cons k ks ih =>
      simp only [findch]
      split
      · simp
      · simpa using ih

theorem findval_le (ks : List K) (key : K) : findval ks key ≤ ks.length := by
  induction ks with
  | nil => simp [findval]
  | cons k ks ih =>
      simp only [findval]
      split
      · simpa using ih
      · simp

/-- A key range, open where a bound is missing: `lo ≤ k < hi`. -/
def Within (lo hi : Option K) (k : K) : Prop := (∀ l ∈ lo, l ≤ k) ∧ ∀ u ∈ hi, k < u

def Cut (lo hi : Option K) (k : K) : Prop := (∀ l ∈ lo, l < k) ∧ ∀ u ∈ hi, k < u

namespace Multiway

mutual
/-- Keys ascend in every node, and every subtree keeps to the range between
its separators. -/
def Ordered : Option K → Option K → Multiway ι K V → Prop
  | lo, hi, .leaf _ ks vs => ks.Pairwise (· < ·) ∧ ks.length = vs.length ∧ ∀ k ∈ ks, Within lo hi k
  | lo, hi, .node _ ks cs => OrderedList lo hi ks cs
def OrderedList : Option K → Option K → List K → List (Multiway ι K V) → Prop
  | _, _, _, [] => False
  | lo, hi, [], c :: cs => cs = [] ∧ Ordered lo hi c
  | lo, hi, k :: ks, c :: cs => Cut lo hi k ∧ Ordered lo (some k) c ∧ OrderedList (some k) hi ks cs
end

theorem OrderedList.length {lo hi : Option K} {ks : List K} {cs : List (Multiway ι K V)}
    (h : OrderedList lo hi ks cs) : cs.length = ks.length + 1 := by
  induction ks generalizing lo cs with
  | nil => cases cs <;> simp_all [OrderedList]
  | cons k ks ih =>
      cases cs with
      | nil => simp [OrderedList] at h
      | cons c cs => simpa using ih h.2.2

theorem OrderedList.within_of {lo hi : Option K} {ks : List K} {cs : List (Multiway ι K V)}
    (ih : ∀ c ∈ cs, ∀ lo hi, Ordered lo hi c → ∀ l ∈ c.leaves, ∀ k ∈ l.1, Within lo hi k)
    (h : OrderedList lo hi ks cs) : ∀ l ∈ leavesList cs, ∀ k ∈ l.1, Within lo hi k := by
  induction ks generalizing lo cs with
  | nil =>
      cases cs with
      | nil => simp [OrderedList] at h
      | cons c cs =>
          obtain ⟨rfl, hc⟩ := h
          simpa [leavesList] using ih c (by simp) lo hi hc
  | cons k ks ihk =>
      cases cs with
      | nil => simp [OrderedList] at h
      | cons c cs =>
          obtain ⟨hcut, hc, hrest⟩ := h
          intro l hl x hx
          rcases List.mem_append.mp hl with hl | hl
          · have hw := ih c (by simp) lo (some k) hc l hl x hx
            exact ⟨hw.1, fun u hu => (hw.2 k rfl).trans (hcut.2 u hu)⟩
          · have hw := ihk (fun d hd => ih d (by simp [hd])) hrest l hl x hx
            exact ⟨fun l hl => (hcut.1 l hl).le.trans (hw.1 k rfl), hw.2⟩

theorem Ordered.within {lo hi : Option K} {t : Multiway ι K V} (h : Ordered lo hi t) :
    ∀ l ∈ t.leaves, ∀ k ∈ l.1, Within lo hi k := by
  induction t generalizing lo hi with
  | leaf a ks vs => simpa [leaves] using h.2.2
  | node a ks cs ih => exact OrderedList.within_of (fun c hc lo hi => ih c hc) h

theorem OrderedList.within {lo hi : Option K} {ks : List K} {cs : List (Multiway ι K V)}
    (h : OrderedList lo hi ks cs) : ∀ l ∈ leavesList cs, ∀ k ∈ l.1, Within lo hi k :=
  OrderedList.within_of (fun _ _ _ _ hc => hc.within) h

/-- The child a search descends to, with all a caller needs to know about it:
its range holds the key, its leaves are one stretch of the leaves of the
parent, and a tree of this range, or two split at a cut of it, can take its place. -/
structure Focus (lo hi : Option K) (ks : List K) (cs : List (Multiway ι K V)) (key : K)
    (c : Multiway ι K V) (lo' hi' : Option K) (pre post : List (List K × List V)) : Prop where
  child : cs[findch ks key]? = some c
  inside : Within lo' hi' key
  ordered : Ordered lo' hi' c
  leaves : leavesList cs = pre ++ c.leaves ++ post
  rest : leavesList (cs.drop (findch ks key + 1)) = post
  below : ∀ l ∈ pre, ∀ k ∈ l.1, k < key
  above : ∀ l ∈ post, ∀ k ∈ l.1, key < k
  replace : ∀ c', Ordered lo' hi' c' → OrderedList lo hi ks (cs.set (findch ks key) c')
  replaced : ∀ c', leavesList (cs.set (findch ks key) c') = pre ++ c'.leaves ++ post
  split : ∀ l p r, Cut lo' hi' p → Ordered lo' (some p) l → Ordered (some p) hi' r →
    OrderedList lo hi (ks.insertIdx (findch ks key) p)
      ((cs.set (findch ks key) l).insertIdx (findch ks key + 1) r)
  splitted : ∀ l r, leavesList ((cs.set (findch ks key) l).insertIdx (findch ks key + 1) r) =
    pre ++ (l.leaves ++ r.leaves) ++ post

theorem OrderedList.focus {lo hi : Option K} {ks : List K} {cs : List (Multiway ι K V)} {key : K}
    (h : OrderedList lo hi ks cs) (hkey : Within lo hi key) :
    ∃ c lo' hi' pre post, Focus lo hi ks cs key c lo' hi' pre post := by
  induction ks generalizing lo cs with
  | nil =>
      cases cs with
      | nil => simp [OrderedList] at h
      | cons c cs =>
          obtain ⟨rfl, hc⟩ := h
          refine ⟨c, lo, hi, [], [], ?_⟩
          constructor <;> simp_all [findch, leavesList, OrderedList]
  | cons k ks ih =>
      cases cs with
      | nil => simp [OrderedList] at h
      | cons c cs =>
          obtain ⟨hcut, hc, hrest⟩ := h
          by_cases hlt : key < k
          · refine ⟨c, lo, some k, [], leavesList cs, ?_⟩
            have habove : ∀ l ∈ leavesList cs, ∀ x ∈ l.1, key < x :=
              fun l hl x hx => hlt.trans_le ((hrest.within l hl x hx).1 k rfl)
            constructor <;> try simp only [findch, hlt, if_true]
            · rfl
            · exact ⟨hkey.1, by simpa using hlt⟩
            · exact hc
            · rfl
            · rfl
            · simp
            · exact habove
            · exact fun c' hc' => ⟨hcut, hc', hrest⟩
            · exact fun c' => rfl
            · intro l p r hp hl hr
              have hpk : p < k := hp.2 k rfl
              refine ⟨⟨hp.1, fun u hu => hpk.trans (hcut.2 u hu)⟩, hl, ?_, hr, hrest⟩
              exact ⟨by simpa using hpk, hcut.2⟩
            · intro l r
              simp [leavesList]
          · have hk : k ≤ key := not_lt.mp hlt
            obtain ⟨d, lo', hi', pre, post, hd⟩ := ih hrest ⟨by simpa using hk, hkey.2⟩
            refine ⟨d, lo', hi', c.leaves ++ pre, post, ?_⟩
            constructor <;> try simp only [findch, hlt, if_false]
            · exact hd.child
            · exact hd.inside
            · exact hd.ordered
            · simp [leavesList, hd.leaves]
            · exact hd.rest
            · intro l hl x hx
              rcases List.mem_append.mp hl with hl | hl
              · exact ((hc.within l hl x hx).2 k rfl).trans_le hk
              · exact hd.below l hl x hx
            · exact hd.above
            · exact fun c' hc' => ⟨hcut, hc, hd.replace c' hc'⟩
            · intro c'
              simp [leavesList, hd.replaced c']
            · exact fun l p r hp hl hr => ⟨hcut, hc, hd.split l p r hp hl hr⟩
            · intro l r
              simp only [List.set_cons_succ, List.insertIdx_succ_cons, leavesList, hd.splitted l r,
                List.append_assoc]

mutual
def find : Multiway ι K V → K → Option V
  | .leaf _ ks vs, key => if ks[findval ks key]? = some key then vs[findval ks key]? else none
  | .node _ ks cs, key => findAt (findch ks key) cs key
def findAt : Nat → List (Multiway ι K V) → K → Option V
  | _, [], _ => none
  | 0, c :: _, key => find c key
  | i + 1, _ :: cs, key => findAt i cs key
end

mutual
def scanAppend (n : Nat) : Multiway ι K V → Nat → List (K × V) → List (K × V)
  | .leaf _ ks vs, i, ret => ret ++ ((ks.zip vs).drop i).take (n - ret.length)
  | .node _ _ cs, i, ret => scanChildren n cs i ret
def scanChildren (n : Nat) : List (Multiway ι K V) → Nat → List (K × V) → List (K × V)
  | [], _, ret => ret
  | _ :: cs, i + 1, ret => scanChildren n cs i ret
  | c :: cs, 0, ret =>
      if ret.length < n then scanChildren n cs 0 (scanAppend n c 0 ret) else ret
end

mutual
def scanSearch (n : Nat) : Multiway ι K V → K → List (K × V) → List (K × V)
  | .leaf a ks vs, key, ret => scanAppend n (.leaf a ks vs) (findval ks key) ret
  | .node a ks cs, key, ret =>
      scanAppend n (.node a ks cs) (findch ks key + 1) (scanSearchAt n (findch ks key) cs key ret)
def scanSearchAt (n : Nat) : Nat → List (Multiway ι K V) → K → List (K × V) → List (K × V)
  | _, [], _, ret => ret
  | 0, c :: _, key, ret => scanSearch n c key ret
  | i + 1, _ :: cs, key, ret => scanSearchAt n i cs key ret
end

def scan (t : Multiway ι K V) (key : K) (n : Nat) : List (K × V) := scanSearch n t key []

theorem findAt_eq {i : Nat} {cs : List (Multiway ι K V)} {c : Multiway ι K V} (h : cs[i]? = some c)
    (key : K) : findAt i cs key = find c key := by
  induction cs generalizing i with
  | nil => simp at h
  | cons d ds ih =>
      cases i with
      | zero =>
          obtain rfl : d = c := by simpa using h
          rfl
      | succ i => exact ih (by simpa using h)

theorem scanSearchAt_eq {i : Nat} {cs : List (Multiway ι K V)} {c : Multiway ι K V}
    (h : cs[i]? = some c) (n : Nat) (key : K) (ret : List (K × V)) :
    scanSearchAt n i cs key ret = scanSearch n c key ret := by
  induction cs generalizing i with
  | nil => simp at h
  | cons d ds ih =>
      cases i with
      | zero =>
          obtain rfl : d = c := by simpa using h
          rfl
      | succ i => exact ih (by simpa using h)

theorem lookup_leaf {ks : List K} {vs : List V} {key : K} (hs : ks.Pairwise (· < ·))
    (hl : ks.length = vs.length) :
    (if ks[findval ks key]? = some key then vs[findval ks key]? else none) =
      (ks.zip vs).lookup key := by
  induction ks generalizing vs with
  | nil => simp [findval]
  | cons k ks ih =>
      obtain ⟨v, vs, rfl⟩ : ∃ v vs', vs = v :: vs' := List.exists_cons_of_length_eq_add_one hl.symm
      obtain ⟨hk, hs⟩ := List.pairwise_cons.mp hs
      rcases lt_trichotomy k key with hlt | rfl | hgt
      · have hne : (key == k) = false := by simpa using hlt.ne'
        simpa [findval, hlt, List.lookup_cons, hne] using ih hs (by simpa using hl)
      · simp [findval]
      · have hnone : (ks.zip vs).lookup key = none := by
          rw [List.lookup_eq_none_iff]
          intro p hp
          simpa using (hgt.trans (hk p.1 (List.of_mem_zip (a := p.1) (b := p.2) hp).1)).ne
        have hne : (key == k) = false := by simpa using hgt.ne
        simp [findval, hgt.le.not_gt, hgt.ne', List.lookup_cons, hne, hnone]

theorem lookup_outside {ls : List (List K × List V)} {key : K} (h : ∀ l ∈ ls, ∀ k ∈ l.1, k ≠ key) :
    (pairsOf ls).lookup key = none := by
  rw [List.lookup_eq_none_iff]
  intro p hp
  obtain ⟨l, hl, hk⟩ := mem_pairsOf hp
  simpa using (h l hl p.1 hk).symm

theorem Focus.lookup {lo hi lo' hi' : Option K} {ks : List K} {cs : List (Multiway ι K V)} {key : K}
    {c : Multiway ι K V} {pre post : List (List K × List V)}
    (h : Focus lo hi ks cs key c lo' hi' pre post) :
    (pairsOf (leavesList cs)).lookup key = c.pairs.lookup key := by
  rw [h.leaves, pairsOf_append, pairsOf_append, List.lookup_append, List.lookup_append,
    lookup_outside (fun l hl k hk => (h.below l hl k hk).ne),
    lookup_outside (fun l hl k hk => (h.above l hl k hk).ne')]
  simp [pairs]

theorem find_eq_lookup {lo hi : Option K} {t : Multiway ι K V} {key : K} (ht : Ordered lo hi t)
    (hkey : Within lo hi key) : find t key = t.pairs.lookup key := by
  induction t generalizing lo hi with
  | leaf a ks vs => simpa [find, pairs, leaves] using lookup_leaf ht.1 ht.2.1
  | node a ks cs ih =>
      obtain ⟨c, lo', hi', pre, post, hc⟩ := OrderedList.focus ht hkey
      have hmem : c ∈ cs := List.mem_of_getElem? hc.child
      rw [find, findAt_eq hc.child, ih c hmem hc.ordered hc.inside]
      simpa [pairs, leaves] using hc.lookup.symm

omit [LinearOrder K] in
theorem take_append_take (n : Nat) (ret xs ys : List (K × V)) :
    (ret ++ xs.take (n - ret.length)) ++ ys.take (n - (ret ++ xs.take (n - ret.length)).length) =
      ret ++ (xs ++ ys).take (n - ret.length) := by
  rw [List.append_assoc, List.take_append]
  congr 3
  simp only [List.length_append, List.length_take]
  omega

omit [LinearOrder K] in
theorem scanChildren_drop (n : Nat) (cs : List (Multiway ι K V)) (i : Nat) (ret : List (K × V)) :
    scanChildren n cs i ret = scanChildren n (cs.drop i) 0 ret := by
  induction cs generalizing i with
  | nil => simp [scanChildren]
  | cons c cs ih =>
      cases i with
      | zero => rfl
      | succ i => simpa [scanChildren] using ih i

omit [LinearOrder K] in
theorem scanChildren_zero {n : Nat} {cs : List (Multiway ι K V)}
    (h : ∀ c ∈ cs, ∀ ret, scanAppend n c 0 ret = ret ++ c.pairs.take (n - ret.length))
    (ret : List (K × V)) :
    scanChildren n cs 0 ret = ret ++ (pairsOf (leavesList cs)).take (n - ret.length) := by
  induction cs generalizing ret with
  | nil => simp [scanChildren, leavesList, pairsOf]
  | cons c cs ih =>
      simp only [scanChildren, leavesList, pairsOf_append]
      split
      · rw [ih (fun d hd => h d (by simp [hd])), h c (by simp)]
        exact take_append_take n ret c.pairs (pairsOf (leavesList cs))
      · have hn : n - ret.length = 0 := by omega
        simp [hn]

omit [LinearOrder K] in
theorem scanAppend_zero (n : Nat) (t : Multiway ι K V) (ret : List (K × V)) :
    scanAppend n t 0 ret = ret ++ t.pairs.take (n - ret.length) := by
  induction t generalizing ret with
  | leaf a ks vs => simp [scanAppend, pairs, leaves]
  | node a ks cs ih => exact scanChildren_zero ih ret

theorem drop_findval {ks : List K} {vs : List V} {key : K} (hs : ks.Pairwise (· < ·)) :
    (ks.zip vs).drop (findval ks key) = (ks.zip vs).filter (key ≤ ·.1) := by
  induction ks generalizing vs with
  | nil => simp
  | cons k ks ih =>
      obtain ⟨hk, hs⟩ := List.pairwise_cons.mp hs
      cases vs with
      | nil => simp
      | cons v vs =>
          by_cases hlt : k < key
          · simpa [findval, hlt, hlt.not_ge] using ih hs
          · have hle : key ≤ k := not_lt.mp hlt
            have hall : ∀ p ∈ ks.zip vs, key ≤ p.1 := fun p hp =>
              hle.trans (hk p.1 (List.of_mem_zip (a := p.1) (b := p.2) hp).1).le
            simp only [findval, hlt, if_false, List.zip_cons_cons, List.drop_zero, hle,
              List.filter_cons_of_pos, decide_true]
            rw [List.filter_eq_self.mpr (by simpa using hall)]

theorem filter_below {ls : List (List K × List V)} {key : K} (h : ∀ l ∈ ls, ∀ k ∈ l.1, k < key) :
    (pairsOf ls).filter (key ≤ ·.1) = [] := by
  rw [List.filter_eq_nil_iff]
  intro p hp
  obtain ⟨l, hl, hk⟩ := mem_pairsOf hp
  simpa using h l hl p.1 hk

theorem filter_above {ls : List (List K × List V)} {key : K} (h : ∀ l ∈ ls, ∀ k ∈ l.1, key < k) :
    (pairsOf ls).filter (key ≤ ·.1) = pairsOf ls := by
  rw [List.filter_eq_self]
  intro p hp
  obtain ⟨l, hl, hk⟩ := mem_pairsOf hp
  simpa using (h l hl p.1 hk).le

theorem scanSearch_eq {n : Nat} {lo hi : Option K} {t : Multiway ι K V} {key : K}
    (ht : Ordered lo hi t) (hkey : Within lo hi key) (ret : List (K × V)) :
    scanSearch n t key ret = ret ++ (t.pairs.filter (key ≤ ·.1)).take (n - ret.length) := by
  induction t generalizing lo hi ret with
  | leaf a ks vs => simp [scanSearch, scanAppend, pairs, leaves, drop_findval ht.1]
  | node a ks cs ih =>
      obtain ⟨c, lo', hi', pre, post, hc⟩ := OrderedList.focus ht hkey
      have hmem : c ∈ cs := List.mem_of_getElem? hc.child
      have hpairs : (node a ks cs).pairs.filter (key ≤ ·.1) =
          c.pairs.filter (key ≤ ·.1) ++ pairsOf post := by
        rw [pairs, leaves, hc.leaves, pairsOf_append, pairsOf_append, List.filter_append,
          List.filter_append, filter_below hc.below, filter_above hc.above]
        rfl
      rw [scanSearch, scanSearchAt_eq hc.child, ih c hmem hc.ordered hc.inside, scanAppend,
        scanChildren_drop, scanChildren_zero (fun c _ => scanAppend_zero n c), hc.rest, hpairs]
      exact take_append_take n ret _ _

theorem scan_eq {lo hi : Option K} {t : Multiway ι K V} {key : K} (ht : Ordered lo hi t)
    (hkey : Within lo hi key) (n : Nat) :
    scan t key n = (t.pairs.filter (key ≤ ·.1)).take n := by
  simpa [scan] using scanSearch_eq ht hkey (n := n) []

end Multiway

end Search

end Contrees.Library.SearchTree
