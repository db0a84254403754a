import Contrees.Trees.BnodeDenote

namespace Contrees.Trees.Bnode

open Library Library.Memory Library.SearchTree Conctrl

variable {ι : Type} [DecidableEq ι] {K : Kind ι} {S : NodePtr ι → Prop} {h h' : NodeHeap ι}
  {t s n ver key val : Nat}

theorem take_insertIdx {α : Type} {l : List α} (x : α) {i m : Nat} (h : i ≤ m) (hl : i ≤ l.length) :
    (l.insertIdx i x).take (m + 1) = (l.take m).insertIdx i x := by
  induction l generalizing i m with
  | nil =>
      obtain rfl : i = 0 := by simpa using hl
      simp
  | cons y l ih =>
      cases i with
      | zero => simp
      | succ i =>
          obtain ⟨m, rfl⟩ : ∃ m', m = m' + 1 := ⟨m - 1, by omega⟩
          simpa using ih (by omega) (by simpa using hl)

theorem drop_insertIdx_of_le {α : Type} {l : List α} (x : α) {i m : Nat} (h : i ≤ m)
    (hl : i ≤ l.length) : (l.insertIdx i x).drop (m + 1) = l.drop m := by
  induction l generalizing i m with
  | nil =>
      obtain rfl : i = 0 := by simpa using hl
      simp
  | cons y l ih =>
      cases i with
      | zero => simp
      | succ i =>
          obtain ⟨m, rfl⟩ : ∃ m', m = m' + 1 := ⟨m - 1, by omega⟩
          simpa using ih (by omega) (by simpa using hl)

theorem drop_insertIdx_of_ge {α : Type} {l : List α} (x : α) {i m : Nat} (h : m ≤ i)
    (hl : i ≤ l.length) : (l.insertIdx i x).drop m = (l.drop m).insertIdx (i - m) x := by
  induction l generalizing i m with
  | nil =>
      obtain rfl : i = 0 := by simpa using hl
      obtain rfl : m = 0 := by omega
      rfl
  | cons y l ih =>
      cases m with
      | zero => simp
      | succ m =>
          obtain ⟨i, rfl⟩ : ∃ i', i = i' + 1 := ⟨i - 1, by omega⟩
          simpa using ih (by omega) (by simpa using hl)

/-- A full array with one more entry, cut in the middle: the two ways in which
the code fills the halves. -/
theorem halves_of_lt {α : Type} {l : List α} (x : α) {i : Nat} (h : i < B) (hl : i ≤ l.length) :
    (l.insertIdx i x).take B = (l.take (B - 1)).insertIdx i x ∧
      (l.insertIdx i x).drop B = l.drop (B - 1) := by
  have hle : i ≤ B - 1 := by omega
  exact ⟨take_insertIdx x hle hl, drop_insertIdx_of_le x hle hl⟩

theorem halves_of_ge {α : Type} {l : List α} (x : α) {i : Nat} (h : B ≤ i) (hl : i ≤ l.length) :
    (l.insertIdx i x).take B = l.take B ∧
      (l.insertIdx i x).drop B = (l.drop B).insertIdx (i - B) x :=
  ⟨List.take_insertIdx_eq_take_of_le _ _ _ _ h, drop_insertIdx_of_ge x h hl⟩

/-- The effect of the copy-on-write code on trees: `copy_leaf` loses the other
values. -/
def cow (K : Kind ι) : Style ι (Option Nat) where
  hit := fun i v vs => (vs.map (fun _ => none)).set i v
  grown := K.grownLeaf
  fresh := K.newLeaf
  half := K.half
  hit_length := by simp

def Placed (K : Kind ι) (S : NodePtr ι → Prop) (h : NodeHeap ι) (p : Nat) (l : NodePtr ι) :
    Option (NodePtr ι) → Updated ι Nat (Option Nat) → Prop
  | none, .one c => Denotes K S h l c
  | some r, .two p' cl cr => p = p' ∧ Denotes K S h l cl ∧ Denotes K S h r cr
  | _, _ => False

omit [DecidableEq ι] in
theorem denotes_leaf {p : NodePtr ι} {a : ι} {ks : List Nat} {vs : List (Option Nat)} {v : Nat}
    (hp : S p) (ha : K.isLeaf a = true) (hhead : h (p, Field.head) = some ⟨v, a, ks, vs⟩)
    (hchs : h (p, Field.chs) = none) : Denotes K S h p (.leaf a ks vs) :=
  ⟨hp, ha, ⟨v, hhead⟩, hchs⟩

theorem place_frame {p : NodePtr ι} {cs : (f : Field) → Option (Cell ι f)} (hp : p.Fresh t s n)
    (x : NodePtr ι) (hx : ¬ x.Fresh t s n) (f : Field) : h.place p cs (x, f) = h (x, f) :=
  Heap.place_of_ne h cs f (hp.ne hx)

theorem new_leaves {kl kr : List Nat} {vl vr : List (Option Nat)} {p : Nat} :
    let h' := (h.place ⟨t, s, n, K.newLeaf⟩ (cells ⟨ver, K.newLeaf, kl, vl⟩ none)).place
      ⟨t, s, n + 1, K.newLeaf⟩ (cells ⟨ver, K.newLeaf, kr, vr⟩ none)
    (∀ x : NodePtr ι, ¬ x.Fresh t s n → ∀ f, h' (x, f) = h (x, f)) ∧
      Placed K (Ptr.Between t s n (n + 1 + 1)) h' p ⟨t, s, n, K.newLeaf⟩
      (some ⟨t, s, n + 1, K.newLeaf⟩)
        (.two p (.leaf K.newLeaf kl vl) (.leaf K.newLeaf kr vr)) := by
  refine ⟨fun x hx f => ?_, rfl, ?_, ?_⟩
  · rw [place_frame (by simp) x hx, place_frame (by simp) x hx]
  · exact denotes_leaf (v := ver) (Ptr.between_mk.mpr ⟨rfl, rfl, le_rfl, by omega⟩) K.isLeaf_newLeaf
      (by simp) (by simp)
  · exact denotes_leaf (v := ver) (by simp) K.isLeaf_newLeaf (by simp) (by simp)

theorem updateLeafCow_spec {q : NodePtr ι} {a : ι} {ks : List Nat} {vs : List (Option Nat)}
    {v : Nat} (hq : h (q, Field.head) = some ⟨v, a, ks, vs⟩) (ha : K.isLeaf a = true)
    (hlen : ks.length = vs.length) (hmax : ks.length ≤ 2 * B - 1) :
    (updateLeafCow K ver key val q).wp t s n h (fun r n' h' =>
      (∀ x, ¬ x.Fresh t s n → ∀ f, h' (x, f) = h (x, f)) ∧
      Placed K (Ptr.Between t s n n') h' r.1 r.2.1 r.2.2
      (updateLeaf (cow K) B key (some val) a ks vs)) := by
  have hi := findval_le ks key
  have hi' : findval ks key ≤ vs.length := hlen ▸ hi
  by_cases hhit : ks[findval ks key]? = some key
  · simp only [updateLeafCow, copyLeaf, newLeaf, setVal, updateLeaf, if_pos hhit, Prog.wp_bind,
      Prog.wp_load, Prog.wp_new, Prog.wp_store, Prog.wp_pure, hq, Heap.place_self, cells_head,
      Option.some.injEq, exists_eq_left', Option.isSome_some, true_and]
    refine ⟨fun x hx f => ?_, denotes_leaf (by simp) ha (Heap.set_self _ _ _ _) (by simp)⟩
    have hne : x ≠ ⟨t, s, n, a⟩ := Ptr.Fresh.ne (by simp) hx
    rw [Heap.set_of_ptr_ne _ _ hne, Heap.place_of_ne _ _ _ hne]
  · simp only [updateLeafCow, newLeaf, updateLeaf, if_neg hhit, Prog.wp_bind, Prog.wp_load, hq,
      Option.some.injEq, exists_eq_left']
    by_cases hroom : ks.length < 2 * B - 1
    · simp only [if_pos hroom, Prog.wp_bind, Prog.wp_new, Prog.wp_pure]
      exact ⟨place_frame (by simp),
        denotes_leaf (by simp) (K.isLeaf_grownLeaf a) (Heap.place_self _ _ _ _) (by simp)⟩
    · simp only [if_neg hroom]
      have hlast : ∃ p, (ks.insertIdx (findval ks key) key)[B]? = some p :=
        ⟨_, List.getElem?_eq_getElem (by rw [List.length_insertIdx_of_le_length hi]; omega)⟩
      obtain ⟨p, hp⟩ := hlast
      have hp' : ((ks.insertIdx (findval ks key) key).drop B)[0]? = some p := by
        rw [List.getElem?_drop]; exact hp
      rw [List.getD_eq_getElem?_getD, hp, Option.getD_some]
      by_cases hiB : findval ks key < B
      · obtain ⟨hkl, hkr⟩ := halves_of_lt key hiB hi
        obtain ⟨hvl, hvr⟩ := halves_of_lt (some val) hiB hi'
        rw [hkr] at hp'
        rw [hkl, hkr, hvl, hvr]
        simp only [if_pos hiB, Prog.wp_bind, Prog.wp_new, Prog.wp_pure, Prog.wp_check, hp',
          Option.some.injEq, exists_eq_left']
        exact new_leaves
      · obtain ⟨hkl, hkr⟩ := halves_of_ge key (not_lt.mp hiB) hi
        obtain ⟨hvl, hvr⟩ := halves_of_ge (some val) (not_lt.mp hiB) hi'
        rw [hkr] at hp'
        rw [hkl, hkr, hvl, hvr]
        simp only [if_neg hiB, Prog.wp_bind, Prog.wp_new, Prog.wp_pure, Prog.wp_check, hp',
          Option.some.injEq, exists_eq_left']
        exact new_leaves

def absorbKeys (ks : List Nat) (i p : Nat) : Option (NodePtr ι) → List Nat
  | none => ks
  | some _ => ks.insertIdx i p

def absorbPtrs (ps : List (NodePtr ι)) (i : Nat) (l : NodePtr ι) :
    Option (NodePtr ι) → List (NodePtr ι)
  | none => ps.set i l
  | some r => (ps.set i l).insertIdx (i + 1) r

omit [DecidableEq ι] in
theorem absorbPtrs_halves {ps : List (NodePtr ι)} {i : Nat} (hi : i < ps.length) (l r : NodePtr ι) :
    (absorbPtrs ps i l (some r))[i]? = some l ∧ (absorbPtrs ps i l (some r))[i + 1]? = some r := by
  constructor
  · rw [absorbPtrs, List.getElem?_insertIdx_of_lt (Nat.lt_succ_self i), List.getElem?_set_self hi]
  · rw [absorbPtrs, List.getElem?_insertIdx_self, if_pos (by rw [List.length_set]; omega)]

omit [DecidableEq ι] in
theorem absorbKeys_half {ks : List Nat} {i p : Nat} (hi : i ≤ ks.length) (r : NodePtr ι) :
    (absorbKeys ks i p (some r))[i]? = some p := by
  rw [absorbKeys, List.getElem?_insertIdx_self, if_pos hi]

structure Internal (K : Kind ι) (h : NodeHeap ι) (p : NodePtr ι) (a : ι) (ks : List Nat)
    (ps : List (NodePtr ι)) : Prop where
  kind : K.isLeaf a = false
  head : ∃ v vs, h (p, Field.head) = some ⟨v, a, ks, vs⟩
  chs : h (p, Field.chs) = some ps

omit [DecidableEq ι] in
theorem Internal.frame {p : NodePtr ι} {a : ι} {ks : List Nat} {ps : List (NodePtr ι)}
    (hp : Internal K h p a ks ps) (hh : ∀ f, h' (p, f) = h (p, f)) : Internal K h' p a ks ps := by
  obtain ⟨hkind, ⟨v, vs, hhead⟩, hchs⟩ := hp
  exact ⟨hkind, ⟨v, vs, by rw [hh, hhead]⟩, by rw [hh, hchs]⟩

theorem setChild_spec {tCur l : NodePtr ι} {a : ι} {ks : List Nat} {ps : List (NodePtr ι)} {i : Nat}
    (hcur : Internal K h tCur a ks ps) (hi : i < ps.length) :
    (setChild tCur i l).wp t s n h (fun _ n' h' => n' = n ∧ Internal K h' tCur a ks (ps.set i l) ∧
      ∀ x, x ≠ tCur → ∀ f, h' (x, f) = h (x, f)) := by
  obtain ⟨hkind, ⟨v, vs, hhead⟩, hchs⟩ := hcur
  simp only [setChild, Prog.wp_bind, Prog.wp_load, Prog.wp_check, Prog.wp_store, hchs,
    Option.some.injEq, exists_eq_left', List.getElem?_eq_getElem hi, Option.isSome_some, true_and]
  refine ⟨⟨hkind, ⟨v, vs, ?_⟩, Heap.set_self _ _ _ _⟩, fun x hx f => Heap.set_of_ptr_ne _ _ hx⟩
  rw [Heap.set_of_field_ne _ _ (by simp), hhead]

theorem replaceChild_spec {tCur l : NodePtr ι} {r : Option (NodePtr ι)} {a : ι} {ks : List Nat}
    {ps : List (NodePtr ι)} {i p : Nat} (hcur : Internal K h tCur a ks ps) (hi : i < ps.length)
    (hroom : ks.length < 2 * B - 1) :
    (replaceChild tCur i p l r).wp t s n h (fun _ n' h' => n' = n ∧
      Internal K h' tCur a (absorbKeys ks i p r) (absorbPtrs ps i l r) ∧
      ∀ x, x ≠ tCur → ∀ f, h' (x, f) = h (x, f)) := by
  cases r with
  | none => exact setChild_spec hcur hi
  | some r =>
      obtain ⟨hkind, ⟨v, vs, hhead⟩, hchs⟩ := hcur
      have hne : (tCur, Field.chs) ≠ (tCur, Field.head) := by simp
      simp only [replaceChild, insertChild, Prog.wp_bind, Prog.wp_load, Prog.wp_check,
        Prog.wp_store,
        hchs, hhead, Option.some.injEq, exists_eq_left', List.getElem?_eq_getElem hi,
        Option.isSome_some, true_and, if_pos hroom, Heap.set_of_ne _ _ hne]
      refine ⟨⟨hkind, ⟨v, vs, ?_⟩, Heap.set_self _ _ _ _⟩, fun x hx f => ?_⟩
      · rw [Heap.set_of_field_ne _ _ (by simp), Heap.set_self]
        rfl
      · rw [Heap.set_of_ptr_ne _ _ hx, Heap.set_of_ptr_ne _ _ hx]

omit [DecidableEq ι] in
theorem absorb_denotes {tCur l : NodePtr ι} {r : Option (NodePtr ι)} {a : ι} {ks : List Nat}
    {ps : List (NodePtr ι)} {cs : List (NodeTree ι)} {i p : Nat} {u : Updated ι Nat (Option Nat)}
    (hcur : Internal K h tCur a (absorbKeys ks i p r) (absorbPtrs ps i l r)) (hS : S tCur)
    (hps : DenotesList K S h ps cs) (hu : Placed K S h p l r u) :
    Denotes K S h tCur (Updated.absorb a ks cs i u) := by
  obtain ⟨hkind, hhead, hchs⟩ := hcur
  cases u with
  | one c =>
      cases r with
      | none => exact ⟨hS, hkind, hhead, _, hchs, hps.set hu i⟩
      | some r => exact hu.elim
  | two p' cl cr =>
      cases r with
      | none => exact hu.elim
      | some r =>
          obtain ⟨rfl, hl, hr⟩ := hu
          exact ⟨hS, hkind, hhead, _, hchs, (hps.set hl i).insertIdx hr (i + 1)⟩

def Old (t : Nat) (q : NodePtr ι) : Prop := q.owner < t

def UpTo (t : Nat) (q : NodePtr ι) : Prop := q.owner ≤ t

omit [DecidableEq ι] in
theorem Old.not_fresh {q : NodePtr ι} (hq : Old t q) (s n : Nat) : ¬ q.Fresh t s n :=
  fun hf => absurd hf.1 (Nat.ne_of_lt hq)

omit [DecidableEq ι] in
theorem Old.ne {q p : NodePtr ι} (hq : Old t q) (hp : p.owner = t) : q ≠ p := fun h => by
  subst h
  exact absurd hp (Nat.ne_of_lt hq)

/-- A non-full node of this transaction whose children are all from before it. -/
structure Entered (K : Kind ι) (h : NodeHeap ι) (t s n : Nat) (tCur : NodePtr ι) (a : ι)
    (ks : List Nat) (ps : List (NodePtr ι)) (cs : List (NodeTree ι)) (d : Nat) : Prop where
  internal : Internal K h tCur a ks ps
  owner : tCur.owner = t
  passed : ¬ tCur.Fresh t s n
  children : DenotesList K (Old t) h ps cs
  room : ks.length < 2 * B - 1
  length : cs.length = ks.length + 1
  shaped : ∀ c ∈ cs, c.Shaped B B d

omit [DecidableEq ι] in
theorem Placed.frame {S' : NodePtr ι → Prop} {p : Nat} {l : NodePtr ι} {r : Option (NodePtr ι)}
    {u : Updated ι Nat (Option Nat)} (hu : Placed K S h p l r u)
    (hS : ∀ q, S q → S' q ∧ ∀ f, h' (q, f) = h (q, f)) : Placed K S' h' p l r u := by
  cases u with
  | one c =>
      cases r with
      | none => exact Denotes.frame hu hS
      | some r => exact hu
  | two p' cl cr =>
      cases r with
      | none => exact hu
      | some r => exact ⟨hu.1, hu.2.1.frame hS, hu.2.2.frame hS⟩

theorem copyInternal_wp {q : NodePtr ι} {b : ι} {ks : List Nat} {vs : List (Option Nat)} {v : Nat}
    (hq : h (q, Field.head) = some ⟨v, b, ks, vs⟩) (hb : K.isLeaf b = false)
    (Q : NodePtr ι → Nat → NodeHeap ι → Prop) : (copyInternal K ver q).wp t s n h Q ↔
      Q ⟨t, s, n, b⟩ (n + 1) (h.place ⟨t, s, n, b⟩ (cells ⟨ver, b, ks, []⟩ (some []))) := by
  simp only [copyInternal, newInternal, Prog.wp_bind, Prog.wp_load, Prog.wp_new, hq,
    Option.some.injEq, exists_eq_left', K.copied_internal b hb]

omit [DecidableEq ι] in
theorem rooted_denotes {r l tp : NodePtr ι} {a : ι} {sep v : Nat} {vs : List (Option Nat)}
    {u : Updated ι Nat (Option Nat)} (htp : S tp) (ha : K.isLeaf a = false)
    (hhead : h (tp, Field.head) = some ⟨v, a, [sep], vs⟩) (hchs : h (tp, Field.chs) = some [l, r])
    (hu : Placed K S h sep l (some r) u) : Denotes K S h tp (u.rooted a) := by
  cases u with
  | one c => exact hu.elim
  | two sep' cl cr =>
      obtain ⟨rfl, hl, hr⟩ := hu
      exact ⟨htp, ha, ⟨v, vs, hhead⟩, [l, r], hchs, l, [r], rfl, hl, r, [], rfl, hr, rfl⟩

theorem newRoot_spec {r l : NodePtr ι} {a : ι} {sep n₁ : Nat} {u : Updated ι Nat (Option Nat)}
    (ha : K.isLeaf a = false) (hu : Placed K (Ptr.Between t s n n₁) h sep l (some r) u) :
    (newRoot ver a sep l r).wp t s n₁ h (fun tp n₂ h' => Denotes K (Ptr.Between t s n n₂) h' tp
    (u.rooted a) ∧
      ∀ x, ¬ x.Fresh t s n → ∀ f, h' (x, f) = h (x, f)) := by
  have hn : n < n₁ := by
    cases u with
    | one c => exact hu.elim
    | two p cl cr =>
        obtain ⟨-, -, hlow, hhigh⟩ := hu.2.1.mem
        exact lt_of_le_of_lt hlow hhigh
  simp only [newRoot, newInternal, Prog.wp_new]
  have hb : (⟨t, s, n₁, a⟩ : NodePtr ι).Between t s n (n₁ + 1) :=
    Ptr.between_mk.mpr ⟨rfl, rfl, hn.le, Nat.lt_succ_self n₁⟩
  refine ⟨?_, place_frame hb.fresh⟩
  refine rooted_denotes hb ha (Heap.place_self _ _ _ _) (Heap.place_self _ _ _ _) ?_
  exact hu.frame fun x hx => ⟨⟨hx.1, hx.2.1, hx.2.2.1, hx.2.2.2.trans (Nat.lt_succ_self n₁)⟩,
    place_frame (by simp) x hx.passed⟩

section Descent

variable {d : Nat} {tCur : NodePtr ι} {a : ι} {ks : List Nat} {ps : List (NodePtr ι)}
  {cs : List (NodeTree ι)} {u : Updated ι Nat (Option Nat)}

omit [DecidableEq ι] in
theorem Entered.absorb {i p : Nat} {l : NodePtr ι} {r : Option (NodePtr ι)}
    (hent : Entered K h t s n tCur a ks ps cs d)
    (hcur : Internal K h' tCur a (absorbKeys ks i p r) (absorbPtrs ps i l r))
    (hframe : ∀ x, x ≠ tCur → ¬ x.Fresh t s n → ∀ f, h' (x, f) = h (x, f))
    (hu : Placed K (UpTo t) h' p l r u) :
    Denotes K (UpTo t) h' tCur (Updated.absorb a ks cs i u) := by
  refine absorb_denotes hcur (Nat.le_of_eq hent.owner) (hent.children.frame fun q hq => ?_) hu
  exact ⟨Nat.le_of_lt hq, hframe q (hq.ne hent.owner) (hq.not_fresh s n)⟩

omit [DecidableEq ι] in
theorem Entered.after {h₃ h₄ : NodeHeap ι} {s₁ i p : Nat} {q l : NodePtr ι} {r : Option (NodePtr ι)}
    (hent : Entered K h t s n tCur a ks ps cs d)
    (hcur : Internal K h₃ tCur a (absorbKeys ks i p r) (absorbPtrs ps i l r))
    (hframe₃ : ∀ x, x ≠ tCur → ¬ x.Fresh t s n → ∀ f, h₃ (x, f) = h (x, f))
    (hq : q.Fresh t s n) (hlt : s < s₁)
    (hframe₄ : ∀ x, x ≠ q → ¬ x.Fresh t s₁ 0 → ∀ f, h₄ (x, f) = h₃ (x, f))
    (hu : Placed K (UpTo t) h₄ p l r u) :
    Denotes K (UpTo t) h₄ tCur (Updated.absorb a ks cs i u) ∧
      ∀ x, x ≠ tCur → ¬ x.Fresh t s n → ∀ f, h₄ (x, f) = h (x, f) := by
  have hlater : ∀ x : NodePtr ι, ¬ x.Fresh t s n → ∀ f, h₄ (x, f) = h₃ (x, f) := fun x hx =>
    hframe₄ x (hq.ne hx) (fun hf => hx (hf.mono (.inl hlt)))
  have hframe : ∀ x, x ≠ tCur → ¬ x.Fresh t s n → ∀ f, h₄ (x, f) = h (x, f) :=
    fun x hx hf f => by rw [hlater x hf, hframe₃ x hx hf]
  exact ⟨hent.absorb (hcur.frame (hlater tCur hent.passed)) hframe hu, hframe⟩

/-- The rest of a run from `tCur` on ends with the child on the path updated
and nothing older than this point touched but `tCur`. -/
def Ends (K : Kind ι) (next : Nat → Lower ι → Nat) (t s n ver key val : Nat) (h : NodeHeap ι)
    (low : Lower ι) (done : NodeTree ι) : Prop :=
  (descend K ver key val low.tCur).wp t s n h (fun r _ h' =>
    (lower K ver key val).Ends next t (next s (low.next r.1 r.2)) (low.next r.1 r.2) h'
      (fun _ h'' => Denotes K (UpTo t) h'' low.tCur done ∧
        ∀ x, x ≠ low.tCur → ¬ x.Fresh t s n → ∀ f, h'' (x, f) = h (x, f)))

def Descends (K : Kind ι) (next : Nat → Lower ι → Nat) (t ver key val d : Nat) : Prop :=
  ∀ {s n : Nat} {h : NodeHeap ι} (low : Lower ι) {a : ι} {ks : List Nat} {ps : List (NodePtr ι)}
    {cs : List (NodeTree ι)} {u : Updated ι Nat (Option Nat)},
    Entered K h t s n low.tCur a ks ps cs d →
    insertAt (cow K) B key (some val) (findch ks key) cs = some u →
    Ends K next t s n ver key val h low (Updated.absorb a ks cs (findch ks key) u)

variable {next : Nat → Lower ι → Nat} {low : Lower ι} {q : NodePtr ι} {b : ι}

theorem descend_leaf {lks : List Nat} {lvs : List (Option Nat)}
    (hent : Entered K h t s n low.tCur a ks ps cs d) (hq : ps[findch ks key]? = some q)
    (hqc : Denotes K (Old t) h q (.leaf b lks lvs))
    (hshaped : (Multiway.leaf b lks lvs).Shaped B B 0) :
    Ends K next t s n ver key val h low
      (Updated.absorb a ks cs (findch ks key) (updateLeaf (cow K) B key (some val) b lks lvs)) := by
  obtain ⟨hkind, ⟨v, vs, hhead⟩, hchs⟩ := hent.internal
  obtain ⟨hqS, hb, ⟨v', hqh⟩, hqchs⟩ := hqc
  obtain ⟨-, hmax, hlen⟩ := hshaped
  simp only [Ends, descend, Prog.wp_bind, Prog.wp_load, Prog.wp_check, hhead, hchs, hq, hqh, hb,
    Option.some.injEq, exists_eq_left', if_true]
  refine Prog.wp_mono (updateLeafCow_spec hqh hb hlen.symm hmax) ?_
  rintro ⟨p, l, r⟩ n₁ h₁ ⟨hframe, hplaced⟩
  have hcur : Internal K h₁ low.tCur a ks ps := hent.internal.frame (hframe low.tCur hent.passed)
  refine Prog.wp_mono (replaceChild_spec hcur (List.getElem?_eq_some_iff.mp hq).1 hent.room) ?_
  rintro ⟨⟩ n₂ h₂ ⟨rfl, hcur₂, hframe₂⟩
  rw [Prog.wp_pure]
  have hframe' : ∀ x, x ≠ low.tCur → ¬ x.Fresh t s n → ∀ f, h₂ (x, f) = h (x, f) :=
    fun x hx hf f => by rw [hframe₂ x hx, hframe x hf]
  refine Handlers.Ends.done rfl ⟨hent.absorb hcur₂ hframe' (hplaced.frame fun x hx => ?_), hframe'⟩
  exact ⟨Nat.le_of_eq hx.1, hframe₂ x (hx.fresh.ne hent.passed).symm⟩

theorem descend_down {cks : List Nat} {ccs : List (NodeTree ι)} {d' : Nat}
    {u' : Updated ι Nat (Option Nat)} (hnext : ∀ s low, s < next s low)
    (ih : Descends K next t ver key val d) (hent : Entered K h t s n low.tCur a ks ps cs d')
    (hq : ps[findch ks key]? = some q) (hqc : Denotes K (Old t) h q (.node b cks ccs))
    (hshaped : (Multiway.node b cks ccs).Shaped B B (d + 1)) (hroom : cks.length < 2 * B - 1)
    (hu' : insertAt (cow K) B key (some val) (findch cks key) ccs = some u') :
    Ends K next t s n ver key val h low
      (Updated.absorb a ks cs (findch ks key)
      (.one (Updated.absorb b cks ccs (findch cks key) u'))) := by
  obtain ⟨hkind, ⟨v, vs, hhead⟩, hchs⟩ := hent.internal
  obtain ⟨hqS, hb, ⟨v', vs', hqh⟩, cps, hqchs, hcps⟩ := hqc
  obtain ⟨-, hlen, hall⟩ := hshaped
  simp only [Ends, descend, Prog.wp_bind, Prog.wp_load, Prog.wp_check, copyInternal_wp hqh hb,
    hhead,
    hchs, hq, hqh, hb, Option.some.injEq, exists_eq_left', Bool.false_eq_true, if_false,
    if_neg hroom.ne]
  generalize hq' : (⟨t, s, n, b⟩ : NodePtr ι) = q'
  have hfresh : q'.Fresh t s n := by subst hq'; simp
  have hne : q' ≠ low.tCur := (hfresh.ne hent.passed).symm
  have hcur : Internal K (h.place q' (cells ⟨ver, b, cks, []⟩ (some []))) low.tCur a ks ps :=
    hent.internal.frame (place_frame hfresh low.tCur hent.passed)
  refine Prog.wp_mono (replaceChild_spec (r := none) (p := 0) hcur
    (List.getElem?_eq_some_iff.mp hq).1 hent.room) ?_
  rintro ⟨⟩ n₂ h₂ ⟨rfl, hcur₂, hframe₂⟩
  have hold : ∀ x, Old t x → ∀ f, h₂ (x, f) = h (x, f) := fun x hx f => by
    rw [hframe₂ x (hx.ne hent.owner), place_frame hfresh x (hx.not_fresh s n)]
  have hhead' : h₂ (q', Field.head) = some ⟨ver, b, cks, []⟩ := by
    rw [hframe₂ q' hne, Heap.place_self, cells_head]
  have hchs' : h₂ (q', Field.chs) = some [] := by
    rw [hframe₂ q' hne, Heap.place_self, cells_chs]
  rw [Prog.wp_pure]
  have hlt := hnext s (low.next q (.down q'))
  generalize next s (low.next q (.down q')) = s₁ at hlt ⊢
  refine Handlers.Ends.step rfl ?_
  change (handleDown K ver key val (low.next q (.down q'))).wp t s₁ 0 h₂ _
  simp only [handleDown, Lower.next, copych, Prog.wp_bind, Prog.wp_load, Prog.wp_store, hold q hqS,
    hqchs, hchs', Option.some.injEq, exists_eq_left', Option.isSome_some, true_and]
  have hother : ∀ x, x ≠ q' → ∀ f, (h₂.set q' Field.chs cps) (x, f) = h₂ (x, f) :=
    fun x hx f => Heap.set_of_ptr_ne _ _ hx
  have hent' : Entered K (h₂.set q' Field.chs cps) t s₁ 0 q' b cks cps ccs d := by
    refine ⟨⟨hb, ⟨ver, [], ?_⟩, Heap.set_self _ _ _ _⟩, hfresh.1, ?_, ?_, hroom, hlen, hall⟩
    · rw [Heap.set_of_field_ne _ _ (by simp), hhead']
    · subst hq'
      simp only [Ptr.fresh_mk]
      omega
    · refine hcps.frame fun x hx => ⟨hx, fun f => ?_⟩
      rw [hother x (hx.ne hfresh.1), hold x hx]
  refine Prog.wp_mono (ih ⟨.down, q', q, low.splitIdx⟩ hent' hu') ?_
  rintro ⟨tPast, dsc⟩ n₃ h₃ hends
  rw [Prog.wp_pure]
  refine hends.mono fun low' h₄ hfin => ?_
  refine hent.after (hcur₂.frame (hother low.tCur hne.symm)) (fun x hx hf f => ?_) hfresh hlt hfin.2
    hfin.1
  rw [hother x (hfresh.ne hf), hframe₂ x hx, place_frame hfresh x hf]

omit [DecidableEq ι] in
theorem Entered.denotes {tCur : NodePtr ι} (hent : Entered K h t s n tCur a ks ps cs d) :
    Denotes K (UpTo t) h tCur (.node a ks cs) := by
  obtain ⟨hkind, hhead, hchs⟩ := hent.internal
  exact ⟨Nat.le_of_eq hent.owner, hkind, hhead, ps, hchs,
    hent.children.frame fun q hq => ⟨Nat.le_of_lt hq, fun _ => rfl⟩⟩

omit [DecidableEq ι] in
theorem Entered.sibling {tCur p : NodePtr ι} (hent : Entered K h t s n tCur a ks ps cs d)
    (hne : tCur ≠ p) (hp : p.owner = t)
    (hframe : ∀ x, x ≠ p → ¬ x.Fresh t s n → ∀ f, h' (x, f) = h (x, f)) :
    Denotes K (UpTo t) h' tCur (.node a ks cs) := by
  have hent' : Entered K h' t s n tCur a ks ps cs d :=
    ⟨hent.internal.frame (hframe tCur hne hent.passed), hent.owner, hent.passed,
      hent.children.frame fun x hx => ⟨hx, hframe x (hx.ne hp) (hx.not_fresh s n)⟩, hent.room,
      hent.length, hent.shaped⟩
  exact hent'.denotes

theorem enter_half (ver : Nat) (low : Lower ι) {l r : NodePtr ι} {cks : List Nat}
    {ccs : List (NodeTree ι)} {p : Nat}
    {pl pr : List (NodePtr ι)} (ih : Descends K next t ver key val d)
    (hl : Entered K h t s n l (K.half b) (cks.take (B - 1)) pl (ccs.take B) d)
    (hr : Entered K h t s n r (K.half b) (cks.drop B) pr (ccs.drop B) d) (hne : l ≠ r)
    (hp : cks[B - 1]? = some p) (hfull : cks.length = 2 * B - 1)
    (hu : SearchTree.insert (cow K) B key (some val) (.node b cks ccs) = some u)
    (hlow : low.tCur = if p ≤ key then r else l) :
    (descend K ver key val low.tCur).wp t s n h (fun r' _ h' =>
      (lower K ver key val).Ends next t (next s (low.next r'.1 r'.2)) (low.next r'.1 r'.2) h'
        (fun _ h'' => Placed K (UpTo t) h'' p l (some r) u ∧
          ∀ x, x ≠ low.tCur → ¬ x.Fresh t s n → ∀ f, h'' (x, f) = h (x, f))) := by
  have hroom : ¬ cks.length < 2 * B - 1 := by omega
  simp only [SearchTree.insert, if_neg hroom, hp] at hu
  by_cases hle : p ≤ key
  · simp only [if_pos hle] at hu hlow
    obtain ⟨u', hu', rfl⟩ := Option.map_eq_some_iff.mp hu
    rw [insertAt_drop] at hu'
    refine Prog.wp_mono (ih low (hlow ▸ hr) hu') ?_
    rintro ⟨tPast, dsc⟩ n₁ h₁ hends
    apply hends.mono
    rintro low' h₂ ⟨hden, hframe⟩
    refine ⟨⟨rfl, ?_, hlow ▸ hden⟩, hframe⟩
    exact hl.sibling (hlow ▸ hne) (hlow ▸ hr.owner) hframe
  · simp only [if_neg hle] at hu hlow
    obtain ⟨u', hu', rfl⟩ := Option.map_eq_some_iff.mp hu
    have hfind : findch (cks.take (B - 1)) key < B := by
      have := B_pos
      have := findch_le (cks.take (B - 1)) key
      rw [List.length_take] at this
      omega
    rw [insertAt_take _ _ _ _ hfind] at hu'
    refine Prog.wp_mono (ih low (hlow ▸ hl) hu') ?_
    rintro ⟨tPast, dsc⟩ n₁ h₁ hends
    apply hends.mono
    rintro low' h₂ ⟨hden, hframe⟩
    refine ⟨⟨rfl, hlow ▸ hden, ?_⟩, hframe⟩
    exact hr.sibling (hlow ▸ hne.symm) (hlow ▸ hl.owner) hframe

theorem copychSplit_spec {l r : NodePtr ι} {cks : List Nat} {cps : List (NodePtr ι)}
    {ccs : List (NodeTree ι)} {s₁ : Nat} (hshaped : (Multiway.node b cks ccs).Shaped B B (d + 1))
    (hfull : cks.length = 2 * B - 1) (hqchs : h (q, Field.chs) = some cps)
    (hcps : DenotesList K (Old t) h cps ccs) (hlo : l.owner = t) (hro : r.owner = t) (hne : l ≠ r)
    (hl : Internal K h l (K.half b) (cks.take (B - 1)) [])
    (hr : Internal K h r (K.half b) (cks.drop B) [])
    (hpass : ¬ l.Fresh t s n ∧ ¬ r.Fresh t s n) :
    (copychSplit l r q).wp t s₁ n h (fun _ n' h' => n' = n ∧
      (∀ x, x ≠ l → x ≠ r → ∀ f, h' (x, f) = h (x, f)) ∧
      Entered K h' t s n l (K.half b) (cks.take (B - 1)) (cps.take B) (ccs.take B) d ∧
      Entered K h' t s n r (K.half b) (cks.drop B) (cps.drop B) (ccs.drop B) d) := by
  obtain ⟨hlk, ⟨vl, wl, hlh⟩, hlc⟩ := hl
  obtain ⟨hrk, ⟨vr, wr, hrh⟩, hrc⟩ := hr
  obtain ⟨-, hlen, hall⟩ := hshaped
  simp only [copychSplit, Prog.wp_bind, Prog.wp_load, Prog.wp_store, hqchs, hlc, hrc,
    Heap.set_of_ptr_ne _ _ hne.symm, Option.some.injEq, exists_eq_left', Option.isSome_some,
      true_and]
  have hB := B_pos
  have hframe : ∀ x, x ≠ l → x ≠ r → ∀ f,
      ((h.set l Field.chs (cps.take B)).set r Field.chs (cps.drop B)) (x, f) = h (x, f) := by
    intro x hxl hxr f
    rw [Heap.set_of_ptr_ne _ _ hxr, Heap.set_of_ptr_ne _ _ hxl]
  have hold : DenotesList K (Old t)
      ((h.set l Field.chs (cps.take B)).set r Field.chs (cps.drop B)) cps ccs :=
    hcps.frame fun x hx => ⟨hx, hframe x (hx.ne hlo) (hx.ne hro)⟩
  refine ⟨hframe, ⟨⟨hlk, ⟨vl, wl, ?_⟩, ?_⟩, hlo, hpass.1, hold.take B, ?_, ?_, ?_⟩,
    ⟨⟨hrk, ⟨vr, wr, ?_⟩, Heap.set_self _ _ _ _⟩, hro, hpass.2, hold.drop B, ?_, ?_, ?_⟩⟩
  · rw [Heap.set_of_ptr_ne _ _ hne, Heap.set_of_field_ne _ _ (by simp), hlh]
  · rw [Heap.set_of_ptr_ne _ _ hne, Heap.set_self]
  · rw [List.length_take]; omega
  · rw [List.length_take, List.length_take]; omega
  · exact fun c hc => hall c (List.mem_of_mem_take hc)
  · rw [Heap.set_of_field_ne _ _ (by simp), Heap.set_of_ptr_ne _ _ hne.symm, hrh]
  · rw [List.length_drop]; omega
  · rw [List.length_drop, List.length_drop]; omega
  · exact fun c hc => hall c (List.mem_of_mem_drop hc)

theorem split_spec {cks : List Nat} {v p : Nat} {vs : List (Option Nat)}
    (hq : h (q, Field.head) = some ⟨v, b, cks, vs⟩) (hp : cks[B - 1]? = some p) :
    (split K ver q).wp t s n h (fun o n' h' => ∃ l r : NodePtr ι,
      o = (p, l, r) ∧ n' = n + 2 ∧ l.Fresh t s n ∧ r.Fresh t s n ∧ l ≠ r ∧
      l.stage = s ∧ r.stage = s ∧ l.serial = n ∧ r.serial = n + 1 ∧
      Internal K h' l (K.half b) (cks.take (B - 1)) [] ∧
      Internal K h' r (K.half b) (cks.drop B) [] ∧
      ∀ x, ¬ x.Fresh t s n → ∀ f, h' (x, f) = h (x, f)) := by
  simp only [split, newInternal, Prog.wp_bind, Prog.wp_load, Prog.wp_new, Prog.wp_check,
    Prog.wp_pure,
    hq, hp, Option.some.injEq, exists_eq_left']
  have hne : (⟨t, s, n, K.half b⟩ : NodePtr ι) ≠ ⟨t, s, n + 1, K.half b⟩ := by simp
  refine ⟨_, _, rfl, by simp, by simp, by simp, hne, rfl, rfl, rfl, rfl, ?_, ?_, fun x hx f => ?_⟩
  · refine ⟨K.isLeaf_half b, ⟨ver, [], ?_⟩, ?_⟩
    · rw [Heap.place_of_ne _ _ _ hne, Heap.place_self, cells_head]
    · rw [Heap.place_of_ne _ _ _ hne, Heap.place_self, cells_chs]
  · exact ⟨K.isLeaf_half b, ⟨ver, [], Heap.place_self _ _ _ _⟩, Heap.place_self _ _ _ _⟩
  · rw [place_frame (by simp) x hx, place_frame (by simp) x hx]

theorem descend_split {cks : List Nat} {ccs : List (NodeTree ι)} {d' : Nat}
    (hnext : ∀ s low, s < next s low) (ih : Descends K next t ver key val d)
    (hent : Entered K h t s n low.tCur a ks ps cs d')
    (hq : ps[findch ks key]? = some q) (hqc : Denotes K (Old t) h q (.node b cks ccs))
    (hshaped : (Multiway.node b cks ccs).Shaped B B (d + 1)) (hfull : cks.length = 2 * B - 1)
    (hu : SearchTree.insert (cow K) B key (some val) (.node b cks ccs) = some u) :
    Ends K next t s n ver key val h low (Updated.absorb a ks cs (findch ks key) u) := by
  obtain ⟨hkind, ⟨v, vs, hhead⟩, hchs⟩ := hent.internal
  obtain ⟨hqS, hb, ⟨v', vs', hqh⟩, cps, hqchs, hcps⟩ := hqc
  obtain ⟨p, hp⟩ : ∃ p, cks[B - 1]? = some p :=
    ⟨_, List.getElem?_eq_getElem (by have := B_pos; omega)⟩
  simp only [Ends, descend, Prog.wp_bind, Prog.wp_load, Prog.wp_check, hhead, hchs, hq, hqh, hb,
    Option.some.injEq, exists_eq_left', Bool.false_eq_true, if_false, if_pos hfull]
  refine Prog.wp_mono (split_spec hqh hp) ?_
  rintro _ n₁ h₁ ⟨l, r, rfl, rfl, hlf, hrf, hne, hls, hrs, -, -, hl, hr, hframe₁⟩
  have hi : findch ks key < ps.length := (List.getElem?_eq_some_iff.mp hq).1
  refine Prog.wp_mono (replaceChild_spec (r := some r) (p := p)
    (hent.internal.frame (hframe₁ low.tCur hent.passed)) hi hent.room) ?_
  rintro ⟨⟩ n₂ h₂ ⟨rfl, hcur₂, hframe₂⟩
  rw [Prog.wp_pure]
  have hlt := hnext s (low.next q (.split (findch ks key)))
  generalize next s (low.next q (.split (findch ks key))) = s₁ at hlt ⊢
  refine Handlers.Ends.step rfl ?_
  change (handleSplit K ver key val (low.next q (.split (findch ks key)))).wp t s₁ 0 h₂ _
  obtain ⟨hkind₂, ⟨v₂, vs₂, hhead₂⟩, hchs₂⟩ := hcur₂
  obtain ⟨hleft, hright⟩ := absorbPtrs_halves hi l r
  have hlc : l ≠ low.tCur := (hlf.ne hent.passed).symm
  have hrc : r ≠ low.tCur := (hrf.ne hent.passed).symm
  have hold : ∀ x, Old t x → ∀ f, h₂ (x, f) = h (x, f) := fun x hx f => by
    rw [hframe₂ x (hx.ne hent.owner), hframe₁ x (hx.not_fresh s n)]
  have hcps₂ : DenotesList K (Old t) h₂ cps ccs := hcps.frame fun x hx => ⟨hx, hold x hx⟩
  have hpass : ¬ l.Fresh t s₁ 0 ∧ ¬ r.Fresh t s₁ 0 := by
    constructor
    all_goals
      rintro ⟨-, hf⟩
      omega
  simp only [handleSplit, enterHalf, Lower.next, Prog.wp_bind, Prog.wp_load, Prog.wp_check, hchs₂,
    hleft, hright, Option.some.injEq, exists_eq_left']
  refine Prog.wp_mono (copychSplit_spec hshaped hfull (by rw [hold q hqS, hqchs]) hcps₂ hlf.1 hrf.1
    hne (hl.frame (hframe₂ l hlc)) (hr.frame (hframe₂ r hrc)) hpass) ?_
  rintro ⟨⟩ n₃ h₃ ⟨rfl, hframe₃, hentl, hentr⟩
  have hkey : (absorbKeys ks (findch ks key) p (some r))[findch ks key]? = some p :=
    absorbKeys_half (findch_le ks key) r
  have hcur₃ : ∀ f, h₃ (low.tCur, f) = h₂ (low.tCur, f) := hframe₃ low.tCur hlc.symm hrc.symm
  simp only [Prog.wp_pure, hcur₃, hhead₂, hkey, Option.some.injEq, exists_eq_left']
  refine Prog.wp_mono (enter_half ver ⟨.split, if p ≤ key then r else l, q, findch ks key⟩ ih hentl
    hentr hne hp hfull hu rfl) ?_
  rintro ⟨tPast, dsc⟩ n₄ h₄ hends
  refine hends.mono fun low' h₅ hfin => ?_
  have hchosen : Ptr.Fresh t s n (if p ≤ key then r else l) := by
    split
    exacts [hrf, hlf]
  have hcur₂ : Internal K h₂ low.tCur a (absorbKeys ks (findch ks key) p (some r))
      (absorbPtrs ps (findch ks key) l (some r)) := ⟨hkind₂, ⟨v₂, vs₂, hhead₂⟩, hchs₂⟩
  refine hent.after (hcur₂.frame hcur₃) (fun x hx hf f => ?_) hchosen hlt hfin.2 hfin.1
  rw [hframe₃ x (hlf.ne hf) (hrf.ne hf), hframe₂ x hx, hframe₁ x hf]

omit [DecidableEq ι] in
theorem Entered.child {tCur : NodePtr ι} (hent : Entered K h t s n tCur a ks ps cs d) (key : Nat) :
    ∃ q c, ps[findch ks key]? = some q ∧ cs[findch ks key]? = some c ∧ Denotes K (Old t) h q c ∧
      c.Shaped B B d := by
  have hi : findch ks key < cs.length := by
    have := findch_le ks key
    have := hent.length
    omega
  obtain ⟨q, hq, hqc⟩ := hent.children.get (List.getElem?_eq_getElem hi)
  exact ⟨q, cs[findch ks key], hq, List.getElem?_eq_getElem hi, hqc,
    hent.shaped _ (List.getElem_mem hi)⟩

/-- From every node that a run has entered, the rest of the run inserts. -/
theorem descends (hnext : ∀ s low, s < next s low) : Descends K next t ver key val d := by
  induction d with
  | zero =>
      intro s n h low a ks ps cs u hent hu
      obtain ⟨q, c, hq, hc, hqc, hshaped⟩ := hent.child key
      rw [insertAt_eq _ _ _ _ hc] at hu
      cases c with
      | leaf b lks lvs =>
          obtain rfl : updateLeaf (cow K) B key (some val) b lks lvs = u := by
            simpa [SearchTree.insert] using hu
          exact descend_leaf hent hq hqc hshaped
      | node b cks ccs => exact hshaped.elim
  | succ d ih =>
      intro s n h low a ks ps cs u hent hu
      obtain ⟨q, c, hq, hc, hqc, hshaped⟩ := hent.child key
      rw [insertAt_eq _ _ _ _ hc] at hu
      cases c with
      | leaf b lks lvs => exact hshaped.elim
      | node b cks ccs =>
          by_cases hfull : cks.length = 2 * B - 1
          · exact descend_split hnext ih hent hq hqc hshaped hfull hu
          · have hroom : cks.length < 2 * B - 1 := by
              have := hshaped.1
              omega
            simp only [SearchTree.insert, if_pos hroom] at hu
            obtain ⟨u', hu', rfl⟩ := Option.map_eq_some_iff.mp hu
            exact descend_down hnext ih hent hq hqc hshaped hroom hu'

end Descent

end Contrees.Trees.Bnode
