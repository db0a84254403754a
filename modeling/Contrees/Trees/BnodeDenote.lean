import Contrees.Trees.Bnode
import Mathlib.Data.List.Forall2
import Mathlib.Data.List.InsertIdx

namespace Contrees.Trees.Bnode

open Library Library.Memory Library.SearchTree

variable {ι : Type} {K : Kind ι} {S S' : NodePtr ι → Prop} {h h' : NodeHeap ι}

abbrev NodeTree (ι : Type) := Multiway ι Nat (Option Nat)

mutual
/-- The tree that a heap holds under a pointer, all of its nodes in `S`. -/
def Denotes (K : Kind ι) (S : NodePtr ι → Prop) (h : NodeHeap ι) :
    NodePtr ι → NodeTree ι → Prop
  | p, .leaf a ks vs => S p ∧ K.isLeaf a = true ∧
      (∃ ver, h (p, Field.head) = some ⟨ver, a, ks, vs⟩) ∧ h (p, Field.chs) = none
  | p, .node a ks cs => S p ∧ K.isLeaf a = false ∧
      (∃ ver vs, h (p, Field.head) = some ⟨ver, a, ks, vs⟩) ∧
      ∃ ps, h (p, Field.chs) = some ps ∧ DenotesList K S h ps cs
def DenotesList (K : Kind ι) (S : NodePtr ι → Prop) (h : NodeHeap ι) :
    List (NodePtr ι) → List (NodeTree ι) → Prop
  | ps, [] => ps = []
  | ps, c :: cs => ∃ q qs, ps = q :: qs ∧ Denotes K S h q c ∧ DenotesList K S h qs cs
end

theorem DenotesList.iff {ps : List (NodePtr ι)} {cs : List (NodeTree ι)} :
    DenotesList K S h ps cs ↔ List.Forall₂ (Denotes K S h) ps cs := by
  induction cs generalizing ps with
  | nil => simp [DenotesList]
  | cons c cs ih =>
      cases ps with
      | nil => simp [DenotesList]
      | cons p ps => simp [DenotesList, ih]

def heapOf [DecidableEq ι] (blocks : List (NodePtr ι × Head ι × Option (List (NodePtr ι)))) :
    NodeHeap ι :=
  fun l => (blocks.find? (fun b => b.1 = l.1)).bind (fun b => cells b.2.1 b.2.2 l.2)

theorem Denotes.frame {p : NodePtr ι} {t : NodeTree ι} (hp : Denotes K S h p t)
    (hS : ∀ q, S q → S' q ∧ ∀ f, h' (q, f) = h (q, f)) : Denotes K S' h' p t := by
  induction t using Multiway.inductionOn generalizing p with
  | leaf a ks vs =>
      obtain ⟨hs, ha, ⟨ver, hhead⟩, hchs⟩ := hp
      exact ⟨(hS p hs).1, ha, ⟨ver, by rw [(hS p hs).2, hhead]⟩, by rw [(hS p hs).2, hchs]⟩
  | node a ks cs ih =>
      obtain ⟨hs, ha, ⟨ver, vs, hhead⟩, ps, hchs, hps⟩ := hp
      refine ⟨(hS p hs).1, ha, ⟨ver, vs, by rw [(hS p hs).2, hhead]⟩,
        ps, by rw [(hS p hs).2, hchs], ?_⟩
      rw [DenotesList.iff] at hps ⊢
      clear hchs hhead
      induction hps with
      | nil => exact .nil
      | cons hq _ ihq => exact .cons (ih _ (by simp) hq) (ihq (fun c hc => ih c (by simp [hc])))

theorem Denotes.unique {p : NodePtr ι} {t t' : NodeTree ι} (hp : Denotes K S h p t)
    (hp' : Denotes K S' h p t') : t = t' := by
  induction t using Multiway.inductionOn generalizing p t' with
  | leaf a ks vs =>
      obtain ⟨-, ha, ⟨ver, hhead⟩, -⟩ := hp
      cases t' with
      | leaf a' ks' vs' =>
          obtain ⟨-, -, ⟨ver', hhead'⟩, -⟩ := hp'
          rw [hhead] at hhead'
          injection hhead' with heq
          injection heq with _ ha hks hvs
          rw [ha, hks, hvs]
      | node a' ks' cs' =>
          obtain ⟨-, ha', ⟨ver', vs', hhead'⟩, -⟩ := hp'
          rw [hhead] at hhead'
          injection hhead' with heq
          injection heq with _ heq _ _
          rw [← heq, ha] at ha'
          exact absurd ha' (by simp)
  | node a ks cs ih =>
      obtain ⟨-, ha, ⟨ver, vs, hhead⟩, ps, hchs, hps⟩ := hp
      cases t' with
      | leaf a' ks' vs' =>
          obtain ⟨-, ha', ⟨ver', hhead'⟩, -⟩ := hp'
          rw [hhead] at hhead'
          injection hhead' with heq
          injection heq with _ heq _ _
          rw [← heq, ha] at ha'
          exact absurd ha' (by simp)
      | node a' ks' cs' =>
          obtain ⟨-, -, ⟨ver', vs', hhead'⟩, ps', hchs', hps'⟩ := hp'
          rw [hhead] at hhead'
          injection hhead' with heq
          injection heq with _ ha hks _
          rw [hchs] at hchs'
          obtain rfl := Option.some.inj hchs'
          have hcs : cs = cs' := by
            clear hchs hchs'
            induction cs generalizing ps cs' with
            | nil =>
                obtain rfl : ps = [] := hps
                cases cs' with
                | nil => rfl
                | cons c' cs' =>
                    obtain ⟨q, qs, hnil, -⟩ := hps'
                    cases hnil
            | cons c cs ihcs =>
                obtain ⟨q, qs, rfl, hq, hqs⟩ := hps
                cases cs' with
                | nil => cases (hps' : q :: qs = [])
                | cons c' cs' =>
                    obtain ⟨q', qs', heq, hq', hqs'⟩ := hps'
                    injection heq with hqq hqqs
                    subst hqq hqqs
                    rw [ih c (by simp) hq hq',
                      ihcs (fun d hd => ih d (by simp [hd])) qs hqs cs' hqs']
          rw [ha, hks, hcs]

theorem DenotesList.frame {ps : List (NodePtr ι)} {cs : List (NodeTree ι)}
    (hps : DenotesList K S h ps cs) (hS : ∀ q, S q → S' q ∧ ∀ f, h' (q, f) = h (q, f)) :
    DenotesList K S' h' ps cs := by
  rw [DenotesList.iff] at hps ⊢
  exact hps.imp (fun _ _ hq => hq.frame hS)

theorem Denotes.mem {p : NodePtr ι} {t : NodeTree ι} (hp : Denotes K S h p t) : S p := by
  cases t with
  | leaf a ks vs => exact hp.1
  | node a ks cs => exact hp.1

theorem DenotesList.length {ps : List (NodePtr ι)} {cs : List (NodeTree ι)}
    (hps : DenotesList K S h ps cs) : ps.length = cs.length :=
  (DenotesList.iff.mp hps).length_eq

theorem DenotesList.get {ps : List (NodePtr ι)} {cs : List (NodeTree ι)} {i : Nat} {c : NodeTree ι}
    (hps : DenotesList K S h ps cs) (hc : cs[i]? = some c) :
    ∃ p, ps[i]? = some p ∧ Denotes K S h p c := by
  induction cs generalizing ps i with
  | nil => simp at hc
  | cons d ds ih =>
      obtain ⟨q, qs, rfl, hq, hqs⟩ := hps
      cases i with
      | zero =>
          obtain rfl : d = c := by simpa using hc
          exact ⟨q, rfl, hq⟩
      | succ i => simpa using ih hqs (i := i) (by simpa using hc)

theorem DenotesList.set {ps : List (NodePtr ι)} {cs : List (NodeTree ι)} {p : NodePtr ι}
    {c : NodeTree ι} (hps : DenotesList K S h ps cs) (hp : Denotes K S h p c) (i : Nat) :
    DenotesList K S h (ps.set i p) (cs.set i c) := by
  induction cs generalizing ps i with
  | nil =>
      obtain rfl : ps = [] := hps
      rfl
  | cons d ds ih =>
      obtain ⟨q, qs, rfl, hq, hqs⟩ := hps
      cases i with
      | zero => exact ⟨p, qs, rfl, hp, hqs⟩
      | succ i => exact ⟨q, qs.set i p, rfl, hq, ih hqs i⟩

theorem DenotesList.insertIdx {ps : List (NodePtr ι)} {cs : List (NodeTree ι)} {p : NodePtr ι}
    {c : NodeTree ι} (hps : DenotesList K S h ps cs) (hp : Denotes K S h p c) (i : Nat) :
    DenotesList K S h (ps.insertIdx i p) (cs.insertIdx i c) := by
  induction cs generalizing ps i with
  | nil =>
      obtain rfl : ps = [] := hps
      cases i with
      | zero => exact ⟨p, [], rfl, hp, rfl⟩
      | succ i => rfl
  | cons d ds ih =>
      obtain ⟨q, qs, rfl, hq, hqs⟩ := hps
      cases i with
      | zero => exact ⟨p, q :: qs, rfl, hp, q, qs, rfl, hq, hqs⟩
      | succ i => exact ⟨q, qs.insertIdx i p, rfl, hq, ih hqs i⟩

theorem DenotesList.take {ps : List (NodePtr ι)} {cs : List (NodeTree ι)}
    (hps : DenotesList K S h ps cs) (n : Nat) : DenotesList K S h (ps.take n) (cs.take n) := by
  rw [DenotesList.iff] at hps ⊢
  exact List.forall₂_take n hps

theorem DenotesList.drop {ps : List (NodePtr ι)} {cs : List (NodeTree ι)}
    (hps : DenotesList K S h ps cs) (n : Nat) : DenotesList K S h (ps.drop n) (cs.drop n) := by
  rw [DenotesList.iff] at hps ⊢
  exact List.forall₂_drop n hps

section Realization

variable [DecidableEq ι]

inductive Kinded (K : Kind ι) : NodeTree ι → Prop
  | leaf {a : ι} {ks : List Nat} {vs : List (Option Nat)} (ha : K.isLeaf a = true) :
      Kinded K (.leaf a ks vs)
  | node {a : ι} {ks : List Nat} {cs : List (NodeTree ι)} (ha : K.isLeaf a = false)
      (hcs : ∀ c ∈ cs, Kinded K c) : Kinded K (.node a ks cs)

def Serials (n m : Nat) (p : NodePtr ι) : Prop := p.owner = 0 ∧ n ≤ p.serial ∧ p.serial < m

/-- Every tree is the tree of some heap. -/
theorem Kinded.realized {T : NodeTree ι} (hT : Kinded K T) (n : Nat) :
    ∃ h p m, n ≤ m ∧ Denotes K (Serials n m) h p T := by
  induction hT generalizing n with
  | @leaf a ks vs ha =>
      refine ⟨heapOf [(⟨0, 0, n, a⟩, ⟨0, a, ks, vs⟩, none)], ⟨0, 0, n, a⟩, n + 1, Nat.le_succ n,
        ⟨rfl, le_rfl, Nat.lt_succ_self n⟩, ha, ⟨0, ?_⟩, ?_⟩
      all_goals simp [heapOf]
  | @node a ks cs ha hcs ih =>
      have hlist : ∃ h ps m, n ≤ m ∧ DenotesList K (Serials n m) h ps cs := by
        clear ha
        induction cs generalizing n with
        | nil => exact ⟨fun _ => none, [], n, le_rfl, rfl⟩
        | cons c cs ihcs =>
            obtain ⟨h₁, p, m₁, hm₁, hp⟩ := ih c (by simp) n
            obtain ⟨h₂, ps, m₂, hm₂, hps⟩ := ihcs (fun d hd => hcs d (by simp [hd]))
              (fun d hd => ih d (by simp [hd])) m₁
            refine ⟨fun l => if l.1.serial < m₁ then h₁ l else h₂ l, p :: ps, m₂, hm₁.trans hm₂,
              p, ps,
              rfl, hp.frame fun q hq => ?_, hps.frame fun q hq => ?_⟩
            · exact ⟨⟨hq.1, hq.2.1, hq.2.2.trans_le hm₂⟩, fun f => if_pos hq.2.2⟩
            · exact ⟨⟨hq.1, hm₁.trans hq.2.1, hq.2.2⟩, fun f => if_neg (not_lt.mpr hq.2.1)⟩
      obtain ⟨h, ps, m, hm, hps⟩ := hlist
      refine ⟨h.place ⟨0, 0, m, a⟩ (cells ⟨0, a, ks, []⟩ (some ps)), ⟨0, 0, m, a⟩, m + 1,
        Nat.le_succ_of_le hm, ⟨rfl, hm, Nat.lt_succ_self m⟩, ha, ⟨0, [], by simp⟩, ps, by simp, ?_⟩
      refine hps.frame fun q hq => ⟨⟨hq.1, hq.2.1, Nat.lt_succ_of_lt hq.2.2⟩, fun f => ?_⟩
      refine Heap.place_of_ne _ _ _ ?_
      rintro rfl
      exact (hq.2.2).false

end Realization

end Contrees.Trees.Bnode
