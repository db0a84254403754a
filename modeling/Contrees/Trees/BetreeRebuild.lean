import Contrees.Library.SearchTreeShape
import Contrees.Trees.BetreeMap

namespace Contrees.Trees.Betree

open Library Library.Memory Library.SearchTree Conctrl Bnode

section Definitions

mutual
def unfoldElems : NodeTree Ann → List (Nat × Option Nat)
  | .leaf _ ks vs => ks.zip vs
  | .node _ _ cs => unfoldElemsAll cs
def unfoldElemsAll : List (NodeTree Ann) → List (Nat × Option Nat)
  | [] => []
  | c :: cs => unfoldElems c ++ unfoldElemsAll cs
end

def rebuildEntire (h : Nat) (T : NodeTree Ann) : Option (NodeTree Ann) :=
  buildStored (annAt h) ⟨.leaf, 0, 0⟩ ⟨.leaf, h, 0⟩ (unfoldElems T)

abbrev Parts := List Nat × List (NodeTree Ann)

def Parts.join (k : Nat) (l r : Parts) : Parts := (l.1 ++ k :: r.1, l.2 ++ r.2)

mutual
/-- `none` stands for taking the values of a LEAF for children. -/
def unfoldExtra : NodeTree Ann → Option Parts
  | .leaf a ks vs => if a.height = 0 then some ([], [.leaf a ks vs]) else none
  | .node a ks cs => if a.height = 0 then some ([], [.node a ks cs]) else unfoldExtraAll ks cs
def unfoldExtraAll : List Nat → List (NodeTree Ann) → Option Parts
  | _, [] => none
  | [], c :: _ => unfoldExtra c
  | k :: ks, c :: cs =>
      (unfoldExtra c).bind (fun l => (unfoldExtraAll ks cs).map (fun r => Parts.join k l r))
end

mutual
/-- Every node that is no BOUNDARY is taken for one with children. -/
def unfoldUpperPart : NodeTree Ann → Option Parts
  | .leaf _ _ _ => none
  | .node a ks cs => if a.type = .boundary then unfoldExtraAll ks cs else unfoldUpperAll ks cs
def unfoldUpperAll : List Nat → List (NodeTree Ann) → Option Parts
  | _, [] => none
  | [], c :: _ => unfoldUpperPart c
  | k :: ks, c :: cs =>
      (unfoldUpperPart c).bind (fun l => (unfoldUpperAll ks cs).map (fun r => Parts.join k l r))
end

def rebuildInternal (h : Nat) (T : NodeTree Ann) : Option (NodeTree Ann) :=
  (unfoldUpperPart T).bind (fun p =>
    buildInternal (annAt h) (0 :: p.1).length ((0 :: p.1).zip p.2))

/-- Follows the first child only. -/
def leafOverBoundary : Nat → NodeTree Ann → Option Bool
  | _, .leaf _ _ _ => some true
  | 0, .node _ _ _ => some false
  | _ + 1, .node _ _ [] => none
  | h + 1, .node _ _ (c :: _) => leafOverBoundary h c

def rebuild (T : NodeTree Ann) (h : Nat) : Option (NodeTree Ann) :=
  (leafOverBoundary h T).bind (fun b => if b then rebuildEntire h T else rebuildInternal h T)

def vergeOf : NodeTree Ann → Nat
  | .leaf a _ _ => a.verge
  | .node a _ _ => a.verge

inductive LeafAbove : NodeTree Ann → Prop
  | leaf {a : Ann} {ks : List Nat} {vs : List (Option Nat)} : LeafAbove (.leaf a ks vs)
  | node {a : Ann} {ks : List Nat} {cs : List (NodeTree Ann)} {c : NodeTree Ann}
      (ha : a.type ≠ .boundary) (hc : c ∈ cs) (h : LeafAbove c) : LeafAbove (.node a ks cs)

end Definitions

section Unfolding

variable {T c : NodeTree Ann} {ks : List Nat} {cs : List (NodeTree Ann)} {lo hi : Option Nat}
  {Q : NodeTree Ann → Prop} {f : NodeTree Ann → Option Parts}

theorem unfoldElems_eq (T : NodeTree Ann) : unfoldElems T = T.pairs := by
  induction T using Multiway.inductionOn with
  | leaf a ks vs => simp [unfoldElems, Multiway.pairs, Multiway.leaves]
  | node a ks cs ih =>
      rw [unfoldElems, Multiway.pairs, Multiway.leaves]
      clear ks
      induction cs with
      | nil => rfl
      | cons c cs ihc =>
          rw [unfoldElemsAll, Multiway.leavesList, Multiway.pairsOf_append, ih c (by simp),
            ihc fun d hd => ih d (by simp [hd])]
          rfl

/-- Both unfoldings go through the children of a node in the same way. -/
def unfoldAll (f : NodeTree Ann → Option Parts) : List Nat → List (NodeTree Ann) → Option Parts
  | _, [] => none
  | [], c :: _ => f c
  | k :: ks, c :: cs => (f c).bind (fun l => (unfoldAll f ks cs).map (fun r => Parts.join k l r))

theorem unfoldExtraAll_eq (ks : List Nat) (cs : List (NodeTree Ann)) :
    unfoldExtraAll ks cs = unfoldAll unfoldExtra ks cs := by
  induction cs generalizing ks with
  | nil => cases ks <;> rfl
  | cons c cs ih =>
      cases ks with
      | nil => rfl
      | cons k ks => rw [unfoldExtraAll, unfoldAll, ih]

theorem unfoldUpperAll_eq (ks : List Nat) (cs : List (NodeTree Ann)) :
    unfoldUpperAll ks cs = unfoldAll unfoldUpperPart ks cs := by
  induction cs generalizing ks with
  | nil => cases ks <;> rfl
  | cons c cs ih =>
      cases ks with
      | nil => rfl
      | cons k ks => rw [unfoldUpperAll, unfoldAll, ih]

/-- The parts of a subtree: the nodes with a property that hold its leaves. -/
structure Unfolds (Q : NodeTree Ann → Prop) (lo hi : Option Nat)
    (leaves : List (List Nat × List (Option Nat))) (p : Parts) : Prop where
  ordered : Multiway.OrderedList lo hi p.1 p.2
  leaves : Multiway.leavesList p.2 = leaves
  all : ∀ c ∈ p.2, Q c

theorem unfoldAll_spec (hord : Multiway.OrderedList lo hi ks cs)
    (hf : ∀ c ∈ cs, ∀ lo hi, c.Ordered lo hi → ∃ p, f c = some p ∧ Unfolds Q lo hi c.leaves p) :
    ∃ p, unfoldAll f ks cs = some p ∧ Unfolds Q lo hi (Multiway.leavesList cs) p := by
  induction ks generalizing lo cs with
  | nil =>
      cases cs with
      | nil => exact hord.elim
      | cons c cs =>
          obtain ⟨rfl, hc⟩ := hord
          simpa [unfoldAll, Multiway.leavesList] using hf c (by simp) lo hi hc
  | cons k ks ih =>
      cases cs with
      | nil => exact hord.elim
      | cons c cs =>
          obtain ⟨hcut, hc, hrest⟩ := hord
          obtain ⟨l, hl, hlo⟩ := hf c (by simp) lo (some k) hc
          obtain ⟨r, hr, hro⟩ := ih hrest fun d hd => hf d (by simp [hd])
          refine ⟨Parts.join k l r, by simp [unfoldAll, hl, hr], ?_, ?_, ?_⟩
          · exact Multiway.OrderedList.append hcut hlo.ordered hro.ordered
          · rw [Parts.join, Multiway.leavesList_append, hlo.leaves, hro.leaves, Multiway.leavesList]
          · intro x hx
            rcases List.mem_append.mp hx with hx | hx
            exacts [hlo.all x hx, hro.all x hx]

theorem unfoldAll_none (hlen : cs.length = ks.length + 1) (hc : c ∈ cs) (hf : f c = none) :
    unfoldAll f ks cs = none := by
  induction ks generalizing cs with
  | nil =>
      obtain ⟨d, rfl⟩ := List.length_eq_one_iff.mp hlen
      obtain rfl : c = d := by simpa using hc
      exact hf
  | cons k ks ih =>
      cases cs with
      | nil => simp at hc
      | cons d cs =>
          rcases List.mem_cons.mp hc with rfl | hc
          · simp [unfoldAll, hf]
          · simp [unfoldAll, ih (by simpa using hlen) hc]

theorem unfoldAll_count {n : Nat} {p : Parts} (hlen : cs.length = ks.length + 1)
    (hf : ∀ c ∈ cs, ∀ p, f c = some p → n ≤ p.2.length) (hp : unfoldAll f ks cs = some p) :
    cs.length * n ≤ p.2.length := by
  induction ks generalizing cs p with
  | nil =>
      obtain ⟨d, rfl⟩ := List.length_eq_one_iff.mp hlen
      simpa using hf d (by simp) p hp
  | cons k ks ih =>
      cases cs with
      | nil => simp at hlen
      | cons d cs =>
          obtain ⟨l, hl, hp⟩ := Option.bind_eq_some_iff.mp hp
          obtain ⟨r, hr, rfl⟩ := Option.map_eq_some_iff.mp hp
          have hd := hf d (by simp) l hl
          have hrest := ih (by simpa using hlen) (fun c hc => hf c (by simp [hc])) hr
          rw [List.length_cons, Nat.succ_mul, Parts.join, List.length_append]
          omega

end Unfolding

section Tiers

variable {T c : NodeTree Ann} {a : Ann} {ks : List Nat} {cs : List (NodeTree Ann)}
  {lo hi : Option Nat} {b e D h L d m key val : Nat}

def lowerType (d : Nat) : NodeType := if d = 0 then .leaf else .lower

def partAnn (b d : Nat) (a : Ann) : Prop := a.type = lowerType d ∧ a.height = d - b

theorem partAnn_elastic {a : Ann} (ha : partAnn b d a) : Elastic a := by
  rw [Elastic, ha.1, lowerType]
  split
  exacts [.inr rfl, .inl rfl]

/-- An elastic part of height `e` over bases of depth `b`. -/
structure Part (b e : Nat) (c : NodeTree Ann) : Prop where
  shaped : c.Shaped B B (b + e)
  graded : c.Graded (partAnn b) (b + e)
  filled : c.Filled B (if e = 0 then B else 2)

/-- A betree below its root: BOUNDARY nodes, and leaves not split yet, at distance
`D`. Over a LEAF that split the bases are leaves; the other BOUNDARY nodes were
built, and have as many children as every node that was. -/
inductive Tiered (b : Nat) : Nat → Nat → NodeTree Ann → Prop
  | leaf {m : Nat} {a : Ann} {ks : List Nat} {vs : List (Option Nat)} (hb : b = 0)
      (ha : a.type = .leaf ∧ a.height = 0) (hmin : m ≤ ks.length) (hmax : ks.length ≤ 2 * B - 1)
      (hlen : vs.length = ks.length) : Tiered b 0 m (.leaf a ks vs)
  | boundary {m : Nat} {a : Ann} {ks : List Nat} {cs : List (NodeTree Ann)}
      (ha : a.type = .boundary) (hlen : cs.length = ks.length + 1) (htwo : 2 ≤ cs.length)
      (hm : 0 < b → m ≤ cs.length)
      (hcs : ∀ c ∈ cs, ∃ e, Part b e c) : Tiered b 0 m (.node a ks cs)
  | upper {m D : Nat} {a : Ann} {ks : List Nat} {cs : List (NodeTree Ann)} (ha : a.type = .upper)
      (hlen : cs.length = ks.length + 1) (htwo : 2 ≤ cs.length) (hm : m ≤ cs.length)
      (hcs : ∀ c ∈ cs, Tiered b D B c) : Tiered b (D + 1) m (.node a ks cs)

theorem Tiered.layered (hT : Tiered b D m T) : Layered m T := by
  induction hT with
  | leaf hb ha hmin hmax hlen => exact .leaf ha.1 hmin hmax hlen
  | boundary ha hlen htwo hm hcs =>
      refine .boundary ha hlen fun c hc => ?_
      obtain ⟨e, hp⟩ := hcs c hc
      exact ⟨hp.graded.all fun _ _ => partAnn_elastic, _, hp.shaped⟩
  | upper ha hlen htwo hm hcs ih => exact .upper ha hlen ih

def flatAnn (d : Nat) (a : Ann) : Prop := a.type = lowerType d ∧ a.height = 0

structure Base (b : Nat) (c : NodeTree Ann) : Prop where
  shaped : c.Shaped B B b
  graded : c.Graded flatAnn b
  filled : c.Filled B B

theorem unfoldExtra_flat (hc : c.Graded flatAnn d) : unfoldExtra c = some ([], [c]) := by
  cases hc with
  | leaf ha => rw [unfoldExtra, if_pos ha.2]
  | node ha => rw [unfoldExtra, if_pos ha.2]

theorem unfoldExtra_spec (hp : Part b e c) (hord : c.Ordered lo hi) :
    ∃ p, unfoldExtra c = some p ∧ Unfolds (Base b) lo hi c.leaves p := by
  induction e generalizing c lo hi with
  | zero =>
      have hflat : c.Graded flatAnn b := hp.graded.imp fun d hd a ha =>
        ⟨ha.1, ha.2.trans (Nat.sub_eq_zero_of_le hd)⟩
      exact ⟨_, unfoldExtra_flat hflat, ⟨rfl, hord⟩, by simp [Multiway.leavesList], by
        simpa using ⟨hp.shaped, hflat, hp.filled⟩⟩
  | succ e ih =>
      obtain ⟨hshaped, hgraded, hfilled⟩ := hp
      rw [← Nat.add_assoc] at hshaped hgraded
      cases hgraded with
      | @node _ a ks cs ha hcs =>
          have hheight : a.height ≠ 0 := by
            have := ha.2
            omega
          cases hfilled with
          | node _ hfill =>
              rw [unfoldExtra, if_neg hheight, unfoldExtraAll_eq]
              refine unfoldAll_spec hord fun x hx lo hi hxo =>
                ih ⟨hshaped.2.2 x hx, hcs x hx, ?_⟩ hxo
              split
              exacts [hfill x hx, (hfill x hx).mono (by decide)]

theorem unfoldUpperPart_spec (hT : Tiered b D m T) (habove : ¬ LeafAbove T)
    (hord : T.Ordered lo hi) :
    ∃ p, unfoldUpperPart T = some p ∧ Unfolds (Base b) lo hi T.leaves p := by
  induction hT generalizing lo hi with
  | leaf => exact absurd .leaf habove
  | boundary ha hlen htwo hm hcs =>
      rw [unfoldUpperPart, if_pos ha, unfoldExtraAll_eq]
      refine unfoldAll_spec hord fun x hx lo hi hxo => ?_
      obtain ⟨e, hp⟩ := hcs x hx
      exact unfoldExtra_spec hp hxo
  | @upper _ _ a ks cs ha hlen htwo hm hcs ih =>
      have hne : a.type ≠ .boundary := by simp [ha]
      rw [unfoldUpperPart, if_neg hne, unfoldUpperAll_eq]
      exact unfoldAll_spec hord fun x hx lo hi hxo => ih x hx (fun h => habove (.node hne hx h)) hxo

theorem unfoldUpperPart_none (hT : Tiered b D m T) (habove : LeafAbove T) :
    unfoldUpperPart T = none := by
  induction hT with
  | leaf => rfl
  | boundary ha hlen htwo hm hcs =>
      cases habove with
      | node hne => exact absurd ha hne
  | upper ha hlen htwo hm hcs ih =>
      cases habove with
      | node hne hc h =>
          rw [unfoldUpperPart, if_neg hne, unfoldUpperAll_eq]
          exact unfoldAll_none hlen hc (ih _ hc h)

theorem unfolds_count {p : Parts} {ls : List (List Nat × List (Option Nat))}
    (hp : Unfolds (Base b) lo hi ls p) : 1 ≤ p.2.length := by
  have := hp.ordered.length
  omega

/-- The upper part of a tree whose BOUNDARY nodes are all at distance `D`. -/
inductive Tall : Nat → Nat → NodeTree Ann → Prop
  | boundary {m : Nat} {a : Ann} {ks : List Nat} {cs : List (NodeTree Ann)}
      (ha : a.type = .boundary) (hm : m ≤ cs.length) : Tall 0 m (.node a ks cs)
  | upper {m D : Nat} {a : Ann} {ks : List Nat} {cs : List (NodeTree Ann)} (ha : a.type = .upper)
      (hm : m ≤ cs.length) (hcs : ∀ c ∈ cs, Tall D B c) : Tall (D + 1) m (.node a ks cs)

theorem Tiered.tall (hT : Tiered b D m T) (hb : 0 < b) : Tall D m T := by
  induction hT with
  | leaf h => omega
  | boundary ha hlen htwo hm hcs => exact .boundary ha (hm hb)
  | upper ha hlen htwo hm hcs ih => exact .upper ha hm ih

theorem unfoldUpperPart_count {p : Parts} (htall : Tall h m T) (hT : Tiered b D L T)
    (hord : T.Ordered lo hi) (hp : unfoldUpperPart T = some p) : max 2 m * B ^ h ≤ p.2.length := by
  induction htall generalizing D L lo hi p with
  | @boundary m a ks cs ha hm =>
      rw [unfoldUpperPart, if_pos ha, unfoldExtraAll_eq] at hp
      cases hT with
      | upper ha' => simp [ha] at ha'
      | boundary _ hlen htwo _ hcs =>
          have hcount : cs.length * 1 ≤ p.2.length := unfoldAll_count hlen (fun c hc q hq => by
            obtain ⟨e, hpart⟩ := hcs c hc
            obtain ⟨lo', hi', hco⟩ := Multiway.OrderedList.mem hord c hc
            obtain ⟨q', hq', hu⟩ := unfoldExtra_spec hpart hco
            obtain rfl := Option.some.inj (hq.symm.trans hq')
            exact unfolds_count hu) hp
          rw [Nat.mul_one] at hcount
          rw [pow_zero, Nat.mul_one]
          exact (max_le htwo hm).trans hcount
  | @upper m h a ks cs ha hm hcs ih =>
      have hne : a.type ≠ .boundary := by simp [ha]
      rw [unfoldUpperPart, if_neg hne, unfoldUpperAll_eq] at hp
      cases hT with
      | boundary ha' => exact absurd ha' hne
      | upper _ hlen htwo _ htiers =>
          have hcount : cs.length * (max 2 B * B ^ h) ≤ p.2.length :=
            unfoldAll_count hlen (fun c hc q hq => by
              obtain ⟨lo', hi', hco⟩ := Multiway.OrderedList.mem hord c hc
              exact ih c hc (htiers c hc) hco hq) hp
          have hpow : max 2 B * B ^ h = B ^ (h + 1) := by rw [pow_succ, Nat.mul_comm]; rfl
          rw [hpow] at hcount
          exact (Nat.mul_le_mul_right _ (max_le htwo hm)).trans hcount

end Tiers

section Building

variable {T : NodeTree Ann} {b h L d fuel n : Nat} {Q : NodeTree Ann → Prop}

theorem lt_depth (hn : 2 * B ^ h ≤ n) (hfuel : n ≤ fuel) : h < depth fuel n := by
  induction h generalizing n fuel with
  | zero => exact depth_pos fuel n
  | succ h ih =>
      have hB := B_pos
      have hle : 2 * B ≤ n := by
        refine le_trans ?_ hn
        rw [pow_succ]
        exact Nat.mul_le_mul_left 2 (Nat.le_mul_of_pos_left B (Nat.pow_pos hB))
      cases fuel with
      | zero => omega
      | succ fuel =>
          rw [depth, if_neg (not_lt.mpr hle)]
          refine Nat.succ_lt_succ (ih ?_ ?_)
          · rw [Nat.le_div_iff_mul_le hB, Nat.mul_assoc, ← pow_succ]
            exact hn
          · have := Nat.div_lt_self (by omega : 0 < n) (by decide : 1 < B)
            omega

/-- What `build_internal` puts over nodes with a property, which stand at
distance `L` from the root. -/
inductive Over (Q : NodeTree Ann → Prop) (h L : Nat) : Nat → NodeTree Ann → Prop
  | base {T : NodeTree Ann} (hQ : Q T) : Over Q h L L T
  | node {d : Nat} {ks : List Nat} {cs : List (NodeTree Ann)} (hm : minChildren d ≤ cs.length)
      (hcs : ∀ c ∈ cs, Over Q h L (d + 1) c) : Over Q h L d (.node (annAt h d) ks cs)

theorem minChildren_two (d : Nat) : 2 ≤ minChildren d := by
  rw [minChildren]
  split <;> decide

theorem Over.le (hT : Over Q h L d T) : d ≤ L := by
  induction hT with
  | base => exact le_rfl
  | @node d ks cs hm hcs ih =>
      obtain ⟨c, hc⟩ :=
        List.exists_mem_of_length_pos (l := cs) (by have := minChildren_two d; omega)
      have := ih c hc
      omega

theorem over_internalOf : Inherits (annAt h) (fun d c => Over Q h L d c.2) := by
  intro d chs hmin _ hchs
  refine .node (by simpa using hmin) fun c hc => ?_
  obtain ⟨x, hx, rfl⟩ := List.mem_map.mp hc
  exact hchs x hx

theorem Over.flat (hT : Over (Base b) h L d T) (hd : h < d) :
    T.Graded flatAnn (b + (L - d)) ∧ T.Filled B B := by
  induction hT with
  | base hQ => exact ⟨by simpa using hQ.graded, hQ.filled⟩
  | @node d ks cs hm hcs ih =>
      have hpos : d ≠ 0 := by omega
      have hann : (annAt h d).height = 0 := by cases d <;> rfl
      obtain ⟨c, hc⟩ :=
        List.exists_mem_of_length_pos (l := cs) (by have := minChildren_two d; omega)
      have hle := (hcs c hc).le
      have hdL : L - d = L - (d + 1) + 1 := by omega
      rw [hdL]
      refine ⟨.node ⟨?_, hann⟩ fun c hc => (ih c hc (by omega)).1, .node ?_ fun c hc =>
        (ih c hc (by omega)).2⟩
      · rw [annAt_type, if_neg (by omega), if_neg (by omega)]
        rfl
      · simpa [minChildren, hpos] using hm

theorem part_of_flat {c : NodeTree Ann} (hs : c.Shaped B B b)
    (hc : c.Graded flatAnn b ∧ c.Filled B B) : Part b 0 c :=
  ⟨hs, hc.1.imp fun _ he _ ha => ⟨ha.1, ha.2.trans (Nat.sub_eq_zero_of_le he).symm⟩, hc.2⟩

theorem Over.shaped {m : Nat} (hT : Over (Base b) h L d T) {e : Nat} (hs : T.Shaped m B e) :
    e = b + (L - d) := by
  have hunique : ∀ {T : NodeTree Ann} {m m' e e' : Nat}, T.Shaped m B e → T.Shaped m' B e' →
      e = e' := by
    intro T m m' e e' h h'
    induction e generalizing T e' with
    | zero => cases T <;> cases e' <;> simp_all [Multiway.Shaped]
    | succ e ihe =>
        cases T with
        | leaf => exact h.elim
        | node a ks cs =>
            cases e' with
            | zero => exact h'.elim
            | succ e' =>
                obtain ⟨c, hc⟩ := List.exists_mem_of_length_pos (l := cs) (by have := h.2.1; omega)
                rw [ihe (h.2.2 c hc) (h'.2.2 c hc)]
  induction hT generalizing e with
  | base hQ => simpa using hunique hs hQ.shaped
  | @node d ks cs hm hcs ih =>
      cases e with
      | zero => exact hs.elim
      | succ e =>
          obtain ⟨c, hc⟩ := List.exists_mem_of_length_pos (l := cs) (by have := hs.2.1; omega)
          have hle := (hcs c hc).le
          have := ih c hc (hs.2.2 c hc)
          omega

def leastSize (d : Nat) : Nat := if d = 0 then 0 else B

theorem leastSize_le (d : Nat) : leastSize d ≤ minChildren d := by
  rw [leastSize, minChildren]
  split <;> decide

theorem Over.tall (hT : Over (Base b) h L d T) (hd : d ≤ h) (hL : h < L)
    (hs : T.Shaped B B (b + (L - d))) :
    Tiered (b + (L - h - 1)) (h - d) (leastSize d) T := by
  induction hT with
  | base => omega
  | @node d ks cs hm hcs ih =>
      have hdL : L - d = L - (d + 1) + 1 := by omega
      rw [hdL, ← Nat.add_assoc] at hs
      obtain ⟨-, hlen, hall⟩ := hs
      have htwo := (minChildren_two d).trans hm
      have hleast := (leastSize_le d).trans hm
      by_cases hlt : d < h
      · have hD : h - d = h - (d + 1) + 1 := by omega
        rw [hD]
        refine .upper ?_ hlen htwo hleast fun c hc => ih c hc hlt (hall c hc)
        rw [annAt_type, if_pos hlt]
      · obtain rfl : d = h := by omega
        rw [Nat.sub_self]
        refine .boundary ?_ hlen htwo (fun _ => hleast) fun c hc => ⟨0, part_of_flat ?_ ?_⟩
        · rw [annAt_type, if_neg hlt, if_pos rfl]
        · exact hall c hc
        · exact (hcs c hc).flat (Nat.lt_succ_self d)

theorem Over.short (hT : Over (Base 0) h L d T) (hL : L ≤ h) (hs : T.Shaped B B (L - d)) :
    Tiered 0 (L - d) (leastSize d) T := by
  induction hT with
  | @base T hQ =>
      rw [Nat.sub_self] at hs ⊢
      cases hQ.graded with
      | @leaf a ks vs ha =>
          have hleast : leastSize L ≤ B := by
            rw [leastSize]
            split
            exacts [Nat.zero_le B, le_rfl]
          exact .leaf rfl ha (hleast.trans hs.1) hs.2.1 hs.2.2
  | @node d ks cs hm hcs ih =>
      obtain ⟨c, hc⟩ :=
        List.exists_mem_of_length_pos (l := cs) (by have := minChildren_two d; omega)
      have hle := (hcs c hc).le
      have hdL : L - d = L - (d + 1) + 1 := by omega
      rw [hdL] at hs ⊢
      obtain ⟨-, hlen, hall⟩ := hs
      refine .upper ?_ hlen ((minChildren_two d).trans hm) ((leastSize_le d).trans hm)
        fun c hc => ih c hc (hall c hc)
      rw [annAt_type, if_pos (by omega)]

/-- A betree under a root that records the boundary `h`: where the bases are no
leaves, the BOUNDARY nodes are at distance `h`. -/
structure Reached (h : Nat) (T : NodeTree Ann) : Prop where
  ordered : T.Ordered none none
  keys : ∀ k ∈ keysOf T.leaves, k < 2 ^ 64
  verge : vergeOf T = h
  tiers : ∃ b D, Tiered b D 0 T ∧ D ≤ h ∧ (0 < b → D = h)

theorem Over.reached (hT : Over (Base b) h L 0 T) (hL : 0 < L) (hb : 0 < b → h < L)
    (hord : T.Ordered none none) (hkeys : ∀ k ∈ keysOf T.leaves, k < 2 ^ 64)
    (hs : ∃ d, T.Shaped B B (d + 1)) : Reached h T := by
  obtain ⟨e, hs⟩ := hs
  rw [hT.shaped hs] at hs
  refine ⟨hord, hkeys, ?_, ?_⟩
  · cases hT with
    | base => exact hL.false.elim
    | node => rfl
  · by_cases hlt : h < L
    · exact ⟨_, _, hT.tall (Nat.zero_le h) hlt hs, Nat.sub_le h 0, fun _ => rfl⟩
    · obtain rfl : b = 0 := by
        by_contra hne
        exact hlt (hb (Nat.pos_of_ne_zero hne))
      rw [Nat.zero_add] at hs
      exact ⟨0, _, hT.short (not_lt.mp hlt) hs, (Nat.sub_le L 0).trans (not_lt.mp hlt),
        fun h => h.false.elim⟩

theorem keys_of_pairs {T' : NodeTree Ann} (hT : T.Ordered none none) (hT' : T'.Ordered none none)
    (hpairs : T'.pairs = T.pairs) (hkeys : ∀ k ∈ keysOf T.leaves, k < 2 ^ 64) :
    ∀ k ∈ keysOf T'.leaves, k < 2 ^ 64 := by
  rwa [← hT'.map_fst_pairs, hpairs, hT.map_fst_pairs]

theorem buildStored_reached (h : Nat) {elems : List (Nat × Option Nat)}
    (hs : (elems.map Prod.fst).Pairwise (· < ·)) (hkeys : ∀ k ∈ elems.map Prod.fst, k < 2 ^ 64) :
    ∃ T, buildStored (annAt h) ⟨.leaf, 0, 0⟩ ⟨.leaf, h, 0⟩ elems = some T ∧ Reached h T ∧
      T.pairs = elems := by
  obtain ⟨T, hT, hord, hpairs, hcase⟩ : ∃ T,
      buildStored (annAt h) ⟨.leaf, 0, 0⟩ ⟨.leaf, h, 0⟩ elems = some T ∧ T.Ordered none none ∧
        T.pairs = elems ∧ (elems.length < 2 * B ∧ T = leafOver ⟨.leaf, h, 0⟩ elems ∨
          2 * B ≤ elems.length ∧ (∃ d, T.Shaped B B (d + 1)) ∧
            Over (Base 0) h (depth elems.length (elems.length / B)) 0 T) := by
    refine buildStored_spec over_internalOf hs fun c hmin hmax => .base ⟨?_, .leaf ⟨rfl, rfl⟩,
      .leaf⟩
    exact ⟨by simpa using hmin, by simpa using hmax, by simp⟩
  have hkeysT : ∀ k ∈ keysOf T.leaves, k < 2 ^ 64 := by
    rwa [← hord.map_fst_pairs, hpairs]
  refine ⟨T, hT, ?_, hpairs⟩
  rcases hcase with ⟨hlt, rfl⟩ | ⟨-, hshaped, hover⟩
  · refine ⟨hord, hkeysT, rfl, 0, 0, .leaf rfl ⟨rfl, rfl⟩ (Nat.zero_le _) ?_ (by simp),
      Nat.zero_le h,
      fun h => h.false.elim⟩
    rw [List.length_map]
    omega
  · exact hover.reached (depth_pos _ _) (fun h => h.false.elim) hord hkeysT hshaped

theorem rebuildEntire_reached (hT : Reached h T) :
    ∃ T', rebuildEntire h T = some T' ∧ Reached h T' ∧ T'.pairs = T.pairs := by
  rw [rebuildEntire, unfoldElems_eq]
  refine buildStored_reached h ?_ ?_
  · rw [hT.ordered.map_fst_pairs]
    exact hT.ordered.keys_ascend
  · rw [hT.ordered.map_fst_pairs]
    exact hT.keys

theorem unfoldUpperPart_two {D m : Nat} {p : Parts} {lo hi : Option Nat} (hT : Tiered b D m T)
    (habove : ¬ LeafAbove T) (hord : T.Ordered lo hi) (hp : unfoldUpperPart T = some p) :
    2 ≤ p.2.length := by
  cases hT with
  | leaf => exact absurd .leaf habove
  | boundary ha hlen htwo hm hcs =>
      rw [unfoldUpperPart, if_pos ha, unfoldExtraAll_eq] at hp
      refine htwo.trans ?_
      rw [← Nat.mul_one (List.length _)]
      refine unfoldAll_count hlen (fun c hc q hq => ?_) hp
      obtain ⟨e, hpart⟩ := hcs c hc
      obtain ⟨lo', hi', hco⟩ := Multiway.OrderedList.mem hord c hc
      obtain ⟨q', hq', hu⟩ := unfoldExtra_spec hpart hco
      obtain rfl := Option.some.inj (hq.symm.trans hq')
      exact unfolds_count hu
  | @upper _ D a ks cs ha hlen htwo hm hcs =>
      have hne : a.type ≠ .boundary := by simp [ha]
      rw [unfoldUpperPart, if_neg hne, unfoldUpperAll_eq] at hp
      refine htwo.trans ?_
      rw [← Nat.mul_one (List.length _)]
      refine unfoldAll_count hlen (fun c hc q hq => ?_) hp
      obtain ⟨lo', hi', hco⟩ := Multiway.OrderedList.mem hord c hc
      obtain ⟨q', hq', hu⟩ := unfoldUpperPart_spec (hcs c hc) (fun h => habove (.node hne hc h)) hco
      obtain rfl := Option.some.inj (hq.symm.trans hq')
      exact unfolds_count hu

/-- The bases that an unfolding pushes are the leaves of what is built on them. -/
theorem rebuildInternal_spec {p : Parts} {R : Nat → Nat × NodeTree Ann → Prop}
    (hp : unfoldUpperPart T = some p) (hu : Unfolds (Base b) none none T.leaves p)
    (htwo : 2 ≤ p.2.length) (hR : Inherits (annAt h) R)
    (hbase : ∀ x, x.2 ∈ p.2 → R (depth p.2.length p.2.length) x) :
    ∃ T', rebuildInternal h T = some T' ∧ T'.Ordered none none ∧ (∃ d, T'.Shaped B B (d + 1)) ∧
      T'.pairs = T.pairs ∧ ∃ k, R 0 (k, T') := by
  have hlen : p.2.length = (0 :: p.1).length := hu.ordered.length
  have hzip : ((0 :: p.1).zip p.2).length = (0 :: p.1).length := by
    rw [List.length_zip, hlen, Nat.min_self]
  have hsnd : ((0 :: p.1).zip p.2).map Prod.snd = p.2 := List.map_snd_zip hlen.le
  have htail : ((0 :: p.1).zip p.2).tail.map Prod.fst = p.1 := by
    rw [List.map_tail, List.map_fst_zip hlen.ge, List.tail_cons]
  have hmem : ∀ x ∈ (0 :: p.1).zip p.2, x.2 ∈ p.2 := fun x hx => by
    rw [← hsnd]
    exact List.mem_map.mpr ⟨x, hx, rfl⟩
  obtain ⟨T', hT', hord, hshaped, hleaves, hR0⟩ : ∃ T',
      buildInternal (annAt h) (0 :: p.1).length ((0 :: p.1).zip p.2) = some T' ∧ _ := by
    refine buildInternal_spec hR _ _ (by rw [hzip, ← hlen]; exact htwo) hzip.le ?_
      (fun x hx => (hu.all x.2 (hmem x hx)).shaped) fun x hx => ?_
    · rw [Chained, htail, hsnd]
      exact hu.ordered
    · rw [hzip, ← hlen]
      exact hbase x (hmem x hx)
  refine ⟨T', by rw [rebuildInternal, hp]; exact hT', hord, hshaped, ?_, _, hR0⟩
  rw [Multiway.pairs, hleaves, hsnd, hu.leaves]
  rfl

theorem rebuildInternal_reached (hT : Reached h T) (habove : ¬ LeafAbove T) :
    ∃ T', rebuildInternal h T = some T' ∧ Reached h T' ∧ T'.pairs = T.pairs := by
  obtain ⟨b, D, htiers, hD, hbD⟩ := hT.tiers
  obtain ⟨p, hp, hu⟩ := unfoldUpperPart_spec htiers habove hT.ordered
  obtain ⟨T', hT', hord, hshaped, hpairs, -, hover⟩ : ∃ T', rebuildInternal h T = some T' ∧
      T'.Ordered none none ∧ (∃ d, T'.Shaped B B (d + 1)) ∧ T'.pairs = T.pairs ∧
        ∃ _ : Nat, Over (Base b) h (depth p.2.length p.2.length) 0 T' :=
    rebuildInternal_spec hp hu (unfoldUpperPart_two htiers habove hT.ordered hp) over_internalOf
      fun x hx => .base (hu.all x.2 hx)
  refine ⟨T', hT', ?_, hpairs⟩
  refine hover.reached (depth_pos _ _) (fun hb => ?_) hord
    (keys_of_pairs hT.ordered hord hpairs hT.keys) hshaped
  refine lt_depth ?_ le_rfl
  rw [← hbD hb]
  exact unfoldUpperPart_count (htiers.tall hb) htiers hT.ordered hp

theorem leafOverBoundary_shaped {m e n : Nat} (hs : T.Shaped m B e) :
    ∃ v, leafOverBoundary n T = some v := by
  induction n generalizing T m e with
  | zero => cases T <;> exact ⟨_, rfl⟩
  | succ n ih =>
      cases T with
      | leaf => exact ⟨true, rfl⟩
      | node a ks cs =>
          cases e with
          | zero => exact hs.elim
          | succ e =>
              obtain ⟨-, hlen, hall⟩ := hs
              cases cs with
              | nil => simp at hlen
              | cons c cs => exact ih (hall c (by simp))

theorem leafOverBoundary_tiered {D m n : Nat} (hT : Tiered b D m T) :
    ∃ v, leafOverBoundary n T = some v := by
  induction hT generalizing n with
  | leaf => cases n <;> exact ⟨true, rfl⟩
  | @boundary m a ks cs ha hlen htwo hm hcs =>
      cases n with
      | zero => exact ⟨false, rfl⟩
      | succ n =>
          cases cs with
          | nil => simp at hlen
          | cons c cs =>
              obtain ⟨e, hp⟩ := hcs c (by simp)
              have hc : ∃ v, leafOverBoundary n c = some v := leafOverBoundary_shaped hp.shaped
              exact hc
  | @upper m D a ks cs ha hlen htwo hm hcs ih =>
      cases n with
      | zero => exact ⟨false, rfl⟩
      | succ n =>
          cases cs with
          | nil => simp at hlen
          | cons c cs => exact ih c (by simp)

/-- When a rebuild works: its test sees a LEAF, or there is none above the
boundary. -/
def Guarded (T : NodeTree Ann) : Prop := leafOverBoundary (vergeOf T) T = some true ∨ ¬ LeafAbove T

theorem rebuild_reached (hT : Reached h T) (hg : Guarded T) :
    ∃ T', rebuild T (vergeOf T) = some T' ∧ Reached h T' ∧ T'.pairs = T.pairs := by
  obtain ⟨b, D, htiers, -⟩ := hT.tiers
  rw [Guarded, hT.verge] at hg
  obtain ⟨v, hv⟩ : ∃ v, leafOverBoundary h T = some v := leafOverBoundary_tiered htiers
  rw [hT.verge, rebuild, hv, Option.bind_some]
  cases v with
  | true => exact rebuildEntire_reached hT
  | false =>
      have habove : ¬ LeafAbove T := hg.resolve_left (by simp [hv])
      exact rebuildInternal_reached hT habove

/-- Otherwise it takes the values of a LEAF for children. -/
theorem rebuild_stuck (hT : Reached h T) (hg : ¬ Guarded T) : rebuild T (vergeOf T) = none := by
  obtain ⟨b, D, htiers, -⟩ := hT.tiers
  rw [Guarded, hT.verge, not_or, not_not] at hg
  obtain ⟨v, hv⟩ : ∃ v, leafOverBoundary h T = some v := leafOverBoundary_tiered htiers
  obtain rfl : v = false := by
    cases v with
    | true => exact absurd hv hg.1
    | false => rfl
  rw [hT.verge, rebuild, hv, Option.bind_some, if_neg Bool.false_ne_true, rebuildInternal,
    unfoldUpperPart_none htiers hg.2, Option.bind_none]

end Building

end Contrees.Trees.Betree
