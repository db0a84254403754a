import Contrees.Trees.BetreeRebuild
import Mathlib.Order.Bounds.Defs

namespace Contrees.Trees.Betree

open Library Library.SearchTree Bnode

section Layout

variable {T : NodeTree Ann} {h d e : Nat} {elems : List (Nat × Nat)}

def typeAt (h d : Nat) : NodeType := if d < h then .upper else if d = h then .boundary else .lower

/-- A built subtree at distance `d` from the root, with all of its leaves `e`
levels down. Only the root may be small. -/
inductive Laid (h : Nat) : Nat → Nat → NodeTree Ann → Prop
  | leaf {d : Nat} {a : Ann} {ks : List Nat} {vs : List (Option Nat)} (ha : a.type = .leaf)
      (hmin : 0 < d → B ≤ ks.length) (hmax : ks.length ≤ 2 * B - 1) (hlen : vs.length = ks.length) :
      Laid h d 0 (.leaf a ks vs)
  | node {d e : Nat} {a : Ann} {ks : List Nat} {cs : List (NodeTree Ann)} (ha : a.type = typeAt h d)
      (hmin : 0 < d → B ≤ cs.length) (hmax : cs.length ≤ 2 * B - 1)
      (hlen : cs.length = ks.length + 1)
      (hsep : ∀ i k c, ks[i]? = some k → cs[i + 1]? = some c → IsLeast {x | x ∈ keysOf c.leaves} k)
      (hcs : ∀ c ∈ cs, Laid h (d + 1) e c) : Laid h d (e + 1) (.node a ks cs)

theorem separator_le {lo hi : Option Nat} {ks : List Nat} {cs : List (NodeTree Ann)} {i k : Nat}
    {c : NodeTree Ann} (hord : Multiway.OrderedList lo hi ks cs) (hk : ks[i]? = some k)
    (hc : cs[i + 1]? = some c) : ∀ x ∈ keysOf c.leaves, k ≤ x := by
  intro x hx
  obtain ⟨-, -, hright⟩ := hord.split hk
  have hmem : c ∈ cs.drop (i + 1) := List.mem_of_getElem? (i := 0) (by simpa using hc)
  obtain ⟨l, hl, hxl⟩ := mem_keysOf.mp (mem_keysOf_child hmem hx)
  exact (hright.within l hl x hxl).1 k rfl

def Fronted (h d : Nat) (c : Nat × NodeTree Ann) : Prop :=
  c.1 ∈ keysOf c.2.leaves ∧ (d = 0 → vergeOf c.2 = h) ∧
    ∀ lo hi e, c.2.Ordered lo hi → c.2.Shaped B B e → Laid h d e c.2

theorem fronted_leafOver {a : Ann} {c : List (Nat × Option Nat)} (ha : a.type = .leaf) (hd : 0 < d)
    (hmin : B ≤ c.length) (hmax : c.length ≤ 2 * B - 1) :
    Fronted h d (firstKey c, leafOver a c) := by
  refine ⟨?_, fun h => absurd h hd.ne', ?_⟩
  · obtain ⟨x, c, rfl⟩ := List.exists_cons_of_length_pos (lt_of_lt_of_le B_pos hmin)
    simp [firstKey, leafOver, Multiway.leaves]
  · intro lo hi e _ hs
    cases e with
    | zero => exact .leaf ha (fun _ => by simpa using hmin) (by simpa using hmax) (by simp)
    | succ e => exact hs.elim

theorem fronted_internalOf : Inherits (annAt h) (Fronted h) := by
  intro d chs hmin hmax hchs
  have htwo := (minChildren_two d).trans hmin
  obtain ⟨x, chs, rfl⟩ := List.exists_cons_of_length_pos (l := chs) (by omega)
  refine ⟨?_, ?_, ?_⟩
  · exact mem_keysOf_child (c := x.2) (by simp) (hchs x (by simp)).1
  · rintro rfl
    rfl
  · intro lo hi e hord hs
    cases e with
    | zero => exact hs.elim
    | succ e =>
        obtain ⟨-, hlen, hall⟩ := hs
        refine .node (annAt_type h d) (fun hd => ?_) (by simpa using hmax) hlen ?_ fun c hc => ?_
        · rw [minChildren, if_neg (by omega)] at hmin
          simpa using hmin
        · intro i k c hk hc
          refine ⟨?_, separator_le hord hk hc⟩
          obtain ⟨y, hy, rfl⟩ : ∃ y, chs[i]? = some y ∧ y.1 = k := by simpa using hk
          obtain rfl : y.2 = c := by simpa [hy] using hc
          exact (hchs y (by simp [List.mem_of_getElem? hy])).1
        · obtain ⟨lo', hi', hco⟩ := Multiway.OrderedList.mem hord c hc
          have hshaped := hall c hc
          obtain ⟨y, hy, rfl⟩ := List.mem_map.mp hc
          exact (hchs y hy).2.2 lo' hi' e hco hshaped

/-- A bulk load reads its vectors within their bounds, and lays out the sorted
pairs: leaves of one depth, and nodes of the types that their depth calls for. -/
theorem build_layout (h : Nat) (elems : List (Nat × Nat)) (hd : (elems.map Prod.fst).Nodup) :
    ∃ T e, build h elems = some T ∧ T.pairs = written (sorted elems) ∧ Laid h 0 e T ∧ vergeOf T = h := by
  obtain ⟨T, hT, hord, hpairs, hcase⟩ : ∃ T, build h elems = some T ∧ T.Ordered none none ∧
      T.pairs = written (sorted elems) ∧
      ((sorted elems).length < 2 * B ∧ T = leafOf ⟨.leaf, h, 0⟩ (sorted elems) ∨
        2 * B ≤ (sorted elems).length ∧ (∃ d, T.Shaped B B (d + 1)) ∧
          Fronted h 0 (firstKey (sorted elems), T)) :=
    buildSorted_spec fronted_internalOf (fun _ _ => fronted_leafOver rfl) (sorted_keys hd)
  rcases hcase with ⟨hlt, rfl⟩ | ⟨-, ⟨e, hs⟩, -, hverge, hlaid⟩
  · refine ⟨_, 0, hT, hpairs, .leaf rfl (fun h => h.false.elim) ?_ (by simp), rfl⟩
    rw [List.length_map]
    omega
  · exact ⟨T, e + 1, hT, hpairs, hlaid none none _ hord hs, hverge rfl⟩

theorem build_layout_sample : ∃ T e, build 1 ((List.range 16).map (fun k => (15 - k, k))) = some T ∧
    T.pairs = written (sorted ((List.range 16).map (fun k => (15 - k, k)))) ∧ Laid 1 0 e T ∧
      vergeOf T = 1 := build_layout 1 _ (by decide)

end Layout

end Contrees.Trees.Betree
