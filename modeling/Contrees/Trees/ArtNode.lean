import Contrees.Trees.Art

namespace Contrees.Trees.Art

open Library Library.Slots Library.SearchTree Word

variable {ρ σ : Type} [Inhabited ρ] [Inhabited σ] {hd new : Head} {chs : List ρ} {d idx m : Nat}
    {x : ρ}

structure Sorted (hd : Head) (m : Nat) : Prop where
  keys_length : hd.keys.length = hd.size
  chs_length : m = hd.size
  ascending : hd.keys.Pairwise (· < ·)
  keys_lt : ∀ k ∈ hd.keys, k < 256

structure Slotted (hd : Head) (m : Nat) : Prop where
  keys_length : hd.keys.length = 256
  chs_length : m = hd.size
  size_le : hd.size ≤ 48
  slot_lt : ∀ d, hd.keys.getD d noSlot ≠ noSlot → hd.keys.getD d noSlot < hd.size
  injective : ∀ d e, hd.keys.getD d noSlot ≠ noSlot →
    hd.keys.getD d noSlot = hd.keys.getD e noSlot → d = e

/-- A node with `m` children is laid out as its type says. -/
def Head.Wf (hd : Head) (m : Nat) : Prop :=
  match hd.type with
  | .node4 => Sorted hd m ∧ 2 ≤ hd.size ∧ hd.size ≤ 4
  | .node16 => Sorted hd m ∧ hd.size ≤ 16
  | .node48 => Slotted hd m
  | .node256 => True
  | .leaf => False

theorem wf_node4 (hn : hd.type = .node4) : hd.Wf m ↔ Sorted hd m ∧ 2 ≤ hd.size ∧ hd.size ≤ 4 := by
  simp only [Head.Wf, hn]

theorem wf_node16 (hn : hd.type = .node16) : hd.Wf m ↔ Sorted hd m ∧ hd.size ≤ 16 := by
  simp only [Head.Wf, hn]

theorem wf_node48 (hn : hd.type = .node48) : hd.Wf m ↔ Slotted hd m := by
  simp only [Head.Wf, hn]

theorem wf_node256 (hn : hd.type = .node256) : hd.Wf m := by
  simp only [Head.Wf, hn]

theorem Head.Wf.carry (h : hd.Wf m) (type : new.type = hd.type) (size : new.size = hd.size)
    (keys : new.keys = hd.keys) : new.Wf m := by
  have hsorted : Sorted hd m → Sorted new m := by
    rintro ⟨h₁, h₂, h₃, h₄⟩
    exact ⟨by rw [keys, size, h₁], by rw [size, h₂], keys ▸ h₃, keys ▸ h₄⟩
  cases hn : hd.type with
  | node4 =>
      obtain ⟨hs, hl⟩ := (wf_node4 hn).mp h
      exact (wf_node4 (type.trans hn)).mpr ⟨hsorted hs, size ▸ hl⟩
  | node16 =>
      obtain ⟨hs, hl⟩ := (wf_node16 hn).mp h
      exact (wf_node16 (type.trans hn)).mpr ⟨hsorted hs, size ▸ hl⟩
  | node48 =>
      obtain ⟨h₁, h₂, h₃, h₄, h₅⟩ := (wf_node48 hn).mp h
      refine (wf_node48 (type.trans hn)).mpr ⟨by rw [keys, h₁], by rw [size, h₂], size ▸ h₃, ?_, ?_⟩
      · rw [keys, size]
        exact h₄
      · rw [keys]
        exact h₅
  | node256 => exact wf_node256 (type.trans hn)
  | leaf => simp [Head.Wf, hn] at h

def Compact (hd : Head) : Prop := hd.type = .node4 ∨ hd.type = .node16

theorem Compact.sorted (hc : Compact hd) (h : hd.Wf m) : Sorted hd m := by
  rcases hc with hc | hc
  exacts [((wf_node4 hc).mp h).1, ((wf_node16 hc).mp h).1]

theorem Compact.slot (hc : Compact hd) (i : Nat) : slot hd i = i := by
  rcases hc with hc | hc <;> simp [Art.slot, hc]

theorem node4Find_eq {hd : Head} (h : Sorted hd m) (hl : 2 ≤ hd.size) (hu : hd.size ≤ 4) (d : Nat) :
    node4Find hd d = hd.keys.findIdx? (· = d) := by
  have hlen := h.keys_length
  match hk : hd.keys with
  | [] | [_] =>
      simp only [hk, List.length_cons, List.length_nil] at hlen
      omega
  | [a, b] =>
      have hsize : hd.size = 2 := by simp [← hlen, hk]
      by_cases ha : a = d <;> by_cases hb : b = d <;>
        simp [node4Find, hk, hsize, List.findIdx?_cons, ha, hb]
  | [a, b, c] =>
      have hsize : hd.size = 3 := by simp [← hlen, hk]
      by_cases ha : a = d <;> by_cases hb : b = d <;> by_cases hc : c = d <;>
        simp [node4Find, hk, hsize, List.findIdx?_cons, ha, hb, hc]
  | [a, b, c, e] =>
      have hsize : hd.size = 4 := by simp [← hlen, hk]
      by_cases ha : a = d <;> by_cases hb : b = d <;> by_cases hc : c = d <;>
        by_cases he : e = d <;>
        simp [node4Find, hk, hsize, List.findIdx?_cons, ha, hb, hc, he]
  | _ :: _ :: _ :: _ :: _ :: _ =>
      simp only [hk, List.length_cons] at hlen
      omega

theorem Compact.findIdx (hc : Compact hd) (h : hd.Wf m) (d : Nat) :
    findIdx hd d = hd.keys.findIdx? (· = d) := by
  rcases hc with hc | hc
  · obtain ⟨hs, hl, hu⟩ := (wf_node4 hc).mp h
    simp only [Art.findIdx, hc]
    exact node4Find_eq hs hl hu d
  · simp [Art.findIdx, hc]

theorem Compact.findch (hc : Compact hd) (h : hd.Wf chs.length) (d : Nat) :
    findch hd chs d = look hd.keys chs d := by
  have hs := hc.sorted h
  rw [look_of_findIdx (hs.keys_length.trans hs.chs_length.symm), Art.findch, hc.findIdx h]
  cases hd.keys.findIdx? (· = d) with
  | none => rfl
  | some i => simp only [getch, hc.slot]

theorem findch_map {f : ρ → σ} (hf : f default = default) (d : Nat) :
    findch hd (chs.map f) d = f (findch hd chs d) := by
  simp only [findch, getch]
  cases findIdx hd d with
  | none => exact hf.symm
  | some i => exact getD_map hf

theorem findch_eq_getch (hi : findIdx hd d = some idx) : findch hd chs d = getch hd chs idx := by
  simp only [findch, hi]

theorem findch_eq_default (hi : findIdx hd d = none) : findch hd chs d = default := by
  simp only [findch, hi]

theorem slotted_findIdx (hn : hd.type = .node48) :
    findIdx hd d = if hd.keys.getD d noSlot = noSlot then none else some d := by
  simp only [findIdx, hn]

theorem slotted_findch (hn : hd.type = .node48) : findch hd chs d =
    if hd.keys.getD d noSlot = noSlot then default else chs.getD
    (hd.keys.getD d noSlot) default := by
  rw [findch, slotted_findIdx hn]
  by_cases hs : hd.keys.getD d noSlot = noSlot
  · rw [if_pos hs, if_pos hs]
  · rw [if_neg hs, if_neg hs]
    simp only [getch, slot, hn, if_true]

theorem direct_findch (hn : hd.type = .node256) : findch hd chs d = chs.getD d default := by
  simp [findch, findIdx, hn, getch, slot]

theorem setch_spec (h : hd.Wf chs.length) (hi : findIdx hd d = some idx) :
    findch hd (setch hd chs idx x) = Function.update (findch hd chs) d x ∧
      hd.Wf (setch hd chs idx x).length := by
  cases hn : hd.type with
  | node4 | node16 =>
      have hc : Compact hd := by simp [Compact, hn]
      have hs := hc.sorted h
      have hlen := hs.keys_length.trans hs.chs_length.symm
      have hk := hc.findIdx h d ▸ hi
      have hlt : idx < chs.length := hlen ▸ (List.findIdx?_eq_some_iff_getElem.mp hk).1
      have hlen' : (setch hd chs idx x).length = chs.length := by
        rw [setch, hc.slot, put_length, max_eq_left hlt]
      have hwf : hd.Wf (setch hd chs idx x).length := hlen' ▸ h
      refine ⟨?_, hwf⟩
      funext e
      rw [hc.findch hwf, setch, hc.slot, put_of_lt hlt, look_set hs.ascending hlen hk,
        Function.update_apply, Function.update_apply, hc.findch h]
  | node48 =>
      have hs := (wf_node48 hn).mp h
      rw [slotted_findIdx hn] at hi
      split at hi
      · simp at hi
      · rename_i hd'
        obtain rfl := Option.some.inj hi
        have hlt : hd.keys.getD d noSlot < chs.length := hs.chs_length ▸ hs.slot_lt d hd'
        have hslot : setch hd chs d x = put (hd.keys.getD d noSlot) x chs := by
          simp [setch, slot, hn]
        rw [hslot, put_length, max_eq_left hlt]
        refine ⟨?_, h⟩
        funext e
        rw [slotted_findch hn, Function.update_apply, slotted_findch hn, getD_put]
        by_cases he : e = d
        · subst he
          rw [if_neg hd', if_pos rfl, if_pos rfl]
        · have hne : hd.keys.getD e noSlot ≠ hd.keys.getD d noSlot := fun heq =>
            he (hs.injective d e hd' heq.symm).symm
          rw [if_neg hne, if_neg he]
  | node256 =>
      have hi' : d = idx := by simpa [findIdx, hn] using hi
      subst hi'
      refine ⟨?_, wf_node256 hn⟩
      funext e
      rw [direct_findch hn, Function.update_apply, direct_findch hn, setch, slot, if_neg
        (by simp [hn]),
        getD_put]
  | leaf => simp [Head.Wf, hn] at h

theorem append_type (hd : Head) (d : Nat) : (append hd d).2.type = hd.type := by
  cases hn : hd.type <;> simp [append, grow, hn]

theorem Compact.append (hc : Compact hd) (d : Nat) :
    append hd d = (findgt hd d, grow hd (hd.keys.insertIdx (findgt hd d) d)) := by
  rcases hc with hc | hc <;> simp [Art.append, hc]

theorem Compact.absent (hc : Compact hd) (h : hd.Wf m) (hi : Art.findIdx hd d = none) :
    d ∉ hd.keys := by
  rw [hc.findIdx h, List.findIdx?_eq_none_iff] at hi
  intro hd'
  simpa using hi d hd'

theorem Sorted.append (h : Sorted hd m) (hd256 : d < 256) (hd' : d ∉ hd.keys) :
    Sorted (grow hd (hd.keys.insertIdx (findgt hd d) d)) (m + 1) := by
  have hle : findgt hd d ≤ hd.keys.length := findch_le _ _
  refine ⟨?_, congrArg (· + 1) h.chs_length, insertIdx_ascending h.ascending hd', ?_⟩
  · rw [grow_keys, List.length_insertIdx_of_le_length hle, h.keys_length, grow_size]
  · intro k hk
    rcases (List.mem_insertIdx hle).mp hk with rfl | hk
    exacts [hd256, h.keys_lt k hk]

theorem Compact.grown {keys : List Nat} (hc : Compact hd) (h : hd.Wf m) (hroom : isFull hd = false)
    (hs : Sorted (grow hd keys) (m + 1)) : (grow hd keys).Wf (m + 1) := by
  rcases hc with hn | hn
  · have hn' : (grow hd keys).type = .node4 := hn
    obtain ⟨-, hl, hu⟩ := (wf_node4 hn).mp h
    simp only [isFull, hn, decide_eq_false_iff_not] at hroom
    rw [wf_node4 hn', grow_size]
    exact ⟨hs, by omega, by omega⟩
  · have hn' : (grow hd keys).type = .node16 := hn
    obtain ⟨-, hu⟩ := (wf_node16 hn).mp h
    simp only [isFull, hn, decide_eq_false_iff_not] at hroom
    rw [wf_node16 hn', grow_size]
    exact ⟨hs, by omega⟩

theorem slotted_append (h : Slotted hd chs.length) (hn : hd.type = .node48) (hd256 : d < 256)
    (hi : findIdx hd d = none) (hlt : hd.size < 48) :
    findch (grow hd (hd.keys.set d hd.size)) (put hd.size x chs) =
        Function.update (findch hd chs) d x ∧
      Slotted (grow hd (hd.keys.set d hd.size)) (put hd.size x chs).length := by
  have hslot : hd.keys.getD d noSlot = noSlot := by
    rw [slotted_findIdx hn] at hi
    by_contra hne
    rw [if_neg hne] at hi
    exact Option.some_ne_none _ hi
  have hget : ∀ e, (grow hd (hd.keys.set d hd.size)).keys.getD e noSlot =
      if e = d then hd.size else hd.keys.getD e noSlot := by
    intro e
    have hdlt : d < hd.keys.length := h.keys_length.symm ▸ hd256
    rw [grow, List.getD_eq_getElem?_getD, List.getElem?_set]
    by_cases he : d = e
    · subst he
      rw [if_pos rfl, if_pos hdlt, if_pos rfl]
      rfl
    · rw [if_neg he, if_neg (Ne.symm he), List.getD_eq_getElem?_getD]
  have hlen := h.chs_length
  have hsize : hd.size ≠ noSlot := by
    rw [noSlot]
    omega
  constructor
  · funext e
    have hnew : (grow hd (hd.keys.set d hd.size)).type = .node48 := hn
    rw [slotted_findch hnew, Function.update_apply, slotted_findch hn, hget, getD_put]
    by_cases he : e = d
    · rw [if_pos he, if_pos he, if_neg hsize, if_pos rfl]
    · rw [if_neg he, if_neg he]
      split
      · rfl
      · rename_i hne
        have := h.slot_lt e hne
        rw [if_neg (by omega)]
  · refine ⟨by rw [grow_keys, List.length_set, h.keys_length], ?_, hlt, fun e he => ?_,
      fun e e' he heq => ?_⟩
    · rw [put_length, hlen]
      exact max_eq_right (Nat.le_succ _)
    · rw [hget] at he ⊢
      split at he
      · rw [if_pos ‹_›]
        exact Nat.lt_succ_self _
      · rw [if_neg ‹_›]
        exact (h.slot_lt e he).trans (Nat.lt_succ_self _)
    · rw [hget] at he heq
      rw [hget] at heq
      have hbelow : ∀ a, hd.keys.getD a noSlot ≠ hd.size := by
        intro a ha
        have := h.slot_lt a (ha ▸ hsize)
        omega
      by_cases h₁ : e = d <;> by_cases h₂ : e' = d
      · rw [h₁, h₂]
      · rw [if_pos h₁, if_neg h₂] at heq
        exact absurd heq.symm (hbelow e')
      · rw [if_neg h₁, if_pos h₂] at heq
        exact absurd heq (hbelow e)
      · rw [if_neg h₁] at he
        rw [if_neg h₁, if_neg h₂] at heq
        exact h.injective e e' he heq

theorem insertch_spec (h : hd.Wf chs.length) (hd256 : d < 256) (hi : findIdx hd d = none)
    (hroom : isFull hd = false) :
    findch (append hd d).2 (insertch (append hd d).2 chs (append hd d).1 x) =
        Function.update (findch hd chs) d x ∧
      (append hd d).2.Wf (insertch (append hd d).2 chs (append hd d).1 x).length := by
  cases hn : hd.type with
  | node4 | node16 =>
      have hc : Compact hd := by simp [Compact, hn]
      have hs := hc.sorted h
      have hlen := hs.keys_length.trans hs.chs_length.symm
      have habs := hc.absent h hi
      have hle : findgt hd d ≤ chs.length := hlen ▸ findch_le _ _
      have hnew := hs.append hd256 habs
      have hlen' : (chs.insertIdx (findgt hd d) x).length = chs.length + 1 :=
        List.length_insertIdx_of_le_length hle x
      have hins : insertch (append hd d).2 chs (append hd d).1 x = chs.insertIdx
          (findgt hd d) x := by
        rw [hc.append]
        simp [insertch, grow, hn]
      have hwf : (append hd d).2.Wf (chs.insertIdx (findgt hd d) x).length := by
        rw [hc.append, hlen']
        exact hc.grown h hroom hnew
      rw [hins]
      refine ⟨?_, hwf⟩
      have hc' : Compact (append hd d).2 := by
        rw [Compact, append_type]
        exact hc
      funext e
      rw [hc'.findch hwf, hc.append, Function.update_apply, hc.findch h]
      have := congrFun (look_insertIdx (x := x) hs.ascending hlen habs) e
      rwa [Function.update_apply] at this
  | node48 =>
      have hs := (wf_node48 hn).mp h
      have hlt : hd.size < 48 := by
        have := hs.size_le
        simp only [isFull, hn, decide_eq_false_iff_not] at hroom
        omega
      have hspec := slotted_append (x := x) hs hn hd256 hi hlt
      have hslot : (hd.keys.set d hd.size).getD d noSlot = hd.size := by
        rw [List.getD_eq_getElem?_getD, List.getElem?_set_self (hs.keys_length.symm ▸ hd256)]
        rfl
      have happ : append hd d = (d, grow hd (hd.keys.set d hd.size)) := by simp [append, hn]
      have hins : insertch (append hd d).2 chs (append hd d).1 x = put hd.size x chs := by
        rw [happ]
        simp only [insertch, grow, hn, setch, slot, if_true, hslot]
      have hn' : (grow hd (hd.keys.set d hd.size)).type = .node48 := hn
      rw [hins, happ]
      exact ⟨hspec.1, (wf_node48 hn').mpr hspec.2⟩
  | node256 => simp [findIdx, hn] at hi
  | leaf => simp [Head.Wf, hn] at h

/-- In a node with room `insertch` does what `copych` and a write do. -/
theorem setch_copychAt (h : hd.Wf chs.length) (hi : findIdx hd d = none) :
    setch (append hd d).2 (copychAt (append hd d).2 hd chs (append hd d).1) (append hd d).1 x =
      insertch (append hd d).2 chs (append hd d).1 x := by
  have htype := append_type hd d
  cases hn : hd.type with
  | node4 | node16 =>
      have hc : Compact hd := by simp [Compact, hn]
      have hc' : Compact (append hd d).2 := by
        rw [Compact, htype]
        exact hc
      have hs := hc.sorted h
      have hle : (append hd d).1 ≤ chs.length := by
        rw [hc.append, ← hs.keys_length.trans hs.chs_length.symm]
        exact findch_le _ _
      rw [setch, hc'.slot]
      simp only [copychAt, insertch, htype, hn, if_true]
      exact put_insertIdx hle
  | node48 => simp only [copychAt, insertch, htype, hn, if_true]
  | node256 => simp [findIdx, hn] at hi
  | leaf => simp [Head.Wf, hn] at h

section Members

omit [Inhabited ρ] in
theorem slot_lt (h : hd.Wf chs.length) (hn : hd.type ≠ .node256) (hi : findIdx hd d = some idx) :
    slot hd idx < chs.length := by
  cases htype : hd.type with
  | node4 | node16 =>
      have hcomp : Compact hd := by simp [Compact, htype]
      have hs := hcomp.sorted h
      have hlt := (List.findIdx?_eq_some_iff_getElem.mp (hcomp.findIdx h d ▸ hi)).1
      rw [hcomp.slot, hs.chs_length, ← hs.keys_length]
      exact hlt
  | node48 =>
      have hs := (wf_node48 htype).mp h
      rw [slotted_findIdx htype] at hi
      split at hi
      · simp at hi
      · rename_i hd'
        obtain rfl := Option.some.inj hi
        simp only [slot, htype, if_true]
        exact hs.chs_length ▸ hs.slot_lt d hd'
  | node256 => exact absurd htype hn
  | leaf => simp [Head.Wf, htype] at h

theorem mem_setch (h : hd.Wf chs.length) (hi : findIdx hd d = some idx) {c : ρ}
    (hc : c ∈ setch hd chs idx x) : c = x ∨ c ∈ chs ∨ hd.type = .node256 ∧ c = default := by
  by_cases hn : hd.type = .node256
  · have := mem_put hc
    tauto
  · rw [setch, put_of_lt (slot_lt h hn hi)] at hc
    have := List.mem_or_eq_of_mem_set hc
    tauto

theorem mem_insertch (h : hd.Wf chs.length) (hd256 : d < 256) (hi : findIdx hd d = none) {c : ρ}
    (hc : c ∈ insertch (append hd d).2 chs (append hd d).1 x) : c = x ∨ c ∈ chs := by
  cases hn : hd.type with
  | node4 | node16 =>
      have hcomp : Compact hd := by simp [Compact, hn]
      have hs := hcomp.sorted h
      have hle : findgt hd d ≤ chs.length :=
        (hs.keys_length.trans hs.chs_length.symm) ▸ findch_le _ _
      rw [hcomp.append] at hc
      simp only [insertch, grow_type, hn] at hc
      exact (List.mem_insertIdx hle).mp hc
  | node48 =>
      have hs := (wf_node48 hn).mp h
      have hslot : (hd.keys.set d hd.size).getD d noSlot = chs.length := by
        rw [List.getD_eq_getElem?_getD, List.getElem?_set_self (hs.keys_length.symm ▸ hd256),
          hs.chs_length]
        rfl
      simp only [append, insertch, grow_type, grow_keys, setch, slot, hn, if_true, hslot,
        put_at_length, List.mem_append, List.mem_singleton] at hc
      exact hc.symm
  | node256 => simp [findIdx, hn] at hi
  | leaf => simp [Head.Wf, hn] at h

end Members

section Visit

variable {chs : List Tree} {γ : Type} {f : Tree → List γ} {pkey : Option Nat}

theorem isNull_iff {t : Tree} : isNull t = true ↔ t = .null := by
  cases t <;> simp [isNull]

theorem visited_spec (h : hd.Wf chs.length) (hf : f .null = []) :
    (visited hd chs pkey).flatMap (fun i => f (chs.getD i .null)) =
      (digits pkey).flatMap (fun d => f (findch hd chs d)) := by
  cases hn : hd.type with
  | node4 | node16 =>
      have hc : Compact hd := by simp [Compact, hn]
      have hs := hc.sorted h
      have hlen := hs.keys_length.trans hs.chs_length.symm
      have hvis : visited hd chs pkey =
          List.range' (pkey.elim 0 (findgt hd)) (chs.length - pkey.elim 0 (findgt hd)) := by
        simp only [visited, hn, hs.chs_length]
      have hplaces := flatMap_places f (pkey.elim 0 (findgt hd)) chs
      rw [hvis]
      refine hplaces.trans ?_
      cases pkey with
      | none =>
          rw [Option.elim_none, List.drop_zero, ← flatMap_look (a := 0)
            (n := 256) hf hs.ascending hlen
            (by simpa using hs.keys_lt), digits, List.range_eq_range']
          exact List.flatMap_congr fun d _ => by rw [hc.findch h]
      | some p =>
          have hdrop := hs.ascending.sublist (List.drop_sublist (findgt hd p) _)
          have hlen' : (hd.keys.drop (findgt hd p)).length = (chs.drop (findgt hd p)).length := by
            rw [List.length_drop, List.length_drop, hlen]
          have hin : ∀ e ∈ hd.keys.drop (findgt hd p), p + 1 ≤ e ∧ e < p + 1 + (256 - (p + 1)) := by
            intro e he
            have hlt := hs.keys_lt e (List.mem_of_mem_drop he)
            have hgt : p < e := findch_drop_gt hs.ascending e he
            omega
          rw [Option.elim_some, ← flatMap_look hf hdrop hlen' hin, digits]
          refine List.flatMap_congr fun d hd' => ?_
          have hgt : p < d := (List.mem_range'_1.mp hd').1
          have hlook : look (hd.keys.drop (findgt hd p)) (chs.drop (findgt hd p)) d =
              look hd.keys chs d := look_drop hs.ascending hlen hgt
          rw [hc.findch h, hlook]
  | node48 =>
      simp only [visited, hn]
      rw [flatMap_filterMap]
      refine List.flatMap_congr fun d _ => ?_
      rw [slotted_findch hn]
      by_cases hd' : hd.keys.getD d noSlot = noSlot
      · rw [if_pos hd', if_pos hd']
        exact hf.symm
      · rw [if_neg hd', if_neg hd']
        rfl
  | node256 =>
      simp only [visited, hn]
      rw [flatMap_filter]
      · exact List.flatMap_congr fun d _ => by rw [direct_findch hn]; rfl
      · intro d _ hnull
        have heq : chs.getD d .null = .null := isNull_iff.mp (by simpa using hnull)
        rw [heq, hf]
  | leaf => simp [Head.Wf, hn] at h

theorem visited_ne (h : hd.Wf chs.length) (hnull : hd.type ≠ .node256 → Tree.null ∉ chs) :
    ∀ i ∈ visited hd chs pkey, ∃ t, chs[i]? = some t ∧ t ≠ .null := by
  intro i hi
  have hthere : hd.type ≠ .node256 → i < chs.length → ∃ t, chs[i]? = some t ∧ t ≠ .null := by
    intro hn hlt
    exact ⟨chs[i], List.getElem?_eq_getElem hlt, fun heq => hnull hn (heq ▸ List.getElem_mem hlt)⟩
  cases hn : hd.type with
  | node4 | node16 =>
      have hc : Compact hd := by simp [Compact, hn]
      have hs := hc.sorted h
      refine hthere (by simp [hn]) ?_
      simp only [visited, hn] at hi
      have := List.mem_range'_1.mp hi
      have := hs.chs_length
      omega
  | node48 =>
      have hs := (wf_node48 hn).mp h
      refine hthere (by simp [hn]) ?_
      simp only [visited, hn, List.mem_filterMap] at hi
      obtain ⟨d, -, hi⟩ := hi
      split at hi
      · simp at hi
      · rename_i hd'
        obtain rfl := Option.some.inj hi
        exact hs.chs_length ▸ hs.slot_lt d hd'
  | node256 =>
      simp only [visited, hn, List.mem_filter] at hi
      have hi := hi.2
      rw [List.getD_eq_getElem?_getD] at hi
      cases hc : chs[i]? with
      | none => simp [hc, isNull] at hi
      | some t =>
          refine ⟨t, rfl, fun hnull => ?_⟩
          simp [hc, hnull, isNull] at hi
  | leaf => simp [Head.Wf, hn] at h

end Visit

theorem foldl_set {ks acc : List Nat} (n : Nat) (hn : ks.Nodup) (hks : ∀ k ∈ ks, k < acc.length)
    (e : Nat) :
    ((ks.zipIdx n).foldl (fun slts k => slts.set k.1 k.2) acc).getD e noSlot =
      ((ks.findIdx? (· = e)).map (n + ·)).getD (acc.getD e noSlot) := by
  induction ks generalizing n acc with
  | nil => rfl
  | cons k ks ih =>
      obtain ⟨hk, hn⟩ := List.nodup_cons.mp hn
      rw [List.zipIdx_cons, List.foldl_cons, ih (n + 1) hn
        (by simpa using fun k' hk' => hks k' (by simp [hk'])),
        List.findIdx?_cons]
      by_cases he : k = e
      · subst he
        have hnone : ks.findIdx? (· = k) = none := by
          rw [List.findIdx?_eq_none_iff]
          intro k' hk'
          simpa using fun h : k' = k => hk (h ▸ hk')
        simp [hnone, hks k (by simp)]
      · cases hf : ks.findIdx? (· = e) with
        | none => simp [he]
        | some i =>
            simp only [he, decide_false, Bool.false_eq_true, if_false, Option.map_some,
              Option.getD_some]
            omega

theorem slots_getD {ks : List Nat} (hs : ks.Pairwise (· < ·)) (hks : ∀ k ∈ ks, k < 256) (e : Nat) :
    (slots ks).getD e noSlot = (ks.findIdx? (· = e)).getD noSlot := by
  have hnone : (List.replicate 256 noSlot).getD e noSlot = noSlot := by
    rw [List.getD_eq_getElem?_getD, List.getElem?_replicate]
    split <;> rfl
  have hacc : ∀ k ∈ ks, k < (List.replicate 256 noSlot).length := by
    intro k hk
    rw [List.length_replicate]
    exact hks k hk
  rw [slots, foldl_set 0 (hs.imp fun h => h.ne) hacc, hnone]
  cases ks.findIdx? (· = e) <;> simp

theorem slots_length (ks : List Nat) : (slots ks).length = 256 := by
  have hlen : ∀ (l : List (Nat × Nat)) (acc : List Nat),
      (l.foldl (fun slts k => slts.set k.1 k.2) acc).length = acc.length := by
    intro l
    induction l with
    | nil => exact fun _ => rfl
    | cons k l ih => exact fun acc => (ih _).trans List.length_set
  rw [slots, hlen, List.length_replicate]

theorem extend_node4 (hn : hd.type = .node4) (h : hd.Wf chs.length) (hfull : isFull hd = true) :
    (nodeExtend hd).type = .node16 ∧ (nodeExtend hd).size = 4 ∧ (nodeExtend hd).Wf chs.length ∧
      findIdx (nodeExtend hd) = findIdx hd ∧ findch (nodeExtend hd) chs = findch hd chs := by
  have hc : Compact hd := .inl hn
  have hs := hc.sorted h
  have hsize : hd.size = 4 := by simpa [isFull, hn] using hfull
  have htype : (nodeExtend hd).type = .node16 := by simp [nodeExtend, hn, newNode]
  have hsize' : (nodeExtend hd).size = 4 := by simp [nodeExtend, hn, newNode]
  have hkeys : (nodeExtend hd).keys = hd.keys := by simp [nodeExtend, hn]
  have hwf : (nodeExtend hd).Wf chs.length := by
    rw [wf_node16 htype, hsize']
    refine ⟨⟨?_, ?_, hkeys ▸ hs.ascending, hkeys ▸ hs.keys_lt⟩, by omega⟩
    · rw [hkeys, hs.keys_length, hsize, hsize']
    · rw [hs.chs_length, hsize, hsize']
  have hc' : Compact (nodeExtend hd) := .inr htype
  refine ⟨htype, hsize', hwf, ?_, ?_⟩
  · funext d
    rw [hc'.findIdx hwf, hc.findIdx h, hkeys]
  · funext d
    rw [hc'.findch hwf, hc.findch h, hkeys]

theorem extend_node16 (hn : hd.type = .node16) (h : hd.Wf chs.length) (hfull : isFull hd = true) :
    (nodeExtend hd).type = .node48 ∧ (nodeExtend hd).size = 16 ∧ (nodeExtend hd).Wf chs.length ∧
      (∀ d, findIdx hd d = none → findIdx (nodeExtend hd) d = none) ∧
      findch (nodeExtend hd) chs = findch hd chs := by
  have hc : Compact hd := .inr hn
  have hs := hc.sorted h
  have hsize : hd.size = 16 := by simpa [isFull, hn] using hfull
  have htype : (nodeExtend hd).type = .node48 := by simp [nodeExtend, hn, newNode]
  have hsize' : (nodeExtend hd).size = 16 := by simp [nodeExtend, hn, newNode]
  have hkeys : (nodeExtend hd).keys = slots hd.keys := by simp [nodeExtend, hn]
  have hslot : ∀ e, (nodeExtend hd).keys.getD e noSlot = (hd.keys.findIdx? (· = e)).getD noSlot :=
    fun e => hkeys ▸ slots_getD hs.ascending hs.keys_lt e
  have hlt : ∀ e i, hd.keys.findIdx? (· = e) = some i → i < 16 ∧ hd.keys[i]? = some e := by
    intro e i hi
    obtain ⟨hlt, heq, -⟩ := List.findIdx?_eq_some_iff_getElem.mp hi
    refine ⟨hsize ▸ hs.keys_length ▸ hlt, ?_⟩
    rw [List.getElem?_eq_getElem hlt]
    exact congrArg some (of_decide_eq_true heq)
  have hwf : (nodeExtend hd).Wf chs.length := by
    rw [wf_node48 htype]
    refine ⟨hkeys ▸ slots_length _, by rw [hs.chs_length, hsize, hsize'], by omega, ?_, ?_⟩
    · intro e he
      rw [hslot] at he ⊢
      cases hi : hd.keys.findIdx? (· = e) with
      | none => simp [hi] at he
      | some i =>
          rw [hsize']
          exact (hlt e i hi).1
    · intro e e' he heq
      rw [hslot] at he heq
      rw [hslot] at heq
      cases hi : hd.keys.findIdx? (· = e) with
      | none => simp [hi] at he
      | some i =>
          cases hi' : hd.keys.findIdx? (· = e') with
          | none =>
              have := (hlt e i hi).1
              simp only [hi, hi', Option.getD_some, Option.getD_none, noSlot] at heq
              omega
          | some i' =>
              obtain rfl : i = i' := by simpa [hi, hi'] using heq
              exact Option.some.inj ((hlt e i hi).2.symm.trans (hlt e' i hi').2)
  refine ⟨htype, hsize', hwf, fun d hd' => ?_, ?_⟩
  · rw [hc.findIdx h] at hd'
    rw [slotted_findIdx htype, hslot, hd']
    rfl
  · funext d
    rw [slotted_findch htype, hslot, hc.findch h,
      look_of_findIdx (hs.keys_length.trans hs.chs_length.symm)]
    cases hi : hd.keys.findIdx? (· = d) with
    | none => rfl
    | some i =>
        have := (hlt d i hi).1
        rw [Option.getD_some, if_neg (by rw [noSlot]; omega)]

theorem copychAt_node48 (hn : hd.type = .node48) (hn' : new.type = .node256) :
    copychAt new hd chs idx = (List.range 256).map (findch hd chs) := by
  rw [copychAt, hn, hn']
  refine (if_neg (by simp)).trans (List.map_congr_left fun e _ => ?_)
  rw [slotted_findch hn]

theorem extend_spec (h : hd.Wf chs.length) (hd256 : d < 256) (hi : findIdx hd d = none)
    (hfull : isFull hd = true) {new : Head} (hnew : append (nodeExtend hd) d = (idx, new)) :
    findch new (setch new (copychAt new hd chs idx) idx x) = Function.update (findch hd chs) d x ∧
      new.Wf (setch new (copychAt new hd chs idx) idx x).length ∧
      ∀ c ∈ setch new (copychAt new hd chs idx) idx x,
        c = x ∨ c ∈ chs ∨ new.type = .node256 ∧ c = default := by
  have htype' : new.type = (nodeExtend hd).type := by
    rw [← append_type (nodeExtend hd) d, hnew]
  cases hn : hd.type with
  | node4 =>
      obtain ⟨htype, hsize, hwf, hidx, hch⟩ := extend_node4 hn h hfull
      have hroom : isFull (nodeExtend hd) = false := by simp [isFull, htype, hsize]
      have hc : Compact (nodeExtend hd) := .inr htype
      have hs := hc.sorted hwf
      have hspec := insertch_spec (x := x) hwf hd256 (hidx ▸ hi) hroom
      have happ := hc.append d
      rw [hnew] at happ hspec
      obtain ⟨rfl, -⟩ := Prod.mk.inj happ
      have hle : findgt (nodeExtend hd) d ≤ chs.length :=
        (hs.keys_length.trans hs.chs_length.symm) ▸ findch_le _ _
      have hset : setch new (copychAt new hd chs (findgt (nodeExtend hd) d))
        (findgt (nodeExtend hd) d) x =
          insertch new chs (findgt (nodeExtend hd) d) x := by
        simp only [setch, slot, htype', htype, copychAt, hn, insertch]
        exact put_insertIdx hle
      have hmem := fun c => mem_insertch (x := x) (c := c) hwf hd256 (hidx ▸ hi)
      rw [hnew] at hmem
      rw [hset, ← hch]
      exact ⟨hspec.1, hspec.2, fun c hc => or_assoc.mp (.inl (hmem c hc))⟩
  | node16 =>
      obtain ⟨htype, hsize, hwf, hidx, hch⟩ := extend_node16 hn h hfull
      have hroom : isFull (nodeExtend hd) = false := by simp [isFull, htype, hsize]
      have hspec := insertch_spec (x := x) hwf hd256 (hidx d hi) hroom
      rw [hnew] at hspec
      have hset : setch new (copychAt new hd chs idx) idx x = insertch new chs idx x := by
        simp [copychAt, hn, insertch, htype', htype]
      have hmem := fun c => mem_insertch (x := x) (c := c) hwf hd256 (hidx d hi)
      rw [hnew] at hmem
      rw [hset, ← hch]
      exact ⟨hspec.1, hspec.2, fun c hc => or_assoc.mp (.inl (hmem c hc))⟩
  | node48 =>
      have htype : (nodeExtend hd).type = .node256 := by simp [nodeExtend, hn, newNode]
      obtain rfl : d = idx := by
        have := congrArg Prod.fst hnew
        simpa [append, htype] using this
      have hs := (wf_node48 hn).mp h
      have hn' : new.type = .node256 := htype'.trans htype
      refine ⟨?_, wf_node256 hn', fun c hc => ?_⟩
      rotate_left
      · have hcopy : c ∈ copychAt new hd chs d → c ∈ chs ∨ c = default := by
          intro hc
          rw [copychAt_node48 hn hn'] at hc
          obtain ⟨e, -, rfl⟩ := List.mem_map.mp hc
          rw [slotted_findch hn]
          split
          · exact .inr rfl
          · exact (getD_mem _ _).symm
        have := mem_put hc
        tauto
      funext e
      rw [direct_findch hn', setch, slot, if_neg (by simp [hn']), getD_put, Function.update_apply]
      by_cases he : e = d
      · rw [if_pos he, if_pos he]
      · rw [if_neg he, if_neg he, copychAt_node48 hn hn']
        by_cases hlt : e < 256
        · simp [List.getD_eq_getElem?_getD, List.getElem?_range hlt]
        · rw [slotted_findch hn]
          have hslot : hd.keys.getD e noSlot = noSlot := by
            rw [List.getD_eq_getElem?_getD, List.getElem?_eq_none (by rw [hs.keys_length]; omega)]
            rfl
          rw [if_pos hslot, List.getD_eq_getElem?_getD, List.getElem?_eq_none (by simpa using hlt)]
          rfl
  | node256 => simp [isFull, hn] at hfull
  | leaf => simp [Head.Wf, hn] at h

theorem forkHead_spec (ofs len key : Nat) {pk0 pk1 : Nat} (x y : ρ) (hne : pk0 ≠ pk1)
    (h0 : pk0 < 256) (h1 : pk1 < 256) :
    (forkHead ofs len key pk0 pk1).Wf (pairUp pk0 pk1 x y).length ∧
      ∀ d, findch (forkHead ofs len key pk0 pk1) (pairUp pk0 pk1 x y) d =
        if d = pk0 then x else if d = pk1 then y else default := by
  set hd := forkHead ofs len key pk0 pk1 with hdef
  have hn : hd.type = .node4 := rfl
  have hc : Compact hd := .inl hn
  have hsize : hd.size = 2 := rfl
  have hs : Sorted hd (pairUp pk0 pk1 x y).length :=
    ⟨pairUp_length, pairUp_length, pairUp_ascending hne, by simp [hdef, forkHead, h0, h1]⟩
  have hwf : hd.Wf (pairUp pk0 pk1 x y).length := (wf_node4 hn).mpr ⟨hs, le_refl 2, by omega⟩
  refine ⟨hwf, fun d => ?_⟩
  rw [hc.findch hwf]
  exact look_pairUp pk0 pk1 x y d

section Related

variable {R : ρ → σ → Prop} {xs : List ρ} {ys : List σ} {y : σ}

theorem related_getch (h : List.Forall₂ R xs ys) (h₀ : R default default) (hd : Head) (idx : Nat) :
    R (getch hd xs idx) (getch hd ys idx) := related_get h h₀ _

theorem related_setch (h : List.Forall₂ R xs ys) (h₀ : R default default) (hx : R x y) (hd : Head)
    (idx : Nat) : List.Forall₂ R (setch hd xs idx x) (setch hd ys idx y) := related_put h h₀ hx _

theorem related_copychAt (h : List.Forall₂ R xs ys) (h₀ : R default default) (new old : Head)
    (idx : Nat) : List.Forall₂ R (copychAt new old xs idx) (copychAt new old ys idx) := by
  have hins := related_insertIdx h h₀ idx
  unfold copychAt
  cases old.type with
  | node4 => exact hins
  | node16 =>
      by_cases hn : new.type = .node16
      · simpa only [if_pos hn] using hins
      · simpa only [if_neg hn] using h
  | node48 =>
      by_cases hn : new.type = .node48
      · simpa only [if_pos hn] using h
      · simp only [if_neg hn]
        generalize List.range 256 = l
        induction l with
        | nil => exact .nil
        | cons e l ih =>
            refine .cons ?_ ih
            by_cases he : old.keys.getD e noSlot = noSlot
            · simpa only [if_pos he] using h₀
            · simpa only [if_neg he] using related_get h h₀ _
  | node256 => exact h
  | leaf => exact .nil

end Related

end Contrees.Trees.Art
