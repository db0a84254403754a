import Contrees.Trees.Aert

namespace Contrees.Trees.Aert

open Library Library.Slots Library.SearchTree Word

variable {ρ σ : Type} [Inhabited ρ] [Inhabited σ] {hd new : Head} {chs : List ρ} {d idx m : Nat}
    {x : ρ}

structure Sorted (hd : Head) (m : Nat) : Prop where
  keys_length : hd.keys.length = hd.size
  chs_length : m = hd.size
  ascending : hd.keys.Pairwise (· < ·)
  keys_lt : ∀ k ∈ hd.keys, k < 2 ^ nodeKeyLen hd.type

/-- A node with `m` children is laid out as its type says; a split also meets
nodes that have less than two children. -/
def Head.Laid (hd : Head) (m : Nat) : Prop :=
  match hd.type with
  | .node4 | .nodeh4 => Sorted hd m ∧ hd.size ≤ 4
  | .node16 => Sorted hd m ∧ hd.size ≤ 16
  | .nodeh16 => hd.size = 0
  | .leaf => False

structure Head.Wf (hd : Head) (m : Nat) : Prop where
  laid : hd.Laid m
  two_le : hd.type ≠ .nodeh16 → 2 ≤ hd.size

def Compact (hd : Head) : Prop := hd.type = .node4 ∨ hd.type = .node16 ∨ hd.type = .nodeh4

theorem Head.Laid.cases (h : hd.Laid m) : Compact hd ∨ hd.type = .nodeh16 := by
  cases hn : hd.type <;> simp_all [Head.Laid, Compact]

theorem Head.Laid.not_leaf (h : hd.Laid m) : hd.type ≠ .leaf := by
  intro hn
  simp [Head.Laid, hn] at h

theorem Compact.not_direct (hc : Compact hd) : hd.type ≠ .nodeh16 := by
  rcases hc with hc | hc | hc <;> simp [hc]

theorem Compact.sorted (hc : Compact hd) (h : hd.Laid m) : Sorted hd m := by
  rcases hc with hc | hc | hc <;> simp only [Head.Laid, hc] at h
  exacts [h.1, h.1, h.1]

theorem Compact.small (hc : Compact hd) (h : hd.Laid m) (hn : hd.type ≠ .node16) : hd.size ≤ 4 := by
  rcases hc with hc | hc | hc <;> simp only [Head.Laid, hc] at h
  exacts [h.2, absurd hc hn, h.2]

theorem Compact.size_le (hc : Compact hd) (h : hd.Laid m) : hd.size ≤ 16 := by
  rcases hc with hc | hc | hc <;> simp only [Head.Laid, hc] at h <;> omega

theorem Head.Laid.carry (h : hd.Laid m) (type : new.type = hd.type) (size : new.size = hd.size)
    (keys : new.keys = hd.keys) : new.Laid m := by
  have hsorted : Sorted hd m → Sorted new m := by
    rintro ⟨h₁, h₂, h₃, h₄⟩
    exact ⟨by rw [keys, size, h₁], by rw [size, h₂], keys ▸ h₃, by rw [keys, type]; exact h₄⟩
  cases hn : hd.type <;> simp only [Head.Laid, type, hn, size] at h ⊢
  exacts [⟨hsorted h.1, h.2⟩, ⟨hsorted h.1, h.2⟩, ⟨hsorted h.1, h.2⟩, h]

theorem Head.Wf.carry (h : hd.Wf m) (type : new.type = hd.type) (size : new.size = hd.size)
    (keys : new.keys = hd.keys) : new.Wf m :=
  ⟨h.laid.carry type size keys, by rw [type, size]; exact h.two_le⟩

section Find

theorem node4Find_eq (h : Sorted hd m) (hl : 2 ≤ hd.size) (hu : hd.size ≤ 4) (d : Nat) :
    node4Find hd d = hd.keys.findIdx? (· = d) := by
  have hlen := h.keys_length
  match hk : hd.keys with
  | [] | [_] =>
      simp only [hk, List.length_cons, List.length_nil] at hlen
      omega
  | [a, b] =>
      have hsize : hd.size = 2 := by simp [← hlen, hk]
      by_cases ha : a = d <;> by_cases hb : b = d <;>
        simp [node4Find, hk, hsize, List.findIdx?_cons, ha, hb]
  | [a, b, c] =>
      have hsize : hd.size = 3 := by simp [← hlen, hk]
      by_cases ha : a = d <;> by_cases hb : b = d <;> by_cases hc : c = d <;>
        simp [node4Find, hk, hsize, List.findIdx?_cons, ha, hb, hc]
  | [a, b, c, e] =>
      have hsize : hd.size = 4 := by simp [← hlen, hk]
      by_cases ha : a = d <;> by_cases hb : b = d <;> by_cases hc : c = d <;>
        by_cases he : e = d <;>
        simp [node4Find, hk, hsize, List.findIdx?_cons, ha, hb, hc, he]
  | _ :: _ :: _ :: _ :: _ :: _ =>
      simp only [hk, List.length_cons] at hlen
      omega

/-- With less than two keys `node4_find` may meet the zeros behind them, whose
children are null. -/
theorem node4Find_small (h : Sorted hd chs.length) (hu : hd.size < 2) (d : Nat) :
    (match node4Find hd d with
      | some i => chs.getD i default
      | none => default) = look hd.keys chs d := by
  have hlen := h.keys_length
  have hlen' := h.chs_length
  match hk : hd.keys, hc : chs with
  | [], [] =>
      have hnil : ∀ i : Nat, ([] : List ρ).getD i default = default := fun i => rfl
      rw [look_nil]
      split
      · exact hnil _
      · rfl
  | [a], [y] =>
      have hsize : hd.size = 1 := by simp [← hlen, hk]
      rw [look_cons, look_nil]
      by_cases ha : a = d
      · simp [node4Find, hk, ha]
      · by_cases h0 : 0 = d
        · simp [node4Find, hk, ha, h0, Ne.symm ha]
        · simp [node4Find, hk, ha, h0, hsize, Ne.symm ha]
  | _ :: _ :: _, _ =>
      simp only [hk, List.length_cons] at hlen
      omega
  | [], _ :: _ | [_], [] | [_], _ :: _ :: _ =>
      simp only [hk, List.length_cons, List.length_nil] at hlen hlen'
      omega

theorem Compact.findidx (hc : Compact hd) (h : hd.Wf m) (d : Nat) :
    findidx hd d = hd.keys.findIdx? (· = d) := by
  have hs := hc.sorted h.laid
  have htwo := h.two_le hc.not_direct
  have hsmall := hc.small h.laid
  rcases hc with hc | hc | hc <;> simp only [Aert.findidx, hc]
  · exact node4Find_eq hs htwo (hsmall (by simp [hc])) d
  · exact node4Find_eq hs htwo (hsmall (by simp [hc])) d

theorem Compact.findch (hc : Compact hd) (h : hd.Laid chs.length) (d : Nat) :
    findch hd chs d = look hd.keys chs d := by
  have hs := hc.sorted h
  have hlook := look_of_findIdx (d := d) (hs.keys_length.trans hs.chs_length.symm)
  by_cases hn : hd.type = .node16
  · rw [hlook, Aert.findch, Aert.findidx, hn]
    rfl
  · have hfind : Aert.findidx hd d = node4Find hd d := by
      rcases hc with hc | hc | hc
      · simp only [Aert.findidx, hc]
      · exact absurd hc hn
      · simp only [Aert.findidx, hc]
    rw [Aert.findch, hfind]
    by_cases htwo : 2 ≤ hd.size
    · rw [hlook, node4Find_eq hs htwo (hc.small h hn)]
      rfl
    · exact node4Find_small hs (by omega) d

theorem direct_findch (hn : hd.type = .nodeh16) : findch hd chs d = chs.getD d default := by
  simp [findch, findidx, hn, getch]

theorem findch_map {f : ρ → σ} (hf : f default = default) (d : Nat) :
    findch hd (chs.map f) d = f (findch hd chs d) := by
  simp only [findch, getch]
  cases findidx hd d with
  | none => exact hf.symm
  | some i => exact getD_map hf

theorem findch_eq_getch (hi : findidx hd d = some idx) : findch hd chs d = getch chs idx := by
  simp only [findch, hi]

theorem findch_eq_default (hi : findidx hd d = none) : findch hd chs d = default := by
  simp only [findch, hi]

theorem findch_mem (hd : Head) (chs : List ρ) (d : Nat) :
    findch hd chs d = default ∨ findch hd chs d ∈ chs := by
  rw [findch]
  cases findidx hd d with
  | none => exact .inl rfl
  | some i => exact getD_mem i chs

end Find

section Update

theorem setch_spec (h : hd.Wf chs.length) (hi : findidx hd d = some idx) :
    findch hd (setch chs idx x) = Function.update (findch hd chs) d x ∧
      hd.Wf (setch chs idx x).length := by
  rcases h.laid.cases with hc | hn
  · have hs := hc.sorted h.laid
    have hlen := hs.keys_length.trans hs.chs_length.symm
    have hk := hc.findidx h d ▸ hi
    have hlt : idx < chs.length := hlen ▸ (List.findIdx?_eq_some_iff_getElem.mp hk).1
    have hlen' : (setch chs idx x).length = chs.length := by
      rw [setch, put_length, max_eq_left hlt]
    have hwf : hd.Wf (setch chs idx x).length := hlen' ▸ h
    refine ⟨?_, hwf⟩
    funext e
    rw [hc.findch hwf.laid, setch, put_of_lt hlt, look_set hs.ascending hlen hk,
      Function.update_apply, Function.update_apply, hc.findch h.laid]
  · have hi' : d = idx := by simpa [findidx, hn] using hi
    subst hi'
    refine ⟨?_, ?_, h.two_le⟩
    · funext e
      rw [direct_findch hn, Function.update_apply, direct_findch hn, setch, getD_put]
    · have hl := h.laid
      simp only [Head.Laid, hn] at hl ⊢
      exact hl

theorem mem_setch (h : hd.Wf chs.length) (hi : findidx hd d = some idx) {c : ρ}
    (hc : c ∈ setch chs idx x) : c = x ∨ c ∈ chs ∨ hd.type = .nodeh16 ∧ c = default := by
  rcases h.laid.cases with hcomp | hn
  · have hs := hcomp.sorted h.laid
    have hlt := (List.findIdx?_eq_some_iff_getElem.mp (hcomp.findidx h d ▸ hi)).1
    rw [hs.keys_length.trans hs.chs_length.symm] at hlt
    rw [setch, put_of_lt hlt] at hc
    have := (List.mem_or_eq_of_mem_set hc).symm
    tauto
  · have := mem_put hc
    tauto

theorem append_type (hd : Head) (d : Nat) : (append hd d).2.type = hd.type := by
  cases hn : hd.type <;> simp [append, grow, hn]

theorem Compact.append (hc : Compact hd) (d : Nat) :
    append hd d = (findgt hd d, grow hd (hd.keys.insertIdx (findgt hd d) d)) := by
  rcases hc with hc | hc | hc <;> simp [Aert.append, hc]

theorem direct_append (hn : hd.type = .nodeh16) (d : Nat) : append hd d = (d, hd) := by
  simp [append, hn]

theorem Compact.absent (hc : Compact hd) (h : hd.Wf m) (hi : Aert.findidx hd d = none) :
    d ∉ hd.keys := by
  rw [hc.findidx h, List.findIdx?_eq_none_iff] at hi
  intro hd'
  simpa using hi d hd'

theorem Sorted.append (h : Sorted hd m) (hlt : d < 2 ^ nodeKeyLen hd.type) (hd' : d ∉ hd.keys) :
    Sorted (grow hd (hd.keys.insertIdx (findgt hd d) d)) (m + 1) := by
  have hle : findgt hd d ≤ hd.keys.length := findch_le _ _
  refine ⟨?_, congrArg (· + 1) h.chs_length, insertIdx_ascending h.ascending hd', ?_⟩
  · rw [grow_keys, List.length_insertIdx_of_le_length hle, h.keys_length, grow_size]
  · intro k hk
    rcases (List.mem_insertIdx hle).mp hk with rfl | hk
    exacts [hlt, h.keys_lt k hk]

theorem Compact.grown {keys : List Nat} (hc : Compact hd) (h : hd.Laid m)
    (hroom : isFull hd = false)
    (hs : Sorted (grow hd keys) (m + 1)) : (grow hd keys).Laid (m + 1) := by
  rcases hc with hn | hn | hn
  all_goals
    simp only [isFull, hn, decide_eq_false_iff_not] at hroom
    simp only [Head.Laid, hn, grow_type, grow_size] at h ⊢
    exact ⟨hs, by omega⟩

theorem insertch_spec (h : hd.Laid chs.length) (hlt : d < 2 ^ nodeKeyLen hd.type)
    (habs : Compact hd → d ∉ hd.keys) (hroom : isFull hd = false) :
    findch (append hd d).2 (insertch (append hd d).2 chs (append hd d).1 x) =
        Function.update (findch hd chs) d x ∧
      (append hd d).2.Laid (insertch (append hd d).2 chs (append hd d).1 x).length := by
  rcases h.cases with hc | hn
  · have hs := hc.sorted h
    have hlen := hs.keys_length.trans hs.chs_length.symm
    have hle : findgt hd d ≤ chs.length := hlen ▸ findch_le _ _
    have hnew := hs.append hlt (habs hc)
    have hlen' : (chs.insertIdx (findgt hd d) x).length = chs.length + 1 :=
      List.length_insertIdx_of_le_length hle x
    have hins : insertch (append hd d).2 chs (append hd d).1 x = chs.insertIdx (findgt hd d) x := by
      rw [hc.append]
      rcases hc with hc | hc | hc <;> simp [insertch, grow, hc]
    have hlaid : (append hd d).2.Laid (chs.insertIdx (findgt hd d) x).length := by
      rw [hc.append, hlen']
      exact hc.grown h hroom hnew
    rw [hins]
    refine ⟨?_, hlaid⟩
    have hc' : Compact (append hd d).2 := by
      rw [Compact, append_type]
      exact hc
    funext e
    rw [hc'.findch hlaid, hc.append, Function.update_apply, hc.findch h]
    have := congrFun (look_insertIdx (x := x) hs.ascending hlen (habs hc)) e
    rwa [Function.update_apply] at this
  · have hins : insertch hd chs d x = setch chs d x := by simp only [insertch, hn]
    rw [direct_append hn, hins]
    refine ⟨?_, ?_⟩
    · funext e
      rw [direct_findch hn, Function.update_apply, direct_findch hn, setch, getD_put]
    · simp only [Head.Laid, hn] at h ⊢
      exact h

theorem mem_insertch (h : hd.Laid chs.length) {c : ρ}
    (hc : c ∈ insertch (append hd d).2 chs (append hd d).1 x) :
    c = x ∨ c ∈ chs ∨ hd.type = .nodeh16 ∧ c = default := by
  rcases h.cases with hcomp | hn
  · have hs := hcomp.sorted h
    have hle : findgt hd d ≤ chs.length := (hs.keys_length.trans hs.chs_length.symm) ▸ findch_le _ _
    have hins : insertch (append hd d).2 chs (append hd d).1 x = chs.insertIdx (findgt hd d) x := by
      rw [hcomp.append]
      rcases hcomp with hc | hc | hc <;> simp [insertch, grow, hc]
    rw [hins] at hc
    have := (List.mem_insertIdx hle).mp hc
    tauto
  · have hins : insertch hd chs d x = setch chs d x := by simp only [insertch, hn]
    rw [direct_append hn, hins] at hc
    have := mem_put hc
    tauto

theorem extend_node4 (hn : hd.type = .node4) (h : hd.Wf chs.length)
    (hlt : d < 2 ^ nodeKeyLen hd.type) (hi : findidx hd d = none) (hfull : isFull hd = true) :
    findch (extendAppend hd d).2
    (setch (copychAt (extendAppend hd d).2 hd chs (extendAppend hd d).1)
        (extendAppend hd d).1 x) = Function.update (findch hd chs) d x ∧
      (extendAppend hd d).2.Wf (setch (copychAt (extendAppend hd d).2 hd chs (extendAppend hd d).1)
        (extendAppend hd d).1 x).length ∧
      ∀ c ∈ setch (copychAt (extendAppend hd d).2 hd chs (extendAppend hd d).1)
        (extendAppend hd d).1 x, c = x ∨ c ∈ chs := by
  have hc : Compact hd := .inl hn
  have hs := hc.sorted h.laid
  have hlen := hs.keys_length.trans hs.chs_length.symm
  have habs := hc.absent h hi
  have hle : findgt hd d ≤ chs.length := hlen ▸ findch_le _ _
  have hsize : hd.size = 4 := by simpa [isFull, hn] using hfull
  set new : Head := grow (newNode .node16 hd.pfxOfs hd.pfxLen hd.pfx)
    (hd.keys.insertIdx (findgt hd d) d) with hnew
  have hext : extendAppend hd d = (findgt hd d, new) := by simp [extendAppend, hn, hnew]
  have hset : setch (copychAt new hd chs (findgt hd d)) (findgt hd d) x =
      chs.insertIdx (findgt hd d) x := by
    simp only [copychAt, hn]
    exact put_insertIdx hle
  have hlen' : (chs.insertIdx (findgt hd d) x).length = chs.length + 1 :=
    List.length_insertIdx_of_le_length hle x
  rw [hext, hset]
  have happ := hs.append hlt habs
  have hwidth : nodeKeyLen hd.type = nodeKeyLen new.type := by rw [hn]; rfl
  have hs' : Sorted new (chs.insertIdx (findgt hd d) x).length := by
    refine ⟨?_, ?_, happ.ascending, ?_⟩
    · exact happ.keys_length.trans (by rw [grow_size, hsize]; rfl)
    · rw [hlen', hs.chs_length, hsize]
      rfl
    · rw [← hwidth]
      exact happ.keys_lt
  have hwf : new.Wf (chs.insertIdx (findgt hd d) x).length := by
    refine ⟨⟨hs', ?_⟩, fun _ => ?_⟩
    · change 5 ≤ 16
      omega
    · change 2 ≤ 5
      omega
  refine ⟨?_, hwf, fun c hmem => (List.mem_insertIdx hle).mp hmem⟩
  have hc' : Compact new := .inr (.inl rfl)
  funext e
  have hlook := congrFun (look_insertIdx (x := x) hs.ascending hlen habs) e
  rw [Function.update_apply] at hlook
  rw [hc'.findch hwf.laid, Function.update_apply, hc.findch h.laid]
  exact hlook

theorem extend_nodeh4 (hn : hd.type = .nodeh4) (h : hd.Laid chs.length) :
    findch (extendAppend hd d).2
    (setch (copychAt (extendAppend hd d).2 hd chs (extendAppend hd d).1)
        (extendAppend hd d).1 x) = Function.update (findch hd chs) d x ∧
      (extendAppend hd d).2.Wf (setch (copychAt (extendAppend hd d).2 hd chs (extendAppend hd d).1)
        (extendAppend hd d).1 x).length ∧
      ∀ c ∈ setch (copychAt (extendAppend hd d).2 hd chs (extendAppend hd d).1)
        (extendAppend hd d).1 x, c = x ∨ c ∈ chs ∨ c = default := by
  have hc : Compact hd := .inr (.inr hn)
  have hs := hc.sorted h
  have hlen := hs.keys_length.trans hs.chs_length.symm
  have hks : ∀ k ∈ hd.keys, k < 16 := by simpa [hn, nodeKeyLen] using hs.keys_lt
  have hext : extendAppend hd d = (d, newNode .nodeh16 hd.pfxOfs hd.pfxLen hd.pfx) := by
    simp [extendAppend, hn]
  have hcopy : copychAt (newNode .nodeh16 hd.pfxOfs hd.pfxLen hd.pfx) hd chs d =
      spread 16 hd.keys chs := by
    simp only [copychAt, hn]
    exact if_neg (by simp [newNode])
  rw [hext, hcopy]
  refine ⟨?_, ⟨rfl, fun hne => absurd rfl hne⟩, fun c hmem => ?_⟩
  · funext e
    rw [direct_findch rfl, setch, getD_put, Function.update_apply, hc.findch h,
      getD_spread (hs.ascending.imp fun h => h.ne) hlen hks]
  · have hput := mem_put hmem
    have hspread : c ∈ spread 16 hd.keys chs → c = default ∨ c ∈ chs := mem_spread
    tauto

theorem extend_spec (h : hd.Wf chs.length) (hlt : d < 2 ^ nodeKeyLen hd.type)
    (hi : findidx hd d = none) (hfull : isFull hd = true) (hsize : hd.size ≠ 16) :
    findch (extendAppend hd d).2
    (setch (copychAt (extendAppend hd d).2 hd chs (extendAppend hd d).1)
        (extendAppend hd d).1 x) = Function.update (findch hd chs) d x ∧
      (extendAppend hd d).2.Wf (setch (copychAt (extendAppend hd d).2 hd chs (extendAppend hd d).1)
        (extendAppend hd d).1 x).length ∧
      ∀ c ∈ setch (copychAt (extendAppend hd d).2 hd chs (extendAppend hd d).1)
        (extendAppend hd d).1 x, c = x ∨ c ∈ chs ∨ (extendAppend hd d).2.type = .nodeh16 ∧
        c = default := by
  cases hn : hd.type with
  | node4 =>
      obtain ⟨hfind, hwf, hmem⟩ := extend_node4 (x := x) hn h hlt hi hfull
      exact ⟨hfind, hwf, fun c hc => (hmem c hc).imp_right .inl⟩
  | node16 => exact absurd (by simpa [isFull, hn] using hfull) hsize
  | nodeh4 =>
      obtain ⟨hfind, hwf, hmem⟩ := extend_nodeh4 (x := x) (d := d) hn h.laid
      have htype : (extendAppend hd d).2.type = .nodeh16 := by simp [extendAppend, hn, newNode]
      exact ⟨hfind, hwf, fun c hc => (hmem c hc).imp_right fun h => h.imp_right fun h => ⟨htype, h⟩⟩
  | nodeh16 => simp [isFull, hn] at hfull
  | leaf => exact absurd hn h.laid.not_leaf

theorem forkHead_spec {type : NodeType} (htype : type = .node4 ∨ type = .nodeh4) (ofs len key : Nat)
    {pk0 pk1 : Nat} (x y : ρ) (hne : pk0 ≠ pk1) (h0 : pk0 < 2 ^ nodeKeyLen type)
    (h1 : pk1 < 2 ^ nodeKeyLen type) :
    (forkHead type ofs len key pk0 pk1).Wf (pairUp pk0 pk1 x y).length ∧
      ∀ d, findch (forkHead type ofs len key pk0 pk1) (pairUp pk0 pk1 x y) d =
        if d = pk0 then x else if d = pk1 then y else default := by
  set hd := forkHead type ofs len key pk0 pk1 with hdef
  have hn : hd.type = type := rfl
  have hc : Compact hd := by
    rcases htype with h | h <;> simp [Compact, hn, h]
  have hsize : hd.size = 2 := by
    rcases htype with h | h <;> simp [hdef, forkHead, newNode, h]
  have hs : Sorted hd (pairUp pk0 pk1 x y).length :=
    ⟨pairUp_length.trans hsize.symm, pairUp_length.trans hsize.symm, pairUp_ascending hne,
      by simp [hdef, forkHead, newNode, h0, h1]⟩
  have hlaid : hd.Laid (pairUp pk0 pk1 x y).length := by
    rcases htype with h | h
    all_goals
      simp only [Head.Laid, hn, h, hsize]
      exact ⟨hs, by omega⟩
  refine ⟨⟨hlaid, fun _ => hsize.ge⟩, fun d => ?_⟩
  rw [hc.findch hlaid]
  exact look_pairUp pk0 pk1 x y d

end Update

section Visit

variable {chs : List Tree} {γ : Type} {f : Tree → List γ} {pkey : Option Nat}

theorem isNull_iff {t : Tree} : isNull t = true ↔ t = .null := by
  cases t <;> simp [isNull]

def above (w : Nat) : Option Nat → List Nat
  | none => List.range (2 ^ w)
  | some pkey => List.range' (pkey + 1) (2 ^ w - (pkey + 1))

theorem visited_spec (h : hd.Laid chs.length) (hf : f .null = []) :
    (visited hd chs pkey).flatMap (fun i => f (chs.getD i .null)) =
      (above (nodeKeyLen hd.type) pkey).flatMap (fun d => f (findch hd chs d)) := by
  rcases h.cases with hc | hn
  · have hs := hc.sorted h
    have hlen := hs.keys_length.trans hs.chs_length.symm
    have hvis : visited hd chs pkey =
        List.range' (pkey.elim 0 (findgt hd)) (chs.length - pkey.elim 0 (findgt hd)) := by
      rw [hs.chs_length]
      rcases hc with hc | hc | hc <;> simp only [visited, hc]
    have hplaces := flatMap_places f (pkey.elim 0 (findgt hd)) chs
    rw [hvis]
    refine hplaces.trans ?_
    cases pkey with
    | none =>
        rw [Option.elim_none, List.drop_zero, ← flatMap_look (a := 0)
          (n := 2 ^ nodeKeyLen hd.type) hf
          hs.ascending hlen (by simpa using hs.keys_lt), above, List.range_eq_range']
        exact List.flatMap_congr fun d _ => by rw [hc.findch h]
    | some p =>
        have hdrop := hs.ascending.sublist (List.drop_sublist (findgt hd p) _)
        have hlen' : (hd.keys.drop (findgt hd p)).length = (chs.drop (findgt hd p)).length := by
          rw [List.length_drop, List.length_drop, hlen]
        have hin : ∀ e ∈ hd.keys.drop (findgt hd p),
            p + 1 ≤ e ∧ e < p + 1 + (2 ^ nodeKeyLen hd.type - (p + 1)) := by
          intro e he
          have hlt := hs.keys_lt e (List.mem_of_mem_drop he)
          have hgt : p < e := findch_drop_gt hs.ascending e he
          omega
        rw [Option.elim_some, ← flatMap_look hf hdrop hlen' hin, above]
        refine List.flatMap_congr fun d hd' => ?_
        have hgt : p < d := (List.mem_range'_1.mp hd').1
        have hlook : look (hd.keys.drop (findgt hd p)) (chs.drop (findgt hd p)) d =
            look hd.keys chs d := look_drop hs.ascending hlen hgt
        rw [hc.findch h, hlook]
  · have hdigits : digits pkey = above (nodeKeyLen hd.type) pkey := by
      rw [hn]
      cases pkey <;> rfl
    simp only [visited, hn]
    rw [← hn, ← hdigits, flatMap_filter]
    · exact List.flatMap_congr fun d _ => by rw [direct_findch hn]; rfl
    · intro d _ hnull
      have heq : chs.getD d .null = .null := isNull_iff.mp (by simpa using hnull)
      rw [heq, hf]

theorem visited_ne (h : hd.Laid chs.length) (hnull : hd.type ≠ .nodeh16 → Tree.null ∉ chs) :
    ∀ i ∈ visited hd chs pkey, ∃ t, chs[i]? = some t ∧ t ≠ .null := by
  intro i hi
  rcases h.cases with hc | hn
  · have hs := hc.sorted h
    have hlt : i < chs.length := by
      have hi' : i ∈ List.range' (pkey.elim 0 (findgt hd)) (hd.size - pkey.elim 0 (findgt hd)) := by
        rcases hc with hc | hc | hc <;> simpa only [visited, hc] using hi
      have := List.mem_range'_1.mp hi'
      have := hs.chs_length
      omega
    exact ⟨chs[i], List.getElem?_eq_getElem hlt,
      fun heq => hnull hc.not_direct (heq ▸ List.getElem_mem hlt)⟩
  · simp only [visited, hn, List.mem_filter] at hi
    have hi := hi.2
    rw [List.getD_eq_getElem?_getD] at hi
    cases hc : chs[i]? with
    | none => simp [hc, isNull] at hi
    | some t =>
        refine ⟨t, rfl, fun hnull => ?_⟩
        simp [hc, hnull, isNull] at hi

end Visit

end Contrees.Trees.Aert
