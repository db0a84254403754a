import Contrees.Trees.AertCanon

namespace Contrees.Trees.Aert

open Library Library.Words Library.OrderedMap Library.Slots Word

section Shifts

def partialKeyShifts (pos len : Nat) : List Int := [64 - len - pos, 8 - len]

def prefixMaskShifts (ofs len : Nat) : List Int :=
  if len = 0 then [] else [64 - len, 64 - len - ofs]

def ptrPfxMatchShifts (ofs : Nat) : List Int := [64 - ofs, ofs - 4, 64 - 5]

def prefixMatchShifts (hd : Head) : List Int :=
  prefixMaskShifts hd.pfxOfs hd.pfxLen ++ [(hd.pfxOfs : Int)]

def newNodeShifts (type : NodeType) (pfxOfs pfxLen : Nat) : List Int :=
  if type = .leaf then [] else prefixMaskShifts pfxOfs pfxLen

def newNodehShifts (size pfxOfs pfxLen : Nat) : List Int :=
  newNodeShifts (if size > 4 then .nodeh16 else .nodeh4) pfxOfs pfxLen

def newLeafShifts (pfxOfs : Nat) : List Int :=
  if pfxOfs % 8 = 4 then
    newNodeShifts .leaf (pfxOfs + 4) (64 - 4 - pfxOfs) ++ partialKeyShifts pfxOfs 4
  else newNodeShifts .leaf pfxOfs (64 - pfxOfs)

def node16Shifts (hd : Head) : List Int := if hd.type = .node16 then [(hd.size : Int)] else []

def extendAppendShifts (hd : Head) : List Int :=
  match hd.type with
  | .node4 => newNodeShifts .node16 hd.pfxOfs hd.pfxLen
  | .nodeh4 => newNodeShifts .nodeh16 hd.pfxOfs hd.pfxLen
  | .node16 | .nodeh16 | .leaf => []

def nodeForkShifts (hd : Head) (pmlen ofs : Nat) : List Int :=
  newNodeShifts .node4 ofs pmlen ++ partialKeyShifts (hd.pfxOfs + pmlen) 8 ++
    (if hd.type = .leaf then []
      else prefixMaskShifts (hd.pfxOfs + (pmlen + 8)) (hd.pfxLen - (pmlen + 8))) ++
    partialKeyShifts (ofs + pmlen) 8 ++ newLeafShifts (ofs + pmlen + 8)

def nodehForkShifts (ofs : Nat) : List Int :=
  newNodeShifts .nodeh4 ofs 0 ++ partialKeyShifts ofs 4 ++ newLeafShifts (ofs + 4)

def createUpperHalfShifts (hd : Head) (pkey : Nat) : List Int :=
  List.replicate 17 4 ++
    newNodehShifts ((List.range 16).countP (chSz hd pkey · ≠ 0)) hd.pfxOfs hd.pfxLen ++
    (List.range 16).flatMap (fun idx =>
      if chSz hd pkey idx > 1 then newNodehShifts (chSz hd pkey idx) (hd.pfxOfs + hd.pfxLen + 4) 0
      else [])

def createLowerHalfShifts : List Int := [4]

def nodeSplitShifts (hd : Head) (chs : List Tree) (pkey ofs : Nat) : List Int :=
  createUpperHalfShifts hd pkey ++ (hd.keys.zip chs).flatMap (fun _ => createLowerHalfShifts) ++
    newLeafShifts ofs ++ partialKeyShifts (ofs - 8) 8 ++ createLowerHalfShifts

mutual

def findShifts (key : Nat) : Tree → List Int
  | .null => []
  | .tagged lo t =>
      ptrPfxMatchShifts t.pfxOfs ++ if ptrPfxMatch lo t.pfxOfs key < 4 then [] else findShifts key t
  | .leaf hd _ => prefixMatchShifts hd
  | .node hd chs =>
      prefixMatchShifts hd ++
        if hd.pfxLen > pmlen hd key then []
        else
          partialKeyShifts (hd.pfxOfs + hd.pfxLen) (nodeKeyLen hd.type) ++ node16Shifts hd ++
            match findidx hd (partialKey key (hd.pfxOfs + hd.pfxLen) (nodeKeyLen hd.type)) with
            | some idx => findShiftsAt key chs idx
            | none => []

def findShiftsAt (key : Nat) : List Tree → Nat → List Int
  | [], _ => []
  | t :: _, 0 => findShifts key t
  | _ :: ts, i + 1 => findShiftsAt key ts i

end

mutual

def updateInplaceShifts (key : Nat) : Tree → Nat → List Int
  | .null, ofs => newLeafShifts ofs
  | .tagged lo t, ofs =>
      ptrPfxMatchShifts t.pfxOfs ++
        if ptrPfxMatch lo t.pfxOfs key < 4 then nodehForkShifts ofs
        else updateInplaceShifts key t (ofs + 4)
  | .leaf hd _, ofs =>
      prefixMatchShifts hd ++
        if pmlen hd key < hd.pfxLen then nodeForkShifts hd (pmlen hd key) ofs else []
  | .node hd chs, ofs =>
      prefixMatchShifts hd ++
        if pmlen hd key < hd.pfxLen then nodeForkShifts hd (pmlen hd key) ofs
        else
          let pkey := partialKey key (ofs + hd.pfxLen) (nodeKeyLen hd.type)
          let ofs' := ofs + hd.pfxLen + nodeKeyLen hd.type
          partialKeyShifts (ofs + hd.pfxLen) (nodeKeyLen hd.type) ++ node16Shifts hd ++
            match findidx hd pkey with
            | some idx => updateShiftsAt key chs idx ofs'
            | none =>
                if hd.size = 16 then nodeSplitShifts hd chs pkey ofs'
                else if isFull hd then extendAppendShifts hd ++ newLeafShifts ofs'
                else node16Shifts hd ++ newLeafShifts ofs'

def updateShiftsAt (key : Nat) : List Tree → Nat → Nat → List Int
  | [], _, ofs => newLeafShifts ofs
  | t :: _, 0, ofs => updateInplaceShifts key t ofs
  | _ :: ts, i + 1, ofs => updateShiftsAt key ts i ofs

end

mutual

/-- The search for a key ends at a LEAF after the last bit. -/
def endsLast (key : Nat) : Tree → Bool
  | .null => false
  | .tagged lo t => if ptrPfxMatch lo t.pfxOfs key < 4 then false else endsLast key t
  | .leaf hd _ => hd.pfxOfs = 64
  | .node hd chs =>
      if hd.pfxLen > pmlen hd key then false
      else
        match findidx hd (partialKey key (hd.pfxOfs + hd.pfxLen) (nodeKeyLen hd.type)) with
        | some idx => endsLastAt key chs idx
        | none => false

def endsLastAt (key : Nat) : List Tree → Nat → Bool
  | [], _ => false
  | t :: _, 0 => endsLast key t
  | _ :: ts, i + 1 => endsLastAt key ts i

end

end Shifts

section Ranges

variable {hd : Head} {cs cs' : List Int} {ofs len key pmlen lo : Nat} {t : Tree} {chs : List Tree}

def InRange (cs : List Int) : Prop := ∀ c ∈ cs, 0 ≤ c ∧ c ≤ 63

@[simp] theorem inRange_nil : InRange [] := by simp [InRange]

@[simp] theorem inRange_cons {c : Int} : InRange (c :: cs) ↔ (0 ≤ c ∧ c ≤ 63) ∧ InRange cs :=
  List.forall_mem_cons

@[simp] theorem inRange_append : InRange (cs ++ cs') ↔ InRange cs ∧ InRange cs' :=
  List.forall_mem_append

theorem partialKeyShifts_inRange (hlen : len = 4 ∨ len = 8) (h : ofs + len ≤ 64) :
    InRange (partialKeyShifts ofs len) := by
  simp only [partialKeyShifts, inRange_cons, inRange_nil, and_true]
  omega

theorem prefixMaskShifts_inRange (h : ofs + len ≤ 64) : InRange (prefixMaskShifts ofs len) := by
  rw [prefixMaskShifts]
  split
  · exact inRange_nil
  · simp only [inRange_cons, inRange_nil, and_true]
    omega

theorem newNodeShifts_inRange (type : NodeType) (h : ofs + len ≤ 64) :
    InRange (newNodeShifts type ofs len) := by
  rw [newNodeShifts]
  split
  · exact inRange_nil
  · exact prefixMaskShifts_inRange h

theorem newLeafShifts_inRange (h : ofs ≤ 64) : InRange (newLeafShifts ofs) := by
  rw [newLeafShifts]
  split
  · rw [inRange_append]
    exact ⟨newNodeShifts_inRange .leaf (by omega), partialKeyShifts_inRange (.inl rfl) (by omega)⟩
  · exact newNodeShifts_inRange .leaf (by omega)

theorem ptrPfxMatchShifts_inRange (h : 4 ≤ ofs) (h' : ofs ≤ 64) :
    InRange (ptrPfxMatchShifts ofs) := by
  simp only [ptrPfxMatchShifts, inRange_cons, inRange_nil, and_true]
  omega

/-- The word of a LEAF after the last bit is shifted out by 64. -/
theorem prefixMatchShifts_inRange (h : hd.pfxOfs + hd.pfxLen ≤ 64) :
    InRange (prefixMatchShifts hd) ↔ hd.pfxOfs < 64 := by
  have hmask : InRange (prefixMaskShifts hd.pfxOfs hd.pfxLen) := prefixMaskShifts_inRange h
  simp only [prefixMatchShifts, inRange_append, hmask, inRange_cons, inRange_nil, and_true,
    true_and]
  omega

theorem nodeForkShifts_inRange (h : hd.pfxOfs + hd.pfxLen ≤ 64) (hm : pmlen + 8 ≤ hd.pfxLen) :
    InRange (nodeForkShifts hd pmlen hd.pfxOfs) := by
  have hbyte : InRange (partialKeyShifts (hd.pfxOfs + pmlen) 8) :=
    partialKeyShifts_inRange (.inr rfl) (by omega)
  simp only [nodeForkShifts, inRange_append]
  refine ⟨⟨⟨⟨newNodeShifts_inRange .node4 (by omega), hbyte⟩, ?_⟩, hbyte⟩,
    newLeafShifts_inRange (by omega)⟩
  split
  · exact inRange_nil
  · exact prefixMaskShifts_inRange (by omega)

theorem nodehForkShifts_inRange (h : ofs + 4 ≤ 64) : InRange (nodehForkShifts ofs) := by
  simp only [nodehForkShifts, inRange_append]
  exact ⟨⟨newNodeShifts_inRange .nodeh4 (by omega), partialKeyShifts_inRange (.inl rfl) h⟩,
    newLeafShifts_inRange h⟩

theorem extendAppendShifts_inRange (h : hd.pfxOfs + hd.pfxLen ≤ 64) :
    InRange (extendAppendShifts hd) := by
  cases htype : hd.type with
  | node4 => simpa only [extendAppendShifts, htype] using newNodeShifts_inRange .node16 h
  | nodeh4 => simpa only [extendAppendShifts, htype] using newNodeShifts_inRange .nodeh16 h
  | node16 => simp [extendAppendShifts, htype]
  | nodeh16 => simp [extendAppendShifts, htype]
  | leaf => simp [extendAppendShifts, htype]

theorem inRange_flatMap {α : Type} {l : List α} {f : α → List Int} (h : ∀ a ∈ l, InRange (f a)) :
    InRange (l.flatMap f) := by
  intro c hc
  obtain ⟨a, ha, hc⟩ := List.mem_flatMap.mp hc
  exact h a ha c hc

theorem createLowerHalfShifts_inRange : InRange createLowerHalfShifts := by
  simp [createLowerHalfShifts]

theorem createUpperHalfShifts_inRange (pkey : Nat) (h : hd.pfxOfs + hd.pfxLen + 4 ≤ 64) :
    InRange (createUpperHalfShifts hd pkey) := by
  simp only [createUpperHalfShifts, inRange_append]
  refine ⟨⟨?_, newNodeShifts_inRange _ (by omega)⟩, inRange_flatMap fun idx _ => ?_⟩
  · rintro c hc
    obtain rfl := List.eq_of_mem_replicate hc
    omega
  · split
    · exact newNodeShifts_inRange _ (by omega)
    · exact inRange_nil

theorem nodeSplitShifts_inRange (pkey : Nat) (h : hd.pfxOfs + hd.pfxLen + 4 ≤ 64)
    (hofs : ofs ≤ 64) :
    InRange (nodeSplitShifts hd chs pkey ofs) := by
  simp only [nodeSplitShifts, inRange_append]
  exact ⟨⟨⟨⟨createUpperHalfShifts_inRange pkey h, inRange_flatMap
    fun _ _ => createLowerHalfShifts_inRange⟩,
    newLeafShifts_inRange hofs⟩, partialKeyShifts_inRange (.inr rfl) (by omega)⟩,
    createLowerHalfShifts_inRange⟩

theorem node16Shifts_inRange (h : hd.Laid chs.length) : InRange (node16Shifts hd) := by
  rw [node16Shifts]
  split
  · have hsize := Compact.size_le (.inr (.inl ‹_›)) h
    simp only [inRange_cons, inRange_nil, and_true]
    omega
  · exact inRange_nil

end Ranges

section Searches

variable {hd : Head} {ofs key lo : Nat} {t : Tree} {chs : List Tree}

def childOf (key : Nat) (hd : Head) (chs : List Tree) : Tree :=
  findch hd chs (partialKey key (hd.pfxOfs + hd.pfxLen) (nodeKeyLen hd.type))

def Head.next (hd : Head) : Nat := hd.pfxOfs + hd.pfxLen + nodeKeyLen hd.type

theorem endsLast_node (key : Nat) (hd : Head) (chs : List Tree) : endsLast key (.node hd chs) =
    if hd.pfxLen > pmlen hd key then false else endsLast key (childOf key hd chs) := by
  have hat : ∀ i, endsLastAt key chs i = endsLast key (chs.getD i .null) :=
    at_eq Tree.null (fun _ => by rw [endsLastAt, endsLast]) (fun _ _ => rfl) (fun _ _ _ => rfl) chs
  have hnull : endsLast key default = false := endsLast.eq_1 key
  rw [endsLast, childOf, findch]
  cases findidx hd (partialKey key (hd.pfxOfs + hd.pfxLen) (nodeKeyLen hd.type)) with
  | none => simp only [hnull]
  | some idx =>
      simp only [hat]
      rfl

/-- A search that evaluates its shifts node by node. -/
structure Searches (key : Nat) (F : Tree → Nat → List Int) : Prop where
  null : ∀ ofs ≤ 64, InRange (F .null ofs)
  tagged : ∀ {ofs lo t}, ofs + 4 ≤ 64 → t.pfxOfs = ofs + 4 → (InRange (F (.tagged lo t) ofs) ↔
    (¬ ptrPfxMatch lo t.pfxOfs key < 4 → InRange (F t (ofs + 4))))
  leaf : ∀ {hd : Head} {val}, hd.pfxOfs + hd.pfxLen = 64 → 8 ∣ hd.pfxLen →
    (InRange (F (.leaf hd val) hd.pfxOfs) ↔ hd.pfxOfs < 64)
  node : ∀ {hd : Head} {chs : List Tree}, 8 ∣ hd.pfxLen → hd.next ≤ 64 → hd.Laid chs.length →
    (InRange (F (.node hd chs) hd.pfxOfs) ↔
      (¬ pmlen hd key < hd.pfxLen → InRange (F (childOf key hd chs) hd.next)))

theorem Searches.inRange_iff {F : Tree → Nat → List Int} (hF : Searches key F) (h : Wf ofs t)
    (hofs : ofs ≤ 64) : InRange (F t ofs) ↔ endsLast key t = false := by
  induction h with
  | null => exact iff_of_true (hF.null _ hofs) (endsLast.eq_1 key)
  | @leaf ofs hd val type pfxOfs aligned ofs_le pfxLen =>
      subst pfxOfs
      rw [hF.leaf (by omega) (by omega), endsLast, decide_eq_false_iff_not]
      omega
  | @node ofs hd chs pfxOfs aligned len_le head _ _ _ ih =>
      subst pfxOfs
      rw [hF.node aligned.1 len_le head.laid, endsLast_node]
      by_cases hmis : pmlen hd key < hd.pfxLen
      · simp [hmis]
      · rw [if_neg hmis, imp_iff_right hmis]
        rcases findch_mem hd chs (partialKey key (hd.pfxOfs + hd.pfxLen) (nodeKeyLen hd.type)) with
          hnull | hmem
        · rw [childOf, hnull]
          exact iff_of_true (hF.null _ len_le) (endsLast.eq_1 key)
        · exact ih _ hmem len_le
  | @tagged ofs lo t _ ofs_le _ pfxOfs _ ih =>
      rw [hF.tagged ofs_le pfxOfs, endsLast]
      by_cases hmis : ptrPfxMatch lo t.pfxOfs key < 4
      · simp [hmis]
      · rw [if_neg hmis, imp_iff_right hmis]
        exact ih ofs_le

theorem find_searches : Searches key (fun t _ => findShifts key t) where
  null := by simp [findShifts]
  tagged := by
    intro ofs lo t hofs hpfx
    have hptr : InRange (ptrPfxMatchShifts t.pfxOfs) :=
      ptrPfxMatchShifts_inRange (by omega) (by omega)
    rw [findShifts, inRange_append, and_iff_right hptr]
    by_cases hmis : ptrPfxMatch lo t.pfxOfs key < 4
    · simp [hmis]
    · rw [if_neg hmis, imp_iff_right hmis]
  leaf := by
    intro hd val hlen _
    rw [findShifts, prefixMatchShifts_inRange hlen.le]
  node := by
    intro hd chs hdvd hnext hlaid
    have hat : ∀ i, findShiftsAt key chs i = findShifts key (chs.getD i .null) :=
      at_eq Tree.null (fun _ => by rw [findShiftsAt, findShifts]) (fun _ _ => rfl)
        (fun _ _ _ => rfl) chs
    have hwidth := nodeKeyLen_pos hd.type
    have hprefix : InRange (prefixMatchShifts hd) :=
      (prefixMatchShifts_inRange (by rw [Head.next] at hnext; omega)).mpr
        (by rw [Head.next] at hnext; omega)
    have hdigit : InRange (partialKeyShifts (hd.pfxOfs + hd.pfxLen) (nodeKeyLen hd.type)) :=
      partialKeyShifts_inRange (nodeKeyLen_eq hd.type) hnext
    rw [findShifts, inRange_append, and_iff_right hprefix]
    by_cases hmis : pmlen hd key < hd.pfxLen
    · simp [hmis]
    · rw [if_neg hmis, imp_iff_right hmis, inRange_append, inRange_append,
        and_iff_right ⟨hdigit, node16Shifts_inRange hlaid⟩, childOf, findch]
      have hnull : findShifts key default = [] := findShifts.eq_1 key
      cases findidx hd (partialKey key (hd.pfxOfs + hd.pfxLen) (nodeKeyLen hd.type)) with
      | none => simp only [hnull]
      | some idx =>
          simp only [hat]
          rfl

theorem inplace_searches : Searches key (updateInplaceShifts key) where
  null := by
    intro ofs hofs
    rw [updateInplaceShifts]
    exact newLeafShifts_inRange hofs
  tagged := by
    intro ofs lo t hofs hpfx
    have hptr : InRange (ptrPfxMatchShifts t.pfxOfs) :=
      ptrPfxMatchShifts_inRange (by omega) (by omega)
    rw [updateInplaceShifts, inRange_append, and_iff_right hptr]
    by_cases hmis : ptrPfxMatch lo t.pfxOfs key < 4
    · simp [hmis, nodehForkShifts_inRange hofs]
    · rw [if_neg hmis, imp_iff_right hmis]
  leaf := by
    intro hd val hlen hdvd
    rw [updateInplaceShifts, inRange_append, prefixMatchShifts_inRange hlen.le, and_iff_left]
    split
    · have hstep := Nat.dvd_sub hdvd (pmlen_dvd (by omega) hdvd key)
      exact nodeForkShifts_inRange hlen.le (by omega)
    · exact inRange_nil
  node := by
    intro hd chs hdvd hnext hlaid
    have hat : ∀ i, updateShiftsAt key chs i = updateInplaceShifts key (chs.getD i .null) :=
      at_eq Tree.null (fun _ => by funext ofs; rw [updateShiftsAt, updateInplaceShifts])
        (fun _ _ => rfl)
        (fun _ _ _ => rfl) chs
    have hwidth := nodeKeyLen_eq hd.type
    rw [Head.next] at hnext
    have hprefix : InRange (prefixMatchShifts hd) :=
      (prefixMatchShifts_inRange (by omega)).mpr (by omega)
    have hdigit : InRange (partialKeyShifts (hd.pfxOfs + hd.pfxLen) (nodeKeyLen hd.type)) :=
      partialKeyShifts_inRange hwidth hnext
    have h16 : InRange (node16Shifts hd) := node16Shifts_inRange hlaid
    have hleaf : InRange (newLeafShifts (hd.pfxOfs + hd.pfxLen + nodeKeyLen hd.type)) :=
      newLeafShifts_inRange hnext
    rw [updateInplaceShifts, inRange_append, and_iff_right hprefix]
    by_cases hmis : pmlen hd key < hd.pfxLen
    · have hstep := Nat.dvd_sub hdvd (pmlen_dvd (by omega) hdvd key)
      have hfork : InRange (nodeForkShifts hd (pmlen hd key) hd.pfxOfs) :=
        nodeForkShifts_inRange (by omega) (by omega)
      simp [hmis, hfork]
    · rw [if_neg hmis, imp_iff_right hmis, inRange_append, inRange_append, and_iff_right ⟨hdigit,
        h16⟩,
        childOf, findch]
      have hnull : updateInplaceShifts key default hd.next = newLeafShifts hd.next :=
        updateInplaceShifts.eq_1 key _
      cases findidx hd (partialKey key (hd.pfxOfs + hd.pfxLen) (nodeKeyLen hd.type)) with
      | none =>
          simp only [hnull]
          apply iff_of_true ?_ hleaf
          split
          · exact nodeSplitShifts_inRange _ (by omega) hnext
          · split
            · rw [inRange_append]
              exact ⟨extendAppendShifts_inRange (by omega), hleaf⟩
            · rw [inRange_append]
              exact ⟨h16, hleaf⟩
      | some idx =>
          simp only [hat]
          rfl

end Searches

section Specification

variable {hd : Head} {ofs len key lo m : Nat} {t : Tree} {chs : List Tree}

def bits (x pos len : Nat) : Nat := x / 2 ^ (64 - (pos + len)) % 2 ^ len

def leadingBytes (x y ofs len : Nat) : Nat :=
  ((List.range (len / 8)).takeWhile
    (fun i => bits x (ofs + 8 * i) 8 = bits y (ofs + 8 * i) 8)).length

/-- What the helpers make of a key and the prefix of a node. -/
structure PrefixSpec (key : Nat) (hd : Head) : Prop where
  ofs_dvd : 4 ∣ hd.pfxOfs
  len_dvd : 8 ∣ hd.pfxLen
  le : hd.pfxOfs + hd.pfxLen ≤ 64
  matched : prefixMatch hd key &&& 0xF8 = 8 * leadingBytes key hd.pfx hd.pfxOfs hd.pfxLen
  masked : ∀ type ≠ NodeType.leaf, ∀ i, (newNode type hd.pfxOfs hd.pfxLen key).pfx.testBit i =
    (decide (64 - (hd.pfxOfs + hd.pfxLen) ≤ i ∧ i < 64 - hd.pfxOfs) && key.testBit i)

structure NibbleSpec (key lo ofs : Nat) : Prop where
  full : ptrPfxMatch lo ofs key = 4 ↔ bits key (ofs - 4) 4 = lo
  less : bits key (ofs - 4) 4 ≠ lo → ptrPfxMatch lo ofs key < 4

/-- The subtrees of a tree, each with what the helpers make of it. -/
inductive HelpersSpec (key : Nat) : Tree → Prop
  | null : HelpersSpec key .null
  | leaf {hd : Head} {val : Nat} (prefixSpec : PrefixSpec key hd) : HelpersSpec key (.leaf hd val)
  | node {hd : Head} {chs : List Tree} (prefixSpec : PrefixSpec key hd)
      (children : ∀ c ∈ chs, HelpersSpec key c) : HelpersSpec key (.node hd chs)
  | tagged {lo : Nat} {t : Tree} (nibble : NibbleSpec key lo t.pfxOfs) (child : HelpersSpec key t) :
      HelpersSpec key (.tagged lo t)

theorem le_length_takeWhile {p : Nat → Bool} {n : Nat} (hm : m ≤ n) (s : Nat) :
    m ≤ ((List.range' s n).takeWhile p).length ↔ ∀ i < m, p (s + i) = true := by
  induction n generalizing s m with
  | zero =>
      obtain rfl : m = 0 := by omega
      simp
  | succ n ih =>
      cases m with
      | zero => simp
      | succ m =>
          rw [List.range'_succ, List.takeWhile_cons]
          by_cases hp : p s = true
          · rw [if_pos hp, List.length_cons, Nat.succ_le_succ_iff, ih (by omega)]
            constructor
            · intro hall i hi
              cases i with
              | zero => exact hp
              | succ i =>
                  have hi' := hall i (by omega)
                  rwa [Nat.add_assoc, Nat.add_comm 1 i] at hi'
            · intro hall i hi
              have hi' := hall (i + 1) (by omega)
              rwa [Nat.add_assoc, Nat.add_comm 1 i]
          · rw [if_neg hp]
            simp only [List.length_nil, Nat.le_zero, Nat.add_eq_zero_iff, one_ne_zero, and_false,
              false_iff]
            intro hall
            exact hp (hall 0 (by omega))

theorem le_leadingBytes {x y : Nat} (hm : m ≤ len / 8) : m ≤ leadingBytes x y ofs len ↔
    ∀ i < m, bits x (ofs + 8 * i) 8 = bits y (ofs + 8 * i) 8 := by
  rw [leadingBytes, List.range_eq_range', le_length_takeWhile hm]
  simp

theorem slice_eq_iff_bytes {x y : Nat} (h : ofs + 8 * m ≤ 64) :
    slice (rest ofs) (rest ofs - 8 * m) x = slice (rest ofs) (rest ofs - 8 * m) y ↔
      ∀ i < m, bits x (ofs + 8 * i) 8 = bits y (ofs + 8 * i) 8 := by
  induction m with
  | zero => simp
  | succ m ih =>
      have hdig : ∀ z, slice (rest ofs) (rest ofs - (8 * m + 8)) z = _ := fun z =>
        slice_digit (.inr rfl) (by omega)
      have hlt : ∀ z, partialKey z (ofs + 8 * m) 8 < 2 ^ 8 := fun z =>
        partialKey_lt (.inr rfl) (by omega)
      have hbits : ∀ z, partialKey z (ofs + 8 * m) 8 = bits z (ofs + 8 * m) 8 := fun z =>
        partialKey_eq (.inr rfl) (by omega)
      rw [Nat.mul_succ, hdig, hdig, Nat.forall_lt_succ_right, ← ih (by omega), ← hbits, ← hbits]
      have hx := hlt x
      have hy := hlt y
      omega

theorem prefixSpec (hofs : 4 ∣ hd.pfxOfs) (hlen : 8 ∣ hd.pfxLen) (h : hd.pfxOfs + hd.pfxLen ≤ 64)
    (key : Nat) : PrefixSpec key hd where
  ofs_dvd := hofs
  len_dvd := hlen
  le := h
  matched := by
    obtain ⟨a, ha⟩ := pmlen_dvd (by omega) hlen key
    have hle := pmlen_le h hlen key
    have hpm : ∀ m ≤ hd.pfxLen / 8, m ≤ a ↔ m ≤ leadingBytes key hd.pfx hd.pfxOfs hd.pfxLen := by
      intro m hm
      rw [le_leadingBytes hm, ← slice_eq_iff_bytes (by omega), ← le_pmlen h hlen ⟨m, rfl⟩
        (by omega), ha]
      omega
    have hlead : leadingBytes key hd.pfx hd.pfxOfs hd.pfxLen ≤ hd.pfxLen / 8 :=
      (List.takeWhile_sublist _).length_le.trans_eq List.length_range
    have h₁ := (hpm a (by omega)).mp (le_refl a)
    have h₂ := (hpm _ hlead).mpr (le_refl _)
    rw [← pmlen, ha, le_antisymm h₁ h₂]
  masked := by
    intro type htype i
    simp only [newNode, if_neg htype, Nat.testBit_and, testBit_prefixMask h, Bool.and_comm]

theorem nibbleSpec (hlo : lo < 2 ^ 4) (h : 4 ≤ ofs) (h' : ofs ≤ 64) (key : Nat) :
    NibbleSpec key lo ofs := by
  have hlt : ptrPfxMatch lo ofs key < 4 ↔ _ := ptrPfxMatch_lt hlo h h'
  have hle := ptrPfxMatch_le lo ofs key
  have hbits : partialKey key (ofs - 4) 4 = bits key (ofs - 4) 4 :=
    partialKey_eq (.inl rfl) (by omega)
  rw [hbits] at hlt
  refine ⟨?_, hlt.mpr⟩
  rw [← not_iff_not, ← ne_eq (bits _ _ _), ← hlt]
  omega

theorem Wf.helpersSpec (h : Wf ofs t) (key : Nat) : HelpersSpec key t := by
  induction h with
  | null => exact .null
  | leaf _ pfxOfs aligned ofs_le pfxLen =>
      subst pfxOfs
      exact .leaf (prefixSpec (by omega) (by omega) (by omega) key)
  | node pfxOfs aligned len_le _ _ _ _ ih =>
      subst pfxOfs
      obtain ⟨hlen, hofs⟩ := aligned
      exact .node (prefixSpec (by omega) hlen (by omega) key) ih
  | tagged _ ofs_le lo_lt pfxOfs _ ih =>
      refine .tagged ?_ ih
      rw [pfxOfs]
      exact nibbleSpec lo_lt (by omega) ofs_le key

end Specification

section Contents

variable {hd : Head} {ofs key k e : Nat} {t : Tree} {chs : List Tree}

theorem high_eq (h : k / 2 ^ 8 = key / 2 ^ 8) (he : 8 ≤ e) : k / 2 ^ e = key / 2 ^ e := by
  obtain ⟨c, rfl⟩ := Nat.exists_eq_add_of_le' he
  rw [Radix.div_div_pow, Radix.div_div_pow, h]

theorem slice_high (h : k / 2 ^ 8 = key / 2 ^ 8) {r : Nat} (he : 8 ≤ e) (hr : e ≤ r) :
    slice r e k = slice r e key := by
  obtain ⟨c, rfl⟩ := Nat.exists_eq_add_of_le' hr
  rw [slice, slice, Radix.mod_div_pow, Radix.mod_div_pow, high_eq h he]

theorem partialKey_high (h : k / 2 ^ 8 = key / 2 ^ 8) {pos len : Nat} (hlen : len = 4 ∨ len = 8)
    (hpos : pos + len ≤ 56) : partialKey k pos len = partialKey key pos len := by
  rw [partialKey_eq hlen (by omega), partialKey_eq hlen (by omega), high_eq h (by rw [rest]; omega)]

theorem pmlen_high (h : k / 2 ^ 8 = key / 2 ^ 8) (hlen : 8 ∣ hd.pfxLen)
    (hle : hd.pfxOfs + hd.pfxLen ≤ 56) : pmlen hd k < hd.pfxLen ↔ pmlen hd key < hd.pfxLen := by
  rw [pmlen_lt (by omega) hlen, pmlen_lt (by omega) hlen,
    slice_high h (by rw [rest]; omega) (Nat.sub_le _ _)]

theorem find_node_childOf (key : Nat) (hd : Head) (chs : List Tree) : find key (.node hd chs) =
    if pmlen hd key < hd.pfxLen then none else find key (childOf key hd chs) :=
    find_node_eq key hd chs

theorem endsLast_deep (h : Wf ofs t) (hofs : 56 < ofs) : endsLast key t = (find key t).isSome := by
  induction h with
  | null => rw [endsLast.eq_1, find, Option.isSome_none]
  | @leaf ofs hd val type pfxOfs aligned ofs_le pfxLen =>
      have hzero : hd.pfxLen = 0 := by omega
      simp only [endsLast, find, hzero, gt_iff_lt, Nat.not_lt_zero, if_false, Option.isSome_some]
      exact decide_eq_true (by omega)
  | @node ofs hd chs pfxOfs aligned len_le _ _ _ children ih =>
      subst pfxOfs
      have hwidth := nodeKeyLen_pos hd.type
      have hzero : ¬ pmlen hd key < hd.pfxLen := by
        obtain ⟨hlen, -⟩ := aligned
        omega
      rw [endsLast_node, if_neg hzero, find_node_childOf, if_neg hzero]
      rcases findch_mem hd chs (partialKey key (hd.pfxOfs + hd.pfxLen) (nodeKeyLen hd.type)) with
        hnull | hmem
      · rw [childOf, hnull]
        exact endsLast.eq_1 key
      · exact ih _ hmem (by omega)
  | @tagged ofs lo t _ ofs_le _ _ _ ih =>
      rw [endsLast, find]
      split
      · rfl
      · exact ih (by omega)

def Neighbour (key : Nat) (t : Tree) : Prop :=
  ∃ k, k ≠ key ∧ k / 2 ^ 8 = key / 2 ^ 8 ∧ find k t ≠ none

theorem last_neighbour (h : Wf ofs (.node hd chs)) (hc : Canon (.node hd chs))
    (hlast : ofs + hd.pfxLen = 56) (hmis : ¬ pmlen hd key < hd.pfxLen) :
    Neighbour key (.node hd chs) := by
  have htwo := two_children h hc
  cases h with
  | node pfxOfs aligned len_le _ _ _ children =>
      subst pfxOfs
      obtain ⟨g, hne, hlt, hg⟩ : ∃ g, g ≠ partialKey key (hd.pfxOfs + hd.pfxLen)
        (nodeKeyLen hd.type) ∧
          g < 2 ^ nodeKeyLen hd.type ∧ findch hd chs g ≠ .null := by
        obtain ⟨d, e, hne, hd', he⟩ := htwo
        by_cases heq : d = partialKey key (hd.pfxOfs + hd.pfxLen) (nodeKeyLen hd.type)
        · exact ⟨e, fun h => hne (heq.trans h.symm), he⟩
        · exact ⟨d, heq, hd'⟩
      have hchild := Wf.findch children hd g
      obtain ⟨x, hx⟩ := hchild.word hg
      obtain ⟨v, hv⟩ := Option.ne_none_iff_exists'.mp hx
      have hxlt := Radix.find_lt hchild.fits hv
      set m := rest (hd.pfxOfs + hd.pfxLen + nodeKeyLen hd.type) with hm
      have hm' : m = 8 - nodeKeyLen hd.type := by
        rw [hm, rest]
        omega
      -- the prefix of the key, the digit of the other child and a word in it
      have hdigits : ∀ q, (q * 2 ^ 8 + (g * 2 ^ m + x)) / 2 ^ 8 = q ∧
          (q * 2 ^ 8 + (g * 2 ^ m + x)) / 2 ^ m % 2 ^ nodeKeyLen hd.type = g ∧
          (q * 2 ^ 8 + (g * 2 ^ m + x)) % 2 ^ m = x := by
        intro q
        rcases nodeKeyLen_eq hd.type with hw | hw
        · rw [hm', hw] at hxlt ⊢
          rw [hw] at hlt
          omega
        · rw [hm', hw] at hxlt ⊢
          rw [hw] at hlt
          omega
      obtain ⟨hhigh, hdig, hlow⟩ := hdigits (key / 2 ^ 8)
      set k := key / 2 ^ 8 * 2 ^ 8 + (g * 2 ^ m + x)
      have hdig' : partialKey k (hd.pfxOfs + hd.pfxLen) (nodeKeyLen hd.type) = g := by
        rw [partialKey_eq (nodeKeyLen_eq hd.type) len_le, ← hm, hdig]
      refine ⟨k, fun heq => hne (hdig'.symm.trans (by rw [heq])), hhigh, ?_⟩
      rw [find_node_childOf, if_neg fun h => hmis ((pmlen_high hhigh aligned.1 (by omega)).mp h),
        childOf,
        hdig', find_radix hchild, ← hm, hlow, hv]
      simp

/-- A search ends after the last bit if and only if the tree has the key and a
key that differs from it in the last byte alone. -/
theorem endsLast_iff (h : Wf ofs t) (hc : Canon t) (hofs : ofs ≤ 56) :
    endsLast key t = true ↔ find key t ≠ none ∧ Neighbour key t := by
  induction h with
  | null => simp [endsLast.eq_1, find]
  | @leaf ofs hd val type pfxOfs aligned ofs_le pfxLen =>
      subst pfxOfs
      have hne : endsLast key (.leaf hd val) = false := by
        rw [endsLast]
        exact decide_eq_false (by omega)
      rw [hne]
      apply iff_of_false Bool.false_ne_true
      rintro ⟨hfind, k, hk, hhigh, hfind'⟩
      have hword : ∀ {k}, find k (.leaf hd val) ≠ none →
          k % 2 ^ rest hd.pfxOfs = hd.pfx % 2 ^ rest hd.pfxOfs := by
        intro k hfind
        rw [find] at hfind
        split at hfind
        · exact absurd rfl hfind
        · exact not_not.mp (mt (pmlen_leaf (by omega) (by omega)).mpr ‹_›)
      have heq := (hword hfind').trans (hword hfind).symm
      have hlow := congrArg (· % 2 ^ 8) heq
      obtain ⟨c, hc⟩ := Nat.exists_eq_add_of_le' (show 8 ≤ rest hd.pfxOfs by rw [rest]; omega)
      simp only [hc, Radix.mod_mod_pow] at hlow
      omega
  | @node ofs hd chs pfxOfs aligned len_le head full live children ih =>
      subst pfxOfs
      have hwf : Wf hd.pfxOfs (.node hd chs) := .node rfl aligned len_le head full live children
      have hwidth := nodeKeyLen_eq hd.type
      have hle : hd.pfxOfs + hd.pfxLen ≤ 56 := by
        obtain ⟨hlen, hofs⟩ := aligned
        omega
      rw [endsLast_node]
      by_cases hmis : pmlen hd key < hd.pfxLen
      · rw [if_pos hmis, find_node_childOf, if_pos hmis]
        simp
      · rw [if_neg hmis, find_node_childOf, if_neg hmis]
        have hchild : Wf hd.next (childOf key hd chs) := Wf.findch children hd _
        have hcanon : Canon (childOf key hd chs) := by
          cases hc with
          | node _ _ canon => exact Canon.findch canon hd _
        by_cases hnext : hd.next ≤ 56
        · have hneighbour : Neighbour key (.node hd chs) ↔ Neighbour key (childOf key hd chs) := by
            apply exists_congr
            intro k
            apply and_congr_right
            intro _
            apply and_congr_right
            intro hhigh
            rw [find_node_childOf, if_neg (fun h => hmis ((pmlen_high hhigh aligned.1 hle).mp h)),
              childOf,
              childOf, partialKey_high hhigh hwidth hnext]
          rw [hneighbour]
          rcases findch_mem hd chs
            (partialKey key (hd.pfxOfs + hd.pfxLen) (nodeKeyLen hd.type)) with
            hnull | hmem
          · rw [childOf, hnull]
            simp [endsLast.eq_1, find, show (default : Tree) = .null from rfl]
          · exact ih _ hmem hcanon hnext
        · rw [endsLast_deep hchild (not_le.mp hnext), Option.isSome_iff_ne_none]
          have hlast : hd.pfxOfs + hd.pfxLen = 56 := by
            rw [Head.next] at hnext
            obtain ⟨hlen, hofs⟩ := aligned
            omega
          exact (and_iff_left (last_neighbour hwf hc hlast hmis)).symm
  | @tagged ofs lo t half ofs_le lo_lt pfxOfs child ih =>
      have hptr : ∀ {k}, ptrPfxMatch lo t.pfxOfs k < 4 ↔ partialKey k ofs 4 ≠ lo := by
        intro k
        rw [pfxOfs, ptrPfxMatch_lt lo_lt (by omega) ofs_le, Nat.add_sub_cancel]
      rw [endsLast, find]
      by_cases hmis : ptrPfxMatch lo t.pfxOfs key < 4
      · simp [hmis]
      · have hneighbour : Neighbour key (.tagged lo t) ↔ Neighbour key t := by
          apply exists_congr
          intro k
          apply and_congr_right
          intro _
          apply and_congr_right
          intro hhigh
          have hmis' : ¬ ptrPfxMatch lo t.pfxOfs k < 4 := by
            rwa [hptr, partialKey_high hhigh (.inl rfl) (by omega), ← hptr]
          rw [find, if_neg hmis']
        cases hc with
        | tagged canon =>
            rw [if_neg hmis, if_neg hmis, hneighbour]
            exact ih canon (by omega)

end Contents

section Reachability

variable {us : List (Nat × Nat)} {t : Tree} {key : Nat}

/-- The trees that updates of an empty tree make, with the updates. -/
inductive Reachable : List (Nat × Nat) → Tree → Prop
  | null : Reachable [] .null
  | inplace {us : List (Nat × Nat)} {t : Tree} {key : Nat} (ht : Reachable us t)
      (hkey : key < 2 ^ 64) (val : Nat) :
      Reachable (us ++ [(key, val)]) (updateInplace key val t 0)

theorem Reachable.sound (ht : Reachable us t) : Holds (writes us (fun _ => none)) t ∧ Canon t := by
  induction ht with
  | null => exact ⟨holds_null, .null⟩
  | inplace _ hkey val ih =>
      rw [writes_append]
      exact ⟨ih.1.update hkey val,
        updateInplace_canon ih.1.wf ih.2 (Nat.dvd_zero 4) (Nat.zero_le 64) _ val⟩

/-- The updates wrote a key and one that differs from it in the last byte alone. -/
def Crowded (us : List (Nat × Nat)) (key : Nat) : Prop :=
  key ∈ us.map Prod.fst ∧ ∃ k ∈ us.map Prod.fst, k ≠ key ∧ k / 2 ^ 8 = key / 2 ^ 8

theorem Reachable.endsLast_iff (ht : Reachable us t) (hkey : key < 2 ^ 64) :
    endsLast key t = true ↔ Crowded us key := by
  obtain ⟨hholds, hcanon⟩ := ht.sound
  have hstored : ∀ k < 2 ^ 64, find k t ≠ none ↔ k ∈ us.map Prod.fst := by
    intro k hk
    rw [hholds.find_eq hk, ne_eq, writes_eq_none, eq_self, and_true, not_not]
  rw [Aert.endsLast_iff hholds.wf hcanon (Nat.zero_le 56), hstored key hkey]
  apply and_congr_right
  intro _
  apply exists_congr
  intro k
  constructor
  · rintro ⟨hne, hhigh, hk⟩
    exact ⟨(hstored k (by omega)).mp hk, hne, hhigh⟩
  · rintro ⟨hk, hne, hhigh⟩
    exact ⟨hne, hhigh, (hstored k (by omega)).mpr hk⟩

/-- The bit helpers do what they say at every node, and no search shifts out of
range but for a key that shares all but its last byte with another: its LEAF
starts after the last bit, and `prefix_match` shifts by 64. -/
theorem helpers_ok_iff (ht : Reachable us t) (hkey : key < 2 ^ 64) :
    HelpersSpec key t ∧ (InRange (findShifts key t) ↔ ¬ Crowded us key) ∧
      (InRange (updateInplaceShifts key t 0) ↔ ¬ Crowded us key) := by
  have hwf := ht.sound.1.wf
  rw [← ht.endsLast_iff hkey, Bool.not_eq_true]
  exact ⟨hwf.helpersSpec key, find_searches.inRange_iff hwf (Nat.zero_le 64),
    inplace_searches.inRange_iff hwf (Nat.zero_le 64)⟩

instance (us : List (Nat × Nat)) (key : Nat) : Decidable (Crowded us key) :=
  inferInstanceAs (Decidable (_ ∧ _))

theorem Reachable.all {vs : List (Nat × Nat)} (ht : Reachable us t) (hvs : ∀ v ∈ vs, v.1 < 2 ^ 64) :
    Reachable (us ++ vs) (inplaceAll vs t) := by
  induction vs generalizing us t with
  | nil => rwa [List.append_nil]
  | cons v vs ih =>
      have hnext := ih (ht.inplace (hvs v List.mem_cons_self) v.2)
        fun w hw => hvs w (List.mem_cons_of_mem v hw)
      rwa [List.append_assoc] at hnext

/-- Seventeen values of the last but one byte split a NODE16, and a tagged pointer
leads to the node of `0x2500` and `0x2501`, whose leaves start after the last bit. -/
def forked : List (Nat × Nat) :=
  (List.range 16).map (fun i => (256 * i, i)) ++ [(0x2500, 16), (0x2501, 17)]

theorem helpers_ok_iff_sample : HelpersSpec 0x2600 (inplaceAll forked .null) ∧
    InRange (findShifts 0x2600 (inplaceAll forked .null)) ∧
      InRange (updateInplaceShifts 0x2600 (inplaceAll forked .null) 0) ∧
        ¬ InRange (findShifts 0x2501 (inplaceAll forked .null)) := by
  have ht : Reachable forked (inplaceAll forked .null) := Reachable.null.all (by decide)
  obtain ⟨hspec, hfind, hupdate⟩ := helpers_ok_iff ht (show 0x2600 < 2 ^ 64 by decide)
  obtain ⟨-, hfind', -⟩ := helpers_ok_iff ht (show 0x2501 < 2 ^ 64 by decide)
  refine ⟨hspec, hfind.mpr (by decide), hupdate.mpr (by decide), fun hin => ?_⟩
  exact hfind'.mp hin (by decide)

instance (cs : List Int) : Decidable (InRange cs) := inferInstanceAs (Decidable (∀ c ∈ cs, _))

/-- The keys 0 and 1 fork at the last byte, and a search for one of them ends in
a LEAF at bit 64. -/
theorem leaf_shift_64 : ¬ ∀ (us : List (Nat × Nat)) (t : Tree) (key : Nat), Reachable us t →
    key < 2 ^ 64 → HelpersSpec key t ∧ InRange (findShifts key t) ∧
      InRange (updateInplaceShifts key t 0) := by
  intro hall
  have ht : Reachable [(0, 0), (1, 0)] (updateInplace 1 0 (updateInplace 0 0 .null 0) 0) :=
    .inplace (.inplace .null (by decide) 0) (by decide) 0
  obtain ⟨-, hfind, -⟩ := hall _ _ 0 ht (by decide)
  exact absurd hfind (by decide)

end Reachability

end Contrees.Trees.Aert
