import Contrees.Trees.ArtReaders

namespace Contrees.Trees.Art

open Library Library.Memory Library.Slots Conctrl

section Definitions

/-- What the claims about ranges look at: the count of a shift, and the offset
and the length that `prefix_mask` or `new_node` is called with. -/
inductive Eval
  | shift (count : Int)
  | call (ofs len : Nat)

def Eval.Ok : Eval → Prop
  | .shift count => 0 ≤ count ∧ count < 64
  | .call ofs len => ofs + len ≤ 8

def partialKeyEvals (pos : Nat) : List Eval := [.shift (56 - 8 * (pos : Int))]

def prefixMaskEvals (ofs len : Nat) : List Eval :=
  [.call ofs len, .shift (8 * (8 - (len : Int))), .shift (8 * (8 - (len : Int) - ofs))]

def prefixMatchEvals (hd : Head) : List Eval := [.shift (8 * hd.pfxOfs)]

def newNodeEvals (type : NodeType) (pfxOfs pfxLen : Nat) : List Eval :=
  .call pfxOfs pfxLen :: if type = .leaf then [] else prefixMaskEvals pfxOfs pfxLen

def newLeafEvals (pfxOfs : Nat) : List Eval := newNodeEvals .leaf pfxOfs (8 - pfxOfs)

def nodeExtendEvals (hd : Head) : List Eval :=
  match hd.type with
  | .node4 => newNodeEvals .node16 hd.pfxOfs hd.pfxLen
  | .node16 => newNodeEvals .node48 hd.pfxOfs hd.pfxLen
  | .node48 => newNodeEvals .node256 hd.pfxOfs hd.pfxLen
  | .node256 | .leaf => []

mutual

def findEvals (key : Nat) : Tree → List Eval
  | .null => []
  | .leaf hd _ => prefixMatchEvals hd
  | .node hd chs =>
      prefixMatchEvals hd ++
        if prefixMatch hd key < hd.pfxLen then []
        else
          partialKeyEvals (hd.pfxOfs + hd.pfxLen) ++
            match findIdx hd (partialKey key (hd.pfxOfs + hd.pfxLen)) with
            | some idx => findEvalsAt key chs (slot hd idx)
            | none => []

def findEvalsAt (key : Nat) : List Tree → Nat → List Eval
  | [], _ => []
  | t :: _, 0 => findEvals key t
  | _ :: ts, i + 1 => findEvalsAt key ts i

end

def scanMismatchEvals (hd : Head) (pmlen : Nat) : List Eval :=
  partialKeyEvals (hd.pfxOfs + pmlen) ++ partialKeyEvals (hd.pfxOfs + pmlen)

mutual

/-- `scan_append` evaluates no shift. -/
def scanEvals (key : Nat) : Tree → List Eval
  | .null => []
  | .leaf hd _ =>
      prefixMatchEvals hd ++
        if prefixMatch hd key < hd.pfxLen then scanMismatchEvals hd (prefixMatch hd key) else []
  | .node hd chs =>
      prefixMatchEvals hd ++
        if prefixMatch hd key < hd.pfxLen then scanMismatchEvals hd (prefixMatch hd key)
        else
          partialKeyEvals (hd.pfxOfs + hd.pfxLen) ++
            match findIdx hd (partialKey key (hd.pfxOfs + hd.pfxLen)) with
            | some idx => scanEvalsAt key chs (slot hd idx)
            | none => []

def scanEvalsAt (key : Nat) : List Tree → Nat → List Eval
  | [], _ => []
  | t :: _, 0 => scanEvals key t
  | _ :: ts, i + 1 => scanEvalsAt key ts i

end

/-- The calls of a fork; `masks` are those on the prefix of the old node. -/
def forkEvals (hd : Head) (ofs pmlen : Nat) (masks : List Eval) : List Eval :=
  newNodeEvals .node4 ofs pmlen ++ partialKeyEvals (hd.pfxOfs + pmlen) ++ masks ++
    partialKeyEvals (ofs + pmlen) ++ newLeafEvals (ofs + pmlen + 1)

def shortenEvals (hd : Head) (pmlen : Nat) : List Eval :=
  prefixMaskEvals (hd.pfxOfs + (pmlen + 1)) (hd.pfxLen - (pmlen + 1))

def nodeForkInplaceEvals (hd : Head) (ofs pmlen : Nat) : List Eval :=
  forkEvals hd ofs pmlen (if hd.type = .leaf then [] else shortenEvals hd pmlen)

mutual

def updateInplaceEvals (key : Nat) : Tree → Nat → List Eval
  | .null, ofs => newLeafEvals ofs
  | .leaf hd _, ofs =>
      prefixMatchEvals hd ++
        if prefixMatch hd key < hd.pfxLen then nodeForkInplaceEvals hd ofs (prefixMatch hd key)
        else []
  | .node hd chs, ofs =>
      prefixMatchEvals hd ++
        if prefixMatch hd key < hd.pfxLen then nodeForkInplaceEvals hd ofs (prefixMatch hd key)
        else
          partialKeyEvals (ofs + hd.pfxLen) ++
            match findIdx hd (partialKey key (ofs + hd.pfxLen)) with
            | some idx => updateEvalsAt key chs (slot hd idx) (ofs + hd.pfxLen + 1)
            | none =>
                (if isFull hd then nodeExtendEvals hd else []) ++ newLeafEvals (ofs + hd.pfxLen + 1)

def updateEvalsAt (key : Nat) : List Tree → Nat → Nat → List Eval
  | [], _, ofs => newLeafEvals ofs
  | t :: _, 0, ofs => updateInplaceEvals key t ofs
  | _ :: ts, i + 1, ofs => updateEvalsAt key ts i ofs

end

/-- The node that `update_cow` sees, `none` for `nullptr`. A fork masks the prefix
of a LEAF like any other. -/
def updateCowEvals (key ofs : Nat) : Option Head → List Eval
  | none => newLeafEvals ofs
  | some past =>
      prefixMatchEvals past ++
        if prefixMatch past key < past.pfxLen then
          forkEvals past ofs (prefixMatch past key) (shortenEvals past (prefixMatch past key))
        else if past.type = .leaf then []
        else
          partialKeyEvals (ofs + past.pfxLen) ++
            match findIdx past (partialKey key (ofs + past.pfxLen)) with
            | some _ => []
            | none => if isFull past then nodeExtendEvals past else []

def headAt (h : NodeHeap) (r : Option NodePtr) : Option Head :=
  r.bind (fun p => (h (p, Field.head)).map Prod.snd)

def childAt (h : NodeHeap) (ctx : Context) : Option NodePtr :=
  ctx.tPast.bind (fun p => (h (p, Field.head)).bind (fun past =>
    (h (p, Field.chs)).bind (fun ps => getch past.2 ps ctx.chIdx)))

def handlerEvals (ctx : Context) (h : NodeHeap) : List Eval :=
  match ctx.op with
  | .init => updateCowEvals ctx.key 0 (headAt h ctx.tPast)
  | .search => updateCowEvals ctx.key ctx.keyOfs (headAt h (childAt h ctx))
  | .insert => newLeafEvals ctx.keyOfs
  | .fork | .done => []

def runEvals (tid : Nat) : Nat → Nat → Context → NodeHeap → List Eval
  | 0, _, _, _ => []
  | fuel + 1, s, ctx, h =>
      if interface.done ctx then []
      else
        handlerEvals ctx h ++
          match (interface.handle ctx).exec tid s 0 h with
          | some (ctx', _, h') => runEvals tid fuel (next s ctx') ctx' h'
          | none => []

mutual

def cowEvals (key : Nat) : Tree → Nat → List Eval
  | .null, ofs => updateCowEvals key ofs none
  | .leaf hd _, ofs => updateCowEvals key ofs (some hd)
  | .node hd chs, ofs =>
      updateCowEvals key ofs (some hd) ++
        if prefixMatch hd key < hd.pfxLen then []
        else
          match findIdx hd (partialKey key (ofs + hd.pfxLen)) with
          | some idx => cowEvalsAt key chs (slot hd idx) (ofs + hd.pfxLen + 1)
          | none => newLeafEvals (ofs + hd.pfxLen + 1)

def cowEvalsAt (key : Nat) : List Tree → Nat → Nat → List Eval
  | [], _, ofs => updateCowEvals key ofs none
  | t :: _, 0, ofs => cowEvals key t ofs
  | _ :: ts, i + 1, ofs => cowEvalsAt key ts i ofs

end

mutual

def endHead (key : Nat) : Tree → Option Head
  | .null => none
  | .leaf hd _ => some hd
  | .node hd chs =>
      if prefixMatch hd key < hd.pfxLen then some hd
      else
        match findIdx hd (partialKey key (hd.pfxOfs + hd.pfxLen)) with
        | some idx => (endHeadAt key chs (slot hd idx)).or (some hd)
        | none => some hd

def endHeadAt (key : Nat) : List Tree → Nat → Option Head
  | [], _ => none
  | t :: _, 0 => endHead key t
  | _ :: ts, i + 1 => endHeadAt key ts i

end

end Definitions

section Ranges

variable {hd : Head} {ofs len key pmlen : Nat} {T : Tree} {chs : List Tree} {es es' : List Eval}

def AllOk (es : List Eval) : Prop := ∀ e ∈ es, e.Ok

@[simp] theorem allOk_nil : AllOk [] := by simp [AllOk]

@[simp] theorem allOk_append : AllOk (es ++ es') ↔ AllOk es ∧ AllOk es' := List.forall_mem_append

@[simp] theorem allOk_cons {e : Eval} : AllOk (e :: es) ↔ e.Ok ∧ AllOk es := List.forall_mem_cons

/-- A LEAF after the last byte shifts the whole word out. -/
@[simp] theorem prefixMatchEvals_ok : AllOk (prefixMatchEvals hd) ↔ hd.pfxOfs < 8 := by
  simp only [prefixMatchEvals, allOk_cons, allOk_nil, Eval.Ok, and_true]
  omega

theorem partialKeyEvals_ok (h : ofs < 8) : AllOk (partialKeyEvals ofs) := by
  simp only [partialKeyEvals, allOk_cons, allOk_nil, Eval.Ok, and_true]
  omega

theorem newLeafEvals_ok (h : ofs ≤ 8) : AllOk (newLeafEvals ofs) := by
  simp only [newLeafEvals, newNodeEvals, if_true, allOk_cons, allOk_nil, Eval.Ok, and_true]
  omega

/-- The mask of an empty prefix shifts by the whole word. -/
theorem prefixMaskEvals_ok (h : ofs + len ≤ 8) : AllOk (prefixMaskEvals ofs len) ↔ 1 ≤ len := by
  simp only [prefixMaskEvals, allOk_cons, allOk_nil, Eval.Ok, and_true]
  omega

theorem newNodeEvals_ok {type : NodeType} (ht : type ≠ .leaf) (h : ofs + len ≤ 8) :
    AllOk (newNodeEvals type ofs len) ↔ 1 ≤ len := by
  have hcall : (Eval.call ofs len).Ok := h
  rw [newNodeEvals, if_neg ht, allOk_cons, prefixMaskEvals_ok h]
  exact and_iff_right hcall

theorem nodeExtendEvals_ok (ht : hd.type ≠ .leaf) (hfull : isFull hd = true)
    (h : hd.pfxOfs + hd.pfxLen ≤ 8) : AllOk (nodeExtendEvals hd) ↔ 1 ≤ hd.pfxLen := by
  cases htype : hd.type with
  | node4 => simpa only [nodeExtendEvals, htype] using newNodeEvals_ok (by simp) h
  | node16 => simpa only [nodeExtendEvals, htype] using newNodeEvals_ok (by simp) h
  | node48 => simpa only [nodeExtendEvals, htype] using newNodeEvals_ok (by simp) h
  | node256 => simp [isFull, htype] at hfull
  | leaf => exact absurd htype ht

theorem forkEvals_ok {masks : List Eval} (hlen : hd.pfxOfs + hd.pfxLen ≤ 8)
    (hm : pmlen < hd.pfxLen) :
    AllOk (forkEvals hd hd.pfxOfs pmlen masks) ↔ 1 ≤ pmlen ∧ AllOk masks := by
  have hbyte : AllOk (partialKeyEvals (hd.pfxOfs + pmlen)) := partialKeyEvals_ok (by omega)
  have hleaf : AllOk (newLeafEvals (hd.pfxOfs + pmlen + 1)) := newLeafEvals_ok (by omega)
  rw [forkEvals, allOk_append, allOk_append, allOk_append, allOk_append,
    newNodeEvals_ok (by simp) (by omega)]
  tauto

theorem shortenEvals_ok (hlen : hd.pfxOfs + hd.pfxLen ≤ 8) (hm : pmlen < hd.pfxLen) :
    AllOk (shortenEvals hd pmlen) ↔ pmlen + 1 < hd.pfxLen := by
  rw [shortenEvals, prefixMaskEvals_ok (by omega)]
  omega

def EndsWell (P : Head → Prop) (key : Nat) (T : Tree) : Prop := ∀ hd ∈ endHead key T, P hd

/-- A search that evaluates what it may at every node but the last. -/
structure Searches (P : Head → Prop) (key : Nat) (F : Tree → Nat → List Eval) : Prop where
  null : ∀ ofs ≤ 8, AllOk (F .null ofs)
  leaf : ∀ hd val, hd.type = .leaf → hd.pfxOfs + hd.pfxLen = 8 →
    (AllOk (F (.leaf hd val) hd.pfxOfs) ↔ P hd)
  stop : ∀ hd chs, hd.type ≠ .leaf → hd.pfxOfs + hd.pfxLen < 8 → (prefixMatch hd key < hd.pfxLen ∨
    findIdx hd (partialKey key (hd.pfxOfs + hd.pfxLen)) = none) →
      (AllOk (F (.node hd chs) hd.pfxOfs) ↔ P hd)
  go : ∀ hd chs idx, hd.pfxOfs + hd.pfxLen < 8 → ¬ prefixMatch hd key < hd.pfxLen →
    findIdx hd (partialKey key (hd.pfxOfs + hd.pfxLen)) = some idx → P hd ∧
      (AllOk (F (.node hd chs) hd.pfxOfs) ↔
        AllOk (F (getch hd chs idx) (hd.pfxOfs + hd.pfxLen + 1)))

theorem endHead_go {idx : Nat} (hmis : ¬ prefixMatch hd key < hd.pfxLen)
    (hi : findIdx hd (partialKey key (hd.pfxOfs + hd.pfxLen)) = some idx) :
    endHead key (.node hd chs) = (endHead key (getch hd chs idx)).or (some hd) := by
  have hat : endHeadAt key chs (slot hd idx) = endHead key (getch hd chs idx) :=
    at_eq Tree.null (fun _ => by rw [endHeadAt, endHead]) (fun _ _ => rfl) (fun _ _ _ => rfl) chs _
  rw [endHead, if_neg hmis, hi]
  exact congrArg (·.or (some hd)) hat

theorem Searches.allOk_iff {P : Head → Prop} {F : Tree → Nat → List Eval} (hF : Searches P key F)
    (h : Wf ofs T) (hofs : ofs ≤ 8) : AllOk (F T ofs) ↔ EndsWell P key T := by
  induction h with
  | null => simpa [EndsWell, endHead] using hF.null _ hofs
  | @leaf ofs hd val type pfxOfs ofs_le pfxLen =>
      subst pfxOfs
      simpa [EndsWell, endHead] using hF.leaf hd val type (by omega)
  | @node ofs hd chs pfxOfs len_lt head full children ih =>
      subst pfxOfs
      by_cases hmis : prefixMatch hd key < hd.pfxLen
      · rw [hF.stop hd chs head.not_leaf len_lt (.inl hmis)]
        simp [EndsWell, endHead, hmis]
      · cases hi : findIdx hd (partialKey key (hd.pfxOfs + hd.pfxLen)) with
        | none =>
            rw [hF.stop hd chs head.not_leaf len_lt (.inr hi)]
            simp [EndsWell, endHead, hmis, hi]
        | some idx =>
            obtain ⟨hP, hgo⟩ := hF.go hd chs idx len_lt hmis hi
            have hchild : AllOk (F (getch hd chs idx) (hd.pfxOfs + hd.pfxLen + 1)) ↔
                EndsWell P key (getch hd chs idx) := by
              rcases findch_mem hd chs (partialKey key (hd.pfxOfs + hd.pfxLen)) with hnull | hmem
              · rw [findch_eq_getch hi] at hnull
                rw [hnull]
                exact iff_of_true (hF.null _ len_lt) (by simp [EndsWell, endHead])
              · rw [findch_eq_getch hi] at hmem
                exact ih _ hmem len_lt
            rw [hgo, hchild, EndsWell, EndsWell, endHead_go hmis hi]
            cases endHead key (getch hd chs idx) with
            | none => simpa using hP
            | some last => simp

end Ranges

section Operations

variable {hd : Head} {ofs key val : Nat} {T : Tree}

/-- A LEAF may not start after the last byte. -/
def FindOk (hd : Head) : Prop := hd.pfxOfs < 8

theorem find_searches : Searches FindOk key (fun T _ => findEvals key T) where
  null := by simp [findEvals]
  leaf := by
    intro hd val type hlen
    simp [findEvals, FindOk]
  stop := by
    intro hd chs type hlen hend
    have hbyte := partialKeyEvals_ok hlen
    rw [findEvals, allOk_append, prefixMatchEvals_ok]
    split
    · simp [FindOk]
    · rcases hend with hmis | hi
      · exact absurd hmis ‹_›
      · simp [FindOk, hi, hbyte]
  go := by
    intro hd chs idx hlen hmis hi
    have hat : findEvalsAt key chs (slot hd idx) = findEvals key (getch hd chs idx) :=
      at_eq Tree.null (fun _ => by rw [findEvalsAt, findEvals]) (fun _ _ => rfl)
        (fun _ _ _ => rfl) chs _
    have hofs : hd.pfxOfs < 8 := by omega
    refine ⟨hofs, ?_⟩
    simp only [findEvals, if_neg hmis, hi, hat, allOk_append, prefixMatchEvals_ok, hofs, true_and,
      partialKeyEvals_ok hlen]

theorem scanMismatchEvals_ok {pmlen : Nat} (hlen : hd.pfxOfs + hd.pfxLen ≤ 8)
    (hm : pmlen < hd.pfxLen) :
    AllOk (scanMismatchEvals hd pmlen) := by
  have hbyte : AllOk (partialKeyEvals (hd.pfxOfs + pmlen)) := partialKeyEvals_ok (by omega)
  simp [scanMismatchEvals, hbyte]

theorem scan_searches : Searches FindOk key (fun T _ => scanEvals key T) where
  null := by simp [scanEvals]
  leaf := by
    intro hd val type hlen
    rw [scanEvals, allOk_append, prefixMatchEvals_ok]
    split
    · simp [FindOk, scanMismatchEvals_ok hlen.le ‹_›]
    · simp [FindOk]
  stop := by
    intro hd chs type hlen hend
    have hbyte := partialKeyEvals_ok hlen
    rw [scanEvals, allOk_append, prefixMatchEvals_ok]
    split
    · simp [FindOk, scanMismatchEvals_ok hlen.le ‹_›]
    · rcases hend with hmis | hi
      · exact absurd hmis ‹_›
      · simp [FindOk, hi, hbyte]
  go := by
    intro hd chs idx hlen hmis hi
    have hat : scanEvalsAt key chs (slot hd idx) = scanEvals key (getch hd chs idx) :=
      at_eq Tree.null (fun _ => by rw [scanEvalsAt, scanEvals]) (fun _ _ => rfl)
        (fun _ _ _ => rfl) chs _
    have hofs : hd.pfxOfs < 8 := by omega
    refine ⟨hofs, ?_⟩
    simp only [scanEvals, if_neg hmis, hi, hat, allOk_append, prefixMatchEvals_ok, hofs, true_and,
      partialKeyEvals_ok hlen]

/-- A fork keeps a byte of prefix above and, where it masks one, a byte below,
and a full node that grows has a prefix. -/
structure UpdateOk (masksLeaf : Prop) (key : Nat) (hd : Head) : Prop where
  ofs : hd.pfxOfs < 8
  fork : prefixMatch hd key < hd.pfxLen → 1 ≤ prefixMatch hd key ∧
    (hd.type = .leaf → masksLeaf → prefixMatch hd key + 1 < hd.pfxLen) ∧
      (hd.type ≠ .leaf → prefixMatch hd key + 1 < hd.pfxLen)
  extend : ¬ prefixMatch hd key < hd.pfxLen → hd.type ≠ .leaf → isFull hd = true →
    findIdx hd (partialKey key (hd.pfxOfs + hd.pfxLen)) = none → 1 ≤ hd.pfxLen

theorem updateOk_leaf {masksLeaf : Prop} {masks : List Eval} (type : hd.type = .leaf)
    (hlen : hd.pfxOfs + hd.pfxLen = 8) (hmasks : prefixMatch hd key < hd.pfxLen →
      (AllOk masks ↔ (masksLeaf → prefixMatch hd key + 1 < hd.pfxLen))) :
    AllOk (prefixMatchEvals hd ++ if prefixMatch hd key < hd.pfxLen then
      forkEvals hd hd.pfxOfs (prefixMatch hd key) masks else []) ↔ UpdateOk masksLeaf key hd := by
  rw [allOk_append, prefixMatchEvals_ok]
  by_cases hmis : prefixMatch hd key < hd.pfxLen
  · rw [if_pos hmis, forkEvals_ok hlen.le hmis, hmasks hmis]
    exact ⟨fun h => ⟨h.1, fun _ => ⟨h.2.1, fun _ => h.2.2, fun h => absurd type h⟩,
      fun h => absurd hmis h⟩, fun h => ⟨h.ofs, (h.fork hmis).1, (h.fork hmis).2.1 type⟩⟩
  · rw [if_neg hmis]
    exact ⟨fun h => ⟨h.1, fun h => absurd h hmis, fun _ h => absurd type h⟩,
      fun h => ⟨h.ofs, allOk_nil⟩⟩

theorem updateOk_fork {masksLeaf : Prop} (type : hd.type ≠ .leaf) (hlen : hd.pfxOfs + hd.pfxLen < 8)
    (hmis : prefixMatch hd key < hd.pfxLen) :
    AllOk (prefixMatchEvals hd ++
      forkEvals hd hd.pfxOfs (prefixMatch hd key) (shortenEvals hd (prefixMatch hd key))) ↔
        UpdateOk masksLeaf key hd := by
  rw [allOk_append, prefixMatchEvals_ok, forkEvals_ok hlen.le hmis, shortenEvals_ok hlen.le hmis]
  exact ⟨fun h => ⟨h.1, fun _ => ⟨h.2.1, fun h => absurd h type, fun _ => h.2.2⟩,
    fun h => absurd hmis h⟩, fun h => ⟨h.ofs, (h.fork hmis).1, (h.fork hmis).2.2 type⟩⟩

theorem updateOk_extend {masksLeaf : Prop} (type : hd.type ≠ .leaf)
    (hlen : hd.pfxOfs + hd.pfxLen < 8) (hmis : ¬ prefixMatch hd key < hd.pfxLen)
    (hi : findIdx hd (partialKey key (hd.pfxOfs + hd.pfxLen)) = none) :
    AllOk (if isFull hd then nodeExtendEvals hd else []) ↔ UpdateOk masksLeaf key hd := by
  have hofs : hd.pfxOfs < 8 := by omega
  by_cases hfull : isFull hd = true
  · rw [if_pos hfull, nodeExtendEvals_ok type hfull hlen.le]
    exact ⟨fun h => ⟨hofs, fun h => absurd h hmis, fun _ _ _ _ => h⟩,
      fun h => h.extend hmis type hfull hi⟩
  · rw [if_neg hfull]
    exact ⟨fun _ => ⟨hofs, fun h => absurd h hmis, fun _ _ h => absurd h hfull⟩, fun _ => allOk_nil⟩

theorem updateOk_go {masksLeaf : Prop} {idx : Nat} (hlen : hd.pfxOfs + hd.pfxLen < 8)
    (hmis : ¬ prefixMatch hd key < hd.pfxLen)
    (hi : findIdx hd (partialKey key (hd.pfxOfs + hd.pfxLen)) = some idx) :
    UpdateOk masksLeaf key hd := by
  have hofs : hd.pfxOfs < 8 := by omega
  exact ⟨hofs, fun h => absurd h hmis, fun _ _ _ h => absurd (hi.symm.trans h) (by simp)⟩

theorem inplace_searches : Searches (UpdateOk False key) key (updateInplaceEvals key) where
  null := by
    intro ofs hofs
    rw [updateInplaceEvals]
    exact newLeafEvals_ok hofs
  leaf := by
    intro hd val type hlen
    rw [updateInplaceEvals, nodeForkInplaceEvals, if_pos type]
    exact updateOk_leaf type hlen fun _ => by simp
  stop := by
    intro hd chs type hlen hend
    by_cases hmis : prefixMatch hd key < hd.pfxLen
    · rw [updateInplaceEvals, if_pos hmis, nodeForkInplaceEvals, if_neg type]
      exact updateOk_fork type hlen hmis
    · have hi := hend.resolve_left hmis
      have hofs : hd.pfxOfs < 8 := by omega
      simp only [updateInplaceEvals, if_neg hmis, hi, allOk_append, prefixMatchEvals_ok, hofs,
        true_and,
        partialKeyEvals_ok hlen, newLeafEvals_ok hlen, and_true]
      exact updateOk_extend type hlen hmis hi
  go := by
    intro hd chs idx hlen hmis hi
    have hat : updateEvalsAt key chs (slot hd idx) = updateInplaceEvals key (getch hd chs idx) :=
      at_eq Tree.null (fun _ => by funext ofs; rw [updateEvalsAt, updateInplaceEvals])
        (fun _ _ => rfl) (fun _ _ _ => rfl) chs _
    have hofs : hd.pfxOfs < 8 := by omega
    refine ⟨updateOk_go hlen hmis hi, ?_⟩
    simp only [updateInplaceEvals, if_neg hmis, hi, hat, allOk_append, prefixMatchEvals_ok, hofs,
      true_and, partialKeyEvals_ok hlen]

theorem cow_searches : Searches (UpdateOk True key) key (cowEvals key) where
  null := by
    intro ofs hofs
    rw [cowEvals]
    exact newLeafEvals_ok hofs
  leaf := by
    intro hd val type hlen
    rw [cowEvals, updateCowEvals, if_pos type]
    exact updateOk_leaf type hlen fun hmis => by simpa using shortenEvals_ok hlen.le hmis
  stop := by
    intro hd chs type hlen hend
    by_cases hmis : prefixMatch hd key < hd.pfxLen
    · rw [cowEvals, updateCowEvals, if_pos hmis, if_pos hmis, List.append_nil]
      exact updateOk_fork type hlen hmis
    · have hi := hend.resolve_left hmis
      have hofs : hd.pfxOfs < 8 := by omega
      simp only [cowEvals, updateCowEvals, if_neg hmis, if_neg type, hi, allOk_append,
        prefixMatchEvals_ok, hofs, true_and, partialKeyEvals_ok hlen, newLeafEvals_ok hlen,
          and_true]
      exact updateOk_extend type hlen hmis hi
  go := by
    intro hd chs idx hlen hmis hi
    have hat : cowEvalsAt key chs (slot hd idx) = cowEvals key (getch hd chs idx) :=
      at_eq Tree.null (fun _ => by funext ofs; rw [cowEvalsAt, cowEvals]) (fun _ _ => rfl)
        (fun _ _ _ => rfl) chs _
    have hofs : hd.pfxOfs < 8 := by omega
    have htype : hd.type ≠ .leaf := by
      intro hleaf
      simp [findIdx, hleaf] at hi
    refine ⟨updateOk_go hlen hmis hi, ?_⟩
    simp only [cowEvals, updateCowEvals, if_neg hmis, if_neg htype, hi, hat, allOk_append,
      prefixMatchEvals_ok, hofs, true_and, partialKeyEvals_ok hlen, List.append_nil]

end Operations

section Runs

variable {t s n ofs key val : Nat} {h h' : NodeHeap} {ctx : Context} {r : Option NodePtr}
    {p q : NodePtr}
  {hd : Head} {T : Tree} {chs : List Tree} {es : List Eval}

/-- The evaluations of every run from here that reaches DONE. -/
def Follows (t : Nat) (ctx : Context) (h : NodeHeap) (es : List Eval) : Prop :=
  ∀ fuel s r, interface.run next t fuel s ctx h = some r → runEvals t fuel s ctx h = es

theorem follows_done (hop : ctx.op = .done) : Follows t ctx h [] := by
  intro fuel s r hrun
  cases fuel with
  | zero => rfl
  | succ fuel => simp [runEvals, interface, hop]

theorem follows_step (hop : ctx.op ≠ .done) (hwlp : ∀ s, (interface.handle ctx).wlp t s 0 h
    (fun ctx' _ h' => Follows t ctx' h' es)) : Follows t ctx h (handlerEvals ctx h ++ es) := by
  intro fuel s r hrun
  have hdone : interface.done ctx = false := by simp [interface, hop]
  cases fuel with
  | zero => simp [Handlers.run] at hrun
  | succ fuel =>
      simp only [Handlers.run, hdone, Bool.false_eq_true, if_false] at hrun
      simp only [runEvals, hdone, Bool.false_eq_true, if_false]
      cases hexec : (interface.handle ctx).exec t s 0 h with
      | none =>
          rw [hexec] at hrun
          simp at hrun
      | some r' =>
          rw [hexec] at hrun
          exact congrArg (_ ++ ·) (hwlp s r' hexec fuel _ r hrun)

theorem allocLeaf_keeps {ver pfxOfs key val : Nat} :
    (allocLeaf ver pfxOfs key val).wlp t s n h (fun q _ h' => ¬ q.Before t ∧ h.Keeps t h') := by
  simp only [allocLeaf, Prog.wlp_new]
  exact ⟨Ptr.not_before _, (Heap.Keeps.refl t h).place (Ptr.not_before _) _⟩

theorem nodeCopy_keeps {ver : Nat} :
    (nodeCopy p ver).wlp t s n h (fun q _ h' => ¬ q.Before t ∧ h.Keeps t h') := by
  simp only [nodeCopy, Prog.wlp_bind, Prog.wlp_load]
  rintro ⟨v, hd⟩ -
  split
  · simp only [Prog.wlp_bind, Prog.wlp_load, Prog.wlp_new]
    rintro val -
    exact ⟨Ptr.not_before _, (Heap.Keeps.refl t h).place (Ptr.not_before _) _⟩
  · simp only [Prog.wlp_new]
    exact ⟨Ptr.not_before _, (Heap.Keeps.refl t h).place (Ptr.not_before _) _⟩

theorem leafUpdate_keeps {ver : Nat} :
    (leafUpdate ver p val).wlp t s n h (fun q _ h' => ¬ q.Before t ∧ h.Keeps t h') := by
  simp only [leafUpdate, Prog.wlp_bind, Prog.wlp_store, Prog.wlp_pure]
  refine Prog.wlp_mono nodeCopy_keeps ?_
  rintro q n' h' ⟨hq, hk⟩ -
  exact ⟨hq, hk.set hq _ _⟩

theorem copych_keeps (hq : ¬ q.Before t) :
    (copych q p).wlp t s n h (fun _ _ h' => h.Keeps t h') := by
  simp only [copych, Prog.wlp_bind, Prog.wlp_load]
  rintro ⟨v, hd⟩ -
  split
  · rw [Prog.wlp_pure]
    exact Heap.Keeps.refl t h
  · simp only [Prog.wlp_bind, Prog.wlp_load, Prog.wlp_store]
    rintro ps - -
    exact (Heap.Keeps.refl t h).set hq _ _

theorem storeCh_keeps {idx : Nat} (hq : ¬ q.Before t) :
    (storeCh q idx p).wlp t s n h (fun _ _ h' => h.Keeps t h') := by
  simp only [storeCh, Prog.wlp_bind, Prog.wlp_load, Prog.wlp_store]
  rintro hd - ps - -
  exact (Heap.Keeps.refl t h).set hq _ _

theorem nodeForkCow_keeps {pmlen : Nat} :
    (nodeForkCow ctx p pmlen).wlp t s n h (fun r _ h' => ¬ r.1.Before t ∧ h.Keeps t h') := by
  simp only [nodeForkCow, Prog.wlp_bind]
  refine Prog.wlp_mono nodeCopy_keeps ?_
  rintro q n₁ h₁ ⟨hq, hk₁⟩
  simp only [Prog.wlp_load, Prog.wlp_store]
  rintro ch - - past -
  refine Prog.wlp_mono allocLeaf_keeps ?_
  rintro l n₂ h₂ ⟨-, hk₂⟩
  simp only [Prog.wlp_new, Prog.wlp_pure]
  exact ⟨Ptr.not_before _, ((hk₁.set hq _ _).trans hk₂).place (Ptr.not_before _) _⟩

def headOf : Tree → Option Head
  | .null => none
  | .leaf hd _ | .node hd _ => some hd

theorem headAt_denotes {S : NodePtr → Prop} (hr : Denotes S h r T) : headAt h r = headOf T := by
  cases T with
  | null =>
      obtain rfl : r = none := hr
      rfl
  | leaf hd val =>
      obtain ⟨p, rfl, -, -, ⟨v, hhead⟩, -⟩ := hr
      simp [headAt, hhead, headOf]
  | node hd chs =>
      obtain ⟨p, rfl, -, -, ⟨v, hhead⟩, -⟩ := hr
      simp [headAt, hhead, headOf]

def restEvals (key : Nat) : Tree → Nat → List Eval
  | .null, _ | .leaf _ _, _ => []
  | .node hd chs, ofs =>
      if prefixMatch hd key < hd.pfxLen then []
      else
        match findIdx hd (partialKey key (ofs + hd.pfxLen)) with
        | some idx => cowEvals key (getch hd chs idx) (ofs + hd.pfxLen + 1)
        | none => newLeafEvals (ofs + hd.pfxLen + 1)

theorem cowEvals_eq (key : Nat) (T : Tree) (ofs : Nat) :
    cowEvals key T ofs = updateCowEvals key ofs (headOf T) ++ restEvals key T ofs := by
  cases T with
  | null => rw [cowEvals, restEvals, List.append_nil, headOf]
  | leaf hd val => rw [cowEvals, restEvals, List.append_nil, headOf]
  | node hd chs =>
      have hat : ∀ i, cowEvalsAt key chs i = cowEvals key (chs.getD i .null) :=
        at_eq Tree.null (fun _ => by funext ofs; rw [cowEvalsAt, cowEvals]) (fun _ _ => rfl)
          (fun _ _ _ => rfl) chs
      simp only [cowEvals, restEvals, headOf, hat]
      rfl

def Leads (t ofs : Nat) (T : Tree) : Prop :=
  ∀ ⦃s n : Nat⦄ ⦃h : NodeHeap⦄ (ctx : Context), Denotes (Ptr.Before t) h ctx.tPast T →
    ctx.keyOfs = ofs →
    (updateCow ctx).wlp t s n h (fun r _ h' => ¬ r.1.Before t ∧ h.Keeps t h' ∧
      ∀ h₁ root, h.Keeps t h₁ →
        Follows t { r.2 with root := root, tCur := some r.1 } h₁ (restEvals ctx.key T ofs))

theorem follows_fork (hop : ctx.op = .fork) : Follows t ctx h [] := by
  have hstep : Follows t ctx h (handlerEvals ctx h ++ []) := by
    apply follows_step (by simp [hop])
    intro s
    have hhandle : interface.handle ctx = handleFork ctx := by simp only [interface, hop]
    simp only [hhandle, handleFork, Prog.wlp_bind, Prog.wlp_check, Prog.wlp_load]
    rintro cur - past - ps - q -
    intro r _
    rw [Prog.wlp_pure]
    exact follows_done rfl
  simpa [handlerEvals, hop] using hstep

theorem follows_insert (hop : ctx.op = .insert) : Follows t ctx h (newLeafEvals ctx.keyOfs) := by
  have hstep : Follows t ctx h (handlerEvals ctx h ++ []) := by
    apply follows_step (by simp [hop])
    intro s
    have hhandle : interface.handle ctx = handleInsert ctx := by simp only [interface, hop]
    simp only [hhandle, handleInsert, Prog.wlp_bind, Prog.wlp_check, Prog.wlp_load, Prog.wlp_store]
    rintro cur - past - new - old - ps - -
    intro r _ r' _
    rw [Prog.wlp_pure]
    exact follows_done rfl
  simpa [handlerEvals, hop] using hstep

theorem denotes_keeps (hk : h.Keeps t h') (hr : Denotes (Ptr.Before t) h r T) :
    Denotes (Ptr.Before t) h' r T := hr.frame fun x hx => ⟨hx, hk x hx⟩

theorem follows_search {ps : List (Option NodePtr)} {v : Nat} (hop : ctx.op = .search)
    (hcur : ∀ q ∈ ctx.tCur, ¬ q.Before t) (hpast : ctx.tPast = some p) (hp : p.Before t)
    (hhead : h (p, Field.head) = some (v, hd)) (hchs : h (p, Field.chs) = some ps)
    (hps : List.Forall₂ (Denotes (Ptr.Before t) h) ps chs)
    (hchild : Leads t ctx.keyOfs (getch hd chs ctx.chIdx)) :
    Follows t ctx h (cowEvals ctx.key (getch hd chs ctx.chIdx) ctx.keyOfs) := by
  have hden : Denotes (Ptr.Before t) h (getch hd ps ctx.chIdx) (getch hd chs ctx.chIdx) :=
    related_getch hps denotes_null hd ctx.chIdx
  have hevals : handlerEvals ctx h =
      updateCowEvals ctx.key ctx.keyOfs (headOf (getch hd chs ctx.chIdx)) := by
    rw [← headAt_denotes hden]
    simp [handlerEvals, hop, childAt, hpast, hhead, hchs]
  rw [cowEvals_eq, ← hevals]
  apply follows_step (by simp [hop])
  intro s
  have hhandle : interface.handle ctx = handleSearch ctx := by simp only [interface, hop]
  simp only [hhandle, handleSearch, Prog.wlp_bind, Prog.wlp_check, hpast, Option.some.injEq,
    forall_eq']
  intro q hq
  refine Prog.wlp_mono (copych_keeps (hcur q hq)) ?_
  intro _ n₁ h₁ hk₁
  simp only [Prog.wlp_load, hk₁ p hp, hhead, hchs, Option.some.injEq, forall_eq']
  refine Prog.wlp_mono (hchild { ctx with tPast := getch hd ps ctx.chIdx }
    (denotes_keeps hk₁ hden) rfl) ?_
  rintro ⟨tp, ctx'⟩ n₂ h₂ ⟨-, hk₂, hfollows⟩
  refine Prog.wlp_mono (storeCh_keeps (hcur q hq)) ?_
  intro _ n₃ h₃ hk₃
  rw [Prog.wlp_pure]
  exact hfollows h₃ ctx'.root (hk₂.trans hk₃)

theorem leads_null : Leads t ofs .null := by
  rintro s n h ctx hpast rfl
  have hnone : ctx.tPast = none := hpast
  simp only [updateCow, hnone, Prog.wlp_bind]
  refine Prog.wlp_mono allocLeaf_keeps ?_
  rintro q n' h' ⟨hq, hk⟩
  rw [Prog.wlp_pure]
  exact ⟨hq, hk, fun h₁ root _ => follows_done rfl⟩

theorem leads_leaf (old : Nat) : Leads t ofs (.leaf hd old) := by
  rintro s n h ctx ⟨p, hp, hs, htype, ⟨v, hhead⟩, hval⟩ rfl
  simp only [updateCow, hp, Prog.wlp_bind, Prog.wlp_load, hhead, Option.some.injEq, forall_eq',
    htype,
    if_true]
  split
  · simp only [Prog.wlp_bind, Prog.wlp_pure]
    refine Prog.wlp_mono nodeForkCow_keeps ?_
    rintro r n' h' ⟨hq, hk⟩
    exact ⟨hq, hk, fun h₁ root _ => follows_fork rfl⟩
  · simp only [Prog.wlp_bind, Prog.wlp_pure]
    refine Prog.wlp_mono leafUpdate_keeps ?_
    rintro q n' h' ⟨hq, hk⟩
    exact ⟨hq, hk, fun h₁ root _ => follows_done rfl⟩

theorem leads_node (hchild : ∀ i ofs, Leads t ofs (chs.getD i .null)) :
    Leads t ofs (.node hd chs) := by
  rintro s n h ctx ⟨p, hp, hs, htype, ⟨v, hhead⟩, ps, hchs, hps⟩ rfl
  rw [denotesList_iff] at hps
  simp only [updateCow, hp, Prog.wlp_bind, Prog.wlp_load, hhead, Option.some.injEq, forall_eq',
    restEvals]
  by_cases hmis : prefixMatch hd ctx.key < hd.pfxLen
  · simp only [if_pos hmis, Prog.wlp_bind, Prog.wlp_pure]
    refine Prog.wlp_mono nodeForkCow_keeps ?_
    rintro r n' h' ⟨hq, hk⟩
    exact ⟨hq, hk, fun h₁ root _ => follows_fork rfl⟩
  · simp only [if_neg hmis, if_neg htype]
    cases hi : findIdx hd (partialKey ctx.key (ctx.keyOfs + hd.pfxLen)) with
    | some idx =>
        simp only [Prog.wlp_bind, Prog.wlp_pure]
        refine Prog.wlp_mono nodeCopy_keeps ?_
        rintro q n' h' ⟨hq, hk⟩
        refine ⟨hq, hk, fun h₁ root hk₁ => ?_⟩
        exact follows_search rfl (by rintro _ ⟨⟩; exact hq) rfl hs ((hk₁ p hs _).trans hhead)
          ((hk₁ p hs _).trans hchs) (hps.imp fun _ _ hr => denotes_keeps hk₁ hr) (hchild _ _)
    | none =>
        simp only [Prog.wlp_bind, Prog.wlp_pure, Prog.wlp_new]
        exact ⟨Ptr.not_before _, (Heap.Keeps.refl t h).place (Ptr.not_before _) _,
          fun h₁ root _ => follows_insert rfl⟩

mutual

theorem leads (T : Tree) (ofs : Nat) : Leads t ofs T := by
  match T with
  | .null => exact leads_null
  | .leaf hd old => exact leads_leaf old
  | .node hd chs => exact leads_node fun i ofs => leadsAt chs i ofs

theorem leadsAt (Ts : List Tree) (i ofs : Nat) : Leads t ofs (Ts.getD i .null) := by
  match Ts, i with
  | [], _ => exact leads_null
  | T :: _, 0 => exact leads T ofs
  | _ :: Ts, i + 1 => exact leadsAt Ts i ofs

end

theorem update_follows (key val : Nat) (hr : Denotes (Ptr.Before t) h r T) :
    Follows t (interface.start t key val r) h (cowEvals key T 0) := by
  have hevals : handlerEvals (interface.start t key val r) h = updateCowEvals key 0 (headOf T) := by
    rw [← headAt_denotes hr]
    rfl
  rw [cowEvals_eq, ← hevals]
  apply follows_step (by simp [interface])
  intro s
  have hhandle : interface.handle (interface.start t key val r) =
    handleInit (interface.start t key val r) := rfl
  simp only [hhandle, handleInit, Prog.wlp_bind]
  refine Prog.wlp_mono (leads T 0 { interface.start t key val r with keyOfs := 0 } hr rfl) ?_
  rintro ⟨tp, ctx⟩ n' h' ⟨-, hk, hfollows⟩
  rw [Prog.wlp_pure]
  exact hfollows h' (some tp) hk

end Runs

end Contrees.Trees.Art
