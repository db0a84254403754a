import Contrees.Trees.AertShape

namespace Contrees.Trees.Aert

open Library Library.Words Library.OrderedMap Library.Slots Word

variable {hd new : Head} {ofs key val n d lo h pkey : Nat} {t c x : Tree} {chs chs' : List Tree}
  {uh : Head × List Tree} {F : Nat → Tree}

section Fit

def Fitted (A : List Nat) (hd : Head) : Prop := hd.type = .nodeh16 → 5 ≤ A.length ∧ hd.keys = []

theorem fitted_fresh (A : List Nat) (pfxOfs pfxLen key : Nat) :
    Fitted A (newNodeh A.length pfxOfs pfxLen key) := by
  intro hn
  by_cases hlen : A.length > 4
  · exact ⟨hlen, rfl⟩
  · simp [newNodeh, newNode, hlen] at hn

theorem Fitted.append {A : List Nat} (f : Fitted A hd) (d : Nat) : Fitted A (append hd d).2 := by
  intro hn
  rw [append_type] at hn
  rw [direct_append hn]
  exact f hn

structure Fit (hd : Head) (pkey : Nat) (uh : Head × List Tree) (F : Nat → Tree) : Prop extends
    Halves hd pkey uh F where
  upper : Fitted (highs hd pkey) uh.1
  fits : ∀ h lh chs, findch uh.1 uh.2 h = .node lh chs → Fitted (lows hd pkey h) lh

theorem fit_null (hlt : ∀ d ∈ pkey :: hd.keys, d < 256) :
    Fit hd pkey (createUpperHalf hd pkey) (fun _ => .null) := by
  refine ⟨halves_null hlt, ?_, fun h lh chs hnode => ?_⟩
  · have hrun : ∀ (ds : List Nat) uh, Fitted (highs hd pkey) uh.1 →
        Fitted (highs hd pkey) (ds.foldl (upperStep hd pkey) uh).1 := by
      intro ds
      induction ds with
      | nil => exact fun _ f => f
      | cons d ds ih =>
          intro uh f
          apply ih
          rw [upperStep]
          split
          · exact f.append d
          · exact f
    rw [createUpperHalf_eq]
    exact hrun _ _ (fitted_fresh _ _ _ _)
  · rw [(createUpperHalf_spec hlt).2] at hnode
    split at hnode
    · obtain ⟨rfl, -⟩ : newNodeh (chSz hd pkey h) (hd.pfxOfs + hd.pfxLen + 4) 0 0 = lh ∧
          [] = chs := by
        simpa [lowerHalf] using hnode
      rw [← length_lows]
      exact fitted_fresh _ _ _ _
    · simp at hnode

theorem Fit.step (f : Fit hd pkey uh F) (hlt : ∀ d ∈ pkey :: hd.keys, d < 256)
    (hd' : d ∈ pkey :: hd.keys) (hF : F d = .null) (hx : x ≠ .null) :
    Fit hd pkey (createLowerHalf uh x d) (Function.update F d x) := by
  refine ⟨f.toHalves.step hlt hd' hF hx, ?_, fun h lh chs hnode => ?_⟩
  · by_cases hsz : 2 ≤ chSz hd pkey (d / 16)
    · obtain ⟨lh, chs, -, hhead, -⟩ := f.toHalves.step_lower hd' hF hx hsz
      exact hhead ▸ f.upper
    · obtain ⟨hhead, -⟩ := f.toHalves.step_single (x := x) hlt hd' hF hsz
      exact hhead ▸ f.upper.append (d / 16)
  · by_cases hsz : 2 ≤ chSz hd pkey (d / 16)
    · obtain ⟨lh', chs', hold, hhead, hfind, -⟩ := f.toHalves.step_lower hd' hF hx hsz
      rw [hhead, hfind, Function.update_apply] at hnode
      split at hnode
      · rename_i hh
        obtain ⟨rfl, -⟩ := Tree.node.inj hnode
        rw [hh]
        exact (f.fits _ _ _ hold).append _
      · exact f.fits h lh chs hnode
    · obtain ⟨hhead, hfind, -⟩ := f.toHalves.step_single (x := x) hlt hd' hF hsz
      rw [hhead, hfind, Function.update_apply] at hnode
      split at hnode
      · simp at hnode
      · exact f.fits h lh chs hnode

end Fit

section Heads

theorem newNode_masked {type : NodeType} (htype : type ≠ .leaf) (pfxOfs pfxLen key : Nat)
    (keys : List Nat) :
    ({ newNode type pfxOfs pfxLen key with keys := keys } : Head).Masked := by
  simp only [Head.Masked, newNode, if_neg htype, Nat.and_assoc, Nat.and_self]

theorem shorten_masked (htype : hd.type ≠ .leaf) (m : Nat) : (shorten hd m).Masked := by
  simp only [Head.Masked, shorten, if_neg htype, Nat.and_assoc, Nat.and_self]

theorem append_masked (hm : hd.Masked) (d : Nat) : (append hd d).2.Masked := by
  obtain ⟨hofs, hlen, hpfx⟩ := append_head hd d
  rw [Head.Masked, hofs, hlen, hpfx]
  exact hm

theorem extend_masked (hm : hd.Masked) (d : Nat) : (extendAppend hd d).2.Masked := by
  cases hn : hd.type with
  | node4 | nodeh4 =>
      simp only [Head.Masked, extendAppend, hn, newNode, grow, reduceCtorEq, if_false,
        Nat.and_assoc,
        Nat.and_self]
  | node16 | nodeh16 | leaf => simpa [extendAppend, hn] using hm

end Heads

section Sized

variable {F' : Nat → Tree}

theorem HasByte.mono {e b : Nat} (hb : HasByte e F b)
    (hF : ∀ i x, (F i).radix.find (rest e) x ≠ none → (F' i).radix.find (rest e) x ≠ none) :
    HasByte e F' b := by
  obtain ⟨hlt, x, hx, hlow⟩ := hb
  exact ⟨hlt, x, hF _ x hx, hlow⟩

theorem Updates.keeps {t' : Tree} (hu : Updates t t' ofs key val) {k : Nat}
    (hk : t.radix.find (rest ofs) k ≠ none) : t'.radix.find (rest ofs) k ≠ none := by
  rw [hu.find, Function.update_apply]
  split
  · simp
  · exact hk

theorem Sized.child (hs : Sized hd F) (hnew : Carries hd new)
    (hc : Updates (F d) c (hd.pfxOfs + hd.pfxLen + nodeKeyLen hd.type) key val)
    (h16 : new.type = .node16 → 5 ≤ new.size)
    (hh16 : new.type = .nodeh16 → new.keys = [] ∧
      Many 5 (fun e => e < 16 ∧ Function.update F d c e ≠ .null)) :
    Sized new (Function.update F d c) := by
  refine ⟨h16, hh16, fun hw hofs => ?_⟩
  rw [hnew.width] at hw
  rw [hnew.pfxOfs] at hofs
  rw [hnew.pfxOfs, hnew.pfxLen]
  rw [hw] at hc
  refine (hs.upper hw hofs).mono fun b hb => hb.mono fun i x hx => ?_
  rw [Function.update_apply]
  split
  · rename_i hi
    rw [hi] at hx
    exact hc.keeps hx
  · exact hx

theorem live_update (hc : c ≠ .null) {e : Nat} (he : F e ≠ .null) :
    Function.update F d c e ≠ .null := by
  rw [Function.update_apply]
  split
  · exact hc
  · exact he

theorem node_canon (hcanon : Canon (.node hd chs)) (hnew : Carries hd new) (masked : new.Masked)
    (hfind : findch new chs' = Function.update (findch hd chs) d c)
    (hmem : ∀ c' ∈ chs', c' = c ∨ c' ∈ chs ∨ new.type = .nodeh16 ∧ c' = .null) (hc : Canon c)
    (hu : Updates (findch hd chs d) c (hd.pfxOfs + hd.pfxLen + nodeKeyLen hd.type) key val)
    (h16 : new.type = .node16 → 5 ≤ new.size)
    (hh16 : new.type = .nodeh16 → new.keys = [] ∧
      Many 5 (fun e => e < 16 ∧ Function.update (findch hd chs) d c e ≠ .null)) :
    Canon (.node new chs') := by
  cases hcanon with
  | node _ sized children =>
      refine .node masked ?_ fun c' hc' => ?_
      · rw [hfind]
        exact sized.child hnew hu h16 hh16
      · rcases hmem c' hc' with rfl | hold | ⟨-, rfl⟩
        exacts [hc, children c' hold, .null]

end Sized

section Split

theorem nodup_lows (hnodup : (pkey :: hd.keys).Nodup) (h : Nat) : (lows hd pkey h).Nodup := by
  refine List.Nodup.map_on (fun a ha b hb heq => ?_) (hnodup.filter _)
  have ha := (List.mem_filter.mp ha).2
  have hb := (List.mem_filter.mp hb).2
  rw [hi_eq, decide_eq_true_eq] at ha hb
  rw [lo_eq, lo_eq] at heq
  omega

theorem Full.hasByte (f : Full hd pkey uh F) (hd' : d ∈ pkey :: hd.keys) :
    HasByte (hd.pfxOfs + hd.pfxLen + 4) (findch uh.1 uh.2) d := by
  have hle := f.len_le
  have hlt := f.lt d hd'
  obtain ⟨y, hy⟩ := (f.wf d).word (f.live d hd')
  obtain ⟨v, hv⟩ := Option.ne_none_iff_exists'.mp hy
  have hylt := Radix.find_lt (f.wf d).fits hv
  set m := rest (hd.pfxOfs + hd.pfxLen + 8) with hm
  have hmid : rest (hd.pfxOfs + hd.pfxLen + 4) = 4 + m := by
    rw [hm, rest, rest]
    omega
  have hpow : (2 : Nat) ^ (4 + m) = 16 * 2 ^ m := pow_add 2 4 m
  have hlow : d % 16 * 2 ^ m + y < 2 ^ (4 + m) := by
    calc d % 16 * 2 ^ m + y < d % 16 * 2 ^ m + 2 ^ m := by omega
      _ = (d % 16 + 1) * 2 ^ m := by ring
      _ ≤ 16 * 2 ^ m := Nat.mul_le_mul_right _ (by omega)
      _ = 2 ^ (4 + m) := hpow.symm
  have hword : (Radix.node hd.pfxLen hd.prefixBits 8 fun d => (F d).radix).find (rest hd.pfxOfs)
      ((hd.prefixBits * 2 ^ 8 + d) * 2 ^ m + y) ≠ none := by
    rw [← rest_add hle, Radix.find_digit hlt hylt]
    exact hy
  have hkey : (hd.prefixBits * 2 ^ 8 + d) * 2 ^ m + y =
      (hd.prefixBits * 2 ^ 4 + d / 16) * 2 ^ (4 + m) + (d % 16 * 2 ^ m + y) := by
    have hsplit : hd.prefixBits * 2 ^ 8 + d = (hd.prefixBits * 2 ^ 4 + d / 16) * 16 + d % 16 := by
      omega
    rw [hsplit, hpow]
    ring
  have hbits : uh.1.prefixBits = hd.prefixBits := by
    rw [Head.prefixBits, Head.prefixBits, f.pfxOfs, f.pfxLen, f.pfx]
    exact slice_prefixMask (by omega)
  have hrest : rest hd.pfxOfs = hd.pfxLen + 4 + (4 + m) := by
    rw [← hmid]
    exact (rest_add (by omega)).symm
  rw [← f.find_node, hkey, radix_node, f.grows.width, f.pfxLen, hbits, hrest,
    Radix.find_digit (by omega) hlow] at hword
  refine ⟨hlt, d % 16 * 2 ^ m + y, by rwa [hmid], ?_⟩
  have hend : rest (hd.pfxOfs + hd.pfxLen + 4 + 4) = m := rfl
  rw [hend, Nat.add_comm, Nat.add_mul_div_right _ _ (Nat.two_pow_pos m), Nat.div_eq_of_lt hylt,
    Nat.zero_add]

theorem Full.lower_canon (f : Full hd pkey uh F) (fit : Fit hd pkey uh F) (hF : ∀ d, Canon (F d))
    {lh : Head} {chs : List Tree} (hnode : findch uh.1 uh.2 h = .node lh chs)
    (l : Lower hd pkey h F lh chs) : Canon (.node lh chs) := by
  have hlen := l.pfxLen
  have hpfx := l.pfx
  refine .node ?_ ⟨fun hn => ?_, fun hn => ?_, fun _ hofs => ?_⟩ fun c hc => ?_
  · rw [Head.Masked, hpfx, Nat.zero_and]
  · rcases l.grows.type with ⟨hn', -⟩ | hn' <;> simp [hn] at hn'
  · obtain ⟨hmany, hkeys⟩ := fit.fits h lh chs hnode hn
    refine ⟨hkeys, lows hd pkey h, hmany, nodup_lows f.nodup h, fun e he => ⟨lows_lt e he, ?_⟩⟩
    obtain ⟨d, hd', rfl, rfl⟩ := mem_lows.mp he
    rw [l.find _ (lows_lt _ he), Nat.div_add_mod']
    exact f.live d hd'
  · obtain ⟨hdvd, hdvd'⟩ := f.aligned
    rw [l.pfxOfs] at hofs
    omega
  · by_cases hnull : c = .null
    · exact hnull ▸ .null
    · obtain ⟨e, rfl⟩ := l.grows.mem hc
      rw [l.find e (l.grows.lt e (l.grows.support e hnull))]
      exact hF _

theorem Full.canon (f : Full hd pkey uh F) (fit : Fit hd pkey uh F) (hF : ∀ d, Canon (F d)) :
    Canon (.node uh.1 uh.2) := by
  refine .node ?_ ⟨fun hn => ?_, fun hn => ?_, fun _ _ => ?_⟩ fun c hc => ?_
  · rw [Head.Masked, f.pfx, f.pfxOfs, f.pfxLen, Nat.and_assoc, Nat.and_self]
  · rcases f.grows.type with ⟨hn', -⟩ | hn' <;> simp [hn] at hn'
  · obtain ⟨hmany, hkeys⟩ := fit.upper hn
    refine ⟨hkeys, highs hd pkey, hmany, List.nodup_range.filter _, fun e he => ?_⟩
    obtain ⟨hlt, d, hd', rfl⟩ := mem_highs.mp he
    exact ⟨hlt, f.findch_ne hd'⟩
  · rw [f.pfxOfs, f.pfxLen]
    exact ⟨pkey :: hd.keys, f.size, f.nodup, fun d hd' => f.hasByte hd'⟩
  · obtain ⟨e, rfl⟩ := f.grows.mem hc
    by_cases hsz : 2 ≤ chSz hd pkey e
    · obtain ⟨lh, chs, hnode, hlower⟩ := f.lower e hsz
      rw [hnode]
      exact f.lower_canon fit hF hnode hlower
    · rcases f.single e (not_le.mp hsz) with ⟨hnull, -⟩ | ⟨l, -, -, htag⟩
      · exact hnull ▸ .null
      · exact htag ▸ .tagged (hF _)

end Split

section Forks

theorem newLeaf_canon (ofs key val : Nat) : Canon (newLeaf ofs key val) := by
  rw [newLeaf]
  split
  · exact .tagged (.leaf rfl rfl)
  · exact .leaf rfl rfl

theorem forkHead_canon {type : NodeType} {m pk0 pk1 : Nat} {x y : Tree}
    (htype : type = .node4 ∨ type = .nodeh4 ∧ ofs % 8 = 4) (hx : Canon x) (hy : Canon y) :
    Canon (.node (forkHead type ofs m key pk0 pk1) (pairUp pk0 pk1 x y)) := by
  refine .node ?_ ⟨fun hn => ?_, fun hn => ?_, fun hw hofs => ?_⟩ fun c hc => ?_
  · apply newNode_masked
    rcases htype with rfl | ⟨rfl, -⟩ <;> simp
  · rcases htype with rfl | ⟨rfl, -⟩ <;> simp [forkHead, newNode] at hn
  · rcases htype with rfl | ⟨rfl, -⟩ <;> simp [forkHead, newNode] at hn
  · rcases htype with rfl | ⟨rfl, hhalf⟩
    · simp [forkHead, newNode, nodeKeyLen] at hw
    · simp only [forkHead, newNode] at hofs
      omega
  · rcases mem_pairUp.mp hc with rfl | rfl
    exacts [hx, hy]

theorem shorten_leaf_canon {val : Nat} (hc : Canon (.leaf hd val)) (m : Nat) :
    Canon (.leaf (shorten hd m) val) := by
  cases hc with
  | leaf size keys => exact .leaf size keys

theorem shorten_node_canon {m : Nat} (hc : Canon (.node hd chs)) (h : Wf hd.pfxOfs (.node hd chs))
    (hdvd : 8 ∣ m) (hm : m + 8 ≤ hd.pfxLen) : Canon (.node (shorten hd m) chs) := by
  cases hc with
  | node _ sized children =>
  cases h with
  | node _ _ _ head _ _ _ =>
      refine .node (shorten_masked head.laid.not_leaf m) ⟨sized.node16, sized.nodeh16,
        fun hw hofs => ?_⟩
        children
      have hsum : (shorten hd m).pfxOfs + (shorten hd m).pfxLen = hd.pfxOfs + hd.pfxLen := by
        simp only [shorten]
        omega
      have hofs' : 8 ∣ hd.pfxOfs := by
        simp only [shorten] at hofs
        omega
      rw [hsum]
      exact sized.upper hw hofs'

end Forks

section Update

theorem split_canon (h : Wf hd.pfxOfs (.node hd chs)) (hc : Canon (.node hd chs))
    (hn : hd.type = .node16) (hsize : hd.size = 16)
    (hi : findidx hd (partialKey key (hd.pfxOfs + hd.pfxLen) 8) = none) (val : Nat) :
    Canon (nodeSplitInplace hd chs (partialKey key (hd.pfxOfs + hd.pfxLen) 8)
      (hd.pfxOfs + hd.pfxLen + 8) key val) := by
  have hcomp : Compact hd := .inr (.inl hn)
  have hnode := h
  cases h with
  | node _ _ len_le head full _ _ =>
  cases hc with
  | node _ _ children =>
      rw [hn] at len_le
      have hlt : partialKey key (hd.pfxOfs + hd.pfxLen) 8 < 2 ^ 8 := partialKey_lt (.inr rfl) len_le
      have hall := node16_keys_lt hn head hlt
      obtain ⟨uh, huh, fit⟩ := nodeSplit_run hn head (full (by simp [hn]))
        (congrArg (partialKey key · 8) (Nat.add_sub_cancel (hd.pfxOfs + hd.pfxLen) 8))
        (hcomp.absent head hi) (newLeaf_ne (hd.pfxOfs + hd.pfxLen + 8) key val) (fit_null hall)
        fun _ _ _ _ f hd' hF hx => f.step hall hd' hF hx
      rw [huh]
      refine (split_full hnode hn hsize hi fit.toHalves).canon fit fun d => ?_
      rw [Function.update_apply]
      split
      · exact newLeaf_canon _ _ _
      · exact Canon.findch children hd d

theorem extend_sized (h : Wf hd.pfxOfs (.node hd chs)) (hlt : d < 2 ^ nodeKeyLen hd.type)
    (hi : findidx hd d = none) (hfull : isFull hd = true) (hsize : hd.size ≠ 16) (hx : x ≠ .null) :
    ((extendAppend hd d).2.type = .node16 → 5 ≤ (extendAppend hd d).2.size) ∧
      ((extendAppend hd d).2.type = .nodeh16 → (extendAppend hd d).2.keys = [] ∧
        Many 5 (fun e => e < 16 ∧ Function.update (findch hd chs) d x e ≠ .null)) := by
  cases h with
  | node _ _ _ head full _ _ =>
      cases hn : hd.type with
      | node4 =>
          exact ⟨fun _ => by simp [extendAppend, hn, newNode, grow],
            fun hn' => by simp [extendAppend, hn, newNode, grow] at hn'⟩
      | nodeh4 =>
          have hcomp : Compact hd := .inr (.inr hn)
          have hs : Sorted hd chs.length := hcomp.sorted head.laid
          have hfour : hd.size = 4 := by simpa [isFull, hn] using hfull
          refine ⟨fun hn' => by simp [extendAppend, hn, newNode] at hn',
            fun _ => ⟨?_, d :: hd.keys, ?_,
            List.nodup_cons.mpr ⟨hcomp.absent head hi, hs.ascending.imp Nat.ne_of_lt⟩, ?_⟩⟩
          · simp [extendAppend, hn, newNode]
          · rw [List.length_cons, hs.keys_length, hfour]
          · have hkeys := hs.keys_lt
            rw [hn] at hkeys hlt
            refine List.forall_mem_cons.mpr ⟨⟨hlt, ?_⟩, fun e he => ⟨hkeys e he, ?_⟩⟩
            · rwa [Function.update_self]
            · exact live_update hx ((hcomp.mem_keys head.laid (full hcomp.not_direct)).mp he)
      | node16 => exact absurd (by simpa [isFull, hn] using hfull) hsize
      | nodeh16 => simp [isFull, hn] at hfull
      | leaf => exact absurd hn head.laid.not_leaf

theorem gap_canon (h : Wf hd.pfxOfs (.node hd chs)) (hc : Canon (.node hd chs))
    (hmis : ¬ pmlen hd key < hd.pfxLen)
    (hi : findidx hd (partialKey key (hd.pfxOfs + hd.pfxLen) (nodeKeyLen hd.type)) = none)
    (val : Nat) :
    Canon (updateInplace key val (.node hd chs) hd.pfxOfs) := by
  have hnode := h
  have hcanon := hc
  rw [updateInplace_node, if_neg hmis]
  simp only [hi]
  cases h with
  | node _ aligned len_le head full _ _ =>
  cases hc with
  | node masked sized _ =>
      obtain ⟨hdvd, hofs⟩ := aligned
      have hwidth := nodeKeyLen_eq hd.type
      have hlt : partialKey key (hd.pfxOfs + hd.pfxLen) (nodeKeyLen hd.type) <
          2 ^ nodeKeyLen hd.type :=
        partialKey_lt hwidth len_le
      have hchild : Updates
          (findch hd chs (partialKey key (hd.pfxOfs + hd.pfxLen) (nodeKeyLen hd.type)))
          (newLeaf (hd.pfxOfs + hd.pfxLen + nodeKeyLen hd.type) key val)
          (hd.pfxOfs + hd.pfxLen + nodeKeyLen hd.type) key val := by
        rw [findch_eq_default hi]
        exact newLeaf_updates (by omega) len_le key val
      by_cases hsize : hd.size = 16
      · have hn : hd.type = .node16 := by
          have hlaid := head.laid
          cases hn : hd.type <;> simp only [Head.Laid, hn] at hlaid
          all_goals first | rfl | omega
        have hw8 : nodeKeyLen hd.type = 8 := by rw [hn]; rfl
        rw [if_pos hsize, hw8]
        exact split_canon hnode hcanon hn hsize (hw8 ▸ hi) val
      · rw [if_neg hsize]
        by_cases hfull : isFull hd = true
        · obtain ⟨hfind, hwf, hmem⟩ := extend_spec
            (x := newLeaf
              (hd.pfxOfs + hd.pfxLen + nodeKeyLen hd.type) key val) head hlt hi hfull hsize
          obtain ⟨h16, hh16⟩ := extend_sized hnode hlt hi hfull hsize hchild.ne
          rw [if_pos hfull]
          exact node_canon hcanon (extend_carries (by omega) _) (extend_masked masked _) hfind hmem
            (newLeaf_canon _ _ _) hchild h16 hh16
        · have hroom : isFull hd = false := by simpa using hfull
          obtain ⟨hfind, hlaid⟩ := insertch_spec
            (x := newLeaf (hd.pfxOfs + hd.pfxLen + nodeKeyLen hd.type) key val) head.laid hlt
            (fun hc => hc.absent head hi) hroom
          have htype := append_type hd
            (partialKey key (hd.pfxOfs + hd.pfxLen) (nodeKeyLen hd.type))
          rw [if_neg hfull]
          refine node_canon hcanon (append_carries hd _) (append_masked masked _) hfind
            (fun c hc => ?_)
            (newLeaf_canon _ _ _) hchild (fun hn => ?_) fun hn => ?_
          · rw [htype]
            exact mem_insertch head.laid hc
          · rw [htype] at hn
            rw [Compact.append (.inr (.inl hn)), grow_size]
            exact (sized.node16 hn).trans (Nat.le_succ _)
          · rw [htype] at hn
            rw [direct_append hn]
            obtain ⟨hkeys, hmany⟩ := sized.nodeh16 hn
            exact ⟨hkeys, hmany.mono fun e he => ⟨he.1, live_update hchild.ne he.2⟩⟩

/-- `update_inplace` keeps the sizes of the nodes to what their children ask for. -/
theorem updateInplace_canon (h : Wf ofs t) (hc : Canon t) (hdvd : 4 ∣ ofs) (hofs : ofs ≤ 64)
    (key val : Nat) : Canon (updateInplace key val t ofs) := by
  induction h with
  | null => exact newLeaf_canon _ key val
  | @leaf ofs hd old type pfxOfs aligned ofs_le pfxLen =>
      rw [updateInplace]
      split
      · exact forkHead_canon (.inl rfl) (shorten_leaf_canon hc _) (newLeaf_canon _ _ _)
      · cases hc with
        | leaf size keys => exact .leaf size keys
  | @node ofs hd chs pfxOfs aligned len_le head full live children ih =>
      subst pfxOfs
      have h : Wf hd.pfxOfs (.node hd chs) := .node rfl aligned len_le head full live children
      by_cases hmis : pmlen hd key < hd.pfxLen
      · have hdvd := pmlen_dvd (by omega) aligned.1 key
        have hstep := Nat.dvd_sub aligned.1 hdvd
        rw [updateInplace_node, if_pos hmis]
        exact forkHead_canon (.inl rfl) (shorten_node_canon hc h hdvd (by omega))
          (newLeaf_canon _ _ _)
      · cases hi : findidx hd (partialKey key (hd.pfxOfs + hd.pfxLen) (nodeKeyLen hd.type)) with
        | none => exact gap_canon h hc hmis hi val
        | some idx =>
            have hdvd' : 4 ∣ hd.pfxOfs + hd.pfxLen + nodeKeyLen hd.type := by
              obtain ⟨hlen, hofs⟩ := aligned
              have hwidth := nodeKeyLen_eq hd.type
              omega
            have hchild := updateInplace_updates (Wf.findch children hd
              (partialKey key (hd.pfxOfs + hd.pfxLen) (nodeKeyLen hd.type))) hdvd' len_le key val
            have hcanon := hc
            cases hc with
            | node masked sized canon =>
                have hnew : Canon (updateInplace key val (findch hd chs
                    (partialKey key (hd.pfxOfs + hd.pfxLen) (nodeKeyLen hd.type)))
                    (hd.pfxOfs + hd.pfxLen + nodeKeyLen hd.type)) := by
                  rcases findch_mem hd chs
                    (partialKey key (hd.pfxOfs + hd.pfxLen) (nodeKeyLen hd.type)) with hnull | hmem
                  · rw [hnull]
                    exact newLeaf_canon _ key val
                  · exact ih _ hmem (canon _ hmem) hdvd' len_le
                rw [updateInplace_node, if_neg hmis]
                simp only [hi]
                rw [← findch_eq_getch hi]
                refine node_canon hcanon ⟨rfl, rfl, rfl, rfl⟩ masked (setch_spec head hi).1
                  (fun c hc => mem_setch head hi hc) hnew hchild sized.node16 fun hn => ?_
                obtain ⟨hkeys, hmany⟩ := sized.nodeh16 hn
                exact ⟨hkeys, hmany.mono fun e he => ⟨he.1, live_update hchild.ne he.2⟩⟩
  | @tagged ofs lo t half ofs_le lo_lt pfxOfs child ih =>
      cases hc with
      | tagged canon =>
          rw [updateInplace]
          split
          · exact forkHead_canon (.inr ⟨rfl, half⟩) canon (newLeaf_canon _ _ _)
          · exact .tagged (ih canon (by omega) ofs_le)

theorem inplaceAll_canon {us : List (Nat × Nat)} {f : Nat → Option Nat}
    (hus : ∀ u ∈ us, u.1 < 2 ^ 64) (h : Holds f t) (hc : Canon t) : Canon (inplaceAll us t) := by
  induction us generalizing t f with
  | nil => exact hc
  | cons u us ih =>
      exact ih (fun u' hu' => hus u' (List.mem_cons_of_mem u hu'))
        (h.update (hus u List.mem_cons_self) u.2)
        (updateInplace_canon h.wf hc (Nat.dvd_zero 4) (Nat.zero_le 64) u.1 u.2)

/-- Runs of updates in place that write the same map build the same nodes. -/
theorem inplace_shape (us vs : List (Nat × Nat)) (hus : ∀ u ∈ us, u.1 < 2 ^ 64)
    (hvs : ∀ v ∈ vs, v.1 < 2 ^ 64)
    (hmap : writes us (fun _ => none) = writes vs (fun _ => none)) :
    Same (inplaceAll us .null) (inplaceAll vs .null) := by
  have hu := inplaceAll_holds hus holds_null
  have hv := inplaceAll_holds hvs holds_null
  apply canon_unique hu.wf hv.wf (inplaceAll_canon hus holds_null .null)
    (inplaceAll_canon hvs holds_null .null)
  rw [rest_zero, hu.find, hv.find, hmap]

theorem inplace_shape_sample : Same (inplaceAll [(7, 1), (2 ^ 40, 2), (7, 3)] .null)
    (inplaceAll [(7, 3), (2 ^ 40, 2)] .null) := by
  apply inplace_shape
  · simp
  · simp
  · have hne : (2 : Nat) ^ 40 ≠ 7 := by omega
    simp only [writes, List.foldl_cons, List.foldl_nil]
    rw [Function.update_comm hne, Function.update_idem]

end Update

end Contrees.Trees.Aert
