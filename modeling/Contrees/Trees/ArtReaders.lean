import Contrees.Trees.ArtUpdate

namespace Contrees.Trees.Art

open Library Library.Memory Library.OrderedMap Library.Slots Conctrl Word

variable {hd : Head} {ofs key val d : Nat} {T T' : Tree} {chs chs' : List Tree} {b : Prop}

/-- A fork after `pmlen` bytes moves the LEAF below bytes of its word that are
not all zero. At offset 8 `prefix_mask` is all ones. -/
def loses (hd : Head) (pmlen : Nat) : Bool :=
  hd.pfxOfs + pmlen < 7 && 2 ^ rest (hd.pfxOfs + pmlen + 1) ≤ hd.pfx

mutual

def clips (key : Nat) : Tree → Bool
  | .null => false
  | .leaf hd _ => prefixMatch hd key < hd.pfxLen && loses hd (prefixMatch hd key)
  | .node hd chs =>
      if prefixMatch hd key < hd.pfxLen then false
      else
        match findIdx hd (partialKey key (hd.pfxOfs + hd.pfxLen)) with
        | some idx => clipsAt key chs (slot hd idx)
        | none => false

def clipsAt (key : Nat) : List Tree → Nat → Bool
  | [], _ => false
  | t :: _, 0 => clips key t
  | _ :: ts, i + 1 => clipsAt key ts i

end

theorem clipsAt_eq (key : Nat) (chs : List Tree) (i : Nat) :
    clipsAt key chs i = clips key (chs.getD i .null) :=
  at_eq Tree.null (fun _ => by rw [clipsAt, clips]) (fun _ _ => rfl) (fun _ _ _ => rfl) chs i

def Clipped (e e' : Nat × Nat) : Prop := e'.1 ≤ e.1 ∧ e'.2 = e.2

theorem clipped_refl (o : Option (Nat × Nat)) : Option.Rel Clipped o o := by
  cases o with
  | none => exact .none
  | some e => exact .some ⟨le_refl _, rfl⟩

/-- Two trees that read alike but for the words that leaves store; they are one
tree unless `b`. -/
structure Blurs (ofs : Nat) (b : Prop) (T T' : Tree) : Prop where
  wf : Wf ofs T'
  ne : T' ≠ .null
  clipped : ∀ k, Option.Rel Clipped (T.radix.find (rest ofs) k) (T'.radix.find (rest ofs) k)
  same : ¬ b → T' = T
  lost : b → ∃ k < 2 ^ rest ofs, ∃ w w' v, T.radix.find (rest ofs) k = some (w, v) ∧
    T'.radix.find (rest ofs) k = some (w', v) ∧ w' < w

theorem Blurs.of_eq (h : Wf ofs T) (hne : T ≠ .null) (heq : T' = T) (hb : ¬ b) :
    Blurs ofs b T T' := by
  subst heq
  exact ⟨h, hne, fun k => clipped_refl _, fun _ => rfl, fun h => absurd h hb⟩

theorem Blurs.lift (hofs : hd.pfxOfs = ofs) (hd256 : d < 2 ^ 8) (hwf : Wf ofs (.node hd chs'))
    (hoff : ∀ e, e ≠ d → findch hd chs' e = findch hd chs e)
    (hsame : findch hd chs' d = findch hd chs d → chs' = chs)
    (hc : Blurs (ofs + hd.pfxLen + 1) b (findch hd chs d) (findch hd chs' d)) :
    Blurs ofs b (.node hd chs) (.node hd chs') := by
  subst hofs
  have len_lt : hd.pfxOfs + hd.pfxLen < 8 := by
    cases hwf with
    | node _ len_lt _ _ _ => exact len_lt
  refine ⟨hwf, by simp, fun k => ?_, fun hb => by rw [hsame (hc.same hb)], fun hb => ?_⟩
  · rw [radix_node, radix_node, ← rest_add len_lt]
    apply Radix.find_rel
    intro e _ x
    by_cases he : e = d
    · subst he
      exact hc.clipped x
    · rw [hoff e he]
      exact clipped_refl _
  · obtain ⟨k, hk, w, w', v, hw, hw', hlt⟩ := hc.lost hb
    refine ⟨(hd.prefixBits * 2 ^ 8 + d) * 2 ^ rest (hd.pfxOfs + hd.pfxLen + 1) + k, ?_, w, w',
      v, ?_⟩
    · rw [← rest_add len_lt]
      exact Radix.digits_lt (prefixBits_lt len_lt.le) hd256 hk
    · rw [radix_node, radix_node, ← rest_add len_lt, Radix.find_digit hd256 hk,
        Radix.find_digit hd256 hk]
      exact ⟨hw, hw', hlt⟩

def Bounded (ofs : Nat) (T : Tree) : Prop :=
  ∀ k w v, T.radix.find (rest ofs) k = some (w, v) → w < 2 ^ 64

theorem Bounded.child (hb : Bounded hd.pfxOfs (.node hd chs)) (h : Wf hd.pfxOfs (.node hd chs))
    (hd256 : d < 2 ^ 8) : Bounded (hd.pfxOfs + hd.pfxLen + 1) (findch hd chs d) := by
  intro k w v hk
  cases h with
  | node _ len_lt head full children =>
      have hlt := Radix.find_lt (Wf.findch children hd d).fits hk
      apply hb ((hd.prefixBits * 2 ^ 8 + d) * 2 ^ rest (hd.pfxOfs + hd.pfxLen + 1) + k) w v
      rw [radix_node, ← rest_add len_lt, Radix.find_digit hd256 hlt, hk]

section Leaf

theorem and_prefixMask {x : Nat} (hx : x < 2 ^ 64) (hle : ofs ≤ 8) :
    x &&& prefixMask ofs (8 - ofs) = if ofs = 8 then x else x % 2 ^ rest ofs := by
  by_cases h8 : ofs = 8
  · have hones : prefixMask 8 (8 - 8) = 2 ^ 64 - 1 := by decide
    rw [if_pos h8, h8, hones, Nat.and_two_pow_sub_one_eq_mod, Nat.mod_eq_of_lt hx]
  · have hlen : 8 * (8 - ofs) = rest ofs := by
      rw [rest]
      omega
    rw [if_neg h8, prefixMask_eq (by omega) (by omega), hlen, Nat.sub_self, Nat.shiftLeft_zero,
      Nat.and_two_pow_sub_one_eq_mod]

theorem blurs_leaf {m old : Nat} (h : Wf hd.pfxOfs (.leaf hd old)) (hm : m < hd.pfxLen)
    (hpfx : hd.pfx < 2 ^ 64) : Blurs (hd.pfxOfs + m + 1) (loses hd m)
      (.leaf (shorten hd m) old) (.leaf (shortenCow hd m) old) := by
  cases h with
  | leaf type _ ofs_le pfxLen =>
      have hmask : (shortenCow hd m).pfx =
          if hd.pfxOfs + m + 1 = 8 then hd.pfx else hd.pfx % 2 ^ rest (hd.pfxOfs + m + 1) := by
        have hlen : hd.pfxLen - (m + 1) = 8 - (hd.pfxOfs + (m + 1)) := by omega
        rw [shortenCow, hlen]
        exact and_prefixMask hpfx (by omega)
      have hlow : (shortenCow hd m).pfx % 2 ^ rest (hd.pfxOfs + m + 1) =
          hd.pfx % 2 ^ rest (hd.pfxOfs + m + 1) := by
        rw [hmask]
        split
        · rfl
        · rw [Nat.mod_mod]
      have hle : (shortenCow hd m).pfx ≤ hd.pfx := Nat.and_le_left
      have hradix : (Tree.leaf (shorten hd m) old).radix =
          .leaf (hd.pfx % 2 ^ rest (hd.pfxOfs + m + 1)) (hd.pfx, old) := by
        simp only [Tree.radix, shorten, type, if_true, Nat.add_assoc]
      have hradix' : (Tree.leaf (shortenCow hd m) old).radix =
          .leaf (hd.pfx % 2 ^ rest (hd.pfxOfs + m + 1)) ((shortenCow hd m).pfx, old) := by
        rw [← hlow]
        rfl
      refine ⟨.leaf type (by simp [shortenCow, Nat.add_assoc]) (by omega) ?_, by simp, fun k => ?_,
        fun hb => ?_, fun hb => ?_⟩
      · simp only [shortenCow]
        omega
      · rw [hradix, hradix', Radix.find, Radix.find]
        split
        · exact .some ⟨hle, rfl⟩
        · exact .none
      · have hkept : (shortenCow hd m).pfx = hd.pfx := by
          rw [hmask]
          split
          · rfl
          · apply Nat.mod_eq_of_lt
            by_contra hlt
            exact hb (by simp [loses]; omega)
        have heq : shortenCow hd m = { shorten hd m with pfx := (shortenCow hd m).pfx } := rfl
        rw [heq, hkept]
        simp [shorten, type]
      · simp only [loses, Bool.and_eq_true, decide_eq_true_eq] at hb
        refine ⟨hd.pfx % 2 ^ rest (hd.pfxOfs + m + 1), Nat.mod_lt _ (Nat.two_pow_pos _), hd.pfx,
          (shortenCow hd m).pfx, old, ?_, ?_, ?_⟩
        · rw [hradix, Radix.find, if_pos rfl]
        · rw [hradix', Radix.find, if_pos rfl]
        · rw [hmask, if_neg (by omega)]
          exact lt_of_lt_of_le (Nat.mod_lt _ (Nat.two_pow_pos _)) hb.2

end Leaf

section Update

theorem shortenCow_node {m : Nat} (type : hd.type ≠ .leaf) : shortenCow hd m = shorten hd m := by
  simp only [shortenCow, shorten, if_neg type]

theorem fork_blurs {old : Nat} (h : Wf hd.pfxOfs (.leaf hd old)) (hpfx : hd.pfx < 2 ^ 64)
    (hlt : prefixMatch hd key < hd.pfxLen) :
    Blurs hd.pfxOfs (loses hd (prefixMatch hd key))
      (nodeForkInplace hd (.leaf · old) hd.pfxOfs (prefixMatch hd key) key val)
      (nodeForkTree hd (.leaf · old) hd.pfxOfs (prefixMatch hd key) key val) := by
  have hle : hd.pfxOfs + hd.pfxLen ≤ 8 := by
    cases h with
    | leaf _ _ ofs_le pfxLen => omega
  have hm : hd.pfxOfs + prefixMatch hd key < 8 := by omega
  have hleaf := blurs_leaf h hlt hpfx
  have hne : partialKey hd.pfx (hd.pfxOfs + prefixMatch hd key) ≠
      partialKey key (hd.pfxOfs + prefixMatch hd key) := by
    have hdif := (prefixMatch_differs hle hlt).2
    rw [slice_digit hm, slice_digit hm, (prefixMatch_differs hle hlt).1] at hdif
    omega
  have h0 : partialKey hd.pfx (hd.pfxOfs + prefixMatch hd key) < 256 := partialKey_lt hm
  have h1 : partialKey key (hd.pfxOfs + prefixMatch hd key) < 256 := partialKey_lt hm
  have hwf : Wf hd.pfxOfs (.node (forkHead hd.pfxOfs (prefixMatch hd key) key _ _) _) :=
    forkHead_wf hm hne h0 h1 hleaf.wf (newLeaf_wf hm key val) hleaf.ne (by simp [newLeaf])
  have hch := fun x y : Tree => (forkHead_spec hd.pfxOfs (prefixMatch hd key) key x y hne h0 h1).2
  rw [nodeForkInplace, nodeForkTree]
  refine .lift rfl h0 hwf (fun e he => ?_) (fun heq => ?_) ?_
  · rw [hch, hch, if_neg he, if_neg he]
  · rw [hch, hch, if_pos rfl, if_pos rfl] at heq
    rw [heq]
  · rw [hch, hch, if_pos rfl, if_pos rfl]
    exact hleaf

theorem clips_node (hmis : ¬ prefixMatch hd key < hd.pfxLen) :
    clips key (.node hd chs) =
    clips key (findch hd chs (partialKey key (hd.pfxOfs + hd.pfxLen))) := by
  rw [clips, if_neg hmis, findch]
  cases findIdx hd (partialKey key (hd.pfxOfs + hd.pfxLen)) with
  | none => exact (clips.eq_1 key).symm
  | some idx => exact clipsAt_eq key chs _

/-- A copy-on-write update reads as the one in place, but for the word of a LEAF
that it clips. -/
theorem cowUpdate_blurs (h : Wf ofs T) (hofs : ofs ≤ 8) (hb : Bounded ofs T) (key val : Nat) :
    Blurs ofs (clips key T) (updateInplace key val T ofs) (cowUpdate key val T ofs) := by
  have hu := updateInplace_updates h hofs key val
  induction h with
  | null => exact .of_eq hu.wf hu.ne (by rw [updateInplace, cowUpdate]) (by simp [clips])
  | @leaf ofs hd old type pfxOfs ofs_le pfxLen =>
      subst pfxOfs
      have h : Wf hd.pfxOfs (.leaf hd old) := .leaf type rfl ofs_le pfxLen
      by_cases hmis : prefixMatch hd key < hd.pfxLen
      · have hpfx : hd.pfx < 2 ^ 64 := hb _ _ old (by rw [Tree.radix, Radix.find, if_pos rfl])
        have hclips : clips key (.leaf hd old) = loses hd (prefixMatch hd key) := by
          simp [clips, hmis]
        rw [updateInplace, cowUpdate, hclips]
        simp only [if_pos hmis]
        exact fork_blurs h hpfx hmis
      · refine .of_eq hu.wf hu.ne ?_ (by simp [clips, hmis])
        rw [updateInplace, cowUpdate]
        simp only [if_neg hmis]
  | @node ofs hd chs pfxOfs len_lt head full children ih =>
      subst pfxOfs
      have h : Wf hd.pfxOfs (.node hd chs) := .node rfl len_lt head full children
      have hlt : partialKey key (hd.pfxOfs + hd.pfxLen) < 2 ^ 8 := partialKey_lt len_lt
      by_cases hmis : prefixMatch hd key < hd.pfxLen
      · refine .of_eq hu.wf hu.ne ?_ (by simp [clips, hmis])
        rw [updateInplace_node, cowUpdate_node, if_pos hmis, if_pos hmis, nodeForkInplace,
          nodeForkTree,
          shortenCow_node head.not_leaf]
      · cases hi : findIdx hd (partialKey key (hd.pfxOfs + hd.pfxLen)) with
        | none =>
            refine .of_eq hu.wf hu.ne ?_ (by simp [clips, hmis, hi])
            rw [updateInplace_node, cowUpdate_node, if_neg hmis, if_neg hmis, hi]
            by_cases hfull : isFull hd = true
            · simp only [if_pos hfull]
            · simp only [if_neg hfull, setch_copychAt head hi]
        | some idx =>
            have hchild : Blurs (hd.pfxOfs + hd.pfxLen + 1)
                (clips key (findch hd chs (partialKey key (hd.pfxOfs + hd.pfxLen))))
                (updateInplace key val (getch hd chs idx) (hd.pfxOfs + hd.pfxLen + 1))
                (cowUpdate key val (getch hd chs idx) (hd.pfxOfs + hd.pfxLen + 1)) := by
              have hbc := hb.child h hlt
              have huc := fun hw => updateInplace_updates (t := getch hd chs idx) hw len_lt key val
              rw [← findch_eq_getch hi] at huc ⊢
              rcases findch_mem hd chs (partialKey key (hd.pfxOfs + hd.pfxLen)) with hnull | hmem
              · rw [hnull] at huc ⊢
                exact .of_eq (huc .null).wf (huc .null).ne (by rw [updateInplace, cowUpdate])
                  (by simp [clips])
              · exact ih _ hmem len_lt hbc (huc (children _ hmem))
            have hset := fun x : Tree => (setch_spec (x := x) head hi).1
            rw [clips_node hmis, updateInplace_node, cowUpdate_node, if_neg hmis, if_neg hmis, hi]
            refine .lift rfl hlt (.node rfl len_lt (setch_spec head hi).2 (fun hn hnull => ?_)
              fun c hc => ?_)
              (fun e he => ?_) (fun heq => ?_) ?_
            · rcases mem_setch head hi hnull with heq | hmem | ⟨h256, -⟩
              exacts [hchild.ne heq.symm, full hn hmem, hn h256]
            · rcases mem_setch head hi hc with rfl | hmem | ⟨-, rfl⟩
              exacts [hchild.wf, children c hmem, .null]
            · rw [hset, hset, Function.update_of_ne he, Function.update_of_ne he]
            · rw [hset, hset, Function.update_self, Function.update_self] at heq
              rw [heq]
            · rw [hset, hset, Function.update_self, Function.update_self]
              exact hchild

end Update

section Damage

variable {f : Nat → Option Nat} {us : List (Nat × Nat)}

theorem rel_some {w v : Nat} {o : Option (Nat × Nat)} (h : Option.Rel Clipped (some (w, v)) o) :
    ∃ w', w' ≤ w ∧ o = some (w', v) := by
  cases h with
  | @some _ e' h =>
      obtain ⟨w', v'⟩ := e'
      obtain ⟨hle, rfl⟩ := h
      exact ⟨w', hle, rfl⟩

theorem Bounded.blurs (hb : Bounded ofs T) (h : Blurs ofs b T T') : Bounded ofs T' := by
  intro k w' v hk
  have hrel := h.clipped k
  rw [hk] at hrel
  cases hfind : T.radix.find (rest ofs) k with
  | none =>
      rw [hfind] at hrel
      cases hrel
  | some e =>
      rw [hfind] at hrel
      obtain ⟨w'', hle, heq⟩ := rel_some hrel
      obtain ⟨rfl, -⟩ := Prod.mk.inj (Option.some.inj heq)
      exact lt_of_le_of_lt hle (hb k e.1 e.2 hfind)

theorem Bounded.update (hb : Bounded 0 T) (h : Wf 0 T) (hkey : key < 2 ^ 64) (val : Nat) :
    Bounded 0 (updateInplace key val T 0) := by
  intro k w v hk
  rw [(updateInplace_updates h (Nat.zero_le 8) key val).find, Function.update_apply] at hk
  split at hk
  · obtain ⟨rfl, -⟩ := Prod.mk.inj (Option.some.inj hk)
    rw [word]
    cases hfind : T.radix.find (rest 0) (key % 2 ^ rest 0) with
    | none => exact hkey
    | some e => exact hb _ e.1 e.2 hfind
  · exact hb k w v hk

/-- A leaf stores a smaller word than the one it is found under. -/
structure Damaged (T : Tree) : Prop where
  wf : Wf 0 T
  bounded : Bounded 0 T
  smaller : ∃ k < 2 ^ 64, ∃ w v, T.radix.find 64 k = some (w, v) ∧ w < k

theorem Damaged.update (h : Damaged T) (hkey : key < 2 ^ 64) (val : Nat) :
    Damaged (cowUpdate key val T 0) := by
  have hblurs := cowUpdate_blurs h.wf (Nat.zero_le 8) h.bounded key val
  have hfind := (updateInplace_updates h.wf (Nat.zero_le 8) key val).find
  refine ⟨hblurs.wf, (h.bounded.update h.wf hkey val).blurs hblurs, ?_⟩
  obtain ⟨k, hk, w, v, hw, hlt⟩ := h.smaller
  have hrel := hblurs.clipped k
  rw [hfind, Function.update_apply, rest_zero, Nat.mod_eq_of_lt hkey] at hrel
  split at hrel
  · obtain rfl := ‹k = key›
    have hword : word T 0 k = w := by
      rw [word, rest_zero, Nat.mod_eq_of_lt hk, hw, Option.elim_some]
    rw [hword] at hrel
    obtain ⟨w', hle, heq⟩ := rel_some hrel
    exact ⟨k, hk, w', val, heq, lt_of_le_of_lt hle hlt⟩
  · rw [hw] at hrel
    obtain ⟨w', hle, heq⟩ := rel_some hrel
    exact ⟨k, hk, w', v, heq, lt_of_le_of_lt hle hlt⟩

theorem cowAll_damaged (h : Damaged T) (hus : ∀ u ∈ us, u.1 < 2 ^ 64) : Damaged (cowAll us T) := by
  induction us generalizing T with
  | nil => exact h
  | cons u us ih =>
      exact ih (h.update (hus u List.mem_cons_self) u.2)
        fun u' hu' => hus u' (List.mem_cons_of_mem u hu')

theorem Holds.bounded (h : Holds f T) : Bounded 0 T := by
  intro k w v hk
  have hlt := Radix.find_lt h.wf.fits hk
  rw [rest_zero, h.find] at hk
  obtain ⟨v', -, heq⟩ := Option.map_eq_some_iff.mp hk
  obtain ⟨rfl, -⟩ := Prod.mk.inj heq
  exact hlt

theorem Holds.damaged (h : Holds f T) (hkey : key < 2 ^ 64) (hclips : clips key T = true)
    (val : Nat) :
    Damaged (cowUpdate key val T 0) := by
  have hblurs := cowUpdate_blurs h.wf (Nat.zero_le 8) h.bounded key val
  have hupd := h.update hkey val
  refine ⟨hblurs.wf, hupd.bounded.blurs hblurs, ?_⟩
  obtain ⟨k, hk, w, w', v, hw, hw', hlt⟩ := hblurs.lost hclips
  rw [rest_zero] at hk hw hw'
  rw [hupd.find] at hw
  obtain ⟨v', -, heq⟩ := Option.map_eq_some_iff.mp hw
  obtain ⟨rfl, -⟩ := Prod.mk.inj heq
  exact ⟨k, hk, w', v, hw', hlt⟩

theorem Holds.same (h : Holds f T) (hclips : clips key T = false) (val : Nat) :
    cowUpdate key val T 0 = updateInplace key val T 0 :=
  (cowUpdate_blurs h.wf (Nat.zero_le 8) h.bounded key val).same (by simp [hclips])

end Damage

section Readers

variable {f : Nat → Option Nat} {us : List (Nat × Nat)}

def Agree (T T' : Tree) : Prop :=
  ∀ k < 2 ^ 64, find k T = find k T' ∧ ∀ n, 1 ≤ n → scan T k n = scan T' k n

theorem Holds.not_agree (h : Holds f T) (hd : Damaged T') : ¬ Agree T T' := by
  intro hagree
  obtain ⟨k, hk, w, v, hw, hlt⟩ := hd.smaller
  set n := (T'.radix.valuesFrom (rest 0) (k % 2 ^ rest 0)).length + 1
  have hscan := (hagree k hk).2 n (by omega)
  rw [scan, scan, scanSearch_eq h.wf k (by simp [n]), scanSearch_eq hd.wf k (by simp [n]),
    List.nil_append, List.nil_append, Option.some.injEq, List.length_nil, Nat.sub_zero,
    List.take_of_length_le (Nat.le_succ _)] at hscan
  have hmem : (w, v) ∈ T'.radix.valuesFrom (rest 0) (k % 2 ^ rest 0) :=
    (Radix.mem_valuesFrom hd.wf.fits).mpr ⟨k, Nat.mod_le _ _, hw⟩
  obtain ⟨k', hle, hfind⟩ :=
    (Radix.mem_valuesFrom h.wf.fits).mp (List.mem_of_mem_take (hscan ▸ hmem))
  rw [rest_zero, h.find] at hfind
  obtain ⟨v', -, heq⟩ := Option.map_eq_some_iff.mp hfind
  obtain ⟨rfl, -⟩ := Prod.mk.inj heq
  rw [rest_zero, Nat.mod_eq_of_lt hk] at hle
  omega

/-- No update of the run forks a LEAF that loses bytes. -/
def spares : List (Nat × Nat) → Tree → Bool
  | [], _ => true
  | (key, val) :: us, T => !clips key T && spares us (updateInplace key val T 0)

theorem agree_iff (h : Holds f T) (hus : ∀ u ∈ us, u.1 < 2 ^ 64) :
    Agree (inplaceAll us T) (cowAll us T) ↔ spares us T := by
  induction us generalizing f T with
  | nil => exact ⟨fun _ => rfl, fun _ _ _ => ⟨rfl, fun _ _ => rfl⟩⟩
  | cons u us ih =>
      obtain ⟨key, val⟩ := u
      have hkey : key < 2 ^ 64 := hus _ List.mem_cons_self
      have hus' : ∀ u ∈ us, u.1 < 2 ^ 64 := fun u hu => hus u (List.mem_cons_of_mem _ hu)
      cases hclips : clips key T with
      | false =>
          simp only [spares, inplaceAll, cowAll, List.foldl_cons, h.same hclips, hclips,
            Bool.not_false,
            Bool.true_and]
          exact ih (h.update hkey val) hus'
      | true =>
          simp only [spares, hclips, Bool.not_true, Bool.false_and, Bool.false_eq_true, iff_false]
          have hdamaged : Damaged (cowAll us (cowUpdate key val T 0)) :=
            cowAll_damaged (h.damaged hkey hclips val) hus'
          exact (inplaceAll_holds hus h).not_agree hdamaged

/-- Readers of the trees that copy-on-write makes from a built one see what those
of the tree in place see, as long as no fork moves a LEAF below bytes that it
loses. -/
theorem readersAgree_iff (elems us : List (Nat × Nat)) (helems : ∀ e ∈ elems, e.1 < 2 ^ 64)
    (hus : ∀ u ∈ us, u.1 < 2 ^ 64) (t : Nat) (r : Option NodePtr) (h : NodeHeap)
    (hr : Denotes (Ptr.Before t) h r (build elems)) :
    interface.EndsAll next (HoldsTree (Agree (inplaceAll us (build elems)))) t r h us ↔
      spares us (build elems) := by
  rw [endsAll_iff hr]
  exact agree_iff (inplaceAll_holds helems holds_null) hus

theorem readersAgree_iff_sample :
    interface.EndsAll next (HoldsTree (Agree (inplaceAll [(7, 1), (2 ^ 40, 2)] (build [])))) 1 none
      (fun _ => none) [(7, 1), (2 ^ 40, 2)] := by
  rw [readersAgree_iff [] [(7, 1), (2 ^ 40, 2)] (by simp) (by simp) 1 none (fun _ => none) rfl]
  decide

/-- The second update forks the LEAF of `2 ^ 56` at offset 1, which clears its
first byte. -/
theorem leaf_clipped :
    ¬ interface.EndsAll next (HoldsTree (Agree (inplaceAll [(2 ^ 56, 5), (1, 6)] (build [])))) 1 none
        (fun _ => none) [(2 ^ 56, 5), (1, 6)] ∧
      scan (inplaceAll [(2 ^ 56, 5), (1, 6)] (build [])) (2 ^ 56) 1 = some [(2 ^ 56, 5)] ∧
      interface.EndsAll next (HoldsTree (fun T => scan T (2 ^ 56) 1 = some [(0, 5)])) 1 none
        (fun _ => none) [(2 ^ 56, 5), (1, 6)] := by
  have hr : Denotes (Ptr.Before 1) (fun _ => none) none (build []) := rfl
  rw [endsAll_iff hr, endsAll_iff hr]
  refine ⟨fun hagree => ?_, ?_, ?_⟩
  · have hscan := (hagree (2 ^ 56) (by omega)).2 1 (le_refl 1)
    revert hscan
    decide
  · decide
  · decide

end Readers

section Lookups

variable {f : Nat → Option Nat} {us : List (Nat × Nat)}

/-- A tree whose lookups serve a map; leaves may have lost bytes of their words. -/
structure Serves (f : Nat → Option Nat) (T : Tree) : Prop where
  wf : Wf 0 T
  bounded : Bounded 0 T
  find : ∀ k < 2 ^ 64, Art.find k T = f k

theorem Holds.serves (h : Holds f T) : Serves f T := ⟨h.wf, h.bounded, fun _ => h.find_eq⟩

theorem Serves.inplace (h : Serves f T) (hkey : key < 2 ^ 64) (val : Nat) :
    Serves (Function.update f key (some val)) (updateInplace key val T 0) := by
  have hupd := updateInplace_updates h.wf (Nat.zero_le 8) key val
  refine ⟨hupd.wf, h.bounded.update h.wf hkey val, fun k hk => ?_⟩
  have hfind := hupd.find
  rw [rest_zero, Nat.mod_eq_of_lt hkey] at hfind
  rw [find_radix hupd.wf, rest_zero, Nat.mod_eq_of_lt hk, hfind]
  by_cases heq : k = key
  · simp [heq]
  · have hold := h.find k hk
    rw [find_radix h.wf, rest_zero, Nat.mod_eq_of_lt hk] at hold
    rw [Function.update_of_ne heq, Function.update_of_ne heq, hold]

theorem Serves.update (h : Serves f T) (hkey : key < 2 ^ 64) (val : Nat) :
    Serves (Function.update f key (some val)) (cowUpdate key val T 0) := by
  have hblurs := cowUpdate_blurs h.wf (Nat.zero_le 8) h.bounded key val
  have hin := h.inplace hkey val
  refine ⟨hblurs.wf, hin.bounded.blurs hblurs, fun k hk => ?_⟩
  rw [← hin.find k hk, find_radix hblurs.wf, find_radix hin.wf]
  have hrel := hblurs.clipped (k % 2 ^ rest 0)
  generalize (cowUpdate key val T 0).radix.find (rest 0) (k % 2 ^ rest 0) = o at hrel ⊢
  generalize (updateInplace key val T 0).radix.find (rest 0) (k % 2 ^ rest 0) = o' at hrel ⊢
  cases hrel with
  | none => rfl
  | some hclip => exact congrArg some hclip.2

theorem cowAll_serves (hus : ∀ u ∈ us, u.1 < 2 ^ 64) (h : Serves f T) :
    Serves (writes us f) (cowAll us T) := by
  induction us generalizing T f with
  | nil => exact h
  | cons u us ih =>
      exact ih (fun u' hu' => hus u' (List.mem_cons_of_mem u hu'))
        (h.update (hus u List.mem_cons_self) u.2)

theorem build_serves {elems : List (Nat × Nat)} (helems : ∀ e ∈ elems, e.1 < 2 ^ 64) :
    Serves (writes elems (fun _ => none)) (build elems) :=
    (inplaceAll_holds helems holds_null).serves

end Lookups

end Contrees.Trees.Art
