import Contrees.Trees.AertRadix

namespace Contrees.Trees.Aert

open Library Library.Words Library.Slots Word

variable {hd : Head} {chs : List Tree} {d h pos : Nat} {A S : List Nat} {x : Tree}
  {uh : Head × List Tree} {F : Nat → Tree}

section Grows

/-- A half node on the way to its final size: it has room for the digits of `A`
that it still lacks. -/
structure Grows (A : List Nat) (hd : Head) (chs : List Tree) : Prop where
  type : hd.type = .nodeh4 ∧ A.length ≤ 4 ∨ hd.type = .nodeh16
  laid : hd.Laid chs.length
  support : ∀ d, findch hd chs d ≠ .null → d ∈ A
  lt : ∀ a ∈ A, a < 16
  full : hd.type = .nodeh4 → Tree.null ∉ chs

theorem Grows.width (g : Grows A hd chs) : nodeKeyLen hd.type = 4 := by
  rcases g.type with ⟨hn, -⟩ | hn <;> rw [hn] <;> rfl

theorem Grows.compact (g : Grows A hd chs) (hc : Compact hd) : hd.type = .nodeh4 :=
  (g.type.resolve_right hc.not_direct).1

theorem Grows.not_full (g : Grows A hd chs) (hn : hd.type ≠ .nodeh16) : Tree.null ∉ chs :=
  g.full (g.type.resolve_right hn).1

theorem Grows.keys (g : Grows A hd chs) (hn : hd.type = .nodeh4) :
    hd.keys.length = chs.length ∧ hd.keys.Pairwise (· < ·) := by
  have hs : Sorted hd chs.length := Compact.sorted (.inr (.inr hn)) g.laid
  exact ⟨hs.keys_length.trans hs.chs_length.symm, hs.ascending⟩

theorem Grows.look (g : Grows A hd chs) (hn : hd.type = .nodeh4) (d : Nat) :
    findch hd chs d = Slots.look hd.keys chs d :=
  Compact.findch (.inr (.inr hn)) g.laid d

theorem Grows.live (g : Grows A hd chs) (hn : hd.type = .nodeh4) (hd' : d ∈ hd.keys) :
    findch hd chs d ≠ .null := by
  intro hnull
  have hlook := look_mem (g.keys hn).1 hd'
  rw [← g.look hn, hnull] at hlook
  exact g.full hn hlook

theorem Grows.absent (g : Grows A hd chs) (hd' : findch hd chs d = .null) (hc : Compact hd) :
    d ∉ hd.keys := fun hmem => g.live (g.compact hc) hmem hd'

theorem Grows.mem (g : Grows A hd chs) {c : Tree} (hc : c ∈ chs) : ∃ d, findch hd chs d = c := by
  rcases g.type with ⟨hn, -⟩ | hn
  · obtain ⟨d, -, hd'⟩ := exists_look ((g.keys hn).2.imp Nat.ne_of_lt) (g.keys hn).1 hc
    exact ⟨d, (g.look hn d).trans hd'⟩
  · obtain ⟨d, hd'⟩ := List.mem_iff_getElem?.mp hc
    exact ⟨d, by simp [direct_findch hn, hd']⟩

theorem Grows.room (g : Grows A hd chs) (hA : d ∈ A) (hd' : findch hd chs d = .null) :
    isFull hd = false := by
  rcases g.type with ⟨hn, hlen⟩ | hn
  · have habs := g.absent hd' (.inr (.inr hn))
    have hsub : d :: hd.keys ⊆ A := List.cons_subset.mpr
      ⟨hA, fun k hk => g.support k (g.live hn hk)⟩
    have hnodup : (d :: hd.keys).Nodup := List.nodup_cons.mpr ⟨habs, (g.keys hn).2.imp Nat.ne_of_lt⟩
    have hle := (List.subperm_of_subset hnodup hsub).length_le
    have hs : Sorted hd chs.length := Compact.sorted (.inr (.inr hn)) g.laid
    rw [List.length_cons, hs.keys_length] at hle
    simp only [isFull, hn, decide_eq_false_iff_not]
    omega
  · simp [isFull, hn]

theorem Grows.fresh (hlt : ∀ a ∈ A, a < 16) (pfxOfs pfxLen key : Nat) :
    Grows A (newNodeh A.length pfxOfs pfxLen key) [] := by
  have hnull : ∀ d, findch (newNodeh A.length pfxOfs pfxLen key) ([] : List Tree) d = .null :=
    fun d => (findch_mem _ _ d).resolve_right List.not_mem_nil
  by_cases hlen : A.length > 4
  · refine ⟨.inr (by simp [newNodeh, newNode, hlen]), ?_, fun d hd' => absurd (hnull d) hd', hlt,
      fun _ => List.not_mem_nil⟩
    simp [Head.Laid, newNodeh, newNode, hlen]
  · refine ⟨.inl ⟨by simp [newNodeh, newNode, hlen], by omega⟩, ?_,
      fun d hd' => absurd (hnull d) hd',
      hlt, fun _ => List.not_mem_nil⟩
    simp only [Head.Laid, newNodeh, newNode, hlen, if_false]
    exact ⟨⟨rfl, rfl, List.Pairwise.nil, by simp⟩, Nat.zero_le 4⟩

theorem Grows.appended (g : Grows A hd chs) (hA : d ∈ A) (hd' : findch hd chs d = .null)
    (hx : x ≠ .null) :
    findch (append hd d).2 (insertch (append hd d).2 chs (append hd d).1 x) =
        Function.update (findch hd chs) d x ∧
      Grows A (append hd d).2 (insertch (append hd d).2 chs (append hd d).1 x) := by
  obtain ⟨hfind, hlaid⟩ := insertch_spec (x := x) g.laid (by rw [g.width]; exact g.lt d hA)
    (g.absent hd') (g.room hA hd')
  have htype := append_type hd d
  refine ⟨hfind, htype ▸ g.type, hlaid, fun e he => ?_, g.lt, fun hn hmem => ?_⟩
  · by_cases hed : e = d
    · exact hed ▸ hA
    · rw [hfind, Function.update_of_ne hed] at he
      exact g.support e he
  · rw [htype] at hn
    rcases mem_insertch g.laid hmem with heq | hmem | ⟨hn', -⟩
    · exact hx heq.symm
    · exact g.full hn hmem
    · simp [hn] at hn'

theorem append_head (hd : Head) (d : Nat) : (append hd d).2.pfxOfs = hd.pfxOfs ∧
    (append hd d).2.pfxLen = hd.pfxLen ∧ (append hd d).2.pfx = hd.pfx := by
  cases hn : hd.type <;> simp [Aert.append, hn, grow]

theorem Grows.setch_append (g : Grows A hd chs) (hbelow : ∀ k ∈ hd.keys, k < d) :
    setch chs (append hd d).1 x = insertch (append hd d).2 chs (append hd d).1 x := by
  have htype := append_type hd d
  rcases g.type with ⟨hn, -⟩ | hn
  · have hlast : findgt hd d = chs.length := by
      rw [← (g.keys hn).1, findgt, findch_eq_length hbelow]
    simp only [insertch, htype, hn]
    rw [Compact.append (.inr (.inr hn)), hlast, setch, put_at_length, List.insertIdx_length_self]
  · simp only [insertch, htype, hn]

theorem node4Find_live {m : Nat} (hs : Sorted hd m) (hu : hd.size ≤ 4) (hd' : d ∈ hd.keys) :
    node4Find hd d = hd.keys.findIdx? (· = d) := by
  by_cases hl : 2 ≤ hd.size
  · exact node4Find_eq hs hl hu d
  · have hlen := hs.keys_length
    match hk : hd.keys with
    | [] => simp [hk] at hd'
    | [a] =>
        obtain rfl : d = a := by simpa [hk] using hd'
        simp [node4Find, hk]
    | _ :: _ :: _ =>
        rw [hk] at hlen
        simp only [List.length_cons] at hlen
        omega

theorem Grows.replaced (g : Grows A hd chs) (hd' : findch hd chs d ≠ .null) (hx : x ≠ .null) :
    findch hd (setch chs ((findidx hd d).getD 0) x) = Function.update (findch hd chs) d x ∧
      Grows A hd (setch chs ((findidx hd d).getD 0) x) := by
  rcases g.type with ⟨hn, -⟩ | hn
  · obtain ⟨hlen, hasc⟩ := g.keys hn
    have hc : Compact hd := .inr (.inr hn)
    have hs : Sorted hd chs.length := hc.sorted g.laid
    have hmem : d ∈ hd.keys := by
      by_contra habs
      exact hd' ((g.look hn d).trans (look_eq_default habs))
    have hfind : findidx hd d = hd.keys.findIdx? (· = d) := by
      simp only [findidx, hn]
      exact node4Find_live hs (hc.small g.laid (by simp [hn])) hmem
    have hsome : (hd.keys.findIdx? (· = d)).isSome = true := by
      rw [List.findIdx?_isSome]
      simpa using hmem
    obtain ⟨i, hi⟩ := Option.isSome_iff_exists.mp hsome
    have hlt : i < chs.length := hlen ▸ (List.findIdx?_eq_some_iff_getElem.mp hi).1
    have hset : setch chs ((findidx hd d).getD 0) x = chs.set i x := by
      rw [hfind, hi, setch, Option.getD_some, put_of_lt hlt]
    have hlaid : hd.Laid (chs.set i x).length := by
      rw [List.length_set]
      exact g.laid
    have hfind' : findch hd (chs.set i x) = Function.update (findch hd chs) d x := by
      funext e
      rw [hc.findch hlaid, look_set hasc hlen hi, Function.update_apply, Function.update_apply,
        g.look hn]
    rw [hset]
    refine ⟨hfind', g.type, hlaid, fun e he => ?_, g.lt, fun _ hnull => ?_⟩
    · by_cases hed : e = d
      · exact hed ▸ g.support d hd'
      · rw [hfind', Function.update_of_ne hed] at he
        exact g.support e he
    · rcases List.mem_or_eq_of_mem_set hnull with hnull | hnull
      · exact g.full hn hnull
      · exact hx hnull.symm
  · have hwf : hd.Wf chs.length := ⟨g.laid, fun hne => absurd hn hne⟩
    have hi : findidx hd d = some d := by simp [findidx, hn]
    obtain ⟨hfind, hwf'⟩ := setch_spec (x := x) hwf hi
    rw [hi, Option.getD_some]
    refine ⟨hfind, .inr hn, hwf'.laid, fun e he => ?_, g.lt, fun hn' => by simp [hn] at hn'⟩
    by_cases hed : e = d
    · exact hed ▸ g.support d hd'
    · rw [hfind, Function.update_of_ne hed] at he
      exact g.support e he

end Grows

section Halves

variable {pkey : Nat}

theorem hi_eq (d : Nat) : d >>> 4 = d / 16 := Nat.shiftRight_eq_div_pow d 4

theorem lo_eq (d : Nat) : d &&& 0x0F = d % 16 := Nat.and_two_pow_sub_one_eq_mod d 4

def highs (hd : Head) (pkey : Nat) : List Nat := (List.range 16).filter (chSz hd pkey · ≠ 0)

def lows (hd : Head) (pkey h : Nat) : List Nat :=
  ((pkey :: hd.keys).filter (· >>> 4 = h)).map (· &&& 0x0F)

theorem length_lows (hd : Head) (pkey h : Nat) : (lows hd pkey h).length = chSz hd pkey h := by
  rw [lows, List.length_map, chSz, List.countP_eq_length_filter]

theorem chSz_ne_zero : chSz hd pkey h ≠ 0 ↔ ∃ d ∈ pkey :: hd.keys, d / 16 = h := by
  rw [← Nat.pos_iff_ne_zero, chSz, List.countP_pos_iff]
  simp only [hi_eq, decide_eq_true_eq]

theorem mem_highs : h ∈ highs hd pkey ↔ h < 16 ∧ ∃ d ∈ pkey :: hd.keys, d / 16 = h := by
  rw [highs, List.mem_filter, List.mem_range, decide_eq_true_eq, chSz_ne_zero]

theorem mem_lows {l : Nat} :
    l ∈ lows hd pkey h ↔ ∃ d ∈ pkey :: hd.keys, d / 16 = h ∧ d % 16 = l := by
  simp only [lows, List.mem_map, List.mem_filter, hi_eq, lo_eq, decide_eq_true_eq, and_assoc]

theorem lows_lt : ∀ l ∈ lows hd pkey h, l < 16 := by
  intro l hl
  obtain ⟨d, -, -, rfl⟩ := mem_lows.mp hl
  exact Nat.mod_lt d (by omega)

theorem two_le_chSz {a b : Nat} (ha : a ∈ pkey :: hd.keys) (hb : b ∈ pkey :: hd.keys) (hne : a ≠ b)
    (hab : a / 16 = b / 16) : 2 ≤ chSz hd pkey (b / 16) := by
  rw [chSz, List.countP_eq_length_filter]
  have hsub : [a, b] ⊆ (pkey :: hd.keys).filter (· >>> 4 = b / 16) := by
    intro d hd'
    rcases List.mem_pair.mp hd' with rfl | rfl
    · exact List.mem_filter.mpr ⟨ha, by simp [hi_eq, hab]⟩
    · exact List.mem_filter.mpr ⟨hb, by simp [hi_eq]⟩
  exact (List.subperm_of_subset (List.nodup_cons.mpr ⟨by simpa using hne, by simp⟩) hsub).length_le

theorem mem_append_keys {k : Nat} (hk : k ∈ (append hd d).2.keys) : k = d ∨ k ∈ hd.keys := by
  cases hn : hd.type <;> simp only [append, hn, grow_keys] at hk
  exacts [List.eq_or_mem_of_mem_insertIdx hk, List.eq_or_mem_of_mem_insertIdx hk,
    List.eq_or_mem_of_mem_insertIdx hk, .inr hk, .inr hk]

structure Upper (hd : Head) (pkey : Nat) (uh : Head × List Tree) : Prop where
  grows : Grows (highs hd pkey) uh.1 uh.2
  pfxOfs : uh.1.pfxOfs = hd.pfxOfs
  pfxLen : uh.1.pfxLen = hd.pfxLen
  pfx : uh.1.pfx = hd.pfx &&& prefixMask hd.pfxOfs hd.pfxLen

def lowerHalf (hd : Head) (pkey h : Nat) : Tree :=
  .node (newNodeh (chSz hd pkey h) (hd.pfxOfs + hd.pfxLen + 4) 0 0) []

theorem Upper.carry (u : Upper hd pkey uh) {new : Head} {chs : List Tree}
    (g : Grows (highs hd pkey) new chs)
    (hnew : new.pfxOfs = uh.1.pfxOfs ∧ new.pfxLen = uh.1.pfxLen ∧
      new.pfx = uh.1.pfx) : Upper hd pkey (new, chs) :=
  ⟨g, hnew.1.trans u.pfxOfs, hnew.2.1.trans u.pfxLen, hnew.2.2.trans u.pfx⟩

def upperStep (hd : Head) (pkey : Nat) (uh : Head × List Tree) (idx : Nat) : Head × List Tree :=
  if chSz hd pkey idx > 1 then
    ((append uh.1 idx).2, setch uh.2 (append uh.1 idx).1 (lowerHalf hd pkey idx))
  else uh

theorem createUpperHalf_eq (hd : Head) (pkey : Nat) : createUpperHalf hd pkey =
    (List.range 16).foldl (upperStep hd pkey)
      (newNodeh (highs hd pkey).length hd.pfxOfs hd.pfxLen hd.pfx, []) := by
  rw [highs, ← List.countP_eq_length_filter]
  rfl

/-- The upper half with the lower halves of the first `n` digits. -/
structure UpperTo (hd : Head) (pkey n : Nat) (uh : Head × List Tree) : Prop extends
    Upper hd pkey uh where
  keys_lt : ∀ k ∈ uh.1.keys, k < n
  find : ∀ h, findch uh.1 uh.2 h =
    if h < n ∧ 2 ≤ chSz hd pkey h then lowerHalf hd pkey h else .null

theorem upperTo_zero (hd : Head) (pkey : Nat) :
    UpperTo hd pkey 0 (newNodeh (highs hd pkey).length hd.pfxOfs hd.pfxLen hd.pfx, []) := by
  refine ⟨⟨.fresh (fun h hh => (mem_highs.mp hh).1) _ _ _, rfl, rfl, ?_⟩,
    fun k hk => absurd hk List.not_mem_nil, fun h => ?_⟩
  · simp only [newNodeh, newNode]
    split <;> rfl
  · rw [if_neg (by omega)]
    exact (findch_mem _ _ h).resolve_right List.not_mem_nil

theorem UpperTo.step {n : Nat} (u : UpperTo hd pkey n uh) (hn : n < 16) :
    UpperTo hd pkey (n + 1) (upperStep hd pkey uh n) := by
  by_cases hsz : chSz hd pkey n > 1
  · have hnull : findch uh.1 uh.2 n = .null := by rw [u.find, if_neg (by omega)]
    have hx : lowerHalf hd pkey n ≠ .null := by simp [lowerHalf]
    obtain ⟨hnew, hgrows⟩ :=
      u.grows.appended (mem_highs.mpr ⟨hn, chSz_ne_zero.mp (by omega)⟩) hnull hx
    rw [upperStep, if_pos hsz, u.grows.setch_append u.keys_lt]
    refine ⟨u.carry hgrows (append_head uh.1 n), fun k hk => ?_, fun h => ?_⟩
    · rcases mem_append_keys hk with rfl | hk
      exacts [Nat.lt_succ_self k, (u.keys_lt k hk).trans (Nat.lt_succ_self n)]
    · rw [hnew, Function.update_apply, u.find]
      by_cases hh : h = n
      · rw [if_pos hh, if_pos ⟨by omega, hh ▸ hsz⟩, hh]
      · have hiff : h < n + 1 ↔ h < n := by omega
        simp only [hh, hiff, if_false]
  · rw [upperStep, if_neg hsz]
    refine ⟨u.toUpper, fun k hk => (u.keys_lt k hk).trans (Nat.lt_succ_self n), fun h => ?_⟩
    rw [u.find]
    by_cases hh : h = n
    · rw [if_neg (by omega), if_neg (by rw [hh]; omega)]
    · have hiff : h < n + 1 ↔ h < n := by omega
      simp only [hiff]

theorem upperTo (n : Nat) (hn : n ≤ 16) :
    UpperTo hd pkey n ((List.range n).foldl (upperStep hd pkey)
    (newNodeh (highs hd pkey).length hd.pfxOfs hd.pfxLen hd.pfx, [])) := by
  induction n with
  | zero => exact upperTo_zero hd pkey
  | succ n ih =>
      rw [List.range_succ, List.foldl_append]
      exact (ih (by omega)).step hn

/-- `create_upper_half` makes the lower halves that it needs. -/
theorem createUpperHalf_spec (hlt : ∀ d ∈ pkey :: hd.keys, d < 256) :
    Upper hd pkey (createUpperHalf hd pkey) ∧
      ∀ h, findch (createUpperHalf hd pkey).1 (createUpperHalf hd pkey).2 h =
        if 2 ≤ chSz hd pkey h then lowerHalf hd pkey h else .null := by
  have u : UpperTo hd pkey 16 (createUpperHalf hd pkey) :=
    createUpperHalf_eq hd pkey ▸ upperTo 16 le_rfl
  refine ⟨u.toUpper, fun h => (u.find h).trans ?_⟩
  by_cases hh : h < 16
  · simp only [hh, true_and]
  · have hz : ¬ chSz hd pkey h ≠ 0 := by
      rw [chSz_ne_zero]
      rintro ⟨d, hd', rfl⟩
      have := hlt d hd'
      omega
    rw [if_neg (by omega), if_neg (by omega)]

structure Lower (hd : Head) (pkey h : Nat) (F : Nat → Tree) (lh : Head) (chs : List Tree) :
    Prop where
  grows : Grows (lows hd pkey h) lh chs
  pfxOfs : lh.pfxOfs = hd.pfxOfs + hd.pfxLen + 4
  pfxLen : lh.pfxLen = 0
  pfx : lh.pfx = 0
  find : ∀ l < 16, findch lh chs l = F (h * 16 + l)

structure Halves (hd : Head) (pkey : Nat) (uh : Head × List Tree) (F : Nat → Tree) : Prop extends
    Upper hd pkey uh where
  support : ∀ d, F d ≠ .null → d ∈ pkey :: hd.keys
  lower : ∀ h, 2 ≤ chSz hd pkey h → ∃ lh chs, findch uh.1 uh.2 h = .node lh chs ∧
    Lower hd pkey h F lh chs
  single : ∀ h, chSz hd pkey h < 2 →
    (findch uh.1 uh.2 h = .null ∧ ∀ l < 16, F (h * 16 + l) = .null) ∨
      ∃ l < 16, F (h * 16 + l) ≠ .null ∧ findch uh.1 uh.2 h = .tagged l (F (h * 16 + l))

theorem halves_null (hlt : ∀ d ∈ pkey :: hd.keys, d < 256) :
    Halves hd pkey (createUpperHalf hd pkey) (fun _ => .null) := by
  obtain ⟨hu, hfind⟩ := createUpperHalf_spec hlt
  refine ⟨hu, fun d hd' => absurd rfl hd', fun h hsz => ?_, fun h hsz => .inl ⟨?_, fun _ _ => rfl⟩⟩
  · rw [hfind, if_pos hsz]
    have hnull : ∀ l, findch (newNodeh (chSz hd pkey h) (hd.pfxOfs + hd.pfxLen + 4) 0 0)
        ([] : List Tree) l = .null := fun l => (findch_mem _ _ l).resolve_right List.not_mem_nil
    refine ⟨_, _, rfl, ?_, rfl, rfl, ?_, fun l _ => hnull l⟩
    · rw [← length_lows]
      exact .fresh lows_lt _ _ _
    · simp only [newNodeh, newNode]
      split <;> simp
  · rw [hfind, if_neg (by omega)]

theorem Lower.carry {lh : Head} {chs : List Tree} {G : Nat → Tree} (l : Lower hd pkey h F lh chs)
    (heq : ∀ l < 16, G (h * 16 + l) = F (h * 16 + l)) : Lower hd pkey h G lh chs :=
  ⟨l.grows, l.pfxOfs, l.pfxLen, l.pfx, fun i hi => (l.find i hi).trans (heq i hi).symm⟩

theorem update_other (hne : h ≠ d / 16) :
    ∀ l < 16, Function.update F d x (h * 16 + l) = F (h * 16 + l) := by
  intro l hl
  have hne' : h * 16 + l ≠ d := by omega
  exact Function.update_of_ne hne' x F

theorem Halves.frame (hs : Halves hd pkey uh F) (hd' : d ∈ pkey :: hd.keys) {new : Head × List Tree}
    {c : Tree} (u : Upper hd pkey new)
    (hfind : findch new.1 new.2 = Function.update (findch uh.1 uh.2) (d / 16) c)
    (lower : 2 ≤ chSz hd pkey (d / 16) → ∃ lh chs, c = .node lh chs ∧
      Lower hd pkey (d / 16) (Function.update F d x) lh chs)
    (single : chSz hd pkey (d / 16) < 2 → c = .tagged (d % 16) x ∧ x ≠ .null) :
    Halves hd pkey new (Function.update F d x) := by
  refine ⟨u, fun e he => ?_, fun h hsz => ?_, fun h hsz => ?_⟩
  · by_cases hed : e = d
    · exact hed ▸ hd'
    · rw [Function.update_of_ne hed] at he
      exact hs.support e he
  · rw [hfind]
    by_cases hh : h = d / 16
    · subst hh
      rw [Function.update_self]
      exact lower hsz
    · rw [Function.update_of_ne hh]
      obtain ⟨lh, chs, hnode, hlower⟩ := hs.lower h hsz
      exact ⟨lh, chs, hnode, hlower.carry (update_other hh)⟩
  · rw [hfind]
    by_cases hh : h = d / 16
    · subst hh
      obtain ⟨hc, hx⟩ := single hsz
      have hself : d / 16 * 16 + d % 16 = d := Nat.div_add_mod' d 16
      refine .inr ⟨d % 16, Nat.mod_lt d (by omega), ?_⟩
      rw [hself, Function.update_self, Function.update_self]
      exact ⟨hx, hc⟩
    · have hother := update_other (F := F) (x := x) hh
      rw [Function.update_of_ne hh]
      rcases hs.single h hsz with ⟨hnull, hF⟩ | ⟨l, hl, hne, htag⟩
      · exact .inl ⟨hnull, fun l hl => (hother l hl).trans (hF l hl)⟩
      · refine .inr ⟨l, hl, ?_⟩
        rw [hother l hl]
        exact ⟨hne, htag⟩

theorem Halves.step_lower (hs : Halves hd pkey uh F) (hd' : d ∈ pkey :: hd.keys) (hF : F d = .null)
    (hx : x ≠ .null) (hsz : 2 ≤ chSz hd pkey (d / 16)) :
    ∃ lh chs, findch uh.1 uh.2 (d / 16) = .node lh chs ∧
      (createLowerHalf uh x d).1 = uh.1 ∧
      findch uh.1 (createLowerHalf uh x d).2 = Function.update (findch uh.1 uh.2) (d / 16)
        (.node (append lh (d % 16)).2
          (insertch (append lh (d % 16)).2 chs (append lh (d % 16)).1 x)) ∧
      Grows (highs hd pkey) uh.1 (createLowerHalf uh x d).2 ∧
      Lower hd pkey (d / 16) (Function.update F d x) (append lh (d % 16)).2
        (insertch (append lh (d % 16)).2 chs (append lh (d % 16)).1 x) := by
  have hself : d / 16 * 16 + d % 16 = d := Nat.div_add_mod' d 16
  have hlow : d % 16 < 16 := Nat.mod_lt d (by omega)
  obtain ⟨lh, chs, hnode, hlower⟩ := hs.lower (d / 16) hsz
  have hnull : findch lh chs (d % 16) = .null := by rw [hlower.find _ hlow, hself, hF]
  obtain ⟨hnew, hgrows⟩ := hlower.grows.appended (mem_lows.mpr ⟨d, hd', rfl, rfl⟩) hnull hx
  set new : Tree := .node (append lh (d % 16)).2
    (insertch (append lh (d % 16)).2 chs (append lh (d % 16)).1 x) with hnew'
  obtain ⟨hset, hgrows'⟩ := hs.grows.replaced (d := d / 16) (x := new) (by simp [hnode])
    (by simp [hnew'])
  have hstep : createLowerHalf uh x d =
      (uh.1, setch uh.2 ((findidx uh.1 (d / 16)).getD 0) new) := by
    simp only [createLowerHalf, hi_eq, lo_eq, hnode]
    rfl
  rw [hstep]
  refine ⟨lh, chs, hnode, rfl, hset, hgrows', ?_⟩
  obtain ⟨hofs, hlen, hpfx⟩ := append_head lh (d % 16)
  refine ⟨hgrows, hofs.trans hlower.pfxOfs, hlen.trans hlower.pfxLen, hpfx.trans hlower.pfx,
    fun l hl => ?_⟩
  rw [hnew, Function.update_apply, Function.update_apply, hlower.find l hl]
  have hiff : d / 16 * 16 + l = d ↔ l = d % 16 := by omega
  simp only [hiff]

theorem Halves.step_single (hs : Halves hd pkey uh F) (hlt : ∀ d ∈ pkey :: hd.keys, d < 256)
    (hd' : d ∈ pkey :: hd.keys) (hF : F d = .null) (hsz : ¬ 2 ≤ chSz hd pkey (d / 16)) :
    (createLowerHalf uh x d).1 = (append uh.1 (d / 16)).2 ∧
      findch (append uh.1 (d / 16)).2 (createLowerHalf uh x d).2 =
        Function.update (findch uh.1 uh.2) (d / 16) (.tagged (d % 16) x) ∧
      Grows (highs hd pkey) (append uh.1 (d / 16)).2 (createLowerHalf uh x d).2 := by
  have hd256 := hlt d hd'
  have hhigh : d / 16 ∈ highs hd pkey := mem_highs.mpr ⟨by omega, d, hd', rfl⟩
  -- a second child under this digit would have made it a lower half
  have hnull : findch uh.1 uh.2 (d / 16) = .null := by
    rcases hs.single (d / 16) (by omega) with ⟨hnull, -⟩ | ⟨l, hl, hne, -⟩
    · exact hnull
    · have hother : d / 16 * 16 + l ≠ d := by
        intro heq
        rw [heq] at hne
        exact hne hF
      have htwo := two_le_chSz (hs.support _ hne) hd' hother (by omega)
      exact absurd htwo hsz
  have hstep : createLowerHalf uh x d = ((append uh.1 (d / 16)).2,
      insertch (append uh.1 (d / 16)).2 uh.2 (append uh.1 (d / 16)).1 (.tagged (d % 16) x)) := by
    simp only [createLowerHalf, hi_eq, lo_eq, hnull]
  rw [hstep]
  exact ⟨rfl, hs.grows.appended (x := .tagged (d % 16) x) hhigh hnull (by simp)⟩

theorem Halves.step (hs : Halves hd pkey uh F) (hlt : ∀ d ∈ pkey :: hd.keys, d < 256)
    (hd' : d ∈ pkey :: hd.keys) (hF : F d = .null) (hx : x ≠ .null) :
    Halves hd pkey (createLowerHalf uh x d) (Function.update F d x) := by
  by_cases hsz : 2 ≤ chSz hd pkey (d / 16)
  · obtain ⟨lh, chs, -, hhead, hfind, hgrows, hlower⟩ := hs.step_lower hd' hF hx hsz
    rw [← hhead] at hgrows
    have hupper : Upper hd pkey (createLowerHalf uh x d) :=
      hs.carry hgrows (hhead.symm ▸ ⟨rfl, rfl, rfl⟩)
    exact hs.frame hd' hupper (hhead.symm ▸ hfind) (fun _ => ⟨_, _, rfl, hlower⟩)
      (fun hsz' => absurd hsz (not_le.mpr hsz'))
  · obtain ⟨hhead, hfind, hgrows⟩ := hs.step_single (x := x) hlt hd' hF hsz
    rw [← hhead] at hgrows hfind
    have hupper : Upper hd pkey (createLowerHalf uh x d) :=
      hs.carry hgrows (hhead.symm ▸ append_head uh.1 (d / 16))
    exact hs.frame hd' hupper hfind (fun hsz' => absurd hsz' hsz) (fun _ => ⟨rfl, hx⟩)

/-- What holds of the upper half and is kept by each child placed holds of the
halves of a NODE16 that a word splits. -/
theorem nodeSplit_run {P : Head × List Tree → (Nat → Tree) → Prop} {key val ofs : Nat}
    (hn : hd.type = .node16) (hwf : hd.Wf chs.length) (hfull : Tree.null ∉ chs)
    (hpkey : partialKey key (ofs - 8) 8 = pkey) (habs : pkey ∉ hd.keys)
    (hleaf : newLeaf ofs key val ≠ .null) (hinit : P (createUpperHalf hd pkey) (fun _ => .null))
    (hstep : ∀ uh F d x, P uh F → d ∈ pkey :: hd.keys → F d = .null → x ≠ .null →
      P (createLowerHalf uh x d) (Function.update F d x)) :
    ∃ uh, nodeSplitInplace hd chs pkey ofs key val = .node uh.1 uh.2 ∧
      P uh (Function.update (findch hd chs) pkey (newLeaf ofs key val)) := by
  have hc : Compact hd := .inr (.inl hn)
  have hs : Sorted hd chs.length := hc.sorted hwf.laid
  have hlen : hd.keys.length = chs.length := hs.keys_length.trans hs.chs_length.symm
  have hnodup : hd.keys.Nodup := hs.ascending.imp Nat.ne_of_lt
  have hlook : findch hd chs = Slots.look hd.keys chs := by
    funext d
    exact hc.findch hwf.laid d
  have hrun : ∀ (es : List (Nat × Tree)) uh F, P uh F → (es.map Prod.fst).Nodup →
      (∀ e ∈ es, e.1 ∈ pkey :: hd.keys ∧ F e.1 = .null ∧ e.2 ≠ .null) →
      P (es.foldl (fun uh e => createLowerHalf uh e.2 e.1) uh)
        (es.foldl (fun F e => Function.update F e.1 e.2) F) := by
    intro es
    induction es with
    | nil => exact fun _ _ hP _ _ => hP
    | cons e es ih =>
        intro uh F hP hn hes
        obtain ⟨he, hn⟩ := List.nodup_cons.mp hn
        obtain ⟨hmem, hF, hx⟩ := hes e List.mem_cons_self
        refine ih _ _ (hstep uh F e.1 e.2 hP hmem hF hx) hn fun e' he' => ?_
        obtain ⟨hmem', hF', hx'⟩ := hes e' (List.mem_cons_of_mem e he')
        have hne : e'.1 ≠ e.1 := fun heq => he (heq ▸ List.mem_map_of_mem he')
        exact ⟨hmem', (Function.update_of_ne hne _ _).trans hF', hx'⟩
  have hzip : ∀ e ∈ hd.keys.zip chs, e.1 ∈ pkey :: hd.keys ∧ Tree.null = .null ∧ e.2 ≠ .null := by
    intro e he
    obtain ⟨hk, hc⟩ := List.of_mem_zip (a := e.1) (b := e.2) he
    exact ⟨List.mem_cons_of_mem _ hk, rfl, fun heq => hfull (heq ▸ hc)⟩
  have hall := hrun _ _ _ hinit (by rw [List.map_fst_zip hlen.le]; exact hnodup) hzip
  have hfold : (hd.keys.zip chs).foldl (fun F e => Function.update F e.1 e.2) (fun _ => Tree.null) =
      Slots.look hd.keys chs := foldl_update hnodup hlen
  rw [hfold, ← hlook] at hall
  have hnull : findch hd chs pkey = .null := by
    rw [hlook]
    exact look_eq_default habs
  refine ⟨_, rfl, ?_⟩
  rw [hpkey]
  exact hstep _ _ _ _ hall List.mem_cons_self hnull hleaf

theorem node16_keys_lt (hn : hd.type = .node16) (hwf : hd.Wf chs.length) (hlt : pkey < 256) :
    ∀ d ∈ pkey :: hd.keys, d < 256 := by
  have hs : Sorted hd chs.length := Compact.sorted (.inr (.inl hn)) hwf.laid
  have hkeys := hs.keys_lt
  rw [hn] at hkeys
  exact List.forall_mem_cons.mpr ⟨hlt, hkeys⟩

theorem nodeSplit_halves {key val ofs : Nat} (hn : hd.type = .node16) (hwf : hd.Wf chs.length)
    (hfull : Tree.null ∉ chs) (hpkey : partialKey key (ofs - 8) 8 = pkey) (hlt : pkey < 256)
    (habs : pkey ∉ hd.keys) (hleaf : newLeaf ofs key val ≠ .null) :
    ∃ uh, nodeSplitInplace hd chs pkey ofs key val = .node uh.1 uh.2 ∧
      Halves hd pkey uh (Function.update (findch hd chs) pkey (newLeaf ofs key val)) := by
  have hall := node16_keys_lt hn hwf hlt
  exact nodeSplit_run hn hwf hfull hpkey habs hleaf (halves_null hall)
    fun _ _ _ _ hs hd' hF hx => hs.step hall hd' hF hx

theorem Wf.plain {ofs : Nat} {t : Tree} (w : Wf ofs t) (hdvd : 8 ∣ ofs) (hne : t ≠ .null) :
    t.pfxOfs = ofs := by
  cases w with
  | null => exact absurd rfl hne
  | leaf _ pfxOfs _ _ _ => exact pfxOfs
  | node pfxOfs _ _ _ _ _ _ => exact pfxOfs
  | tagged half _ _ _ _ => omega

end Halves

section Whole

variable {pkey : Nat}

theorem Grows.wf (g : Grows A hd chs) {a b : Nat} (hne : a ≠ b) (ha : findch hd chs a ≠ .null)
    (hb : findch hd chs b ≠ .null) : hd.Wf chs.length := by
  refine ⟨g.laid, fun hn => ?_⟩
  have hn := (g.type.resolve_right hn).1
  have hs : Sorted hd chs.length := Compact.sorted (.inr (.inr hn)) g.laid
  have hmem : ∀ d, findch hd chs d ≠ .null → d ∈ hd.keys := by
    intro d hd'
    by_contra habs
    exact hd' ((g.look hn d).trans (look_eq_default habs))
  have hsub : [a, b] ⊆ hd.keys := by
    intro d hd'
    rcases List.mem_pair.mp hd' with rfl | rfl
    exacts [hmem d ha, hmem d hb]
  rw [← hs.keys_length]
  exact (List.subperm_of_subset (List.nodup_cons.mpr ⟨by simpa using hne, by simp⟩) hsub).length_le

theorem two_highs (hnodup : (pkey :: hd.keys).Nodup) (hlen : 17 ≤ (pkey :: hd.keys).length) :
    ∃ d ∈ pkey :: hd.keys, d / 16 ≠ pkey / 16 := by
  by_contra hall
  push Not at hall
  have hsub : pkey :: hd.keys ⊆ List.range' (pkey / 16 * 16) 16 := by
    intro d hd'
    have := hall d hd'
    rw [List.mem_range'_1]
    omega
  have hle := (List.subperm_of_subset hnodup hsub).length_le
  rw [List.length_range'] at hle
  omega

theorem two_lows (hnodup : (pkey :: hd.keys).Nodup) (hsz : 2 ≤ chSz hd pkey h) :
    ∃ a ∈ pkey :: hd.keys, ∃ b ∈ pkey :: hd.keys, a / 16 = h ∧ b / 16 = h ∧ a % 16 ≠ b % 16 := by
  have hfilter := hnodup.filter (· >>> 4 = h)
  rw [chSz, List.countP_eq_length_filter] at hsz
  match hl : (pkey :: hd.keys).filter (· >>> 4 = h) with
  | [] | [_] => simp [hl] at hsz
  | a :: b :: l =>
      have hmem : ∀ d ∈ a :: b :: l, d ∈ pkey :: hd.keys ∧ d / 16 = h := by
        intro d hd'
        rw [← hl, List.mem_filter, hi_eq, decide_eq_true_eq] at hd'
        exact hd'
      obtain ⟨ha, hah⟩ := hmem a List.mem_cons_self
      obtain ⟨hb, hbh⟩ := hmem b (List.mem_cons_of_mem a List.mem_cons_self)
      rw [hl] at hfilter
      have hne : a ≠ b := fun heq => (List.nodup_cons.mp hfilter).1 (heq ▸ List.mem_cons_self)
      exact ⟨a, ha, b, hb, hah, hbh, by omega⟩

structure Full (hd : Head) (pkey : Nat) (uh : Head × List Tree) (F : Nat → Tree) : Prop extends
    Halves hd pkey uh F where
  aligned : 8 ∣ hd.pfxLen ∧ 8 ∣ hd.pfxOfs
  len_le : hd.pfxOfs + hd.pfxLen + 8 ≤ 64
  nodup : (pkey :: hd.keys).Nodup
  size : 17 ≤ (pkey :: hd.keys).length
  lt : ∀ d ∈ pkey :: hd.keys, d < 256
  live : ∀ d ∈ pkey :: hd.keys, F d ≠ .null
  wf : ∀ d, Wf (hd.pfxOfs + hd.pfxLen + 8) (F d)

theorem Full.findch_ne (f : Full hd pkey uh F) (hd' : d ∈ pkey :: hd.keys) :
    findch uh.1 uh.2 (d / 16) ≠ .null := by
  by_cases hsz : 2 ≤ chSz hd pkey (d / 16)
  · obtain ⟨lh, chs, hnode, -⟩ := f.lower _ hsz
    simp [hnode]
  · rcases f.single _ (not_le.mp hsz) with ⟨-, hF⟩ | ⟨l, -, -, htag⟩
    · have hnull := hF (d % 16) (Nat.mod_lt d (by omega))
      rw [Nat.div_add_mod'] at hnull
      exact absurd hnull (f.live d hd')
    · simp [htag]

theorem Full.lower_wf (f : Full hd pkey uh F) (hsz : 2 ≤ chSz hd pkey h) {lh : Head}
    {chs : List Tree}
    (l : Lower hd pkey h F lh chs) : Wf (hd.pfxOfs + hd.pfxLen + 4) (.node lh chs) := by
  obtain ⟨hlen, hofs⟩ := f.aligned
  have hle := f.len_le
  have hwidth := l.grows.width
  have hpfxLen := l.pfxLen
  have hpfxOfs := l.pfxOfs
  obtain ⟨a, ha, b, hb, hah, hbh, hne⟩ := two_lows f.nodup hsz
  have hlive : ∀ d ∈ pkey :: hd.keys, d / 16 = h → findch lh chs (d % 16) ≠ .null := by
    intro d hd' hh
    rw [l.find _ (Nat.mod_lt d (by omega)), ← hh, Nat.div_add_mod']
    exact f.live d hd'
  refine .node l.pfxOfs ⟨by omega, .inr ⟨by omega, hpfxLen, hwidth⟩⟩ (by omega)
    (l.grows.wf hne (hlive a ha hah) (hlive b hb hbh)) l.grows.not_full
    ⟨a % 16, by rw [hwidth]; exact Nat.mod_lt a (by omega), hlive a ha hah⟩ fun c hc => ?_
  have hofs' : hd.pfxOfs + hd.pfxLen + 4 + lh.pfxLen + nodeKeyLen lh.type =
      hd.pfxOfs + hd.pfxLen + 8 := by omega
  rw [hofs']
  by_cases hnull : c = .null
  · exact hnull ▸ .null
  · obtain ⟨d, rfl⟩ := l.grows.mem hc
    rw [l.find d (l.grows.lt d (l.grows.support d hnull))]
    exact f.wf _

theorem Full.wf_node (f : Full hd pkey uh F) : Wf hd.pfxOfs (.node uh.1 uh.2) := by
  obtain ⟨hlen, hofs⟩ := f.aligned
  have hle := f.len_le
  have hwidth := f.grows.width
  have hpfxLen := f.pfxLen
  have hpfxOfs := f.pfxOfs
  obtain ⟨d, hd', hne⟩ := two_highs f.nodup f.size
  have hd256 := f.lt d hd'
  refine .node f.pfxOfs ⟨by omega, .inl (by omega)⟩ (by omega)
    (f.grows.wf hne (f.findch_ne hd') (f.findch_ne List.mem_cons_self)) f.grows.not_full
    ⟨d / 16, by rw [hwidth]; omega, f.findch_ne hd'⟩ fun c hc => ?_
  rw [hpfxLen, hwidth]
  obtain ⟨h, rfl⟩ := f.grows.mem hc
  by_cases hsz : 2 ≤ chSz hd pkey h
  · obtain ⟨lh, chs, hnode, hlower⟩ := f.lower h hsz
    rw [hnode]
    exact f.lower_wf hsz hlower
  · rcases f.single h (not_le.mp hsz) with ⟨hnull, -⟩ | ⟨l, hl, hF, htag⟩
    · exact hnull ▸ .null
    · rw [htag]
      have hchild := f.wf (h * 16 + l)
      exact .tagged (by omega) (by omega) hl (hchild.plain (by omega) hF) hchild

theorem Full.find_node (f : Full hd pkey uh F) :
    (Tree.node uh.1 uh.2).radix.find (rest hd.pfxOfs) =
      (Radix.node hd.pfxLen hd.prefixBits 8 fun d => (F d).radix).find (rest hd.pfxOfs) := by
  have hle := f.len_le
  have hbits : uh.1.prefixBits = hd.prefixBits := by
    rw [Head.prefixBits, Head.prefixBits, f.pfxOfs, f.pfxLen, f.pfx]
    exact slice_prefixMask (by omega)
  have hrest : rest hd.pfxOfs = hd.pfxLen + (4 + 4) + rest (hd.pfxOfs + hd.pfxLen + 8) :=
    (rest_add hle).symm
  rw [radix_node, f.grows.width, f.pfxLen, hbits, hrest]
  refine Eq.trans ?_ Radix.find_regroup.symm
  have hassoc : hd.pfxLen + (4 + 4) + rest (hd.pfxOfs + hd.pfxLen + 8) =
      hd.pfxLen + 4 + (0 + 4 + rest (hd.pfxOfs + hd.pfxLen + 8)) := by omega
  rw [hassoc]
  apply Radix.find_congr
  intro h _
  by_cases hsz : 2 ≤ chSz hd pkey h
  · obtain ⟨lh, chs, hnode, hlower⟩ := f.lower h hsz
    have hzero : lh.prefixBits = 0 := by
      rw [Head.prefixBits, hlower.pfx, slice, Nat.zero_mod, Nat.zero_div]
    rw [hnode, radix_node, hlower.pfxLen, hlower.grows.width, hzero]
    apply Radix.find_congr
    intro l hl
    rw [hlower.find l hl]
    rfl
  · rcases f.single h (not_le.mp hsz) with ⟨hnull, hF⟩ | ⟨l, hl, hF, htag⟩
    · rw [hnull]
      funext k
      rw [Radix.find_node]
      split
      · have hF := hF (k / 2 ^ rest (hd.pfxOfs + hd.pfxLen + 8) % 16) (Nat.mod_lt _ (by omega))
        change none = (F (h * 16 + k / 2 ^ rest (hd.pfxOfs + hd.pfxLen + 8) % 16)).radix.find _ _
        rw [hF]
        rfl
      · rfl
    · rw [htag, Tree.radix]
      apply Radix.find_congr
      intro e he
      rw [Radix.single, Function.update_apply]
      by_cases hel : e = l
      · rw [if_pos hel, hel]
        rfl
      · have hnull : F (h * 16 + e) = .null := by
          by_contra hne
          have htwo := two_le_chSz (f.support _ hne) (f.support _ hF) (by omega) (by omega)
          have hh : (h * 16 + l) / 16 = h := by omega
          rw [hh] at htwo
          exact hsz htwo
        rw [if_neg hel, show h * 2 ^ 4 + e = h * 16 + e from rfl, hnull]
        rfl

end Whole

end Contrees.Trees.Aert
