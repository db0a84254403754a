import Contrees.Trees.AertFaults
import Contrees.Trees.AertScan

namespace Contrees.Trees.Aert

open Library Library.Words Library.OrderedMap Library.Slots Cow

variable {ofs ofs' lo m b d key : Nat} {hd : Head} {chs : List Tree} {t c : Tree}
    {S S' : Nat → Prop}

section Bytes

/-- Of more than sixteen bytes one, and not the key's, has the upper half of the key's; the
nibble that follows the key's byte is to say which of the two is larger, and says it wrong. -/
structure Misreads (key b : Nat) (S : Nat → Prop) (d : Nat) : Prop where
  split : Many 17 S
  mem : S d
  half : d / 16 = partialKey key b 4
  alone : ∀ e, S e → e / 16 = partialKey key b 4 → e = d
  ne : d % 16 ≠ partialKey key (b + 4) 4
  wrong : ¬ (d % 16 < partialKey key (b + 8) 4 ↔ d % 16 < partialKey key (b + 4) 4)

theorem Misreads.congr (hS : ∀ e, S e ↔ S' e) : Misreads key b S d ↔ Misreads key b S' d := by
  rw [funext fun e => propext (hS e)]

/-- A byte of a subtree whose half a tagged pointer embeds, where the search leaves the key wrongly. -/
def MisreadAt (key ofs : Nat) (t : Tree) : Prop :=
  ∃ b, 8 ∣ b ∧ ofs ≤ b ∧ b < 64 ∧ ∃ d, Misreads key b (BytesAt key ofs t b) d

theorem Cow.Flat.not_misreadAt (h : Flat key ofs t) : ¬ MisreadAt key ofs t := by
  rintro ⟨b, hdvd, hle, hlt, d, hd⟩
  exact h b hdvd hle hlt (hd.split.le (by omega))

structure Strays (key ofs : Nat) (t : Tree) (lo : Nat) : Prop where
  half : ofs % 8 = 4
  word : ∃ x, find x t ≠ none
  all : ∀ x, find x t ≠ none → partialKey x ofs 4 = lo
  ne : lo ≠ partialKey key ofs 4
  wrong : ¬ (lo < partialKey key (ofs + 4) 4 ↔ lo < partialKey key ofs 4)

theorem Cow.Descends.misreads (h : Descends key ofs t ofs' c) (hb : ofs' ≤ b) (hb8 : b + 8 ≤ 64) :
    Misreads key b (BytesAt key ofs t b) d ↔ Misreads key b (BytesAt key ofs' c b) d :=
  Misreads.congr fun _ => h.bytes hb hb8

theorem Cow.Descends.misreadAt (h : Descends key ofs t ofs' c)
    (hfew : ∀ b, 8 ∣ b → ofs ≤ b → b < ofs' → ¬ Many 17 (BytesAt key ofs t b)) :
    MisreadAt key ofs t ↔ MisreadAt key ofs' c := by
  constructor
  · rintro ⟨b, hdvd, hle, hlt, d, hd⟩
    have hge : ofs' ≤ b := not_lt.mp fun hb => hfew b hdvd hle hb hd.split
    exact ⟨b, hdvd, hge, hlt, d, (h.misreads hge (by omega)).mp hd⟩
  · rintro ⟨b, hdvd, hle, hlt, d, hd⟩
    exact ⟨b, hdvd, h.le.trans hle, hlt, d, (h.misreads hle (by omega)).mpr hd⟩

end Bytes

section Nodes

theorem not_strays_node (w : Wf ofs (.node hd chs)) (hc : Canon (.node hd chs)) :
    ¬ Strays key ofs (.node hd chs) lo := by
  intro h
  obtain ⟨x, y, hx, hy, hdiffer⟩ := node_differ w hc
  have hhalf := h.half
  cases w with
  | node pfxOfs aligned len_le _ _ _ _ =>
      obtain ⟨-, hofs | ⟨-, hlen, hw⟩⟩ := aligned
      · omega
      · rw [hlen, hw, Nat.add_zero] at hdiffer len_le
        exact hdiffer
          ((partialKey_agrees (.inl rfl) len_le).mp ((h.all x hx).trans (h.all y hy).symm))

theorem wide_misreads (w : Wf ofs (.node hd chs)) (hw : nodeKeyLen hd.type = 8)
    (hmatch : slice (rest ofs) (rest ofs - hd.pfxLen) key = hd.prefixBits) :
    MisreadAt key ofs (.node hd chs) ↔ MisreadAt key (ofs + hd.pfxLen + nodeKeyLen hd.type)
      (findch hd chs (partialKey key (ofs + hd.pfxLen) (nodeKeyLen hd.type))) := by
  refine (descends_node w hmatch).misreadAt fun b hdvd hle hlt hmany => ?_
  have hbytes : ∀ {d}, BytesAt key ofs (.node hd chs) (ofs + hd.pfxLen) d ↔ d ∈ hd.keys :=
    wide_bytes w hw hmatch
  have hwf := w
  cases w with
  | node pfxOfs aligned len_le head _ _ _ =>
      have hcomp : Compact hd := head.laid.cases.resolve_right fun hn => by
        simp [hn, nodeKeyLen] at hw
      have hkeys : hd.keys.length = hd.size := (hcomp.sorted head.laid).keys_length
      have hsize := hcomp.size_le head.laid
      obtain ⟨hlen, hofs⟩ := aligned
      rcases (show b ≤ ofs + hd.pfxLen by omega).lt_or_eq with hlt' | rfl
      · exact node_unbranched hwf hdvd hle hlt' (hmany.le (by omega))
      · have := hmany.le_length hd.keys fun d => hbytes.mp
        omega

theorem lower_misreads (w : Wf ofs (.node hd chs)) (hofs : ofs % 8 = 4)
    (hmatch : slice (rest ofs) (rest ofs - hd.pfxLen) key = hd.prefixBits) :
    MisreadAt key ofs (.node hd chs) ↔ MisreadAt key (ofs + hd.pfxLen + nodeKeyLen hd.type)
      (findch hd chs (partialKey key (ofs + hd.pfxLen) (nodeKeyLen hd.type))) := by
  refine (descends_node w hmatch).misreadAt fun b hdvd hle hlt _ => ?_
  cases w with
  | node pfxOfs aligned _ _ _ _ _ =>
      obtain ⟨-, hofs' | ⟨-, hlen, hw⟩⟩ := aligned <;> omega

theorem upper_strays (w : Wf ofs (.node hd chs)) (hc : Canon (.node hd chs))
    (hw : nodeKeyLen hd.type = 4)
    (hofs : 8 ∣ ofs) (hmatch : slice (rest ofs) (rest ofs - hd.pfxLen) key = hd.prefixBits) :
    (∃ d, Misreads key (ofs + hd.pfxLen) (BytesAt key ofs (.node hd chs) (ofs + hd.pfxLen)) d) ↔
      ∃ lo, Strays key (ofs + hd.pfxLen + nodeKeyLen hd.type)
        (findch hd chs (partialKey key (ofs + hd.pfxLen) (nodeKeyLen hd.type))) lo := by
  have hmany := upper_many w hc hw hofs hmatch
  have hdesc := descends_node w hmatch
  have hdvd : 8 ∣ ofs + hd.pfxLen := by
    cases w with
    | node pfxOfs aligned _ _ _ _ _ => exact Nat.dvd_add hofs aligned.1
  have hle : ofs + hd.pfxLen + 4 ≤ 64 := by
    cases w with
    | node _ _ len_le _ _ _ _ => exact hw ▸ len_le
  rw [hw] at hdesc ⊢
  have hle' : ofs ≤ ofs + hd.pfxLen := Nat.le_add_right _ _
  generalize findch hd chs (partialKey key (ofs + hd.pfxLen) 4) = c at hdesc
  generalize ofs + hd.pfxLen = a at *
  generalize Tree.node hd chs = t at *
  have ha : a + 8 ≤ 64 := by omega
  have hsame : ∀ {x}, partialKey x a 8 / 16 = partialKey x a 4 ∧
      partialKey x a 8 % 16 = partialKey x (a + 4) 4 := by
    intro x
    have hlt : partialKey x (a + 4) 4 < 2 ^ 4 := partialKey_lt (.inl rfl) (by omega)
    have := partialKey_halves (x := x) ha
    omega
  -- A byte with the key's upper half is one of the words below it, with its lower half first.
  have hdown : ∀ {x}, find x t ≠ none → Agrees ofs a x key →
    partialKey x a 8 / 16 = partialKey key a 4 →
      find x c ≠ none := fun hx hagree hhalf => by
    refine hdesc.down _ hx ((agrees_split hle' (by omega)).mpr ⟨hagree, ?_⟩)
    exact (partialKey_agrees (.inl rfl) (by omega)).mp (hsame.1.symm.trans hhalf)
  have hup : ∀ {x}, find x c ≠ none → ∃ e, BytesAt key ofs t a e ∧ e / 16 = partialKey key a 4 ∧
      e % 16 = partialKey x (a + 4) 4 := fun hx => by
    obtain ⟨y, hy, hkey, hlow⟩ := hdesc.up _ hx
    obtain ⟨hhigh, hhalf⟩ := (agrees_split hle' (by omega)).mp hkey
    refine ⟨partialKey y a 8, ⟨y, hy, hhigh, rfl⟩, hsame.1.trans ?_, hsame.2.trans ?_⟩
    · exact (partialKey_agrees (.inl rfl) (by omega)).mpr hhalf
    · exact (partialKey_agrees (.inl rfl) (by omega)).mpr (hlow.within le_rfl (by omega))
  constructor
  · rintro ⟨d, hd⟩
    obtain ⟨x, hx, hagree, rfl⟩ := hd.mem
    refine ⟨_, by omega, ⟨x, hdown hx hagree hd.half⟩, fun y hy => ?_, hd.ne, hd.wrong⟩
    obtain ⟨e, he, hhalf, hlow⟩ := hup hy
    rw [← hlow, hd.alone e he hhalf]
  · rintro ⟨lo, hlo⟩
    obtain ⟨x, hx⟩ := hlo.word
    obtain ⟨d, hd, hhalf, hlow⟩ := hup hx
    rw [hlo.all x hx] at hlow
    refine ⟨d, hmany, hd, hhalf, ?_, hlow ▸ hlo.ne, hlow ▸ hlo.wrong⟩
    rintro _ ⟨y, hy, hagree, rfl⟩ hhalf'
    have hlow' := hsame.2.trans (hlo.all y (hdown hy hagree hhalf'))
    omega

theorem upper_misreads (w : Wf ofs (.node hd chs)) (hc : Canon (.node hd chs))
    (hw : nodeKeyLen hd.type = 4)
    (hofs : 8 ∣ ofs) (hmatch : slice (rest ofs) (rest ofs - hd.pfxLen) key = hd.prefixBits) :
    MisreadAt key ofs (.node hd chs) ↔
      MisreadAt key (ofs + hd.pfxLen + nodeKeyLen hd.type)
        (findch hd chs (partialKey key (ofs + hd.pfxLen) (nodeKeyLen hd.type))) ∨
      ∃ lo, Strays key (ofs + hd.pfxLen + nodeKeyLen hd.type)
        (findch hd chs (partialKey key (ofs + hd.pfxLen) (nodeKeyLen hd.type))) lo := by
  have hdesc := descends_node w hmatch
  have hdvd : 8 ∣ ofs + hd.pfxLen := by
    cases w with
    | node pfxOfs aligned _ _ _ _ _ => exact Nat.dvd_add hofs aligned.1
  have hlt : ofs + hd.pfxLen < 64 := by
    cases w with
    | node _ _ len_le _ _ _ _ => omega
  rw [← upper_strays w hc hw hofs hmatch]
  constructor
  · rintro ⟨b, hdvd', hle, hlt', d, hd'⟩
    rcases lt_trichotomy b (ofs + hd.pfxLen) with hb | rfl | hb
    · exact absurd (hd'.split.le (by omega)) (node_unbranched w hdvd' hle hb)
    · exact .inr ⟨d, hd'⟩
    · have hge : ofs + hd.pfxLen + nodeKeyLen hd.type ≤ b := by omega
      exact .inl ⟨b, hdvd', hge, hlt', d, (hdesc.misreads hge (by omega)).mp hd'⟩
  · rintro (⟨b, hdvd', hle, hlt', d, hd'⟩ | ⟨d, hd'⟩)
    · exact ⟨b, hdvd', by omega, hlt', d, (hdesc.misreads hle (by omega)).mpr hd'⟩
    · exact ⟨ofs + hd.pfxLen, hdvd, by omega, hlt, d, hd'⟩

theorem tagged_misreads (w : Wf ofs (.tagged lo t)) (hmatch : partialKey key ofs 4 = lo) :
    MisreadAt key ofs (.tagged lo t) ↔ MisreadAt key (ofs + 4) t := by
  refine (descends_tagged w hmatch).misreadAt fun b hdvd hle hlt _ => ?_
  cases w with
  | tagged half _ _ _ _ => omega

theorem strays_tagged (w : Wf ofs (.tagged lo t)) : (∃ m, Strays key ofs (.tagged lo t) m) ↔
    lo ≠ partialKey key ofs 4 ∧
    ¬ (lo < partialKey key (ofs + 4) 4 ↔ lo < partialKey key ofs 4) := by
  obtain ⟨x, hx⟩ := has_word w (by simp)
  have hall : ∀ x, find x (.tagged lo t) ≠ none → partialKey x ofs 4 = lo :=
    fun x hx => ((has_tagged w).mp hx).1
  constructor
  · rintro ⟨m, h⟩
    have hm : m = lo := (h.all x hx).symm.trans (hall x hx)
    exact hm ▸ ⟨h.ne, h.wrong⟩
  · rintro ⟨hne, hwrong⟩
    cases w with
    | tagged half _ _ _ _ => exact ⟨lo, half, ⟨x, hx⟩, hall, hne, hwrong⟩

end Nodes

section Runs

theorem decides_null :
    decides key .null = false ↔ MisreadAt key ofs .null ∨ ∃ lo, Strays key ofs .null lo := by
  rw [decides]
  refine iff_of_false Bool.true_eq_false.mp (not_or.mpr ⟨flat_null.not_misreadAt, ?_⟩)
  rintro ⟨lo, h⟩
  obtain ⟨x, hx⟩ := h.word
  exact hx (by rw [find])

theorem not_strays_aligned (hdvd : 8 ∣ ofs) : ¬ ∃ m, Strays key ofs t m := by
  rintro ⟨m, h⟩
  have := h.half
  omega

/-- The words of a subtree say whether the search of a scan decides wrongly. -/
theorem decides_iff (w : Wf ofs t) (hc : Canon t) :
    decides key t = false ↔ MisreadAt key ofs t ∨ ∃ lo, Strays key ofs t lo := by
  induction w with
  | null => exact decides_null
  | @leaf ofs hd val type pfxOfs aligned ofs_le pfxLen =>
      have hflat : Flat key ofs (.leaf hd val) :=
        flat_leaf (.leaf type pfxOfs aligned ofs_le pfxLen)
      rw [decides]
      exact iff_of_false Bool.true_eq_false.mp
        (not_or.mpr ⟨hflat.not_misreadAt, not_strays_aligned aligned⟩)
  | @node ofs hd chs pfxOfs aligned len_le head full live children ih =>
      subst pfxOfs
      have w : Wf hd.pfxOfs (.node hd chs) := .node rfl aligned len_le head full live children
      have hstray : ¬ ∃ lo, Strays key hd.pfxOfs (.node hd chs) lo :=
        not_exists.mpr fun _ => not_strays_node w hc
      have hpm : pmlen hd key < hd.pfxLen ↔
          slice (rest hd.pfxOfs) (rest hd.pfxOfs - hd.pfxLen) key ≠ hd.prefixBits :=
        pmlen_lt (by omega) aligned.1
      rw [or_iff_left hstray]
      by_cases hmatch : slice (rest hd.pfxOfs) (rest hd.pfxOfs - hd.pfxLen) key = hd.prefixBits
      · have hchild : decides key
          (findch hd chs (partialKey key (hd.pfxOfs + hd.pfxLen) (nodeKeyLen hd.type))) = false ↔
            MisreadAt key (hd.pfxOfs + hd.pfxLen + nodeKeyLen hd.type)
              (findch hd chs (partialKey key (hd.pfxOfs + hd.pfxLen) (nodeKeyLen hd.type))) ∨
            ∃ lo, Strays key (hd.pfxOfs + hd.pfxLen + nodeKeyLen hd.type)
              (findch hd chs (partialKey key (hd.pfxOfs + hd.pfxLen) (nodeKeyLen hd.type))) lo := by
          rcases findch_mem hd chs
            (partialKey key (hd.pfxOfs + hd.pfxLen) (nodeKeyLen hd.type)) with hnull | hmem
          · rw [hnull]
            exact decides_null
          · cases hc with
            | node _ _ canon => exact ih _ hmem (canon _ hmem)
        rw [decides_node (fun hlt => hpm.mp hlt hmatch), hchild]
        obtain ⟨hlen, hofs⟩ := aligned
        rcases nodeKeyLen_eq hd.type with hw | hw
        · rcases hofs with hofs | ⟨hofs, -⟩
          · exact (upper_misreads w hc hw hofs hmatch).symm
          · have hdvd : 8 ∣ hd.pfxOfs + hd.pfxLen + nodeKeyLen hd.type := by omega
            rw [or_iff_left (not_strays_aligned hdvd), lower_misreads w hofs hmatch]
        · have hdvd : 8 ∣ hd.pfxOfs + hd.pfxLen + nodeKeyLen hd.type := by omega
          rw [or_iff_left (not_strays_aligned hdvd), wide_misreads w hw hmatch]
      · rw [decides, if_pos (hpm.mpr hmatch)]
        exact iff_of_false Bool.true_eq_false.mp (flat_node w hmatch).not_misreadAt
  | @tagged ofs lo t half ofs_le lo_lt pfxOfs child ih =>
      have w : Wf ofs (.tagged lo t) := .tagged half ofs_le lo_lt pfxOfs child
      have hpm : ptrPfxMatch lo t.pfxOfs key < 4 ↔ partialKey key ofs 4 ≠ lo := by
        rw [pfxOfs, ptrPfxMatch_lt lo_lt (by omega) ofs_le, Nat.add_sub_cancel]
      rw [decides, strays_tagged w]
      by_cases hmatch : partialKey key ofs 4 = lo
      · have hdvd : 8 ∣ ofs + 4 := by omega
        rw [if_neg (fun hlt => hpm.mp hlt hmatch), or_iff_left (fun h => h.1 hmatch.symm),
          tagged_misreads w hmatch]
        cases hc with
        | tagged canon => exact (ih canon).trans (or_iff_left (not_strays_aligned hdvd))
      · rw [if_pos (hpm.mpr hmatch), or_iff_right (flat_tagged w hmatch).not_misreadAt,
          decide_eq_false_iff_not,
          pfxOfs, Nat.add_sub_cancel, and_iff_right (Ne.symm hmatch)]

end Runs

section Keys

variable {ks : List Nat} {T : Tree}

/-- Of more than sixteen bytes that the keys have next, one alone has the upper half of the byte of
`key`; it is another byte, and the nibble after it misleads as to which of the two is larger. -/
def Misled (ks : List Nat) (key b : Nat) : Prop :=
  16 < (nextBytes ks key b).length ∧ ∃ d ∈ nextBytes ks key b, d / 16 = partialKey key b 4 ∧
    (∀ e ∈ nextBytes ks key b, e / 16 = partialKey key b 4 → e = d) ∧
      d % 16 ≠ partialKey key (b + 4) 4 ∧
      ¬ (d % 16 < partialKey key (b + 8) 4 ↔ d % 16 < partialKey key (b + 4) 4)

instance (ks : List Nat) (key b : Nat) : Decidable (Misled ks key b) :=
  inferInstanceAs (Decidable (_ ∧ _))

theorem misreads_iff : (∃ d, Misreads key b (· ∈ nextBytes ks key b) d) ↔ Misled ks key b := by
  constructor
  · rintro ⟨d, split, mem, half, alone, ne, wrong⟩
    exact ⟨many_nextBytes.mp split, d, mem, half, alone, ne, wrong⟩
  · rintro ⟨split, d, mem, half, alone, ne, wrong⟩
    exact ⟨d, many_nextBytes.mpr split, mem, half, alone, ne, wrong⟩

/-- The keys alone say whether the search of a scan decides rightly. -/
theorem Cow.HasKeys.decides_iff (hT : HasKeys ks T) (hkey : key < 2 ^ 64) (hc : Canon T) :
    decides key T = true ↔ ∀ j < 8, ¬ Misled ks key (8 * j) := by
  have hbyte : ∀ b, b + 8 ≤ 64 → ((∃ d, Misreads key b (BytesAt key 0 T b) d) ↔
      Misled ks key b) := by
    intro b hb
    rw [← misreads_iff]
    exact exists_congr fun d => Misreads.congr fun e => hT.bytes hkey hb
  rw [← Bool.not_eq_false, Aert.decides_iff hT.wf hc, or_iff_left
    (not_strays_aligned (Nat.dvd_zero 8))]
  constructor
  · intro hmis j hj hled
    exact hmis ⟨8 * j, Nat.dvd_mul_right 8 j, Nat.zero_le _, by omega,
      (hbyte _ (by omega)).mpr hled⟩
  · rintro hkeys ⟨_, ⟨j, rfl⟩, -, hlt, hd⟩
    exact hkeys j (by omega) ((hbyte _ (by omega)).mp hd)

/-- Scans of a built tree after updates in place. -/
theorem inplace_scans_iff (elems us : List (Nat × Nat)) (helems : ∀ e ∈ elems, e.1 < 2 ^ 64)
    (hus : ∀ u ∈ us, u.1 < 2 ^ 64) :
    ∃ l, Lists (writes us (writes elems (fun _ => none))) l ∧ ∀ k < 2 ^ 64, ∀ n, 1 ≤ n →
      (scan (inplaceAll us (build elems)) k n = some ((l.filter (k ≤ ·.1)).take n) ↔
        ∀ j < 8, ¬ Misled ((elems ++ us).map Prod.fst) k (8 * j)) := by
  have hboth : ∀ e ∈ elems ++ us, e.1 < 2 ^ 64 := by
    intro e he
    rcases List.mem_append.mp he with he | he
    exacts [helems e he, hus e he]
  have hbuild : build (elems ++ us) = inplaceAll us (build elems) := List.foldl_append ..
  have hcanon : Canon (build (elems ++ us)) := inplaceAll_canon hboth holds_null .null
  have hholds := inplaceAll_holds hus (inplaceAll_holds helems holds_null)
  obtain ⟨l, hl⟩ := Lists.nil.writes elems
  obtain ⟨m, hm⟩ := hl.writes us
  refine ⟨m, hm, fun k hk n hn => (hholds.scan_iff hm hk hn).trans ?_⟩
  have hkeys := (hasKeys hboth).decides_iff hk hcanon
  rwa [hbuild] at hkeys

/-- Beside a tagged pointer, a scan from `0x2400` on is right and one from `0x2600` on is wrong. -/
theorem inplace_scans_iff_sample :
    ∃ l, Lists (writes [(0x2500, 16)] (writes ((List.range 16).map fun i => (256 * i, i)) (fun _ => none))) l ∧
      scan (inplaceAll [(0x2500, 16)] (build ((List.range 16).map fun i => (256 * i, i)))) 0x2400 1 =
        some ((l.filter (0x2400 ≤ ·.1)).take 1) ∧
      scan (inplaceAll [(0x2500, 16)] (build ((List.range 16).map fun i => (256 * i, i)))) 0x2600 1 ≠
        some ((l.filter (0x2600 ≤ ·.1)).take 1) := by
  obtain ⟨l, hl, hscan⟩ :=
    inplace_scans_iff ((List.range 16).map fun i => (256 * i, i)) [(0x2500, 16)]
    (by decide) (by decide)
  refine ⟨l, hl, (hscan 0x2400 (by omega) 1 le_rfl).mpr (by decide +kernel), fun heq => ?_⟩
  exact (hscan 0x2600 (by omega) 1 le_rfl).mp heq 6 (by omega) (by decide +kernel)

def gapped : List (Nat × Nat) := (List.range 16).map (fun i => (256 * i, i)) ++ [(0x2500, 16)]

theorem scan_precedes :
    scan (inplaceAll [] (build gapped)) 0x2600 1 = some [(0x2500, 16)] ∧
      ¬ ∃ l, Lists (writes [] (writes gapped (fun _ => none))) l ∧ ∀ k < 2 ^ 64, ∀ n, 1 ≤ n →
        scan (inplaceAll [] (build gapped)) k n = some ((l.filter (k ≤ ·.1)).take n) := by
  have hscan : scan (inplaceAll [] (build gapped)) 0x2600 1 = some [(0x2500, 16)] := by
    decide +kernel
  refine ⟨hscan, ?_⟩
  rintro ⟨l, -, hall⟩
  have heq := hscan.symm.trans (hall 0x2600 (by omega) 1 (le_refl 1))
  have hmem : (0x2500, 16) ∈ (l.filter (0x2600 ≤ ·.1)).take 1 := by
    rw [← Option.some.inj heq]
    exact List.mem_singleton_self _
  have hle := (List.mem_filter.mp (List.mem_of_mem_take hmem)).2
  simp at hle

end Keys

end Contrees.Trees.Aert
