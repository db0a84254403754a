import Contrees.Library.OrderedMap
import Contrees.Trees.BetreeUpdate

namespace Contrees.Trees.Betree

open Library Library.Memory Library.SearchTree Conctrl Bnode

variable {T T' : NodeTree Ann} {key val : Nat} {us elems l : List (Nat × Nat)}

section Build

inductive AnnAt (h : Nat) : Nat → NodeTree Ann → Prop
  | leaf {d : Nat} {ks : List Nat} {vs : List (Option Nat)} : AnnAt h d (.leaf ⟨.leaf, 0, 0⟩ ks vs)
  | node {d : Nat} {ks : List Nat} {cs : List (NodeTree Ann)} (hcs : ∀ c ∈ cs, AnnAt h (d + 1) c) :
      AnnAt h d (.node (annAt h d) ks cs)

theorem annAt_type (h d : Nat) : (annAt h d).type =
    if d < h then .upper else if d = h then .boundary else .lower := by
  cases d with
  | zero =>
      by_cases hh : h = 0
      · simp [annAt, hh]
      · simp [annAt, hh, Nat.pos_of_ne_zero hh]
  | succ d => rfl

theorem AnnAt.elastic {h d : Nat} (hT : AnnAt h d T) (hd : h < d) : T.All Elastic := by
  induction hT with
  | leaf => exact .leaf (.inr rfl)
  | node hcs ih =>
      refine .node (.inl ?_) fun c hc => ih c hc (by omega)
      rw [annAt_type, if_neg (by omega), if_neg (by omega)]

theorem AnnAt.layered {h d e : Nat} (hT : AnnAt h d T) (hd : d ≤ h) (hs : T.Shaped B B e) :
    Layered B T := by
  induction hT generalizing e with
  | leaf =>
      cases e with
      | zero => exact .leaf rfl hs.1 hs.2.1 hs.2.2
      | succ e => exact hs.elim
  | @node d ks cs hcs ih =>
      cases e with
      | zero => exact hs.elim
      | succ e =>
          obtain ⟨-, hlen, hall⟩ := hs
          by_cases hlt : d < h
          · refine .upper ?_ hlen fun c hc => ih c hc hlt (hall c hc)
            rw [annAt_type, if_pos hlt]
          · refine .boundary ?_ hlen fun c hc => ⟨(hcs c hc).elastic (by omega), e, hall c hc⟩
            rw [annAt_type, if_neg hlt, if_pos (by omega)]

theorem Layered.mono {m m' : Nat} (hT : Layered m T) (hm : m' ≤ m) : Layered m' T := by
  cases hT with
  | leaf ha hmin hmax hlen => exact .leaf ha (hm.trans hmin) hmax hlen
  | upper ha hlen hcs => exact .upper ha hlen hcs
  | boundary ha hlen hcs => exact .boundary ha hlen hcs

def Sound (T : NodeTree Ann) : Prop := T.Ordered none none ∧ Layered 0 T

def written (l : List (Nat × Nat)) : List (Nat × Option Nat) := l.map (fun e => (e.1, some e.2))

theorem build_sound (h : Nat) (hd : (elems.map Prod.fst).Nodup) :
    ∃ T, build h elems = some T ∧ Sound T ∧ T.pairs = written (sorted elems) := by
  have hnode : Inherits (annAt h) (fun d c => AnnAt h d c.2) := by
    intro d chs _ _ hchs
    refine .node fun c hc => ?_
    obtain ⟨x, hx, rfl⟩ := List.mem_map.mp hc
    exact hchs x hx
  obtain ⟨T, hT, hord, hpairs, hcase⟩ : ∃ T, build h elems = some T ∧ T.Ordered none none ∧
      T.pairs = written (sorted elems) ∧
      ((sorted elems).length < 2 * B ∧ T = leafOf ⟨.leaf, h, 0⟩ (sorted elems) ∨
        2 * B ≤ (sorted elems).length ∧ (∃ d, T.Shaped B B (d + 1)) ∧ AnnAt h 0 T) :=
    buildSorted_spec hnode (fun _ _ _ _ _ => .leaf) (sorted_keys hd)
  refine ⟨T, hT, ⟨hord, ?_⟩, hpairs⟩
  rcases hcase with ⟨hlt, rfl⟩ | ⟨-, ⟨e, hs⟩, hR⟩
  · refine .leaf rfl (Nat.zero_le _) ?_ (by simp)
    rw [List.length_map]
    omega
  · exact (hR.layered (Nat.zero_le h) hs).mono (Nat.zero_le B)

end Build

section Updates

theorem cowUpdate_sound (hT : Sound T) (key val : Nat) : ∃ T', cowUpdate key val T = some T' ∧
    Sound T' ∧ Touches (cow kind) B key (some val) T.leaves T'.leaves := by
  obtain ⟨hord, hlay⟩ := hT
  obtain ⟨T', hT', hlay'⟩ : ∃ T', cowUpdate key val T = some T' ∧ Layered 0 T' :=
    cowUpdate_layered hlay
  obtain ⟨hord', htouch⟩ := cowUpdate_inserted hord ⟨by simp, by simp⟩ hT'
  exact ⟨T', hT', ⟨hord', hlay'⟩, htouch⟩

def cowAll : List (Nat × Nat) → NodeTree Ann → Option (NodeTree Ann)
  | [], T => some T
  | (key, val) :: us, T => (cowUpdate key val T).bind (cowAll us)

def Holds (P : NodeTree Ann → Prop) (root : Option (NodePtr Ann)) (h : NodeHeap Ann) : Prop :=
  ∃ r t T, root = some r ∧ Denotes kind (Old t) h r T ∧ P T

def next (s : Nat) (_ : Context) : Nat := s + 1

/-- A sequence of updates in memory computes `cowAll`. -/
theorem endsAll_iff {P : NodeTree Ann → Prop} {t : Nat} {h : NodeHeap Ann} {p : NodePtr Ann}
    (hT : Sound T) (hp : Denotes kind (Old t) h p T) :
    interface.EndsAll next (Holds P) t (some p) h us ↔ ∃ T', cowAll us T = some T' ∧ P T' := by
  induction us generalizing t h p T with
  | nil =>
      simp only [Interface.EndsAll, cowAll, Option.some.injEq, exists_eq_left']
      constructor
      · rintro ⟨r, t', T', hr, hden, hP⟩
        obtain rfl := Option.some.inj hr
        exact hp.unique hden ▸ hP
      · exact fun hP => ⟨p, t, T, rfl, hp, hP⟩
  | cons u us ih =>
      obtain ⟨key, val⟩ := u
      obtain ⟨T₁, hu, hT₁, -⟩ := cowUpdate_sound hT key val
      have hends := update_ends (fun s _ => Nat.lt_succ_self s : ∀ s c, s < next s c) hT.2 hp hu
      simp only [Interface.EndsAll, cowAll, hu, Option.bind_some]
      constructor
      · intro hall
        obtain ⟨fuel, r, -, ⟨r', hr', hden⟩, hrest⟩ := hends.and hall
        rw [show interface.root r.1 = some r' from hr'] at hrest
        exact (ih hT₁ hden).mp hrest
      · intro hex
        apply hends.mono
        rintro ctx h' ⟨r', hr', hden⟩
        rw [show interface.root ctx = some r' from hr']
        exact (ih hT₁ hden).mpr hex

end Updates

section Map

/-- `find` and `scan` on a tree give what the list of pairs `l` holds. -/
structure MapOf (l : List (Nat × Nat)) (T : NodeTree Ann) : Prop where
  find : ∀ k, T.find k = (l.lookup k).map some
  scan : ∀ k m, T.scan k m = ((written l).filter (k ≤ ·.1)).take m

theorem lookup_written (l : List (Nat × Nat)) (k : Nat) :
    (written l).lookup k = (l.lookup k).map some := by
  induction l with
  | nil => rfl
  | cons e l ih =>
      obtain ⟨k', v⟩ := e
      rw [written, List.map_cons, lookup_cons_pair, lookup_cons_pair, ← written, ih]
      split <;> rfl

theorem mapOf_iff (hord : T.Ordered none none) : MapOf l T ↔ T.pairs = written l := by
  have hwithin : ∀ k : Nat, Within none none k := fun k => ⟨by simp, by simp⟩
  constructor
  · intro hmap
    have hscan := hmap.scan 0 (max T.pairs.length (written l).length)
    have hall : ∀ l' : List (Nat × Option Nat), l'.filter (fun p => decide (0 ≤ p.1)) = l' := by
      intro l'
      simp
    rw [Multiway.scan_eq hord (hwithin 0), hall, hall] at hscan
    rwa [List.take_of_length_le (le_max_left _ _), List.take_of_length_le
      (le_max_right _ _)] at hscan
  · intro hpairs
    refine ⟨fun k => ?_, fun k m => ?_⟩
    · rw [Multiway.find_eq_lookup hord (hwithin k), hpairs, lookup_written]
    · rw [Multiway.scan_eq hord (hwithin k), hpairs]

theorem insertPair_written (l : List (Nat × Nat)) :
    insertPair key (some val) (written l) = written (insertPair key val l) := by
  induction l with
  | nil => rfl
  | cons e l ih =>
      obtain ⟨k, v⟩ := e
      simp only [written, List.map_cons, insertPair]
      simp only [written] at ih
      split
      · rw [ih]
        rfl
      · split <;> rfl

theorem Layered.leaves (hT : Layered 0 T) :
    (∃ a ks vs, T = .leaf a ks vs) ∨ ∀ l ∈ T.leaves, B ≤ l.1.length := by
  have hlist : ∀ cs : List (NodeTree Ann), (∀ c ∈ cs, ∀ l ∈ c.leaves, B ≤ l.1.length) →
      ∀ l ∈ Multiway.leavesList cs, B ≤ l.1.length := by
    intro cs hcs
    induction cs with
    | nil => simp [Multiway.leavesList]
    | cons c cs ih =>
        intro l hl
        rcases List.mem_append.mp hl with hl | hl
        · exact hcs c (by simp) l hl
        · exact ih (fun x hx => hcs x (by simp [hx])) l hl
  have hinner : ∀ {T : NodeTree Ann} {m : Nat}, Layered m T →
    (B ≤ m ∨ ∃ a ks cs, T = .node a ks cs) →
      ∀ l ∈ T.leaves, B ≤ l.1.length := by
    intro T m hT
    induction hT with
    | leaf ha hmin hmax hlen =>
        rintro (hm | ⟨_, _, _, h⟩)
        · simpa [Multiway.leaves] using hm.trans hmin
        · cases h
    | upper ha hlen hcs ih => exact fun _ => hlist _ fun c hc => ih c hc (.inl le_rfl)
    | boundary ha hlen hcs =>
        refine fun _ => hlist _ fun c hc l hl => ?_
        obtain ⟨d, hs⟩ := (hcs c hc).2
        exact (hs.leaves l hl).1
  cases T with
  | leaf a ks vs => exact .inl ⟨a, ks, vs, rfl⟩
  | node a ks cs => exact .inr (hinner hT (.inr ⟨a, ks, cs, rfl⟩))

/-- The values of a leaf all of whose keys but one `copy_leaf` leaves unwritten. -/
theorem hit_written (val : Nat) {ks : List Nat} {vs : List (Option Nat)}
    (hlen : ks.length = vs.length) (hkey : key ∈ ks)
    (hnone : none ∉ (ks.zip ((cow kind).hit (findval ks key) (some val) vs)).map Prod.snd) :
    ks = [key] := by
  have hlen' : ((cow kind).hit (findval ks key) (some val) vs).length = ks.length := by
    rw [(cow kind).hit_length, hlen]
  rw [List.map_snd_zip (Nat.le_of_eq hlen')] at hnone
  have hone : ∀ i, i < ks.length → i = findval ks key := by
    intro i hi
    by_contra hne
    refine hnone (List.mem_iff_getElem?.mpr ⟨i, ?_⟩)
    simp only [cow]
    rw [List.getElem?_set_ne (Ne.symm hne), List.getElem?_map,
      List.getElem?_eq_getElem (by rw [← hlen]; exact hi)]
    rfl
  obtain ⟨k, ks, rfl⟩ := List.exists_cons_of_ne_nil (List.ne_nil_of_mem hkey)
  cases ks with
  | nil => rw [List.mem_singleton.mp hkey]
  | cons k' ks =>
      have h0 := hone 0 (by simp)
      have h1 := hone 1 (by simp)
      omega

theorem map_fst_written (l : List (Nat × Nat)) : (written l).map Prod.fst = l.map Prod.fst := by
  rw [written, List.map_map]
  rfl

theorem none_written (l : List (Nat × Nat)) : none ∉ (written l).map Prod.snd := by
  simp [written]

theorem sorted_alone {ks : List Nat} (hs : ks.Pairwise (· < ·)) (hkey : key ∈ ks)
    (hall : ∀ k ∈ ks, k = key) : ks = [key] := by
  cases ks with
  | nil => simp at hkey
  | cons k ks =>
      obtain rfl := hall k (by simp)
      cases ks with
      | nil => rfl
      | cons k' ks =>
          have hlt : k < k' := (List.pairwise_cons.mp hs).1 k' (by simp)
          exact absurd (hall k' (by simp)) hlt.ne'

/-- One update is a map update if and only if it finds its key new or alone. -/
theorem update_written (hT : Sound T) (hl : T.pairs = written l)
    (hu : cowUpdate key val T = some T') :
    T'.pairs = written (insertPair key val l) ↔
      (key ∈ l.map Prod.fst → ∀ k ∈ l.map Prod.fst, k = key) := by
  obtain ⟨T₁, hT₁, hsound, htouch⟩ := cowUpdate_sound hT key val
  obtain rfl := Option.some.inj (hu.symm.trans hT₁)
  have hkeys : l.map Prod.fst = keysOf T.leaves := by
    rw [← hT.1.map_fst_pairs, hl, map_fst_written]
  rw [hkeys]
  by_cases hkey : key ∈ keysOf T.leaves
  · obtain ⟨pre, post, ks, vs, hmem, hlen, hs, hold, hnew⟩ := htouch.hit hkey
    have hmemKeys : ∀ k ∈ ks, k ∈ keysOf T.leaves := fun k hk => by
      simp only [hold, keysOf_append, keysOf_singleton, List.mem_append]
      exact .inl (.inr hk)
    have halone : T'.pairs = written (insertPair key val l) → ks = [key] := by
      intro hpairs
      have hnone : none ∉ T'.pairs.map Prod.snd := hpairs ▸ none_written _
      simp only [Multiway.pairs, hnew, Multiway.pairsOf_append, Multiway.pairsOf_singleton,
        List.map_append, List.mem_append, not_or] at hnone
      exact hit_written val hlen hmem hnone.1.2
    rcases hT.2.leaves with ⟨a, ks', vs', rfl⟩ | hsize
    · obtain ⟨rfl, rfl, rfl, rfl⟩ : pre = [] ∧ post = [] ∧ ks = ks' ∧ vs = vs' := by
        cases pre with
        | nil => simpa [Multiway.leaves, eq_comm, and_comm, and_assoc] using hold
        | cons x pre => simp [Multiway.leaves] at hold
      simp only [Multiway.leaves, keysOf_singleton]
      constructor
      · intro hpairs _ k hk
        simpa [halone hpairs] using hk
      · intro hall
        obtain rfl := sorted_alone hs hmem (hall hmem)
        obtain ⟨w, rfl⟩ : ∃ w, vs = [w] := List.length_eq_one_iff.mp hlen.symm
        obtain ⟨x, rfl⟩ : ∃ x, l = [(key, x)] := by
          cases l with
          | nil => simp [Multiway.leaves] at hkeys
          | cons e l =>
              obtain ⟨k, x⟩ := e
              simp only [List.map_cons, Multiway.leaves, keysOf_singleton, List.cons.injEq,
                List.map_eq_nil_iff] at hkeys
              exact ⟨x, by rw [hkeys.1, hkeys.2]⟩
        simp [Multiway.pairs, hnew, findval, cow, insertPair, written]
    · have htwo : ks ≠ [key] := by
        rintro rfl
        have := hsize ([key], vs) (by rw [hold]; simp)
        simp [B] at this
      refine iff_of_false (fun hpairs => htwo (halone hpairs)) fun hall => htwo ?_
      exact sorted_alone hs hmem fun k hk => hall hkey k (hmemKeys k hk)
  · refine iff_of_true ?_ fun h => absurd h hkey
    rw [Multiway.pairs, htouch.pairs_of_absent hkey, ← Multiway.pairs, hl, insertPair_written]

def storedFrom (l us : List (Nat × Nat)) : List (Nat × Nat) :=
  us.foldl (fun l u => insertPair u.1 u.2 l) l

def stored (elems us : List (Nat × Nat)) : List (Nat × Nat) := storedFrom (sorted elems) us

theorem mem_insertPair_keys (l : List (Nat × Nat)) (k : Nat) :
    k ∈ (insertPair key val l).map Prod.fst ↔ k = key ∨ k ∈ l.map Prod.fst := by
  induction l with
  | nil => simp [insertPair]
  | cons e l ih =>
      obtain ⟨k', v⟩ := e
      simp only [insertPair]
      split
      · simp only [List.map_cons, List.mem_cons, ih]
        tauto
      · split
        · rename_i heq
          simp [heq]
        · simp

theorem lookup_stored (hd : (elems.map Prod.fst).Nodup) (k : Nat) :
    (stored elems us).lookup k = (us.reverse ++ elems).lookup k := by
  have hfrom : ∀ l, (storedFrom l us).lookup k = (us.reverse ++ l).lookup k := by
    induction us with
    | nil => exact fun _ => rfl
    | cons u us ih =>
        intro l
        have hu : (us.reverse ++ [u] ++ l).lookup k =
            (us.reverse ++ insertPair u.1 u.2 l).lookup k := by
          rw [List.append_assoc, List.lookup_append, List.singleton_append, List.lookup_append,
            lookup_insertPair, lookup_cons_pair]
        rw [List.reverse_cons, hu, ← ih]
        rfl
  have hsorted : (sorted elems).lookup k = elems.lookup k :=
    OrderedMap.lookup_perm (sorted_perm elems) (((sorted_perm elems).map _).nodup_iff.mpr hd) k
  rw [stored, hfrom, List.lookup_append, List.lookup_append, hsorted]

theorem insertPair_sorted {l : List (Nat × Nat)} (hl : (l.map Prod.fst).Pairwise (· < ·)) :
    ((insertPair key val l).map Prod.fst).Pairwise (· < ·) := by
  induction l with
  | nil => simp [insertPair]
  | cons e l ih =>
      obtain ⟨k, v⟩ := e
      obtain ⟨hk, hl⟩ := List.pairwise_cons.mp hl
      simp only [insertPair]
      split
      · rename_i hlt
        refine List.pairwise_cons.mpr ⟨fun k' hk' => ?_, ih hl⟩
        rcases (mem_insertPair_keys l k').mp hk' with rfl | hk'
        exacts [hlt, hk k' hk']
      · rename_i hge
        split
        · rename_i heq
          exact List.pairwise_cons.mpr ⟨heq ▸ hk, hl⟩
        · rename_i hne
          have hlt : key < k := lt_of_le_of_ne (not_lt.mp hge) (Ne.symm hne)
          refine List.pairwise_cons.mpr ⟨fun k' hk' => ?_, List.pairwise_cons.mpr ⟨hk, hl⟩⟩
          rcases List.mem_cons.mp hk' with rfl | hk'
          exacts [hlt, hlt.trans (hk k' hk')]

theorem stored_sorted (hd : (elems.map Prod.fst).Nodup) (us : List (Nat × Nat)) :
    ((stored elems us).map Prod.fst).Pairwise (· < ·) := by
  have hfrom : ∀ l : List (Nat × Nat), (l.map Prod.fst).Pairwise (· < ·) →
      ((storedFrom l us).map Prod.fst).Pairwise (· < ·) := by
    induction us with
    | nil => exact fun _ hl => hl
    | cons u us ih => exact fun _ hl => ih _ (insertPair_sorted hl)
  exact hfrom _ (sorted_keys hd)

theorem storedFrom_keys (l us : List (Nat × Nat)) (k : Nat) :
    k ∈ (storedFrom l us).map Prod.fst ↔ k ∈ l.map Prod.fst ∨ k ∈ us.map Prod.fst := by
  induction us generalizing l with
  | nil => simp [storedFrom]
  | cons u us ih =>
      change k ∈ (storedFrom (insertPair u.1 u.2 l) us).map Prod.fst ↔ _
      rw [ih, mem_insertPair_keys, List.map_cons, List.mem_cons]
      tauto

def keysBefore (elems us : List (Nat × Nat)) (i : Nat) : List Nat :=
  (elems ++ us.take i).map Prod.fst

theorem stored_keys (elems us : List (Nat × Nat)) (i k : Nat) :
    k ∈ (stored elems (us.take i)).map Prod.fst ↔ k ∈ keysBefore elems us i := by
  rw [stored, storedFrom_keys, keysBefore, List.map_append, List.mem_append,
    ((sorted_perm elems).map Prod.fst).mem_iff]

theorem cowAll_mapOf_iff (us : List (Nat × Nat)) (hT : Sound T) (hl : T.pairs = written l) :
    (∀ n ≤ us.length, ∃ T', cowAll (us.take n) T = some T' ∧ MapOf (storedFrom l (us.take n)) T') ↔
      ∀ i u, us[i]? = some u → u.1 ∈ (storedFrom l (us.take i)).map Prod.fst →
        ∀ k ∈ (storedFrom l (us.take i)).map Prod.fst, k = u.1 := by
  induction us generalizing T l with
  | nil => simpa [cowAll, storedFrom] using (mapOf_iff hT.1).mpr hl
  | cons u us ih =>
      obtain ⟨key, val⟩ := u
      obtain ⟨T₁, hu, hT₁, -⟩ := cowUpdate_sound hT key val
      have hstep := update_written hT hl hu
      constructor
      · intro hall
        obtain ⟨T', hT', hmap⟩ := hall 1 (by simp)
        obtain rfl : T₁ = T' := by simpa [cowAll, hu] using hT'
        have hl₁ : T₁.pairs = written (insertPair key val l) := (mapOf_iff hT₁.1).mp hmap
        have hrest := (ih hT₁ hl₁).mp fun n hn => by
          simpa only [cowAll, hu, List.take_succ_cons, Option.bind_some, storedFrom,
            List.foldl_cons]
            using hall (n + 1) (Nat.succ_le_succ hn)
        intro i u hi
        cases i with
        | zero =>
            obtain rfl : (key, val) = u := by simpa using hi
            exact hstep.mp hl₁
        | succ i => exact hrest i u hi
      · intro hcond n hn
        cases n with
        | zero => exact ⟨T, rfl, (mapOf_iff hT.1).mpr hl⟩
        | succ n =>
            have hl₁ := hstep.mpr (hcond 0 (key, val) rfl)
            obtain ⟨T', hT', hmap⟩ := (ih hT₁ hl₁).mpr (fun i u hi => hcond (i + 1) u hi) n
              (Nat.le_of_succ_le_succ hn)
            exact ⟨T', by simpa [cowAll, hu] using hT', hmap⟩

/-- Updates of a built tree are updates of a map, after each of them, if and only
if an update finds its key stored only where the tree holds no other key:
`copy_leaf` carries over no values. -/
theorem mapUpdates_iff (height : Nat) (elems us : List (Nat × Nat)) (hd : (elems.map Prod.fst).Nodup) :
    ∃ T, build height elems = some T ∧ ∀ t h p, Denotes kind (Old t) h p T →
      ((∀ n ≤ us.length, interface.EndsAll next (Holds (MapOf (stored elems (us.take n)))) t (some p) h
          (us.take n)) ↔
        ∀ i u, us[i]? = some u → u.1 ∈ keysBefore elems us i → ∀ k ∈ keysBefore elems us i, k = u.1) := by
  obtain ⟨T, hT, hsound, hpairs⟩ := build_sound height hd
  refine ⟨T, hT, fun t h p hp => ?_⟩
  have hmap := cowAll_mapOf_iff us hsound hpairs
  simp only [endsAll_iff hsound hp, ← stored_keys]
  exact hmap

theorem mapUpdates_sample : ∃ T, build 0 [(5, 0)] = some T ∧ ∀ t h p, Denotes kind (Old t) h p T →
    ∀ n ≤ 2, interface.EndsAll next (Holds (MapOf (stored [(5, 0)] (([(5, 1), (6, 2)] :
      List (Nat × Nat)).take n)))) t (some p) h ([(5, 1), (6, 2)].take n) := by
  obtain ⟨T, hT, hiff⟩ := mapUpdates_iff 0 [(5, 0)] [(5, 1), (6, 2)] (by simp)
  refine ⟨T, hT, fun t h p hp => (hiff t h p hp).mpr fun i u hi hu k hk => ?_⟩
  match i with
  | 0 =>
      obtain rfl : (5, 1) = u := by simpa using hi
      simpa [keysBefore] using hk
  | 1 =>
      obtain rfl : (6, 2) = u := by simpa using hi
      simp [keysBefore] at hu
  | i + 2 => simp at hi

/-- On a tree of two pairs the update of one key loses the value of the other. -/
theorem value_lost : ¬ ∀ (height : Nat) (elems us : List (Nat × Nat)) (T : NodeTree Ann) (t : Nat)
    (h : NodeHeap Ann) (p : NodePtr Ann), (elems.map Prod.fst).Nodup → build height elems = some T →
      Denotes kind (Old t) h p T → ∀ n ≤ us.length,
        interface.EndsAll next (Holds (MapOf (stored elems (us.take n)))) t (some p) h (us.take n) := by
  intro hall
  obtain ⟨T, hT, hiff⟩ := mapUpdates_iff 0 [(5, 0), (6, 0)] [(5, 1)] (by simp)
  obtain rfl : T = .leaf ⟨.leaf, 0, 0⟩ [5, 6] [some 0, some 0] := by
    have hsorted : sorted [(5, 0), (6, 0)] = [(5, 0), (6, 0)] := by
      exact List.mergeSort_of_pairwise (by simp)
    simpa [build, buildSorted, hsorted, leafOf, B] using hT.symm
  have hp : Denotes kind (Old 1) (heapOf [(⟨0, 0, 0, ⟨.leaf, 0, 0⟩⟩,
      ⟨0, ⟨.leaf, 0, 0⟩, [5, 6], [some 0, some 0]⟩, none)]) ⟨0, 0, 0, ⟨.leaf, 0, 0⟩⟩
      (.leaf ⟨.leaf, 0, 0⟩ [5, 6] [some 0, some 0]) := ⟨Nat.zero_lt_one, rfl, ⟨0, rfl⟩, rfl⟩
  have hwrong := (hiff 1 _ _ hp).mp (hall _ _ _ _ _ _ _ (by simp) hT hp)
  have := hwrong 0 (5, 1) rfl (by simp [keysBefore]) 6 (by simp [keysBefore])
  omega

end Map

end Contrees.Trees.Betree
