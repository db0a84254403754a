import Contrees.Library.SearchTreeInsert
import Mathlib.Data.List.Sort

namespace Contrees.Library.OrderedMap

open SearchTree

variable {K V : Type}

/-- A map after some writes, the last one of a key in force. -/
def writes [DecidableEq K] (us : List (K × V)) (f : K → Option V) : K → Option V :=
  us.foldl (fun f u => Function.update f u.1 (some u.2)) f

section Writes

variable [DecidableEq K]

@[simp] theorem writes_nil (f : K → Option V) : writes [] f = f := rfl

@[simp] theorem writes_cons (u : K × V) (us : List (K × V)) (f : K → Option V) :
    writes (u :: us) f = writes us (Function.update f u.1 (some u.2)) := rfl

theorem writes_append (us us' : List (K × V)) (f : K → Option V) :
    writes (us ++ us') f = writes us' (writes us f) := List.foldl_append

theorem writes_eq_none {us : List (K × V)} {f : K → Option V} {k : K} :
    writes us f k = none ↔ k ∉ us.map Prod.fst ∧ f k = none := by
  induction us generalizing f with
  | nil => simp
  | cons u us ih =>
      rw [writes_cons, ih, List.map_cons, List.mem_cons, not_or]
      by_cases hk : k = u.1
      · simp [hk]
      · simp [hk, Function.update_of_ne]

end Writes

section Lists

variable [LinearOrder K] {f g : K → Option V} {l m : List (K × V)}

structure Lists (f : K → Option V) (l : List (K × V)) : Prop where
  ascending : (l.map Prod.fst).Pairwise (· < ·)
  mem_iff : ∀ k v, (k, v) ∈ l ↔ f k = some v

theorem Lists.nil : Lists (fun _ : K => (none : Option V)) [] := ⟨by simp, by simp⟩

theorem Lists.lookup (h : Lists f l) (k : K) : l.lookup k = f k := by
  have hmem : ∀ {l : List (K × V)}, (l.map Prod.fst).Pairwise (· < ·) → ∀ v, (k, v) ∈ l →
      l.lookup k = some v := by
    intro l hl v hv
    induction l with
    | nil => simp at hv
    | cons e l ih =>
        obtain ⟨hlt, hl⟩ := List.pairwise_cons.mp hl
        rcases List.mem_cons.mp hv with rfl | hv
        · simp
        · have hne : k ≠ e.1 := (hlt k (List.mem_map.mpr ⟨(k, v), hv, rfl⟩)).ne'
          rw [lookup_cons_pair, if_neg hne, ih hl hv]
  cases hf : f k with
  | some v => exact hmem h.ascending v ((h.mem_iff k v).mpr hf)
  | none =>
      rw [List.lookup_eq_none_iff]
      rintro ⟨k', v⟩ hv
      by_contra hk
      obtain rfl : k = k' := by simpa using hk
      simp [(h.mem_iff k v).mp hv] at hf

theorem lookup_perm (hp : l.Perm m) (hd : (l.map Prod.fst).Nodup) (k : K) :
    l.lookup k = m.lookup k := by
  induction hp with
  | nil => rfl
  | cons e _ ih =>
      rw [lookup_cons_pair, lookup_cons_pair, ih (List.nodup_cons.mp hd).2]
  | swap e e' l =>
      have hne : e'.1 ≠ e.1 := by
        rintro heq
        simp [heq] at hd
      simp only [lookup_cons_pair]
      by_cases hk : k = e'.1
      · simp [hk, hne]
      · simp [hk]
  | trans hp _ ih ih' => exact (ih hd).trans (ih' ((hp.map _).nodup_iff.mp hd))

theorem insertPair_ascending (key : K) (v : V) (hl : (l.map Prod.fst).Pairwise (· < ·)) :
    ((insertPair key v l).map Prod.fst).Pairwise (· < ·) ∧
      ∀ k, k ∈ (insertPair key v l).map Prod.fst ↔ k = key ∨ k ∈ l.map Prod.fst := by
  induction l with
  | nil => simp [insertPair]
  | cons e l ih =>
      obtain ⟨hlt, hl⟩ := List.pairwise_cons.mp hl
      obtain ⟨hord, hkeys⟩ := ih hl
      simp only [insertPair]
      split
      · rename_i hek
        refine ⟨List.pairwise_cons.mpr ⟨fun k hk => ?_, hord⟩, fun k => ?_⟩
        · rcases (hkeys k).mp hk with rfl | hk
          exacts [hek, hlt k hk]
        · simp only [List.map_cons, List.mem_cons, hkeys]
          tauto
      · split
        · rename_i _ heq
          refine ⟨List.pairwise_cons.mpr ⟨fun k hk => heq ▸ hlt k hk, hl⟩, ?_⟩
          simp [heq]
        · rename_i hge hne
          have hlt' : key < e.1 := lt_of_le_of_ne (not_lt.mp hge) (Ne.symm hne)
          refine ⟨List.pairwise_cons.mpr ⟨fun k hk => ?_, List.pairwise_cons.mpr ⟨hlt, hl⟩⟩, ?_⟩
          · rcases List.mem_cons.mp hk with rfl | hk
            exacts [hlt', hlt'.trans (hlt k hk)]
          · simp

theorem Lists.of_lookup (hl : (l.map Prod.fst).Pairwise (· < ·)) :
    Lists (fun k => l.lookup k) l := by
  refine ⟨hl, fun k v => ?_⟩
  induction l with
  | nil => simp
  | cons e l ih =>
      obtain ⟨k', w⟩ := e
      obtain ⟨hlt, hl'⟩ := List.pairwise_cons.mp hl
      rw [List.mem_cons, ih hl', lookup_cons_pair]
      by_cases hk : k = k'
      · subst hk
        have hnot : l.lookup k ≠ some v := fun h =>
          (hlt k (List.mem_map.mpr ⟨(k, v), (ih hl').mpr h, rfl⟩)).false
        simp [hnot, eq_comm]
      · simp [hk]

theorem Lists.insertPair (h : Lists f l) (key : K) (v : V) :
    Lists (Function.update f key (some v)) (insertPair key v l) := by
  have hlist := Lists.of_lookup (insertPair_ascending key v h.ascending).1
  have heq : (fun k => (SearchTree.insertPair key v l).lookup k) =
      Function.update f key (some v) := by
    funext k
    rw [lookup_insertPair, h.lookup, Function.update_apply]
  rwa [heq] at hlist

theorem Lists.unique (hl : Lists f l) (hm : Lists f m) : l = m := by
  have hsorted : ∀ {l : List (K × V)}, (l.map Prod.fst).Pairwise (· < ·) → l.Pairwise (·.1 < ·.1) :=
    fun h => List.pairwise_map.mp h
  have hnodup : ∀ {l : List (K × V)}, l.Pairwise (·.1 < ·.1) → l.Nodup :=
    fun h => h.imp fun hlt heq => (heq ▸ hlt).false
  have hperm : l.Perm m := (List.perm_ext_iff_of_nodup (hnodup (hsorted hl.ascending))
    (hnodup (hsorted hm.ascending))).mpr fun e => (hl.mem_iff e.1 e.2).trans
      (hm.mem_iff e.1 e.2).symm
  exact hperm.eq_of_pairwise (fun a b _ _ hab hba => absurd hba hab.not_gt) (hsorted hl.ascending)
    (hsorted hm.ascending)

theorem Lists.writes (h : Lists f l) (us : List (K × V)) : ∃ m, Lists (writes us f) m := by
  induction us generalizing f l with
  | nil => exact ⟨l, h⟩
  | cons u us ih => exact ih (h.insertPair u.1 u.2)

theorem Lists.map {W : Type} (h : Lists f l) (w : V → W) :
    Lists (fun k => (f k).map w) (l.map (fun e => (e.1, w e.2))) := by
  refine ⟨by simpa [List.map_map, Function.comp_def] using h.ascending, fun k v => ?_⟩
  simp only [List.mem_map, Prod.mk.injEq, Option.map_eq_some_iff]
  constructor
  · rintro ⟨e, he, rfl, rfl⟩
    exact ⟨e.2, (h.mem_iff _ _).mp he, rfl⟩
  · rintro ⟨v', hv', rfl⟩
    exact ⟨(k, v'), (h.mem_iff _ _).mpr hv', rfl, rfl⟩

theorem Lists.keyed (h : Lists f l) :
    Lists (fun k => (f k).map (fun v => (k, v))) (l.map (fun e => (e.1, e))) := by
  refine ⟨by simpa [List.map_map, Function.comp_def] using h.ascending, ?_⟩
  rintro k ⟨k', v⟩
  simp only [List.mem_map, Prod.mk.injEq, Option.map_eq_some_iff]
  constructor
  · rintro ⟨e, he, rfl, rfl⟩
    exact ⟨v, (h.mem_iff _ _).mp he, rfl, rfl⟩
  · rintro ⟨v', hv, rfl, rfl⟩
    exact ⟨(k, v'), (h.mem_iff _ _).mpr hv, rfl, rfl⟩

/-- A point query and a range query that answer as the map does. -/
structure Serves (f : K → Option V) (find : K → Option V) (scan : K → Nat → List (K × V)) :
    Prop where
  find : ∀ k, find k = f k
  scan : ∃ l, Lists f l ∧ ∀ k n, scan k n = (l.filter (k ≤ ·.1)).take n

end Lists

section Trees

variable {ι : Type} [LinearOrder K] {f : K → Option V} {t : Multiway ι K V}

theorem serves_of_pairs (ht : t.Ordered none none) (h : Lists f t.pairs) :
    Serves f t.find t.scan := by
  have hwithin : ∀ k : K, Within none none k := fun k => ⟨by simp, by simp⟩
  refine ⟨fun k => ?_, t.pairs, h, fun k n => Multiway.scan_eq ht (hwithin k) n⟩
  rw [Multiway.find_eq_lookup ht (hwithin k), h.lookup]

end Trees

end Contrees.Library.OrderedMap
