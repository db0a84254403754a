import Contrees.Library.SearchTreeInsert
import Mathlib.Data.List.Forall2
import Mathlib.Data.List.Sort

namespace Contrees.Library.Slots

open SearchTree

variable {ρ σ : Type} [Inhabited ρ] [Inhabited σ] {ks : List Nat} {xs : List ρ} {i j d k : Nat}
  {x y : ρ}

section Arrays

/-- `arr[i] = x` in an array whose unused places hold `default`. -/
def put (i : Nat) (x : ρ) (arr : List ρ) : List ρ :=
  (arr ++ List.replicate (i + 1 - arr.length) default).set i x

theorem put_of_lt (h : i < xs.length) : put i x xs = xs.set i x := by
  rw [put, Nat.sub_eq_zero_of_le h, List.replicate_zero, List.append_nil]

theorem put_at_length : put xs.length x xs = xs ++ [x] := by
  rw [put, Nat.add_sub_cancel_left, List.set_append_right _ _ (le_refl _), Nat.sub_self]
  rfl

theorem put_length : (put i x xs).length = max xs.length (i + 1) := by
  rw [put, List.length_set, List.length_append, List.length_replicate]
  omega

theorem getD_put : (put i x xs).getD j default = if j = i then x else xs.getD j default := by
  have hlt : i < (xs ++ List.replicate (i + 1 - xs.length) default).length := by
    rw [List.length_append, List.length_replicate]
    omega
  simp only [put, List.getD_eq_getElem?_getD, List.getElem?_set]
  by_cases hj : i = j
  · subst hj
    rw [if_pos rfl, if_pos hlt, if_pos rfl]
    rfl
  · rw [if_neg hj, if_neg (Ne.symm hj), List.getElem?_append]
    split
    · rfl
    · rw [List.getElem?_replicate, List.getElem?_eq_none (by omega)]
      split <;> rfl

theorem getD_insertIdx (h : i ≤ xs.length) : (xs.insertIdx i x).getD j default =
    if j < i then xs.getD j default else if j = i then x else xs.getD (j - 1) default := by
  rw [List.getD_eq_getElem?_getD, List.getElem?_insertIdx]
  split_ifs with h1 h2
  · rw [List.getD_eq_getElem?_getD]
  · rfl
  · omega
  · rw [List.getD_eq_getElem?_getD]

def Once (P : ρ → Prop) (xs : List ρ) : Prop :=
  ∀ i j, P (xs.getD i default) → xs.getD i default = xs.getD j default → i = j

theorem Once.insertIdx {P : ρ → Prop} (h : Once P xs) (hx : ¬ P x) (i : Nat) :
    Once P (xs.insertIdx i x) := by
  by_cases hi : i ≤ xs.length
  · intro a b ha hab
    rw [getD_insertIdx hi, getD_insertIdx hi] at hab
    rw [getD_insertIdx hi] at ha
    split_ifs at ha hab with h1 h2 h3 h4 h5 h6
    · exact h a b ha hab
    · exact absurd (hab ▸ ha) hx
    · have := h a (b - 1) ha hab
      omega
    · exact absurd ha hx
    · exact absurd ha hx
    · exact absurd ha hx
    · have := h (a - 1) b ha hab
      omega
    · exact absurd (hab ▸ ha) hx
    · have := h (a - 1) (b - 1) ha hab
      omega
  · rwa [List.insertIdx_of_length_lt (by omega)]

theorem Once.put {P : ρ → Prop} (h : Once P xs) (hx : P x → ∀ k, xs.getD k default ≠ x) (i : Nat) :
    Once P (put i x xs) := by
  intro a b ha hab
  rw [getD_put, getD_put] at hab
  rw [getD_put] at ha
  split_ifs at ha hab with h1 h2 h3
  · rw [h1, h2]
  · exact absurd hab.symm (hx ha b)
  · exact absurd hab (hx (hab ▸ ha) a)
  · exact h a b ha hab

theorem mem_put (h : y ∈ put i x xs) : y = x ∨ y ∈ xs ∨ y = default := by
  rcases List.mem_or_eq_of_mem_set h with h | h
  · rcases List.mem_append.mp h with h | h
    · exact .inr (.inl h)
    · exact .inr (.inr (List.mem_replicate.mp h).2)
  · exact .inl h

theorem getD_mem (i : Nat) (xs : List ρ) :
    xs.getD i default = default ∨ xs.getD i default ∈ xs := by
  rw [List.getD_eq_getElem?_getD]
  cases hx : xs[i]? with
  | none => exact .inl rfl
  | some x => exact .inr (List.mem_of_getElem? hx)

section Pointers

variable {π : Type} {p : π} {o : Option π} {ps : List (Option π)}

theorem some_mem_of_getD {j : Nat} (h : ps.getD j default = some p) : some p ∈ ps :=
  (getD_mem j ps).elim (fun hnone => nomatch h.symm.trans hnone) (h ▸ ·)

theorem some_mem_put {j : Nat} (h : some p ∈ put j o ps) : some p = o ∨ some p ∈ ps := by
  rcases mem_put h with heq | hmem | hnone
  exacts [.inl heq, .inr hmem, nomatch hnone]

end Pointers

theorem getD_map {f : ρ → σ} (hf : f default = default) :
    (xs.map f).getD i default = f (xs.getD i default) := by
  rw [List.getD_eq_getElem?_getD, List.getD_eq_getElem?_getD, List.getElem?_map]
  cases xs[i]? <;> simp [hf]

/-- `arr[ks[i]] = xs[i]` for each `i`, in a null array of length `n`. -/
def spread (n : Nat) (ks : List Nat) (xs : List ρ) : List ρ :=
  (ks.zip xs).foldl (fun arr e => arr.set e.1 e.2) (List.replicate n default)

theorem put_insertIdx (h : i ≤ xs.length) : put i x (xs.insertIdx i y) = xs.insertIdx i x := by
  have hlt : i < (xs.insertIdx i y).length := by
    rw [List.length_insertIdx_of_le_length h]
    omega
  rw [put_of_lt hlt, insertIdx_eq_append h, insertIdx_eq_append h,
    List.set_append_right _ _ (by simp), List.length_take, min_eq_left h, Nat.sub_self,
    List.set_cons_zero]

theorem flatMap_filterMap {α β γ : Type} (l : List α) (g : α → Option β) (f : β → List γ) :
    (l.filterMap g).flatMap f = l.flatMap (fun a => (g a).elim [] f) := by
  induction l with
  | nil => rfl
  | cons a l ih =>
      rw [List.filterMap_cons, List.flatMap_cons, ← ih]
      cases g a <;> rfl

theorem flatMap_filter {α γ : Type} {l : List α} {p : α → Bool} {f : α → List γ}
    (h : ∀ a ∈ l, p a = false → f a = []) : (l.filter p).flatMap f = l.flatMap f := by
  induction l with
  | nil => rfl
  | cons a l ih =>
      have ih := ih fun b hb => h b (List.mem_cons_of_mem a hb)
      rw [List.filter_cons, List.flatMap_cons, ← ih]
      cases hp : p a with
      | true => rfl
      | false => rw [h a List.mem_cons_self hp]; rfl

theorem foldlM_take {α : Type} {n : Nat} {scan : Nat → List α → Option (List α)} {idxs : List Nat}
    {held : Nat → List α} (h : ∀ i ∈ idxs, ∀ ret : List α, ret.length < n →
      scan i ret = some (ret ++ (held i).take (n - ret.length))) (ret : List α) :
    idxs.foldlM (fun ret i => if ret.length < n then scan i ret else some ret) ret =
      some (ret ++ (idxs.flatMap held).take (n - ret.length)) := by
  induction idxs generalizing ret with
  | nil => simp
  | cons i idxs ih =>
      have ih := ih fun j hj => h j (List.mem_cons_of_mem i hj)
      rw [List.foldlM_cons]
      by_cases hlt : ret.length < n
      · rw [if_pos hlt, h i List.mem_cons_self ret hlt]
        refine (ih _).trans (congrArg some ?_)
        have hlen : n - (ret ++ (held i).take (n - ret.length)).length =
            n - ret.length - (held i).length := by
          rw [List.length_append, List.length_take]
          omega
        rw [List.flatMap_cons, List.take_append, hlen, List.append_assoc]
      · rw [if_neg hlt, Nat.sub_eq_zero_of_le (not_lt.mp hlt), List.take_zero, List.append_nil]
        refine (ih _).trans (congrArg some ?_)
        rw [Nat.sub_eq_zero_of_le (not_lt.mp hlt), List.take_zero, List.append_nil]

theorem flatMap_places {γ : Type} (f : ρ → List γ) (i : Nat) (xs : List ρ) :
    (List.range' i (xs.length - i)).flatMap (fun j => f (xs.getD j default)) =
      (xs.drop i).flatMap f := by
  induction xs generalizing i with
  | nil => simp
  | cons x xs ih =>
      cases i with
      | zero =>
          rw [Nat.sub_zero, List.length_cons, List.range'_succ, List.flatMap_cons,
            List.range'_succ_left, List.flatMap_map, List.drop_zero, List.flatMap_cons]
          simpa using ih 0
      | succ i =>
          rw [List.length_cons, Nat.add_sub_add_right, List.range'_succ_left, List.flatMap_map,
            List.drop_succ_cons,
            ← ih i]
          rfl

end Arrays

section Related

variable {R R' : ρ → σ → Prop} {ys : List σ} {z : σ}

theorem related_get (h : List.Forall₂ R xs ys) (h₀ : R default default) (i : Nat) :
    R (xs.getD i default) (ys.getD i default) := by
  induction h generalizing i with
  | nil => simpa using h₀
  | cons hxy _ ih =>
      cases i with
      | zero => exact hxy
      | succ i => simpa using ih i

omit [Inhabited ρ] [Inhabited σ] in
theorem related_set (h : List.Forall₂ R xs ys) (hx : R x z) (i : Nat) :
    List.Forall₂ R (xs.set i x) (ys.set i z) := by
  induction h generalizing i with
  | nil => exact .nil
  | cons hxy hs ih =>
      cases i with
      | zero => exact .cons hx hs
      | succ i => exact .cons hxy (ih i)

omit [Inhabited ρ] [Inhabited σ] in
theorem related_insertIdx (h : List.Forall₂ R xs ys) (hx : R x z) (i : Nat) :
    List.Forall₂ R (xs.insertIdx i x) (ys.insertIdx i z) := by
  induction h generalizing i with
  | nil =>
      cases i with
      | zero => exact .cons hx .nil
      | succ i => exact .nil
  | cons hxy hs ih =>
      cases i with
      | zero => exact .cons hx (.cons hxy hs)
      | succ i => exact .cons hxy (ih i)

omit [Inhabited ρ] [Inhabited σ] in
theorem related_replicate (h₀ : R x z) (n : Nat) :
    List.Forall₂ R (List.replicate n x) (List.replicate n z) := by
  induction n with
  | zero => exact .nil
  | succ n ih => exact .cons h₀ ih

theorem related_put (h : List.Forall₂ R xs ys) (h₀ : R default default) (hx : R x z) (i : Nat) :
    List.Forall₂ R (put i x xs) (put i z ys) := by
  rw [put, put, h.length_eq]
  exact related_set (List.rel_append h (related_replicate h₀ _)) hx i

theorem related_of_getD (h : xs.length = ys.length)
    (hR : ∀ i < xs.length, R (xs.getD i default) (ys.getD i default)) : List.Forall₂ R xs ys := by
  rw [List.forall₂_iff_get]
  refine ⟨h, fun i hi hi' => ?_⟩
  have := hR i hi
  simpa [List.getD_eq_getElem?_getD, hi, hi'] using this

omit [Inhabited ρ] [Inhabited σ] in
theorem related_sets (h : List.Forall₂ R xs ys) (ks : List Nat) {arr : List ρ} {brr : List σ}
    (harr : List.Forall₂ R arr brr) :
    List.Forall₂ R ((ks.zip xs).foldl (fun arr e => arr.set e.1 e.2) arr)
      ((ks.zip ys).foldl (fun arr e => arr.set e.1 e.2) brr) := by
  induction h generalizing ks arr brr with
  | nil => simpa using harr
  | cons hxy _ ih =>
      cases ks with
      | nil => exact harr
      | cons k ks => exact ih ks (related_set harr hxy k)

theorem related_spread (h : List.Forall₂ R xs ys) (h₀ : R default default) (n : Nat)
    (ks : List Nat) :
    List.Forall₂ R (spread n ks xs) (spread n ks ys) := related_sets h ks (related_replicate h₀ n)

omit [Inhabited ρ] [Inhabited σ] in
theorem related_zip (h : List.Forall₂ R xs ys) (ks : List Nat) :
    List.Forall₂ (fun a b => a.1 = b.1 ∧ R a.2 b.2) (ks.zip xs) (ks.zip ys) := by
  induction h generalizing ks with
  | nil => simp
  | cons hxy _ ih =>
      cases ks with
      | nil => exact .nil
      | cons k ks => exact .cons ⟨rfl, hxy⟩ (ih ks)

theorem related_replace (h : List.Forall₂ R xs ys) (h₀ : R default default)
    (hother : ∀ j, j ≠ i → R (xs.getD j default) (ys.getD j default) →
    R' (xs.getD j default) (ys.getD j default))
    (hi : i < ys.length) (hz : R' (xs.getD i default) z) : List.Forall₂ R' xs (put i z ys) := by
  have hlen := h.length_eq
  refine related_of_getD ?_ fun j hj => ?_
  · rw [put_length]
    omega
  · rw [getD_put]
    by_cases hji : j = i
    · rw [if_pos hji, hji]
      exact hz
    · rw [if_neg hji]
      exact hother j hji (related_get h h₀ j)

end Related

section Sorted

def look (ks : List Nat) (xs : List ρ) (d : Nat) : ρ := ((ks.zip xs).lookup d).getD default

theorem look_nil : look [] xs d = default := rfl

theorem look_cons (x : ρ) : look (k :: ks) (x :: xs) d = if d = k then x else look ks xs d := by
  rw [look, List.zip_cons_cons, lookup_cons_pair]
  split <;> rfl

theorem findch_eq_findval (h : d ∉ ks) : findch ks d = findval ks d := by
  induction ks with
  | nil => rfl
  | cons k ks ih =>
      simp only [List.mem_cons, not_or] at h
      simp only [findch, findval, ih h.2]
      split <;> split <;> omega

theorem look_insertIdx (hs : ks.Pairwise (· < ·)) (hlen : ks.length = xs.length) (hd : d ∉ ks) :
    look (ks.insertIdx (findch ks d) d) (xs.insertIdx (findch ks d) x) =
      Function.update (look ks xs) d x := by
  funext e
  rw [look, findch_eq_findval hd, zip_insertIdx hs hlen hd, lookup_insertPair,
    Function.update_apply,
    look]
  split <;> rfl

theorem insertIdx_ascending (hs : ks.Pairwise (· < ·)) (hd : d ∉ ks) :
    (ks.insertIdx (findch ks d) d).Pairwise (· < ·) := by
  rw [findch_eq_findval hd]
  exact insertIdx_findval_sorted hs hd

theorem look_of_findIdx (hlen : ks.length = xs.length) :
    look ks xs d = match ks.findIdx? (· = d) with
      | some i => xs.getD i default
      | none => default := by
  induction ks generalizing xs with
  | nil => rfl
  | cons k ks ih =>
      obtain ⟨y, ys, rfl⟩ := List.exists_cons_of_length_eq_add_one hlen.symm
      rw [look_cons, List.findIdx?_cons]
      by_cases hk : k = d
      · simp [hk]
      · rw [if_neg (Ne.symm hk), ih (by simpa using hlen), if_neg (by simpa using hk)]
        cases ks.findIdx? (· = d) <;> rfl

theorem look_set {i : Nat} (hs : ks.Pairwise (· < ·)) (hlen : ks.length = xs.length)
    (hi : ks.findIdx? (· = d) = some i) :
    look ks (xs.set i x) = Function.update (look ks xs) d x := by
  funext e
  induction ks generalizing xs i with
  | nil => simp at hi
  | cons k ks ih =>
      obtain ⟨y, ys, rfl⟩ := List.exists_cons_of_length_eq_add_one hlen.symm
      obtain ⟨hlt, hs⟩ := List.pairwise_cons.mp hs
      rw [List.findIdx?_cons] at hi
      by_cases hk : k = d
      · obtain rfl : 0 = i := by simpa [hk] using hi
        subst hk
        rw [List.set_cons_zero, look_cons, Function.update_apply, look_cons]
        split <;> rfl
      · rw [if_neg (by simpa using hk)] at hi
        obtain ⟨i, hi', rfl⟩ := Option.map_eq_some_iff.mp hi
        rw [List.set_cons_succ, look_cons, ih hs (by simpa using hlen) hi', Function.update_apply,
          Function.update_apply, look_cons]
        by_cases he : e = k
        · simp [he, hk]
        · simp [he]

theorem look_eq_default (h : d ∉ ks) : look ks xs d = default := by
  induction ks generalizing xs with
  | nil => rfl
  | cons k ks ih =>
      cases xs with
      | nil => rfl
      | cons y ys =>
          simp only [List.mem_cons, not_or] at h
          rw [look_cons, if_neg h.1, ih h.2]

theorem look_mem (hlen : ks.length = xs.length) (h : d ∈ ks) : look ks xs d ∈ xs := by
  induction ks generalizing xs with
  | nil => simp at h
  | cons k ks ih =>
      cases xs with
      | nil => simp at hlen
      | cons x xs =>
          rw [look_cons]
          split
          · exact List.mem_cons_self
          · exact List.mem_cons_of_mem x
              (ih (Nat.succ.inj hlen) ((List.mem_cons.mp h).resolve_left ‹_›))

theorem findch_eq_length (h : ∀ k ∈ ks, k < d) : findch ks d = ks.length := by
  induction ks with
  | nil => rfl
  | cons k ks ih =>
      obtain ⟨hk, hks⟩ := List.forall_mem_cons.mp h
      rw [findch, if_neg hk.not_gt, ih hks, List.length_cons]

theorem exists_look (hn : ks.Nodup) (hlen : ks.length = xs.length) {x : ρ} (h : x ∈ xs) :
    ∃ d ∈ ks, look ks xs d = x := by
  induction ks generalizing xs with
  | nil =>
      rw [List.eq_nil_of_length_eq_zero hlen.symm] at h
      exact absurd h List.not_mem_nil
  | cons k ks ih =>
      cases xs with
      | nil => simp at hlen
      | cons y xs =>
          obtain ⟨hk, hn⟩ := List.nodup_cons.mp hn
          rcases List.mem_cons.mp h with rfl | h
          · exact ⟨k, List.mem_cons_self, by rw [look_cons, if_pos rfl]⟩
          · obtain ⟨d, hd, rfl⟩ := ih hn (Nat.succ.inj hlen) h
            refine ⟨d, List.mem_cons_of_mem k hd, ?_⟩
            have hne : d ≠ k := fun heq => hk (heq ▸ hd)
            rw [look_cons, if_neg hne]

theorem foldl_update (hn : ks.Nodup) (hlen : ks.length = xs.length) :
    (ks.zip xs).foldl (fun F e => Function.update F e.1 e.2) (fun _ => default) = look ks xs := by
  have hfold : ∀ {ks : List Nat} {xs : List ρ} {F : Nat → ρ}, ks.Nodup → ks.length = xs.length →
      ∀ e, (ks.zip xs).foldl (fun F e => Function.update F e.1 e.2) F e =
        if e ∈ ks then look ks xs e else F e := by
    intro ks
    induction ks with
    | nil => exact fun _ _ _ => rfl
    | cons k ks ih =>
        intro xs F hn hlen e
        obtain ⟨hk, hn⟩ := List.nodup_cons.mp hn
        cases xs with
        | nil => simp at hlen
        | cons y xs =>
            rw [List.zip_cons_cons, List.foldl_cons, ih hn (Nat.succ.inj hlen), look_cons]
            by_cases he : e = k
            · subst he
              simp [hk]
            · simp [he]
  funext e
  rw [hfold hn hlen]
  split
  · rfl
  · rw [look_eq_default ‹_›]

theorem getD_spread {n e : Nat} (hn : ks.Nodup) (hlen : ks.length = xs.length)
    (hks : ∀ k ∈ ks, k < n) :
    (spread n ks xs).getD e default = look ks xs e := by
  have hfold : ∀ {ks : List Nat} {xs arr : List ρ}, ks.Nodup → ks.length = xs.length →
      (∀ k ∈ ks, k < arr.length) →
      ((ks.zip xs).foldl (fun arr e => arr.set e.1 e.2) arr).getD e default =
        if e ∈ ks then look ks xs e else arr.getD e default := by
    intro ks
    induction ks with
    | nil => exact fun _ _ _ => rfl
    | cons k ks ih =>
        intro xs arr hn hlen hks
        obtain ⟨hk, hn⟩ := List.nodup_cons.mp hn
        cases xs with
        | nil => simp at hlen
        | cons y xs =>
            rw [List.zip_cons_cons, List.foldl_cons, ih hn (by simpa using hlen)
              (fun k' hk' => by simpa using hks k' (List.mem_cons_of_mem k hk')), look_cons]
            by_cases he : e = k
            · subst he
              simp [hk, hks e List.mem_cons_self]
            · simp [he, List.getElem?_set_ne (Ne.symm he)]
  rw [spread, hfold hn hlen (by simpa using hks)]
  split
  · rfl
  · rw [look_eq_default ‹_›, List.getD_eq_getElem?_getD, List.getElem?_replicate]
    split <;> rfl

theorem mem_spread {n : Nat} {c : ρ} (h : c ∈ spread n ks xs) : c = default ∨ c ∈ xs := by
  have hfold : ∀ (l : List (Nat × ρ)) (arr : List ρ),
      c ∈ l.foldl (fun arr e => arr.set e.1 e.2) arr → c ∈ arr ∨ c ∈ l.map Prod.snd := by
    intro l
    induction l with
    | nil => exact fun _ h => .inl h
    | cons e l ih =>
        intro arr h
        rcases ih _ h with h | h
        · rcases List.mem_or_eq_of_mem_set h with h | rfl
          · exact .inl h
          · exact .inr (by simp)
        · exact .inr (List.mem_cons_of_mem _ h)
  rcases hfold _ _ h with h | h
  · exact .inl (List.eq_of_mem_replicate h)
  · obtain ⟨e, he, rfl⟩ := List.mem_map.mp h
    exact .inr (List.of_mem_zip he).2

theorem look_drop (hs : ks.Pairwise (· < ·)) (hlen : ks.length = xs.length) (hd : k < d) :
    look (ks.drop (findch ks k)) (xs.drop (findch ks k)) d = look ks xs d := by
  induction ks generalizing xs with
  | nil => rfl
  | cons a ks ih =>
      obtain ⟨y, ys, rfl⟩ := List.exists_cons_of_length_eq_add_one hlen.symm
      obtain ⟨hlt, hs⟩ := List.pairwise_cons.mp hs
      simp only [findch]
      split
      · rfl
      · rw [List.drop_succ_cons, List.drop_succ_cons, ih hs (by simpa using hlen), look_cons,
          if_neg (by omega)]

theorem findch_drop_gt (hs : ks.Pairwise (· < ·)) : ∀ e ∈ ks.drop (findch ks k), k < e := by
  induction ks with
  | nil => simp
  | cons a ks ih =>
      obtain ⟨hlt, hs⟩ := List.pairwise_cons.mp hs
      simp only [findch]
      split
      · rename_i hka
        intro e he
        rcases List.mem_cons.mp he with rfl | he
        exacts [hka, hka.trans (hlt e he)]
      · exact ih hs

theorem flatMap_look {γ : Type} {f : ρ → List γ} (hf : f default = []) {a n : Nat}
    (hs : ks.Pairwise (· < ·)) (hlen : ks.length = xs.length) (hks : ∀ e ∈ ks, a ≤ e ∧ e < a + n) :
    (List.range' a n).flatMap (fun d => f (look ks xs d)) = xs.flatMap f := by
  induction n generalizing a ks xs with
  | zero =>
      obtain rfl : ks = [] := List.eq_nil_iff_forall_not_mem.mpr fun e he => by
        have := hks e he
        omega
      obtain rfl : xs = [] := by simpa using hlen.symm
      rfl
  | succ n ih =>
      rw [List.range'_succ, List.flatMap_cons]
      cases ks with
      | nil =>
          obtain rfl : xs = [] := by simpa using hlen.symm
          simp [look_nil, hf]
      | cons k ks =>
          obtain ⟨y, ys, rfl⟩ := List.exists_cons_of_length_eq_add_one hlen.symm
          obtain ⟨hlt, hs'⟩ := List.pairwise_cons.mp hs
          have hk := hks k (by simp)
          by_cases hka : k = a
          · subst hka
            rw [look_cons, if_pos rfl, List.flatMap_cons, ← ih hs' (by simpa using hlen)
              (fun e he => ⟨hlt e he, by have := hks e (by simp [he]); omega⟩)]
            congr 1
            refine List.flatMap_congr fun d hd => ?_
            have := List.mem_range'_1.mp hd
            rw [look_cons, if_neg (by omega)]
          · have hnot : a ∉ k :: ks := by
              intro ha
              rcases List.mem_cons.mp ha with rfl | ha
              · exact hka rfl
              · have := hlt a ha
                omega
            rw [look_eq_default hnot, hf, List.nil_append, ih hs hlen]
            intro e he
            have := hks e he
            have hne : e ≠ a := fun h => hnot (h ▸ he)
            omega

theorem look_getElem (hn : ks.Nodup) (hlen : ks.length = xs.length) (hi : i < ks.length) :
    look ks xs ks[i] = xs.getD i default := by
  induction ks generalizing xs i with
  | nil => exact absurd hi (Nat.not_lt_zero i)
  | cons k ks ih =>
      obtain ⟨y, ys, rfl⟩ := List.exists_cons_of_length_eq_add_one hlen.symm
      obtain ⟨hk, hn⟩ := List.nodup_cons.mp hn
      cases i with
      | zero => simp [look_cons]
      | succ i =>
          have hi : i < ks.length := Nat.lt_of_succ_lt_succ hi
          have hne : ks[i] ≠ k := fun heq => hk (heq ▸ List.getElem_mem hi)
          rw [List.getElem_cons_succ, look_cons, if_neg hne]
          exact ih hn (Nat.succ.inj hlen) hi

theorem ascending_ext {ls : List Nat} (hs : ks.Pairwise (· < ·)) (hs' : ls.Pairwise (· < ·))
    (h : ∀ d, d ∈ ks ↔ d ∈ ls) : ks = ls := by
  have hperm : ks.Perm ls := (List.perm_ext_iff_of_nodup (hs.imp Nat.ne_of_lt)
    (hs'.imp Nat.ne_of_lt)).mpr h
  exact hperm.eq_of_pairwise (fun a b _ _ hab hba => absurd hba hab.not_gt) hs hs'

end Sorted

section Pairs

variable {α β : Type} {pk0 pk1 : Nat} {a b c : α}

def pairUp (pk0 pk1 : Nat) (x y : α) : List α := if pk1 < pk0 then [y, x] else [x, y]

@[simp] theorem pairUp_length : (pairUp pk0 pk1 a b).length = 2 := by
  rw [pairUp]
  split <;> rfl

@[simp] theorem mem_pairUp : c ∈ pairUp pk0 pk1 a b ↔ c = a ∨ c = b := by
  rw [pairUp]
  split
  · rw [List.mem_pair, or_comm]
  · exact List.mem_pair

theorem pairUp_getD (pk0 pk1 : Nat) (a b z : α) :
    (pairUp pk0 pk1 a b).getD (if pk1 < pk0 then 1 else 0) z = a := by
  rw [pairUp]
  split <;> rfl

theorem pairUp_ascending (hne : pk0 ≠ pk1) : (pairUp pk0 pk1 pk0 pk1).Pairwise (· < ·) := by
  rw [pairUp]
  split
  · simpa
  · simp
    omega

theorem look_pairUp (pk0 pk1 : Nat) (x y : ρ) (d : Nat) :
    look (pairUp pk0 pk1 pk0 pk1) (pairUp pk0 pk1 x y) d =
      if d = pk0 then x else if d = pk1 then y else default := by
  rw [pairUp, pairUp]
  split
  · rw [look_cons, look_cons, look_nil]
    by_cases hd0 : d = pk0
    · rw [if_neg (by omega), if_pos hd0, if_pos hd0]
    · rw [if_neg hd0, if_neg hd0]
  · rw [look_cons, look_cons, look_nil]

theorem related_pairUp {R : α → β → Prop} {a' b' : β} (ha : R a a') (hb : R b b') (pk0 pk1 : Nat) :
    List.Forall₂ R (pairUp pk0 pk1 a b) (pairUp pk0 pk1 a' b') := by
  rw [pairUp, pairUp]
  split
  · exact .cons hb (.cons ha .nil)
  · exact .cons ha (.cons hb .nil)

end Pairs

section Places

/-- A mutual recursion that looks up one place of a list does there what it does
of one element. -/
theorem at_eq {α β : Type} (x₀ : α) {g : α → β} {gAt : List α → Nat → β}
    (hnil : ∀ i, gAt [] i = g x₀)
    (hzero : ∀ x xs, gAt (x :: xs) 0 = g x) (hsucc : ∀ x xs i, gAt (x :: xs) (i + 1) = gAt xs i)
    (xs : List α) (i : Nat) : gAt xs i = g (xs.getD i x₀) := by
  induction xs generalizing i with
  | nil => simpa using hnil i
  | cons x xs ih =>
      cases i with
      | zero => exact hzero x xs
      | succ i => exact (hsucc x xs i).trans (ih i)

end Places

section Many

variable {P Q : Nat → Prop} {n : Nat}

def Many (n : Nat) (P : Nat → Prop) : Prop := ∃ l : List Nat, n ≤ l.length ∧ l.Nodup ∧ ∀ d ∈ l, P d

theorem Many.mono (h : Many n P) (hPQ : ∀ d, P d → Q d) : Many n Q := by
  obtain ⟨l, hn, hnodup, hl⟩ := h
  exact ⟨l, hn, hnodup, fun d hd => hPQ d (hl d hd)⟩

theorem Many.le {m : Nat} (h : Many n P) (hm : m ≤ n) : Many m P := by
  obtain ⟨l, hn, hl⟩ := h
  exact ⟨l, hm.trans hn, hl⟩

theorem Many.insert {d : Nat} (h : Many n P) (hd : ¬ P d) (hPQ : ∀ e, P e → Q e) (hQ : Q d) :
    Many (n + 1) Q := by
  obtain ⟨l, hn, hnodup, hl⟩ := h
  refine ⟨d :: l, Nat.succ_le_succ hn, List.nodup_cons.mpr ⟨fun hmem => hd (hl d hmem), hnodup⟩, ?_⟩
  exact List.forall_mem_cons.mpr ⟨hQ, fun e he => hPQ e (hl e he)⟩

theorem Many.le_length (h : Many n P) (ks : List Nat) (hP : ∀ d, P d → d ∈ ks) : n ≤ ks.length := by
  obtain ⟨l, hn, hnodup, hl⟩ := h
  exact hn.trans (List.subperm_of_subset hnodup fun d hd => hP d (hl d hd)).length_le

theorem Many.two (h : Many n P) (hn : 2 ≤ n) : ∃ a b, a ≠ b ∧ P a ∧ P b := by
  obtain ⟨l, hlen, hnodup, hl⟩ := h
  match l with
  | [] | [_] =>
      simp only [List.length_nil, List.length_cons] at hlen
      omega
  | a :: b :: _ =>
      have hne : a ≠ b := fun heq => (List.nodup_cons.mp hnodup).1 (heq ▸ List.mem_cons_self)
      exact ⟨a, b, hne, hl a List.mem_cons_self, hl b (List.mem_cons_of_mem a List.mem_cons_self)⟩

end Many

end Contrees.Library.Slots
