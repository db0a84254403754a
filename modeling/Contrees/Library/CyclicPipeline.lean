import Mathlib.Data.List.Infix
import Mathlib.Data.List.Range
import Mathlib.Data.Nat.ModEq
import Mathlib.Logic.Function.Basic

namespace Contrees.Library.CyclicPipeline

/-- `N` workers in a ring take the tasks 1, 2, 3, … each in this order; the
stages of task `t` go round the ring from worker `(t - 1) % N` on. -/
def worker (N t k : Nat) : Nat := (t - 1 + k) % N

def stage (N i t : Nat) : Nat := (i + N - (t - 1) % N) % N

def pred (N i : Nat) : Nat := (i + N - 1) % N

inductive Event
  | start (worker task : Nat)
  | finish (worker task : Nat)
deriving DecidableEq

def Event.task : Event → Nat
  | .start _ task | .finish _ task => task

def Event.worker : Event → Nat
  | .start worker _ | .finish worker _ => worker

@[simp] theorem Event.task_start (i t : Nat) : (start i t).task = t := rfl
@[simp] theorem Event.task_finish (i t : Nat) : (finish i t).task = t := rfl
@[simp] theorem Event.worker_start (i t : Nat) : (start i t).worker = i := rfl
@[simp] theorem Event.worker_finish (i t : Nat) : (finish i t).worker = i := rfl

/-- `done i` is the last task of worker `i`, which runs the next one or waits. -/
structure State where
  done : Nat → Nat
  running : Nat → Bool
  log : List Event

def initial : State := ⟨fun _ => 0, fun _ => false, []⟩

def start (s : State) (i : Nat) : State :=
  { s with
    running := Function.update s.running i true
    log := s.log ++ [.start i (s.done i + 1)] }

def finish (s : State) (i : Nat) : State :=
  { done := Function.update s.done i (s.done i + 1)
    running := Function.update s.running i false
    log := s.log ++ [.finish i (s.done i + 1)] }

/-- A worker may start a task at its first stage, or once the worker before it
in the ring has finished the task. -/
def Ready (N : Nat) (s : State) (i : Nat) : Prop :=
  stage N i (s.done i + 1) = 0 ∨ s.done i + 1 ≤ s.done (pred N i)

inductive Step (N : Nat) : Nat → State → State → Prop
  | start (s i) (hi : i < N) (hidle : s.running i = false) (hready : Ready N s i) :
      Step N i s (start s i)
  | finish (s i) (hi : i < N) (hrunning : s.running i = true) : Step N i s (finish s i)

def calls (N t m : Nat) : List Event :=
  (List.range m).flatMap fun k => [.start (worker N t k) t, .finish (worker N t k) t]

def turns (i n : Nat) : List Event :=
  (List.range n).flatMap fun t => [.start i (t + 1), .finish i (t + 1)]

/-- Every occurrence of `b` comes after one of `a`. -/
def Precedes {α : Type} (log : List α) (a b : α) : Prop :=
  ∀ l r, log = l ++ b :: r → a ∈ l

section Ring

variable {N i k t : Nat}

theorem worker_lt (hN : 0 < N) : worker N t k < N := Nat.mod_lt _ hN

theorem stage_lt (hN : 0 < N) : stage N i t < N := Nat.mod_lt _ hN

theorem worker_stage (hi : i < N) : worker N t (stage N i t) = i := by
  have hmod : (t - 1) % N < N := Nat.mod_lt _ (by omega)
  have hsum : t - 1 + (i + N - (t - 1) % N) = i + N * ((t - 1) / N + 1) := by
    have := Nat.div_add_mod (t - 1) N
    rw [Nat.mul_succ]
    omega
  rw [worker, stage, Nat.add_mod_mod, hsum, Nat.add_mul_mod_self_left, Nat.mod_eq_of_lt hi]

theorem worker_injective {k' : Nat} (hk : k < N) (hk' : k' < N)
    (h : worker N t k = worker N t k') : k = k' :=
  Nat.ModEq.eq_of_lt_of_lt (Nat.ModEq.add_left_cancel' _ h) hk hk'

theorem stage_worker (hk : k < N) : stage N (worker N t k) t = k := by
  have hN : 0 < N := by omega
  exact worker_injective (stage_lt hN) hk (worker_stage (worker_lt hN))

theorem pred_worker (hN : 0 < N) : pred N (worker N t (k + 1)) = worker N t k := by
  have hmod : (t - 1 + (k + 1)) % N + N - 1 = (t - 1 + (k + 1)) % N + (N - 1) := by omega
  have hsum : t - 1 + (k + 1) + (N - 1) = t - 1 + k + N := by omega
  rw [pred, worker, worker, hmod, Nat.mod_add_mod, hsum, Nat.add_mod_right]

theorem pred_succ (hi : i < N) : pred N ((i + 1) % N) = i := by
  have hmod : (i + 1) % N + N - 1 = (i + 1) % N + (N - 1) := by omega
  have hsum : i + 1 + (N - 1) = i + N := by omega
  rw [pred, hmod, Nat.mod_add_mod, hsum, Nat.add_mod_right, Nat.mod_eq_of_lt hi]

theorem succ_pred (hi : i < N) : (pred N i + 1) % N = i := by
  have hsum : i + N - 1 + 1 = i + N := by omega
  rw [pred, Nat.mod_add_mod, hsum, Nat.add_mod_right, Nat.mod_eq_of_lt hi]

theorem stage_of_last (hi : i < N) (hlast : stage N (pred N i) t + 1 = N) : stage N i t = 0 := by
  by_contra hne
  have hN : 0 < N := by omega
  obtain ⟨k, hk⟩ : ∃ k, stage N i t = k + 1 := ⟨_, (Nat.succ_pred hne).symm⟩
  have hlt : k + 1 < N := hk ▸ stage_lt hN
  have hworker : worker N t (k + 1) = i := hk ▸ worker_stage hi
  rw [← hworker, pred_worker hN, stage_worker (by omega)] at hlast
  omega

theorem worker_succ (ht : 1 ≤ t) : worker N (t + 1) k = worker N t (k + 1) := by
  have hsum : t + 1 - 1 + k = t - 1 + (k + 1) := by omega
  rw [worker, worker, hsum]

end Ring

section Calls

variable {N t m : Nat}

theorem calls_succ : calls N t (m + 1) =
    calls N t m ++ [.start (worker N t m) t, .finish (worker N t m) t] := by
  simp [calls, List.range_succ]

theorem calls_start {n : Nat} (h : m ≤ n) : calls N t m <+: calls N t n := by
  induction h with
  | refl => exact List.prefix_refl _
  | step _ ih =>
      rw [calls_succ]
      exact ih.trans (List.prefix_append _ _)

theorem Precedes.snoc {α : Type} {log : List α} {a b e : α} (h : Precedes log a b)
    (he : e = b → a ∈ log) : Precedes (log ++ [e]) a b := by
  intro l r hl
  rcases List.eq_nil_or_concat r with rfl | ⟨r, c, rfl⟩
  · obtain ⟨rfl, hb⟩ := List.append_inj' hl rfl
    exact he (List.cons.inj hb).1
  · rw [List.concat_eq_append, ← List.cons_append, ← List.append_assoc] at hl
    obtain ⟨hl, -⟩ := List.append_inj' hl rfl
    exact h l r hl

end Calls

def pending (N : Nat) (s : State) (t m : Nat) : List Event :=
  if m < N ∧ s.done (worker N t m) + 1 = t ∧ s.running (worker N t m) = true then
    [.start (worker N t m) t] else []

/-- The invariant: each task has finished its first `m` stages and started at
most one more, and the log says so. -/
structure Inv (N : Nat) (s : State) : Prop where
  ready : ∀ i < N, s.running i = true → Ready N s i
  passed : ∀ t, 1 ≤ t → ∃ m ≤ N, (∀ k < N, t ≤ s.done (worker N t k) ↔ k < m) ∧
    s.log.filter (·.task = t) = calls N t m ++ pending N s t m
  taken : ∀ i < N, s.log.filter (·.worker = i) =
    turns i (s.done i) ++ if s.running i then [.start i (s.done i + 1)] else []
  ordered : ∀ t, 1 ≤ t → ∀ k < N, Precedes s.log
    (.finish (worker N t (min (k + 1) (N - 1))) t) (.start (worker N (t + 1) k) (t + 1))

section Steps

variable {N : Nat} {s : State} {i t : Nat}

theorem Inv.initial : Inv N initial where
  ready := by simp [CyclicPipeline.initial]
  passed t ht := ⟨0, Nat.zero_le _, by simp [CyclicPipeline.initial]; omega, by
    simp [CyclicPipeline.initial, calls, pending]⟩
  taken i _ := by simp [CyclicPipeline.initial, turns]
  ordered t _ k _ l r h := by simp [CyclicPipeline.initial] at h

theorem turns_succ {n : Nat} :
    turns i (n + 1) = turns i n ++ [.start i (n + 1), .finish i (n + 1)] := by
  simp [turns, List.range_succ]

theorem Inv.finished (h : Inv N s) (hi : i < N) (ht : 1 ≤ t) (hle : t ≤ s.done i) :
    .finish i t ∈ s.log := by
  have hmem : Event.finish i t ∈ turns i (s.done i) := by
    rw [turns, List.mem_flatMap]
    exact ⟨t - 1, List.mem_range.2 (by omega), by simp; omega⟩
  have := List.mem_append_left (if s.running i then [.start i (s.done i + 1)] else []) hmem
  rw [← h.taken i hi] at this
  exact (List.mem_filter.1 this).1

theorem Inv.stage_eq (h : Inv N s) (hi : i < N) (hready : Ready N s i) :
    (∀ k < N, s.done i + 1 ≤ s.done (worker N (s.done i + 1) k) ↔
      k < stage N i (s.done i + 1)) ∧
    s.log.filter (·.task = s.done i + 1) =
      calls N (s.done i + 1) (stage N i (s.done i + 1)) ++
        pending N s (s.done i + 1) (stage N i (s.done i + 1)) := by
  have hN : 0 < N := by omega
  have hlt := stage_lt (i := i) (t := s.done i + 1) hN
  have hworker := worker_stage (t := s.done i + 1) hi
  obtain ⟨m, hm, hdone, hlog⟩ := h.passed (s.done i + 1) (by omega)
  have hle : ¬ stage N i (s.done i + 1) < m := by
    intro hlt'
    have := (hdone _ hlt).2 hlt'
    rw [hworker] at this
    omega
  have hge : ¬ m < stage N i (s.done i + 1) := by
    intro hlt'
    obtain ⟨k, hk⟩ : ∃ k, stage N i (s.done i + 1) = k + 1 := ⟨_, (Nat.succ_pred (by omega)).symm⟩
    rcases hready with hzero | hpred
    · omega
    · rw [hk] at hworker
      rw [← congrArg (pred N) hworker, pred_worker hN, hdone k (by omega)] at hpred
      omega
  obtain rfl : m = stage N i (s.done i + 1) := by omega
  exact ⟨hdone, hlog⟩

theorem Inv.start (h : Inv N s) (hN : 2 ≤ N) (hi : i < N) (hidle : s.running i = false)
    (hready : Ready N s i) : Inv N (start s i) where
  ready j hj hrun := by
    by_cases hij : j = i
    · subst hij
      exact hready
    · exact h.ready j hj (by simpa [CyclicPipeline.start, hij] using hrun)
  passed t ht := by
    by_cases htask : t = s.done i + 1
    · subst htask
      obtain ⟨hdone, hlog⟩ := h.stage_eq hi hready
      have hlt := stage_lt (i := i) (t := s.done i + 1) (by omega : 0 < N)
      refine ⟨_, Nat.le_of_lt hlt, hdone, ?_⟩
      have hnone : pending N s (s.done i + 1) (stage N i (s.done i + 1)) = [] := by
        simp [pending, worker_stage hi, hidle]
      have hsome : pending N (CyclicPipeline.start s i) (s.done i + 1) (stage N i (s.done i + 1)) =
          [.start i (s.done i + 1)] := by
        simp [pending, worker_stage hi, CyclicPipeline.start, hlt]
      rw [hsome]
      simp only [CyclicPipeline.start, List.filter_append, hlog, hnone, List.append_nil]
      simp
    · obtain ⟨m, hm, hdone, hlog⟩ := h.passed t ht
      refine ⟨m, hm, hdone, ?_⟩
      have hsame : pending N (CyclicPipeline.start s i) t m = pending N s t m := by
        by_cases hw : worker N t m = i
        · simp [pending, hw, CyclicPipeline.start, Ne.symm htask]
        · simp [pending, CyclicPipeline.start, hw]
      rw [hsame, ← hlog]
      simp [CyclicPipeline.start, Ne.symm htask]
  taken j hj := by
    have htaken := h.taken j hj
    by_cases hij : j = i
    · subst hij
      simp only [hidle, Bool.false_eq_true, if_false, List.append_nil] at htaken
      simp [CyclicPipeline.start, htaken]
    · simpa [CyclicPipeline.start, hij, Ne.symm hij] using htaken
  ordered t ht k hk := by
    apply (h.ordered t ht k hk).snoc
    intro heq
    obtain ⟨rfl, htask⟩ := Event.start.inj heq
    replace htask : t = s.done (worker N (t + 1) k) := by omega
    by_cases hlast : k + 1 < N
    · rw [show min (k + 1) (N - 1) = k + 1 by omega, ← worker_succ ht]
      exact h.finished (worker_lt (by omega)) ht (by omega)
    · obtain ⟨k', rfl⟩ : ∃ k', k = k' + 1 := ⟨k - 1, by omega⟩
      rw [show min (k' + 1 + 1) (N - 1) = k' + 1 by omega]
      apply h.finished (worker_lt (by omega)) ht
      rcases hready with hzero | hpred
      · rw [← htask, stage_worker hk] at hzero
        omega
      · rw [← htask, worker_succ ht, pred_worker (by omega)] at hpred
        omega

theorem Inv.finish (h : Inv N s) (hi : i < N) (hrunning : s.running i = true) :
    Inv N (finish s i) := by
  have hN : 0 < N := by omega
  have hgrow : ∀ j, s.done j ≤ (CyclicPipeline.finish s i).done j := by
    intro j
    by_cases hij : j = i
    · simp [CyclicPipeline.finish, hij]
    · simp [CyclicPipeline.finish, hij]
  refine ⟨?_, ?_, ?_, ?_⟩
  · intro j hj hrun
    have hij : j ≠ i := by
      rintro rfl
      simp [CyclicPipeline.finish] at hrun
    have hready := h.ready j hj (by simpa [CyclicPipeline.finish, hij] using hrun)
    have hsame : (CyclicPipeline.finish s i).done j = s.done j := by
      simp [CyclicPipeline.finish, hij]
    rw [Ready, hsame]
    exact hready.imp id (fun hle => hle.trans (hgrow _))
  · intro t ht
    by_cases htask : t = s.done i + 1
    · subst htask
      obtain ⟨hdone, hlog⟩ := h.stage_eq hi (h.ready i hi hrunning)
      have hlt := stage_lt (i := i) (t := s.done i + 1) hN
      have hworker := worker_stage (t := s.done i + 1) hi
      refine ⟨stage N i (s.done i + 1) + 1, hlt, ?_, ?_⟩
      · intro k hk
        by_cases hw : worker N (s.done i + 1) k = i
        · obtain rfl : k = stage N i (s.done i + 1) :=
            worker_injective hk hlt (hw.trans hworker.symm)
          simp [hworker, CyclicPipeline.finish]
        · have hne : k ≠ stage N i (s.done i + 1) := by
            rintro rfl
            exact hw hworker
          simp only [CyclicPipeline.finish, Function.update_of_ne hw, hdone k hk]
          omega
      · have hsome : pending N s (s.done i + 1) (stage N i (s.done i + 1)) =
            [.start i (s.done i + 1)] := by
          simp [pending, hworker, hlt, hrunning]
        have hnone : pending N (CyclicPipeline.finish s i) (s.done i + 1)
            (stage N i (s.done i + 1) + 1) = [] := by
          rw [pending, if_neg]
          rintro ⟨hlt', htask', hrun'⟩
          -- the next stage runs only after this one, which has not finished before
          have hne : worker N (s.done i + 1) (stage N i (s.done i + 1) + 1) ≠ i := by
            intro hw
            have := worker_injective hlt' hlt (hw.trans hworker.symm)
            omega
          simp only [CyclicPipeline.finish, Function.update_of_ne hne] at htask' hrun'
          rcases h.ready _ (worker_lt hN) hrun' with hzero | hpred
          · rw [htask', stage_worker hlt'] at hzero
            omega
          · rw [htask', pred_worker hN, hworker] at hpred
            omega
        rw [hnone, calls_succ, hworker]
        simp only [CyclicPipeline.finish, List.filter_append, hlog, hsome, List.append_assoc]
        simp
    · obtain ⟨m, hm, hdone, hlog⟩ := h.passed t ht
      refine ⟨m, hm, fun k hk => ?_, ?_⟩
      · rw [← hdone k hk]
        by_cases hw : worker N t k = i
        · simp only [CyclicPipeline.finish, hw, Function.update_self]
          omega
        · simp [CyclicPipeline.finish, hw]
      · have hsame : pending N (CyclicPipeline.finish s i) t m = pending N s t m := by
          by_cases hw : worker N t m = i
          · simp [pending, hw, CyclicPipeline.finish, Ne.symm htask]
          · simp [pending, CyclicPipeline.finish, hw]
        rw [hsame, ← hlog]
        simp [CyclicPipeline.finish, Ne.symm htask]
  · intro j hj
    have htaken := h.taken j hj
    by_cases hij : j = i
    · subst hij
      simp only [hrunning, if_true] at htaken
      simp [CyclicPipeline.finish, htaken, turns_succ]
    · simpa [CyclicPipeline.finish, hij, Ne.symm hij] using htaken
  · intro t ht k hk
    exact (h.ordered t ht k hk).snoc (by rintro ⟨⟩)

theorem Inv.step {s' : State} (h : Inv N s) (hN : 2 ≤ N) (hs : Step N i s s') : Inv N s' := by
  cases hs with
  | start s i hi hidle hready => exact h.start hN hi hidle hready
  | finish s i hi hrunning => exact h.finish hi hrunning

theorem Step.done_le {s' : State} (hs : Step N i s s') (j : Nat) : s.done j ≤ s'.done j := by
  cases hs with
  | start => exact le_rfl
  | finish s i hi hrunning =>
      by_cases hij : j = i
      · simp [CyclicPipeline.finish, hij]
      · simp [CyclicPipeline.finish, hij]

theorem Inv.passage (h : Inv N s) (ht : 1 ≤ t) :
    s.log.filter (·.task = t) <+: calls N t N := by
  obtain ⟨m, hm, -, hlog⟩ := h.passed t ht
  rw [hlog]
  by_cases hlt : m < N
  · apply List.IsPrefix.trans _ (calls_start (Nat.succ_le_of_lt hlt))
    rw [calls_succ, List.prefix_append_right_inj, pending]
    split
    · exact ⟨[.finish (worker N t m) t], rfl⟩
    · exact List.nil_prefix
  · rw [pending, if_neg (fun h => hlt h.1), List.append_nil]
    exact calls_start hm

theorem Inv.earlier (h : Inv N s) (ht : 1 ≤ t) {k k' : Nat} (hk : k ≤ k') (hk' : k' < N)
    (hdone : t ≤ s.done (worker N t k')) : t ≤ s.done (worker N t k) := by
  obtain ⟨m, -, hiff, -⟩ := h.passed t ht
  have := (hiff k' hk').1 hdone
  exact (hiff k (by omega)).2 (by omega)

end Steps

section Progress

variable {N T : Nat} (run : Nat → State)

end Progress

end Contrees.Library.CyclicPipeline
