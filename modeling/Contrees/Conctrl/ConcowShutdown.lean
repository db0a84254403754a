import Contrees.Conctrl.ConcowDeadlock

namespace Contrees.Conctrl.Concow

open Library.Runs Library.TaskLedger

variable {ρ μ : Type} {K : Config ρ μ} {s t : State ρ μ} {φ : Nat → Phase Nat Nat} {θ : Thread}
    {pid : Nat}

def Returned (s : State ρ μ) : Thread → Prop
  | .client c => s.clients c = .idle
  | .monitor => s.monitor.pc = .finished
  | .pipe pid => (s.pipes pid).pc = .finished
  | .worker wid => (s.workers wid).pc = .finished
  | .destructor => s.destructor = .idle ∨ s.destructor = .finished

/-- A thread waits where, left alone, it spins and never returns. -/
def Waits (K : Config ρ μ) (θ : Thread) (s : State ρ μ) : Prop :=
  Spins K θ s ∧ ∀ n, ¬ Returned ((step K θ)^[n] s) θ

section Waits

theorem step_stop (θ : Thread) : (step K θ s).stop = s.stop := by
  cases θ with
  | client c => rw [step, clientStep_writes]
  | monitor => rw [step, monitorStep_writes]
  | pipe pid => rw [step, pipeStep_writes]
  | worker wid => rw [step, workerStep_writes]
  | destructor => rw [step, destructorStep_writes]

theorem step_of_returned (h : Returned s θ) : step K θ s = s := by
  cases θ with
  | client c =>
      change s.clients c = .idle at h
      simp [step, clientStep, h]
  | monitor =>
      change s.monitor.pc = .finished at h
      simp [step, monitorStep, h]
  | pipe pid =>
      change (s.pipes pid).pc = .finished at h
      simp [step, pipeStep, h]
  | worker wid =>
      change (s.workers wid).pc = .finished at h
      simp [step, workerStep, h]
  | destructor =>
      rcases h with h | h <;> simp [step, destructorStep, h]

theorem not_returned_of_not_spins (h : ¬ Spins K θ s) : ¬ Returned s θ := by
  intro hreturned
  apply h
  intro n
  rw [Function.iterate_fixed (step_of_returned hreturned)]

theorem Waits.next (h : Waits K θ s) : Waits K θ (step K θ s) := ⟨h.1.next, fun n => h.2 (n + 1)⟩

theorem not_waits_of_step (hstep : step K θ s = t) (h : t.shared = s.shared → ¬ Waits K θ t) :
    ¬ Waits K θ s := by
  subst hstep
  exact fun hwaits => h hwaits.1.same hwaits.next

end Waits

structure Settled (K : Config ρ μ) (s : State ρ μ) : Prop where
  reached : Reachable (Step K) (initial K) s
  stopped : s.stop = true
  bounded : s.nSubmitted < 2 ^ 32
  all : s.nCommitted = s.nSubmitted

theorem Settled.move (h : Settled K s) (θ : Thread) (hθ : θ.Runs K) (hstep : step K θ s = t)
    (hsame : t.shared = s.shared) : Settled K t := by
  have hsubmitted : t.nSubmitted = s.nSubmitted := congrArg Shared.nSubmitted hsame
  have hcommitted : t.nCommitted = s.nCommitted := congrArg Shared.nCommitted hsame
  subst hstep
  refine ⟨h.reached.next (.thread θ) (.thread s θ hθ), ?_, ?_, ?_⟩
  · rw [step_stop]
    exact h.stopped
  · rw [hsubmitted]
    exact h.bounded
  · rw [hsubmitted, hcommitted]
    exact h.all

theorem Settled.inv (h : Settled K s) : ∃ φ, Inv K s φ := inv_of_reachable h.reached

section Monitor

theorem Settled.watch (h : Settled K s) (hstep : step K .monitor s = t)
    (hsame : t.shared = s.shared) :
    Settled K t := h.move .monitor trivial hstep hsame

theorem Settled.scanned (h : Settled K s) (hpc : s.monitor.pc ≠ .publishCommitted) :
    s.monitor.nCommitted = s.nSubmitted ∧ s.monitor.nInited = s.nSubmitted ∧
      s.monitor.nSubmitted ≤ s.nSubmitted ∧ s.monitor.inited = s.nSubmitted ∧
      s.monitor.ended = s.nSubmitted ∧ (s.monitor.pc ≠ .finished → s.paces 0 = s.nSubmitted) := by
  obtain ⟨φ, hinv⟩ := h.inv
  have hm : s.monitor.Ordered s.nCommitted s.nSubmitted (s.paces 0) s.stop := hinv.order.monitor
  have h1 := hm.published hpc
  have h2 := hm.ended
  have h3 := hm.endedInited
  have h4 := hm.inited
  have h5 := hm.initedLoaded
  have h6 := hm.loaded
  have hall := h.all
  refine ⟨by omega, by omega, h6, by omega, by omega, fun hpc' => ?_⟩
  have h7 := hm.handed hpc'
  omega

theorem bubbles_not_spins (h : Settled K s) (hpc : s.monitor.pc = .bubbles) :
    ¬ Spins K .monitor s := by
  have hscanned := h.scanned (by simp [hpc])
  have hpace := hscanned.2.2.2.2.2 (by simp [hpc])
  have hbatch : 0 < batchSize := by decide
  refine not_spins_of_step rfl fun hsame => ?_
  have hpaces := congrFun (congrArg Shared.paces hsame) 0
  simp [State.shared, step, monitorStep, hpc, State.setMonitor, State.setPace] at hpaces
  omega

theorem toTest_not_spins {stop : Bool}
    (htest : ∀ s : State ρ μ, Settled K s → s.monitor.stop = stop → s.monitor.pc = .test →
      ¬ Spins K .monitor s) (h : Settled K s) (hstop : s.monitor.stop = stop)
    (hpc : s.monitor.pc = .loadSubmitted ∨ s.monitor.pc = .scanInited ∨ s.monitor.pc = .advance ∨
      s.monitor.pc = .checkpoint ∨ s.monitor.pc = .scanDone ∨ s.monitor.pc = .publishRoot) :
    ¬ Spins K .monitor s := by
  have hpublish : ∀ s : State ρ μ, Settled K s → s.monitor.stop = stop →
    s.monitor.pc = .publishRoot →
      ¬ Spins K .monitor s := by
    intro s h hstop hpc
    obtain ⟨h1, h2, h3, h4, h5, h6⟩ := h.scanned (by simp [hpc])
    simp only [Monitor.ended, hpc] at h5
    have hstep : step K .monitor s = s.setMonitor { s.monitor with pc := .test } := by
      simp [step, monitorStep, hpc, h1, h5]
    exact not_spins_of_step hstep fun hsame => htest _ (h.watch hstep hsame) hstop rfl
  have hdone : ∀ s : State ρ μ, Settled K s → s.monitor.stop = stop → s.monitor.pc = .scanDone →
      ¬ Spins K .monitor s := by
    intro s h hstop hpc
    obtain ⟨h1, h2, h3, h4, h5, h6⟩ := h.scanned (by simp [hpc])
    simp only [Monitor.ended, hpc] at h5
    have hstep : step K .monitor s = s.setMonitor { s.monitor with pc := .publishRoot } := by
      simp [step, monitorStep, hpc, h2, h5]
    exact not_spins_of_step hstep fun hsame => hpublish _ (h.watch hstep hsame) hstop rfl
  have hadvance : ∀ s : State ρ μ, Settled K s → s.monitor.stop = stop → s.monitor.pc = .advance →
      ¬ Spins K .monitor s := by
    intro s h hstop hpc
    obtain ⟨h1, h2, h3, h4, h5, h6⟩ := h.scanned (by simp [hpc])
    simp only [Monitor.inited, hpc] at h4
    have hstep : step K .monitor s =
        s.setMonitor { s.monitor with pc := .scanDone, next := s.monitor.nCommitted } := by
      simp [step, monitorStep, hpc, h2, h4]
    exact not_spins_of_step hstep fun hsame => hdone _ (h.watch hstep hsame) hstop rfl
  have hinited : ∀ s : State ρ μ, Settled K s → s.monitor.stop = stop → s.monitor.pc = .scanInited →
      ¬ Spins K .monitor s := by
    intro s h hstop hpc
    obtain ⟨h1, h2, h3, h4, h5, h6⟩ := h.scanned (by simp [hpc])
    simp only [Monitor.inited, hpc] at h4
    have hend : ¬ (s.monitor.next < s.monitor.nSubmitted ∧
        s.stages ((s.monitor.next + 1) % bufferSize) = 0) := fun hmore => by omega
    have hstep : step K .monitor s = s.setMonitor { s.monitor with pc := .advance } := by
      simp only [step, monitorStep, hpc, if_neg hend]
    exact not_spins_of_step hstep fun hsame => hadvance _ (h.watch hstep hsame) hstop rfl
  rcases hpc with hpc | hpc | hpc | hpc | hpc | hpc
  · have hstep : step K .monitor s = s.setMonitor { s.monitor with
        pc := .scanInited, nSubmitted := s.nSubmitted, next := s.monitor.nInited } := by
      simp only [step, monitorStep, hpc]
    exact not_spins_of_step hstep fun hsame => hinited _ (h.watch hstep hsame) hstop rfl
  · exact hinited s h hstop hpc
  · exact hadvance s h hstop hpc
  · refine not_spins_of_step rfl fun hsame => hdone _ (h.watch rfl hsame) ?_ ?_
    · simp [step, monitorStep, hpc, State.setMonitor, hstop]
    · simp [step, monitorStep, hpc, State.setMonitor]
  · exact hdone s h hstop hpc
  · exact hpublish s h hstop hpc

theorem closing_not_spins (h : Settled K s) (hpc : s.monitor.pc ≠ .finished) :
    ¬ Spins K .monitor s := by
  -- once it has read `stop_`
  have hstopped : ∀ s : State ρ μ, Settled K s → s.monitor.stop = true → s.monitor.pc = .test →
      ¬ Spins K .monitor s := by
    intro s h hstop hpc
    obtain ⟨h1, h2, h3, h4, h5, h6⟩ := h.scanned (by simp [hpc])
    have hend : ¬ s.monitor.nCommitted < s.monitor.nSubmitted := by omega
    have hstep : step K .monitor s = s.setMonitor { s.monitor with pc := .bubbles } := by
      simp [step, monitorStep, hpc, hstop, hend]
    exact not_spins_of_step hstep fun hsame => bubbles_not_spins (h.watch hstep hsame) rfl
  have hload : ∀ s : State ρ μ, Settled K s → s.monitor.pc = .loadStop → ¬ Spins K .monitor s := by
    intro s h hpc
    have hstep : step K .monitor s =
      s.setMonitor { s.monitor with pc := .loadSubmitted, stop := s.stop } := by
      simp only [step, monitorStep, hpc]
    exact not_spins_of_step hstep fun hsame =>
      toTest_not_spins hstopped (h.watch hstep hsame) h.stopped (.inl rfl)
  have htest : ∀ (stop : Bool) (s : State ρ μ), Settled K s → s.monitor.stop = stop →
    s.monitor.pc = .test →
      ¬ Spins K .monitor s := by
    intro stop s h hstop hpc
    cases stop with
    | true => exact hstopped s h hstop hpc
    | false =>
        have hstep : step K .monitor s = s.setMonitor { s.monitor with pc := .loadStop } := by
          simp [step, monitorStep, hpc, hstop]
        exact not_spins_of_step hstep fun hsame => hload _ (h.watch hstep hsame) rfl
  cases hpc' : s.monitor.pc with
  | test => exact htest _ s h rfl hpc'
  | loadStop => exact hload s h hpc'
  | publishCommitted =>
      refine not_spins_of_step rfl fun hsame => htest _ _ (h.watch rfl hsame) rfl ?_
      simp [step, monitorStep, hpc', State.setMonitor]
  | bubbles => exact bubbles_not_spins h hpc'
  | finished => exact absurd hpc' hpc
  | loadSubmitted | scanInited | advance | scanDone | checkpoint | publishRoot =>
      exact toTest_not_spins (htest _) h rfl (by simp [hpc'])

end Monitor

section Pipes

structure Leaving (K : Config ρ μ) (pid : Nat) (s : State ρ μ) : Prop extends Settled K s where
  runs : pid ≤ K.nPipes
  enough : (s.pipes pid).inBatch = true → (s.pipes pid).last ≤ s.paces pid

theorem Leaving.move (h : Leaving K pid s) (hstep : step K (.pipe pid) s = t)
    (hsame : t.shared = s.shared)
    (henough : (t.pipes pid).inBatch = true → (t.pipes pid).last ≤ s.paces pid) :
    Leaving K pid t := by
  have hpaces : t.paces = s.paces := congrArg Shared.paces hsame
  refine ⟨h.toSettled.move (.pipe pid) h.runs hstep hsame, h.runs, ?_⟩
  rw [hpaces]
  exact henough

theorem Leaving.inside (h : Leaving K pid s) (hpc : (s.pipes pid).pc.inside = true)
    (hloop : (s.pipes pid).pc ≠ .loop) (hstep : step K (.pipe pid) s = t)
    (hsame : t.shared = s.shared) :
    Leaving K pid t := by
  refine h.move hstep hsame fun hbatch => ?_
  obtain ⟨hpc', hfinal, hlast, -, -⟩ := pipeStep_inside (K := K) hpc hloop
  subst hstep
  simp only [step, Pipe.inBatch, hfinal, hpc'] at hbatch
  simp only [step, hlast]
  exact h.enough (by simp only [Pipe.inBatch, hpc, hbatch])

theorem Leaving.past (h : Leaving K pid s) : s.nSubmitted < (s.pipes pid).tid := by
  obtain ⟨φ, hinv⟩ := h.inv
  rw [← h.all]
  exact hinv.committed_lt_tid h.runs

theorem not_waits_of_not_spins (h : ¬ Spins K θ s) : ¬ Waits K θ s := fun hwaits => h hwaits.1

theorem final_not_waits (h : Leaving K pid s) (hpc : (s.pipes pid).pc = .loop)
    (hfinal : (s.pipes pid).final = true) : ¬ Waits K (.pipe pid) s := by
  have hlast := ((batched_of_reachable h.reached pid h.runs).final hfinal).1
  have hend : ¬ (s.pipes pid).tid ≤ (s.pipes pid).last := by
    rw [hlast]
    exact not_le.mpr h.past
  have hstep : step K (.pipe pid) s = s.setPipe pid { s.pipes pid with pc := .finished } := by
    simp [step, pipeStep, hpc, hend, hfinal]
  refine not_waits_of_step hstep fun _ hwaits => hwaits.2 0 ?_
  simp [Returned, State.setPipe]

theorem bound_not_waits (h : Leaving K pid s)
    (hpc : (s.pipes pid).pc = .testStop ∨ (s.pipes pid).pc = .loadTasks) :
    ¬ Waits K (.pipe pid) s := by
  have hload : ∀ s : State ρ μ, Leaving K pid s → (s.pipes pid).pc = .loadTasks →
      ¬ Waits K (.pipe pid) s := by
    intro s h hpc
    have hstep : step K (.pipe pid) s = s.setPipe pid { s.pipes pid with
        pc := .loop, tid := (s.pipes pid).epoch * batchSize + 1, last := s.nSubmitted, final :=
          true } := by
      simp [step, pipeStep, hpc]
    refine not_waits_of_step hstep fun hsame => final_not_waits (h.move hstep hsame ?_) ?_ ?_
    · simp [State.setPipe, Pipe.inBatch]
    · simp [State.setPipe]
    · simp [State.setPipe]
  rcases hpc with hpc | hpc
  · have hstep : step K (.pipe pid) s = s.setPipe pid { s.pipes pid with pc := .loadTasks } := by
      simp [step, pipeStep, hpc, h.stopped]
    refine not_waits_of_step hstep fun hsame => hload _ (h.move hstep hsame ?_) ?_
    · simp [State.setPipe, Pipe.inBatch, PipePc.inside]
    · simp [State.setPipe]
  · exact hload s h hpc

theorem checkpoint_not_spins (hK : Always K (Sound K)) (h : Leaving K pid s)
    (hpc : (s.pipes pid).pc = .copyRoot ∨ (s.pipes pid).pc = .cpPast ∨
    (s.pipes pid).pc = .cpVersion ∨
      (s.pipes pid).pc = .cpHandle ∨ (s.pipes pid).pc = .advance) : ¬ Spins K (.pipe pid) s := by
  have hadvance : ∀ s : State ρ μ, Leaving K pid s → (s.pipes pid).pc = .advance →
      ¬ Spins K (.pipe pid) s := by
    intro s h hpc
    obtain ⟨φ, hinv⟩ := h.inv
    exact pace_not_spins hinv h.runs hpc
  have hset : ∀ s : State ρ μ, Leaving K pid s → (s.pipes pid).pc = .copyRoot ∨
    (s.pipes pid).pc = .cpHandle →
      ¬ Spins K (.pipe pid) s := by
    intro s h hpc
    refine not_spins_of_step rfl fun hsame => hadvance _ (h.inside ?_ ?_ rfl hsame) ?_
    · rcases hpc with hpc | hpc <;> simp [hpc, PipePc.inside]
    · rcases hpc with hpc | hpc <;> simp [hpc]
    · rcases hpc with hpc | hpc <;> simp [step, pipeStep, hpc, State.setPipe]
  have hversion : ∀ s : State ρ μ, Leaving K pid s → (s.pipes pid).pc = .cpVersion →
      ¬ Spins K (.pipe pid) s := by
    have hfresh : ∀ s : State ρ μ, Leaving K pid s → (s.pipes pid).pc = .cpVersion →
        K.ver (s.ctx (s.pipes pid).tid).tPast ≤ (s.ctx (s.pipes pid).tid).cno →
          ¬ Spins K (.pipe pid) s := by
      intro s h hpc hcno
      have hstep : step K (.pipe pid) s = s.setPipe pid { s.pipes pid with pc := .cpHandle } := by
        simp [step, pipeStep, hpc, not_lt.mpr hcno]
      refine not_spins_of_step hstep fun hsame =>
        hset _ (h.inside ?_ ?_ hstep hsame) (.inr (by simp [State.setPipe]))
      · simp [hpc, PipePc.inside]
      · simp [hpc]
    intro s h hpc
    obtain ⟨φ, hinv⟩ := h.inv
    have hknows := hinv.slots.pipes pid h.runs
    simp only [Pipe.Knows, hpc] at hknows
    have hver : K.ver (s.ctx (s.pipes pid).tid).tPast ≤ s.nCommitted := by
      rw [h.all]
      exact (Nat.mod_le _ _).trans (hknows.2 hK).2
    by_cases hcno : (s.ctx (s.pipes pid).tid).cno < K.ver (s.ctx (s.pipes pid).tid).tPast
    · have hstep : step K (.pipe pid) s = s.loadCno (s.pipes pid).tid := by
        simp [step, pipeStep, hpc, hcno]
      have hbound : s.nCommitted < 2 ^ 32 := h.all.trans_lt h.bounded
      refine not_spins_of_step hstep fun hsame => hfresh _ (h.inside ?_ ?_ hstep hsame) hpc ?_
      · simp [hpc, PipePc.inside]
      · simp [hpc]
      · change K.ver ((s.loadCno (s.pipes pid).tid).ctx (s.pipes pid).tid).tPast ≤
          ((s.loadCno (s.pipes pid).tid).ctx (s.pipes pid).tid).cno
        rw [loadCno_ctx hbound]
        exact hver
    · exact hfresh s h hpc (not_lt.mp hcno)
  rcases hpc with hpc | hpc | hpc | hpc | hpc
  · exact hset s h (.inl hpc)
  · refine not_spins_of_step rfl fun hsame => hversion _ (h.inside ?_ ?_ rfl hsame) ?_
    · simp [hpc, PipePc.inside]
    · simp [hpc]
    · simp [step, pipeStep, hpc, State.setPipe]
  · exact hversion s h hpc
  · exact hset s h (.inr hpc)
  · exact hadvance s h hpc

theorem Leaving.done (h : Leaving K pid s) (hwaited : (s.pipes pid).pc.waited = true) :
    (s.ctx (s.pipes pid).tid).op = Operand.done := by
  obtain ⟨φ, hinv⟩ := h.inv
  have hcontent := hinv.pipe_content h.runs hwaited
  rw [hinv.phase_bubble h.past] at hcontent
  exact hcontent.2

theorem bubble_not_spins (hK : Always K (Sound K)) (h : Leaving K pid s) (hexit : pid ≠ K.nPipes)
    (hpc : (s.pipes pid).pc = .start) : ¬ Spins K (.pipe pid) s := by
  have hdone := h.done (by simp [hpc, PipePc.waited])
  have hstep : step K (.pipe pid) s = s.setPipe pid (pipeStart K s pid (s.pipes pid)) := by
    simp only [step, pipeStep, hpc]
  refine not_spins_of_step hstep fun hsame =>
    checkpoint_not_spins hK (h.inside ?_ ?_ hstep hsame) ?_
  · simp [hpc, PipePc.inside]
  · simp [hpc]
  · simp only [State.setPipe, Function.update_self, pipeStart, if_neg hexit]
    split
    · split
      · split
        · simp
        · simp
      · simp [hdone, Operand.init, Operand.done]
    · simp [hdone]

theorem Leaving.handed (h : Leaving K pid s) (hpc : (s.pipes pid).pc = .wait) :
    (s.pipes pid).tid ≤ s.paces pid := by
  obtain ⟨φ, hinv⟩ := h.inv
  have hordered : (s.pipes pid).Ordered (s.paces pid) s.stop := hinv.order.pipes pid h.runs
  have hround := hordered.round (.inl hpc)
  have hfinal : (s.pipes pid).final = false := by
    by_contra hfinal
    have hlast := ((batched_of_reachable h.reached pid h.runs).final (by simpa using hfinal)).1
    have hpast := h.past
    omega
  exact hround.trans (h.enough (by simp [Pipe.inBatch, hfinal, hpc, PipePc.inside]))

theorem round_not_waits (hK : Always K (Sound K)) {last tid : Nat}
    (hnext : ∀ s : State ρ μ, Leaving K pid s → (s.pipes pid).pc = .loop →
    (s.pipes pid).last = last →
      (s.pipes pid).tid = tid + 1 → ¬ Waits K (.pipe pid) s)
    (h : Leaving K pid s) (hlast : (s.pipes pid).last = last) (htid : (s.pipes pid).tid = tid)
    (hpc : (s.pipes pid).pc = .wait ∨ (s.pipes pid).pc = .start ∨ (s.pipes pid).pc = .markDone) :
    ¬ Waits K (.pipe pid) s := by
  have hdone : ∀ s : State ρ μ, Leaving K pid s → (s.pipes pid).last = last →
    (s.pipes pid).tid = tid →
      (s.pipes pid).pc = .markDone → ¬ Waits K (.pipe pid) s := by
    intro s h hlast htid hpc
    refine not_waits_of_step rfl fun hsame => hnext _ (h.inside ?_ ?_ rfl hsame) ?_ ?_ ?_
    · simp [hpc, PipePc.inside]
    · simp [hpc]
    · simp [step, pipeStep, hpc, State.setPipe]
    · simp [step, pipeStep, hpc, State.setPipe, hlast]
    · simp [step, pipeStep, hpc, State.setPipe, htid]
  have hstart : ∀ s : State ρ μ, Leaving K pid s → (s.pipes pid).last = last →
    (s.pipes pid).tid = tid →
      (s.pipes pid).pc = .start → ¬ Waits K (.pipe pid) s := by
    intro s h hlast htid hpc
    by_cases hexit : pid = K.nPipes
    · have hop := h.done (by simp [hpc, PipePc.waited])
      have hpos : pid ≠ 0 := by
        have := K.nPipes_pos
        omega
      have hstep : step K (.pipe pid) s = s.setPipe pid { s.pipes pid with pc := .markDone } := by
        simp only [step, pipeStep, hpc, pipeStart, if_neg hpos, if_pos hexit, hop, ne_eq,
          not_true_eq_false,
          if_false]
      refine not_waits_of_step hstep fun hsame => hdone _ (h.inside ?_ ?_ hstep hsame) ?_ ?_ ?_
      · simp [hpc, PipePc.inside]
      · simp [hpc]
      · simp [State.setPipe, hlast]
      · simp [State.setPipe, htid]
      · simp [State.setPipe]
    · exact not_waits_of_not_spins (bubble_not_spins hK h hexit hpc)
  have hwaited : ∀ s : State ρ μ, Leaving K pid s → (s.pipes pid).last = last →
    (s.pipes pid).tid = tid →
      (s.pipes pid).pc = .wait → (s.pipes pid).tid ≤ (s.pipes pid).cache →
        ¬ Waits K (.pipe pid) s := by
    intro s h hlast htid hpc hcache
    have hstep : step K (.pipe pid) s = s.setPipe pid { s.pipes pid with pc := .start } := by
      simp [step, pipeStep, hpc, not_lt.mpr hcache]
    refine not_waits_of_step hstep fun hsame => hstart _ (h.inside ?_ ?_ hstep hsame) ?_ ?_ ?_
    · simp [hpc, PipePc.inside]
    · simp [hpc]
    · simp [State.setPipe, hlast]
    · simp [State.setPipe, htid]
    · simp [State.setPipe]
  rcases hpc with hpc | hpc | hpc
  · have hhanded := h.handed hpc
    by_cases hcache : (s.pipes pid).cache < (s.pipes pid).tid
    · have hstep : step K (.pipe pid) s =
          s.setPipe pid { s.pipes pid with cache := s.paces pid } := by
        simp [step, pipeStep, hpc, hcache]
      refine not_waits_of_step hstep fun hsame => hwaited _ (h.inside ?_ ?_ hstep hsame) ?_ ?_ ?_ ?_
      · simp [hpc, PipePc.inside]
      · simp [hpc]
      · simp [State.setPipe, hlast]
      · simp [State.setPipe, htid]
      · simp [State.setPipe, hpc]
      · simpa [State.setPipe] using hhanded
    · exact hwaited s h hlast htid hpc (not_lt.mp hcache)
  · exact hstart s h hlast htid hpc
  · exact hdone s h hlast htid hpc

theorem loop_not_waits (hK : Always K (Sound K)) (h : Leaving K pid s)
    (hpc : (s.pipes pid).pc = .loop) :
    ¬ Waits K (.pipe pid) s := by
  -- on the tids that the batch has left
  induction hleft : (s.pipes pid).last + 1 -
    (s.pipes pid).tid using Nat.strong_induction_on generalizing s with
  | _ left ih =>
      by_cases hmore : (s.pipes pid).tid ≤ (s.pipes pid).last
      · have hstep : step K (.pipe pid) s = s.setPipe pid { s.pipes pid with pc := .wait } := by
          simp [step, pipeStep, hpc, hmore]
        refine not_waits_of_step hstep fun hsame => round_not_waits hK ?_
          (h.move hstep hsame ?_) rfl rfl ?_
        · intro t ht hpc' hlast htid
          refine ih _ ?_ ht hpc' rfl
          simp only [State.setPipe, Function.update_self] at hlast htid
          omega
        · intro hbatch
          have hbatch' : (s.pipes pid).inBatch = true := by
            simpa [State.setPipe, Pipe.inBatch, PipePc.inside, hpc] using hbatch
          simpa [State.setPipe] using h.enough hbatch'
        · simp [State.setPipe]
      · cases hfinal : (s.pipes pid).final with
        | true => exact final_not_waits h hpc hfinal
        | false =>
            have hstep : step K (.pipe pid) s =
                s.setPipe pid { s.pipes pid with pc := .testStop, epoch := (s.pipes pid).epoch + 1 } := by
              simp [step, pipeStep, hpc, hmore, hfinal]
            refine not_waits_of_step hstep fun hsame => bound_not_waits (h.move hstep hsame ?_) ?_
            · simp [State.setPipe, Pipe.inBatch, PipePc.inside]
            · simp [State.setPipe]

theorem leaving_not_waits (hK : Always K (Sound K)) (h : Leaving K pid s)
    (hpc : (s.pipes pid).pc ≠ .finished) : ¬ Waits K (.pipe pid) s := by
  have hpast := h.past
  obtain ⟨φ, hinv⟩ := h.inv
  have hknows := hinv.slots.pipes pid h.runs
  cases hpc' : (s.pipes pid).pc with
  | testStop => exact bound_not_waits h (.inl hpc')
  | loadTasks => exact bound_not_waits h (.inr hpc')
  | loop => exact loop_not_waits hK h hpc'
  | wait | start | markDone =>
      exact round_not_waits hK (fun _ h hpc _ _ => loop_not_waits hK h hpc) h rfl rfl
        (by simp [hpc'])
  | copyRoot | cpPast | cpVersion | cpHandle | advance =>
      exact not_waits_of_not_spins (checkpoint_not_spins hK h (by simp [hpc']))
  | readPast | init | retry | version | handle | pop | assign =>
      simp only [Pipe.Knows, hpc'] at hknows
      omega
  | finished => exact absurd hpc' hpc

end Pipes

section Bubbles

variable {s' : State ρ μ} {p p' : Pipe}

theorem setPace_setPace (s : State ρ μ) (pid m n : Nat) :
    (s.setPace pid m).setPace pid n = s.setPace pid n := by
  simp only [State.setPace, Function.update_idem]

theorem lined_of_running (hstop : s.stop = false) : Lined K (.thread θ) s := by
  cases θ with
  | pipe pid =>
      intro _ _ hset
      simp [hstop] at hset
  | client | monitor | worker | destructor => trivial

theorem iterate_stop (θ : Thread) (n : Nat) : ((step K θ)^[n] s).stop = s.stop := by
  induction n with
  | zero => rfl
  | succ n ih => rw [Function.iterate_succ_apply', step_stop, ih]

theorem lined_pipeStep (hpid : pid ≤ K.nPipes) (hpc : p.pc ≠ .testStop)
    (hs : ReachableWhen (Step K) (Lined K) (initial K) (s.setPipe pid p))
    (hstep : step K (.pipe pid) (s.setPipe pid p) = s'.setPipe pid p') :
    ReachableWhen (Step K) (Lined K) (initial K) (s'.setPipe pid p') := by
  rw [← hstep]
  refine hs.next (.thread (.pipe pid)) (fun _ htest => ?_) (.thread _ _ hpid)
  exact absurd (by simpa [State.setPipe] using htest) hpc

theorem lined_wait (hpid : pid ≤ K.nPipes)
    (hs : ReachableWhen (Step K) (Lined K) (initial K) (s.setPipe pid { p with pc := .loop }))
    (hmore : p.tid ≤ p.last) :
    ReachableWhen (Step K) (Lined K) (initial K) (s.setPipe pid { p with pc := .wait }) :=
  lined_pipeStep hpid (by simp) hs (by simp [step, pipeStep, State.setPipe, hmore])

theorem lined_reload (hpid : pid ≤ K.nPipes)
    (hs : ReachableWhen (Step K) (Lined K) (initial K) (s.setPipe pid { p with pc := .wait }))
    (hcache : p.cache < p.tid) :
    ReachableWhen (Step K) (Lined K) (initial K)
      (s.setPipe pid { p with pc := .wait, cache := s.paces pid }) :=
  lined_pipeStep hpid (by simp) hs (by simp [step, pipeStep, State.setPipe, hcache])

theorem lined_bound (hpid : pid ≤ K.nPipes)
    (hs : ReachableWhen (Step K) (Lined K) (initial K) (s.setPipe pid { p with pc := .loop }))
    (hend : p.last < p.tid) (hfinal : p.final = false) :
    ReachableWhen (Step K) (Lined K) (initial K)
      (s.setPipe pid { p with pc := .testStop, epoch := p.epoch + 1 }) :=
  lined_pipeStep hpid (by simp) hs (by simp [step, pipeStep, State.setPipe, hend.not_ge, hfinal])

theorem lined_stop (hpid : pid ≤ K.nPipes)
    (hs : ReachableWhen (Step K) (Lined K) (initial K) (s.setPipe pid { p with pc := .testStop }))
    (hstop : s.stop = true) (hbehind : pid < K.nPipes → (s.pipes (pid + 1)).epoch ≠ p.epoch) :
    ReachableWhen (Step K) (Lined K) (initial K) (s.setPipe pid { p with
      pc := .loop, tid := p.epoch * batchSize + 1, last := s.nSubmitted, final := true }) := by
  have hread : step K (.pipe pid) (s.setPipe pid { p with pc := .testStop }) =
      s.setPipe pid { p with pc := .loadTasks } := by
    simp [step, pipeStep, State.setPipe, hstop]
  have hlined : Lined K (.thread (.pipe pid)) (s.setPipe pid { p with pc := .testStop }) := by
    intro hlt _ _ _ hepoch
    simp only [State.setPipe, Function.update_self, Function.update_of_ne
      (Nat.succ_ne_self pid)] at hepoch
    exact absurd hepoch (hbehind hlt)
  have hload := hs.next (.thread (.pipe pid)) hlined (.thread _ _ hpid)
  rw [hread] at hload
  exact lined_pipeStep hpid (by simp) hload (by simp [step, pipeStep, State.setPipe])

theorem lined_return (hpid : pid ≤ K.nPipes)
    (hs : ReachableWhen (Step K) (Lined K) (initial K) (s.setPipe pid { p with pc := .loop }))
    (hend : p.last < p.tid) (hfinal : p.final = true) :
    ReachableWhen (Step K) (Lined K) (initial K) (s.setPipe pid { p with pc := .finished }) :=
  lined_pipeStep hpid (by simp) hs (by simp [step, pipeStep, State.setPipe, hend.not_ge, hfinal])

theorem lined_bubble (pc : PipePc) (hpid : pid ≤ K.nPipes)
    (hs : ReachableWhen (Step K) (Lined K) (initial K) (s.setPipe pid { p with pc := .wait }))
    (hcache : p.tid ≤ p.cache) (hpc : pc ≠ .testStop)
    (hstart : step K (.pipe pid) (s.setPipe pid { p with pc := .start }) =
    s.setPipe pid { p with pc := pc })
    (hleave : step K (.pipe pid) (s.setPipe pid { p with pc := pc }) =
      s'.setPipe pid { p with pc := .loop, tid := p.tid + 1 }) :
    ReachableWhen (Step K) (Lined K) (initial K)
      (s'.setPipe pid { p with pc := .loop, tid := p.tid + 1 }) := by
  have hread : step K (.pipe pid) (s.setPipe pid { p with pc := .wait }) =
      s.setPipe pid { p with pc := .start } := by
    simp [step, pipeStep, State.setPipe, not_lt.mpr hcache]
  have hwaited := lined_pipeStep hpid (by simp) hs hread
  have hbegun := lined_pipeStep hpid (by simp) hwaited hstart
  exact lined_pipeStep hpid hpc hbegun hleave

theorem lined_entry
    (hs : ReachableWhen (Step K) (Lined K) (initial K) (s.setPipe 0 { p with pc := .wait }))
    (hcache : p.tid ≤ p.cache) (hpos : p.tid % bufferSize ≠ 0)
    (hop : (s.ctx p.tid).op = Operand.done) :
    ReachableWhen (Step K) (Lined K) (initial K)
      ((s.setPace 1 p.tid).setPipe 0 { p with pc := .loop, tid := p.tid + 1 }) := by
  have hbubble : (s.ctxs (p.tid % bufferSize)).op ≠ Operand.init := by
    change (s.ctx p.tid).op ≠ Operand.init
    rw [hop]
    decide
  refine lined_bubble .advance (Nat.zero_le _) hs hcache (by simp) ?_ ?_
  · simp [step, pipeStep, State.setPipe, pipeStart, State.ctx, hpos, hbubble]
  · simp [step, pipeStep, State.setPipe, State.setPace]

theorem lined_exit
    (hs : ReachableWhen (Step K) (Lined K) (initial K) (s.setPipe K.nPipes { p with pc := .wait }))
    (hcache : p.tid ≤ p.cache) (hop : (s.ctx p.tid).op = Operand.done)
    (hstages : s.stages = fun _ => ⊤) :
    ReachableWhen (Step K) (Lined K) (initial K)
      (s.setPipe K.nPipes { p with pc := .loop, tid := p.tid + 1 }) := by
  have hpos : K.nPipes ≠ 0 := Nat.ne_of_gt K.nPipes_pos
  have hbubble : (s.ctxs (p.tid % bufferSize)).op = Operand.done := hop
  have hstage : Function.update s.stages (p.tid % bufferSize) ⊤ = s.stages := by
    rw [Function.update_eq_self_iff, hstages]
  refine lined_bubble .markDone le_rfl hs hcache (by simp) ?_ ?_
  · simp [step, pipeStep, State.setPipe, pipeStart, State.ctx, hpos, hbubble]
  · simp [step, pipeStep, State.setPipe, State.setStage, hstage]

theorem lined_entry_batch {tid : Nat} (hop : ∀ tid, (s.ctx tid).op = Operand.done)
    (hs : ReachableWhen (Step K) (Lined K) (initial K)
      ((s.setPace 1 tid).setPipe 0 { p with pc := .loop, tid := tid + 1 })) (n : Nat)
    (hcache : tid + n ≤ p.cache) (hlast : tid + n ≤ p.last) (hring : p.last < bufferSize) :
    ReachableWhen (Step K) (Lined K) (initial K)
      ((s.setPace 1 (tid + n)).setPipe 0 { p with pc := .loop, tid := tid + n + 1 }) := by
  induction n with
  | zero => exact hs
  | succ n ih =>
      have hpos : (tid + n + 1) % bufferSize ≠ 0 := by
        rw [Nat.mod_eq_of_lt (by omega)]
        omega
      have hwait := lined_wait (p := { p with tid := tid + n + 1 }) (Nat.zero_le _)
        (ih (by omega) (by omega)) hlast
      have hnext := lined_entry hwait hcache hpos (hop _)
      rwa [setPace_setPace] at hnext

theorem lined_exit_batch (hop : ∀ tid, (s.ctx tid).op = Operand.done)
    (hstages : s.stages = fun _ => ⊤)
    (hs : ReachableWhen (Step K) (Lined K) (initial K) (s.setPipe K.nPipes { p with pc := .loop }))
    (n : Nat) (hcache : p.tid + n ≤ p.cache + 1) (hlast : p.tid + n ≤ p.last + 1) :
    ReachableWhen (Step K) (Lined K) (initial K)
      (s.setPipe K.nPipes { p with pc := .loop, tid := p.tid + n }) := by
  induction n with
  | zero => exact hs
  | succ n ih =>
      have hmore : p.tid + n ≤ p.last := by omega
      have hread : p.tid + n ≤ p.cache := by omega
      have hwait :=
        lined_wait (p := { p with tid := p.tid + n }) le_rfl (ih (by omega) (by omega)) hmore
      exact lined_exit hwait hread (hop _) hstages

end Bubbles

section Shutdown

/-- The first pipe that has not returned has the tids that its batch needs. -/
theorem Settled.leaving (h : Settled K s) (hmonitor : s.monitor.pc = .finished)
    (hhanded : Handed K s)
    (hpid : pid ≤ K.nPipes) (hfirst : ∀ q < pid, (s.pipes q).pc = .finished) : Leaving K pid s := by
  refine ⟨h, hpid, fun hbatch => ?_⟩
  have hbatched := batched_of_reachable h.reached
  obtain ⟨φ, hinv⟩ := h.inv
  have hordered : (s.pipes pid).Ordered (s.paces pid) s.stop := hinv.order.pipes pid hpid
  simp only [Pipe.inBatch, Bool.and_eq_true, Bool.not_eq_true'] at hbatch
  obtain ⟨hfinal, hinside⟩ := hbatch
  have hlast := (hordered.batch hfinal (by rintro heq; simp [heq, PipePc.inside] at hinside)
    (by rintro heq; simp [heq, PipePc.inside] at hinside)).1
  rw [hlast]
  cases pid with
  | zero =>
      have hm : s.monitor.Ordered s.nCommitted s.nSubmitted (s.paces 0) s.stop := hinv.order.monitor
      have hmargin := (hm.bubbles hmonitor).1
      have hinited := (h.scanned (by simp [hmonitor])).2.1
      have hbatch := (hbatched 0 hpid).batch (by simp [Pipe.inBatch, hfinal, hinside])
      rw [Nat.succ_mul]
      omega
  | succ q =>
      have hq := hfirst q (Nat.lt_succ_self q)
      have hpace : s.paces (q + 1) + 1 = (s.pipes q).tid := hinv.order.paces q hpid
      obtain ⟨hstopping, hround⟩ := (hbatched q (Nat.le_of_succ_le hpid)).finished hq
      have hsubmitted := ((hbatched q (Nat.le_of_succ_le hpid)).final hstopping).1
      have hbegun := (hbatched q (Nat.le_of_succ_le hpid)).begun
      have hneeds := hhanded q hpid (.inl hstopping) (by simp [Pipe.inBatch, hfinal, hinside])
      refine hneeds.trans (max_le ?_ ?_)
      · omega
      · omega

/-- In a run in which the pipes stay lined up the shutdown gets on: as long as
some pipe has not returned, there is a thread that does not wait forever. -/
theorem shutdown_not_stuck {ρ μ : Type} (K : Config ρ μ) (hK : Always K (Sound K)) (s : State ρ μ)
    (hs : ReachableWhen (Step K) (Lined K) (initial K) s) (hissued : s.nSubmitted < 2 ^ 32)
    (hstop : s.stop = true) (hpipes : ∃ pid ≤ K.nPipes, (s.pipes pid).pc ≠ .finished) :
    ∃ θ : Thread, θ.Runs K ∧ ¬ Returned s θ ∧ ¬ Waits K θ s := by
  have hreached := hs.reachable
  obtain ⟨φ, hinv⟩ := inv_of_reachable hreached
  by_cases hpending : s.nCommitted < s.nSubmitted
  · obtain ⟨θ, hθ, hspins⟩ := no_deadlock K hK s hreached hissued hpending
    exact ⟨θ, hθ, not_returned_of_not_spins hspins, not_waits_of_not_spins hspins⟩
  · have hm : s.monitor.Ordered s.nCommitted s.nSubmitted (s.paces 0) s.stop := hinv.order.monitor
    have hcommitted : s.nCommitted ≤ s.nSubmitted :=
      hm.committed.trans
        (hm.ended.trans (hm.endedInited.trans (hm.inited.trans (hm.initedLoaded.trans hm.loaded))))
    have hsettled : Settled K s :=
      ⟨hreached, hstop, hissued, le_antisymm hcommitted (not_lt.mp hpending)⟩
    by_cases hmonitor : s.monitor.pc = .finished
    · obtain ⟨hpid, hpc⟩ := Nat.find_spec hpipes
      refine ⟨.pipe (Nat.find hpipes), hpid, hpc, leaving_not_waits hK ?_ hpc⟩
      refine hsettled.leaving hmonitor (handed_of_reachable hs) hpid fun q hq => ?_
      by_contra hpc'
      exact Nat.find_min hpipes hq ⟨hq.le.trans hpid, hpc'⟩
    · have hspins := closing_not_spins hsettled hmonitor
      exact ⟨.monitor, trivial, hmonitor, not_waits_of_not_spins hspins⟩

abbrev onePipe : Config Unit Unit := sampleConfig endsAtOnce

/-- An update is through, and both pipes are inside of their first batch. -/
def bothInside : State Unit Unit := (step onePipe (.pipe 1))^[6] (scheduled onePipe 8 6 9)

theorem bothInside_reachable :
    ReachableWhen (Step onePipe) (Lined onePipe) (initial onePipe) bothInside := by
  have hupdate : ReachableWhen (Step onePipe) (Lined onePipe) (initial onePipe)
      ((initial onePipe).setClient 0 (.fetch 1 2)) :=
    ReachableWhen.start.next (.update 0 1 2) trivial (.update _ 0 1 2 rfl rfl)
  have hclient := reachableWhen_iterate hupdate (.client 0) trivial (fun _ => trivial) 8
  have hmonitor := reachableWhen_iterate hclient .monitor trivial (fun _ => trivial) 6
  have hentry := reachableWhen_iterate hmonitor (.pipe 0) (Nat.zero_le _)
    (fun n => lined_of_running (iterate_stop _ n)) 9
  exact reachableWhen_iterate hentry (.pipe 1) le_rfl
    (fun n => lined_of_running (iterate_stop _ n)) 6

theorem bothInside_clients (c : Nat) : bothInside.clients c = .idle := by
  cases c with
  | zero => rfl
  | succ c => rfl

def closing : State Unit Unit :=
  (step onePipe .monitor)^[14] { bothInside with stop := true, destructor := .joinMonitor }

theorem closing_reachable :
    ReachableWhen (Step onePipe) (Lined onePipe) (initial onePipe) closing := by
  have hdestroy :=
    bothInside_reachable.next .destroy trivial (.destroy bothInside bothInside_clients rfl)
  exact reachableWhen_iterate hdestroy .monitor trivial (fun _ => trivial) 14

theorem closing_op (tid : Nat) : (closing.ctx tid).op = Operand.done := by
  rw [State.ctx]
  by_cases h : tid % bufferSize = 1
  · rw [h]
    rfl
  · have hctx : closing.ctxs (tid % bufferSize) = initialContext onePipe (tid % bufferSize) := by
      change Function.update (Function.update (Function.update (Function.update (Function.update
        (Function.update
          (Function.update (initialContext onePipe) 1 _) 1 _) 1 _) 1 _) 1 _) 1 _) 1 _ _ = _
      simp only [Function.update_of_ne h]
    rw [hctx, initialContext]

theorem closing_stages : closing.stages = fun _ => ⊤ := by
  funext slot
  by_cases h : slot = 1
  · subst h
    rfl
  · change Function.update (Function.update (fun _ => (⊤ : Word)) 1 _) 1 _ slot = _
    simp only [Function.update_of_ne h]

/-- The entry pipe has gone through the bubbles of its batch, read `stop_` with
the exit pipe a batch behind, and returned. -/
def entryReturned : State Unit Unit :=
  (closing.setPace 1 batchSize).setPipe 0 ⟨.finished, 1, batchSize + 1, 1, 2 * batchSize, 0, true⟩

theorem entryReturned_reachable :
    ReachableWhen (Step onePipe) (Lined onePipe) (initial onePipe) entryReturned := by
  have hpipe : closing.pipes 0 = ⟨.loop, 0, 2, batchSize, 1, 0, false⟩ := rfl
  have hpace : closing.paces 0 = 2 * batchSize := rfl
  have hinside : closing = closing.setPipe 0 ⟨.loop, 0, 2, batchSize, 1, 0, false⟩ := by
    rw [State.setPipe, ← hpipe, Function.update_eq_self]
  have hs := closing_reachable
  rw [hinside] at hs
  have hwait := lined_wait (p := ⟨.loop, 0, 2, batchSize, 1, 0, false⟩) (Nat.zero_le _) hs
    (by decide)
  have hload := lined_reload (p := ⟨.loop, 0, 2, batchSize, 1, 0, false⟩) (Nat.zero_le _) hwait
    (by decide)
  rw [hpace] at hload
  have hfirst := lined_entry (p := ⟨.loop, 0, 2, batchSize, 2 * batchSize, 0, false⟩) hload
    (by decide) (by decide)
    (closing_op 2)
  have hbatch :=
    lined_entry_batch (p := ⟨.loop, 0, 2, batchSize, 2 * batchSize, 0, false⟩) closing_op hfirst
    (batchSize - 2) (by decide) (by decide) (by decide)
  have hbound := lined_bound (p := ⟨.loop, 0, batchSize + 1, batchSize, 2 * batchSize, 0, false⟩)
    (Nat.zero_le _)
    hbatch (by decide) rfl
  have hstop := lined_stop (p := ⟨.loop, 1, batchSize + 1, batchSize, 2 * batchSize, 0, false⟩)
    (Nat.zero_le _)
    hbound rfl (fun _ => by decide)
  exact lined_return (p := ⟨.loop, 1, batchSize + 1, 1, 2 * batchSize, 0, true⟩)
    (Nat.zero_le _) hstop (by decide) rfl

def lastRound : State Unit Unit :=
  entryReturned.setPipe 1 ⟨.loop, 1, batchSize + 1, 1, batchSize, 0, true⟩

theorem lastRound_reachable :
    ReachableWhen (Step onePipe) (Lined onePipe) (initial onePipe) lastRound := by
  have hpipe : entryReturned.pipes 1 = ⟨.loop, 0, 2, batchSize, 1, 0, false⟩ := rfl
  have hpace : entryReturned.paces onePipe.nPipes = batchSize := rfl
  have hinside : entryReturned = entryReturned.setPipe 1 ⟨.loop, 0, 2, batchSize, 1, 0, false⟩ := by
    rw [State.setPipe, ← hpipe, Function.update_eq_self]
  have hop : ∀ tid, (entryReturned.ctx tid).op = Operand.done := by
    simpa only [entryReturned, State.ctx, State.setPipe, State.setPace] using closing_op
  have hstages : entryReturned.stages = fun _ => ⊤ := by
    simpa only [entryReturned, State.setPipe, State.setPace] using closing_stages
  have hs := entryReturned_reachable
  rw [hinside] at hs
  have hwait := lined_wait (p := ⟨.loop, 0, 2, batchSize, 1, 0, false⟩) le_rfl hs (by decide)
  have hload := lined_reload (p := ⟨.loop, 0, 2, batchSize, 1, 0, false⟩) le_rfl hwait (by decide)
  rw [hpace] at hload
  have hfirst := lined_exit (p := ⟨.loop, 0, 2, batchSize, batchSize, 0, false⟩) hload (by decide)
    (hop 2) hstages
  have hbatch := lined_exit_batch (p := ⟨.loop, 0, 3, batchSize, batchSize, 0, false⟩) hop hstages
    hfirst (batchSize - 2) (by decide) (by decide)
  have hbound :=
    lined_bound (p := ⟨.loop, 0, batchSize + 1, batchSize, batchSize, 0, false⟩) le_rfl hbatch
    (by decide) rfl
  exact lined_stop (p := ⟨.loop, 1, batchSize + 1, batchSize, batchSize, 0,
    false⟩) le_rfl hbound rfl
    (fun h => absurd h (Nat.lt_irrefl 1))

theorem shutdown_not_stuck_lastRound : (lastRound.nSubmitted = 1 ∧ lastRound.nCommitted = 1) ∧
    (lastRound.pipes 0).pc = .finished ∧ ∃ θ : Thread, θ.Runs onePipe ∧ ¬ Returned lastRound θ ∧ ¬ Waits onePipe θ lastRound :=
  ⟨⟨rfl, rfl⟩, rfl, shutdown_not_stuck onePipe endsAtOnce_always lastRound lastRound_reachable
    (by decide) rfl
    ⟨1, le_rfl, by decide⟩⟩

/-- The exit pipe starts its first batch, the destructor is called, and the
entry pipe and the monitor return; there are no updates. -/
def hung : State Unit Unit :=
  let K := sampleConfig endsAtOnce
  let s := (step K (.pipe 1))^[3] (initial K)
  (step K .destructor)^[2] ((step K .monitor)^[9] ((step K (.pipe 0))^[3]
    { s with stop := true, destructor := .joinMonitor }))

theorem hung_reachable :
    Reachable (Step (sampleConfig endsAtOnce)) (initial (sampleConfig endsAtOnce)) hung := by
  have hstart : Reachable (Step (sampleConfig endsAtOnce)) (initial (sampleConfig endsAtOnce))
      (initial (sampleConfig endsAtOnce)) := Reachable.start
  have hexit := reachable_iterate hstart (.pipe 1) le_rfl 3
  have hdestroy := hexit.next .destroy (.destroy _ (fun _ => rfl) rfl)
  have hentry := reachable_iterate hdestroy (.pipe 0) (Nat.zero_le _) 3
  have hmonitor := reachable_iterate hentry .monitor trivial 9
  exact reachable_iterate hmonitor .destructor trivial 2

theorem hung_fixed (θ : Thread) (hθ : θ.Runs (sampleConfig endsAtOnce)) :
    step (sampleConfig endsAtOnce) θ hung = hung := by
  cases θ with
  | client c =>
      have hc : hung.clients c = .idle := rfl
      simp [step, clientStep, hc]
  | monitor => rfl
  | destructor => rfl
  | pipe pid =>
      have hle : pid ≤ 1 := hθ
      rcases Nat.le_one_iff_eq_zero_or_eq_one.mp hle with rfl | rfl
      · rfl
      · have hp : hung.pipes 1 = ⟨.wait, 0, 1, 4096, 0, 0, false⟩ := rfl
        have hpace : hung.paces 1 = 0 := rfl
        simp only [step, pipeStep, hp, hpace, Nat.zero_lt_one, if_true, State.setPipe]
        rw [← hp, Function.update_eq_self]
  | worker wid =>
      have hlt : wid < 1 := hθ
      obtain rfl := Nat.lt_one_iff.mp hlt
      rfl

/-- The exit pipe waits for the rest of a batch that nobody hands on. -/
theorem hung_stuck : Always (sampleConfig endsAtOnce) (Sound (sampleConfig endsAtOnce)) ∧
    Reachable (Step (sampleConfig endsAtOnce)) (initial (sampleConfig endsAtOnce)) hung ∧
      hung.stop = true ∧ hung.nSubmitted = 0 ∧
        (∃ pid ≤ (sampleConfig endsAtOnce).nPipes, (hung.pipes pid).pc ≠ .finished) ∧
          ∀ θ : Thread, θ.Runs (sampleConfig endsAtOnce) →
            Returned hung θ ∨ Waits (sampleConfig endsAtOnce) θ hung := by
  refine ⟨endsAtOnce_always, hung_reachable, rfl, rfl, ⟨1, le_rfl, by decide⟩, fun θ hθ => ?_⟩
  have hfixed := hung_fixed θ hθ
  by_cases hreturned : Returned hung θ
  · exact .inl hreturned
  · refine .inr ⟨spins_of_fixed hfixed, fun n => ?_⟩
    rwa [Function.iterate_fixed hfixed]

end Shutdown

end Contrees.Conctrl.Concow
