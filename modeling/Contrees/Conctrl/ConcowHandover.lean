import Contrees.Conctrl.ConcowCommits

namespace Contrees.Conctrl.Concow

open Library.Runs Library.TaskLedger

variable {ρ μ : Type} {K : Config ρ μ} {s s' : State ρ μ} {φ : Nat → Phase Nat Nat} {θ : Thread}
    {t u : Nat}

def WorkerPc.busy : WorkerPc → Bool
  | .waitTid | .push | .finished => false
  | _ => true

/-- The next step of a thread may read the slot of a tid, the context or its word of `stages_`. -/
def Reads (s : State ρ μ) : Thread → Nat → Prop
  | .monitor, u =>
      match s.monitor.pc with
      | .scanInited | .scanDone => u = s.monitor.next + 1
      | .checkpoint | .publishRoot => u = s.monitor.next
      | _ => False
  | .pipe pid, u => (s.pipes pid).pc.waited = true ∧
    (u = (s.pipes pid).tid ∨ u = (s.pipes pid).tid - 1)
  | .worker wid, u => (s.workers wid).pc.busy = true ∧ u = (s.workers wid).tid
  | .client _, _ | .destructor, _ => False

/-- A worker in `wait_stage` is about to look at the stage of the tid that made `t_past`. -/
def Peeks (K : Config ρ μ) (s : State ρ μ) (wid u : Nat) : Prop :=
  (s.workers wid).pc = .waitStage ∧
    (s.ctx (s.workers wid).tid).cno < K.ver (s.ctx (s.workers wid).tid).tPast ∧
      u = K.ver (s.ctx (s.workers wid).tid).tPast

theorem Peeks.of_eq {wid : Nat} (h : Peeks K s wid u) (hctxs : s'.ctxs = s.ctxs)
    (hworkers : s'.workers = s.workers) :
    Peeks K s' wid u := by
  rw [Peeks, State.ctx, hctxs, hworkers]
  exact h

theorem Inv.not_reads (h : Inv K s φ) (hθ : θ.Runs K) (hu : u < s.nCommitted) : ¬ Reads s θ u := by
  cases θ with
  | client c => exact id
  | destructor => exact id
  | monitor =>
      have hm : s.monitor.Ordered s.nCommitted s.nSubmitted (s.paces 0) s.stop := h.order.monitor
      have h1 := hm.committed
      have h2 := hm.ended
      have h3 := hm.endedInited
      have h4 := hm.inited
      unfold Reads
      cases hpc : s.monitor.pc <;> simp only [hpc, Monitor.inited, Monitor.ended] at h2 h3 h4 ⊢ <;>
        first | exact id | omega
  | pipe pid =>
      rintro ⟨-, hread⟩
      have := h.committed_lt_tid hθ
      omega
  | worker wid =>
      rintro ⟨hbusy, rfl⟩
      have htask : (s.pool K).task wid = some (s.workers wid).tid := by
        cases hpc : (s.workers wid).pc <;>
          simp_all [WorkerPc.busy, Pool.task, State.pool, Worker.task]
      have := (h.task_window htask).2.1
      omega

theorem Inv.committed_of_writes (h : Inv K s φ) (hθ : θ.Runs K) (hw : s.writes θ = some t)
    (hlt : u < t) (hslot : u % bufferSize = t % bufferSize) : u < s.nCommitted := by
  have hwindow := (h.writes_window hθ hw).2
  have hsub := Nat.sub_mod_eq_zero_of_mod_eq hslot.symm
  obtain ⟨k, hk⟩ := Nat.dvd_of_mod_eq_zero hsub
  have hpos : 0 < k := by
    by_contra hzero
    obtain rfl : k = 0 := by omega
    omega
  have := Nat.le_mul_of_pos_right bufferSize hpos
  omega

theorem nCommitted_mono (hs : Reachable (Step K) (initial K) s) (hs' : Reachable (Step K) s s') :
    s.nCommitted ≤ s'.nCommitted := by
  have key : Reachable (Step K) (initial K) s' ∧ s.nCommitted ≤ s'.nCommitted := by
    refine hs'.invariant (fun s' => Reachable (Step K) (initial K) s' ∧
      s.nCommitted ≤ s'.nCommitted)
      ⟨hs, le_rfl⟩ ?_
    rintro a u v ⟨hu, hle⟩ - ha
    obtain ⟨φ, h⟩ := inv_of_reachable hu
    refine ⟨hu.next a ha, hle.trans ?_⟩
    cases ha with
    | update | destroy => exact le_rfl
    | thread _ θ hθ => exact h.nCommitted_le θ
  exact key.2

theorem History.inOrder (h : History K s) (t : Nat) :
    (s.callsOf t).Pairwise (InOrder K.nPipes) := by
  by_cases hmod : t % bufferSize = 0
  · rw [h.bubbles t hmod]
    exact List.Pairwise.nil
  · by_cases hnew : s.entry ≤ t ∨ s.nSubmitted < t
    · rw [(h.updates t hmod).fresh hnew]
      exact List.Pairwise.nil
    · obtain ⟨hentered, hissued⟩ := not_or.mp hnew
      obtain ⟨a, htrace, -⟩ := h.called (not_le.mp hentered) (not_lt.mp hissued) hmod
      exact htrace.inOrder K.nPipes_pos

/-- Slots are handed over once, and are not taken again too early. -/
theorem slots_handed_over {ρ μ : Type} (K : Config ρ μ) (s : State ρ μ)
    (hs : Reachable (Step K) (initial K) s) :
    ((s.pipes 0).pc = .init → ∃ key val, s.passed (s.pipes 0).tid = some (key, val) ∧
        Fresh (s.pipes 0).tid key val (s.ctx (s.pipes 0).tid)) ∧
      (∀ t, (s.callsOf t).Pairwise (InOrder K.nPipes)) ∧
      (∀ t ≤ s.nCommitted, t % bufferSize ≠ 0 → ∃ a, Trace K.nPipes (s.callsOf t) a ∧ a.Ends) ∧
      ((∀ a ∈ s.calls, a.tid % bufferSize ≠ 0) ∧
        (∀ wid t, (s.pool K).task wid = some t → t % bufferSize ≠ 0) ∧
        ∀ c t key val field, s.clients c = .writing t key val field → t % bufferSize ≠ 0) ∧
      ∀ θ : Thread, θ.Runs K → ∀ t, s.writes θ = some t → ∀ u < t, u % bufferSize = t % bufferSize →
        u < s.nCommitted ∧
          ∀ s', Reachable (Step K) s s' → ∀ θ' : Thread, θ'.Runs K → ¬ Reads s' θ' u := by
  obtain ⟨φ, h⟩ := inv_of_reachable hs
  have hhistory := history_of_reachable hs
  refine ⟨fun hpc => ?_, fun t => ?_, fun t ht hmod => ?_, ⟨fun a ha hmod => ?_, fun wid t ht => ?_,
    h.slots.writing⟩, fun θ hθ t hw u hlt hslot => ?_⟩
  · have hknows := h.slots.pipes 0 (Nat.zero_le _)
    simp only [Pipe.Knows, hpc] at hknows
    have hcontent := h.pipe_content (Nat.zero_le _) (by rw [hpc]; rfl)
    rw [h.phase_filled (by rw [hpc]; rfl) (by rw [hpc]; rfl) hknows.2] at hcontent
    exact hcontent.2 hknows.1
  · exact hhistory.inOrder t
  · exact (finished_of_le hs (ht.trans h.rootTid_window.1)).update hmod
  · have hmem : a ∈ s.callsOf a.tid := List.mem_filter.mpr ⟨ha, by simp⟩
    rw [hhistory.bubbles _ hmod] at hmem
    exact List.not_mem_nil hmem
  · obtain ⟨hφ, hC, -, hlt⟩ := h.task_window ht
    have hcontent := h.content hC hlt.le
    rw [hφ] at hcontent
    exact hcontent.2.1
  · have hcommitted := h.committed_of_writes hθ hw hlt hslot
    refine ⟨hcommitted, fun s' hs' θ' hθ' => ?_⟩
    obtain ⟨φ', h'⟩ := inv_of_reachable (reachable_trans hs hs')
    exact h'.not_reads hθ' (hcommitted.trans_le (nCommitted_mono hs hs'))

theorem slots_handed_over_sample :
    (∃ key val, (twoUpdates [(.monitor, 8), (.pipe 0, 13)]).passed 2 = some (key, val) ∧
        Fresh 2 key val ((twoUpdates [(.monitor, 8), (.pipe 0, 13)]).ctx 2)) ∧
      ((bothCommitted.callsOf 2).map fun a => (a.thread, a.stage)) = [(.pipe 0, 0), (.worker 0, 1)] ∧
      (bothCommitted.callsOf 2).Pairwise (InOrder 1) ∧
      (∃ a, Trace 1 (bothCommitted.callsOf 1) a ∧ a.Ends) ∧
      ∃ a, Trace 1 (bothCommitted.callsOf 2) a ∧ a.Ends :=
  have hinit :=
    slots_handed_over (sampleConfig endsAtSecond) (twoUpdates [(.monitor, 8), (.pipe 0, 13)])
    (twoUpdates_reachable (by simp [Thread.Runs, sampleConfig]))
  have hcommitted :=
    slots_handed_over (sampleConfig endsAtSecond) bothCommitted bothCommitted_reachable
  ⟨hinit.1 (by decide +kernel), by decide +kernel, hcommitted.2.1 2,
    hcommitted.2.2.1 1 (by decide +kernel) (by decide),
      hcommitted.2.2.1 2 (by decide +kernel) (by decide)⟩

section Samples

theorem fetch_reachable {ρ μ : Type} {K : Config ρ μ} {s : State ρ μ}
    (hs : Reachable (Step K) (initial K) s) {c : Nat}
    (hc : s.clients c = .idle) (hd : s.destructor = .idle) :
    Reachable (Step K) (initial K) (fetchTid (s.setClient c (.fetch 1 2)) c 1 2) := by
  have hfetch := (hs.next (.update c 1 2) (.update _ c 1 2 hc hd)).next (.thread (.client c))
    (.thread _ _ trivial)
  simpa [step, clientStep, State.setClient] using hfetch

theorem reachable_fetches {ρ μ : Type} {K : Config ρ μ} {s : State ρ μ}
    (hs : Reachable (Step K) (initial K) s)
    (hd : s.destructor = .idle) {m : Nat} (hidle : ∀ c, m ≤ c → s.clients c = .idle) (n : Nat) :
    ∃ t, Reachable (Step K) (initial K) t ∧ t.nSubmitted = n + s.nSubmitted ∧
    (∀ c, m + n ≤ c → t.clients c = .idle) ∧
      t = { s with nSubmitted := t.nSubmitted, clients := t.clients, passed := t.passed } := by
  induction n with
  | zero => exact ⟨s, hs, (Nat.zero_add _).symm, hidle, rfl⟩
  | succ n ih =>
      obtain ⟨t, ht, hsubmitted, hclients, hsame⟩ := ih
      have hdt : t.destructor = .idle := by rw [hsame]; exact hd
      refine ⟨_, fetch_reachable ht (hclients (m + n) le_rfl) hdt, ?_, fun c hc => ?_, ?_⟩
      · change 1 + t.nSubmitted = _
        omega
      · have hne : c ≠ m + n := by omega
        simp only [fetchTid, State.setClient, Function.update_of_ne hne]
        exact hclients c (by omega)
      · rw [hsame]
        rfl

theorem reachable_write {ρ μ : Type} {K : Config ρ μ} {s : State ρ μ}
    (hs : Reachable (Step K) (initial K) s)
    (hd : s.destructor = .idle) {m : Nat} (hidle : ∀ c, m ≤ c → s.clients c = .idle)
    (hsubmitted : s.nSubmitted ≤ bufferSize) (hcommitted : 1 < s.nCommitted) :
    ∃ t c, Reachable (Step K) (initial K) t ∧ t.nSubmitted = 1 + bufferSize ∧
      t.writes (.client c) = some (1 + bufferSize) ∧
        t.calls = s.calls ∧ t.ctxs = s.ctxs ∧ t.workers = s.workers := by
  obtain ⟨t, ht, hlast, hclients, hsame⟩ :=
    reachable_fetches hs hd hidle (bufferSize - s.nSubmitted)
  generalize m + (bufferSize - s.nSubmitted) = c at hclients
  rw [Nat.sub_add_cancel hsubmitted] at hlast
  have hroom : ¬ t.nCommitted + bufferSize ≤ 1 + bufferSize := by
    have hsame' : t.nCommitted = s.nCommitted := by rw [hsame]
    omega
  have hmod : (1 + bufferSize) % bufferSize ≠ 0 := by decide
  have hfetch := fetch_reachable ht (hclients c le_rfl) (by rw [hsame]; exact hd)
  have hwriting : clientStep c (fetchTid (t.setClient c (.fetch 1 2)) c 1 2) =
      (fetchTid (t.setClient c (.fetch 1 2)) c 1 2).setClient c
        (.writing (1 + bufferSize) 1 2 .op) := by
    have hc : (fetchTid (t.setClient c (.fetch 1 2)) c 1 2).clients c =
        .waiting (1 + bufferSize) 1 2 := by
      simp [fetchTid, State.setClient, hlast]
    simp only [clientStep, hc]
    exact (if_neg hroom).trans (if_pos hmod)
  have hwrite := hfetch.next (.thread (.client c)) (.thread _ _ trivial)
  rw [step, hwriting] at hwrite
  refine ⟨_, c, hwrite, congrArg (1 + ·) hlast, ?_, ?_⟩
  · simp [State.writes, State.setClient, Client.hasRoom, Client.tid]
  · rw [hsame]
    exact ⟨rfl, rfl, rfl⟩

/-- Handlers that call tid 2 again, and send tid 3 to a worker with a node of tid 1. -/
def looksBack (op : Nat) (ctx : Context Nat) (mem : Unit) : Result Nat × Unit :=
  if op = Operand.init ∧ ctx.sno = 2 then
    (⟨0x1, true, false, false, false, ctx.root, ctx.tCur, ctx.tPast⟩, mem)
  else if op = Operand.init ∧ ctx.sno = 3 then
    (⟨0x1, false, false, false, false, ctx.root, ctx.tCur, some 1⟩, mem)
  else (⟨Operand.done, false, false, false, false, ctx.root, ctx.tCur, ctx.tPast⟩, mem)

def nodeConfig : Config Nat Unit where
  handlers := looksBack
  checkpointHandler := fun ctx mem => (ctx.root, mem)
  creator := fun node => node
  nPipes := 1
  nWorkers := 1
  tInit := 0
  mem := ()
  nPipes_pos := Nat.le_refl 1
  nWorkers_pos := Nat.le_refl 1

def submitted : State Nat Unit :=
  submit nodeConfig 2 1 2 (submit nodeConfig 1 1 2 (submit nodeConfig 0 1 2 (initial nodeConfig)))

/-- Two tids are committed, and the worker that has the third is in `wait_stage`. -/
def looking : State Nat Unit :=
  let K := nodeConfig
  (step K .monitor)^[7] ((step K (.worker 0))^[2] ((step K (.pipe 1))^[20]
    ((step K (.pipe 0))^[25] ((step K .monitor)^[8] submitted))))

theorem looking_reachable : Reachable (Step nodeConfig) (initial nodeConfig) looking := by
  have h0 : Reachable (Step nodeConfig) (initial nodeConfig)
      (submit nodeConfig 0 1 2 (initial nodeConfig)) :=
    submit_reachable Reachable.start rfl rfl 1 2
  have h1 : Reachable (Step nodeConfig) (initial nodeConfig)
      (submit nodeConfig 1 1 2 (submit nodeConfig 0 1 2 (initial nodeConfig))) :=
        submit_reachable h0 rfl rfl 1 2
  have h2 : Reachable (Step nodeConfig) (initial nodeConfig) submitted :=
    submit_reachable h1 rfl rfl 1 2
  have hentry := reachable_iterate (reachable_iterate h2 .monitor trivial 8) (.pipe 0)
    (Nat.zero_le _) 25
  have hexit := reachable_iterate hentry (.pipe 1) le_rfl 20
  exact reachable_iterate (reachable_iterate hexit (.worker 0) Nat.zero_lt_one 2) .monitor trivial 7

theorem iterate_clients {ρ μ : Type} {K : Config ρ μ} {θ : Thread}
    (hθ : ∀ s, (step K θ s).clients = s.clients)
    (s : State ρ μ) (n : Nat) : ((step K θ)^[n] s).clients = s.clients := by
  induction n with
  | zero => rfl
  | succ n ih => rw [Function.iterate_succ_apply', hθ, ih]

theorem looking_clients {c : Nat} (hc : 3 ≤ c) : looking.clients c = .idle := by
  have hmonitor : ∀ s, (step nodeConfig .monitor s).clients = s.clients := fun s => by
    rw [step, monitorStep_writes]
  have hpipe : ∀ pid s, (step nodeConfig (.pipe pid) s).clients = s.clients := fun pid s => by
    rw [step, pipeStep_writes]
  have hworker : ∀ wid s, (step nodeConfig (.worker wid) s).clients = s.clients := fun wid s => by
    rw [step, workerStep_writes]
  rw [looking, iterate_clients hmonitor, iterate_clients (hworker 0), iterate_clients (hpipe 1),
    iterate_clients (hpipe 0), iterate_clients hmonitor]
  obtain ⟨c, rfl⟩ := Nat.exists_eq_add_of_le' hc
  rfl

theorem looking_peeks : Peeks nodeConfig looking 0 1 := by
  have hpc : (looking.workers 0).pc = .waitStage ∧ (looking.workers 0).tid = 3 := by decide +kernel
  have hctx : (looking.ctx 3).cno = 0 ∧ (looking.ctx 3).tPast = some 1 := by decide +kernel
  refine ⟨hpc.1, ?_, ?_⟩
  · rw [hpc.2, hctx.1, hctx.2]
    decide
  · rw [hpc.2, hctx.2]
    rfl

/-- A stage is called twice, and a client writes the slot of a tid at whose stage a worker looks. -/
theorem looking_recycled : ∃ s c, Reachable (Step nodeConfig) (initial nodeConfig) s ∧ s.nSubmitted < 2 ^ 32 ∧
    (s.callsOf 2).map (fun a => (a.thread, a.stage)) = [(.pipe 0, 0), (.pipe 0, 0)] ∧
      s.writes (.client c) = some (1 + bufferSize) ∧ Peeks nodeConfig s 0 1 := by
  have hfacts : looking.destructor = .idle ∧ looking.nSubmitted = 3 ∧ looking.nCommitted = 2 := by
    decide +kernel
  have hcalls : (looking.callsOf 2).map (fun a => (a.thread, a.stage)) =
      [(.pipe 0, 0), (.pipe 0, 0)] := by
    decide +kernel
  obtain ⟨t, c, ht, hsubmitted, hwrites, hcallsEq, hctxs, hworkers⟩ :=
    reachable_write looking_reachable hfacts.1
    (fun c => looking_clients) (by rw [hfacts.2.1]; decide) (by rw [hfacts.2.2]; decide)
  refine ⟨t, c, ht, ?_, ?_, hwrites, ?_⟩
  · rw [hsubmitted]
    decide
  · rw [State.callsOf, hcallsEq]
    exact hcalls
  · exact looking_peeks.of_eq hctxs hworkers

end Samples

end Contrees.Conctrl.Concow
