import Contrees.Conctrl.ConcowClients

namespace Contrees.Conctrl.Concow

open Library.Runs Library.TaskLedger

variable {ρ μ : Type} {K : Config ρ μ} {s s' : State ρ μ} {φ φ' : Nat → Phase Nat Nat} {wid t : Nat}
  {w : Worker}

section Workers

structure WorkerWrites (s s' : State ρ μ) (wid : Nat) (w : Worker) (t : Nat) : Prop where
  workers : s'.workers = Function.update s.workers wid w
  ctxs : ∀ i, i ≠ t % bufferSize → s'.ctxs i = s.ctxs i
  stages : ∀ i, i ≠ t % bufferSize → s'.stages i = s.stages i
  nSubmitted : s'.nSubmitted = s.nSubmitted
  nCommitted : s'.nCommitted = s.nCommitted
  clients : s'.clients = s.clients
  passed : s'.passed = s.passed
  pipes : s'.pipes = s.pipes
  tids : s'.tids = s.tids
  monitor : s'.monitor = s.monitor

theorem WorkerWrites.entry (hw : WorkerWrites s s' wid w t) : s'.entry = s.entry := by
  rw [State.entry, State.entry, hw.pipes]

theorem WorkerWrites.ledger (hw : WorkerWrites s s' wid w t) : s'.ledger K = { s.ledger K with
    task := Function.update (s.ledger K).task wid (w.task (s.tids wid)) } := by
  have htask : (fun v => (s'.pool K).task v) =
      Function.update (fun v => (s.pool K).task v) wid (w.task (s.tids wid)) := by
    funext v
    simp only [Pool.task, State.pool, hw.workers, hw.tids]
    by_cases hv : v = wid
    · subst hv
      simp
    · simp [hv]
  simp only [State.ledger, hw.entry, htask, hw.nSubmitted, hw.nCommitted, hw.pipes, hw.clients,
    hw.monitor]

theorem Inv.workerSlots (h : Inv K s φ) (ht : (s.pool K).task wid = some t)
    (hw : WorkerWrites s s' wid w t) (hφ : ∀ t', t' ≠ t → φ' t' = φ t')
    (hcontent : Content K s.clients (s.passed t) t (s'.stages (t % bufferSize)) (s'.ctx t) (φ' t))
    (hfinish : w.pc = .finish → (s'.ctx w.tid).op = Operand.done) : Slots K s' φ' := by
  obtain ⟨hφt, hC, hexit, hlt⟩ := h.task_window ht
  have hmod : t % bufferSize ≠ 0 := by
    have hold := h.content hC hlt.le
    rw [hφt] at hold
    exact hold.2.1
  have hslots := h.slots
  -- the slots of other tids in the ring are as they were
  have hother : ∀ t', s.nCommitted < t' → t' ≤ s.nCommitted + bufferSize → t' ≠ t →
      s'.ctx t' = s.ctx t' := by
    intro t' ht' hle hne
    exact hw.ctxs _ (slot_ne ht' hle hC hlt.le hne)
  constructor
  · refine hslots.content_set hC hlt.le hw.nCommitted hφ hw.stages hw.ctxs ?_ ?_ ?_
    · intro t' c _ _
      rw [hw.clients]
    · intro t' _
      rw [hw.passed]
    · rw [hw.clients, hw.passed]
      exact hcontent
  · rw [hw.ctxs 0 (Ne.symm hmod)]
    exact hslots.bubbles
  · rw [hw.clients, hw.nCommitted]
    exact hslots.room
  · rw [hw.clients]
    exact hslots.writing
  · rw [hw.clients]
    exact hslots.bubbling
  · rw [hw.clients, hw.passed]
    exact hslots.args
  · intro q hq
    rw [hw.pipes, hw.nSubmitted]
    have hsame : (s.pipes q).pc.waited = true → s'.ctx (s.pipes q).tid = s.ctx (s.pipes q).tid := by
      intro hq'
      have hle := h.order.tid_le hq le_rfl
      exact hother _ (h.committed_lt_tid hq) (h.waited_lt hq hq').le (hexit.trans_le hle).ne'
    refine (hslots.pipes q hq).congr le_rfl ?_ ?_
    · intro hpc
      rw [hsame (by rw [hpc]; rfl)]
    · intro hpc
      rw [hsame (by rw [hpc]; rfl)]
  · intro v hv
    rw [hw.workers] at hv ⊢
    by_cases hvw : v = wid
    · subst hvw
      rw [Function.update_self] at hv ⊢
      exact hfinish hv
    · rw [Function.update_of_ne hvw] at hv ⊢
      obtain ⟨hφv, hCv, -, hltv⟩ := h.task_window (h.task_of_finish hv)
      have hne : (s.workers v).tid ≠ t := by
        rintro rfl
        rw [hφt] at hφv
        exact hvw (Phase.working.inj hφv).symm
      rw [hother _ hCv hltv.le hne]
      exact hslots.workers v hv

theorem Inv.workerStay (h : Inv K s φ) (ht : (s.pool K).task wid = some t)
    (hw : WorkerWrites s s' wid w t) (htask : w.task (s.tids wid) = some t)
    (hcontent : Content K s.clients (s.passed t) t (s'.stages (t % bufferSize)) (s'.ctx t) (φ t))
    (hfinish : w.pc = .finish → (s'.ctx w.tid).op = Operand.done) :
    Tracks bufferSize (s'.ledger K) φ ∧ Slots K s' φ := by
  have hledger : s'.ledger K = s.ledger K := by
    rw [hw.ledger, htask, ← ht]
    change { s.ledger K with task := Function.update (s.ledger K).task wid ((s.ledger K).task wid) } = _
    rw [Function.update_eq_self]
  exact ⟨by rw [hledger]; exact h.tracks, h.workerSlots ht hw (fun _ _ => rfl) hcontent hfinish⟩

theorem Inv.workerMove (h : Inv K s φ) (htask : w.task (s.tids wid) = (s.pool K).task wid)
    (hfinish : w.pc = .finish → (s.ctx w.tid).op = Operand.done) :
    Tracks bufferSize ((s.setWorker wid w).ledger K) φ ∧ Slots K (s.setWorker wid w) φ := by
  have hw : WorkerWrites s (s.setWorker wid w) wid w 0 :=
    ⟨rfl, fun _ _ => rfl, fun _ _ => rfl, rfl, rfl, rfl, rfl, rfl, rfl, rfl⟩
  have hledger : (s.setWorker wid w).ledger K = s.ledger K := by
    rw [hw.ledger, htask]
    change { s.ledger K with task := Function.update (s.ledger K).task wid ((s.ledger K).task wid) } = _
    rw [Function.update_eq_self]
  have hslots := h.slots
  refine ⟨by rw [hledger]; exact h.tracks, { hslots with workers := ?_ }⟩
  intro v hv
  rw [hw.workers] at hv ⊢
  by_cases hvw : v = wid
  · subst hvw
    rw [Function.update_self] at hv ⊢
    exact hfinish hv
  · rw [Function.update_of_ne hvw] at hv ⊢
    exact hslots.workers v hv

theorem Inv.handleWorker (h : Inv K s φ) (hpc : (s.workers wid).pc = .handle)
    (hsound : Always K (Sound K) → Sound K (.thread (.worker wid)) s) :
    Tracks bufferSize ((workerStep K wid s).ledger K) φ ∧ Slots K (workerStep K wid s) φ := by
  have ht : (s.pool K).task wid = some (s.workers wid).tid := by
    simp [Pool.task, State.pool, Worker.task, hpc]
  obtain ⟨hφ, hC, hexit, hlt⟩ := h.task_window ht
  have hcontent := h.content hC hlt.le
  rw [hφ] at hcontent
  simp only [Concow.workerStep, hpc]
  set s' : State ρ μ :=
    (s.call K (.worker wid) (s.workers wid).tid (K.nPipes + (s.workers wid).stage - 1)
    (s.ctx (s.workers wid).tid).op).setWorker wid { s.workers wid with pc := .retry } with hs'
  have hw : WorkerWrites s s' wid { s.workers wid with pc := .retry } (s.workers wid).tid :=
    ⟨rfl, fun i hi => Function.update_of_ne hi _ _, fun _ _ => rfl, rfl, rfl, rfl, rfl, rfl,
      rfl, rfl⟩
  have hctx : s'.ctx (s.workers wid).tid = (s.ctx (s.workers wid).tid).after
      (handled K s (s.workers wid).tid (s.ctx (s.workers wid).tid).op).1 :=
        Function.update_self _ _ _
  refine h.workerStay ht hw rfl ?_ (by simp)
  rw [hctx, hφ]
  exact ⟨hcontent.1, hcontent.2.1, hcontent.2.2.sno, fun hK => (hsound hK).1 hpc⟩

theorem sno_slot (t : Nat) : t % 2 ^ 32 % bufferSize = t % bufferSize :=
  Nat.mod_mod_of_dvd t (by decide)

theorem Inv.storeStage (h : Inv K s φ) (hpc : (s.workers wid).pc = .storeStage) :
    Tracks bufferSize ((workerStep K wid s).ledger K) φ ∧ Slots K (workerStep K wid s) φ := by
  have ht : (s.pool K).task wid = some (s.workers wid).tid := by
    simp [Pool.task, State.pool, Worker.task, hpc]
  obtain ⟨hφ, hC, hexit, hlt⟩ := h.task_window ht
  have hcontent := h.content hC hlt.le
  rw [hφ] at hcontent
  simp only [Concow.workerStep, hpc, hcontent.2.2.sno, sno_slot]
  have hw : WorkerWrites s
    ((s.setStage ((s.workers wid).tid % bufferSize) (s.workers wid).stage).setWorker
      wid { s.workers wid with pc := .test, stage := (s.workers wid).stage + 1 }) wid
      { s.workers wid with pc := .test, stage := (s.workers wid).stage + 1 } (s.workers wid).tid :=
    ⟨rfl, fun _ _ => rfl, fun i hi => Function.update_of_ne hi _ _, rfl, rfl, rfl, rfl, rfl,
      rfl, rfl⟩
  refine h.workerStay ht hw rfl ?_ (by simp)
  rw [hφ]
  refine ⟨?_, hcontent.2⟩
  change Function.update s.stages _ _ _ ≠ _
  rw [Function.update_self]
  exact WithTop.coe_ne_top

theorem Inv.finishWorker (h : Inv K s φ) (hpc : (s.workers wid).pc = .finish) :
    ∃ φ', Tracks bufferSize ((workerStep K wid s).ledger K) φ' ∧
    Slots K (workerStep K wid s) φ' := by
  have ht := h.task_of_finish hpc
  have hop := h.slots.workers wid hpc
  obtain ⟨hφ, hC, hexit, hlt⟩ := h.task_window ht
  have hcontent := h.content hC hlt.le
  rw [hφ] at hcontent
  simp only [Concow.workerStep, hpc, hcontent.2.2.sno, sno_slot]
  set s' : State ρ μ := (s.setStage ((s.workers wid).tid % bufferSize) ⊤).setWorker wid
    { s.workers wid with pc := .push, lastTid := (s.workers wid).tid } with hs'
  have hw : WorkerWrites s s' wid { s.workers wid with pc := .push, lastTid := (s.workers wid).tid }
      (s.workers wid).tid :=
    ⟨rfl, fun _ _ => rfl, fun i hi => Function.update_of_ne hi _ _, rfl, rfl, rfl, rfl, rfl,
      rfl, rfl⟩
  refine ⟨Function.update φ (s.workers wid).tid .finished, ?_, ?_⟩
  · rw [hw.ledger]
    exact h.tracks.finish ht
  · refine h.workerSlots ht hw (fun t' ht' => Function.update_of_ne ht' _ _) ?_ (by simp)
    rw [Function.update_self]
    exact ⟨Function.update_self _ _ _, hop⟩

theorem Inv.workerBusy (h : Inv K s φ) (hpc : (s.pool K).task wid = some (s.workers wid).tid)
    (htask : w.task (s.tids wid) = some (s.workers wid).tid)
    (hfinish : w.pc = .finish → (s.ctx w.tid).op = Operand.done) :
    ∃ φ', Tracks bufferSize ((s.setWorker wid w).ledger K) φ' ∧ Slots K (s.setWorker wid w) φ' :=
  ⟨φ, h.workerMove (htask.trans hpc.symm) hfinish⟩

theorem workerExec_task (w : Worker) (tid : Word) (ctx : Context ρ) :
    Worker.task { w with pc := workerExec ctx } tid = some w.tid ∧ workerExec ctx ≠ .finish := by
  rcases workerExec_cases ctx with hexec | hexec <;> rw [hexec] <;> exact ⟨rfl, by simp⟩

theorem Inv.task_pushed (h : Inv K s φ) (hpc : (s.workers wid).pc = .push) :
    Worker.task { s.workers wid with pc := .waitTid } (s.tids wid) = (s.pool K).task wid := by
  rw [Pool.task_of_push hpc]
  have hlast : (s.workers wid).lastTid = (s.workers wid).tid := h.pool.pushing wid hpc
  have hcurrent : s.tids wid = ⊤ ∨ s.tids wid = some (s.workers wid).tid :=
    h.pool.current wid (by simp [State.pool, hpc]) (by simp [State.pool, hpc])
  rcases hcurrent with htop | hsome
  · simp [Worker.task, htop]
  · simp [Worker.task, hsome, hlast]

theorem Inv.pushWorker (h : Inv K s φ) (hpc : (s.workers wid).pc = .push) :
    Tracks bufferSize ((workerStep K wid s).ledger K) φ ∧ Slots K (workerStep K wid s) φ := by
  have hslots := h.slots
  simp only [Concow.workerStep, hpc]
  split
  · exact ⟨h.tracks, { hslots with }⟩
  · exact ⟨h.tracks, { hslots with }⟩
  · have hmove := h.workerMove (w := { s.workers wid with pc := .waitTid }) (h.task_pushed hpc)
      (by simp)
    exact ⟨hmove.1, { hmove.2 with }⟩

theorem Inv.workerStep (h : Inv K s φ)
    (hsound : Always K (Sound K) → Sound K (.thread (.worker wid)) s) :
    ∃ φ', Tracks bufferSize ((workerStep K wid s).ledger K) φ' ∧
    Slots K (workerStep K wid s) φ' := by
  have hbusy : (s.workers wid).pc ≠ .waitTid → (s.workers wid).pc ≠ .push →
      (s.workers wid).pc ≠ .finished → (s.pool K).task wid = some (s.workers wid).tid := by
    intro h1 h2 h3
    cases hpc : (s.workers wid).pc <;> simp_all [Pool.task, State.pool, Worker.task]
  cases hpc : (s.workers wid).pc
  case handle => exact ⟨φ, h.handleWorker hpc hsound⟩
  case storeStage => exact ⟨φ, h.storeStage hpc⟩
  case finish => exact h.finishWorker hpc
  case push => exact ⟨φ, h.pushWorker hpc⟩
  all_goals
    simp only [Concow.workerStep, hpc]
    simp only [hpc, ne_eq, not_true, reduceCtorEq, not_false_eq_true, forall_const,
      false_implies] at hbusy
  case waitTid =>
      split
      · rename_i htop
        refine ⟨φ, h.workerMove ?_ (by simp)⟩
        simp [Pool.task, State.pool, Worker.task, hpc, htop]
      · rename_i tid htid
        split
        · exact ⟨φ, h.tracks, h.slots⟩
        · rename_i hne
          refine ⟨φ, h.workerMove ?_ (by simp)⟩
          simp [Pool.task, State.pool, Worker.task, hpc, htid, hne]
  case test =>
      have hexec := workerExec_task (s.workers wid) (s.tids wid) (s.ctx (s.workers wid).tid)
      split
      · rename_i hop
        exact h.workerBusy hbusy rfl (fun _ => hop)
      · exact h.workerBusy hbusy hexec.1 (fun hfin => absurd hfin hexec.2)
  case version =>
      split
      · exact ⟨φ, h.tracks, h.slots.loadCno _⟩
      · exact h.workerBusy hbusy rfl (by simp)
  case waitStage =>
      split
      · split
        · exact h.workerBusy hbusy rfl (by simp)
        · exact h.workerBusy hbusy rfl (by simp)
      · exact h.workerBusy hbusy rfl (by simp)
  case reload =>
      obtain ⟨htracks, hslots⟩ := h.workerMove (w := { s.workers wid with pc := .waitStage })
        (show _ = (s.pool K).task wid from hbusy.symm ▸ rfl) (by simp)
      exact ⟨φ, htracks, hslots.loadCno (s.workers wid).tid⟩
  case retry =>
      have hexec := workerExec_task (s.workers wid) (s.tids wid) (s.ctx (s.workers wid).tid)
      split
      · exact h.workerBusy hbusy hexec.1 (fun hfin => absurd hfin hexec.2)
      · exact h.workerBusy hbusy rfl (by simp)
  case finished => exact ⟨φ, h.tracks, h.slots⟩

end Workers

end Contrees.Conctrl.Concow
