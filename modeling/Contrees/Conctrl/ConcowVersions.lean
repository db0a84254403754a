import Contrees.Conctrl.ConcowHandover

namespace Contrees.Conctrl.Concow

open Library.Runs Library.TaskLedger

variable {ρ μ : Type} {K : Config ρ μ} {s s' : State ρ μ} {φ : Nat → Phase Nat Nat} {θ : Thread}
    {t wid : Nat}

section Caches

def Cached (s : State ρ μ) : Prop := ∀ slot, ∃ c ≤ s.nCommitted, (s.ctxs slot).cno = c % 2 ^ 32

theorem update_cno {ctxs : Nat → Context ρ} {i : Nat} {ctx : Context ρ} (h : ctx.cno = (ctxs i).cno)
    (slot : Nat) :
    (Function.update ctxs i ctx slot).cno = (ctxs slot).cno := by
  by_cases hslot : slot = i
  · subst hslot
    rw [Function.update_self, h]
  · rw [Function.update_of_ne hslot]

theorem loadCno_cno (s : State ρ μ) (t slot : Nat) :
    ((s.loadCno t).ctxs slot).cno = (s.ctxs slot).cno ∨
    ((s.loadCno t).ctxs slot).cno = s.nCommitted % 2 ^ 32 :=
  (loadCno_ctxs s t slot).imp (congrArg Context.cno) (congrArg Context.cno)

theorem step_cno (θ : Thread) (slot : Nat) : ((step K θ s).ctxs slot).cno = (s.ctxs slot).cno ∨
    ((step K θ s).ctxs slot).cno = s.nCommitted % 2 ^ 32 := by
  cases θ with
  | monitor => exact .inl (by rw [step, monitorStep_writes])
  | destructor => exact .inl (by rw [step, destructorStep_writes])
  | client c =>
      left
      rw [step]
      cases hc : s.clients c <;> simp only [clientStep, hc] <;> try rfl
      case waiting =>
          split
          · rfl
          · split <;> rfl
      case bubbleSno =>
          refine update_cno ?_ slot
          rfl
      case writing tid key val field =>
          cases field with
          | stage => rfl
          | op | flags | sno | key | val =>
              refine update_cno ?_ slot
              rfl
  | pipe pid =>
      rw [step]
      cases hpc : (s.pipes pid).pc <;> simp only [pipeStep, hpc]
      case cpVersion | version =>
          split
          · exact loadCno_cno s _ slot
          · exact .inl rfl
      case copyRoot | cpPast | cpHandle | readPast | init | handle =>
          left
          refine update_cno ?_ slot
          rfl
      case loop =>
          left
          split
          · rfl
          · split <;> rfl
      case finished => exact .inl trivial
      all_goals
        left
        first | rfl | (split <;> rfl)
  | worker wid =>
      rw [step]
      cases hpc : (s.workers wid).pc <;> simp only [workerStep, hpc]
      case version =>
          split
          · exact loadCno_cno s _ slot
          · exact .inl rfl
      case reload => exact loadCno_cno s _ slot
      case handle =>
          left
          refine update_cno ?_ slot
          rfl
      case waitTid =>
          left
          split
          · rfl
          · split <;> rfl
      case waitStage =>
          left
          split
          · split <;> rfl
          · rfl
      case finished => exact .inl trivial
      all_goals
        left
        first | rfl | (split <;> rfl)

theorem cached_of_reachable (hs : Reachable (Step K) (initial K) s) : Cached s := by
  have key : Reachable (Step K) (initial K) s ∧ Cached s := by
    refine hs.invariant (fun s => Reachable (Step K) (initial K) s ∧ Cached s)
      ⟨Reachable.start, fun _ => ⟨0, le_rfl, rfl⟩⟩ ?_
    rintro a s s' ⟨hs, hcached⟩ - ha
    refine ⟨hs.next a ha, fun slot => ?_⟩
    obtain ⟨φ, h⟩ := inv_of_reachable hs
    obtain ⟨c, hc, hcno⟩ := hcached slot
    cases ha with
    | update | destroy => exact ⟨c, hc, hcno⟩
    | thread _ θ hθ =>
        have hle := h.nCommitted_le θ
        rcases step_cno (K := K) (s := s) θ slot with heq | heq
        · exact ⟨c, hc.trans hle, heq.trans hcno⟩
        · exact ⟨s.nCommitted, hle, heq⟩
  exact key.2

theorem Cached.committed (h : Cached s) {v slot : Nat} (hv : v < 2 ^ 32)
    (hcno : ¬ (s.ctxs slot).cno < v % 2 ^ 32) :
    v ≤ s.nCommitted := by
  obtain ⟨c, hc, heq⟩ := h slot
  rw [heq, Nat.mod_eq_of_lt hv] at hcno
  have := Nat.mod_le c (2 ^ 32)
  omega

end Caches

section Stages

def Worker.stored (w : Worker) : Nat := if w.pc = .waitTid then 0 else w.stage - 1

/-- The word of a tid that is with a worker is the last stage that the worker has finished. -/
def Staged (K : Config ρ μ) (s : State ρ μ) : Prop := ∀ wid t, (s.pool K).task wid = some t →
  s.stages (t % bufferSize) = ((s.workers wid).stored : Nat)

theorem Inv.kept_task (h : Inv K s φ) (ht : (s.pool K).task wid = some t) : Kept s t := by
  obtain ⟨hφ, hC, hexit, -⟩ := h.task_window ht
  refine ⟨hC.le, ?_, hexit.trans_le h.exit_le_entry⟩
  by_contra hnew
  rw [h.phase_bubble (not_le.mp hnew)] at hφ
  simp at hφ

theorem Inv.step_stages (h : Inv K s φ) (hθ : θ.Runs K) (ht : (s.pool K).task wid = some t)
    (hne : θ ≠ .worker wid) :
    (Concow.step K θ s).stages (t % bufferSize) = s.stages (t % bufferSize) := by
  obtain ⟨hφ, hC, hexit, hlt⟩ := h.task_window ht
  have hcontent := h.content hC hlt.le
  rw [hφ] at hcontent
  cases θ with
  | monitor => rw [Concow.step, monitorStep_writes]
  | destructor => rw [Concow.step, destructorStep_writes]
  | client c =>
      rw [Concow.step]
      cases hc : s.clients c <;> simp only [Concow.clientStep, hc] <;> try rfl
      case waiting =>
          split
          · rfl
          · split <;> rfl
      case bubbleStage => exact Function.update_of_ne hcontent.2.1 _ _
      case writing tid key val field =>
          cases field with
          | op | flags | sno | key | val => rfl
          | stage =>
              refine Function.update_of_ne (h.held_slot_ne (c := c) ?_ ?_ (h.kept_task ht)) _ _
              · rw [hc]
                rfl
              · rw [hc]
                rfl
  | pipe pid =>
      rw [Concow.step]
      cases hpc : (s.pipes pid).pc <;> simp only [Concow.pipeStep, hpc] <;> try rfl
      case markDone =>
          have hwaited : (s.pipes pid).pc.waited = true := by rw [hpc]; rfl
          have hle := h.order.tid_le hθ le_rfl
          exact Function.update_of_ne (ring_ne hC.le hlt (h.committed_lt_tid hθ).le
            (h.waited_lt hθ hwaited)
            (hexit.trans_le hle).ne) _ _
      case loop =>
          split
          · rfl
          · split <;> rfl
      all_goals split <;> rfl
  | worker v =>
      have hvw : v ≠ wid := fun heq => hne (heq ▸ rfl)
      -- the tid of the other worker has another slot, which its sequence number names
      have hother : (s.pool K).task v = some (s.workers v).tid →
          t % bufferSize ≠ (s.ctx (s.workers v).tid).sno % bufferSize := by
        intro hv
        obtain ⟨hφv, hCv, -, hltv⟩ := h.task_window hv
        have hcontentv := h.content hCv hltv.le
        rw [hφv] at hcontentv
        rw [hcontentv.2.2.sno, sno_slot]
        refine ring_ne hC.le hlt hCv.le hltv ?_
        rintro rfl
        rw [hφ] at hφv
        exact hvw (Phase.working.inj hφv).symm
      rw [Concow.step]
      cases hpc : (s.workers v).pc <;> simp only [Concow.workerStep, hpc] <;> try rfl
      case storeStage | finish =>
          exact Function.update_of_ne
            (hother (by simp [Pool.task, State.pool, Worker.task, hpc])) _ _
      case waitTid =>
          split
          · rfl
          · split <;> rfl
      case waitStage =>
          split
          · split <;> rfl
          · rfl
      all_goals split <;> rfl

theorem Staged.frame (h : Staged K s) (hinv : Inv K s φ) (hθ : θ.Runs K)
    (hne : ∀ wid, θ ≠ .worker wid) (hworkers : (Concow.step K θ s).workers = s.workers)
    (htask : ∀ wid t, ((Concow.step K θ s).pool K).task wid = some t →
    (s.pool K).task wid = some t) :
    Staged K (Concow.step K θ s) := by
  intro wid t ht
  have hold := htask wid t ht
  rw [hinv.step_stages hθ hold (hne wid), h wid t hold, hworkers]

theorem Staged.assign (h : Staged K s) (hinv : Inv K s φ) {v : Nat}
    (hpc : (s.pipes K.nPipes).pc = .assign v) :
    Staged K (pipeStep K K.nPipes s) := by
  have hwaited : (s.pipes K.nPipes).pc.waited = true := by rw [hpc]; rfl
  have hpos : K.nPipes ≠ 0 := Nat.one_le_iff_ne_zero.mp K.nPipes_pos
  have hknows := hinv.slots.pipes _ le_rfl
  simp only [Pipe.Knows, hpc] at hknows
  have hcontent := hinv.pipe_content le_rfl hwaited
  rw [hinv.phase_staged le_rfl hwaited (.inl hpos) hknows.2] at hcontent
  obtain ⟨-, hwait, -⟩ := hinv.pool.popped v hpc
  have htasks := hinv.pool.task_assign hpc ((pipeStep K K.nPipes s).pipes K.nPipes)
  have htask : ((pipeStep K K.nPipes s).pool K).task =
      Function.update (s.pool K).task v (some (s.pipes K.nPipes).tid) := by
    refine Eq.trans ?_ htasks
    simp only [pipeStep, hpc]
    rfl
  have hworkers : (pipeStep K K.nPipes s).workers = s.workers := by rw [pipeStep_writes]
  have hstages : (pipeStep K K.nPipes s).stages = s.stages := by simp only [pipeStep, hpc]; rfl
  intro wid t ht
  rw [htask] at ht
  rw [hstages, hworkers]
  by_cases hv : wid = v
  · subst hv
    rw [Function.update_self] at ht
    obtain rfl := Option.some.inj ht
    have hstored : (s.workers wid).stored = 0 := if_pos hwait
    rw [hcontent.1, hstored]
    rfl
  · rw [Function.update_of_ne hv] at ht
    exact h wid t ht

theorem Staged.pipeStep (h : Staged K s) (hinv : Inv K s φ) {pid : Nat} (hpid : pid ≤ K.nPipes) :
    Staged K (pipeStep K pid s) := by
  have hkind := hinv.order.kinds pid hpid
  by_cases hassign : ∃ v, (s.pipes pid).pc = .assign v
  · obtain ⟨v, hpc⟩ := hassign
    simp only [State.counters, hpc, PipePc.OfKind] at hkind
    subst hkind
    exact h.assign hinv hpc
  · have hworkers : (Concow.pipeStep K pid s).workers = s.workers := by rw [pipeStep_writes]
    have htids : (Concow.pipeStep K pid s).tids = s.tids := by
      cases hpc : (s.pipes pid).pc <;> simp only [Concow.pipeStep, hpc] <;> try rfl
      case assign v => exact absurd ⟨v, hpc⟩ hassign
      case loop =>
          split
          · rfl
          · split <;> rfl
      all_goals split <;> rfl
    refine h.frame (θ := .pipe pid) hinv hpid (fun _ => by simp) hworkers fun wid t ht => ?_
    simpa only [Pool.task, State.pool, Concow.step, hworkers, htids] using ht

theorem Staged.ofWorker (h : Staged K s) {w : Worker}
    (hworkers : s'.workers = Function.update s.workers wid w) (htids : s'.tids = s.tids)
    (hstages : ∀ v t, v ≠ wid → (s.pool K).task v = some t →
    s'.stages (t % bufferSize) = s.stages (t % bufferSize))
    (hown : ∀ t, w.task (s.tids wid) = some t → s'.stages (t % bufferSize) = (w.stored : Nat)) :
    Staged K s' := by
  intro v t ht
  simp only [Pool.task, State.pool, hworkers, htids] at ht
  rw [hworkers]
  by_cases hv : v = wid
  · subst hv
    rw [Function.update_self] at ht ⊢
    exact hown t ht
  · rw [Function.update_of_ne hv] at ht ⊢
    rw [hstages v t hv ht]
    exact h v t ht

theorem Staged.setWorker (h : Staged K s) {w : Worker}
    (hown : ∀ t, w.task (s.tids wid) = some t → s.stages (t % bufferSize) = (w.stored : Nat)) :
    Staged K (s.setWorker wid w) :=
  h.ofWorker rfl rfl (fun _ _ _ _ => rfl) hown

theorem Staged.workerStep (h : Staged K s) (hinv : Inv K s φ) (hwid : wid < K.nWorkers) :
    Staged K (workerStep K wid s) := by
  have hstages : ∀ v t, v ≠ wid → (s.pool K).task v = some t →
      (Concow.workerStep K wid s).stages (t % bufferSize) = s.stages (t % bufferSize) :=
        fun v t hv ht =>
    hinv.step_stages (θ := .worker wid) hwid ht fun heq => hv (Thread.worker.inj heq).symm
  have hbusy : (s.workers wid).pc ≠ .waitTid → (s.workers wid).pc ≠ .push →
      (s.workers wid).pc ≠ .finished → (s.pool K).task wid = some (s.workers wid).tid := by
    intro h1 h2 h3
    cases hpc : (s.workers wid).pc <;> simp_all [Pool.task, State.pool, Worker.task]
  -- the worker goes on in its code with its tid
  have hmove : (s.pool K).task wid = some (s.workers wid).tid → ∀ pc, pc ≠ WorkerPc.waitTid →
      (s.workers wid).pc ≠ .waitTid →
        Staged K (s.setWorker wid { s.workers wid with pc := pc }) := by
    intro ht pc hpc hpc'
    refine h.setWorker fun t htask => ?_
    have htid : t = (s.workers wid).tid := by cases pc <;> simp_all [Worker.task]
    rw [htid, h wid _ ht]
    simp [Worker.stored, hpc, hpc']
  cases hpc : (s.workers wid).pc <;> simp only [Concow.workerStep, hpc] at hstages ⊢ <;>
    simp only [hpc, ne_eq, not_true, reduceCtorEq, not_false_eq_true, forall_const,
      false_implies] at hbusy
  case waitTid =>
      split
      · exact h.setWorker fun t ht => by simp [Worker.task] at ht
      · rename_i tid htid
        split
        · exact h
        · rename_i hne
          refine h.setWorker fun t ht => ?_
          obtain rfl : tid = t := by simpa [Worker.task] using ht
          have hold : (s.pool K).task wid = some tid := by
            simp [Pool.task, State.pool, Worker.task, hpc, htid, hne]
          rw [h wid tid hold]
          simp [Worker.stored, hpc]
  case test | retry =>
      have hexec : ∀ ctx : Context ρ, workerExec ctx ≠ .waitTid := by
        intro ctx
        unfold workerExec
        split <;> simp
      refine hmove hbusy _ ?_ (by simp [hpc])
      split <;> first | exact hexec _ | simp
  case version =>
      split
      · exact h
      · exact hmove hbusy _ (by simp) (by simp [hpc])
  case waitStage =>
      split
      · split
        · exact hmove hbusy _ (by simp) (by simp [hpc])
        · exact hmove hbusy _ (by simp) (by simp [hpc])
      · exact hmove hbusy _ (by simp) (by simp [hpc])
  case reload => exact hmove hbusy _ (by simp) (by simp [hpc])
  case handle => exact hmove hbusy _ (by simp) (by simp [hpc])
  case storeStage =>
      obtain ⟨hφ, hC, -, hlt⟩ := hinv.task_window hbusy
      have hcontent := hinv.content hC hlt.le
      rw [hφ] at hcontent
      refine h.ofWorker rfl rfl hstages fun t ht => ?_
      obtain rfl : (s.workers wid).tid = t := by simpa [Worker.task] using ht
      rw [hcontent.2.2.sno, sno_slot]
      exact Function.update_self _ _ _
  case finish => exact h.ofWorker rfl rfl hstages fun t ht => by simp [Worker.task] at ht
  case push =>
      split
      · exact h
      · exact h
      · refine h.setWorker fun t ht => ?_
        rw [hinv.task_pushed hpc, Pool.task_of_push hpc] at ht
        simp at ht
  case finished => exact h

theorem Staged.step (h : Staged K s) (hinv : Inv K s φ) (hθ : θ.Runs K) :
    Staged K (step K θ s) := by
  cases θ with
  | pipe pid => exact h.pipeStep hinv hθ
  | worker wid => exact h.workerStep hinv hθ
  | client c =>
      refine h.frame hinv hθ (fun _ => by simp) ?_ fun wid t ht => ?_
      · rw [Concow.step, clientStep_writes]
      · rwa [Concow.step, clientStep_writes] at ht
  | monitor =>
      refine h.frame hinv hθ (fun _ => by simp) ?_ fun wid t ht => ?_
      · rw [Concow.step, monitorStep_writes]
      · rwa [Concow.step, monitorStep_writes] at ht
  | destructor =>
      refine h.frame hinv hθ (fun _ => by simp) ?_ fun wid t ht => ?_
      · rw [Concow.step, destructorStep_writes]
      · -- a worker that is told to end has no tid
        have htop : ∀ tid : Word, (s.workers wid).task ⊤ = some t →
            (s.workers wid).task tid = some t := by
          intro tid htask
          cases hpc : (s.workers wid).pc <;> simp_all [Worker.task]
        cases hd : s.destructor <;> simp only [Concow.step, destructorStep, hd] at ht <;>
          try exact ht
        case storeTids v =>
            split at ht
            · exact ht
            · by_cases hv : wid = v
              · subst hv
                refine htop _ ?_
                simpa [Pool.task, State.pool] using ht
              · simpa [Pool.task, State.pool, Function.update_of_ne hv] using ht
        case joinPipes =>
            split at ht
            · exact ht
            · split at ht <;> exact ht
        case joinWorkers =>
            split at ht
            · exact ht
            · split at ht <;> exact ht
        all_goals split at ht <;> exact ht

theorem staged_of_reachable (hs : Reachable (Step K) (initial K) s) : Staged K s := by
  have key : Reachable (Step K) (initial K) s ∧ Staged K s := by
    refine hs.invariant (fun s => Reachable (Step K) (initial K) s ∧ Staged K s)
      ⟨Reachable.start, ?_⟩ ?_
    · intro wid t ht
      simp [Pool.task, State.pool, initial, Worker.task] at ht
    · rintro a s s' ⟨hs, hstaged⟩ - ha
      refine ⟨hs.next a ha, ?_⟩
      obtain ⟨φ, h⟩ := inv_of_reachable hs
      cases ha with
      | update | destroy => exact hstaged
      | thread _ θ hθ => exact hstaged.step h hθ
  exact key.2

end Stages

section Gates

theorem Trace.through {nPipes x : Nat} {l : List (Call ρ)} {a : Call ρ} (h : Trace nPipes l a)
    (hx : nPipes ≤ x ∨ ∀ b ∈ l, b.after.waitChild = false) (hlt : x < a.next nPipes) :
    ∃ b ∈ l, b.stage = x ∧ b.after.retry = false := by
  -- a call whose next stage is beyond it has gone through its own
  have hlast : ∀ b : Call ρ, (nPipes ≤ x ∨ b.after.waitChild = false) → b.stage ≤ x →
    x < b.next nPipes →
      b.stage = x ∧ b.after.retry = false := by
    intro b hwait hle hnext
    unfold Call.next at hnext
    split at hnext
    · omega
    · rename_i hretry
      split at hnext
      · rename_i hleft
        rcases hwait with hx | hwait
        · omega
        · simp [hwait] at hleft
      · exact ⟨by omega, by simpa using hretry⟩
  induction h with
  | first a hstage hthread hop =>
      exact ⟨a, List.mem_singleton_self a, hlast a (hx.imp_right fun hl => hl a (by simp))
        (by omega) hlt⟩
  | next l a b hl hfollows ih =>
      by_cases hbefore : x < a.next nPipes
      · obtain ⟨c, hc, hstage⟩ :=
          ih (hx.imp_right fun hl c hc => hl c (List.mem_append_left _ hc)) hbefore
        exact ⟨c, List.mem_append_left _ hc, hstage⟩
      · exact ⟨b, by simp, hlast b (hx.imp_right fun hl => hl b (by simp))
          (hfollows.stage ▸ not_lt.mp hbefore) hlt⟩

/-- A tid has left the pipes, and its worker is through stage `k` or has come to its end. -/
structure Through (K : Config ρ μ) (s : State ρ μ) (tid k : Nat) : Prop where
  exit : tid < (s.pipes K.nPipes).tid
  stage : tid % bufferSize ≠ 0 →
    (∃ a ∈ s.callsOf tid, a.stage + 1 = K.nPipes + k ∧ a.after.retry = false) ∨
      ∃ a, Trace K.nPipes (s.callsOf tid) a ∧ a.Ends

def EndsVersion (K : Config ρ μ) (s : State ρ μ) : Thread → Nat → Prop
  | .pipe pid, tid => tid = (s.pipes pid).tid ∧
      ((s.pipes pid).pc = .version ∧ ((pipeStep K pid s).pipes pid).pc = .handle ∨
        (s.pipes pid).pc = .cpVersion ∧ ((pipeStep K pid s).pipes pid).pc = .cpHandle)
  | .worker wid, tid => tid = (s.workers wid).tid ∧
      (s.workers wid).pc = .version ∧ ((workerStep K wid s).workers wid).pc = .handle
  | _, _ => False

structure EndsStage (K : Config ρ μ) (s : State ρ μ) (wid tid k : Nat) : Prop where
  pc : (s.workers wid).pc = .waitStage
  returns : ((workerStep K wid s).workers wid).pc = .handle
  own : tid = (s.workers wid).tid
  stage : k = (s.workers wid).stage + (s.ctx tid).waitChild.toNat

theorem EndsVersion.loaded (h : EndsVersion K s θ t) : ¬ (s.ctx t).cno < K.ver (s.ctx t).tPast := by
  intro hlt
  cases θ with
  | client c => exact h
  | monitor => exact h
  | destructor => exact h
  | pipe pid =>
      obtain ⟨rfl, ⟨hpc, hnext⟩ | ⟨hpc, hnext⟩⟩ := h
      all_goals
        simp only [pipeStep, hpc, hlt, if_true] at hnext
        rw [State.loadCno, State.setCtx] at hnext
        simp [hpc] at hnext
  | worker wid =>
      obtain ⟨rfl, hpc, hnext⟩ := h
      simp only [workerStep, hpc, hlt, if_true] at hnext
      rw [State.loadCno, State.setCtx] at hnext
      simp [hpc] at hnext

theorem EndsStage.loaded {k : Nat} (h : EndsStage K s wid t k)
    (hlt : (s.ctx t).cno < K.ver (s.ctx t).tPast) :
    ((k : Nat) : Word) ≤ s.stages (K.ver (s.ctx t).tPast % bufferSize) := by
  obtain ⟨hpc, hnext, rfl, rfl⟩ := h
  by_contra hstage
  simp only [workerStep, hpc, if_pos hlt, if_neg hstage] at hnext
  simp [State.setWorker] at hnext

theorem History.through (h : History K s) (hinv : Inv K s φ) {k : Nat}
    (ht : (s.pool K).task wid = some t)
    (hpos : 1 ≤ k) (hk : k ≤ (s.workers wid).stored) : Through K s t k := by
  obtain ⟨hφ, hC, hexit, hlt⟩ := hinv.task_window ht
  refine ⟨hexit, fun hmod => ?_⟩
  obtain ⟨a, hleft, hhas⟩ := (h.updates t hmod).workers wid ht
  have hstored : k + 1 ≤ (s.workers wid).stage ∧ (s.workers wid).pc ≠ .waitTid := by
    unfold Worker.stored at hk
    split at hk
    · omega
    · exact ⟨by omega, ‹_›⟩
  have hgone : K.nPipes + k - 1 < a.next K.nPipes →
      ∃ b ∈ s.callsOf t, b.stage + 1 = K.nPipes + k ∧ b.after.retry = false := by
    intro hnext
    obtain ⟨b, hb, hstage, hretry⟩ := hleft.1.through (.inl (by omega)) hnext
    exact ⟨b, hb, by omega, hretry⟩
  have hle : a.stage ≤ a.next K.nPipes := Call.le_next
  have hcall := hhas.call
  cases hpc : (s.workers wid).pc <;> simp only [hpc] at hcall
  case waitTid => exact absurd hpc hstored.2
  case test =>
      by_cases hop : a.after.op = Operand.done
      · exact .inr ⟨a, hleft.1, hcall.1, hop⟩
      · exact .inl (hgone (by have := hcall.2 hop; omega))
  case version | waitStage | reload | handle => exact .inl (hgone (by have := hcall.2; omega))
  case retry => exact .inl (hgone (by omega))
  case storeStage => exact .inl (hgone (by omega))
  case finish => exact .inr ⟨a, hleft.1, hcall⟩
  case push | finished => simp [Pool.task, State.pool, Worker.task, hpc] at ht

theorem Inv.stage_pos (h : Inv K s φ) (hhistory : History K s) (ht : (s.pool K).task wid = some t)
    (hpc : (s.workers wid).pc ≠ .waitTid) : 1 ≤ (s.workers wid).stage := by
  obtain ⟨hφ, hC, -, hlt⟩ := h.task_window ht
  have hcontent := h.content hC hlt.le
  rw [hφ] at hcontent
  obtain ⟨a, -, hhas⟩ := (hhistory.updates t hcontent.2.1).workers wid ht
  exact hhas.stage hpc

theorem Inv.through_of_word (h : Inv K s φ) (hhistory : History K s) (hstaged : Staged K s)
    {v k : Nat} (ht : (s.pool K).task wid = some t) (hlt : v < t) (hpos : 1 ≤ k)
    (hword : ((k : Nat) : Word) ≤ s.stages (v % bufferSize)) : Through K s v k := by
  obtain ⟨hφ, hC, hexit, hwindow⟩ := h.task_window ht
  have hissued : v ≤ s.nSubmitted := hlt.le.trans (h.kept_task ht).issued
  have hexited : (φ v).Exited := (h.tracks.exited v hissued).2 (hlt.trans hexit)
  cases hφv : φ v with
  | unissued | held _ | filled | staged =>
      rw [hφv] at hexited
      exact hexited.elim
  | working w =>
      have htask := (h.tracks.working v w).1 hφv
      rw [hstaged w v htask] at hword
      exact hhistory.through h htask hpos (WithTop.coe_le_coe.mp hword)
  | finished =>
      refine ⟨hlt.trans hexit, fun hmod => ?_⟩
      have hidle : ∀ w, (s.pool K).task w ≠ some v := by
        intro w hw
        rw [(h.task_window hw).1] at hφv
        simp at hφv
      obtain ⟨a, htrace, hends, -⟩ :=
        (hhistory.updates v hmod).past ⟨hissued, hlt.trans hexit, hidle⟩
      exact .inr ⟨a, htrace, hends⟩

theorem EndsStage.through {k : Nat} (hs : Reachable (Step K) (initial K) s)
    (hends : EndsStage K s wid t k)
    (hv : K.tidOf (s.ctx t).tPast < 2 ^ 32) (hlt : K.tidOf (s.ctx t).tPast < t) :
    K.tidOf (s.ctx t).tPast ≤ s.nCommitted ∨ Through K s (K.tidOf (s.ctx t).tPast) k := by
  have hcached := cached_of_reachable hs
  by_cases hcno : (s.ctx t).cno < K.ver (s.ctx t).tPast
  · obtain ⟨φ, h⟩ := inv_of_reachable hs
    have hhistory := history_of_reachable hs
    have hword := hends.loaded hcno
    rw [Interface.ver, sno_slot] at hword
    obtain ⟨hpc, -, rfl, rfl⟩ := hends
    have ht : (s.pool K).task wid = some (s.workers wid).tid := by
      simp [Pool.task, State.pool, Worker.task, hpc]
    generalize K.tidOf (s.ctx (s.workers wid).tid).tPast = v at *
    by_cases hold : v ≤ s.nCommitted
    · exact .inl hold
    · exact .inr (h.through_of_word hhistory (staged_of_reachable hs) ht hlt
        ((h.stage_pos hhistory ht (by simp [hpc])).trans (Nat.le_add_right _ _)) hword)
  · exact .inl (hcached.committed hv hcno)

/-- A wait for an earlier transaction ends when that is committed, or far enough. -/
theorem waits_end_in_time {ρ μ : Type} (K : Config ρ μ) (s : State ρ μ) (hs : Reachable (Step K) (initial K) s) :
    (∀ θ tid, EndsVersion K s θ tid → K.tidOf (s.ctx tid).tPast < 2 ^ 32 →
        K.tidOf (s.ctx tid).tPast ≤ s.nCommitted) ∧
      ∀ wid tid k, EndsStage K s wid tid k → K.tidOf (s.ctx tid).tPast < 2 ^ 32 →
        K.tidOf (s.ctx tid).tPast < tid →
          K.tidOf (s.ctx tid).tPast ≤ s.nCommitted ∨ Through K s (K.tidOf (s.ctx tid).tPast) k := by
  have hcached := cached_of_reachable hs
  exact ⟨fun θ tid hends hv => hcached.committed hv hends.loaded,
    fun wid tid k hends => hends.through hs⟩

theorem waits_end_in_time_sample : 1 ≤ looking.nCommitted ∨ Through nodeConfig looking 1 1 := by
  have hends : EndsStage nodeConfig looking 0 3 1 :=
    ⟨by decide +kernel, by decide +kernel, by decide +kernel, by decide +kernel⟩
  have htid : nodeConfig.tidOf (looking.ctx 3).tPast = 1 := by decide +kernel
  have hwait := (waits_end_in_time nodeConfig looking looking_reachable).2 0 3 1 hends
  rw [htid] at hwait
  exact hwait (by decide) (by decide)

end Gates

end Contrees.Conctrl.Concow
