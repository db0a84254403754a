import Contrees.Conctrl.ConcowShutdown
import Contrees.Conctrl.ConcowVersions

namespace Contrees.Conctrl.Concow

open Library.Runs Library.TaskLedger MpscList

variable {ρ μ : Type} {K : Config ρ μ} {s s' : State ρ μ} {φ : Nat → Phase Nat Nat} {θ θ' : Thread}
  {t u slot c wid pid : Nat} {ctx : Context ρ}

section Uses

def State.uses (s : State ρ μ) : Thread → Option Nat
  | .client c => if (s.clients c).hasRoom then (s.clients c).tid else none
  | .monitor =>
      match s.monitor.pc with
      | .checkpoint => some s.monitor.next
      | .publishRoot => if s.monitor.nCommitted < s.monitor.next then some s.monitor.next else none
      | _ => none
  | .pipe pid => if (s.pipes pid).pc.waited then some (s.pipes pid).tid else none
  | .worker wid => if (s.workers wid).pc.busy then some (s.workers wid).tid else none
  | .destructor => none

/-- The tid before, whose `root` the entry pipe is about to read. -/
def State.looks (s : State ρ μ) : Thread → Option Nat
  | .pipe pid =>
      match (s.pipes pid).pc with
      | .copyRoot | .cpPast | .readPast => some ((s.pipes pid).tid - 1)
      | _ => none
  | _ => none

theorem Inv.task_of_busy (_h : Inv K s φ) (hbusy : (s.workers wid).pc.busy = true) :
    (s.pool K).task wid = some (s.workers wid).tid := by
  cases hpc : (s.workers wid).pc <;> simp_all [WorkerPc.busy, Pool.task, State.pool, Worker.task]

theorem Inv.monitor_uses (h : Inv K s φ) (ht : s.uses .monitor = some t) :
    s.nCommitted ≤ t ∧ t ≤ s.monitor.ended := by
  have hm : s.monitor.Ordered s.nCommitted s.nSubmitted (s.paces 0) s.stop := h.order.monitor
  have hcommitted := hm.committed
  have hended := hm.ended
  simp only [State.uses] at ht
  cases hpc : s.monitor.pc <;> simp only [hpc] at ht <;> try cases ht
  case checkpoint =>
      rw [Monitor.ended, hpc] at hended ⊢
      exact ⟨hcommitted.trans hended, le_rfl⟩
  case publishRoot =>
      rw [Option.ite_none_right_eq_some] at ht
      obtain ⟨hlt, ht⟩ := ht
      cases ht
      rw [Monitor.ended, hpc]
      exact ⟨hcommitted.trans hlt.le, le_rfl⟩

theorem Inv.uses_window (h : Inv K s φ) (hθ : θ.Runs K) (ht : s.uses θ = some t) :
    s.nCommitted ≤ t ∧ t < s.nCommitted + bufferSize := by
  cases θ with
  | client c =>
      rw [State.uses, Option.ite_none_right_eq_some] at ht
      exact ⟨(h.held ht.2).2.1.le, h.slots.room c t ht.2 ht.1⟩
  | monitor =>
      obtain ⟨hle, hended⟩ := h.monitor_uses ht
      have hφ := h.tracks.ended t hended
      exact ⟨hle, h.tracks.window t (by rw [hφ]; trivial)⟩
  | pipe pid =>
      rw [State.uses, Option.ite_none_right_eq_some] at ht
      obtain ⟨hwaited, ht⟩ := ht
      cases ht
      exact ⟨(h.committed_lt_tid hθ).le, h.waited_lt hθ hwaited⟩
  | worker wid =>
      rw [State.uses, Option.ite_none_right_eq_some] at ht
      obtain ⟨hbusy, ht⟩ := ht
      cases ht
      obtain ⟨-, hlt, -, hlt'⟩ := h.task_window (h.task_of_busy hbusy)
      exact ⟨hlt.le, hlt'⟩
  | destructor => cases ht

theorem Inv.client_phase (h : Inv K s φ) (ht : s.uses (.client c) = some t) : φ t = .held c := by
  rw [State.uses, Option.ite_none_right_eq_some] at ht
  exact (h.held ht.2).1

theorem Inv.worker_phase (h : Inv K s φ) (ht : s.uses (.worker wid) = some t) :
    φ t = .working wid ∧ t < (s.pipes K.nPipes).tid := by
  rw [State.uses, Option.ite_none_right_eq_some] at ht
  obtain ⟨hbusy, ht⟩ := ht
  cases ht
  obtain ⟨hφ, -, hlt, -⟩ := h.task_window (h.task_of_busy hbusy)
  exact ⟨hφ, hlt⟩

theorem Inv.pipe_alone (h : Inv K s φ) (hpid : pid ≤ K.nPipes) (ht : s.uses (.pipe pid) = some t)
    (hθ : θ.Runs K) (hne : θ ≠ .pipe pid) (hu : s.uses θ = some u) : t ≠ u := by
  rw [State.uses, Option.ite_none_right_eq_some] at ht
  obtain ⟨hwaited, ht⟩ := ht
  cases ht
  cases θ with
  | client c =>
      rw [State.uses, Option.ite_none_right_eq_some] at hu
      exact h.held_ne_pipe hu.2 hpid hwaited
  | monitor =>
      have hended := (h.monitor_uses hu).2
      have hexit := h.ended_lt_exit
      have hle := h.order.tid_le hpid le_rfl
      omega
  | pipe q =>
      rw [State.uses, Option.ite_none_right_eq_some] at hu
      obtain ⟨hwaited', hu⟩ := hu
      cases hu
      rcases Nat.lt_trichotomy pid q with hlt | rfl | hlt
      · exact (h.order.tid_lt hlt hθ hwaited').ne'
      · exact absurd rfl hne
      · exact (h.order.tid_lt hlt hpid hwaited).ne
  | worker wid =>
      have hlt := (h.worker_phase hu).2
      have hle := h.order.tid_le hpid le_rfl
      omega
  | destructor => cases hu

theorem Inv.uses_phase (h : Inv K s φ) (hpipe : ∀ pid, θ ≠ .pipe pid) (ht : s.uses θ = some t) :
    (∃ c, θ = .client c ∧ φ t = .held c) ∨ (∃ wid, θ = .worker wid ∧ φ t = .working wid) ∨
      θ = .monitor ∧ φ t = .finished := by
  cases θ with
  | client c => exact .inl ⟨c, rfl, h.client_phase ht⟩
  | worker wid => exact .inr (.inl ⟨wid, rfl, (h.worker_phase ht).1⟩)
  | monitor => exact .inr (.inr ⟨rfl, h.tracks.ended t (h.monitor_uses ht).2⟩)
  | pipe pid => exact absurd rfl (hpipe pid)
  | destructor => cases ht

theorem Inv.uses_ne (h : Inv K s φ) (hθ : θ.Runs K) (hθ' : θ'.Runs K) (hne : θ ≠ θ')
    (ht : s.uses θ = some t) (hu : s.uses θ' = some u) : t ≠ u := by
  by_cases hpipe : ∃ pid, θ = .pipe pid
  · obtain ⟨pid, rfl⟩ := hpipe
    exact h.pipe_alone hθ ht hθ' hne.symm hu
  · by_cases hpipe' : ∃ pid, θ' = .pipe pid
    · obtain ⟨pid, rfl⟩ := hpipe'
      exact (h.pipe_alone hθ' hu hθ hne ht).symm
    · rintro rfl
      have hphase := h.uses_phase (not_exists.mp hpipe) ht
      have hphase' := h.uses_phase (not_exists.mp hpipe') hu
      rcases hphase with ⟨c, rfl, hφ⟩ | ⟨wid, rfl, hφ⟩ | ⟨rfl, hφ⟩ <;>
        rcases hphase' with ⟨d, rfl, hφ'⟩ | ⟨wid', rfl, hφ'⟩ | ⟨rfl, hφ'⟩ <;>
        simp_all

theorem Inv.looks_ne (h : Inv K s φ) (hθ : θ.Runs K) (ht : s.looks θ = some t)
    (hu : s.uses (.client c) = some u) : t % bufferSize ≠ u % bufferSize := by
  cases θ with
  | client | monitor | worker | destructor => cases ht
  | pipe pid =>
      have hpc : (s.pipes pid).pc = .copyRoot ∨ (s.pipes pid).pc = .cpPast ∨
          (s.pipes pid).pc = .readPast := by
        cases hpc : (s.pipes pid).pc <;> simp_all [State.looks]
      have hkind := h.order.kinds pid hθ
      have hwaited : (s.pipes pid).pc.waited = true := by
        rcases hpc with hpc | hpc | hpc <;> rw [hpc] <;> rfl
      obtain rfl : pid = 0 := by
        change (s.pipes pid).pc.OfKind K.nPipes pid at hkind
        rcases hpc with hpc | hpc | hpc <;> rw [hpc] at hkind <;> exact hkind
      obtain rfl : (s.pipes 0).tid - 1 = t := by
        rcases hpc with hpc | hpc | hpc <;> simpa [State.looks, hpc] using ht
      have hlow := h.committed_lt_tid (Nat.zero_le K.nPipes)
      have hhigh := h.waited_lt (Nat.zero_le _) hwaited
      obtain ⟨hle, hlt⟩ := h.uses_window (θ := .client c) trivial hu
      refine ring_ne (by omega) (by omega) hle hlt ?_
      rintro rfl
      have hφ := h.client_phase hu
      rw [State.uses, Option.ite_none_right_eq_some] at hu
      obtain ⟨-, -, hissued⟩ := h.held hu.2
      have hentered := (h.tracks.entered _ hissued).2 (by
        simp only [State.ledger, State.entry]
        split <;> omega)
      rw [hφ] at hentered
      exact hentered

end Uses

section Frames

theorem setCtx_ctx (h : slot ≠ t % bufferSize) : (s.setCtx slot ctx).ctx t = s.ctx t :=
  Function.update_of_ne h.symm _ _

@[simp]
theorem setCtx_stop : (s.setCtx slot ctx).stop = s.stop := by rw [State.setCtx]

@[simp]
theorem setCtx_nCommitted : (s.setCtx slot ctx).nCommitted = s.nCommitted := by rw [State.setCtx]

@[simp]
theorem setCtx_stages : (s.setCtx slot ctx).stages = s.stages := by rw [State.setCtx]

@[simp]
theorem setCtx_monitor : (s.setCtx slot ctx).monitor = s.monitor := by rw [State.setCtx]

@[simp]
theorem setCtx_clients : (s.setCtx slot ctx).clients = s.clients := by rw [State.setCtx]

@[simp]
theorem setCtx_pipes : (s.setCtx slot ctx).pipes = s.pipes := by rw [State.setCtx]

@[simp]
theorem setCtx_tids : (s.setCtx slot ctx).tids = s.tids := by rw [State.setCtx]

@[simp]
theorem setCtx_available : (s.setCtx slot ctx).available = s.available := by rw [State.setCtx]

@[simp]
theorem setCtx_destructor : (s.setCtx slot ctx).destructor = s.destructor := by rw [State.setCtx]

@[simp]
theorem setCtx_workers : (s.setCtx slot ctx).workers = s.workers := by rw [State.setCtx]

theorem setCtx_comm {i : Nat} {ctx' : Context ρ} (h : i ≠ slot) (s : State ρ μ) :
    (s.setCtx i ctx).setCtx slot ctx' = (s.setCtx slot ctx').setCtx i ctx := by
  rw [State.setCtx, State.setCtx, State.setCtx, State.setCtx, Function.update_comm h]

theorem Inv.clientStep_setCtx (h : Inv K s φ)
    (hslot : ∀ t, s.uses (.client c) = some t → slot ≠ t % bufferSize) :
    Concow.clientStep c (s.setCtx slot ctx) = (Concow.clientStep c s).setCtx slot ctx := by
  cases hc : s.clients c <;>
    simp only [State.uses, hc, Client.hasRoom, Client.tid, if_true, Option.some.injEq,
      forall_eq'] at hslot <;>
    simp only [Concow.clientStep, setCtx_clients, setCtx_nCommitted, hc] <;> try rfl
  case waiting tid key val => split_ifs <;> rfl
  case bubbleSno tid key val =>
      rw [h.slots.bubbling c tid key val (.inl hc)] at hslot
      have hself : (s.setCtx slot ctx).ctxs 0 = s.ctxs 0 :=
        Function.update_of_ne (Ne.symm hslot) _ _
      rw [setCtx_comm hslot, hself]
      rfl
  case writing tid key val field =>
      cases field with
      | stage => rfl
      | op | flags | sno | key | val =>
          simp only [Concow.writeField]
          rw [setCtx_comm hslot, setCtx_ctx hslot]
          rfl

theorem monitorStep_setCtx (hslot : ∀ t, s.uses .monitor = some t → slot ≠ t % bufferSize) :
    monitorStep (s.setCtx slot ctx) = (monitorStep s).setCtx slot ctx := by
  cases hpc : s.monitor.pc <;> simp only [State.uses, hpc] at hslot <;>
    simp only [monitorStep, setCtx_monitor, setCtx_stages, hpc] <;> try rfl
  case publishRoot =>
      split_ifs at hslot ⊢ with hlt
      · rw [setCtx_ctx (hslot _ rfl)]
        rfl
      · rfl
  case checkpoint =>
      simp only [setCtx_ctx (hslot _ rfl)]
      rfl
  all_goals split_ifs <;> rfl

theorem call_setCtx (h : slot ≠ t % bufferSize) (θ : Thread) (stage op : Nat) :
    (s.setCtx slot ctx).call K θ t stage op = (s.call K θ t stage op).setCtx slot ctx := by
  have hhandled : handled K (s.setCtx slot ctx) t op = handled K s t op := by
    rw [handled, handled, setCtx_ctx h]
    rfl
  rw [State.call, hhandled, setCtx_ctx h]
  simp only [State.setCtx, State.call, Function.update_comm h]

theorem loadCno_setCtx (h : slot ≠ t % bufferSize) :
    (s.setCtx slot ctx).loadCno t = (s.loadCno t).setCtx slot ctx := by
  rw [State.loadCno, setCtx_ctx h, setCtx_comm h]
  rfl

theorem pipeStep_setCtx (hslot : ∀ t, s.uses (.pipe pid) = some t → slot ≠ t % bufferSize)
    (hlooks : ∀ t, s.looks (.pipe pid) = some t → slot ≠ t % bufferSize) :
    pipeStep K pid (s.setCtx slot ctx) = (pipeStep K pid s).setCtx slot ctx := by
  have hctx : (s.pipes pid).pc.waited = true → slot ≠ (s.pipes pid).tid % bufferSize :=
    fun hwaited =>
    hslot _ (by rw [State.uses, if_pos hwaited])
  cases hpc : (s.pipes pid).pc <;> simp only [hpc, PipePc.waited, forall_const] at hctx <;>
    simp only [State.looks, hpc, Option.some.injEq, forall_eq'] at hlooks <;>
    simp only [pipeStep, setCtx_pipes, setCtx_stop, hpc] <;> try rfl
  case start =>
      have hstart : pipeStart K (s.setCtx slot ctx) pid (s.pipes pid) = pipeStart K s pid
          (s.pipes pid) := by
        simp only [pipeStart, setCtx_ctx hctx]
        rfl
      rw [hstart]
      rfl
  case copyRoot | cpPast | readPast =>
      rw [setCtx_comm hctx, setCtx_ctx hctx, setCtx_ctx hlooks]
      rfl
  case cpHandle =>
      rw [setCtx_comm hctx, setCtx_ctx hctx]
      rfl
  case cpVersion | version =>
      simp only [setCtx_ctx hctx, loadCno_setCtx hctx]
      split_ifs <;> rfl
  case retry =>
      simp only [setCtx_ctx hctx]
      rfl
  case init =>
      rw [call_setCtx hctx]
      rfl
  case handle =>
      rw [setCtx_ctx hctx, call_setCtx hctx]
      rfl
  all_goals split_ifs <;> rfl

theorem workerStep_setCtx (hslot : ∀ t, s.uses (.worker wid) = some t → slot ≠ t % bufferSize) :
    workerStep K wid (s.setCtx slot ctx) = (workerStep K wid s).setCtx slot ctx := by
  have hctx : (s.workers wid).pc.busy = true → slot ≠ (s.workers wid).tid % bufferSize :=
    fun hbusy =>
    hslot _ (by rw [State.uses, if_pos hbusy])
  cases hpc : (s.workers wid).pc <;> simp only [hpc, WorkerPc.busy, forall_const] at hctx <;>
    simp only [workerStep, setCtx_workers, setCtx_stages, setCtx_tids, setCtx_available, hpc] <;>
      try rfl
  case waitTid =>
      cases s.tids wid with
      | none => rfl
      | some tid =>
          simp only
          split_ifs <;> rfl
  case push => cases s.available.pushes (some wid) <;> rfl
  case test | retry | storeStage | finish =>
      simp only [setCtx_ctx hctx]
      rfl
  case version =>
      simp only [setCtx_ctx hctx, loadCno_setCtx hctx]
      split_ifs <;> rfl
  case waitStage =>
      simp only [setCtx_ctx hctx]
      split_ifs <;> rfl
  case reload =>
      rw [loadCno_setCtx hctx]
      rfl
  case handle =>
      rw [setCtx_ctx hctx, call_setCtx hctx]
      rfl

theorem destructorStep_setCtx :
    destructorStep K (s.setCtx slot ctx) = (destructorStep K s).setCtx slot ctx := by
  cases hd : s.destructor <;>
    simp only [destructorStep, setCtx_destructor, setCtx_monitor, setCtx_pipes, setCtx_workers,
      setCtx_tids, hd] <;>
    try rfl
  all_goals split_ifs <;> rfl

theorem Inv.step_setCtx (h : Inv K s φ) (hslot : ∀ t, s.uses θ = some t → slot ≠ t % bufferSize)
    (hlooks : ∀ t, s.looks θ = some t → slot ≠ t % bufferSize) :
    Concow.step K θ (s.setCtx slot ctx) = (Concow.step K θ s).setCtx slot ctx := by
  cases θ with
  | client c => exact h.clientStep_setCtx hslot
  | monitor => exact monitorStep_setCtx hslot
  | pipe pid => exact pipeStep_setCtx hslot hlooks
  | worker wid => exact workerStep_setCtx hslot
  | destructor => exact destructorStep_setCtx

end Frames

section Exclusion

/-- At any time a slot is used by one thread, and what the others do does not depend on
it; only the root of the tid before is read as well, when its client is done with it. -/
theorem slots_exclusive {ρ μ : Type} (K : Config ρ μ) (s : State ρ μ) (hs : Reachable (Step K) (initial K) s)
    (θ : Thread) (hθ : θ.Runs K) :
    (∀ θ' : Thread, θ'.Runs K → θ ≠ θ' → ∀ t u, s.uses θ = some t → s.uses θ' = some u →
        t % bufferSize ≠ u % bufferSize) ∧
      (∀ slot ctx, (∀ t, s.uses θ = some t → slot ≠ t % bufferSize) →
        (∀ t, s.looks θ = some t → slot ≠ t % bufferSize) →
          step K θ (s.setCtx slot ctx) = (step K θ s).setCtx slot ctx) ∧
        ∀ c t u, s.looks θ = some t → s.uses (.client c) = some u → t % bufferSize ≠ u % bufferSize := by
  obtain ⟨φ, h⟩ := inv_of_reachable hs
  refine ⟨fun θ' hθ' hne t u ht hu => ?_, fun slot ctx => h.step_setCtx, fun c t u ht hu => ?_⟩
  · obtain ⟨hle, hlt⟩ := h.uses_window hθ ht
    obtain ⟨hle', hlt'⟩ := h.uses_window hθ' hu
    exact ring_ne hle hlt hle' hlt' (h.uses_ne hθ hθ' hne ht hu)
  · exact h.looks_ne hθ ht hu

theorem slots_exclusive_sample :
    let K := sampleConfig endsAtSecond
    crossing.uses (.worker 0) = some 1 ∧ crossing.uses (.pipe 1) = some 2 ∧ 1 % bufferSize ≠ 2 % bufferSize ∧
      step K (.worker 0) (crossing.setCtx 2 (initialContext K 2)) =
        (step K (.worker 0) crossing).setCtx 2 (initialContext K 2) := by
  intro K
  have huses : crossing.uses (.worker 0) = some 1 := by decide +kernel
  have huses' : crossing.uses (.pipe 1) = some 2 := by decide +kernel
  have hlooks : crossing.looks (.worker 0) = none := by decide +kernel
  have h := slots_exclusive K crossing crossing_reachable (.worker 0) Nat.zero_lt_one
  refine ⟨huses, huses', h.1 (.pipe 1) le_rfl (by simp) 1 2 huses huses', h.2.1 2 _ ?_ ?_⟩
  · intro t ht
    rw [huses] at ht
    cases ht
    decide
  · intro t ht
    rw [hlooks] at ht
    cases ht

end Exclusion

section Workers

inductive Place
  | busy | popped | listed | pushing

def Stays (K : Config ρ μ) (s : State ρ μ) (w : Nat) : Place → Prop
  | .busy => ∃ t, (s.pool K).task w = some t
  | .popped => (s.pipes K.nPipes).pc = .assign w
  | .listed => InList s.available w
  | .pushing => (s.workers w).pc = .push ∧ ¬ InList s.available w

theorem Inv.stays (h : Inv K s φ) {w : Nat} (hw : w < K.nWorkers) : ∃ place, Stays K s w place := by
  cases htask : (s.pool K).task w with
  | some t => exact ⟨.busy, t, htask⟩
  | none =>
      rcases h.pool.free w hw htask with hlisted | hpopped | hpush
      · exact ⟨.listed, hlisted⟩
      · exact ⟨.popped, hpopped⟩
      · by_cases hlisted : InList s.available w
        · exact ⟨.listed, hlisted⟩
        · exact ⟨.pushing, hpush, hlisted⟩

theorem Inv.stays_unique (h : Inv K s φ) {w : Nat} {place place' : Place} (hp : Stays K s w place)
    (hp' : Stays K s w place') : place = place' := by
  have hlisted : InList s.available w → (s.pool K).task w = none ∧
    (s.pipes K.nPipes).pc ≠ .assign w := fun hl =>
    ⟨(h.pool.listed w hl).2.1, (h.pool.listed w hl).2.2.1⟩
  have hpopped : (s.pipes K.nPipes).pc = .assign w → (s.workers w).pc = .waitTid ∧
    (s.pool K).task w = none := fun hp =>
    (h.pool.popped w hp).2
  have hpush : (s.workers w).pc = .push → (s.pool K).task w = none :=
    fun hpc => Pool.task_of_push hpc
  cases place <;> cases place' <;> simp only [Stays] at hp hp' <;> grind

/-- No worker is lost or shared: each is in one place, no tid has two of them, and one that
gets a tid is waiting for it and has finished the one before. -/
theorem workers_in_one_place {ρ μ : Type} (K : Config ρ μ) (s : State ρ μ)
    (hs : Reachable (Step K) (initial K) s) :
    (∀ w < K.nWorkers, ∃! place, Stays K s w place) ∧
      (∀ w w' t, (s.pool K).task w = some t → (s.pool K).task w' = some t → w = w') ∧
        ∀ w, (s.pipes K.nPipes).pc = .assign w →
          w < K.nWorkers ∧ (s.workers w).pc = .waitTid ∧ s.tids w = some (s.workers w).lastTid := by
  obtain ⟨φ, h⟩ := inv_of_reachable hs
  refine ⟨fun w hw => ?_, fun w w' t ht ht' => ?_, fun w hpc => ?_⟩
  · obtain ⟨place, hplace⟩ := h.stays hw
    exact ⟨place, hplace, fun place' hplace' => h.stays_unique hplace' hplace⟩
  · have hφ := (h.tracks.working t w).2 ht
    rw [(h.tracks.working t w').2 ht'] at hφ
    cases hφ
    rfl
  · obtain ⟨hw, hwait, htask⟩ := h.pool.popped w hpc
    refine ⟨hw, hwait, ?_⟩
    change (s.workers w).pc = .waitTid at hwait
    cases htid : s.tids w with
    | none =>
        have hpast := h.closing.workers w (.inl htid)
        have hdone := h.closing.pipes hpast K.nPipes le_rfl
        rw [hdone] at hpc
        cases hpc
    | some tid =>
        simp only [Pool.task, State.pool, Worker.task, hwait, htid] at htask
        by_cases hlast : tid = (s.workers w).lastTid
        · rw [hlast]
        · simp [hlast] at htask

theorem workers_in_one_place_sample :
    ∃! place, Stays (sampleConfig endsAtOnce) (scheduled (sampleConfig endsAtOnce) 8 6 9) 0 place :=
  (workers_in_one_place (sampleConfig endsAtOnce) _ (scheduled_reachable 8 6 9)).1 0 Nat.one_pos

end Workers

section Shutdown

structure Joined (K : Config ρ μ) (s : State ρ μ) : Prop where
  joining : ∀ wid, s.destructor = .joinWorkers wid → ∀ w < wid, (s.workers w).pc = .finished
  workers : s.destructor = .finished → ∀ w < K.nWorkers, (s.workers w).pc = .finished

theorem workerStep_returned {w : Nat} (hpc : (s.workers w).pc = .finished) (wid : Nat) :
    ((workerStep K wid s).workers w).pc = .finished := by
  by_cases hw : w = wid
  · subst hw
    rw [workerStep, hpc]
    exact hpc
  · rw [workerStep_workers_of_ne hw, hpc]

theorem Joined.keep (h : Joined K s) (hd : s'.destructor = s.destructor)
    (hworkers : ∀ w, (s.workers w).pc = .finished → (s'.workers w).pc = .finished) :
    Joined K s' where
  joining wid hwid w hw := hworkers w (h.joining wid (hd ▸ hwid) w hw)
  workers hfin w hw := hworkers w (h.workers (hd ▸ hfin) w hw)

theorem Joined.destructorStep (h : Joined K s) : Joined K (destructorStep K s) := by
  cases hd : s.destructor <;> simp only [Concow.destructorStep, hd]
  case idle | finished => exact h
  case joinMonitor =>
      split
      · constructor <;> simp
      · exact h
  case joinPipes pid =>
      split
      · constructor <;> simp
      · split
        · constructor <;> simp
        · exact h
  case storeTids wid =>
      split <;> constructor <;> simp
  case joinWorkers wid =>
      split
      · rename_i hle
        refine ⟨by simp, fun _ w hw => h.joining wid hd w (hw.trans_le hle)⟩
      · split
        · rename_i hpc
          refine ⟨fun wid' hwid' w hw => ?_, by simp⟩
          cases hwid'
          rcases (Nat.lt_succ_iff.mp hw).eq_or_lt with rfl | hlt
          · exact hpc
          · exact h.joining wid hd w hlt
        · exact h

theorem joined_of_reachable (hs : Reachable (Step K) (initial K) s) : Joined K s := by
  refine hs.invariant (Joined K) ⟨fun wid hwid => ?_, fun hfin => ?_⟩ ?_
  · cases hwid
  · cases hfin
  · rintro a s t h - ha
    cases ha with
    | update => exact h.keep rfl fun w hw => hw
    | destroy => constructor <;> simp
    | thread _ θ hθ =>
        cases θ with
        | client c =>
            rw [Concow.step, clientStep_writes]
            exact h.keep rfl fun w hw => hw
        | monitor =>
            rw [Concow.step, monitorStep_writes]
            exact h.keep rfl fun w hw => hw
        | pipe pid =>
            rw [Concow.step, pipeStep_writes]
            exact h.keep rfl fun w hw => hw
        | worker wid =>
            refine h.keep (by rw [Concow.step, workerStep_writes]) fun w hw => ?_
            exact workerStep_returned hw wid
        | destructor => exact h.destructorStep

theorem exists_slot (n : Nat) {slot : Nat} (hslot : slot < bufferSize) :
    ∃ t, n < t ∧ t ≤ n + bufferSize ∧ t % bufferSize = slot := by
  refine ⟨n + 1 + (slot + bufferSize - (n + 1) % bufferSize) % bufferSize, ?_, ?_, ?_⟩ <;>
    simp only [bufferSize] at * <;> omega

theorem Inv.drained (h : Inv K s φ) (hd : s.destructor.pastPipes = true) :
    s.monitor.pc = .finished ∧ s.nCommitted = s.nSubmitted := by
  have hpc := h.closing.monitor (Destructor.pastMonitor_of_pastPipes hd)
  have hm : s.monitor.Ordered s.nCommitted s.nSubmitted (s.paces 0) s.stop := h.order.monitor
  obtain ⟨hstop, hall⟩ := hm.leaving (.inr hpc)
  have hsubmitted := (hm.stopped hstop).2 (by simp [hpc])
  have hpublished := hm.published (by simp [hpc])
  have hended := hm.ended.trans (hm.endedInited.trans (hm.inited.trans hm.initedLoaded))
  exact ⟨hpc, by omega⟩

/-- Once the destructor has returned, all threads have, no update that was submitted is
lost, and nothing happens any more. -/
theorem shutdown_drains {ρ μ : Type} (K : Config ρ μ) (s : State ρ μ) (hs : Reachable (Step K) (initial K) s)
    (hd : s.destructor = .finished) :
    (∀ θ : Thread, θ.Runs K → Returned s θ) ∧ (s.nCommitted = s.nSubmitted ∧ Recorded K s s.nSubmitted s.root) ∧
      (∀ slot < bufferSize, s.stages slot = ⊤ ∧ (s.ctxs slot).op = Operand.done) ∧
        ∀ a s', Step K a s s' → s' = s := by
  obtain ⟨φ, h⟩ := inv_of_reachable hs
  have hpast : s.destructor.pastPipes = true := by
    rw [hd]
    rfl
  obtain ⟨hmonitor, hcommitted⟩ := h.drained hpast
  have hreturned : ∀ θ : Thread, θ.Runs K → Returned s θ := by
    intro θ hθ
    cases θ with
    | client c => exact h.closing.quiet (h.closing.stop.2 (by simp [hd])) c
    | monitor => exact hmonitor
    | pipe pid => exact h.closing.pipes hpast pid hθ
    | worker wid => exact (joined_of_reachable hs).workers hd wid hθ
    | destructor => exact .inr hd
  refine ⟨hreturned, ⟨hcommitted, ?_⟩, fun slot hslot => ?_, fun a s' ha => ?_⟩
  · have hroot : s.rootTid = s.nSubmitted := by
      rw [State.rootTid, hmonitor, if_neg (by simp), hcommitted]
    rw [← hroot]
    exact recorded_of_reachable hs
  · obtain ⟨t, hlt, hle, rfl⟩ := exists_slot s.nCommitted hslot
    have hcontent := h.content hlt hle
    rw [h.phase_bubble (hcommitted ▸ hlt)] at hcontent
    exact hcontent
  · cases ha with
    | thread _ θ hθ => exact step_of_returned (hreturned θ hθ)
    | update _ c key val hc hidle =>
        rw [hd] at hidle
        cases hidle
    | destroy _ hc hidle =>
        rw [hd] at hidle
        cases hidle

def drained : State Unit Unit :=
  let K := sampleConfig endsAtOnce
  let s := scheduled K 8 0 0
  let s := (step K (.pipe 0))^[14]
    ((step K .monitor)^[8] { s with stop := true, destructor := .joinMonitor })
  let s := (step K .destructor)^[6] ((step K .monitor)^[14] ((step K (.pipe 1))^[12] s))
  (step K .destructor)^[2] ((step K (.worker 0))^[1] s)

theorem drained_reachable :
    Reachable (Step (sampleConfig endsAtOnce)) (initial (sampleConfig endsAtOnce)) drained := by
  have hsubmitted := scheduled_reachable (K := sampleConfig endsAtOnce) 8 0 0
  have hidle : ∀ c, (scheduled (sampleConfig endsAtOnce) 8 0 0).clients c = .idle := by
    intro c
    cases c with
    | zero => rfl
    | succ c => rfl
  have hdestroy := hsubmitted.next .destroy (.destroy _ hidle rfl)
  have hmonitor := reachable_iterate hdestroy .monitor trivial 8
  have hentry := reachable_iterate hmonitor (.pipe 0) (Nat.zero_le _) 14
  have hexit := reachable_iterate hentry (.pipe 1) le_rfl 12
  have hcommit := reachable_iterate hexit .monitor trivial 14
  have hjoin := reachable_iterate hcommit .destructor trivial 6
  have hworker := reachable_iterate hjoin (.worker 0) Nat.one_pos 1
  exact reachable_iterate hworker .destructor trivial 2

theorem shutdown_drains_sample : drained.nCommitted = 1 ∧ ∃ root, Recorded (sampleConfig endsAtOnce) drained 1 root := by
  have hissued : drained.nSubmitted = 1 := by decide +kernel
  have h := (shutdown_drains (sampleConfig endsAtOnce) drained drained_reachable
    (by decide +kernel)).2.1
  rw [hissued] at h
  exact ⟨h.1, _, h.2⟩

end Shutdown

end Contrees.Conctrl.Concow
