import Contrees.Conctrl.ConcowTraces

namespace Contrees.Conctrl.Concow

open Library.Runs Library.TaskLedger

section Workers

variable {ρ μ : Type} {K : Config ρ μ} {s s' : State ρ μ} {φ : Nat → Phase Nat Nat} {wid : Nat}
    {w : Worker}
  {a : Call ρ}

theorem History.workerMove (h : History K s) (hinv : Inv K s φ) (hcalls : s'.calls = s.calls)
    (hpipes : s'.pipes = s.pipes) (hworkers : s'.workers = Function.update s.workers wid w)
    (htids : s'.tids = s.tids) (hsubmitted : s'.nSubmitted = s.nSubmitted)
    (hC : s'.nCommitted = s.nCommitted) (htask : w.task (s.tids wid) = (s.pool K).task wid)
    (hctx : ∀ t (a : Call ρ), a.Leaves (s.ctx t) → a.Leaves (s'.ctx t))
    (hhas : ∀ t a, (s.pool K).task wid = some t → s.Left K t a →
      (s.workers wid).Has K.nPipes wid a → w.Has K.nPipes wid a) : History K s' where
  updates t hmod := by
    have hcallsOf : s'.callsOf t = s.callsOf t := by rw [State.callsOf, State.callsOf, hcalls]
    have hentry : s'.entry = s.entry := by rw [State.entry, State.entry, hpipes]
    have htasks : ∀ v, (s'.pool K).task v = (s.pool K).task v := by
      intro v
      by_cases hv : v = wid
      · subst hv
        rw [← htask]
        simp [Pool.task, State.pool, hworkers, htids]
      · simp [Pool.task, State.pool, hworkers, htids, hv]
    refine (h.updates t hmod).frame hinv hcallsOf (fun _ => hctx t) hC.ge ?_ ?_ ?_ ?_
    · rw [hentry, hsubmitted]
      exact id
    · rintro pid hpid ⟨hle, hnext, hhanded⟩
      rw [hpipes] at hnext
      rw [upper_of_pipes hpipes] at hhanded
      rw [hsubmitted] at hle
      refine ⟨⟨hle, hnext, hhanded⟩, fun a _ ha => ?_⟩
      rw [Stands, hpipes]
      exact ha
    · intro v hv
      rw [htasks] at hv
      refine ⟨hv, fun a hleft ha => ?_⟩
      rw [hworkers]
      by_cases hvw : v = wid
      · subst hvw
        rw [Function.update_self]
        exact hhas t a hv hleft ha
      · rwa [Function.update_of_ne hvw]
    · rintro ⟨hle, hexit, hidle⟩
      rw [hpipes] at hexit
      rw [hsubmitted] at hle
      exact ⟨hle, hexit, fun v => htasks v ▸ hidle v⟩
  bubbles t hmod := by
    rw [State.callsOf, hcalls]
    exact h.bubbles t hmod

theorem Call.Leaves.fields {ctx : Context ρ} (h : a.Leaves ctx) : ctx.op = a.after.op ∧
    ctx.retry = a.after.retry ∧ ctx.waitChild = a.after.waitChild := by
  obtain ⟨cno, rfl⟩ := h
  exact ⟨rfl, rfl, rfl⟩

theorem callsOf_call (s : State ρ μ) (θ : Thread) (t stage op t' : Nat) :
    (s.call K θ t stage op).callsOf t' = if t = t' then
      s.callsOf t' ++ [⟨θ, t, stage, s.ctx t, (handled K s t op).1⟩] else s.callsOf t' := by
  by_cases ht : t = t' <;> simp [State.callsOf, State.call, ht]

theorem Worker.Has.test (h : w.Has K.nPipes wid a) (hpc : w.pc = .waitTid) (tid : Nat) :
    Worker.Has K.nPipes wid { w with pc := .test, tid := tid, stage := 1 } a := by
  have hcall := h.call
  simp only [hpc] at hcall
  exact ⟨h.own, fun _ => le_rfl, hcall.1, fun _ => hcall.2.2⟩

theorem Worker.Has.due (h : w.Has K.nPipes wid a) (hpc : w.pc ≠ .waitTid) (ctx : Context ρ)
    (hdue : a.Due K.nPipes (K.nPipes + w.stage - 1)) :
    Worker.Has K.nPipes wid { w with pc := workerExec ctx } a := by
  refine ⟨h.own, fun _ => h.stage hpc, ?_⟩
  rcases workerExec_cases ctx with hexec | hexec <;> simp only [hexec] <;> exact hdue

theorem Worker.Has.storeStage (h : w.Has K.nPipes wid a) (hpc : w.pc = .storeStage) :
    Worker.Has K.nPipes wid { w with pc := .test, stage := w.stage + 1 } a := by
  have hcall := h.call
  have hstage := h.stage (by simp [hpc])
  simp only [hpc] at hcall
  refine ⟨h.own, fun _ => Nat.le_add_left _ _, hcall.1, fun _ => ?_⟩
  have hnot : ¬ (a.after.waitChild = true ∧ a.stage < K.nPipes) := by
    rintro ⟨-, hlt⟩
    omega
  simp only [Call.next, hcall.1, Bool.false_eq_true, if_false, if_neg hnot]
  omega

theorem Call.Leaves.loadCno {t : Nat} (h : a.Leaves (s.ctx t)) (t₀ : Nat) :
    a.Leaves ((s.loadCno t₀).ctx t) := by
  rcases loadCno_ctxs s t₀ (t % bufferSize) with heq | heq
  · rw [State.ctx, heq]
    exact h
  · rw [State.ctx, heq]
    exact h.withCno _

theorem History.workerOwn (h : History K s) (hinv : Inv K s φ) {t₀ : Nat}
    (ht₀ : (s.pool K).task wid = some t₀)
    (hw : WorkerWrites s s' wid w t₀) (hcalls : ∀ t, t ≠ t₀ → s'.callsOf t = s.callsOf t)
    (htask : ∀ t, w.task (s.tids wid) = some t → t = t₀)
    (hworking : w.task (s.tids wid) = some t₀ → ∃ a, s'.Left K t₀ a ∧ w.Has K.nPipes wid a)
    (hpast : w.task (s.tids wid) = none → ∃ a, s'.Left K t₀ a ∧ a.Ends) : History K s' := by
  obtain ⟨hφ, hC₀, hexit, hlt₀⟩ := hinv.task_window ht₀
  have hmod₀ : t₀ % bufferSize ≠ 0 := by
    have hcontent := hinv.content hC₀ hlt₀.le
    rw [hφ] at hcontent
    exact hcontent.2.1
  have hentry : s'.entry = s.entry := hw.entry
  have htasks : ∀ v, v ≠ wid → (s'.pool K).task v = (s.pool K).task v := by
    intro v hv
    simp [Pool.task, State.pool, hw.workers, hw.tids, hv]
  have hself : (s'.pool K).task wid = w.task (s.tids wid) := by
    simp [Pool.task, State.pool, hw.workers, hw.tids]
  have hwself : s'.workers wid = w := by rw [hw.workers, Function.update_self]
  constructor
  · intro t hmod
    by_cases ht : t = t₀
    · subst ht
      have hnot : ∀ v, v ≠ wid → (s'.pool K).task v ≠ some t := by
        intro v hv hv'
        rw [htasks v hv] at hv'
        have hφ' := (hinv.task_window hv').1
        rw [hφ] at hφ'
        exact hv (Phase.working.inj hφ').symm
      constructor
      · rintro (hle | hlt)
        · have := hexit.trans_le hinv.exit_le_entry
          omega
        · rw [hw.nSubmitted] at hlt
          rw [hinv.phase_bubble hlt] at hφ
          simp at hφ
      · rintro pid hpid ⟨-, hnext, -⟩
        rw [hw.pipes] at hnext
        have := hinv.order.tid_le hpid le_rfl
        omega
      · intro v hv
        by_cases hvw : v = wid
        · subst hvw
          rw [hwself]
          exact hworking (hself ▸ hv)
        · exact absurd hv (hnot v hvw)
      · intro hp
        have hnone : w.task (s.tids wid) = none := by
          rw [Option.eq_none_iff_forall_ne_some]
          intro t' ht'
          obtain rfl := htask t' ht'
          exact hp.idle wid (hself.trans ht')
        obtain ⟨a, hleft, hends⟩ := hpast hnone
        exact ⟨a, hleft.1, hends, fun _ => hleft.2⟩
    · refine (h.updates t hmod).frame hinv (hcalls t ht)
        (fun hkept a ha => ?_) hw.nCommitted.ge ?_ ?_ ?_ ?_
      · have hslot :=
          ring_ne hkept.committed (hinv.entered_lt hkept.entered hkept.issued) hC₀.le hlt₀ ht
        rw [State.ctx, hw.ctxs _ hslot]
        exact ha
      · rw [hentry, hw.nSubmitted]
        exact id
      · rintro pid hpid ⟨hle, hnext, hhanded⟩
        rw [hw.pipes] at hnext
        rw [upper_of_pipes hw.pipes] at hhanded
        rw [hw.nSubmitted] at hle
        refine ⟨⟨hle, hnext, hhanded⟩, fun a _ ha => ?_⟩
        rw [Stands, hw.pipes]
        exact ha
      · intro v hv
        by_cases hvw : v = wid
        · subst hvw
          exact absurd (htask t (hself.symm.trans hv)) ht
        · rw [htasks v hvw] at hv
          refine ⟨hv, fun a _ ha => ?_⟩
          rw [hw.workers, Function.update_of_ne hvw]
          exact ha
      · rintro ⟨hle, hexit', hidle⟩
        rw [hw.pipes] at hexit'
        rw [hw.nSubmitted] at hle
        refine ⟨hle, hexit', fun v hv => ?_⟩
        by_cases hvw : v = wid
        · subst hvw
          exact ht (Option.some.inj (hv.symm.trans ht₀))
        · exact hidle v ((htasks v hvw).trans hv)
  · intro t hmod
    have ht : t ≠ t₀ := by
      rintro rfl
      exact hmod₀ hmod
    rw [hcalls t ht]
    exact h.bubbles t hmod

theorem History.handleWorker (h : History K s) (hinv : Inv K s φ)
    (hpc : (s.workers wid).pc = .handle) :
    History K (workerStep K wid s) := by
  have ht₀ : (s.pool K).task wid = some (s.workers wid).tid := by
    simp [Pool.task, State.pool, Worker.task, hpc]
  obtain ⟨hφ, hC, -, hlt⟩ := hinv.task_window ht₀
  have hcontent := hinv.content hC hlt.le
  rw [hφ] at hcontent
  obtain ⟨a, hleft, hhas⟩ := (h.updates _ hcontent.2.1).workers wid ht₀
  have hdue := hhas.call
  have hstage := hhas.stage (by simp [hpc])
  simp only [hpc] at hdue
  simp only [Concow.workerStep, hpc]
  set s' : State ρ μ :=
    (s.call K (.worker wid) (s.workers wid).tid (K.nPipes + (s.workers wid).stage - 1)
    (s.ctx (s.workers wid).tid).op).setWorker wid { s.workers wid with pc := .retry } with hs'
  set b : Call ρ := ⟨.worker wid, (s.workers wid).tid, K.nPipes + (s.workers wid).stage - 1,
    s.ctx (s.workers wid).tid,
      (handled K s (s.workers wid).tid (s.ctx (s.workers wid).tid).op).1⟩ with hb
  have hw : WorkerWrites s s' wid { s.workers wid with pc := .retry } (s.workers wid).tid :=
    ⟨rfl, fun i hi => Function.update_of_ne hi _ _, fun _ _ => rfl, rfl, rfl, rfl, rfl, rfl,
      rfl, rfl⟩
  have hcalls : ∀ t, s'.callsOf t =
      if (s.workers wid).tid = t then s.callsOf t ++ [b] else s.callsOf t :=
    fun t => callsOf_call s _ _ _ _ t
  refine h.workerOwn hinv ht₀ hw (fun t ht => ?_) (fun t ht => ?_) (fun _ => ⟨b, ⟨?_, ?_⟩, ?_⟩)
    (fun hnone => ?_)
  · rw [hcalls, if_neg (Ne.symm ht)]
  · simpa [Worker.task] using ht.symm
  · rw [hcalls, if_pos rfl]
    refine Trace.next _ a b hleft.1 ⟨hdue.1, hdue.2.symm, hleft.2, fun hlt => ?_,
      fun _ => ⟨wid, rfl, hhas.own⟩⟩
    simp only [hb] at hlt
    omega
  · exact ⟨_, Function.update_self _ _ _⟩
  · exact ⟨fun _ => rfl, fun _ => hstage, rfl⟩
  · simp [Worker.task] at hnone

theorem History.finishWorker (h : History K s) (hinv : Inv K s φ)
    (hpc : (s.workers wid).pc = .finish) :
    History K (workerStep K wid s) := by
  have ht₀ := hinv.task_of_finish hpc
  obtain ⟨hφ, hC, -, hlt⟩ := hinv.task_window ht₀
  have hcontent := hinv.content hC hlt.le
  rw [hφ] at hcontent
  obtain ⟨a, hleft, hhas⟩ := (h.updates _ hcontent.2.1).workers wid ht₀
  have hends := hhas.call
  simp only [hpc] at hends
  simp only [Concow.workerStep, hpc, hcontent.2.2.sno, sno_slot]
  have hw : WorkerWrites s ((s.setStage ((s.workers wid).tid % bufferSize) ⊤).setWorker wid
      { s.workers wid with pc := .push, lastTid := (s.workers wid).tid }) wid
      { s.workers wid with pc := .push, lastTid := (s.workers wid).tid } (s.workers wid).tid :=
    ⟨rfl, fun _ _ => rfl, fun i hi => Function.update_of_ne hi _ _, rfl, rfl, rfl, rfl, rfl,
      rfl, rfl⟩
  refine h.workerOwn hinv ht₀ hw (fun _ _ => rfl) (fun t ht => ?_) (fun ht => ?_)
    (fun _ => ⟨a, hleft, hends⟩)
  · simp [Worker.task] at ht
  · simp [Worker.task] at ht

theorem History.workerLocal (h : History K s) (hinv : Inv K s φ)
    (htask : w.task (s.tids wid) = (s.pool K).task wid)
    (hhas : ∀ t a, (s.pool K).task wid = some t → s.Left K t a →
    (s.workers wid).Has K.nPipes wid a →
      w.Has K.nPipes wid a) : History K (s.setWorker wid w) :=
  h.workerMove hinv rfl rfl rfl rfl rfl rfl htask (fun _ _ => id) hhas

theorem History.loadWorker (h : History K s) (hinv : Inv K s φ) :
    History K (s.loadCno (s.workers wid).tid) :=
  h.workerMove hinv rfl rfl (Function.update_eq_self wid s.workers).symm rfl rfl rfl rfl
    (fun _ _ ha => ha.loadCno _) (fun _ _ _ _ ha => ha)

theorem State.Left.fields {t : Nat} (h : s.Left K t a) (ht : (s.pool K).task wid = some t)
    (htid : (s.pool K).task wid = some (s.workers wid).tid) :
    (s.ctx (s.workers wid).tid).op = a.after.op ∧
      (s.ctx (s.workers wid).tid).retry = a.after.retry := by
  obtain rfl := Option.some.inj (ht.symm.trans htid)
  exact ⟨h.2.fields.1, h.2.fields.2.1⟩

theorem History.waitTidWorker (h : History K s) (hinv : Inv K s φ)
    (hpc : (s.workers wid).pc = .waitTid) :
    History K (workerStep K wid s) := by
  simp only [Concow.workerStep, hpc]
  split
  · rename_i htop
    have hnone : (s.pool K).task wid = none := by
      simp [Pool.task, State.pool, Worker.task, hpc, htop]
    refine h.workerLocal hinv (by rw [hnone]; rfl) fun t a ht => ?_
    rw [hnone] at ht
    simp at ht
  · rename_i tid htid
    split
    · exact h
    · rename_i hne
      refine h.workerLocal hinv ?_ fun t a _ _ ha => ha.test hpc tid
      simp [Pool.task, State.pool, Worker.task, hpc, htid, hne]

theorem History.testWorker (h : History K s) (hinv : Inv K s φ) (hpc : (s.workers wid).pc = .test) :
    History K (workerStep K wid s) := by
  have hbusy : (s.pool K).task wid = some (s.workers wid).tid := by
    simp [Pool.task, State.pool, Worker.task, hpc]
  simp only [Concow.workerStep, hpc]
  split
  · rename_i hop
    refine h.workerLocal hinv hbusy.symm fun t a ht hleft ha => ⟨ha.own,
      fun _ => ha.stage (by simp [hpc]), ?_⟩
    have hcall := ha.call
    simp only [hpc] at hcall
    exact ⟨hcall.1, (hleft.fields ht hbusy).1.symm.trans hop⟩
  · rename_i hop
    have hexec := workerExec_task (s.workers wid) (s.tids wid) (s.ctx (s.workers wid).tid)
    refine h.workerLocal hinv (hexec.1.trans hbusy.symm) fun t a ht hleft ha => ha.due
      (by simp [hpc]) _ ?_
    have hcall := ha.call
    simp only [hpc] at hcall
    have hop' : a.after.op ≠ Operand.done := (hleft.fields ht hbusy).1 ▸ hop
    exact ⟨.inr hop', hcall.2 hop'⟩

theorem History.waitStageWorker (h : History K s) (hinv : Inv K s φ)
    (hpc : (s.workers wid).pc = .waitStage) :
    History K (workerStep K wid s) := by
  have hbusy : (s.pool K).task wid = some (s.workers wid).tid := by
    simp [Pool.task, State.pool, Worker.task, hpc]
  have hgo : ∀ pc, pc = WorkerPc.handle ∨ pc = .reload →
      History K (s.setWorker wid { s.workers wid with pc := pc }) := by
    intro pc hpc'
    refine h.workerLocal hinv ?_ fun t a _ _ ha => ⟨ha.own, fun _ => ha.stage (by simp [hpc]), ?_⟩
    · rcases hpc' with rfl | rfl <;> exact hbusy.symm
    · have hcall := ha.call
      rcases hpc' with rfl | rfl <;> simpa only [hpc] using hcall
  simp only [Concow.workerStep, hpc]
  split
  · split
    · exact hgo _ (.inl rfl)
    · exact hgo _ (.inr rfl)
  · exact hgo _ (.inl rfl)

theorem History.retryWorker (h : History K s) (hinv : Inv K s φ)
    (hpc : (s.workers wid).pc = .retry) :
    History K (workerStep K wid s) := by
  have hbusy : (s.pool K).task wid = some (s.workers wid).tid := by
    simp [Pool.task, State.pool, Worker.task, hpc]
  simp only [Concow.workerStep, hpc]
  split
  · rename_i hretry
    have hexec := workerExec_task (s.workers wid) (s.tids wid) (s.ctx (s.workers wid).tid)
    refine h.workerLocal hinv (hexec.1.trans hbusy.symm) fun t a ht hleft ha => ha.due
      (by simp [hpc]) _ ?_
    have hcall := ha.call
    simp only [hpc] at hcall
    have hretry' : a.after.retry = true := (hleft.fields ht hbusy).2 ▸ hretry
    exact ⟨.inl hretry', by simp [Call.next, hretry', hcall]⟩
  · rename_i hretry
    refine h.workerLocal hinv hbusy.symm fun t a ht hleft ha => ⟨ha.own,
      fun _ => ha.stage (by simp [hpc]), ?_⟩
    have hcall := ha.call
    simp only [hpc] at hcall
    have hretry' : ¬ a.after.retry = true := (hleft.fields ht hbusy).2 ▸ hretry
    exact ⟨by simpa using hretry', hcall⟩

theorem History.pushWorker (h : History K s) (hinv : Inv K s φ) (hpc : (s.workers wid).pc = .push) :
    History K (workerStep K wid s) := by
  have hnone := Pool.task_of_push (p := s.pool K) hpc
  simp only [Concow.workerStep, hpc]
  split
  · exact h.quiet hinv rfl rfl rfl (fun _ => rfl) (fun _ _ _ => rfl) le_rfl le_rfl
      fun _ _ hle => hle
  · exact h.quiet hinv rfl rfl rfl (fun _ => rfl) (fun _ _ _ => rfl) le_rfl le_rfl
      fun _ _ hle => hle
  · refine h.workerMove (w := { s.workers wid with pc := .waitTid }) hinv rfl rfl rfl rfl rfl rfl
      (hinv.task_pushed hpc) (fun _ _ => id) fun t a ht => ?_
    rw [hnone] at ht
    simp at ht

theorem History.workerStep (h : History K s) (hinv : Inv K s φ) :
    History K (workerStep K wid s) := by
  have hbusy : (s.workers wid).pc ≠ .waitTid → (s.workers wid).pc ≠ .push →
      (s.workers wid).pc ≠ .finished → (s.pool K).task wid = some (s.workers wid).tid := by
    intro h1 h2 h3
    cases hpc : (s.workers wid).pc <;> simp_all [Pool.task, State.pool, Worker.task]
  cases hpc : (s.workers wid).pc
  case waitTid => exact h.waitTidWorker hinv hpc
  case test => exact h.testWorker hinv hpc
  case waitStage => exact h.waitStageWorker hinv hpc
  case handle => exact h.handleWorker hinv hpc
  case retry => exact h.retryWorker hinv hpc
  case finish => exact h.finishWorker hinv hpc
  case push => exact h.pushWorker hinv hpc
  all_goals
    simp only [Concow.workerStep, hpc]
    simp only [hpc, ne_eq, reduceCtorEq, not_false_eq_true, forall_const] at hbusy
  case version =>
      split
      · exact h.loadWorker hinv
      · refine h.workerLocal hinv hbusy.symm
          fun t a _ _ ha => ⟨ha.own, fun _ => ha.stage (by simp [hpc]), ?_⟩
        simpa only [hpc] using ha.call
  case reload =>
      refine h.workerMove hinv rfl rfl rfl rfl rfl rfl hbusy.symm (fun _ _ ha => ha.loadCno _) ?_
      intro t a _ _ ha
      refine ⟨ha.own, fun _ => ha.stage (by simp [hpc]), ?_⟩
      simpa only [hpc] using ha.call
  case storeStage =>
      refine h.workerMove hinv rfl rfl rfl rfl rfl rfl hbusy.symm (fun _ _ => id) ?_
      intro t a _ _ ha
      exact ha.storeStage hpc
  case finished => exact h

end Workers

section Pipes

variable {ρ μ : Type} {K : Config ρ μ} {s s' : State ρ μ} {φ : Nat → Phase Nat Nat} {pid q t : Nat}
    {p : Pipe}
  {a : Call ρ}

theorem Pipe.has_of_not_waited {nPipes : Nat} (hpc : p.pc.waited = false) (h : a.Ready pid) :
    p.Has nPipes pid a := by
  unfold Pipe.Has
  cases hpc' : p.pc <;> first | exact h | simp [hpc', PipePc.waited] at hpc

theorem Pipe.ready_of_not_waited {nPipes : Nat} (hpc : p.pc.waited = false)
    (h : p.Has nPipes pid a) :
    a.Ready pid := by
  unfold Pipe.Has at h
  cases hpc' : p.pc <;> simp only [hpc'] at h <;>
    first | exact h | simp [hpc', PipePc.waited] at hpc

theorem Inv.at_pipe (h : Inv K s φ) (hpid : pid ≤ K.nPipes)
    (hwaited : (s.pipes pid).pc.waited = true)
    (hentered : pid ≠ 0 ∨ (s.pipes 0).pc.entered = true) (hle : (s.pipes pid).tid ≤ s.nSubmitted) :
    At s pid (s.pipes pid).tid := by
  refine ⟨hle, le_rfl, ?_⟩
  cases pid with
  | zero =>
      change (s.pipes 0).tid < s.entry
      simp [State.entry, hentered.resolve_left (by simp)]
  | succ q => exact h.order.tid_lt (Nat.lt_succ_self q) hpid hwaited

theorem Inv.not_at_other (h : Inv K s φ) (hpid : pid ≤ K.nPipes)
    (hwaited : (s.pipes pid).pc.waited = true)
    (hq : q ≤ K.nPipes) (hne : q ≠ pid) : ¬ At s q (s.pipes pid).tid := by
  rintro ⟨-, hnext, hhanded⟩
  rcases Nat.lt_or_gt_of_ne hne with hlt | hlt
  · have := h.order.tid_lt hlt hpid hwaited
    omega
  · obtain ⟨q, rfl⟩ : ∃ q', q = q' + 1 := ⟨q - 1, by omega⟩
    have hle := h.order.tid_le (Nat.le_of_lt_succ hlt) (Nat.le_of_succ_le hq)
    change (s.pipes pid).tid < (s.pipes q).tid at hhanded
    omega

theorem upper_update (hpipes : s'.pipes = Function.update s.pipes pid p)
    (htid : p.tid = (s.pipes pid).tid) (hpos : q ≠ 0) : s'.upper q = s.upper q := by
  cases q with
  | zero => exact absurd rfl hpos
  | succ q =>
      rw [State.upper, State.upper, hpipes]
      by_cases hq : q = pid
      · subst hq
        rw [Function.update_self, htid]
      · rw [Function.update_of_ne hq]

theorem History.pipeMove (h : History K s) (hinv : Inv K s φ)
    (hpipes : s'.pipes = Function.update s.pipes pid p)
    (htid : p.tid = (s.pipes pid).tid) (hcalls : s'.calls = s.calls)
    (hworkers : s'.workers = s.workers)
    (htids : s'.tids = s.tids) (hsubmitted : s'.nSubmitted = s.nSubmitted)
    (hC : s'.nCommitted = s.nCommitted)
    (hctx : ∀ t, Kept s t → ∀ a : Call ρ, a.Leaves (s.ctx t) → a.Leaves (s'.ctx t))
    (hentry : s.entry ≤ s'.entry)
    (hskip : ∀ t, s.entry ≤ t → t < s'.entry → t % bufferSize ≠ 0 → s.nSubmitted < t)
    (hhas : ∀ a, At s pid (s.pipes pid).tid → s.Left K (s.pipes pid).tid a →
      (s.pipes pid).Has K.nPipes pid a → p.Has K.nPipes pid a) : History K s' where
  updates t hmod := by
    have hcallsOf : s'.callsOf t = s.callsOf t := by rw [State.callsOf, State.callsOf, hcalls]
    have htasks : ∀ v, (s'.pool K).task v = (s.pool K).task v := by
      intro v
      simp only [Pool.task, State.pool, hworkers, htids]
    have hptid : ∀ q, (s'.pipes q).tid = (s.pipes q).tid := by
      intro q
      rw [hpipes]
      by_cases hq : q = pid
      · subst hq
        rw [Function.update_self, htid]
      · rw [Function.update_of_ne hq]
    refine (h.updates t hmod).frame hinv hcallsOf (hctx t) hC.ge ?_ ?_ ?_ ?_
    · rw [hsubmitted]
      exact Or.imp_left hentry.trans
    · rintro q hq ⟨hle, hnext, hhanded⟩
      rw [hptid] at hnext
      rw [hsubmitted] at hle
      have hat : At s q t := by
        refine ⟨hle, hnext, ?_⟩
        by_cases hpos : q = 0
        · subst hpos
          by_contra hnot
          have := hskip t (not_lt.mp hnot) hhanded hmod
          omega
        · rwa [upper_update hpipes htid hpos] at hhanded
      refine ⟨hat, fun a hleft ha => ?_⟩
      rw [Stands, hpipes]
      by_cases hqp : q = pid
      · subst hqp
        rw [Stands] at ha
        rw [Function.update_self, htid]
        split
        · rename_i heq
          subst heq
          rw [if_pos rfl] at ha
          exact hhas a hat hleft ha
        · rename_i hne
          rwa [if_neg hne] at ha
      · rw [Function.update_of_ne hqp]
        exact ha
    · intro v hv
      rw [htasks] at hv
      refine ⟨hv, fun a _ ha => ?_⟩
      rw [hworkers]
      exact ha
    · rintro ⟨hle, hexit, hidle⟩
      rw [hptid] at hexit
      exact ⟨hsubmitted ▸ hle, hexit, fun v => htasks v ▸ hidle v⟩
  bubbles t hmod := by
    rw [State.callsOf, hcalls]
    exact h.bubbles t hmod

theorem History.pipeOwn (h : History K s) (hinv : Inv K s φ) (hpid : pid ≤ K.nPipes)
    (hwaited : (s.pipes pid).pc.waited = true) (hw : PipeWrites s s' pid p)
    (htid : p.tid = (s.pipes pid).tid ∨ p.tid = (s.pipes pid).tid + 1 ∧ p.pc = .loop)
    (hentry : ∀ t, t ≠ (s.pipes pid).tid → (t < s'.entry ↔ t < s.entry))
    (hcalls : ∀ t, t ≠ (s.pipes pid).tid → s'.callsOf t = s.callsOf t)
    (htasks : ∀ v t, t ≠ (s.pipes pid).tid →
    ((s'.pool K).task v = some t ↔ (s.pool K).task v = some t))
    (hown : (s.pipes pid).tid % bufferSize ≠ 0 → Called K s' (s.pipes pid).tid)
    (hbubble : (s.pipes pid).tid % bufferSize = 0 → s'.callsOf (s.pipes pid).tid = []) :
    History K s' := by
  have hC₀ := hinv.committed_lt_tid hpid
  have hlt₀ := hinv.waited_lt hpid hwaited
  have hptid : ∀ q t, t ≠ (s.pipes pid).tid → ((s'.pipes q).tid ≤ t ↔ (s.pipes q).tid ≤ t) := by
    intro q t ht
    rw [hw.pipes]
    by_cases hq : q = pid
    · subst hq
      rw [Function.update_self]
      rcases htid with heq | ⟨heq, -⟩ <;> omega
    · rw [Function.update_of_ne hq]
  have hupper : ∀ q t, t ≠ (s.pipes pid).tid → (t < s'.upper q ↔ t < s.upper q) := by
    intro q t ht
    cases q with
    | zero => exact hentry t ht
    | succ q =>
        have := hptid q t ht
        change t < (s'.pipes q).tid ↔ t < (s.pipes q).tid
        omega
  constructor
  · intro t hmod
    by_cases ht : t = (s.pipes pid).tid
    · rw [ht] at hmod ⊢
      exact hown hmod
    · refine (h.updates t hmod).frame hinv (hcalls t ht)
        (fun hkept a ha => ?_) hw.nCommitted.ge ?_ ?_ ?_ ?_
      · have hslot :=
          ring_ne hkept.committed (hinv.entered_lt hkept.entered hkept.issued) hC₀.le hlt₀ ht
        rw [State.ctx, hw.ctxs _ hslot]
        exact ha
      · have := hentry t ht
        rw [hw.nSubmitted]
        omega
      · rintro q hq ⟨hle, hnext, hhanded⟩
        rw [hw.nSubmitted] at hle
        refine ⟨⟨hle, (hptid q t ht).1 hnext, (hupper q t ht).1 hhanded⟩, fun a _ ha => ?_⟩
        rw [Stands, hw.pipes]
        by_cases hqp : q = pid
        · subst hqp
          rw [Stands, if_neg ht] at ha
          rw [Function.update_self]
          rcases htid with heq | ⟨heq, hloop⟩
          · rwa [heq, if_neg ht]
          · split
            · exact Pipe.has_of_not_waited (by rw [hloop]; rfl) ha
            · exact ha
        · rw [Function.update_of_ne hqp]
          exact ha
      · intro v hv
        refine ⟨(htasks v t ht).1 hv, fun a _ ha => ?_⟩
        rw [hw.workers]
        exact ha
      · rintro ⟨hle, hexit, hidle⟩
        have := hptid K.nPipes t ht
        exact ⟨hw.nSubmitted ▸ hle, by omega, fun v hv => hidle v ((htasks v t ht).2 hv)⟩
  · intro t hmod
    by_cases ht : t = (s.pipes pid).tid
    · rw [ht] at hmod ⊢
      exact hbubble hmod
    · rw [hcalls t ht]
      exact h.bubbles t hmod

theorem Inv.no_task (h : Inv K s φ) (hpid : pid ≤ K.nPipes) (v : Nat) :
    (s.pool K).task v ≠ some (s.pipes pid).tid := by
  intro hv
  have hexit := (h.task_window hv).2.2.1
  have := h.order.tid_le hpid le_rfl
  omega

theorem entry_of_retry
    (hpipes : s'.pipes = Function.update s.pipes pid { s.pipes pid with pc := .retry }) :
    s'.entry = if pid = 0 then (s.pipes pid).tid + 1 else s.entry := by
  split_ifs with hpos
  · subst hpos
    simp [State.entry, hpipes, PipePc.entered]
  · simp [State.entry, hpipes, Ne.symm hpos]

theorem History.pipeCall (h : History K s) (hinv : Inv K s φ) (hpid : pid ≤ K.nPipes)
    (hwaited : (s.pipes pid).pc.waited = true) (hle : (s.pipes pid).tid ≤ s.nSubmitted)
    (hmod : (s.pipes pid).tid % bufferSize ≠ 0) (op : Nat)
    (hs' : s' = (s.call K (.pipe pid) (s.pipes pid).tid pid op).setPipe pid
      { s.pipes pid with pc := .retry })
    (hcall : (s.ctx (s.pipes pid).tid).op = op)
    (hfirst : pid = 0 ∧ (s.pipes pid).pc = .init ∧ op = Operand.init ∨
      ∃ a, s.Left K (s.pipes pid).tid a ∧ a.Due K.nPipes pid ∧ pid < K.nPipes ∧
        (s.pipes pid).pc.entered = true) : History K s' := by
  subst hs'
  set s' : State ρ μ :=
    (s.call K (.pipe pid)
      (s.pipes pid).tid pid op).setPipe pid { s.pipes pid with pc := .retry } with hs'
  set b : Call ρ := ⟨.pipe pid, (s.pipes pid).tid, pid, s.ctx (s.pipes pid).tid,
    (handled K s (s.pipes pid).tid op).1⟩ with hb
  have hw : PipeWrites s s' pid { s.pipes pid with pc := .retry } := pipeWrites_call K _ _ _
  have hcalls : ∀ t, s'.callsOf t =
      if (s.pipes pid).tid = t then s.callsOf t ++ [b] else s.callsOf t :=
    fun t => callsOf_call s _ _ _ _ t
  have hself : s'.pipes pid = { s.pipes pid with pc := .retry } := Function.update_self _ _ _
  have hafter : s'.entry = if pid = 0 then (s.pipes pid).tid + 1 else s.entry :=
    entry_of_retry hw.pipes
  have hentry : ∀ t, t ≠ (s.pipes pid).tid → (t < s'.entry ↔ t < s.entry) := by
    intro t ht
    rw [hafter]
    split_ifs with hpos
    · subst hpos
      rw [State.entry]
      split <;> omega
    · exact Iff.rfl
  have htrace : Trace K.nPipes (s'.callsOf (s.pipes pid).tid) b := by
    rw [hcalls, if_pos rfl]
    rcases hfirst with ⟨rfl, hpc, rfl⟩ | ⟨a, hleft, hdue, hlt, -⟩
    · have hnew : s.callsOf (s.pipes 0).tid = [] := by
        apply (h.updates _ hmod).fresh
        exact .inl (by simp [State.entry, hpc, PipePc.entered])
      rw [hnew]
      exact Trace.first b rfl rfl hcall
    · refine Trace.next _ a b hleft.1 ⟨hdue.1, hdue.2.symm, hleft.2, fun _ => rfl, fun hle => ?_⟩
      exact absurd hlt (not_lt.mpr hle)
  have hlt : pid < K.nPipes := by
    rcases hfirst with ⟨rfl, -, -⟩ | ⟨a, -, -, hlt, -⟩
    · exact K.nPipes_pos
    · exact hlt
  refine h.pipeOwn hinv hpid hwaited hw (.inl rfl) hentry (fun t ht => ?_) (fun _ _ _ => Iff.rfl)
    (fun _ => ?_)
    (fun h0 => absurd h0 hmod)
  · rw [hcalls, if_neg (Ne.symm ht)]
  · constructor
    · rintro (hnew | hnew)
      · exfalso
        have hentered : (s.pipes pid).tid < s'.entry := by
          rw [hafter]
          split_ifs with hpos
          · exact Nat.lt_succ_self _
          · have hat := hinv.at_pipe hpid hwaited (.inl hpos) hle
            exact hat.handed.trans_le (hinv.upper_le hpid)
        omega
      · exact absurd hle (not_le.mpr hnew)
    · intro q hq hat
      by_cases hqp : q = pid
      · subst hqp
        refine ⟨b, ⟨htrace, _, Function.update_self _ _ _⟩, ?_⟩
        rw [Stands, hself, if_pos rfl]
        exact ⟨fun _ => rfl, fun hretry => ⟨hretry, Nat.lt_succ_self q, fun _ _ => rfl⟩⟩
      · -- the tid is at no other pipe
        exfalso
        refine hinv.not_at_other hpid hwaited hq hqp ⟨hle, ?_, ?_⟩
        · have hnext := hat.next
          rwa [hw.pipes, Function.update_of_ne hqp] at hnext
        · have hhanded := hat.handed
          cases q with
          | zero =>
              rwa [State.upper, hafter, if_neg (Ne.symm hqp)] at hhanded
          | succ q => rwa [upper_update hw.pipes rfl (Nat.succ_ne_zero q)] at hhanded
    · intro v hv
      exact absurd hv (hinv.no_task hpid v)
    · rintro ⟨-, hexit, -⟩
      rw [hw.pipes, Function.update_of_ne hlt.ne'] at hexit
      have := hinv.order.tid_le hpid le_rfl
      omega

theorem History.advancePipe (h : History K s) (hinv : Inv K s φ) (hpid : pid < K.nPipes)
    (hpc : (s.pipes pid).pc = .advance) : History K (pipeStep K pid s) := by
  have hwaited : (s.pipes pid).pc.waited = true := by rw [hpc]; rfl
  have hentered : pid ≠ 0 ∨ (s.pipes 0).pc.entered = true := by
    by_cases hpos : pid = 0
    · subst hpos
      exact .inr (by rw [hpc]; rfl)
    · exact .inl hpos
  simp only [pipeStep, hpc]
  set p : Pipe := { s.pipes pid with pc := .loop, tid := (s.pipes pid).tid + 1 } with hp
  set s' : State ρ μ := (s.setPace (pid + 1) (s.pipes pid).tid).setPipe pid p with hs'
  have hw : PipeWrites s s' pid p :=
    ⟨rfl, fun _ _ => rfl, fun _ _ => rfl, rfl, rfl, rfl, rfl, rfl, rfl⟩
  have hself : s'.pipes pid = p := Function.update_self _ _ _
  have hentry : s'.entry = s.entry := by
    by_cases hpos : pid = 0
    · subst hpos
      simp [State.entry, hself, hp, hpc, PipePc.entered]
    · simp [State.entry, hw.pipes, Ne.symm hpos]
  refine h.pipeOwn hinv hpid.le hwaited hw (.inr ⟨rfl, rfl⟩) (fun t _ => by rw [hentry])
    (fun _ _ => rfl)
    (fun _ _ _ => Iff.rfl) (fun hmod => ?_) (fun hmod => h.bubbles _ hmod)
  constructor
  · rw [hentry]
    exact (h.updates _ hmod).fresh
  · rintro q hq ⟨hle, hnext, hhanded⟩
    have hat := hinv.at_pipe hpid.le hwaited hentered hle
    obtain ⟨a, hleft, ha⟩ := (h.updates _ hmod).pipes pid hpid.le hat
    rw [Stands, if_pos rfl, Pipe.Has, hpc] at ha
    refine ⟨a, hleft, ?_⟩
    by_cases hqp : q = pid
    · subst hqp
      rw [hself] at hnext
      exact absurd hnext (Nat.not_succ_le_self _)
    · rw [hw.pipes, Function.update_of_ne hqp] at hnext
      obtain rfl : q = pid + 1 := by
        by_contra hne
        refine hinv.not_at_other hpid.le hwaited hq hqp ⟨hle, hnext, ?_⟩
        cases q with
        | zero => rwa [State.upper, hentry] at hhanded
        | succ q =>
            have hqp' : q ≠ pid := fun heq => hne (heq ▸ rfl)
            change (s.pipes pid).tid < (s'.pipes q).tid at hhanded
            rwa [hw.pipes, Function.update_of_ne hqp'] at hhanded
      rw [Stands, hw.pipes, Function.update_of_ne hqp]
      split
      · rename_i heq
        refine Pipe.has_of_not_waited ?_ ha
        by_contra hwaited'
        have := hinv.order.tid_lt (Nat.lt_add_one pid) hq (by simpa using hwaited')
        omega
      · exact ha
  · intro v hv
    exact absurd hv (hinv.no_task hpid.le v)
  · rintro ⟨-, hexit, -⟩
    rw [hw.pipes, Function.update_of_ne hpid.ne'] at hexit
    have := hinv.order.tid_le hpid.le le_rfl
    omega

theorem Inv.exit_own (h : Inv K s φ) (hwaited : (s.pipes K.nPipes).pc.waited = true)
    (hw : PipeWrites s s' K.nPipes { s.pipes K.nPipes with pc := .loop, tid := (s.pipes K.nPipes).tid + 1 })
    (hq : q ≤ K.nPipes) : ¬ At s' q (s.pipes K.nPipes).tid := by
  rintro ⟨hle, hnext, hhanded⟩
  by_cases hexit : q = K.nPipes
  · subst hexit
    rw [hw.pipes, Function.update_self] at hnext
    exact absurd hnext (Nat.not_succ_le_self _)
  · have := h.order.tid_lt (lt_of_le_of_ne hq hexit) le_rfl hwaited
    rw [hw.pipes, Function.update_of_ne hexit] at hnext
    omega

theorem History.assignPipe (h : History K s) (hinv : Inv K s φ) {wid : Nat}
    (hpc : (s.pipes K.nPipes).pc = .assign wid) : History K (pipeStep K K.nPipes s) := by
  have hwaited : (s.pipes K.nPipes).pc.waited = true := by rw [hpc]; rfl
  have hne : K.nPipes ≠ 0 := Nat.one_le_iff_ne_zero.mp K.nPipes_pos
  have hupdate : (s.pipes K.nPipes).tid % bufferSize ≠ 0 ∧
      (s.pipes K.nPipes).tid ≤ s.nSubmitted := by
    have hknows := hinv.slots.pipes _ le_rfl
    simpa only [Pipe.Knows, hpc] using hknows
  obtain ⟨hmod, hle⟩ := hupdate
  obtain ⟨a, hleft, ha⟩ :=
    (h.updates _ hmod).pipes _ le_rfl (hinv.at_pipe le_rfl hwaited (.inl hne) hle)
  rw [Stands, if_pos rfl, Pipe.Has, hpc] at ha
  obtain ⟨⟨hretry, hstage, hnext⟩, hop⟩ := ha
  obtain ⟨-, hwait, -⟩ := hinv.pool.popped wid hpc
  change (s.workers wid).pc = .waitTid at hwait
  simp only [pipeStep, hpc]
  set p : Pipe := { s.pipes K.nPipes with pc := .loop, tid := (s.pipes K.nPipes).tid + 1 } with hp
  set s' : State ρ μ := { s.setPipe K.nPipes p with
    tids := Function.update s.tids wid (s.pipes K.nPipes).tid } with hs'
  have hw : PipeWrites s s' K.nPipes p :=
    ⟨rfl, fun _ _ => rfl, fun _ _ => rfl, rfl, rfl, rfl, rfl, rfl, rfl⟩
  have hentry : s'.entry = s.entry := entry_exit hw.pipes
  have htask : (s'.pool K).task = Function.update (s.pool K).task wid
      (some (s.pipes K.nPipes).tid) :=
    hinv.pool.task_assign hpc (s'.pipes K.nPipes)
  have hdue : a.next K.nPipes = K.nPipes := by
    unfold Call.next
    rw [hretry, if_neg Bool.false_ne_true]
    split
    · rfl
    · rename_i hleft'
      have hchild : a.after.waitChild = false := by
        by_contra hchild
        exact hleft' ⟨by simpa using hchild, hstage⟩
      exact hnext hop hchild
  refine h.pipeOwn hinv le_rfl hwaited hw (.inr ⟨rfl, rfl⟩) (fun t _ => by rw [hentry])
    (fun _ _ => rfl)
    (fun v t ht => ?_) (fun _ => ?_) (fun h0 => absurd h0 hmod)
  · rw [htask]
    by_cases hv : v = wid
    · subst hv
      rw [Function.update_self, (hinv.pool.popped v hpc).2.2]
      simp [Ne.symm ht]
    · rw [Function.update_of_ne hv]
  · constructor
    · rw [hentry]
      exact (h.updates _ hmod).fresh
    · intro q hq hat
      exact absurd hat (hinv.exit_own hwaited hw hq)
    · intro v hv
      by_cases hvw : v = wid
      · subst hvw
        refine ⟨a, hleft, fun hle' => ?_, fun hpc' => absurd hwait hpc', ?_⟩
        · exact absurd hstage (not_lt.mpr hle')
        · have hwait' : (s'.workers v).pc = .waitTid := hwait
          rw [hwait']
          exact ⟨hretry, hop, hdue⟩
      · rw [htask, Function.update_of_ne hvw] at hv
        exact absurd hv (hinv.no_task le_rfl v)
    · rintro ⟨-, -, hidle⟩
      exact absurd (by rw [htask, Function.update_self]) (hidle wid)

theorem History.markPipe (h : History K s) (hinv : Inv K s φ)
    (hpc : (s.pipes K.nPipes).pc = .markDone) :
    History K (pipeStep K K.nPipes s) := by
  have hwaited : (s.pipes K.nPipes).pc.waited = true := by rw [hpc]; rfl
  have hne : K.nPipes ≠ 0 := Nat.one_le_iff_ne_zero.mp K.nPipes_pos
  simp only [pipeStep, hpc]
  set p : Pipe := { s.pipes K.nPipes with pc := .loop, tid := (s.pipes K.nPipes).tid + 1 } with hp
  set s' : State ρ μ :=
    (s.setStage ((s.pipes K.nPipes).tid % bufferSize) ⊤).setPipe K.nPipes p with hs'
  have hw : PipeWrites s s' K.nPipes p :=
    ⟨rfl, fun _ _ => rfl, fun i hi => Function.update_of_ne hi _ _, rfl, rfl, rfl, rfl, rfl, rfl⟩
  have hentry : s'.entry = s.entry := entry_exit hw.pipes
  refine h.pipeOwn hinv le_rfl hwaited hw (.inr ⟨rfl, rfl⟩) (fun t _ => by rw [hentry])
    (fun _ _ => rfl)
    (fun _ _ _ => Iff.rfl) (fun hmod => ?_) (fun hmod => h.bubbles _ hmod)
  constructor
  · rw [hentry]
    exact (h.updates _ hmod).fresh
  · intro q hq hat
    exact absurd hat (hinv.exit_own hwaited hw hq)
  · intro v hv
    exact absurd hv (hinv.no_task le_rfl v)
  · rintro ⟨hle, -, -⟩
    obtain ⟨a, hleft, ha⟩ :=
      (h.updates _ hmod).pipes _ le_rfl (hinv.at_pipe le_rfl hwaited (.inl hne) hle)
    rw [Stands, if_pos rfl, Pipe.Has, hpc] at ha
    exact ⟨a, hleft.1, ⟨ha.1.1, ha.2⟩, fun _ => hleft.2⟩

theorem iterExec_has {ctx : Context ρ} (hleaves : a.Leaves ctx) (h : a.after.waitChild = true →
      (a.after.retry = true → a.stage = pid) ∧ (a.after.retry = false → a.Ready (pid + 1)))
    (hdue : a.after.waitChild = false → a.Due K.nPipes pid) :
    Pipe.Has K.nPipes pid { p with pc := iterExec ctx } a := by
  have hchild : ctx.waitChild = a.after.waitChild := hleaves.fields.2.2
  unfold iterExec
  split
  · exact h (hchild ▸ ‹_›)
  · rename_i hnot
    have hnot' : a.after.waitChild = false := by
      rw [hchild] at hnot
      simpa using hnot
    split
    · exact hdue hnot'
    · exact hdue hnot'

theorem History.startPipe (h : History K s) (hinv : Inv K s φ) (hpid : pid ≤ K.nPipes)
    (hpc : (s.pipes pid).pc = .start) :
    History K (s.setPipe pid (pipeStart K s pid (s.pipes pid))) := by
  have hwaited : (s.pipes pid).pc.waited = true := by rw [hpc]; rfl
  -- in the entry pipe no handler has been called for the tid
  have hmove : ∀ p : Pipe, p.tid = (s.pipes pid).tid →
      (pid = 0 → p.pc.entered = true → (s.pipes 0).tid % bufferSize ≠ 0 →
        s.nSubmitted < (s.pipes 0).tid) →
      (∀ a, pid ≠ 0 → s.Left K (s.pipes pid).tid a → a.Ready pid → p.Has K.nPipes pid a) →
      History K (s.setPipe pid p) := by
    intro p htid hskip hhas
    have hentered : (s.pipes pid).pc.entered = false := by rw [hpc]; rfl
    refine h.pipeMove hinv rfl htid rfl rfl rfl rfl rfl (fun _ _ _ => id) ?_ ?_ ?_
    · by_cases hpos : pid = 0
      · subst hpos
        have hentry : s.entry = (s.pipes 0).tid := by simp [State.entry, hentered]
        rw [hentry]
        simp only [State.entry, State.setPipe, Function.update_self, htid]
        split <;> omega
      · simp [State.entry, State.setPipe, Ne.symm hpos]
    · intro t hle hlt hmod
      by_cases hpos : pid = 0
      · subst hpos
        have hentry : s.entry = (s.pipes 0).tid := by simp [State.entry, hentered]
        simp only [State.entry, State.setPipe, Function.update_self, htid] at hlt
        split at hlt
        · rename_i hentered'
          obtain rfl : t = (s.pipes 0).tid := by omega
          exact hskip rfl hentered' hmod
        · omega
      · have hentry : (s.setPipe pid p).entry = s.entry := by
          simp [State.entry, State.setPipe, Ne.symm hpos]
        omega
    · intro a hat hleft ha
      have hpos : pid ≠ 0 := by
        rintro rfl
        have hhanded : (s.pipes 0).tid < s.entry := hat.handed
        simp [State.entry, hentered] at hhanded
      rw [Pipe.Has, hpc] at ha
      exact hhas a hpos hleft ha
  refine hmove _ (pipeStart_tid _ _) ?_ ?_
  · rintro rfl hentered' hmod
    refine hinv.bubble_of_ne_init hwaited (by rw [hpc]; rfl) hmod fun hop => ?_
    simp [pipeStart, hmod, hop, PipePc.entered] at hentered'
  · intro a hpos hleft ha
    have hop := hleft.2.fields.1
    simp only [pipeStart, if_neg hpos]
    split
    · split
      · rename_i hne
        exact ⟨ha, hop ▸ hne⟩
      · rename_i hdone
        exact ⟨ha, hop ▸ not_not.mp hdone⟩
    · split
      · rename_i hne
        rw [hop] at hne
        refine iterExec_has hleft.2 (fun hchild => ⟨fun hretry => ?_, fun hretry => ?_⟩)
          fun hchild => ?_
        · rw [ha.1] at hretry
          exact absurd hretry Bool.false_ne_true
        · refine ⟨hretry, ha.2.1.trans (Nat.lt_succ_self _), fun _ hnot => ?_⟩
          rw [hchild] at hnot
          exact absurd hnot Bool.true_eq_false_eq_False
        · refine ⟨.inr hne, ?_⟩
          simp [Call.next, ha.1, hchild, ha.2.2 hne hchild]
      · rename_i hdone
        exact ⟨ha.1, ha.2.1.trans (Nat.lt_succ_self _),
          fun hne => absurd (hop ▸ not_not.mp hdone) hne⟩

theorem Inv.entry_slot_ne (h : Inv K s φ) (hwaited : (s.pipes 0).pc.waited = true)
    (hentered : (s.pipes 0).pc.entered = false) (hkept : Kept s t) :
    t % bufferSize ≠ (s.pipes 0).tid % bufferSize := by
  have hentry : s.entry = (s.pipes 0).tid := by simp [State.entry, hentered]
  have hlt := hkept.entered
  exact ring_ne hkept.committed (h.entered_lt hlt hkept.issued)
    (h.committed_lt_tid (Nat.zero_le _)).le
    (h.waited_lt (Nat.zero_le _) hwaited) (by omega)

theorem History.prepare (h : History K s) (hinv : Inv K s φ)
    (hwaited : (s.pipes 0).pc.waited = true)
    (hentered : (s.pipes 0).pc.entered = false) (hw : PipeWrites s s' 0 p)
    (htid : p.tid = (s.pipes 0).tid) (hcalls : s'.calls = s.calls) (htids : s'.tids = s.tids)
    (hbubble : p.pc.entered = true → (s.pipes 0).tid % bufferSize = 0) : History K s' := by
  have hentry : s.entry = (s.pipes 0).tid := by simp [State.entry, hentered]
  have hentry' : s'.entry = if p.pc.entered then (s.pipes 0).tid + 1 else (s.pipes 0).tid := by
    simp [State.entry, hw.pipes, htid]
  refine h.pipeMove hinv hw.pipes htid hcalls hw.workers htids hw.nSubmitted hw.nCommitted ?_ ?_ ?_ ?_
  · intro t hkept a ha
    rw [State.ctx, hw.ctxs _ (hinv.entry_slot_ne hwaited hentered hkept)]
    exact ha
  · rw [hentry, hentry']
    split <;> omega
  · intro t hle hlt hmod
    rw [hentry'] at hlt
    split at hlt
    · rename_i hentered'
      obtain rfl : t = (s.pipes 0).tid := by omega
      exact absurd (hbubble hentered') hmod
    · omega
  · intro a hat
    have hhanded : (s.pipes 0).tid < s.entry := hat.handed
    omega

theorem History.pipeLocal (h : History K s) (hinv : Inv K s φ) (htid : p.tid = (s.pipes pid).tid)
    (hentered : pid = 0 → p.pc.entered = (s.pipes pid).pc.entered)
    (hhas : ∀ a, s.Left K (s.pipes pid).tid a → (s.pipes pid).Has K.nPipes pid a →
    p.Has K.nPipes pid a) :
    History K (s.setPipe pid p) := by
  have hentry := entry_setPipe htid hentered
  refine h.pipeMove hinv rfl htid rfl rfl rfl rfl rfl (fun _ _ _ => id) hentry.ge ?_
    fun a _ => hhas a
  intro t hle hlt
  omega

theorem History.pipeRound (h : History K s) (hinv : Inv K s φ) (htid : p.tid = (s.pipes pid).tid)
    (hwaited : (s.pipes pid).pc.waited = false) (hpc : p.pc.waited = false ∨ p.pc = .start) :
    History K (s.setPipe pid p) := by
  refine h.pipeLocal hinv htid (fun _ => ?_) fun a _ ha => ?_
  · have hleft : (s.pipes pid).pc.entered = false := by
      cases hpc' : (s.pipes pid).pc <;> simp_all [PipePc.entered, PipePc.waited]
    have hright : p.pc.entered = false := by
      cases hpc' : p.pc <;> simp_all [PipePc.entered, PipePc.waited]
    rw [hleft, hright]
  · have hready := Pipe.ready_of_not_waited hwaited ha
    rcases hpc with hpc | hpc
    · exact Pipe.has_of_not_waited hpc hready
    · rw [Pipe.Has, hpc]
      exact hready

theorem History.roundPipe (h : History K s) (hinv : Inv K s φ) (hpid : pid ≤ K.nPipes)
    (hwaited : (s.pipes pid).pc.waited = false) : History K (pipeStep K pid s) := by
  have hordered := hinv.order.pipes pid hpid
  cases hpc : (s.pipes pid).pc <;> simp only [hpc, PipePc.waited, Bool.true_eq_false] at hwaited <;>
    simp only [Concow.pipeStep, hpc]
  case testStop =>
      have hepoch := hordered.epoch (.inl hpc)
      split
      · exact h.pipeRound hinv rfl (by rw [hpc]; rfl) (.inl rfl)
      · exact h.pipeRound hinv hepoch.symm (by rw [hpc]; rfl) (.inl rfl)
  case loadTasks =>
      have hepoch := hordered.epoch (.inr hpc)
      exact h.pipeRound hinv hepoch.symm (by rw [hpc]; rfl) (.inl rfl)
  case loop =>
      split
      · exact h.pipeRound hinv rfl (by rw [hpc]; rfl) (.inl rfl)
      · split
        · exact h.pipeRound hinv rfl (by rw [hpc]; rfl) (.inl rfl)
        · exact h.pipeRound hinv rfl (by rw [hpc]; rfl) (.inl rfl)
  case wait =>
      split
      · exact h.pipeRound hinv rfl (by rw [hpc]; rfl) (.inl (by simp [PipePc.waited]))
      · exact h.pipeRound hinv rfl (by rw [hpc]; rfl) (.inr rfl)
  case finished => exact h

theorem History.versionPipe (h : History K s) (hinv : Inv K s φ)
    (hpc : (s.pipes pid).pc = .version ∨ (s.pipes pid).pc = .cpVersion) :
    History K (pipeStep K pid s) := by
  have hload : History K (s.loadCno (s.pipes pid).tid) := by
    have hentry : (s.loadCno (s.pipes pid).tid).entry = s.entry := rfl
    refine h.pipeMove hinv (Function.update_eq_self pid s.pipes).symm rfl rfl rfl rfl rfl rfl
      (fun _ _ _ ha => ha.loadCno _) hentry.ge ?_ fun a _ _ ha => ha
    intro t hle hlt
    omega
  rcases hpc with hpc | hpc <;> simp only [Concow.pipeStep, hpc]
  all_goals
    split
    · exact hload
    · exact h.pipeLocal hinv rfl (fun _ => by rw [hpc]; rfl) fun a _ ha => by
        rwa [Pipe.Has, hpc] at ha

theorem History.copyRootPipe (h : History K s) (hinv : Inv K s φ)
    (hpc : (s.pipes 0).pc = .copyRoot) :
    History K (pipeStep K 0 s) := by
  have hknows := hinv.slots.pipes 0 (Nat.zero_le _)
  simp only [Pipe.Knows, hpc] at hknows
  simp only [Concow.pipeStep, hpc]
  exact h.prepare hinv (by rw [hpc]; rfl) (by rw [hpc]; rfl) (pipeWrites_setCtx _) rfl rfl rfl
    fun _ => hknows

theorem History.cpPastPipe (h : History K s) (hinv : Inv K s φ) (hpc : (s.pipes 0).pc = .cpPast) :
    History K (pipeStep K 0 s) := by
  have hknows := hinv.slots.pipes 0 (Nat.zero_le _)
  simp only [Pipe.Knows, hpc] at hknows
  simp only [Concow.pipeStep, hpc]
  exact h.prepare hinv (by rw [hpc]; rfl) (by rw [hpc]; rfl) (pipeWrites_setCtx _) rfl rfl rfl
    fun _ => hknows

theorem History.cpHandlePipe (h : History K s) (hinv : Inv K s φ)
    (hpc : (s.pipes 0).pc = .cpHandle) :
    History K (pipeStep K 0 s) := by
  have hknows := hinv.slots.pipes 0 (Nat.zero_le _)
  simp only [Pipe.Knows, hpc] at hknows
  simp only [Concow.pipeStep, hpc]
  exact h.prepare hinv (by rw [hpc]; rfl) (by rw [hpc]; rfl)
    { pipeWrites_setCtx { s.ctx (s.pipes 0).tid with
      root := (K.checkpointHandler (s.ctx (s.pipes 0).tid) s.mem).1 } with } rfl rfl rfl
        fun _ => hknows

theorem History.readPastPipe (h : History K s) (hinv : Inv K s φ)
    (hpc : (s.pipes 0).pc = .readPast) :
    History K (pipeStep K 0 s) := by
  simp only [Concow.pipeStep, hpc]
  exact h.prepare hinv (by rw [hpc]; rfl) (by rw [hpc]; rfl) (pipeWrites_setCtx _) rfl rfl rfl
    fun hentered => by simp [PipePc.entered] at hentered

theorem History.initPipe (h : History K s) (hinv : Inv K s φ) (hpc : (s.pipes 0).pc = .init) :
    History K (pipeStep K 0 s) := by
  have hknows := hinv.slots.pipes 0 (Nat.zero_le _)
  simp only [Pipe.Knows, hpc] at hknows
  have hwaited : (s.pipes 0).pc.waited = true := by rw [hpc]; rfl
  have hcontent := hinv.pipe_content (Nat.zero_le _) hwaited
  rw [hinv.phase_filled hwaited (by rw [hpc]; rfl) hknows.2] at hcontent
  obtain ⟨key, val, -, hfresh⟩ := hcontent.2 hknows.1
  simp only [Concow.pipeStep, hpc]
  exact h.pipeCall hinv (Nat.zero_le _) hwaited hknows.2 hknows.1 _ rfl hfresh.op
    (.inl ⟨rfl, hpc, rfl⟩)

theorem History.handlePipe (h : History K s) (hinv : Inv K s φ) (hpid : pid ≤ K.nPipes)
    (hpc : (s.pipes pid).pc = .handle) : History K (pipeStep K pid s) := by
  have hkind := hinv.order.kinds pid hpid
  have hknows := hinv.slots.pipes pid hpid
  simp only [State.counters, hpc, PipePc.OfKind] at hkind
  simp only [Pipe.Knows, hpc] at hknows
  have hwaited : (s.pipes pid).pc.waited = true := by rw [hpc]; rfl
  have hentered : (s.pipes pid).pc.entered = true := by rw [hpc]; rfl
  have hat :=
    hinv.at_pipe hpid hwaited
    ((eq_or_ne pid 0).elim (fun heq => .inr (heq ▸ hentered)) .inl) hknows.2
  obtain ⟨a, hleft, ha⟩ := (h.updates _ hknows.1).pipes pid hpid hat
  rw [Stands, if_pos rfl, Pipe.Has, hpc] at ha
  simp only [Concow.pipeStep, hpc]
  exact h.pipeCall hinv hpid hwaited hknows.2 hknows.1 _ rfl rfl
    (.inr ⟨a, hleft, ha, hkind, hentered⟩)

theorem History.retryPipe (h : History K s) (hinv : Inv K s φ) (hpc : (s.pipes pid).pc = .retry) :
    History K (pipeStep K pid s) := by
  simp only [Concow.pipeStep, hpc]
  split
  · rename_i hretry
    refine h.pipeLocal hinv rfl (fun _ => ?_) fun a hleft ha => ?_
    · rw [hpc]
      unfold iterExec
      split
      · rfl
      · split <;> rfl
    · rw [Pipe.Has, hpc] at ha
      rw [hleft.2.fields.2.1] at hretry
      refine iterExec_has hleft.2 (fun _ => ha) fun _ => ⟨.inl hretry, ?_⟩
      simp [Call.next, hretry, ha.1 hretry]
  · rename_i hretry
    refine h.pipeLocal hinv rfl (fun _ => by rw [hpc]; rfl) fun a hleft ha => ?_
    rw [Pipe.Has, hpc] at ha
    rw [hleft.2.fields.2.1] at hretry
    exact ha.2 (by simpa using hretry)

theorem History.popPipe (h : History K s) (hinv : Inv K s φ) (hpc : (s.pipes K.nPipes).pc = .pop) :
    History K (pipeStep K K.nPipes s) := by
  have hne : K.nPipes ≠ 0 := Nat.one_le_iff_ne_zero.mp K.nPipes_pos
  have hentry : ({ s.setPipe K.nPipes { s.pipes K.nPipes with pc := afterPop s } with
      available := MpscList.consume s.available } : State ρ μ).entry = s.entry :=
    entry_setPipe rfl (fun heq => absurd heq hne)
  simp only [Concow.pipeStep, hpc]
  refine h.pipeMove hinv rfl rfl rfl rfl rfl rfl rfl (fun _ _ _ => id) hentry.ge ?_
    fun a _ _ ha => ?_
  · intro t hle hlt
    exact absurd (hle.trans_lt (hlt.trans_eq hentry)) (lt_irrefl _)
  · rw [Pipe.Has, hpc] at ha
    unfold afterPop
    split <;> exact ha

theorem History.pipeStep (h : History K s) (hinv : Inv K s φ) (hpid : pid ≤ K.nPipes) :
    History K (pipeStep K pid s) := by
  have hkind := hinv.order.kinds pid hpid
  cases hpc : (s.pipes pid).pc <;> simp only [State.counters, hpc, PipePc.OfKind] at hkind <;>
    try subst hkind
  case testStop | loadTasks | loop | wait |
    finished => exact h.roundPipe hinv hpid (by rw [hpc]; rfl)
  case start =>
      simp only [Concow.pipeStep, hpc]
      exact h.startPipe hinv hpid hpc
  case copyRoot => exact h.copyRootPipe hinv hpc
  case cpPast => exact h.cpPastPipe hinv hpc
  case cpVersion => exact h.versionPipe hinv (.inr hpc)
  case cpHandle => exact h.cpHandlePipe hinv hpc
  case readPast => exact h.readPastPipe hinv hpc
  case init => exact h.initPipe hinv hpc
  case version => exact h.versionPipe hinv (.inl hpc)
  case handle => exact h.handlePipe hinv hpid hpc
  case retry => exact h.retryPipe hinv hpc
  case advance => exact h.advancePipe hinv hkind hpc
  case pop => exact h.popPipe hinv hpc
  case assign wid => exact h.assignPipe hinv hpc
  case markDone => exact h.markPipe hinv hpc

end Pipes

section Runs

variable {ρ μ : Type} {K : Config ρ μ} {s t : State ρ μ} {φ : Nat → Phase Nat Nat}

theorem History.initial : History K (initial K) where
  updates t hmod := by
    have hpos : t ≠ 0 := by
      rintro rfl
      exact hmod rfl
    constructor
    · intro _
      rfl
    · rintro pid hpid ⟨hle, -, -⟩
      exact absurd (Nat.le_zero.mp hle) hpos
    · intro wid hwid
      simp [Pool.task, State.pool, Worker.task, Concow.initial] at hwid
    · rintro ⟨hle, -, -⟩
      exact absurd (Nat.le_zero.mp hle) hpos
  bubbles _ _ := rfl

theorem History.step (h : History K s) (hinv : Inv K s φ) {a : Label} (ha : Step K a s t)
    {φ' : Nat → Phase Nat Nat} (hinv' : Inv K t φ') : History K t := by
  cases ha with
  | update _ c key val hc hd =>
      exact h.quiet hinv rfl rfl rfl (fun _ => rfl) (fun _ _ _ => rfl) le_rfl le_rfl
        fun _ _ hle => hle
  | destroy _ hc hd =>
      exact h.quiet hinv rfl rfl rfl (fun _ => rfl) (fun _ _ _ => rfl) le_rfl le_rfl
        fun _ _ hle => hle
  | thread _ θ hθ =>
      cases θ with
      | client c => exact h.clientStep hinv c
      | monitor => exact h.monitorStep hinv
      | pipe pid => exact h.pipeStep hinv hθ
      | worker wid => exact h.workerStep hinv
      | destructor => exact h.destructorStep hinv hinv'

/-- In every reachable state the calls of handlers agree with where the tids are. -/
theorem history_of_reachable (hs : Reachable (Step K) (initial K) s) : History K s := by
  have key : Reachable (Step K) (initial K) s ∧ History K s := by
    refine hs.invariant (fun s => Reachable (Step K) (initial K) s ∧ History K s)
      ⟨Reachable.start, History.initial⟩ ?_
    rintro a s t ⟨hs, h⟩ - ha
    obtain ⟨φ, hinv⟩ := inv_of_reachable hs
    obtain ⟨φ', hinv'⟩ := inv_of_reachable (hs.next a ha)
    exact ⟨hs.next a ha, h.step hinv ha hinv'⟩
  exact key.2

end Runs

end Contrees.Conctrl.Concow
