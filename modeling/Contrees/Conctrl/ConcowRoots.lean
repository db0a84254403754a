import Contrees.Conctrl.ConcowCalls
import Mathlib.Data.Nat.Find

namespace Contrees.Conctrl.Concow

open Library.Runs Library.TaskLedger

variable {ρ μ : Type} {K : Config ρ μ} {s s' : State ρ μ} {φ : Nat → Phase Nat Nat} {θ : Thread}
    {t t₀ : Nat}

section Writers

def PipePc.writes : PipePc → Bool
  | .copyRoot | .cpPast | .cpVersion | .cpHandle | .readPast | .init | .version | .handle => true
  | _ => false

def WorkerPc.writes : WorkerPc → Bool
  | .version | .reload | .handle => true
  | _ => false

def State.writes (s : State ρ μ) : Thread → Option Nat
  | .client c => if (s.clients c).hasRoom then (s.clients c).tid else none
  | .pipe pid => if (s.pipes pid).pc.writes then some (s.pipes pid).tid else none
  | .worker wid => if (s.workers wid).pc.writes then some (s.workers wid).tid else none
  | .monitor | .destructor => none

theorem pipeStep_ctxs {pid i : Nat}
    (hi : (s.pipes pid).pc.writes = true → i ≠ (s.pipes pid).tid % bufferSize) :
    (pipeStep K pid s).ctxs i = s.ctxs i := by
  cases hpc : (s.pipes pid).pc <;> simp only [hpc, PipePc.writes, forall_const] at hi <;>
    simp only [pipeStep, hpc] <;> try rfl
  case copyRoot | cpPast | cpHandle | readPast | init | handle => exact Function.update_of_ne hi _ _
  case cpVersion | version =>
      split
      · exact Function.update_of_ne hi _ _
      · rfl
  case loop =>
      split
      · rfl
      · split <;> rfl
  all_goals split <;> rfl

theorem workerStep_ctxs {wid i : Nat}
    (hi : (s.workers wid).pc.writes = true → i ≠ (s.workers wid).tid % bufferSize) :
    (workerStep K wid s).ctxs i = s.ctxs i := by
  cases hpc : (s.workers wid).pc <;> simp only [hpc, WorkerPc.writes, forall_const] at hi <;>
    simp only [workerStep, hpc] <;> try rfl
  case reload | handle => exact Function.update_of_ne hi _ _
  case version =>
      split
      · exact Function.update_of_ne hi _ _
      · rfl
  case waitTid =>
      split
      · rfl
      · split <;> rfl
  case waitStage =>
      split
      · split <;> rfl
      · rfl
  all_goals split <;> rfl

theorem Inv.clientStep_ctxs (h : Inv K s φ) {c i : Nat}
    (hi : ∀ t₀, (s.clients c).tid = some t₀ → (s.clients c).hasRoom = true → i ≠ t₀ % bufferSize) :
    (Concow.clientStep c s).ctxs i = s.ctxs i := by
  cases hc : s.clients c <;>
    simp only [hc, Client.tid, Client.hasRoom, Option.some.injEq, forall_eq',
      forall_const] at hi <;>
    simp only [Concow.clientStep, hc] <;> try rfl
  case waiting =>
      split
      · rfl
      · split <;> rfl
  case bubbleSno tid key val =>
      rw [h.slots.bubbling c tid key val (.inl hc)] at hi
      exact Function.update_of_ne hi _ _
  case writing tid key val field =>
      cases field with
      | stage => rfl
      | op | flags | sno | key | val => exact Function.update_of_ne hi _ _

theorem Inv.step_ctxs (h : Inv K s φ) (θ : Thread) {i : Nat}
    (hi : ∀ t₀, s.writes θ = some t₀ → i ≠ t₀ % bufferSize) :
    (Concow.step K θ s).ctxs i = s.ctxs i := by
  cases θ with
  | client c =>
      refine h.clientStep_ctxs fun t₀ ht₀ hroom => hi t₀ ?_
      rw [State.writes, if_pos hroom, ht₀]
  | monitor => rw [Concow.step, monitorStep_writes]
  | pipe pid => exact pipeStep_ctxs fun hpc => hi _ (by rw [State.writes, if_pos hpc])
  | worker wid => exact workerStep_ctxs fun hpc => hi _ (by rw [State.writes, if_pos hpc])
  | destructor => rw [Concow.step, destructorStep_writes]

theorem PipePc.waited_of_writes {pc : PipePc} (h : pc.writes = true) : pc.waited = true := by
  cases pc <;> first | rfl | simp [PipePc.writes] at h

theorem Inv.task_of_writes (_h : Inv K s φ) {wid : Nat} (hpc : (s.workers wid).pc.writes = true) :
    (s.pool K).task wid = some (s.workers wid).tid := by
  cases hpc' : (s.workers wid).pc <;> simp_all [WorkerPc.writes, Pool.task, State.pool, Worker.task]

theorem Inv.writes_window (h : Inv K s φ) (hθ : θ.Runs K) (hw : s.writes θ = some t₀) :
    s.monitor.ended < t₀ ∧ t₀ < s.nCommitted + bufferSize := by
  cases θ with
  | client c =>
      simp only [State.writes, Option.ite_none_right_eq_some] at hw
      refine ⟨?_, h.slots.room c t₀ hw.2 hw.1⟩
      by_contra hle
      have hφ := (h.held hw.2).1
      rw [h.tracks.ended t₀ (not_lt.mp hle)] at hφ
      simp at hφ
  | pipe pid =>
      simp only [State.writes, Option.ite_none_right_eq_some, Option.some.injEq] at hw
      obtain ⟨hpc, rfl⟩ := hw
      exact ⟨h.ended_lt_exit.trans_le (h.order.tid_le hθ le_rfl),
        h.waited_lt hθ (PipePc.waited_of_writes hpc)⟩
  | worker wid =>
      simp only [State.writes, Option.ite_none_right_eq_some, Option.some.injEq] at hw
      obtain ⟨hpc, rfl⟩ := hw
      obtain ⟨hφ, -, -, hlt⟩ := h.task_window (h.task_of_writes hpc)
      refine ⟨?_, hlt⟩
      by_contra hle
      rw [h.tracks.ended _ (not_lt.mp hle)] at hφ
      simp at hφ
  | monitor => simp [State.writes] at hw
  | destructor => simp [State.writes] at hw

theorem Inv.step_ctx (h : Inv K s φ) (hθ : θ.Runs K) (hle : s.nCommitted ≤ t)
    (hlt : t < s.nCommitted + bufferSize) (hne : s.writes θ ≠ some t) :
    (Concow.step K θ s).ctx t = s.ctx t := by
  refine h.step_ctxs θ fun t₀ ht₀ => ?_
  obtain ⟨hended, hlt₀⟩ := h.writes_window hθ ht₀
  refine ring_ne hle hlt (h.order.committed_le_ended.trans hended.le) hlt₀ ?_
  rintro rfl
  exact hne ht₀

theorem step_calls (θ : Thread) : ∃ l, (Concow.step K θ s).calls = s.calls ++ l ∧
    ∀ a ∈ l, s.writes θ = some a.tid := by
  have hsame : (Concow.step K θ s).calls = s.calls →
      ∃ l, (Concow.step K θ s).calls = s.calls ++ l ∧ ∀ a ∈ l, s.writes θ = some a.tid :=
    fun heq => ⟨[], by rw [heq, List.append_nil], fun a ha => absurd ha List.not_mem_nil⟩
  cases θ with
  | client c => exact hsame (by rw [Concow.step, clientStep_writes])
  | monitor => exact hsame (by rw [Concow.step, monitorStep_writes])
  | destructor => exact hsame (by rw [Concow.step, destructorStep_writes])
  | pipe pid =>
      cases hpc : (s.pipes pid).pc
      case init | handle =>
          refine ⟨[_], by simp only [Concow.step, Concow.pipeStep, hpc]; rfl, fun a ha => ?_⟩
          rw [List.mem_singleton.mp ha, State.writes, hpc]
          rfl
      all_goals
        apply hsame
        simp only [Concow.step, Concow.pipeStep, hpc]
        try rfl
      case loop =>
          split
          · rfl
          · split <;> rfl
      all_goals split <;> rfl
  | worker wid =>
      cases hpc : (s.workers wid).pc
      case handle =>
          refine ⟨[_], by simp only [Concow.step, Concow.workerStep, hpc]; rfl, fun a ha => ?_⟩
          rw [List.mem_singleton.mp ha, State.writes, hpc]
          rfl
      all_goals
        apply hsame
        simp only [Concow.step, Concow.workerStep, hpc]
        try rfl
      case waitTid =>
          split
          · rfl
          · split <;> rfl
      case waitStage =>
          split
          · split <;> rfl
          · rfl
      all_goals split <;> rfl

theorem step_callsOf (θ : Thread) (t : Nat) :
    ∃ l, (Concow.step K θ s).callsOf t = s.callsOf t ++ l := by
  obtain ⟨l, hl, -⟩ := step_calls θ (K := K) (s := s)
  exact ⟨l.filter (fun a => a.tid = t), by rw [State.callsOf, State.callsOf, hl,
    List.filter_append]⟩

theorem step_callsOf_of_ne (hne : s.writes θ ≠ some t) :
    (Concow.step K θ s).callsOf t = s.callsOf t := by
  obtain ⟨l, hl, hown⟩ := step_calls θ (K := K) (s := s)
  have hnone : l.filter (fun a => a.tid = t) = [] := by
    refine List.filter_eq_nil_iff.mpr fun a ha heq => hne ?_
    rw [hown a ha, of_decide_eq_true heq]
  rw [State.callsOf, State.callsOf, hl, List.filter_append, hnone, List.append_nil]

end Writers

section Published

/-- The tid whose root `root_` holds: the monitor writes it before `n_committed_`. -/
def State.rootTid (s : State ρ μ) : Nat :=
  if s.monitor.pc = .publishCommitted then s.monitor.nCommitted else s.nCommitted

theorem Inv.rootTid_window (h : Inv K s φ) :
    s.nCommitted ≤ s.rootTid ∧ s.rootTid ≤ s.monitor.ended := by
  have hm : s.monitor.Ordered s.nCommitted s.nSubmitted (s.paces 0) s.stop := h.order.monitor
  unfold State.rootTid
  split
  · exact ⟨hm.committed, hm.ended⟩
  · exact ⟨le_rfl, hm.committed.trans hm.ended⟩

theorem rootTid_of_monitor (hm : s'.monitor = s.monitor) (hC : s'.nCommitted = s.nCommitted) :
    s'.rootTid = s.rootTid := by
  rw [State.rootTid, State.rootTid, hm, hC]

theorem Inv.rootTid_le (h : Inv K s φ) {a : Label} (ha : Step K a s s') :
    s.rootTid ≤ s'.rootTid := by
  have hm : s.monitor.Ordered s.nCommitted s.nSubmitted (s.paces 0) s.stop := h.order.monitor
  cases ha with
  | update | destroy => exact le_rfl
  | thread _ θ hθ =>
      cases θ with
      | client c =>
          exact (rootTid_of_monitor (by rw [Concow.step, clientStep_writes])
            (by rw [Concow.step, clientStep_writes])).ge
      | pipe pid =>
          exact (rootTid_of_monitor (by rw [Concow.step, pipeStep_writes])
            (by rw [Concow.step, pipeStep_writes])).ge
      | worker wid =>
          exact (rootTid_of_monitor (by rw [Concow.step, workerStep_writes])
            (by rw [Concow.step, workerStep_writes])).ge
      | destructor =>
          exact (rootTid_of_monitor (by rw [Concow.step, destructorStep_writes])
            (by rw [Concow.step, destructorStep_writes])).ge
      | monitor =>
          have hcommitted := hm.committed
          cases hpc : s.monitor.pc <;> simp only [Concow.step, Concow.monitorStep, hpc]
          case publishRoot =>
              split
              · rename_i hlt
                simpa [State.rootTid, hpc, State.setMonitor] using hcommitted.trans hlt.le
              · simp [State.rootTid, hpc, State.setMonitor]
          case publishCommitted => simp [State.rootTid, hpc, State.setMonitor]
          case finished => exact le_rfl
          case loadStop | loadSubmitted | checkpoint | bubbles =>
              simp [State.rootTid, hpc, State.setMonitor, State.setPace]
          all_goals split <;> simp [State.rootTid, hpc, State.setMonitor, State.setPace]

theorem Inv.ended_ctx (h : Inv K s φ) (hθ : θ.Runs K) (hle : s.nCommitted ≤ t)
    (hended : t ≤ s.monitor.ended) :
    (Concow.step K θ s).ctx t = s.ctx t := by
  have hfilled : (φ t).Filled := by
    rw [h.tracks.ended t hended]
    trivial
  refine h.step_ctx hθ hle (h.tracks.window t hfilled) fun hw => ?_
  exact absurd (h.writes_window hθ hw).1 (not_lt.mpr hended)

theorem Inv.published_step (h : Inv K s φ) (hroot : s.root = (s.ctx s.rootTid).root) {a : Label}
    (ha : Step K a s s') : s'.root = (s'.ctx s'.rootTid).root := by
  obtain ⟨hle, hended⟩ := h.rootTid_window
  have hframe : ∀ θ : Thread, θ.Runs K → (Concow.step K θ s).monitor = s.monitor →
      (Concow.step K θ s).nCommitted = s.nCommitted → (Concow.step K θ s).root = s.root →
      (Concow.step K θ s).root = ((Concow.step K θ s).ctx (Concow.step K θ s).rootTid).root := by
    intro θ hθ hm hC hroot'
    rw [rootTid_of_monitor hm hC, h.ended_ctx hθ hle hended, hroot', hroot]
  cases ha with
  | update | destroy => exact hroot
  | thread _ θ hθ =>
      cases θ with
      | client c =>
          refine hframe _ hθ ?_ ?_ ?_ <;> rw [Concow.step, clientStep_writes]
      | pipe pid =>
          refine hframe _ hθ ?_ ?_ ?_ <;> rw [Concow.step, pipeStep_writes]
      | worker wid =>
          refine hframe _ hθ ?_ ?_ ?_ <;> rw [Concow.step, workerStep_writes]
      | destructor =>
          refine hframe _ hθ ?_ ?_ ?_ <;> rw [Concow.step, destructorStep_writes]
      | monitor =>
          cases hpc : s.monitor.pc <;> simp only [Concow.step, Concow.monitorStep, hpc] <;>
            simp only [State.rootTid, hpc, if_true, reduceCtorEq, if_false] at hroot
          case publishRoot =>
              split
              · simp [State.rootTid, State.setMonitor, State.ctx]
              · simpa [State.rootTid, State.setMonitor, State.ctx] using hroot
          case publishCommitted => simpa [State.rootTid, State.setMonitor, State.ctx] using hroot
          case finished => simpa [State.rootTid, hpc] using hroot
          case loadStop | loadSubmitted | checkpoint | bubbles =>
              simpa [State.rootTid, State.setMonitor, State.setPace, State.ctx] using hroot
          all_goals split <;>
            simpa [State.rootTid, State.setMonitor, State.setPace, State.ctx] using hroot

theorem published_of_reachable (hs : Reachable (Step K) (initial K) s) :
    s.root = (s.ctx s.rootTid).root := by
  have key : Reachable (Step K) (initial K) s ∧ s.root = (s.ctx s.rootTid).root := by
    refine hs.invariant (fun s => Reachable (Step K) (initial K) s ∧
      s.root = (s.ctx s.rootTid).root)
      ⟨Reachable.start, rfl⟩ ?_
    rintro a s t ⟨hs, hroot⟩ - ha
    obtain ⟨φ, h⟩ := inv_of_reachable hs
    exact ⟨hs.next a ha, h.published_step hroot ha⟩
  exact key.2

end Published

section Chains

variable {x : Nat → Option ρ} {pid : Nat}

/-- A checkpoint has the root of the tid before, or what the structure makes of it. -/
def Checkpointed (K : Config ρ μ) (past root : Option ρ) : Prop :=
  root = past ∨ ∃ ctx mem, ctx.tPast = past ∧ (K.checkpointHandler ctx mem).1 = root

def Began (s : State ρ μ) (tid : Nat) (past : Option ρ) : Prop :=
  ∃ a, (s.callsOf tid).head? = some a ∧ a.before.tPast = past ∧
    s.passed tid = some (a.before.key, a.before.val)

def Makes (K : Config ρ μ) (s : State ρ μ) (tid : Nat) (past root : Option ρ) : Prop :=
  if tid % bufferSize = 0 then Checkpointed K past root
  else Began s tid past ∧ ∃ a ∈ s.callsOf tid, a.after.root = root

def PipePc.looked : PipePc → Bool
  | .cpVersion | .cpHandle | .init | .retry | .version | .handle | .advance => true
  | _ => false

def State.seen (s : State ρ μ) : Nat :=
  if (s.pipes 0).pc.looked then (s.pipes 0).tid else (s.pipes 0).tid - 1

/-- What the entry pipe has read is in its slot until the handler runs. -/
def Pipe.Looks (p : Pipe) (nSubmitted : Nat) (ctx : Context ρ) (past : Option ρ) : Prop :=
  match p.pc with
  | .cpVersion | .cpHandle | .init => p.tid ≤ nSubmitted → ctx.tPast = past
  | _ => True

/-- The roots that the tids have made, one from another, as far as they have been read. -/
structure Rooted (K : Config ρ μ) (s : State ρ μ) (x : Nat → Option ρ) : Prop where
  start : x 0 = some K.tInit
  began : ∀ t, t % bufferSize ≠ 0 → t < s.entry → t ≤ s.nSubmitted → Began s t (x (t - 1))
  made : ∀ t, 1 ≤ t → t < s.seen → t < s.nSubmitted → Makes K s t (x (t - 1)) (x t)
  checkpoints : ∀ t, t % bufferSize = 0 → Kept s t →
    t = 0 ∧ (s.ctx t).root = some K.tInit ∨ 1 ≤ t ∧ Checkpointed K (x (t - 1)) (s.ctx t).root
  looks : (s.pipes 0).Looks s.nSubmitted (s.ctx (s.pipes 0).tid) (x ((s.pipes 0).tid - 1))

theorem Began.mono {past : Option ρ} (h : Began s t past) {l : List (Call ρ)}
    (hcalls : s'.callsOf t = s.callsOf t ++ l) (hpassed : s'.passed t = s.passed t) :
    Began s' t past := by
  obtain ⟨a, hhead, hpast, hargs⟩ := h
  refine ⟨a, ?_, hpast, hpassed.trans hargs⟩
  rw [hcalls, List.head?_append, hhead]
  rfl

theorem Makes.mono {past root : Option ρ} (h : Makes K s t past root) {l : List (Call ρ)}
    (hcalls : s'.callsOf t = s.callsOf t ++ l) (hpassed : s'.passed t = s.passed t) :
    Makes K s' t past root := by
  unfold Makes at h ⊢
  split
  · rename_i hmod
    rwa [if_pos hmod] at h
  · rename_i hmod
    rw [if_neg hmod] at h
    obtain ⟨hbegan, a, ha, hroot⟩ := h
    refine ⟨hbegan.mono hcalls hpassed, a, ?_, hroot⟩
    rw [hcalls]
    exact List.mem_append_left _ ha

theorem Rooted.frame (h : Rooted K s x) (hC : s.nCommitted ≤ s'.nCommitted)
    (hentry : ∀ t, t < s'.entry → t ≤ s'.nSubmitted → t < s.entry ∧ t ≤ s.nSubmitted)
    (hseen : ∀ t, t < s'.seen → t < s'.nSubmitted → t < s.seen ∧ t < s.nSubmitted)
    (hcalls : ∀ t, ∃ l, s'.callsOf t = s.callsOf t ++ l)
    (hpassed : ∀ t ≤ s.nSubmitted, s'.passed t = s.passed t)
    (hroot : ∀ t, t % bufferSize = 0 → Kept s t → (s'.ctx t).root = (s.ctx t).root)
    (hlooks : (s'.pipes 0).Looks s'.nSubmitted (s'.ctx (s'.pipes 0).tid)
    (x ((s'.pipes 0).tid - 1))) :
    Rooted K s' x where
  start := h.start
  began t hmod hlt hle := by
    obtain ⟨hlt, hle⟩ := hentry t hlt hle
    obtain ⟨l, hl⟩ := hcalls t
    exact (h.began t hmod hlt hle).mono hl (hpassed t hle)
  made t hpos hlt hlt' := by
    obtain ⟨hlt, hlt'⟩ := hseen t hlt hlt'
    obtain ⟨l, hl⟩ := hcalls t
    exact (h.made t hpos hlt hlt').mono hl (hpassed t hlt'.le)
  checkpoints t hmod hkept := by
    obtain ⟨hlt, hle⟩ := hentry t hkept.entered hkept.issued
    have hkept' : Kept s t := ⟨hC.trans hkept.committed, hle, hlt⟩
    rw [hroot t hmod hkept']
    exact h.checkpoints t hmod hkept'
  looks := hlooks

theorem History.called (h : History K s) (hentered : t < s.entry) (hissued : t ≤ s.nSubmitted)
    (hmod : t % bufferSize ≠ 0) :
    ∃ a, Trace K.nPipes (s.callsOf t) a ∧ (s.nCommitted ≤ t → a.Leaves (s.ctx t)) := by
  by_cases hexit : t < (s.pipes K.nPipes).tid
  · by_cases hidle : ∀ wid, (s.pool K).task wid ≠ some t
    · obtain ⟨a, htrace, -, hleaves⟩ := (h.updates t hmod).past ⟨hissued, hexit, hidle⟩
      exact ⟨a, htrace, hleaves⟩
    · obtain ⟨wid, hwid⟩ := not_forall.mp hidle
      obtain ⟨a, hleft, -⟩ := (h.updates t hmod).workers wid (not_not.mp hwid)
      exact ⟨a, hleft.1, fun _ => hleft.2⟩
  · -- the first pipe that is not past it
    have hsome : ∃ pid, pid ≤ K.nPipes ∧ (s.pipes pid).tid ≤ t :=
      ⟨K.nPipes, le_rfl, not_lt.mp hexit⟩
    obtain ⟨hpid, hnext⟩ := Nat.find_spec hsome
    have hat : At s (Nat.find hsome) t := by
      refine ⟨hissued, hnext, ?_⟩
      cases hfind : Nat.find hsome with
      | zero => exact hentered
      | succ q =>
          have hnot := Nat.find_min hsome (m := q) (by omega)
          by_contra hhanded
          exact hnot ⟨by omega, not_lt.mp hhanded⟩
    obtain ⟨a, hleft, -⟩ := (h.updates t hmod).pipes _ hpid hat
    exact ⟨a, hleft.1, fun _ => hleft.2⟩

theorem Rooted.makes_kept (h : Rooted K s x) (hhistory : History K s) (hkept : Kept s t)
    (hpos : 1 ≤ t) :
    Makes K s t (x (t - 1)) (s.ctx t).root := by
  unfold Makes
  split
  · rename_i hmod
    rcases h.checkpoints t hmod hkept with ⟨rfl, -⟩ | ⟨-, hcp⟩
    · exact absurd hpos (by simp)
    · exact hcp
  · rename_i hmod
    obtain ⟨a, htrace, hleaves⟩ := hhistory.called hkept.entered hkept.issued hmod
    obtain ⟨cno, hctx⟩ := hleaves hkept.committed
    refine ⟨h.began t hmod hkept.entered hkept.issued, a, ?_, by rw [hctx]; rfl⟩
    obtain ⟨l, hl⟩ := htrace.last
    rw [hl]
    simp

theorem Inv.waited_le (h : Inv K s φ) (hstop : s.stop = false) (hpid : pid ≤ K.nPipes)
    (hwaited : (s.pipes pid).pc.waited = true) : (s.pipes pid).tid ≤ s.nSubmitted := by
  rcases h.waited_filled hpid hwaited with ⟨-, hle⟩ | ⟨-, hpc⟩
  · exact hle
  · have hm := h.order.monitor
    have hstopped := (hm.stopped (hm.leaving (.inr hpc)).1).1
    simp [State.counters, hstop] at hstopped

theorem PipePc.waited_of_looked {pc : PipePc} (h : pc.looked = true) : pc.waited = true := by
  cases pc <;> first | rfl | simp [PipePc.looked] at h

theorem Inv.seen_le (h : Inv K s φ) (hstop : s.stop = false) : s.seen ≤ s.nSubmitted := by
  rw [State.seen]
  split
  · exact h.waited_le hstop (Nat.zero_le _) (PipePc.waited_of_looked ‹_›)
  · have hentry := h.entry_le hstop
    have : (s.pipes 0).tid ≤ s.entry := by
      rw [State.entry]
      split <;> omega
    omega

theorem Inv.writes_ne_entry (h : Inv K s φ) (hθ : θ.Runs K) (hne : θ ≠ .pipe 0)
    (hwaited : (s.pipes 0).pc.waited = true) : s.writes θ ≠ some (s.pipes 0).tid := by
  intro hw
  cases θ with
  | client c =>
      simp only [State.writes, Option.ite_none_right_eq_some] at hw
      exact h.held_ne_pipe hw.2 (Nat.zero_le _) hwaited rfl
  | pipe pid =>
      simp only [State.writes, Option.ite_none_right_eq_some, Option.some.injEq] at hw
      have hpos : 0 < pid := Nat.pos_of_ne_zero fun heq => hne (by rw [heq])
      exact absurd hw.2 (h.order.tid_lt hpos hθ (PipePc.waited_of_writes hw.1)).ne
  | worker wid =>
      simp only [State.writes, Option.ite_none_right_eq_some, Option.some.injEq] at hw
      exact h.no_task (Nat.zero_le _) wid (hw.2 ▸ h.task_of_writes hw.1)
  | monitor => simp [State.writes] at hw
  | destructor => simp [State.writes] at hw

theorem Inv.writes_ne_checkpoint (h : Inv K s φ) (hθ : θ.Runs K) (hne : θ ≠ .pipe 0)
    (hkept : Kept s t) (hmod : t % bufferSize = 0) : s.writes θ ≠ some t := by
  intro hw
  cases θ with
  | client c =>
      simp only [State.writes, Option.ite_none_right_eq_some] at hw
      exact h.held_slot_ne hw.2 hw.1 hkept rfl
  | pipe pid =>
      simp only [State.writes, Option.ite_none_right_eq_some, Option.some.injEq] at hw
      obtain ⟨hpc, rfl⟩ := hw
      have hpos : pid ≠ 0 := fun heq => hne (by rw [heq])
      have hkind := h.order.kinds pid hθ
      have hknows := h.slots.pipes pid hθ
      cases hpc' : (s.pipes pid).pc <;>
        simp_all [PipePc.writes, PipePc.OfKind, Pipe.Knows, State.counters]
  | worker wid =>
      simp only [State.writes, Option.ite_none_right_eq_some, Option.some.injEq] at hw
      obtain ⟨hpc, rfl⟩ := hw
      obtain ⟨hφ, hC, -, hlt⟩ := h.task_window (h.task_of_writes hpc)
      have hcontent := h.content hC hlt.le
      rw [hφ] at hcontent
      exact hcontent.2.1 hmod
  | monitor => simp [State.writes] at hw
  | destructor => simp [State.writes] at hw

theorem Inv.nCommitted_le (h : Inv K s φ) (θ : Thread) :
    s.nCommitted ≤ (Concow.step K θ s).nCommitted := by
  cases θ with
  | client c => rw [Concow.step, clientStep_writes]
  | monitor => exact h.monitorStep_nCommitted
  | pipe pid => rw [Concow.step, pipeStep_writes]
  | worker wid => rw [Concow.step, workerStep_writes]
  | destructor => rw [Concow.step, destructorStep_writes]

theorem Inv.step_issued (h : Inv K s φ) (θ : Thread) :
    ((Concow.step K θ s).nSubmitted = s.nSubmitted ∨
      s.stop = false ∧ s.nSubmitted ≤ (Concow.step K θ s).nSubmitted) ∧
      ∀ t ≤ s.nSubmitted, (Concow.step K θ s).passed t = s.passed t := by
  cases θ with
  | client c =>
      have hstop : s.clients c ≠ .idle → s.stop = false := by
        intro hc
        by_contra hstop
        exact hc (h.closing.quiet (by simpa using hstop) c)
      cases hc : s.clients c <;> simp only [Concow.step, Concow.clientStep, hc]
      case idle => exact ⟨.inl trivial, fun _ _ => trivial⟩
      case fetch key val =>
          refine ⟨.inr ⟨hstop (by simp [hc]), Nat.le_add_left _ _⟩, fun t ht => ?_⟩
          exact Function.update_of_ne (by omega) _ _
      case waiting tid key val =>
          split
          · exact ⟨.inl rfl, fun _ _ => rfl⟩
          · split <;> exact ⟨.inl rfl, fun _ _ => rfl⟩
      case writing tid key val field => cases field <;> exact ⟨.inl rfl, fun _ _ => rfl⟩
      all_goals exact ⟨.inl rfl, fun _ _ => rfl⟩
  | monitor => rw [Concow.step, monitorStep_writes]; exact ⟨.inl rfl, fun _ _ => rfl⟩
  | pipe pid => rw [Concow.step, pipeStep_writes]; exact ⟨.inl rfl, fun _ _ => rfl⟩
  | worker wid => rw [Concow.step, workerStep_writes]; exact ⟨.inl rfl, fun _ _ => rfl⟩
  | destructor => rw [Concow.step, destructorStep_writes]; exact ⟨.inl rfl, fun _ _ => rfl⟩

theorem Rooted.otherStep (h : Rooted K s x) (hinv : Inv K s φ) (hθ : θ.Runs K) (hne : θ ≠ .pipe 0) :
    Rooted K (Concow.step K θ s) x := by
  have hpipe : (Concow.step K θ s).pipes 0 = s.pipes 0 := by
    cases θ with
    | client c => rw [Concow.step, clientStep_writes]
    | monitor => rw [Concow.step, monitorStep_writes]
    | worker wid => rw [Concow.step, workerStep_writes]
    | destructor => rw [Concow.step, destructorStep_writes]
    | pipe pid =>
        have hpos : 0 ≠ pid := fun heq => hne (by rw [heq])
        exact pipeStep_pipes_of_ne hpos
  have hentry : (Concow.step K θ s).entry = s.entry := by rw [State.entry, State.entry, hpipe]
  have hseen : (Concow.step K θ s).seen = s.seen := by rw [State.seen, State.seen, hpipe]
  obtain ⟨hissued, hpassed⟩ := hinv.step_issued θ (K := K)
  have hissued' : ∀ t, t < s.entry → t ≤ (Concow.step K θ s).nSubmitted → t ≤ s.nSubmitted := by
    intro t hlt hle
    rcases hissued with heq | ⟨hstop, -⟩
    · exact heq ▸ hle
    · have := hinv.entry_le hstop
      omega
  refine h.frame (hinv.nCommitted_le θ) ?_ ?_ (step_callsOf θ) hpassed ?_ ?_
  · intro t hlt hle
    rw [hentry] at hlt
    exact ⟨hlt, hissued' t hlt hle⟩
  · intro t hlt hlt'
    rw [hseen] at hlt
    refine ⟨hlt, ?_⟩
    rcases hissued with heq | ⟨hstop, -⟩
    · exact heq ▸ hlt'
    · exact hlt.trans_le (hinv.seen_le hstop)
  · intro t hmod hkept
    rw [hinv.step_ctx hθ hkept.committed (hinv.entered_lt hkept.entered hkept.issued)
      (hinv.writes_ne_checkpoint hθ hne hkept hmod)]
  · rw [hpipe]
    have hlooks := h.looks
    by_cases hwaited : (s.pipes 0).pc.waited = true
    · have hctx := hinv.step_ctx hθ (hinv.committed_lt_tid (Nat.zero_le _)).le
        (hinv.waited_lt (Nat.zero_le _) hwaited) (hinv.writes_ne_entry hθ hne hwaited)
      have hle : (s.pipes 0).tid ≤ (Concow.step K θ s).nSubmitted →
          (s.pipes 0).tid ≤ s.nSubmitted := by
        intro hle
        rcases hissued with heq | ⟨hstop, -⟩
        · exact heq ▸ hle
        · exact hinv.waited_le hstop (Nat.zero_le _) hwaited
      rw [hctx]
      unfold Pipe.Looks at hlooks ⊢
      split <;> simp_all
    · unfold Pipe.Looks
      cases hpc : (s.pipes 0).pc <;> first | trivial | simp [hpc, PipePc.waited] at hwaited

theorem Rooted.entryMove (h : Rooted K s x) (hC : s'.nCommitted = s.nCommitted)
    (hsubmitted : s'.nSubmitted = s.nSubmitted) (hpassed : s'.passed = s.passed)
    (hcalls : ∀ t, ∃ l, s'.callsOf t = s.callsOf t ++ l) (hentry : s'.entry = s.entry)
    (hseen : s'.seen = s.seen)
    (hroot : ∀ t, t % bufferSize = 0 → Kept s t → (s'.ctx t).root = (s.ctx t).root)
    (hlooks : (s'.pipes 0).Looks s'.nSubmitted (s'.ctx (s'.pipes 0).tid)
    (x ((s'.pipes 0).tid - 1))) :
    Rooted K s' x := by
  refine h.frame hC.ge ?_ ?_ hcalls (fun t _ => by rw [hpassed]) hroot hlooks
  · rw [hentry, hsubmitted]
    exact fun _ => And.intro
  · rw [hseen, hsubmitted]
    exact fun _ => And.intro

theorem Rooted.look (h : Rooted K s x) (hinv : Inv K s φ) (hhistory : History K s) {p : Pipe}
    (hwaited : (s.pipes 0).pc.waited = true) (hentered : (s.pipes 0).pc.entered = false)
    (hlooked : (s.pipes 0).pc.looked = false) (hw : PipeWrites s s' 0 p)
    (hcalls : s'.calls = s.calls) (htid : p.tid = (s.pipes 0).tid)
    (hp : (p.pc = .cpVersion ∨ p.pc = .init) ∧
        (s'.ctx (s.pipes 0).tid).tPast = (s.ctx ((s.pipes 0).tid - 1)).root ∨
      p.pc = .advance ∧ (s.pipes 0).tid % bufferSize = 0 ∧
        (s'.ctx (s.pipes 0).tid).root = (s.ctx ((s.pipes 0).tid - 1)).root) :
    Rooted K s' (Function.update x ((s.pipes 0).tid - 1) (s.ctx ((s.pipes 0).tid - 1)).root) := by
  set e := (s.pipes 0).tid with he
  set past := (s.ctx (e - 1)).root with hpast
  have hpos : 1 ≤ e := (hinv.order.pipes 0 (Nat.zero_le _)).tid_pos
  have hC := hinv.committed_lt_tid (Nat.zero_le K.nPipes)
  have hentry : s.entry = e := by simp [State.entry, hentered, he]
  have hseen : s.seen = e - 1 := by simp [State.seen, hlooked, he]
  have hself : s'.pipes 0 = p := by rw [hw.pipes, Function.update_self]
  have hseen' : s'.seen = e := by
    have hlooked' : p.pc.looked = true := by
      rcases hp with ⟨hpc | hpc, -⟩ | ⟨hpc, -⟩ <;> rw [hpc] <;> rfl
    simp [State.seen, hself, hlooked', htid]
  have hentry' : ∀ t, t < s'.entry → t < e ∨ t = e ∧ p.pc = .advance := by
    intro t hlt
    rw [State.entry, hself, htid] at hlt
    rcases hp with ⟨hpc | hpc, -⟩ | ⟨hpc, -⟩
    · simp only [hpc, PipePc.entered, Bool.false_eq_true, if_false] at hlt
      exact .inl hlt
    · simp only [hpc, PipePc.entered, Bool.false_eq_true, if_false] at hlt
      exact .inl hlt
    · simp only [hpc, PipePc.entered, if_true] at hlt
      exact (Nat.lt_succ_iff_lt_or_eq.mp hlt).imp_right fun heq => ⟨heq, hpc⟩
  have hkept : e - 1 ≤ s.nSubmitted → Kept s (e - 1) := fun hle => ⟨by omega, hle, by omega⟩
  have hcallsOf : ∀ t, s'.callsOf t = s.callsOf t ++ [] := by
    intro t
    rw [State.callsOf, State.callsOf, hcalls, List.append_nil]
  have hold : ∀ t, t < e - 1 → Function.update x (e - 1) past t = x t := fun t ht =>
    Function.update_of_ne ht.ne _ _
  constructor
  · by_cases hfirst : e - 1 = 0
    · have hroot : past = some K.tInit := by
        rcases h.checkpoints 0 rfl ⟨by omega, Nat.zero_le _, by omega⟩ with ⟨-, hroot⟩ | ⟨hle, -⟩
        · rw [hpast, hfirst]
          exact hroot
        · omega
      rw [hfirst, Function.update_self, hroot]
    · rw [hold 0 (Nat.pos_of_ne_zero hfirst)]
      exact h.start
  · intro t hmod hlt hle
    have hlt' : t < e := by
      rcases hentry' t hlt with hlt | ⟨rfl, hpc⟩
      · exact hlt
      · rcases hp with ⟨hpc' | hpc', -⟩ | ⟨-, hmod', -⟩
        · simp [hpc] at hpc'
        · simp [hpc] at hpc'
        · exact absurd hmod' hmod
    have ht : 1 ≤ t := by
      by_contra hzero
      obtain rfl : t = 0 := by omega
      exact hmod rfl
    rw [hold (t - 1) (by omega)]
    rw [hw.nSubmitted] at hle
    exact (h.began t hmod (hentry ▸ hlt') hle).mono (hcallsOf t) (by rw [hw.passed])
  · intro t ht hlt hlt'
    rw [hseen'] at hlt
    rw [hw.nSubmitted] at hlt'
    rw [hold (t - 1) (by omega)]
    by_cases hlast : t = e - 1
    · subst hlast
      rw [Function.update_self]
      exact (h.makes_kept hhistory (hkept hlt'.le) ht).mono (hcallsOf _) (by rw [hw.passed])
    · rw [hold t (by omega)]
      exact (h.made t ht (by omega) hlt').mono (hcallsOf _) (by rw [hw.passed])
  · intro t hmod hkept'
    rcases hentry' t hkept'.entered with hlt | ⟨rfl, hpc⟩
    · have hkept'' : Kept s t :=
        ⟨hw.nCommitted ▸ hkept'.committed, hw.nSubmitted ▸ hkept'.issued, hentry ▸ hlt⟩
      have hslot := hinv.entry_slot_ne hwaited hentered hkept''
      rw [State.ctx, hw.ctxs _ hslot]
      rcases h.checkpoints t hmod hkept'' with hfirst | ⟨ht, hcp⟩
      · exact .inl hfirst
      · rw [hold (t - 1) (by omega)]
        exact .inr ⟨ht, hcp⟩
    · refine .inr ⟨hpos, .inl ?_⟩
      rw [Function.update_self]
      rcases hp with ⟨hpc' | hpc', -⟩ | ⟨-, -, hroot⟩
      · simp [hpc] at hpc'
      · simp [hpc] at hpc'
      · exact hroot
  · rw [hself, htid, Function.update_self]
    unfold Pipe.Looks
    rcases hp with ⟨hpc | hpc, hpast'⟩ | ⟨hpc, -⟩ <;> simp only [hpc]
    · exact fun _ => hpast'
    · exact fun _ => hpast'

theorem Rooted.cpHandle (h : Rooted K s x) (hinv : Inv K s φ) (hpc : (s.pipes 0).pc = .cpHandle) :
    Rooted K (Concow.pipeStep K 0 s) x := by
  have hwaited : (s.pipes 0).pc.waited = true := by rw [hpc]; rfl
  have hentered : (s.pipes 0).pc.entered = false := by rw [hpc]; rfl
  have hmod : (s.pipes 0).tid % bufferSize = 0 := by
    have hknows := hinv.slots.pipes 0 (Nat.zero_le _)
    simpa only [Pipe.Knows, hpc] using hknows
  have hpos : 1 ≤ (s.pipes 0).tid := (hinv.order.pipes 0 (Nat.zero_le _)).tid_pos
  have hentry : s.entry = (s.pipes 0).tid := by simp [State.entry, hentered]
  have hlooks := h.looks
  simp only [Pipe.Looks, hpc] at hlooks
  simp only [Concow.pipeStep, hpc]
  set r := K.checkpointHandler (s.ctx (s.pipes 0).tid) s.mem with hr
  set s' : State ρ μ := { (s.setCtx ((s.pipes 0).tid % bufferSize)
    { s.ctx (s.pipes 0).tid with root := r.1 }).setPipe 0 { s.pipes 0 with pc := .advance } with
      mem := r.2 } with hs'
  have hself : s'.pipes 0 = { s.pipes 0 with pc := .advance } := by simp [hs', State.setPipe]
  have hentry' : s'.entry = (s.pipes 0).tid + 1 := by simp [State.entry, hself, PipePc.entered]
  have hseen : s'.seen = s.seen := by simp [State.seen, hself, hpc, PipePc.looked]
  have hctx : s'.ctx (s.pipes 0).tid = { s.ctx (s.pipes 0).tid with root := r.1 } :=
    Function.update_self _ _ _
  have hother : ∀ t, Kept s t → s'.ctx t = s.ctx t := fun t hkept =>
    Function.update_of_ne (hinv.entry_slot_ne hwaited hentered hkept) _ _
  constructor
  · exact h.start
  · intro t hmod' hlt hle
    have hne : t ≠ (s.pipes 0).tid := by
      rintro rfl
      exact hmod' hmod
    exact h.began t hmod' (by omega) hle
  · intro t ht hlt hlt'
    exact h.made t ht (hseen ▸ hlt) hlt'
  · intro t hmod' hkept
    have hlt := hkept.entered
    by_cases heq : t = (s.pipes 0).tid
    · subst heq
      refine .inr ⟨hpos, .inr ⟨s.ctx (s.pipes 0).tid, s.mem, hlooks hkept.issued, ?_⟩⟩
      rw [hctx]
    · have hkept' : Kept s t := ⟨hkept.committed, hkept.issued, by omega⟩
      rw [hother t hkept']
      exact h.checkpoints t hmod' hkept'
  · rw [hself]
    trivial

theorem Rooted.init (h : Rooted K s x) (hinv : Inv K s φ) (hhistory : History K s)
    (hpc : (s.pipes 0).pc = .init) : Rooted K (Concow.pipeStep K 0 s) x := by
  have hwaited : (s.pipes 0).pc.waited = true := by rw [hpc]; rfl
  have hentered : (s.pipes 0).pc.entered = false := by rw [hpc]; rfl
  have hupdate : (s.pipes 0).tid % bufferSize ≠ 0 ∧ (s.pipes 0).tid ≤ s.nSubmitted := by
    have hknows := hinv.slots.pipes 0 (Nat.zero_le _)
    simpa only [Pipe.Knows, hpc] using hknows
  have hentry : s.entry = (s.pipes 0).tid := by simp [State.entry, hentered]
  have hlooks := h.looks
  simp only [Pipe.Looks, hpc] at hlooks
  have hcontent := hinv.pipe_content (Nat.zero_le _) hwaited
  rw [hinv.phase_filled hwaited hentered hupdate.2] at hcontent
  obtain ⟨key, val, hpassed, hfresh⟩ := hcontent.2 hupdate.1
  have hnone : s.callsOf (s.pipes 0).tid = [] :=
    (hhistory.updates _ hupdate.1).fresh (.inl hentry.le)
  have hcalls := step_callsOf (K := K) (s := s) (.pipe 0)
  have hself : (Concow.pipeStep K 0 s).pipes 0 = { s.pipes 0 with pc := .retry } := by
    simp [Concow.pipeStep, hpc, State.setPipe]
  have hentry' : (Concow.pipeStep K 0 s).entry = (s.pipes 0).tid + 1 := by
    simp [State.entry, hself, PipePc.entered]
  have hseen : (Concow.pipeStep K 0 s).seen = s.seen := by
    simp [State.seen, hself, hpc, PipePc.looked]
  have hother : ∀ t, Kept s t → (Concow.pipeStep K 0 s).ctx t = s.ctx t := fun t hkept =>
    pipeStep_ctxs fun _ => hinv.entry_slot_ne hwaited hentered hkept
  have hsubmitted : (Concow.pipeStep K 0 s).nSubmitted = s.nSubmitted := by rw [pipeStep_writes]
  have hC : (Concow.pipeStep K 0 s).nCommitted = s.nCommitted := by rw [pipeStep_writes]
  have hpassed' : (Concow.pipeStep K 0 s).passed = s.passed := by rw [pipeStep_writes]
  constructor
  · exact h.start
  · intro t hmod hlt hle
    by_cases heq : t = (s.pipes 0).tid
    · subst heq
      refine ⟨⟨.pipe 0, (s.pipes 0).tid, 0, s.ctx (s.pipes 0).tid,
        (handled K s (s.pipes 0).tid Operand.init).1⟩, ?_, hlooks hupdate.2, ?_⟩
      · simp only [Concow.pipeStep, hpc]
        change ((s.call K (.pipe 0) (s.pipes 0).tid 0 Operand.init).callsOf
          (s.pipes 0).tid).head? = _
        rw [callsOf_call, if_pos rfl, hnone]
        rfl
      · rw [hpassed', hpassed, hfresh.key, hfresh.val]
    · obtain ⟨l, hl⟩ := hcalls t
      exact (h.began t hmod (by omega) (hsubmitted ▸ hle)).mono hl (by rw [hpassed'])
  · intro t ht hlt hlt'
    obtain ⟨l, hl⟩ := hcalls t
    exact (h.made t ht (hseen ▸ hlt) (hsubmitted ▸ hlt')).mono hl (by rw [hpassed'])
  · intro t hmod hkept
    have hlt := hkept.entered
    have hne : t ≠ (s.pipes 0).tid := by
      rintro rfl
      exact hupdate.1 hmod
    have hkept' : Kept s t := ⟨hC ▸ hkept.committed, hsubmitted ▸ hkept.issued, by omega⟩
    rw [hother t hkept']
    exact h.checkpoints t hmod hkept'
  · rw [hself]
    trivial

theorem Rooted.handle (h : Rooted K s x) (hinv : Inv K s φ) (hpc : (s.pipes 0).pc = .handle) :
    Rooted K (Concow.pipeStep K 0 s) x := by
  have hwaited : (s.pipes 0).pc.waited = true := by rw [hpc]; rfl
  have hmod : (s.pipes 0).tid % bufferSize ≠ 0 := by
    have hknows := hinv.slots.pipes 0 (Nat.zero_le _)
    simp only [Pipe.Knows, hpc] at hknows
    exact hknows.1
  have hself : (Concow.pipeStep K 0 s).pipes 0 = { s.pipes 0 with pc := .retry } := by
    simp [Concow.pipeStep, hpc, State.setPipe]
  refine h.entryMove ?_ ?_ ?_ (step_callsOf (.pipe 0)) ?_ ?_ ?_ ?_
  · rw [pipeStep_writes]
  · rw [pipeStep_writes]
  · rw [pipeStep_writes]
  · simp [State.entry, hself, hpc, PipePc.entered]
  · simp [State.seen, hself, hpc, PipePc.looked]
  · intro t hmod' hkept
    have hne : t ≠ (s.pipes 0).tid := by
      rintro rfl
      exact hmod hmod'
    have hslot := ring_ne hkept.committed (hinv.entered_lt hkept.entered hkept.issued)
      (hinv.committed_lt_tid (Nat.zero_le _)).le (hinv.waited_lt (Nat.zero_le _) hwaited) hne
    exact congrArg Context.root (pipeStep_ctxs fun _ => hslot)
  · rw [hself]
    trivial

theorem callsOf_extends (s : State ρ μ) (t : Nat) : ∃ l, s.callsOf t = s.callsOf t ++ l :=
  ⟨[], (List.append_nil _).symm⟩

theorem Rooted.entryLocal (h : Rooted K s x) {p : Pipe} (htid : p.tid = (s.pipes 0).tid)
    (hentered : p.pc.entered = (s.pipes 0).pc.entered)
    (hlooked : p.pc.looked = (s.pipes 0).pc.looked)
    (hlooks : p.Looks s.nSubmitted (s.ctx (s.pipes 0).tid) (x ((s.pipes 0).tid - 1))) :
    Rooted K (s.setPipe 0 p) x := by
  have hself : (s.setPipe 0 p).pipes 0 = p := by simp [State.setPipe]
  refine h.entryMove rfl rfl rfl (callsOf_extends s) ?_ ?_ (fun _ _ _ => rfl) ?_
  · rw [State.entry, State.entry, hself, hentered, htid]
  · rw [State.seen, State.seen, hself, hlooked, htid]
  · rw [hself, htid]
    exact hlooks

theorem Rooted.entryLoad (h : Rooted K s x) : Rooted K (s.loadCno (s.pipes 0).tid) x := by
  refine h.entryMove rfl rfl rfl (callsOf_extends s) rfl rfl (fun t _ _ => ?_) ?_
  · rcases loadCno_ctxs s (s.pipes 0).tid (t % bufferSize) with heq | heq
    · exact congrArg Context.root heq
    · exact (congrArg Context.root heq).trans rfl
  · have hpast : ((s.loadCno (s.pipes 0).tid).ctx (s.pipes 0).tid).tPast =
        (s.ctx (s.pipes 0).tid).tPast := by
      rcases loadCno_ctxs s (s.pipes 0).tid ((s.pipes 0).tid % bufferSize) with heq | heq
      · exact congrArg Context.tPast heq
      · exact (congrArg Context.tPast heq).trans rfl
    have hlooks := h.looks
    change (s.pipes 0).Looks s.nSubmitted ((s.loadCno (s.pipes 0).tid).ctx (s.pipes 0).tid)
      (x ((s.pipes 0).tid - 1))
    unfold Pipe.Looks at hlooks ⊢
    rw [hpast]
    exact hlooks

theorem Rooted.entryRound (h : Rooted K s x) (hinv : Inv K s φ)
    (hwaited : (s.pipes 0).pc.waited = false) :
    Rooted K (Concow.pipeStep K 0 s) x := by
  have hordered := hinv.order.pipes 0 (Nat.zero_le _)
  cases hpc : (s.pipes 0).pc <;> simp only [hpc, PipePc.waited, Bool.true_eq_false] at hwaited <;>
    simp only [Concow.pipeStep, hpc]
  case testStop =>
      have hepoch := hordered.epoch (.inl hpc)
      split
      · exact h.entryLocal rfl (by rw [hpc]; rfl) (by rw [hpc]; rfl) trivial
      · exact h.entryLocal hepoch.symm (by rw [hpc]; rfl) (by rw [hpc]; rfl) trivial
  case loadTasks =>
      exact h.entryLocal (hordered.epoch (.inr hpc)).symm (by rw [hpc]; rfl)
        (by rw [hpc]; rfl) trivial
  case loop =>
      split
      · exact h.entryLocal rfl (by rw [hpc]; rfl) (by rw [hpc]; rfl) trivial
      · split <;> exact h.entryLocal rfl (by rw [hpc]; rfl) (by rw [hpc]; rfl) trivial
  case wait =>
      split
      · exact h.entryLocal rfl (by rw [hpc]) (by rw [hpc]) trivial
      · exact h.entryLocal rfl (by rw [hpc]; rfl) (by rw [hpc]; rfl) trivial
  case finished => exact h

theorem Rooted.passBubble (h : Rooted K s x) (hinv : Inv K s φ) (hpc : (s.pipes 0).pc = .start)
    (hmod : (s.pipes 0).tid % bufferSize ≠ 0) (hop : (s.ctx (s.pipes 0).tid).op ≠ Operand.init) :
    Rooted K (s.setPipe 0 { s.pipes 0 with pc := .advance }) x := by
  have hentered : (s.pipes 0).pc.entered = false := by rw [hpc]; rfl
  have hlooked : (s.pipes 0).pc.looked = false := by rw [hpc]; rfl
  have hlt := hinv.bubble_of_ne_init (by rw [hpc]; rfl) hentered hmod hop
  have hself : (s.setPipe 0 { s.pipes 0 with pc := .advance }).pipes 0 =
      { s.pipes 0 with pc := .advance } := by simp [State.setPipe]
  have hentry : s.entry = (s.pipes 0).tid := by simp [State.entry, hentered]
  have hseen : s.seen = (s.pipes 0).tid - 1 := by simp [State.seen, hlooked]
  refine h.frame le_rfl ?_ ?_ (callsOf_extends s) (fun _ _ => rfl) (fun _ _ _ => rfl)
    (by rw [hself]; trivial)
  · intro t hlt' hle
    simp only [State.entry, hself, PipePc.entered, if_true] at hlt'
    change t ≤ s.nSubmitted at hle
    omega
  · intro t hlt' hle
    simp only [State.seen, hself, PipePc.looked, if_true] at hlt'
    change t < s.nSubmitted at hle
    omega

theorem Rooted.entryStart (h : Rooted K s x) (hinv : Inv K s φ) (hpc : (s.pipes 0).pc = .start) :
    Rooted K (Concow.pipeStep K 0 s) x := by
  have hentered : (s.pipes 0).pc.entered = false := by rw [hpc]; rfl
  have hlooked : (s.pipes 0).pc.looked = false := by rw [hpc]; rfl
  simp only [Concow.pipeStep, hpc, pipeStart, if_true]
  split
  · split <;> exact h.entryLocal rfl hentered.symm hlooked.symm trivial
  · rename_i hmod
    split
    · exact h.entryLocal rfl hentered.symm hlooked.symm trivial
    · rename_i hop
      exact h.passBubble hinv hpc hmod hop

theorem Rooted.entryLook (h : Rooted K s x) (hinv : Inv K s φ) (hhistory : History K s)
    (hpc : (s.pipes 0).pc = .copyRoot ∨ (s.pipes 0).pc = .cpPast ∨ (s.pipes 0).pc = .readPast) :
    ∃ x', Rooted K (Concow.pipeStep K 0 s) x' := by
  have hknows := hinv.slots.pipes 0 (Nat.zero_le _)
  rcases hpc with hpc | hpc | hpc <;> simp only [Pipe.Knows, hpc] at hknows <;>
    simp only [Concow.pipeStep, hpc]
  · refine ⟨_, h.look hinv hhistory (by rw [hpc]; rfl) (by rw [hpc]; rfl) (by rw [hpc]; rfl)
      (pipeWrites_setCtx _) rfl rfl (.inr ⟨rfl, hknows, ?_⟩)⟩
    simp [State.ctx, State.setPipe, State.setCtx]
  · refine ⟨_, h.look hinv hhistory (by rw [hpc]; rfl) (by rw [hpc]; rfl) (by rw [hpc]; rfl)
      (pipeWrites_setCtx _) rfl rfl (.inl ⟨.inl rfl, ?_⟩)⟩
    simp [State.ctx, State.setPipe, State.setCtx]
  · refine ⟨_, h.look hinv hhistory (by rw [hpc]; rfl) (by rw [hpc]; rfl) (by rw [hpc]; rfl)
      (pipeWrites_setCtx _) rfl rfl (.inl ⟨.inr rfl, ?_⟩)⟩
    simp [State.ctx, State.setPipe, State.setCtx]

theorem Rooted.entryRetry (h : Rooted K s x) (hpc : (s.pipes 0).pc = .retry) :
    Rooted K (Concow.pipeStep K 0 s) x := by
  simp only [Concow.pipeStep, hpc]
  split
  · have hiter : (iterExec (s.ctx (s.pipes 0).tid)).entered = true ∧
        (iterExec (s.ctx (s.pipes 0).tid)).looked = true ∧
        Pipe.Looks { s.pipes 0 with pc := iterExec (s.ctx (s.pipes 0).tid) } s.nSubmitted
          (s.ctx (s.pipes 0).tid) (x ((s.pipes 0).tid - 1)) := by
      unfold iterExec
      split
      · exact ⟨rfl, rfl, trivial⟩
      · split <;> exact ⟨rfl, rfl, trivial⟩
    exact h.entryLocal rfl (by rw [hpc, hiter.1]; rfl) (by rw [hpc, hiter.2.1]; rfl) hiter.2.2
  · exact h.entryLocal rfl (by rw [hpc]; rfl) (by rw [hpc]; rfl) trivial

theorem Rooted.entryAdvance (h : Rooted K s x) (hpc : (s.pipes 0).pc = .advance) :
    Rooted K (Concow.pipeStep K 0 s) x := by
  have hself : ((s.setPace (0 + 1) (s.pipes 0).tid).setPipe 0
      { s.pipes 0 with pc := .loop, tid := (s.pipes 0).tid + 1 }).pipes 0 =
        { s.pipes 0 with pc := .loop, tid := (s.pipes 0).tid + 1 } := by simp [State.setPipe]
  simp only [Concow.pipeStep, hpc]
  refine h.entryMove rfl rfl rfl (callsOf_extends s) ?_ ?_ (fun _ _ _ => rfl) ?_
  · simp [State.entry, hself, hpc, PipePc.entered]
  · simp [State.seen, hself, hpc, PipePc.looked]
  · rw [hself]
    trivial

theorem Rooted.entryStep (h : Rooted K s x) (hinv : Inv K s φ) (hhistory : History K s) :
    ∃ x', Rooted K (Concow.pipeStep K 0 s) x' := by
  have hkind := hinv.order.kinds 0 (Nat.zero_le _)
  have hlooks := h.looks
  cases hpc : (s.pipes 0).pc <;> simp only [State.counters, hpc, PipePc.OfKind] at hkind <;>
    simp only [Pipe.Looks, hpc] at hlooks
  case testStop | loadTasks | loop | wait |
    finished => exact ⟨x, h.entryRound hinv (by rw [hpc]; rfl)⟩
  case start => exact ⟨x, h.entryStart hinv hpc⟩
  case copyRoot => exact h.entryLook hinv hhistory (.inl hpc)
  case cpPast => exact h.entryLook hinv hhistory (.inr (.inl hpc))
  case readPast => exact h.entryLook hinv hhistory (.inr (.inr hpc))
  case cpHandle => exact ⟨x, h.cpHandle hinv hpc⟩
  case init => exact ⟨x, h.init hinv hhistory hpc⟩
  case retry => exact ⟨x, h.entryRetry hpc⟩
  case handle => exact ⟨x, h.handle hinv hpc⟩
  case advance => exact ⟨x, h.entryAdvance hpc⟩
  case pop | assign | markDone => exact absurd hkind.symm (Nat.one_le_iff_ne_zero.mp K.nPipes_pos)
  case cpVersion =>
      refine ⟨x, ?_⟩
      simp only [Concow.pipeStep, hpc]
      split
      · exact h.entryLoad
      · exact h.entryLocal rfl (by rw [hpc]; rfl) (by rw [hpc]; rfl) hlooks
  case version =>
      refine ⟨x, ?_⟩
      simp only [Concow.pipeStep, hpc]
      split
      · exact h.entryLoad
      · exact h.entryLocal rfl (by rw [hpc]; rfl) (by rw [hpc]; rfl) trivial

theorem Rooted.initial : Rooted K (initial K) (fun _ => some K.tInit) where
  start := rfl
  began t hmod _ hle := by
    obtain rfl := Nat.le_zero.mp hle
    exact absurd rfl hmod
  made t _ _ hlt := absurd hlt (Nat.not_lt_zero t)
  checkpoints t _ hkept := by
    obtain rfl := Nat.le_zero.mp hkept.issued
    exact .inl ⟨rfl, rfl⟩
  looks := trivial

/-- In every reachable state the roots of the tids are made one from another. -/
theorem rooted_of_reachable (hs : Reachable (Step K) (initial K) s) : ∃ x, Rooted K s x := by
  have key : Reachable (Step K) (initial K) s ∧ ∃ x, Rooted K s x := by
    refine hs.invariant (fun s => Reachable (Step K) (initial K) s ∧ ∃ x, Rooted K s x)
      ⟨Reachable.start, _, Rooted.initial⟩ ?_
    rintro a s t ⟨hs, x, h⟩ - ha
    refine ⟨hs.next a ha, ?_⟩
    obtain ⟨φ, hinv⟩ := inv_of_reachable hs
    have hnone : ∀ t, ∃ l, s.callsOf t = s.callsOf t ++ l := fun t => ⟨[], (List.append_nil _).symm⟩
    cases ha with
    | update _ c key val hc hd =>
        exact ⟨x, h.entryMove rfl rfl rfl hnone rfl rfl (fun _ _ _ => rfl) h.looks⟩
    | destroy _ hc hd => exact ⟨x, h.entryMove rfl rfl rfl hnone rfl rfl (fun _ _ _ => rfl) h.looks⟩
    | thread _ θ hθ =>
        by_cases hentry : θ = .pipe 0
        · subst hentry
          exact h.entryStep hinv (history_of_reachable hs)
        · exact ⟨x, h.otherStep hinv hθ hentry⟩
  exact key.2

end Chains

end Contrees.Conctrl.Concow
