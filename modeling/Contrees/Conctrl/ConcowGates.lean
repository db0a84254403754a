import Contrees.Conctrl.ConcowSafety

namespace Contrees.Conctrl.Concow

open Library.Runs Library.TaskLedger

variable {ρ μ : Type} {K : Config ρ μ} {s s' : State ρ μ} {φ : Nat → Phase Nat Nat} {θ : Thread}
  {t u k pid wid : Nat} {l : List (Call ρ)} {a : Call ρ}

theorem Inv.step_nSubmitted (h : Inv K s φ) (θ : Thread) :
    s.nSubmitted ≤ (Concow.step K θ s).nSubmitted := by
  rcases (h.step_issued θ).1 with heq | ⟨-, hle⟩
  exacts [heq.ge, hle]

section Flags

def Context.flags (ctx : Context ρ) : List Bool :=
  [ctx.retry, ctx.waitChild, ctx.waitSubtree, ctx.newCheckpoint]

def Result.flags (r : Result ρ) : List Bool :=
  [r.retry, r.waitChild, r.waitSubtree, r.newCheckpoint]

def KeepsFlags (K : Config ρ μ) : Prop := ∀ op ctx mem, (K.handlers op ctx mem).1.flags = ctx.flags

def clear : List Bool := [false, false, false, false]

theorem Context.clear_iff {ctx : Context ρ} : ctx.flags = clear ↔
    ctx.retry = false ∧ ctx.waitChild = false ∧ ctx.waitSubtree = false ∧
    ctx.newCheckpoint = false := by
  simp [Context.flags, clear]

theorem Result.clear_iff {r : Result ρ} : r.flags = clear ↔
    r.retry = false ∧ r.waitChild = false ∧ r.waitSubtree = false ∧ r.newCheckpoint = false := by
  simp [Result.flags, clear]

theorem update_flags {ctxs : Nat → Context ρ} {i : Nat} {ctx : Context ρ}
    (hctxs : ∀ slot, (ctxs slot).flags = clear)
    (h : ctx.flags = clear) (slot : Nat) : (Function.update ctxs i ctx slot).flags = clear := by
  by_cases hslot : slot = i
  · subst hslot
    rw [Function.update_self, h]
  · rw [Function.update_of_ne hslot, hctxs slot]

theorem step_flags (hK : KeepsFlags K) (h : ∀ slot, (s.ctxs slot).flags = clear) (θ : Thread)
    (slot : Nat) :
    ((step K θ s).ctxs slot).flags = clear := by
  cases θ with
  | monitor =>
      rw [step, monitorStep_writes]
      exact h slot
  | destructor =>
      rw [step, destructorStep_writes]
      exact h slot
  | client c =>
      rw [step]
      cases hc : s.clients c <;> simp only [clientStep, hc] <;> try exact h slot
      case waiting =>
          split
          · exact h slot
          · split <;> exact h slot
      case bubbleSno =>
          refine update_flags h ?_ slot
          exact h 0
      case writing tid key val field =>
          cases field with
          | stage => exact h slot
          | flags =>
              refine update_flags h ?_ slot
              rfl
          | op | sno | key | val =>
              refine update_flags h ?_ slot
              exact h _
  | pipe pid =>
      rw [step]
      cases hpc : (s.pipes pid).pc <;> simp only [pipeStep, hpc]
      case cpVersion | version =>
          split
          · refine update_flags h ?_ slot
            exact h _
          · exact h slot
      case copyRoot | cpPast | cpHandle | readPast =>
          refine update_flags h ?_ slot
          exact h _
      case init | handle =>
          refine update_flags h ?_ slot
          exact (hK _ _ _).trans (h _)
      case loop =>
          split
          · exact h slot
          · split <;> exact h slot
      all_goals first | exact h slot | (split <;> exact h slot)
  | worker wid =>
      rw [step]
      cases hpc : (s.workers wid).pc <;> simp only [workerStep, hpc]
      case version =>
          split
          · refine update_flags h ?_ slot
            exact h _
          · exact h slot
      case reload =>
          refine update_flags h ?_ slot
          exact h _
      case handle =>
          refine update_flags h ?_ slot
          exact (hK _ _ _).trans (h _)
      case waitTid =>
          split
          · exact h slot
          · split <;> exact h slot
      case waitStage =>
          split
          · split <;> exact h slot
          · exact h slot
      all_goals first | exact h slot | (split <;> exact h slot)

theorem clear_of_reachable (hK : KeepsFlags K) (hs : Reachable (Step K) (initial K) s)
    (slot : Nat) :
    (s.ctxs slot).flags = clear := by
  refine hs.invariant (fun s => ∀ slot, (s.ctxs slot).flags = clear) (fun _ => rfl) ?_ slot
  rintro a s s' h - ha
  cases ha with
  | update | destroy => exact h
  | thread _ θ hθ => exact step_flags hK h θ

end Flags

section Calls

/-- The tid, the stage and the operand of the call that the next step of a thread makes. -/
def State.calling (K : Config ρ μ) (s : State ρ μ) : Thread → Option (Nat × Nat × Nat)
  | .pipe pid =>
      let tid := (s.pipes pid).tid
      match (s.pipes pid).pc with
      | .init => some (tid, pid, Operand.init)
      | .handle => some (tid, pid, (s.ctx tid).op)
      | _ => none
  | .worker wid =>
      let tid := (s.workers wid).tid
      match (s.workers wid).pc with
      | .handle => some (tid, K.nPipes + (s.workers wid).stage - 1, (s.ctx tid).op)
      | _ => none
  | _ => none

theorem step_calling {t stage op : Nat} (h : s.calling K θ = some (t, stage, op)) :
    (step K θ s).calls = s.calls ++ [⟨θ, t, stage, s.ctx t, (handled K s t op).1⟩] ∧
      (step K θ s).mem = (handled K s t op).2 := by
  cases θ with
  | client c => simp [State.calling] at h
  | monitor => simp [State.calling] at h
  | destructor => simp [State.calling] at h
  | pipe pid =>
      cases hpc : (s.pipes pid).pc <;>
        simp only [State.calling, hpc, Option.some.injEq, Prod.mk.injEq, reduceCtorEq] at h
      all_goals
        obtain ⟨rfl, rfl, rfl⟩ := h
        simp only [step, pipeStep, hpc]
        exact ⟨rfl, rfl⟩
  | worker wid =>
      cases hpc : (s.workers wid).pc <;>
        simp only [State.calling, hpc, Option.some.injEq, Prod.mk.injEq, reduceCtorEq] at h
      obtain ⟨rfl, rfl, rfl⟩ := h
      simp only [step, workerStep, hpc]
      exact ⟨rfl, rfl⟩

theorem callsOf_calling {t stage op : Nat} (h : s.calling K θ = some (t, stage, op)) (u : Nat) :
    (step K θ s).callsOf u = if t = u then
      s.callsOf u ++ [⟨θ, t, stage, s.ctx t, (handled K s t op).1⟩] else s.callsOf u := by
  rw [State.callsOf, (step_calling h).1, List.filter_append, List.filter_singleton, ← State.callsOf]
  by_cases htid : t = u <;> simp [htid]

theorem writes_of_calling {t stage op : Nat} (h : s.calling K θ = some (t, stage, op)) :
    s.writes θ = some t := by
  cases θ with
  | client c => simp [State.calling] at h
  | monitor => simp [State.calling] at h
  | destructor => simp [State.calling] at h
  | pipe pid =>
      cases hpc : (s.pipes pid).pc <;>
        simp only [State.calling, hpc, Option.some.injEq, Prod.mk.injEq, reduceCtorEq] at h
      all_goals simp [State.writes, PipePc.writes, hpc, h.1]
  | worker wid =>
      cases hpc : (s.workers wid).pc <;>
        simp only [State.calling, hpc, Option.some.injEq, Prod.mk.injEq, reduceCtorEq] at h
      simp [State.writes, WorkerPc.writes, hpc, h.1]

theorem step_quiet (h : s.calling K θ = none)
    (hcp : ∀ pid, θ = .pipe pid → (s.pipes pid).pc ≠ .cpHandle) :
    (step K θ s).calls = s.calls ∧ (step K θ s).mem = s.mem := by
  cases θ with
  | client c =>
      rw [step, clientStep_writes]
      exact ⟨rfl, rfl⟩
  | monitor =>
      rw [step, monitorStep_writes]
      exact ⟨rfl, rfl⟩
  | destructor =>
      rw [step, destructorStep_writes]
      exact ⟨rfl, rfl⟩
  | pipe pid =>
      rw [step]
      cases hpc : (s.pipes pid).pc <;> simp only [State.calling, hpc, reduceCtorEq] at h <;>
        simp only [pipeStep, hpc]
      case cpHandle => exact absurd hpc (hcp pid rfl)
      case finished => exact ⟨trivial, trivial⟩
      case loop =>
          split
          · exact ⟨rfl, rfl⟩
          · split <;> exact ⟨rfl, rfl⟩
      all_goals first | exact ⟨rfl, rfl⟩ | (split <;> exact ⟨rfl, rfl⟩)
  | worker wid =>
      rw [step]
      cases hpc : (s.workers wid).pc <;> simp only [State.calling, hpc, reduceCtorEq] at h <;>
        simp only [workerStep, hpc]
      case waitTid =>
          split
          · exact ⟨rfl, rfl⟩
          · split <;> exact ⟨rfl, rfl⟩
      case waitStage =>
          split
          · split <;> exact ⟨rfl, rfl⟩
          · exact ⟨rfl, rfl⟩
      case finished => exact ⟨trivial, trivial⟩
      all_goals first | exact ⟨rfl, rfl⟩ | (split <;> exact ⟨rfl, rfl⟩)

end Calls

section Checkpoints

def PipePc.checks : PipePc → Bool
  | .cpPast | .cpVersion | .cpHandle => true
  | _ => false

theorem iterExec_checks (ctx : Context ρ) : (iterExec ctx).checks = false := by
  unfold iterExec
  split
  · rfl
  · split <;> rfl

theorem pipeStart_checks (hcheckpoint : s.checkpoint = 0) (pid : Nat) (p : Pipe) :
    (pipeStart K s pid p).pc.checks = false := by
  unfold pipeStart
  simp only [hcheckpoint, Nat.not_lt_zero, if_false]
  split
  · split
    · rfl
    · simp only
      split <;> rfl
  · split <;> simp only <;> split <;> first | rfl | exact iterExec_checks _

theorem pipeStep_checks (hcheckpoint : s.checkpoint = 0) (h : ∀ q, (s.pipes q).pc.checks = false)
    (q : Nat) :
    ((pipeStep K pid s).pipes q).pc.checks = false := by
  by_cases hq : q = pid
  · subst hq
    have hq := h q
    cases hpc : (s.pipes q).pc <;> simp only [pipeStep, hpc]
    case start =>
        simpa only [State.setPipe, Function.update_self] using pipeStart_checks hcheckpoint q (s.pipes q)
    case cpPast | cpVersion | cpHandle => simp [hpc, PipePc.checks] at hq
    case pop =>
        simp only [State.setPipe, Function.update_self, afterPop]
        split <;> rfl
    case retry =>
        simp only [State.setPipe, Function.update_self]
        split
        · exact iterExec_checks _
        · rfl
    case version =>
        split
        · exact hq
        · simp [State.setPipe, PipePc.checks]
    case loop =>
        split
        · simp [State.setPipe, PipePc.checks]
        · split <;> simp [State.setPipe, PipePc.checks]
    case testStop | wait => split <;> simp [State.setPipe, PipePc.checks]
    case finished => simpa only [hpc] using hq
    all_goals simp [State.setPipe, PipePc.checks]
  · rw [pipeStep_pipes_of_ne hq]
    exact h q

theorem unchecked_of_reachable (hK : KeepsFlags K) (hs : Reachable (Step K) (initial K) s) :
    s.checkpoint = 0 ∧ ∀ pid, (s.pipes pid).pc.checks = false := by
  have key : Reachable (Step K) (initial K) s ∧ s.checkpoint = 0 ∧
    ∀ pid, (s.pipes pid).pc.checks = false := by
    refine hs.invariant (fun s => Reachable (Step K) (initial K) s ∧ s.checkpoint = 0 ∧
      ∀ pid, (s.pipes pid).pc.checks = false) ⟨Reachable.start, rfl, fun _ => rfl⟩ ?_
    rintro a s s' ⟨hs, hcheckpoint, hpipes⟩ - ha
    refine ⟨hs.next a ha, ?_⟩
    cases ha with
    | update | destroy => exact ⟨hcheckpoint, hpipes⟩
    | thread _ θ hθ =>
        cases θ with
        | pipe pid =>
            refine ⟨?_, pipeStep_checks hcheckpoint hpipes⟩
            rw [step, pipeStep_writes]
            exact hcheckpoint
        | client c =>
            rw [step, clientStep_writes]
            exact ⟨hcheckpoint, hpipes⟩
        | worker wid =>
            rw [step, workerStep_writes]
            exact ⟨hcheckpoint, hpipes⟩
        | destructor =>
            rw [step, destructorStep_writes]
            exact ⟨hcheckpoint, hpipes⟩
        | monitor =>
            refine ⟨?_, by rw [step, monitorStep_writes]; exact hpipes⟩
            have hclear :=
              (Context.clear_iff.mp (clear_of_reachable hK hs (s.monitor.next % bufferSize))).2.2.2
            cases hpc : s.monitor.pc <;> simp only [step, monitorStep, hpc]
            case checkpoint => simp [State.ctx, hclear, hcheckpoint]
            case finished => exact hcheckpoint
            all_goals first | exact hcheckpoint | (split <;> exact hcheckpoint)
  exact key.2

theorem reachable_checkpoint (hK : KeepsFlags K) (f : Context ρ → μ → Option ρ × μ)
    (hs : Reachable (Step K) (initial K) s) :
    Reachable (Step { K with checkpointHandler := f })
    (initial { K with checkpointHandler := f }) s := by
  have key : Reachable (Step K) (initial K) s ∧
      Reachable (Step { K with checkpointHandler := f })
        (initial { K with checkpointHandler := f }) s := by
    refine hs.invariant (fun s => Reachable (Step K) (initial K) s ∧
      Reachable (Step { K with checkpointHandler := f })
        (initial { K with checkpointHandler := f }) s)
        ⟨Reachable.start, Reachable.start⟩ ?_
    rintro a s s' ⟨hs, hs'⟩ - ha
    refine ⟨hs.next a ha, hs'.next a ?_⟩
    cases ha with
    | update _ c key val hc hd => exact .update _ c key val hc hd
    | destroy _ hc hd => exact .destroy _ hc hd
    | thread _ θ hθ =>
        have hsame : step K θ s = step { K with checkpointHandler := f } θ s := by
          cases θ with
          | pipe pid =>
              have hpid := (unchecked_of_reachable hK hs).2 pid
              cases hpc : (s.pipes pid).pc <;> simp only [step, pipeStep, hpc] <;> try rfl
              case cpHandle => simp [hpc, PipePc.checks] at hpid
          | client c => rfl
          | monitor => rfl
          | worker wid => rfl
          | destructor => rfl
        rw [hsame]
        exact .thread _ θ hθ
  exact key.2

end Checkpoints

section Gates

def Ahead (s : State ρ μ) (u k : Nat) : Prop :=
  ∃ a ∈ s.callsOf u, a.stage = k ∨ a.after.op = Operand.done

theorem Ahead.mono (h : Ahead s u k) (hcalls : s'.callsOf u = s.callsOf u ++ l) : Ahead s' u k := by
  obtain ⟨a, ha, hstage⟩ := h
  exact ⟨a, hcalls ▸ List.mem_append_left l ha, hstage⟩

theorem Ahead.of_ends (htrace : Trace K.nPipes (s.callsOf u) a) (hends : a.Ends) : Ahead s u k := by
  obtain ⟨l, hl⟩ := htrace.last
  exact ⟨a, by simp [hl], .inr hends.2⟩

theorem Finished.ahead (h : Finished K s u) (hmod : u % bufferSize ≠ 0) : Ahead s u k := by
  obtain ⟨a, htrace, hends⟩ := h.update hmod
  exact .of_ends htrace hends

theorem Through.ahead (h : Through K s u k) (hmod : u % bufferSize ≠ 0) :
    Ahead s u (K.nPipes + k - 1) := by
  rcases h.stage hmod with ⟨a, ha, hstage, -⟩ | ⟨a, htrace, hends⟩
  · exact ⟨a, ha, .inl (by omega)⟩
  · exact .of_ends htrace hends

theorem calls_clear_of_reachable (hK : KeepsFlags K) (hs : Reachable (Step K) (initial K) s) :
    ∀ a ∈ s.calls, a.after.flags = clear := by
  have key : Reachable (Step K) (initial K) s ∧ ∀ a ∈ s.calls, a.after.flags = clear := by
    refine hs.invariant
      (fun s => Reachable (Step K) (initial K) s ∧ ∀ a ∈ s.calls, a.after.flags = clear)
      ⟨Reachable.start, by simp [initial]⟩ ?_
    rintro a s s' ⟨hs, hcalls⟩ - ha
    refine ⟨hs.next a ha, ?_⟩
    cases ha with
    | update | destroy => exact hcalls
    | thread _ θ hθ =>
        cases hcalling : s.calling K θ with
        | none =>
            refine (step_quiet hcalling fun pid _ hpc => ?_).1 ▸ hcalls
            have hchecks := (unchecked_of_reachable hK hs).2 pid
            simp [hpc, PipePc.checks] at hchecks
        | some call =>
            obtain ⟨t, stage, op⟩ := call
            rw [(step_calling hcalling).1]
            intro b hb
            rcases List.mem_append.mp hb with hb | hb
            · exact hcalls b hb
            · obtain rfl := List.mem_singleton.mp hb
              exact (hK _ _ _).trans (clear_of_reachable hK hs _)
  exact key.2

theorem mem_of_callsOf (ha : a ∈ s.callsOf t) : a ∈ s.calls ∧ a.tid = t := by
  simpa [State.callsOf] using ha

theorem Trace.ahead (hclear : ∀ a ∈ s.calls, a.after.flags = clear)
    (h : Trace K.nPipes (s.callsOf u) a)
    (hnext : k < a.next K.nPipes ∨ a.after.op = Operand.done) : Ahead s u k := by
  rcases hnext with hlt | hop
  · obtain ⟨b, hb, hstage, -⟩ := h.through
      (.inr fun b hb => (Result.clear_iff.mp (hclear b (mem_of_callsOf hb).1)).2.1) hlt
    exact ⟨b, hb, .inl hstage⟩
  · obtain ⟨l, hl⟩ := h.last
    exact ⟨a, by simp [hl], .inr hop⟩

theorem Call.Ready.next {q : Nat} (h : a.Ready q) (hwait : a.after.waitChild = false)
    (hlt : k < q) :
    k < a.next K.nPipes ∨ a.after.op = Operand.done := by
  obtain ⟨hretry, -, hstage⟩ := h
  by_cases hop : a.after.op = Operand.done
  · exact .inr hop
  · refine .inl ?_
    have := hstage hop hwait
    simp only [Call.next, hretry, hwait, Bool.false_eq_true, if_false, false_and]
    omega

theorem Pipe.Has.next {p : Pipe} {q : Nat} (h : p.Has K.nPipes q a) (hclear : a.after.flags = clear)
    (hlt : k < q) :
    k < a.next K.nPipes ∨ a.after.op = Operand.done := by
  obtain ⟨hretry, hwait, -⟩ := Result.clear_iff.mp hclear
  cases hpc : p.pc <;> simp only [Pipe.Has, hpc] at h
  case retry => exact (h.2 hretry).next hwait (Nat.lt_succ_of_lt hlt)
  case version | handle => exact .inl (h.2 ▸ hlt)
  case advance => exact h.next hwait (Nat.lt_succ_of_lt hlt)
  case pop | assign | markDone => exact h.1.next hwait hlt
  all_goals exact h.next hwait hlt

theorem Worker.Has.next {w : Worker} (h : w.Has K.nPipes wid a)
    (htask : w.pc ≠ .push ∧ w.pc ≠ .finished)
    (hlt : k < K.nPipes) : k < a.next K.nPipes ∨ a.after.op = Operand.done := by
  have hle : a.stage ≤ a.next K.nPipes := Call.le_next
  have hpos := h.stage
  have hcall := h.call
  cases hpc : w.pc <;> simp only [hpc] at hcall hpos htask
  case waitTid => exact .inl (by omega)
  case test =>
      by_cases hop : a.after.op = Operand.done
      · exact .inr hop
      · have := hcall.2 hop
        have := hpos (by simp)
        exact .inl (by omega)
  case version | waitStage | reload | handle =>
      have := hcall.2
      have := hpos (by simp)
      exact .inl (by omega)
  case retry =>
      have := hpos (by simp)
      exact .inl (by omega)
  case storeStage =>
      have := hpos (by simp)
      exact .inl (by omega)
  case finish => exact .inr hcall.2
  case push => exact absurd rfl htask.1
  case finished => exact absurd rfl htask.2

theorem ahead_of_pipe (hK : KeepsFlags K) (hs : Reachable (Step K) (initial K) s)
    (hpid : pid < K.nPipes)
    (hlt : u < (s.pipes pid).tid) (hissued : u ≤ s.nSubmitted) (hmod : u % bufferSize ≠ 0) :
    Ahead s u pid := by
  obtain ⟨φ, hinv⟩ := inv_of_reachable hs
  have h := history_of_reachable hs
  have hclear := calls_clear_of_reachable hK hs
  have hlast : ∀ {a}, Trace K.nPipes (s.callsOf u) a → a.after.flags = clear := by
    intro a htrace
    obtain ⟨l, hl⟩ := htrace.last
    exact hclear a (mem_of_callsOf (t := u) (by simp [hl])).1
  by_cases hexit : u < (s.pipes K.nPipes).tid
  · by_cases hidle : ∀ wid, (s.pool K).task wid ≠ some u
    · obtain ⟨a, htrace, hends, -⟩ := (h.updates u hmod).past ⟨hissued, hexit, hidle⟩
      exact .of_ends htrace hends
    · obtain ⟨wid, hwid⟩ := not_forall.mp hidle
      have htask := not_not.mp hwid
      obtain ⟨a, hleft, hhas⟩ := (h.updates u hmod).workers wid htask
      refine hleft.1.ahead hclear (hhas.next ?_ hpid)
      constructor <;> intro hpc <;> simp [Pool.task, State.pool, Worker.task, hpc] at htask
  · -- the first pipe that is not past it comes later
    have hsome : ∃ q, q ≤ K.nPipes ∧ (s.pipes q).tid ≤ u := ⟨K.nPipes, le_rfl, not_lt.mp hexit⟩
    obtain ⟨hq, hnext⟩ := Nat.find_spec hsome
    have hlater : pid < Nat.find hsome := by
      by_contra hle
      exact absurd ((hinv.order.tid_le (not_lt.mp hle) hpid.le).trans hnext) (not_le.mpr hlt)
    have hat : At s (Nat.find hsome) u := by
      refine ⟨hissued, hnext, ?_⟩
      cases hfind : Nat.find hsome with
      | zero => omega
      | succ q =>
          have hnot := Nat.find_min hsome (m := q) (by omega)
          by_contra hhanded
          exact hnot ⟨by omega, not_lt.mp hhanded⟩
    obtain ⟨a, hleft, hstands⟩ := (h.updates u hmod).pipes _ hq hat
    refine hleft.1.ahead hclear ?_
    unfold Stands at hstands
    split at hstands
    · exact hstands.next (hlast hleft.1) hlater
    · exact hstands.next (Result.clear_iff.mp (hlast hleft.1)).2.1 hlater

theorem uses_of_writes (h : s.writes θ = some t) : s.uses θ = some t := by
  cases θ with
  | client c => exact h
  | monitor => simp [State.writes] at h
  | destructor => simp [State.writes] at h
  | pipe pid =>
      rw [State.writes, Option.ite_none_right_eq_some] at h
      rw [State.uses, if_pos (PipePc.waited_of_writes h.1), h.2]
  | worker wid =>
      rw [State.writes, Option.ite_none_right_eq_some] at h
      have hbusy : (s.workers wid).pc.busy = true := by
        cases hpc : (s.workers wid).pc <;> simp_all [WorkerPc.writes, WorkerPc.busy]
      rw [State.uses, if_pos hbusy, h.2]

theorem workerStep_handle (h : ((workerStep K wid s).workers wid).pc = .handle) :
    ((s.workers wid).pc = .waitStage ∨ (s.workers wid).pc = .version) ∧
      ((workerStep K wid s).workers wid).tid = (s.workers wid).tid ∧
      ((workerStep K wid s).workers wid).stage = (s.workers wid).stage ∧
      (workerStep K wid s).ctxs = s.ctxs ∧ (workerStep K wid s).calls = s.calls := by
  have hexec : ∀ ctx : Context ρ, workerExec ctx ≠ .handle := by
    intro ctx
    unfold workerExec
    split <;> simp
  cases hpc : (s.workers wid).pc <;> simp only [workerStep, hpc] at h ⊢
  case version =>
      split at h
      · simp [State.loadCno, State.setCtx, hpc] at h
      · rename_i hcno
        rw [if_neg hcno]
        simp [State.setWorker]
  case waitStage =>
      split at h
      · rename_i hcno
        split at h
        · rename_i hstage
          rw [if_pos hcno, if_pos hstage]
          simp [State.setWorker]
        · simp [State.setWorker] at h
      · rename_i hcno
        rw [if_neg hcno]
        simp [State.setWorker]
  case waitTid =>
      split at h
      · simp [State.setWorker] at h
      · split at h
        · simp [hpc] at h
        · simp [State.setWorker] at h
  case test | retry =>
      simp only [State.setWorker, Function.update_self] at h
      split at h <;> first | exact absurd h (hexec _) | simp at h
  case push =>
      split at h
      · simp [hpc] at h
      · simp [hpc] at h
      · simp [State.setWorker] at h
  case finished => cases h
  all_goals simp [State.setWorker] at h

theorem workerStep_version (h : ((workerStep K wid s).workers wid).pc = .version)
    (hsubtree : (s.ctx (s.workers wid).tid).waitSubtree = false) :
    (s.workers wid).pc = .version := by
  cases hpc : (s.workers wid).pc <;> simp only [workerStep, hpc] at h ⊢
  case waitStage =>
      split at h
      · split at h <;> simp [State.setWorker] at h
      · simp [State.setWorker] at h
  case waitTid =>
      split at h
      · simp [State.setWorker] at h
      · split at h
        · simp [hpc] at h
        · simp [State.setWorker] at h
  case test | retry =>
      simp only [State.setWorker, Function.update_self, workerExec, hsubtree] at h
      split at h <;> simp at h
  case push =>
      split at h
      · simp [hpc] at h
      · simp [hpc] at h
      · simp [State.setWorker] at h
  case finished => cases h
  all_goals simp [State.setWorker] at h

/-- A worker that is about to call goes on below a node of an update that is ahead. -/
def Gated (K : Config ρ μ) (s : State ρ μ) : Prop :=
  ∀ wid < K.nWorkers, (s.workers wid).pc ≠ .version ∧ ((s.workers wid).pc = .handle →
    ∀ u, K.tidOf (s.ctx (s.workers wid).tid).tPast = u → u < 2 ^ 32 → u < (s.workers wid).tid →
      u % bufferSize ≠ 0 → Ahead s u (K.nPipes + (s.workers wid).stage - 1))

theorem step_workers_of_ne (hne : θ ≠ .worker wid) : (step K θ s).workers wid = s.workers wid := by
  cases θ with
  | client c => rw [step, clientStep_writes]
  | monitor => rw [step, monitorStep_writes]
  | pipe pid => rw [step, pipeStep_writes]
  | worker v => exact workerStep_workers_of_ne fun heq => hne (heq ▸ rfl)
  | destructor => rw [step, destructorStep_writes]

theorem gated_of_reachable (hK : KeepsFlags K) (hs : Reachable (Step K) (initial K) s) :
    Gated K s := by
  have key : Reachable (Step K) (initial K) s ∧ Gated K s := by
    refine hs.invariant (fun s => Reachable (Step K) (initial K) s ∧ Gated K s)
      ⟨Reachable.start, fun _ _ => ⟨by simp [initial], by simp [initial]⟩⟩ ?_
    rintro a s s' ⟨hs, hgated⟩ - ha
    refine ⟨hs.next a ha, ?_⟩
    cases ha with
    | update | destroy => exact hgated
    | thread _ θ hθ =>
        obtain ⟨φ, h⟩ := inv_of_reachable hs
        intro wid hwid
        by_cases hown : θ = .worker wid
        · subst hown
          refine ⟨fun hpc => (hgated wid hwid).1 (workerStep_version hpc ?_), fun hpc => ?_⟩
          · exact (Context.clear_iff.mp (clear_of_reachable hK hs _)).2.2.1
          · obtain ⟨hpc', htid, hstage, hctxs, hcalls⟩ := workerStep_handle hpc
            have hwait := hpc'.resolve_right (hgated wid hwid).1
            intro u hu hsmall hlt hmod
            simp only [step, State.ctx, htid, hstage, hctxs] at hu hlt ⊢
            have hends : EndsStage K s wid (s.workers wid).tid (s.workers wid).stage :=
              ⟨hwait, hpc, rfl,
                by simp [(Context.clear_iff.mp (clear_of_reachable hK hs _)).2.1, State.ctx]⟩
            have hahead : Ahead s u (K.nPipes + (s.workers wid).stage - 1) := by
              subst hu
              rcases hends.through hs hsmall hlt with hcommitted | hthrough
              · exact (finished_of_le hs (hcommitted.trans h.rootTid_window.1)).ahead hmod
              · exact hthrough.ahead hmod
            exact hahead.mono (l := []) (by simp [State.callsOf, hcalls])
        · have hworkers := step_workers_of_ne (K := K) (s := s) hown
          rw [hworkers]
          refine ⟨(hgated wid hwid).1, fun hpc u hu hsmall hlt hmod => ?_⟩
          have huses : s.uses (.worker wid) = some (s.workers wid).tid := by
            simp [State.uses, hpc, WorkerPc.busy]
          obtain ⟨hle, hlt'⟩ := h.uses_window (θ := .worker wid) hwid huses
          have hctx := h.step_ctx hθ hle hlt' fun hw =>
            h.uses_ne hθ (show (Thread.worker wid).Runs K from hwid) hown
              (uses_of_writes hw) huses rfl
          rw [hctx] at hu
          obtain ⟨l, hl⟩ := step_callsOf (K := K) (s := s) θ u
          exact ((hgated wid hwid).2 hpc u hu hsmall hlt hmod).mono hl
  exact key.2

structure Starts (s : State ρ μ) (θ : Thread) (t k op : Nat) : Prop where
  thread : θ = .pipe 0
  pc : (s.pipes 0).pc = .init
  tid : t = (s.pipes 0).tid
  stage : k = 0
  op : op = Operand.init
  none : s.callsOf t = []
  issued : t % bufferSize ≠ 0 ∧ t ≤ s.nSubmitted
  fresh : ∃ key val, s.passed t = some (key, val) ∧ Fresh t key val (s.ctx t)

structure Continues (K : Config ρ μ) (s : State ρ μ) (t k op : Nat) (l : List (Call ρ))
    (a : Call ρ) : Prop where
  calls : s.callsOf t = l ++ [a]
  leaves : a.Leaves (s.ctx t)
  stage : k = a.stage + 1
  op : op = a.after.op
  goesOn : a.after.op ≠ Operand.done
  issued : t % bufferSize ≠ 0 ∧ t ≤ s.nSubmitted
  gate : ∀ u, K.tidOf (s.ctx t).tPast = u → u < 2 ^ 32 → u < t → u % bufferSize ≠ 0 → Ahead s u k

theorem Call.Due.continues (hclear : a.after.flags = clear) (h : a.Due K.nPipes k) :
    k = a.stage + 1 ∧ a.after.op ≠ Operand.done := by
  obtain ⟨hretry, hwait, -⟩ := Result.clear_iff.mp hclear
  obtain ⟨hgoes, hnext⟩ := h
  refine ⟨?_, hgoes.resolve_left (by simp [hretry])⟩
  simpa [Call.next, hretry, hwait] using hnext.symm

/-- What a worker is about to call, or waits for, follows the last call of its update. -/
theorem worker_goes_on (hK : KeepsFlags K) (hs : Reachable (Step K) (initial K) s) (wid : Nat)
    (hpc : (s.workers wid).pc = .handle ∨ (s.workers wid).pc = .waitStage) :
    ∃ l a, s.callsOf (s.workers wid).tid = l ++ [a] ∧ a.Leaves (s.ctx (s.workers wid).tid) ∧
      K.nPipes + (s.workers wid).stage - 1 = a.stage + 1 ∧ a.after.op ≠ Operand.done ∧
        (s.workers wid).tid % bufferSize ≠ 0 ∧ (s.workers wid).tid ≤ s.nSubmitted := by
  obtain ⟨φ, hinv⟩ := inv_of_reachable hs
  have htask : (s.pool K).task wid = some (s.workers wid).tid := by
    rcases hpc with hpc | hpc <;> simp [Pool.task, State.pool, Worker.task, hpc]
  obtain ⟨hφ, hC, -, hlt⟩ := hinv.task_window htask
  have hcontent := hinv.content hC hlt.le
  rw [hφ] at hcontent
  obtain ⟨a, hleft, hhas⟩ := ((history_of_reachable hs).updates _ hcontent.2.1).workers wid htask
  have hdue : a.Due K.nPipes (K.nPipes + (s.workers wid).stage - 1) := by
    have hcall := hhas.call
    rcases hpc with hpc | hpc <;> simpa only [hpc] using hcall
  obtain ⟨l, hl⟩ := hleft.1.last
  have hclear :=
    calls_clear_of_reachable hK hs a (mem_of_callsOf (t := (s.workers wid).tid) (by simp [hl])).1
  obtain ⟨hstage, hgoes⟩ := hdue.continues hclear
  exact ⟨l, a, hl, hleft.2, hstage, hgoes, hcontent.2.1, (hinv.kept_task htask).issued⟩

theorem calling_cases (hK : KeepsFlags K) (hs : Reachable (Step K) (initial K) s) (hθ : θ.Runs K)
    {op : Nat}
    (h : s.calling K θ = some (t, k, op)) :
    Starts s θ t k op ∨ ∃ l a, Continues K s t k op l a := by
  obtain ⟨φ, hinv⟩ := inv_of_reachable hs
  have hhistory := history_of_reachable hs
  have hclear : ∀ {t a}, Trace K.nPipes (s.callsOf t) a → a.after.flags = clear := by
    intro t a htrace
    obtain ⟨l, hl⟩ := htrace.last
    exact calls_clear_of_reachable hK hs a (mem_of_callsOf (t := t) (by simp [hl])).1
  cases θ with
  | client c => simp [State.calling] at h
  | monitor => simp [State.calling] at h
  | destructor => simp [State.calling] at h
  | pipe pid =>
      have hkind : (s.pipes pid).pc.OfKind K.nPipes pid := hinv.order.kinds pid hθ
      have hknows := hinv.slots.pipes pid hθ
      cases hpc : (s.pipes pid).pc <;>
        simp only [State.calling, hpc, Option.some.injEq, Prod.mk.injEq, reduceCtorEq] at h <;>
        simp only [hpc, PipePc.OfKind, Pipe.Knows] at hkind hknows
      case init =>
          obtain ⟨rfl, rfl, rfl⟩ := h
          subst hkind
          have hwaited : (s.pipes 0).pc.waited = true := by rw [hpc]; rfl
          have hentered : (s.pipes 0).pc.entered = false := by rw [hpc]; rfl
          have hcontent := hinv.pipe_content (Nat.zero_le _) hwaited
          rw [hinv.phase_filled hwaited hentered hknows.2] at hcontent
          refine .inl ⟨rfl, hpc, rfl, rfl, rfl, ?_, hknows, hcontent.2 hknows.1⟩
          exact (hhistory.updates _ hknows.1).fresh (.inl (by simp [State.entry, hentered]))
      case handle =>
          obtain ⟨rfl, rfl, rfl⟩ := h
          have hwaited : (s.pipes pid).pc.waited = true := by rw [hpc]; rfl
          have hentered : (s.pipes pid).pc.entered = true := by rw [hpc]; rfl
          have hat :=
            hinv.at_pipe hθ hwaited
            ((eq_or_ne pid 0).elim (fun heq => .inr (heq ▸ hentered)) .inl) hknows.2
          obtain ⟨a, hleft, ha⟩ := (hhistory.updates _ hknows.1).pipes pid hθ hat
          rw [Stands, if_pos rfl, Pipe.Has, hpc] at ha
          obtain ⟨hstage, hop⟩ := ha.continues (hclear hleft.1)
          obtain ⟨l, hl⟩ := hleft.1.last
          refine .inr ⟨l, a, hl, hleft.2, hstage, hleft.2.fields.1, hop, hknows,
            fun u _ _ hlt hmod => ?_⟩
          exact ahead_of_pipe hK hs hkind hlt (hlt.le.trans hknows.2) hmod
  | worker wid =>
      cases hpc : (s.workers wid).pc <;>
        simp only [State.calling, hpc, Option.some.injEq, Prod.mk.injEq, reduceCtorEq] at h
      obtain ⟨rfl, rfl, rfl⟩ := h
      obtain ⟨l, a, hcalls, hleaves, hstage, hgoes, hissued⟩ := worker_goes_on hK hs wid (.inl hpc)
      exact .inr ⟨l, a, hcalls, hleaves, hstage, hleaves.fields.1, hgoes, hissued,
        (gated_of_reachable hK hs wid hθ).2 hpc⟩

theorem Ahead.last (hclear : ∀ a ∈ s.calls, a.after.flags = clear) (h : Ahead s u k)
    (htrace : Trace K.nPipes (s.callsOf u) a) : k ≤ a.stage ∨ a.after.op = Operand.done := by
  obtain ⟨b, hb, hstage⟩ := h
  have hmem : ∀ c ∈ s.callsOf u, c.after.retry = false := fun c hc =>
    (Result.clear_iff.mp (hclear c (mem_of_callsOf hc).1)).1
  generalize s.callsOf u = l at *
  have hle : b = a ∨ b.stage ≤ a.stage ∧ b.GoesOn := by
    clear hstage hclear
    induction htrace with
    | first a => exact .inl (List.mem_singleton.mp hb)
    | next l a c hl hfollows ih =>
        rcases List.mem_append.mp hb with hb | hb
        · have hnext : a.stage ≤ c.stage := hfollows.stage ▸ Call.le_next
          rcases ih hb fun d hd => hmem d (List.mem_append_left _ hd) with rfl | ⟨hle, hgoes⟩
          · exact .inr ⟨hnext, hfollows.goesOn⟩
          · exact .inr ⟨hle.trans hnext, hgoes⟩
        · exact .inl (List.mem_singleton.mp hb)
  rcases hle with rfl | ⟨hle, hgoes⟩
  · exact hstage.imp_left fun heq => heq.ge
  · rcases hstage with heq | hop
    · exact .inl (heq ▸ hle)
    · exact absurd hop (hgoes.resolve_left (by simp [hmem b hb]))

theorem entered_of_calls (hs : Reachable (Step K) (initial K) s) (hcalls : s.callsOf u = l ++ [a]) :
    u % bufferSize ≠ 0 ∧ u < s.entry ∧ u ≤ s.nSubmitted := by
  have hhistory := history_of_reachable hs
  have hmod : u % bufferSize ≠ 0 := fun hmod => by simp [hhistory.bubbles u hmod] at hcalls
  have hfresh := (hhistory.updates u hmod).fresh
  refine ⟨hmod, ?_⟩
  by_contra hnot
  have hnone := hfresh (by omega)
  simp [hnone] at hcalls

theorem slot_ne_of_calling (hs : Reachable (Step K) (initial K) s) (hθ : θ.Runs K) {stage op : Nat}
    (h : s.calling K θ = some (t, stage, op)) (hcalls : s.callsOf u = l ++ [a])
    (hop : a.after.op ≠ Operand.done)
    (hne : u ≠ t) : u % bufferSize ≠ t % bufferSize := by
  obtain ⟨φ, hinv⟩ := inv_of_reachable hs
  obtain ⟨hmod, hentered, hissued⟩ := entered_of_calls hs hcalls
  obtain ⟨hle, hlt⟩ := hinv.uses_window hθ (uses_of_writes (writes_of_calling h))
  have hC : s.nCommitted ≤ u := by
    by_contra hlt'
    have hfinished := finished_of_le hs ((not_le.mp hlt').le.trans hinv.rootTid_window.1)
    obtain ⟨b, htrace, hends⟩ := hfinished.update hmod
    obtain ⟨l', hl'⟩ := htrace.last
    obtain ⟨-, hb⟩ := List.append_inj' (hcalls.symm.trans hl') rfl
    exact hop (List.singleton_inj.mp hb ▸ hends.2)
  exact ring_ne hC (hinv.entered_lt hentered hissued) hle hlt hne

end Gates

end Contrees.Conctrl.Concow
