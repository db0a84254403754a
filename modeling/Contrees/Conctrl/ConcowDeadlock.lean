import Contrees.Conctrl.ConcowProgress

namespace Contrees.Conctrl.Concow

open Library.Runs Library.TaskLedger

/-- While not all tids are committed, some thread does not spin: left alone, it
makes a handler call or writes a word that another one reads. -/
theorem no_deadlock {ρ μ : Type} (K : Config ρ μ) (hK : Always K (Sound K)) (s : State ρ μ)
    (hs : Reachable (Step K) (initial K) s) (hissued : s.nSubmitted < 2 ^ 32)
    (hpending : s.nCommitted < s.nSubmitted) : ∃ θ : Thread, θ.Runs K ∧ ¬ Spins K θ s :=
  Pending.not_all_spin hK ⟨hs, hissued, hpending⟩

theorem spins_of_closed {ρ μ : Type} {K : Config ρ μ} {θ : Thread} (P : State ρ μ → Prop)
    {s : State ρ μ}
    (hs : P s) (hstep : ∀ t, P t → P (step K θ t) ∧ (step K θ t).shared = t.shared) :
    Spins K θ s := by
  intro n
  have key : P ((step K θ)^[n] s) ∧ ((step K θ)^[n] s).shared = s.shared := by
    induction n with
    | zero => exact ⟨hs, rfl⟩
    | succ n ih =>
        rw [Function.iterate_succ_apply']
        obtain ⟨hP, hsame⟩ := hstep _ ih.1
        exact ⟨hP, hsame.trans ih.2⟩
  exact key.2

theorem spins_of_fixed {ρ μ : Type} {K : Config ρ μ} {θ : Thread} {s : State ρ μ}
    (hs : step K θ s = s) : Spins K θ s := by
  intro n
  rw [Function.iterate_fixed hs]

section Samples

def sampleConfig (handlers : Nat → Context Unit → Unit → Result Unit × Unit) :
    Config Unit Unit where
  handlers := handlers
  checkpointHandler := fun ctx mem => (ctx.root, mem)
  creator := fun _ => 0
  nPipes := 1
  nWorkers := 1
  tInit := ()
  mem := ()
  nPipes_pos := le_rfl
  nWorkers_pos := le_rfl

def scheduled (K : Config Unit Unit) (client monitor entry : Nat) : State Unit Unit :=
  (step K (.pipe 0))^[entry] ((step K .monitor)^[monitor]
    ((step K (.client 0))^[client] ((initial K).setClient 0 (.fetch 1 2))))

theorem reachableWhen_iterate {ρ μ : Type} {K : Config ρ μ} {allowed : Label → State ρ μ → Prop}
    {s t : State ρ μ} (hs : ReachableWhen (Step K) allowed s t) (θ : Thread) (hθ : θ.Runs K)
    (hallowed : ∀ n, allowed (.thread θ) ((step K θ)^[n] t)) (n : Nat) :
    ReachableWhen (Step K) allowed s ((step K θ)^[n] t) := by
  induction n with
  | zero => exact hs
  | succ n ih =>
      rw [Function.iterate_succ_apply']
      exact ih.next (.thread θ) (hallowed n) (.thread _ θ hθ)

theorem reachable_iterate {ρ μ : Type} {K : Config ρ μ} {s t : State ρ μ}
    (hs : Reachable (Step K) s t)
    (θ : Thread) (hθ : θ.Runs K) (n : Nat) : Reachable (Step K) s ((step K θ)^[n] t) :=
  reachableWhen_iterate hs θ hθ (fun _ => trivial) n

def takeTurns {ρ μ : Type} (K : Config ρ μ) (turns : List (Thread × Nat)) (s : State ρ μ) :
    State ρ μ :=
  turns.foldl (fun s turn => (step K turn.1)^[turn.2] s) s

theorem reachable_takeTurns {ρ μ : Type} {K : Config ρ μ} {s t : State ρ μ}
    (hs : Reachable (Step K) s t) {turns : List (Thread × Nat)} (hturns : ∀ x ∈ turns, x.1.Runs K) :
    Reachable (Step K) s (takeTurns K turns t) := by
  induction turns generalizing t with
  | nil => exact hs
  | cons turn turns ih =>
      have hnext := reachable_iterate hs turn.1 (hturns turn List.mem_cons_self) turn.2
      exact ih hnext fun x hx => hturns x (List.mem_cons_of_mem turn hx)

def submit {ρ μ : Type} (K : Config ρ μ) (c key val : Nat) (s : State ρ μ) : State ρ μ :=
  (step K (.client c))^[8] (s.setClient c (.fetch key val))

theorem submit_reachable {ρ μ : Type} {K : Config ρ μ} {s t : State ρ μ}
    (hs : Reachable (Step K) s t) {c : Nat}
    (hc : t.clients c = .idle) (hd : t.destructor = .idle) (key val : Nat) :
    Reachable (Step K) s (submit K c key val t) :=
  reachable_iterate (hs.next (.update c key val) (.update _ c key val hc hd)) (.client c) trivial 8

variable {K : Config Unit Unit}

theorem scheduled_reachable (client monitor entry : Nat) :
    Reachable (Step K) (initial K) (scheduled K client monitor entry) := by
  have hupdate : Reachable (Step K) (initial K) ((initial K).setClient 0 (.fetch 1 2)) :=
    Reachable.start.next (.update 0 1 2) (.update _ 0 1 2 rfl rfl)
  have hclient := reachable_iterate hupdate (.client 0) trivial client
  have hmonitor := reachable_iterate hclient .monitor trivial monitor
  exact reachable_iterate hmonitor (.pipe 0) (Nat.zero_le _) entry

theorem Order.tid_pos {s : State Unit Unit} (h : Order K.nPipes s.counters) {pid : Nat}
    (hpid : pid ≤ K.nPipes) : 0 < (s.pipes pid).tid := (h.pipes pid hpid).tid_pos

def endsAtOnce (_ : Nat) (ctx : Context Unit) (mem : Unit) : Result Unit × Unit :=
  (⟨Operand.done, false, false, false, false, ctx.root, ctx.tCur, ctx.tPast⟩, mem)

theorem sampleConfig_sound {handlers : Nat → Context Unit → Unit → Result Unit × Unit}
    (hretry : ∀ op ctx mem, (handlers op ctx mem).1.retry = false) {s t : State Unit Unit}
    {φ : Nat → Phase Nat Nat} {a : Label} (h : Inv (sampleConfig handlers) s φ)
    (ha : Step (sampleConfig handlers) a s t) : Sound (sampleConfig handlers) a s := by
  have hnode : ∀ node, (sampleConfig handlers).tidOf node = 0 := by
    rintro (_ | node) <;> rfl
  have hserves : ∀ op ctx mem, (handlers op ctx mem).1.Retries := fun op ctx mem h => by
    rw [hretry] at h
    cases h
  cases ha with
  | update | destroy => exact ⟨trivial, trivial⟩
  | thread _ θ hθ =>
      cases θ with
      | client c => exact ⟨trivial, trivial⟩
      | monitor => exact ⟨trivial, trivial⟩
      | destructor => exact ⟨trivial, trivial⟩
      | pipe pid =>
          have hpos := h.order.tid_pos hθ
          constructor
          · simp only [LeavesEarlier, Result.Earlier, hnode]
            split <;> first | exact hpos | exact ⟨hpos, Nat.zero_le _⟩ | trivial
          · simp only [ServesRetries]
            split <;> first | exact hserves _ _ _ | trivial
      | worker wid =>
          refine ⟨fun hpc => ?_, trivial⟩
          have htask : (s.pool (sampleConfig handlers)).task wid = some (s.workers wid).tid := by
            simp [Pool.task, State.pool, Worker.task, hpc]
          rw [Result.Earlier, hnode]
          exact (Nat.zero_le _).trans_lt (h.task_window htask).2.1

theorem sampleConfig_always {handlers : Nat → Context Unit → Unit → Result Unit × Unit}
    (hretry : ∀ op ctx mem, (handlers op ctx mem).1.retry = false) :
    Always (sampleConfig handlers) (Sound (sampleConfig handlers)) := by
  intro a s t hs ha
  obtain ⟨φ, h⟩ := inv_of_reachable hs
  exact sampleConfig_sound hretry h ha

theorem endsAtOnce_always : Always (sampleConfig endsAtOnce) (Sound (sampleConfig endsAtOnce)) :=
  sampleConfig_always fun _ _ _ => rfl

def endsAtSecond (op : Nat) (ctx : Context Unit) (mem : Unit) : Result Unit × Unit :=
  (⟨if op = Operand.init then 0x1 else Operand.done, false, false, false, false, ctx.root, ctx.tCur,
    ctx.tPast⟩, mem)

def twoUpdates (turns : List (Thread × Nat)) : State Unit Unit :=
  let K := sampleConfig endsAtSecond
  takeTurns K turns (submit K 1 1 2 (submit K 0 1 2 (initial K)))

theorem twoUpdates_reachable {turns : List (Thread × Nat)}
    (hturns : ∀ x ∈ turns, x.1.Runs (sampleConfig endsAtSecond)) :
    Reachable (Step (sampleConfig endsAtSecond)) (initial (sampleConfig endsAtSecond))
    (twoUpdates turns) := by
  have hfirst : Reachable (Step (sampleConfig endsAtSecond)) (initial (sampleConfig endsAtSecond))
      (submit (sampleConfig endsAtSecond) 0 1 2 (initial (sampleConfig endsAtSecond))) :=
    submit_reachable Reachable.start rfl rfl 1 2
  exact reachable_takeTurns (submit_reachable hfirst rfl rfl 1 2) hturns

/-- The worker is about to make the second call for tid 1, and tid 2 waits for a worker. -/
def crossing : State Unit Unit :=
  twoUpdates [(.monitor, 8), (.pipe 0, 16), (.pipe 1, 15), (.worker 0, 3)]

theorem crossing_reachable :
    Reachable (Step (sampleConfig endsAtSecond)) (initial (sampleConfig endsAtSecond)) crossing :=
  twoUpdates_reachable (by simp [Thread.Runs, sampleConfig])

theorem no_deadlock_sample : (crossing.workers 0).pc = .handle ∧ (crossing.pipes 1).pc = .pop ∧
    ∃ θ : Thread, θ.Runs (sampleConfig endsAtSecond) ∧ ¬ Spins (sampleConfig endsAtSecond) θ crossing := by
  refine ⟨by decide +kernel, by decide +kernel, ?_⟩
  exact no_deadlock (sampleConfig endsAtSecond) (sampleConfig_always
    fun _ _ _ => rfl) crossing crossing_reachable
    (by decide +kernel) (by decide +kernel)

/-- Handlers that ask for a second call and for the workers at once, and end an
update with the second call. -/
def retriesWithChild (op : Nat) (ctx : Context Unit) (mem : Unit) : Result Unit × Unit :=
  if op = Operand.init then (⟨0x1, true, true, false, false, ctx.root, ctx.tCur, ctx.tPast⟩, mem)
  else (⟨Operand.done, false, false, false, false, ctx.root, ctx.tCur, ctx.tPast⟩, mem)

/-- A client has submitted an update, which the entry pipe has to call again. -/
def stuck : State Unit Unit := scheduled (sampleConfig retriesWithChild) 8 6 7

theorem stuck_clients (c : Nat) : stuck.clients c = .idle := by
  cases c with
  | zero => rfl
  | succ c => rfl

def Monitor.Rounds (m : Monitor) : Prop :=
  m.stop = false ∧ m.nInited = 1 ∧ m.nCommitted = 0 ∧
    match m.pc with
    | .test | .loadStop | .loadSubmitted => True
    | .scanInited | .advance => m.nSubmitted = 1 ∧ m.next = 1
    | .scanDone | .publishRoot => m.next = 0
    | _ => False

theorem stuck_monitor : Spins (sampleConfig retriesWithChild) .monitor stuck := by
  apply spins_of_closed fun s =>
    s.stop = false ∧ s.nSubmitted = 1 ∧ s.stages 1 = 0 ∧ s.monitor.Rounds
  · exact ⟨rfl, rfl, rfl, rfl, rfl, rfl, rfl⟩
  · rintro s ⟨hstop, hsubmitted, hstage, hm⟩
    obtain ⟨h1, h2, h3, h4⟩ := hm
    cases hpc : s.monitor.pc <;> simp only [hpc] at h4
    all_goals
      simp [step, monitorStep, hpc, h1, h2, h3, h4, hstop, hsubmitted, hstage, State.setMonitor,
        State.shared,
        Monitor.Rounds, bufferSize]

def Pipe.Waits (p : Pipe) : Prop :=
  p.final = false ∧ p.epoch = 0 ∧ p.tid = 1 ∧ p.cache = 0 ∧
    match p.pc with
    | .testStop => True
    | .loop | .wait => p.last = batchSize
    | _ => False

theorem stuck_exit : Spins (sampleConfig retriesWithChild) (.pipe 1) stuck := by
  apply spins_of_closed fun s => s.stop = false ∧ s.paces 1 = 0 ∧ (s.pipes 1).Waits
  · exact ⟨rfl, rfl, rfl, rfl, rfl, rfl, trivial⟩
  · rintro s ⟨hstop, hpace, hp⟩
    obtain ⟨h1, h2, h3, h4, h5⟩ := hp
    cases hpc : (s.pipes 1).pc <;> simp only [hpc] at h5
    all_goals
      simp [step, pipeStep, hpc, h1, h2, h3, h4, h5, hstop, hpace, State.setPipe, State.shared,
        Pipe.Waits,
        batchSize, bufferSize]

theorem stuck_entry : Spins (sampleConfig retriesWithChild) (.pipe 0) stuck := by
  apply spins_of_fixed
  have hpc : stuck.pipes 0 = ⟨.retry, 0, 1, 4096, 1, 0, false⟩ := rfl
  have hretry : (stuck.ctx 1).retry = true ∧ (stuck.ctx 1).waitChild = true := ⟨rfl, rfl⟩
  simp only [step, pipeStep, hpc, hretry.1, hretry.2, iterExec, if_true, State.setPipe]
  rw [← hpc, Function.update_eq_self]

theorem stuck_spins (θ : Thread) (hθ : θ.Runs (sampleConfig retriesWithChild)) :
    Spins (sampleConfig retriesWithChild) θ stuck := by
  cases θ with
  | client c =>
      apply spins_of_fixed
      simp [step, clientStep, stuck_clients]
  | monitor => exact stuck_monitor
  | destructor => exact spins_of_fixed rfl
  | pipe pid =>
      have hle : pid ≤ 1 := hθ
      rcases Nat.le_one_iff_eq_zero_or_eq_one.mp hle with rfl | rfl
      · exact stuck_entry
      · exact stuck_exit
  | worker wid =>
      have hlt : wid < 1 := hθ
      obtain rfl := Nat.lt_one_iff.mp hlt
      exact spins_of_fixed rfl

/-- Without the condition on retries there are deadlocks. -/
theorem retriesWithChild_deadlock :
    (∀ op ctx mem tid, 0 < tid → (retriesWithChild op ctx mem).1.Earlier (sampleConfig retriesWithChild) tid) ∧
      (∀ op ctx mem, op ≠ Operand.init → (retriesWithChild op ctx mem).1.op = Operand.done) ∧
      Reachable (Step (sampleConfig retriesWithChild)) (initial (sampleConfig retriesWithChild)) stuck ∧
      stuck.stop = false ∧ stuck.nSubmitted < 2 ^ 32 ∧ stuck.nCommitted < stuck.nSubmitted ∧
      ∀ θ : Thread, θ.Runs (sampleConfig retriesWithChild) → Spins (sampleConfig retriesWithChild) θ stuck := by
  refine ⟨?_, ?_, scheduled_reachable 8 6 7, rfl, by decide, by decide, stuck_spins⟩
  · intro op ctx mem tid htid
    have hnode : ∀ node, (sampleConfig retriesWithChild).tidOf node = 0 := by
      rintro (_ | node) <;> rfl
    rwa [Result.Earlier, hnode]
  · intro op ctx mem hop
    simp [retriesWithChild, hop]

end Samples

end Contrees.Conctrl.Concow
