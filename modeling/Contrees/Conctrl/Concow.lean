import Contrees.Library.Runs
import Contrees.Conctrl.Common
import Contrees.Conctrl.MpscList
import Mathlib.Algebra.Order.Monoid.WithTop
import Mathlib.Logic.Function.Iterate

namespace Contrees.Conctrl.Concow

open Library.Runs

/-- `LIBCONCTRL_BUFFER_SIZE/16`. -/
def batchSize : Nat := bufferSize / 16

abbrev Word := WithTop Nat

/-- `conctrl::context` with its flags; `none` is `nullptr`. -/
structure Context (ρ : Type) where
  op : Nat
  retry : Bool
  waitChild : Bool
  waitSubtree : Bool
  newCheckpoint : Bool
  sno : Nat
  cno : Nat
  root : Option ρ
  tCur : Option ρ
  tPast : Option ρ
  key : Nat
  val : Nat

/-- What a handler writes into its context; the operand is what it returns. -/
structure Result (ρ : Type) where
  op : Nat
  retry : Bool
  waitChild : Bool
  waitSubtree : Bool
  newCheckpoint : Bool
  root : Option ρ
  tCur : Option ρ
  tPast : Option ρ

def Context.after {ρ : Type} (ctx : Context ρ) (r : Result ρ) : Context ρ :=
  { ctx with
    op := r.op
    retry := r.retry
    waitChild := r.waitChild
    waitSubtree := r.waitSubtree
    newCheckpoint := r.newCheckpoint
    root := r.root
    tCur := r.tCur
    tPast := r.tPast }

/-- A structure plugged into the scheduler: its handlers run on nodes in the
memory `μ`, and `creator` is the tid that made a node. -/
structure Interface (ρ μ : Type) where
  handlers : Nat → Context ρ → μ → Result ρ × μ
  checkpointHandler : Context ρ → μ → Option ρ × μ
  creator : ρ → Nat

def Interface.tidOf {ρ μ : Type} (T : Interface ρ μ) : Option ρ → Nat
  | none => 0
  | some node => T.creator node

def Interface.ver {ρ μ : Type} (T : Interface ρ μ) (node : Option ρ) : Nat := T.tidOf node % 2 ^ 32

structure Config (ρ μ : Type) extends Interface ρ μ where
  nPipes : Nat
  nWorkers : Nat
  tInit : ρ
  mem : μ
  nPipes_pos : 1 ≤ nPipes
  nWorkers_pos : 1 ≤ nWorkers

inductive Field
  | op | flags | sno | key | val | stage
deriving DecidableEq

inductive Client
  | idle
  | fetch (key val : Nat)
  | waiting (tid key val : Nat)
  | bubbleSno (tid key val : Nat)
  | bubbleStage (tid key val : Nat)
  | writing (tid key val : Nat) (field : Field)

inductive MonitorPc
  | test | loadStop | loadSubmitted | scanInited | advance | scanDone | checkpoint
  | publishRoot | publishCommitted | bubbles | finished
deriving DecidableEq

structure Monitor where
  pc : MonitorPc
  stop : Bool
  nSubmitted : Nat
  nInited : Nat
  nCommitted : Nat
  next : Nat

/-- `version` is the wait in `iter_exec`, `cpVersion` the one for a checkpoint. -/
inductive PipePc
  | testStop | loadTasks | loop | wait | start
  | copyRoot | cpPast | cpVersion | cpHandle
  | readPast | init | retry | version | handle | advance
  | pop | assign (wid : Nat) | markDone | finished
deriving DecidableEq

/-- The locals of a pipe thread; `cache` is `n_tasks` or `pred_pace`, and
`final` says that it is in its last call of the `iter_` function. -/
structure Pipe where
  pc : PipePc
  epoch : Nat
  tid : Nat
  last : Nat
  cache : Nat
  lastCheckpoint : Nat
  final : Bool

inductive WorkerPc
  | waitTid | test | version | waitStage | reload | handle | retry | storeStage | finish
  | push | finished
deriving DecidableEq

structure Worker where
  pc : WorkerPc
  lastTid : Nat
  tid : Nat
  stage : Nat

inductive Destructor
  | idle
  | joinMonitor
  | joinPipes (pid : Nat)
  | storeTids (wid : Nat)
  | joinWorkers (wid : Nat)
  | finished
deriving DecidableEq

inductive Thread
  | client (c : Nat)
  | monitor
  | pipe (pid : Nat)
  | worker (wid : Nat)
  | destructor
deriving DecidableEq

/-- A call of a handler for a tid: the pipes are its first stages, then the
stages of a worker follow. -/
structure Call (ρ : Type) where
  thread : Thread
  tid : Nat
  stage : Nat
  before : Context ρ
  after : Result ρ

/-- `calls` and `passed` are history: the handler calls of updates, and the
arguments with which a client obtained a tid. -/
structure State (ρ μ : Type) where
  stop : Bool
  root : Option ρ
  nSubmitted : Nat
  nCommitted : Nat
  checkpoint : Nat
  paces : Nat → Nat
  stages : Nat → Word
  ctxs : Nat → Context ρ
  tids : Nat → Word
  available : MpscList.State Nat Nat
  mem : μ
  clients : Nat → Client
  monitor : Monitor
  pipes : Nat → Pipe
  workers : Nat → Worker
  destructor : Destructor
  calls : List (Call ρ)
  passed : Nat → Option (Nat × Nat)

section Initial

variable {ρ μ : Type}

/-- A slot after the constructor: zeroed, `DONE`, and the initial tree in slot 0. -/
def initialContext (K : Config ρ μ) (slot : Nat) : Context ρ where
  op := Operand.done
  retry := false
  waitChild := false
  waitSubtree := false
  newCheckpoint := false
  sno := 0
  cno := 0
  root := if slot = 0 then some K.tInit else none
  tCur := none
  tPast := none
  key := 0
  val := 0

def initialList : Nat → MpscList.State Nat Nat
  | 0 => MpscList.initial
  | n + 1 => MpscList.push (initialList n) n n

def initial (K : Config ρ μ) : State ρ μ where
  stop := false
  root := some K.tInit
  nSubmitted := 0
  nCommitted := 0
  checkpoint := 0
  paces := fun _ => 0
  stages := fun _ => ⊤
  ctxs := initialContext K
  tids := fun _ => 0
  available := initialList K.nWorkers
  mem := K.mem
  clients := fun _ => .idle
  monitor := ⟨.test, false, 0, 0, 0, 0⟩
  pipes := fun _ => ⟨.testStop, 0, 1, 0, 0, 0, false⟩
  workers := fun _ => ⟨.waitTid, 0, 0, 0⟩
  destructor := .idle
  calls := []
  passed := fun _ => none

end Initial

section Updates

variable {ρ μ : Type}

def State.setClient (s : State ρ μ) (c : Nat) (client : Client) : State ρ μ :=
  { s with clients := Function.update s.clients c client }

def State.setPipe (s : State ρ μ) (pid : Nat) (p : Pipe) : State ρ μ :=
  { s with pipes := Function.update s.pipes pid p }

def State.setWorker (s : State ρ μ) (wid : Nat) (w : Worker) : State ρ μ :=
  { s with workers := Function.update s.workers wid w }

def State.setMonitor (s : State ρ μ) (m : Monitor) : State ρ μ := { s with monitor := m }

def State.setCtx (s : State ρ μ) (slot : Nat) (ctx : Context ρ) : State ρ μ :=
  { s with ctxs := Function.update s.ctxs slot ctx }

def State.setStage (s : State ρ μ) (slot : Nat) (stage : Word) : State ρ μ :=
  { s with stages := Function.update s.stages slot stage }

def State.setPace (s : State ρ μ) (pid pace : Nat) : State ρ μ :=
  { s with paces := Function.update s.paces pid pace }

def State.ctx (s : State ρ μ) (tid : Nat) : Context ρ := s.ctxs (tid % bufferSize)

/-- `ctx->cno = (uint32_t)n_committed_.load()`. -/
def State.loadCno (s : State ρ μ) (tid : Nat) : State ρ μ :=
  s.setCtx (tid % bufferSize) { s.ctx tid with cno := s.nCommitted % 2 ^ 32 }

def handled (K : Config ρ μ) (s : State ρ μ) (tid op : Nat) : Result ρ × μ :=
  K.handlers op (s.ctx tid) s.mem

/-- `ctx->op = T::handlers[op](ctx)`. -/
def State.call (K : Config ρ μ) (s : State ρ μ) (thread : Thread) (tid stage op : Nat) : State ρ μ :=
  { s with
    ctxs := Function.update s.ctxs (tid % bufferSize) ((s.ctx tid).after (handled K s tid op).1)
    mem := (handled K s tid op).2
    calls := s.calls ++ [⟨thread, tid, stage, s.ctx tid, (handled K s tid op).1⟩] }

end Updates

section Steps

variable {ρ μ : Type}

def fetchTid (s : State ρ μ) (c key val : Nat) : State ρ μ :=
  let tid := 1 + s.nSubmitted
  { s.setClient c (.waiting tid key val) with
    nSubmitted := tid
    passed := Function.update s.passed tid (some (key, val)) }

def writeField (s : State ρ μ) (c tid key val : Nat) (field : Field) : State ρ μ :=
  let pos := tid % bufferSize
  let ctx := s.ctx tid
  match field with
  | .op => (s.setCtx pos { ctx with op := Operand.init }).setClient c (.writing tid key val .flags)
  | .flags =>
      (s.setCtx pos { ctx with
        retry := false, waitChild := false, waitSubtree := false, newCheckpoint := false }).setClient
          c (.writing tid key val .sno)
  | .sno =>
      (s.setCtx pos { ctx with sno := tid % 2 ^ 32 }).setClient c (.writing tid key val .key)
  | .key => (s.setCtx pos { ctx with key := key }).setClient c (.writing tid key val .val)
  | .val => (s.setCtx pos { ctx with val := val }).setClient c (.writing tid key val .stage)
  | .stage => (s.setStage pos 0).setClient c .idle

def clientStep (c : Nat) (s : State ρ μ) : State ρ μ :=
  match s.clients c with
  | .idle => s
  | .fetch key val => fetchTid s c key val
  | .waiting tid key val =>
      if s.nCommitted + bufferSize ≤ tid then s
      else if tid % bufferSize ≠ 0 then s.setClient c (.writing tid key val .op)
      else s.setClient c (.bubbleSno tid key val)
  | .bubbleSno tid key val =>
      (s.setCtx 0 { s.ctxs 0 with sno := tid % 2 ^ 32 }).setClient c (.bubbleStage tid key val)
  | .bubbleStage _ key val => (s.setStage 0 0).setClient c (.fetch key val)
  | .writing tid key val field => writeField s c tid key val field

def monitorStep (s : State ρ μ) : State ρ μ :=
  let m := s.monitor
  match m.pc with
  | .test =>
      if !m.stop || m.nCommitted < m.nSubmitted then s.setMonitor { m with pc := .loadStop }
      else s.setMonitor { m with pc := .bubbles }
  | .loadStop => s.setMonitor { m with pc := .loadSubmitted, stop := s.stop }
  | .loadSubmitted =>
      s.setMonitor { m with pc := .scanInited, nSubmitted := s.nSubmitted, next := m.nInited }
  | .scanInited =>
      if m.next < m.nSubmitted ∧ s.stages ((m.next + 1) % bufferSize) = 0 then
        s.setMonitor { m with next := m.next + 1 }
      else s.setMonitor { m with pc := .advance }
  | .advance =>
      if m.nInited < m.next then
        (s.setPace 0 m.next).setMonitor
          { m with pc := .scanDone, nInited := m.next, next := m.nCommitted }
      else s.setMonitor { m with pc := .scanDone, next := m.nCommitted }
  | .scanDone =>
      if m.next < m.nInited ∧ s.stages ((m.next + 1) % bufferSize) = ⊤ then
        s.setMonitor { m with pc := .checkpoint, next := m.next + 1 }
      else s.setMonitor { m with pc := .publishRoot }
  | .checkpoint =>
      { s.setMonitor { m with pc := .scanDone } with
        checkpoint := if (s.ctx m.next).newCheckpoint then m.next else s.checkpoint }
  | .publishRoot =>
      if m.nCommitted < m.next then
        { s.setMonitor { m with pc := .publishCommitted, nCommitted := m.next } with
          root := (s.ctx m.next).root }
      else s.setMonitor { m with pc := .test }
  | .publishCommitted =>
      { s.setMonitor { m with pc := .test } with nCommitted := m.nCommitted }
  | .bubbles =>
      let margin := batchSize + (batchSize - m.nInited % batchSize) % batchSize
      (s.setPace 0 (m.nInited + margin)).setMonitor { m with pc := .finished }
  | .finished => s

/-- `iter_exec` up to its wait or its handler call; it leaves an update that
waits for a child to the workers. -/
def iterExec (ctx : Context ρ) : PipePc :=
  if ctx.waitChild then .retry else if ctx.waitSubtree then .version else .handle

/-- The body of the `iter_` loops, once the wait is over. -/
def pipeStart (K : Config ρ μ) (s : State ρ μ) (pid : Nat) (p : Pipe) : Pipe :=
  let ctx := s.ctx p.tid
  if pid = 0 then
    if p.tid % bufferSize = 0 then
      if p.lastCheckpoint < s.checkpoint then { p with pc := .cpPast, lastCheckpoint := p.tid }
      else { p with pc := .copyRoot }
    else { p with pc := if ctx.op = Operand.init then .readPast else .advance }
  else if pid = K.nPipes then { p with pc := if ctx.op ≠ Operand.done then .pop else .markDone }
  else { p with pc := if ctx.op ≠ Operand.done then iterExec ctx else .advance }

def afterPop (s : State ρ μ) : PipePc :=
  match MpscList.popped s.available with
  | some (.item wid) => .assign wid
  | _ => .pop

/-- One atomic step of `pipe_main_`: the entry is pipe 0, the exit `n_pipes`. -/
def pipeStep (K : Config ρ μ) (pid : Nat) (s : State ρ μ) : State ρ μ :=
  let p := s.pipes pid
  let pos := p.tid % bufferSize
  let ctx := s.ctx p.tid
  match p.pc with
  | .testStop =>
      if s.stop then s.setPipe pid { p with pc := .loadTasks }
      else s.setPipe pid { p with
        pc := .loop, tid := p.epoch * batchSize + 1, last := (p.epoch + 1) * batchSize }
  | .loadTasks =>
      s.setPipe pid { p with
        pc := .loop, tid := p.epoch * batchSize + 1, last := s.nSubmitted, final := true }
  | .loop =>
      if p.tid ≤ p.last then s.setPipe pid { p with pc := .wait }
      else if p.final then s.setPipe pid { p with pc := .finished }
      else s.setPipe pid { p with pc := .testStop, epoch := p.epoch + 1 }
  | .wait =>
      if p.cache < p.tid then s.setPipe pid { p with cache := s.paces pid }
      else s.setPipe pid { p with pc := .start }
  | .start => s.setPipe pid (pipeStart K s pid p)
  | .copyRoot =>
      (s.setCtx pos { ctx with root := (s.ctx (p.tid - 1)).root }).setPipe
        pid { p with pc := .advance }
  | .cpPast =>
      (s.setCtx pos { ctx with tPast := (s.ctx (p.tid - 1)).root }).setPipe
        pid { p with pc := .cpVersion }
  | .cpVersion =>
      if ctx.cno < K.ver ctx.tPast then s.loadCno p.tid
      else s.setPipe pid { p with pc := .cpHandle }
  | .cpHandle =>
      let r := K.checkpointHandler ctx s.mem
      { (s.setCtx pos { ctx with root := r.1 }).setPipe pid { p with pc := .advance } with
        mem := r.2 }
  | .readPast =>
      (s.setCtx pos { ctx with tPast := (s.ctx (p.tid - 1)).root }).setPipe pid { p with pc := .init }
  | .init => (s.call K (.pipe pid) p.tid pid Operand.init).setPipe pid { p with pc := .retry }
  | .retry => s.setPipe pid { p with pc := if ctx.retry then iterExec ctx else .advance }
  | .version =>
      if ctx.cno < K.ver ctx.tPast then s.loadCno p.tid
      else s.setPipe pid { p with pc := .handle }
  | .handle => (s.call K (.pipe pid) p.tid pid ctx.op).setPipe pid { p with pc := .retry }
  | .advance =>
      (s.setPace (pid + 1) p.tid).setPipe pid { p with pc := .loop, tid := p.tid + 1 }
  | .pop =>
      { s.setPipe pid { p with pc := afterPop s } with
        available := MpscList.consume s.available }
  | .assign wid =>
      { s.setPipe pid { p with pc := .loop, tid := p.tid + 1 } with
        tids := Function.update s.tids wid p.tid }
  | .markDone => (s.setStage pos ⊤).setPipe pid { p with pc := .loop, tid := p.tid + 1 }
  | .finished => s

def workerExec (ctx : Context ρ) : WorkerPc := if ctx.waitSubtree then .version else .waitStage

def workerStep (K : Config ρ μ) (wid : Nat) (s : State ρ μ) : State ρ μ :=
  let w := s.workers wid
  let ctx := s.ctx w.tid
  match w.pc with
  | .waitTid =>
      match s.tids wid with
      | ⊤ => s.setWorker wid { w with pc := .finished }
      | some tid =>
          if tid = w.lastTid then s
          else s.setWorker wid { w with pc := .test, tid := tid, stage := 1 }
  | .test =>
      s.setWorker wid { w with pc := if ctx.op = Operand.done then .finish else workerExec ctx }
  | .version =>
      if ctx.cno < K.ver ctx.tPast then s.loadCno w.tid
      else s.setWorker wid { w with pc := .handle }
  | .waitStage =>
      if ctx.cno < K.ver ctx.tPast then
        if ((w.stage + ctx.waitChild.toNat : Nat) : Word) ≤
            s.stages (K.ver ctx.tPast % bufferSize) then
          s.setWorker wid { w with pc := .handle }
        else s.setWorker wid { w with pc := .reload }
      else s.setWorker wid { w with pc := .handle }
  | .reload => (s.loadCno w.tid).setWorker wid { w with pc := .waitStage }
  | .handle =>
      (s.call K (.worker wid) w.tid (K.nPipes + w.stage - 1) ctx.op).setWorker
        wid { w with pc := .retry }
  | .retry =>
      s.setWorker wid { w with pc := if ctx.retry then workerExec ctx else .storeStage }
  | .storeStage =>
      (s.setStage (ctx.sno % bufferSize) (w.stage : Nat)).setWorker
        wid { w with pc := .test, stage := w.stage + 1 }
  | .finish =>
      (s.setStage (ctx.sno % bufferSize) ⊤).setWorker wid { w with pc := .push, lastTid := w.tid }
  | .push =>
      match s.available.pushes (some wid) with
      | .idle => { s with available := MpscList.clearNext s.available (some wid) (.item wid) }
      | .exchanging item => { s with available := MpscList.exchange s.available (some wid) item }
      | .linking prev item =>
          { s.setWorker wid { w with pc := .waitTid } with
            available := MpscList.link s.available (some wid) prev item }
  | .finished => s

def destructorStep (K : Config ρ μ) (s : State ρ μ) : State ρ μ :=
  match s.destructor with
  | .idle | .finished => s
  | .joinMonitor =>
      if s.monitor.pc = .finished then { s with destructor := .joinPipes 0 } else s
  | .joinPipes pid =>
      if K.nPipes < pid then { s with destructor := .storeTids 0 }
      else if (s.pipes pid).pc = .finished then { s with destructor := .joinPipes (pid + 1) }
      else s
  | .storeTids wid =>
      if K.nWorkers ≤ wid then { s with destructor := .joinWorkers 0 }
      else { s with
        tids := Function.update s.tids wid ⊤
        destructor := .storeTids (wid + 1) }
  | .joinWorkers wid =>
      if K.nWorkers ≤ wid then { s with destructor := .finished }
      else if (s.workers wid).pc = .finished then { s with destructor := .joinWorkers (wid + 1) }
      else s

def step (K : Config ρ μ) : Thread → State ρ μ → State ρ μ
  | .client c => clientStep c
  | .monitor => monitorStep
  | .pipe pid => pipeStep K pid
  | .worker wid => workerStep K wid
  | .destructor => destructorStep K

def Thread.Runs (K : Config ρ μ) : Thread → Prop
  | .client _ | .monitor | .destructor => True
  | .pipe pid => pid ≤ K.nPipes
  | .worker wid => wid < K.nWorkers

inductive Label
  | thread (θ : Thread)
  | update (c key val : Nat)
  | destroy

/-- Clients call `update` until the destructor is called, and it is called when
none of them is inside. -/
inductive Step (K : Config ρ μ) : Label → State ρ μ → State ρ μ → Prop
  | thread (s θ) (hθ : θ.Runs K) : Step K (.thread θ) s (step K θ s)
  | update (s) (c key val) (hc : s.clients c = .idle) (hd : s.destructor = .idle) :
      Step K (.update c key val) s (s.setClient c (.fetch key val))
  | destroy (s) (hc : ∀ c, s.clients c = .idle) (hd : s.destructor = .idle) :
      Step K .destroy s { s with stop := true, destructor := .joinMonitor }

/-- A call for a tid leaves a node of an earlier one in `t_past`. -/
def Result.Earlier (K : Config ρ μ) (tid : Nat) (r : Result ρ) : Prop := K.tidOf r.tPast < tid

def Result.Retries (r : Result ρ) : Prop := r.retry = true → r.waitChild = false

/-- What a step leaves in `t_past` is by an earlier tid, also where the entry
pipe takes for it the root that the handlers have left; a tid that made a node
has been issued. -/
def LeavesEarlier (K : Config ρ μ) : Label → State ρ μ → Prop
  | .thread (.pipe pid), s =>
      let tid := (s.pipes pid).tid
      match (s.pipes pid).pc with
      | .init => (handled K s tid Operand.init).1.Earlier K tid
      | .handle => (handled K s tid (s.ctx tid).op).1.Earlier K tid
      | .cpPast =>
          K.tidOf (s.ctx (tid - 1)).root < tid ∧ K.tidOf (s.ctx (tid - 1)).root ≤ s.nSubmitted
      | _ => True
  | .thread (.worker wid), s =>
      let tid := (s.workers wid).tid
      (s.workers wid).pc = .handle → (handled K s tid (s.ctx tid).op).1.Earlier K tid
  | _, _ => True

def ServesRetries (K : Config ρ μ) : Label → State ρ μ → Prop
  | .thread (.pipe pid), s =>
      let tid := (s.pipes pid).tid
      match (s.pipes pid).pc with
      | .init => (handled K s tid Operand.init).1.Retries
      | .handle => (handled K s tid (s.ctx tid).op).1.Retries
      | _ => True
  | _, _ => True

def Sound (K : Config ρ μ) (a : Label) (s : State ρ μ) : Prop :=
  LeavesEarlier K a s ∧ ServesRetries K a s

def Always (K : Config ρ μ) (P : Label → State ρ μ → Prop) : Prop :=
  ∀ a s t, Reachable (Step K) (initial K) s → Step K a s t → P a s

end Steps

section Writes

variable {ρ μ : Type} (s : State ρ μ)

theorem clientStep_writes (c : Nat) :
    clientStep c s = { s with
      nSubmitted := (clientStep c s).nSubmitted
      stages := (clientStep c s).stages
      ctxs := (clientStep c s).ctxs
      clients := (clientStep c s).clients
      passed := (clientStep c s).passed } := by
  cases hc : s.clients c <;> simp only [clientStep, hc]
  case waiting =>
      split
      · rfl
      · split <;> rfl
  case writing tid key val field => cases field <;> rfl
  all_goals rfl

theorem monitorStep_writes :
    monitorStep s = { s with
      root := (monitorStep s).root
      nCommitted := (monitorStep s).nCommitted
      checkpoint := (monitorStep s).checkpoint
      paces := (monitorStep s).paces
      monitor := (monitorStep s).monitor } := by
  cases hpc : s.monitor.pc <;> simp only [monitorStep, hpc] <;> try rfl
  all_goals split <;> rfl

theorem pipeStep_writes (K : Config ρ μ) (pid : Nat) :
    pipeStep K pid s = { s with
      paces := (pipeStep K pid s).paces
      stages := (pipeStep K pid s).stages
      ctxs := (pipeStep K pid s).ctxs
      tids := (pipeStep K pid s).tids
      available := (pipeStep K pid s).available
      mem := (pipeStep K pid s).mem
      pipes := (pipeStep K pid s).pipes
      calls := (pipeStep K pid s).calls } := by
  cases hpc : (s.pipes pid).pc <;> simp only [pipeStep, hpc] <;> try rfl
  case loop =>
      split
      · rfl
      · split <;> rfl
  all_goals split <;> rfl

theorem workerStep_writes (K : Config ρ μ) (wid : Nat) :
    workerStep K wid s = { s with
      stages := (workerStep K wid s).stages
      ctxs := (workerStep K wid s).ctxs
      available := (workerStep K wid s).available
      mem := (workerStep K wid s).mem
      workers := (workerStep K wid s).workers
      calls := (workerStep K wid s).calls } := by
  cases hpc : (s.workers wid).pc <;> simp only [workerStep, hpc] <;> try rfl
  case waitTid =>
      split
      · rfl
      · split <;> rfl
  case waitStage =>
      split
      · split <;> rfl
      · rfl
  all_goals split <;> rfl

theorem destructorStep_writes (K : Config ρ μ) :
    destructorStep K s = { s with
      tids := (destructorStep K s).tids
      destructor := (destructorStep K s).destructor } := by
  cases hd : s.destructor <;> simp only [destructorStep, hd] <;> try rfl
  case idle => rw [← hd]
  case finished => rw [← hd]
  case joinPipes =>
      split
      · rfl
      · split <;> rfl
  case joinWorkers =>
      split
      · rfl
      · split <;> rfl
  all_goals split <;> rfl

end Writes

end Contrees.Conctrl.Concow
