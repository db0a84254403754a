import Contrees.Conctrl.Concow

namespace Contrees.Conctrl.Concow

open Library.Runs

def Monitor.inited (m : Monitor) : Nat :=
  match m.pc with
  | .scanInited | .advance => m.next
  | _ => m.nInited

def Monitor.ended (m : Monitor) : Nat :=
  match m.pc with
  | .scanDone | .checkpoint | .publishRoot => m.next
  | _ => m.nCommitted

/-- The pipe has waited for its current tid and is not done with it. -/
def PipePc.waited : PipePc → Bool
  | .testStop | .loadTasks | .loop | .wait | .finished => false
  | _ => true

def PipePc.OfKind (nPipes pid : Nat) : PipePc → Prop
  | .copyRoot | .cpPast | .cpVersion | .cpHandle | .readPast | .init => pid = 0
  | .retry | .version | .handle | .advance => pid < nPipes
  | .pop | .assign _ | .markDone => pid = nPipes
  | .testStop | .loadTasks | .loop | .wait | .start | .finished => True

/-- The part of the state that the order of the tids rests on. -/
structure Counters where
  stop : Bool
  nSubmitted : Nat
  nCommitted : Nat
  paces : Nat → Nat
  monitor : Monitor
  pipes : Nat → Pipe

def State.counters {ρ μ : Type} (s : State ρ μ) : Counters :=
  ⟨s.stop, s.nSubmitted, s.nCommitted, s.paces, s.monitor, s.pipes⟩

structure Pipe.Ordered (p : Pipe) (pace : Nat) (stop : Bool) : Prop where
  tid_pos : 1 ≤ p.tid
  cache : p.cache ≤ pace
  ready : p.pc.waited = true → p.tid ≤ p.cache
  behind : p.tid ≤ pace + 1
  epoch : p.pc = .testStop ∨ p.pc = .loadTasks → p.tid = p.epoch * batchSize + 1
  batch : p.final = false → p.pc ≠ .testStop → p.pc ≠ .loadTasks →
    p.last = (p.epoch + 1) * batchSize ∧ p.tid ≤ p.last + 1
  round : p.pc = .wait ∨ p.pc.waited = true → p.tid ≤ p.last
  stopping : p.final = true ∨ p.pc = .loadTasks ∨ p.pc = .finished → stop = true

/-- The counters of the monitor, from the committed tids to the submitted ones. -/
structure Monitor.Ordered (m : Monitor) (nCommitted nSubmitted pace : Nat) (stop : Bool) : Prop where
  committed : nCommitted ≤ m.nCommitted
  published : m.pc ≠ .publishCommitted → m.nCommitted = nCommitted
  publishing : m.pc = .publishCommitted → nCommitted < m.nCommitted
  ended : m.nCommitted ≤ m.ended
  endedInited : m.ended ≤ m.nInited
  inited : m.nInited ≤ m.inited
  initedLoaded : m.inited ≤ m.nSubmitted
  loaded : m.nSubmitted ≤ nSubmitted
  handed : m.pc ≠ .finished → pace = m.nInited
  bubbles : m.pc = .finished → m.nInited + batchSize ≤ pace ∧ pace < m.nInited + bufferSize
  stopped : m.stop = true → stop = true ∧ (m.pc ≠ .loadSubmitted → m.nSubmitted = nSubmitted)
  leaving : m.pc = .bubbles ∨ m.pc = .finished → m.stop = true ∧ m.nSubmitted ≤ m.nCommitted

structure Order (nPipes : Nat) (k : Counters) : Prop where
  monitor : k.monitor.Ordered k.nCommitted k.nSubmitted (k.paces 0) k.stop
  pipes : ∀ pid ≤ nPipes, (k.pipes pid).Ordered (k.paces pid) k.stop
  paces : ∀ pid < nPipes, k.paces (pid + 1) + 1 = (k.pipes pid).tid
  kinds : ∀ pid ≤ nPipes, (k.pipes pid).pc.OfKind nPipes pid

def Destructor.pastMonitor : Destructor → Bool
  | .idle | .joinMonitor => false
  | _ => true

def Destructor.pastPipes : Destructor → Bool
  | .idle | .joinMonitor | .joinPipes _ => false
  | _ => true

/-- After `stop_` no client is inside of `update`, and what the destructor has
joined has returned; only then workers get `~0UL`. -/
structure Closing {ρ μ : Type} (K : Config ρ μ) (s : State ρ μ) : Prop where
  stop : s.stop = true ↔ s.destructor ≠ .idle
  quiet : s.stop = true → ∀ c, s.clients c = .idle
  monitor : s.destructor.pastMonitor = true → s.monitor.pc = .finished
  joining : ∀ pid, s.destructor = .joinPipes pid → ∀ q < pid, (s.pipes q).pc = .finished
  pipes : s.destructor.pastPipes = true → ∀ q ≤ K.nPipes, (s.pipes q).pc = .finished
  workers : ∀ w, s.tids w = ⊤ ∨ (s.workers w).pc = .finished → s.destructor.pastPipes = true

section Pipes

variable {nPipes pid : Nat} {k : Counters} {p p' : Pipe} {pace pace' : Nat} {stop stop' : Bool}

theorem Pipe.Ordered.mono (h : p.Ordered pace stop) (hpace : pace ≤ pace')
    (hstop : stop = true → stop' = true) : p.Ordered pace' stop' :=
  { h with
    cache := h.cache.trans hpace
    behind := h.behind.trans (Nat.succ_le_succ hpace)
    stopping := fun hp => hstop (h.stopping hp) }

theorem Order.setPipe (h : Order nPipes k) (hp : p'.Ordered (k.paces pid) k.stop)
    (htid : p'.tid = (k.pipes pid).tid) (hkind : p'.pc.OfKind nPipes pid) :
    Order nPipes { k with pipes := Function.update k.pipes pid p' } where
  monitor := h.monitor
  pipes q hq := by
    by_cases hqp : q = pid
    · subst hqp
      simpa using hp
    · simpa [hqp] using h.pipes q hq
  paces q hq := by
    by_cases hqp : q = pid
    · subst hqp
      simpa [htid] using h.paces q hq
    · simpa [hqp] using h.paces q hq
  kinds q hq := by
    by_cases hqp : q = pid
    · subst hqp
      simpa using hkind
    · simpa [hqp] using h.kinds q hq

theorem Order.passTid (h : Order nPipes k) (hpid : pid < nPipes)
    (hp : p'.Ordered (k.paces pid) k.stop) (htid : p'.tid = (k.pipes pid).tid + 1)
    (hkind : p'.pc.OfKind nPipes pid) :
    Order nPipes { k with
      paces := Function.update k.paces (pid + 1) (k.pipes pid).tid
      pipes := Function.update k.pipes pid p' } where
  monitor := by simpa using h.monitor
  pipes q hq := by
    have hgrow : k.paces (pid + 1) ≤ (k.pipes pid).tid := by
      have := h.paces pid hpid
      omega
    by_cases hqp : q = pid
    · subst hqp
      simpa using hp
    · by_cases hqs : q = pid + 1
      · subst hqs
        simpa using (h.pipes _ hq).mono hgrow id
      · simpa [hqp, hqs] using h.pipes q hq
  paces q hq := by
    by_cases hqp : q = pid
    · subst hqp
      simp [htid]
    · simpa [hqp] using h.paces q hq
  kinds q hq := by
    by_cases hqp : q = pid
    · subst hqp
      simpa using hkind
    · simpa [hqp] using h.kinds q hq

theorem Order.exitTid (h : Order nPipes k) (hp : p'.Ordered (k.paces nPipes) k.stop)
    (hkind : p'.pc.OfKind nPipes nPipes) :
    Order nPipes { k with pipes := Function.update k.pipes nPipes p' } where
  monitor := h.monitor
  pipes q hq := by
    by_cases hqp : q = nPipes
    · subst hqp
      simpa using hp
    · simpa [hqp] using h.pipes q hq
  paces q hq := by
    have hqp : q ≠ nPipes := by omega
    simpa [hqp] using h.paces q hq
  kinds q hq := by
    by_cases hqp : q = nPipes
    · subst hqp
      simpa using hkind
    · simpa [hqp] using h.kinds q hq

theorem Pipe.Ordered.testStop (h : p.Ordered pace stop) (hpc : p.pc = .testStop) :
    Pipe.Ordered { p with
      pc := .loop, tid := p.epoch * batchSize + 1, last := (p.epoch + 1) * batchSize } pace stop := by
  have hepoch := h.epoch (.inl hpc)
  have := h.behind
  constructor
  · simp
  · exact h.cache
  · simp [PipePc.waited]
  · simpa [hepoch] using h.behind
  · simp
  · intro _ _ _
    have : 1 ≤ batchSize := by decide
    simp only [true_and, Nat.succ_mul]
    omega
  · simp [PipePc.waited]
  · intro hstop
    exact h.stopping (by simpa [hpc] using hstop)

theorem Pipe.Ordered.loadTasks (h : p.Ordered pace stop) (hpc : p.pc = .loadTasks) (n : Nat) :
    Pipe.Ordered { p with
      pc := .loop, tid := p.epoch * batchSize + 1, last := n, final := true } pace stop := by
  have hepoch := h.epoch (.inr hpc)
  constructor
  · simp
  · exact h.cache
  · simp [PipePc.waited]
  · simpa [hepoch] using h.behind
  · simp
  · simp
  · simp [PipePc.waited]
  · intro _
    exact h.stopping (.inr (.inl hpc))

theorem Pipe.Ordered.endLoop (h : p.Ordered pace stop) (hpc : p.pc = .loop)
    (hlast : ¬ p.tid ≤ p.last) (hfinal : p.final = false) :
    Pipe.Ordered { p with pc := .testStop, epoch := p.epoch + 1 } pace stop := by
  obtain ⟨hbatch, hle⟩ := h.batch hfinal (by simp [hpc]) (by simp [hpc])
  constructor
  · exact h.tid_pos
  · exact h.cache
  · simp [PipePc.waited]
  · exact h.behind
  · intro _
    simp only
    omega
  · simp
  · simp [PipePc.waited]
  · intro hstop
    simp [hfinal] at hstop

theorem Pipe.Ordered.move (h : p.Ordered pace stop) (hready : p.tid ≤ p.cache)
    (hlast : p.tid ≤ p.last) (hpc : p.pc ≠ .testStop) (hpc' : p.pc ≠ .loadTasks)
    {pc : PipePc} (hwaited : pc.waited = true) {n : Nat} :
    Pipe.Ordered { p with pc := pc, lastCheckpoint := n } pace stop where
  tid_pos := h.tid_pos
  cache := h.cache
  ready _ := hready
  behind := h.behind
  epoch hpc := by rcases hpc with hpc | hpc <;> simp only at hpc <;> simp [hpc, PipePc.waited] at hwaited
  batch hfinal _ _ := h.batch hfinal hpc hpc'
  round _ := hlast
  stopping hstop := by
    rcases hstop with hstop | hstop | hstop
    · exact h.stopping (.inl hstop)
    · simp only at hstop
      simp [hstop, PipePc.waited] at hwaited
    · simp only at hstop
      simp [hstop, PipePc.waited] at hwaited

theorem Pipe.Ordered.within (h : p.Ordered pace stop) (hwaited : p.pc.waited = true) {pc : PipePc}
    (hpc : pc.waited = true) {n : Nat} :
    Pipe.Ordered { p with pc := pc, lastCheckpoint := n } pace stop := by
  refine h.move (h.ready hwaited) (h.round (.inr hwaited)) ?_ ?_ hpc
  · intro hpc'
    simp [hpc', PipePc.waited] at hwaited
  · intro hpc'
    simp [hpc', PipePc.waited] at hwaited

theorem Order.within (h : Order nPipes k) (hpid : pid ≤ nPipes)
    (hwaited : (k.pipes pid).pc.waited = true) {pc : PipePc} {n : Nat} (hpc : pc.waited = true)
    (hkind : pc.OfKind nPipes pid) :
    Order nPipes { k with
      pipes := Function.update k.pipes pid { k.pipes pid with pc := pc, lastCheckpoint := n } } :=
  h.setPipe ((h.pipes pid hpid).within hwaited hpc) rfl hkind

theorem Pipe.Ordered.next (h : p.Ordered pace stop) (hwaited : p.pc.waited = true) :
    Pipe.Ordered { p with pc := .loop, tid := p.tid + 1 } pace stop := by
  have hready := h.ready hwaited
  have hcache := h.cache
  have hlast := h.round (.inr hwaited)
  constructor
  · exact Nat.le_add_left 1 _
  · exact h.cache
  · simp [PipePc.waited]
  · simp only
    omega
  · simp
  · intro hfinal _ _
    have hpc : p.pc ≠ .testStop ∧ p.pc ≠ .loadTasks := by
      constructor <;> intro hpc <;> simp [hpc, PipePc.waited] at hwaited
    exact ⟨(h.batch hfinal hpc.1 hpc.2).1, by simpa using hlast⟩
  · simp [PipePc.waited]
  · intro hstop
    exact h.stopping (.inl (by simpa using hstop))

end Pipes

section Monitor

variable {m : Monitor} {nCommitted nSubmitted pace : Nat} {stop : Bool}

theorem Monitor.Ordered.loop (h : m.Ordered nCommitted nSubmitted pace stop) (hpc : m.pc = .test) :
    Monitor.Ordered { m with pc := .loadStop } nCommitted nSubmitted pace stop := by
  obtain ⟨h1, h2, h3, h4, h5, h6, h7, h8, h9, h10, h11, h12⟩ := h
  constructor <;> grind [Monitor.inited, Monitor.ended]

theorem Monitor.Ordered.leave (h : m.Ordered nCommitted nSubmitted pace stop) (hpc : m.pc = .test)
    (hend : ¬ (!m.stop || m.nCommitted < m.nSubmitted) = true) :
    Monitor.Ordered { m with pc := .bubbles } nCommitted nSubmitted pace stop := by
  obtain ⟨h1, h2, h3, h4, h5, h6, h7, h8, h9, h10, h11, h12⟩ := h
  constructor <;> grind [Monitor.inited, Monitor.ended]

theorem Monitor.Ordered.loadStop (h : m.Ordered nCommitted nSubmitted pace stop)
    (hpc : m.pc = .loadStop) :
    Monitor.Ordered { m with pc := .loadSubmitted, stop := stop } nCommitted nSubmitted pace stop := by
  obtain ⟨h1, h2, h3, h4, h5, h6, h7, h8, h9, h10, h11, h12⟩ := h
  constructor <;> grind [Monitor.inited, Monitor.ended]

theorem Monitor.Ordered.loadSubmitted (h : m.Ordered nCommitted nSubmitted pace stop)
    (hpc : m.pc = .loadSubmitted) :
    Monitor.Ordered { m with pc := .scanInited, nSubmitted := nSubmitted, next := m.nInited }
      nCommitted nSubmitted pace stop := by
  obtain ⟨h1, h2, h3, h4, h5, h6, h7, h8, h9, h10, h11, h12⟩ := h
  constructor <;> grind [Monitor.inited, Monitor.ended]

theorem Monitor.Ordered.foundInited (h : m.Ordered nCommitted nSubmitted pace stop)
    (hpc : m.pc = .scanInited) (hlt : m.next < m.nSubmitted) :
    Monitor.Ordered { m with pc := .scanInited, next := m.next + 1 } nCommitted nSubmitted pace stop := by
  obtain ⟨h1, h2, h3, h4, h5, h6, h7, h8, h9, h10, h11, h12⟩ := h
  constructor <;> grind [Monitor.inited, Monitor.ended]

theorem Monitor.Ordered.endInited (h : m.Ordered nCommitted nSubmitted pace stop)
    (hpc : m.pc = .scanInited) :
    Monitor.Ordered { m with pc := .advance } nCommitted nSubmitted pace stop := by
  obtain ⟨h1, h2, h3, h4, h5, h6, h7, h8, h9, h10, h11, h12⟩ := h
  constructor <;> grind [Monitor.inited, Monitor.ended]

theorem Monitor.Ordered.advance (h : m.Ordered nCommitted nSubmitted pace stop)
    (hpc : m.pc = .advance) :
    Monitor.Ordered { m with pc := .scanDone, nInited := m.next, next := m.nCommitted }
      nCommitted nSubmitted m.next stop := by
  obtain ⟨h1, h2, h3, h4, h5, h6, h7, h8, h9, h10, h11, h12⟩ := h
  constructor <;> grind [Monitor.inited, Monitor.ended]

theorem Monitor.Ordered.keep (h : m.Ordered nCommitted nSubmitted pace stop)
    (hpc : m.pc = .advance) :
    Monitor.Ordered { m with pc := .scanDone, next := m.nCommitted } nCommitted nSubmitted pace stop := by
  obtain ⟨h1, h2, h3, h4, h5, h6, h7, h8, h9, h10, h11, h12⟩ := h
  constructor <;> grind [Monitor.inited, Monitor.ended]

theorem Monitor.Ordered.foundDone (h : m.Ordered nCommitted nSubmitted pace stop)
    (hpc : m.pc = .scanDone) (hlt : m.next < m.nInited) :
    Monitor.Ordered { m with pc := .checkpoint, next := m.next + 1 } nCommitted nSubmitted pace stop := by
  obtain ⟨h1, h2, h3, h4, h5, h6, h7, h8, h9, h10, h11, h12⟩ := h
  constructor <;> grind [Monitor.inited, Monitor.ended]

theorem Monitor.Ordered.endDone (h : m.Ordered nCommitted nSubmitted pace stop)
    (hpc : m.pc = .scanDone) :
    Monitor.Ordered { m with pc := .publishRoot } nCommitted nSubmitted pace stop := by
  obtain ⟨h1, h2, h3, h4, h5, h6, h7, h8, h9, h10, h11, h12⟩ := h
  constructor <;> grind [Monitor.inited, Monitor.ended]

theorem Monitor.Ordered.checkpoint (h : m.Ordered nCommitted nSubmitted pace stop)
    (hpc : m.pc = .checkpoint) :
    Monitor.Ordered { m with pc := .scanDone } nCommitted nSubmitted pace stop := by
  obtain ⟨h1, h2, h3, h4, h5, h6, h7, h8, h9, h10, h11, h12⟩ := h
  constructor <;> grind [Monitor.inited, Monitor.ended]

theorem Monitor.Ordered.publishRoot (h : m.Ordered nCommitted nSubmitted pace stop)
    (hpc : m.pc = .publishRoot) (hlt : m.nCommitted < m.next) :
    Monitor.Ordered { m with pc := .publishCommitted, nCommitted := m.next }
      nCommitted nSubmitted pace stop := by
  obtain ⟨h1, h2, h3, h4, h5, h6, h7, h8, h9, h10, h11, h12⟩ := h
  constructor <;> grind [Monitor.inited, Monitor.ended]

theorem Monitor.Ordered.restart (h : m.Ordered nCommitted nSubmitted pace stop)
    (hpc : m.pc = .publishRoot) :
    Monitor.Ordered { m with pc := .test } nCommitted nSubmitted pace stop := by
  obtain ⟨h1, h2, h3, h4, h5, h6, h7, h8, h9, h10, h11, h12⟩ := h
  constructor <;> grind [Monitor.inited, Monitor.ended]

theorem Monitor.Ordered.publishCommitted (h : m.Ordered nCommitted nSubmitted pace stop)
    (hpc : m.pc = .publishCommitted) :
    Monitor.Ordered { m with pc := .test } m.nCommitted nSubmitted pace stop := by
  obtain ⟨h1, h2, h3, h4, h5, h6, h7, h8, h9, h10, h11, h12⟩ := h
  constructor <;> grind [Monitor.inited, Monitor.ended]

theorem Monitor.Ordered.finish (h : m.Ordered nCommitted nSubmitted pace stop)
    (hpc : m.pc = .bubbles) {margin : Nat} (hbatch : batchSize ≤ margin) (hmargin : margin < bufferSize) :
    Monitor.Ordered { m with pc := .finished } nCommitted nSubmitted (m.nInited + margin) stop := by
  obtain ⟨h1, h2, h3, h4, h5, h6, h7, h8, h9, h10, h11, h12⟩ := h
  constructor <;> grind [Monitor.inited, Monitor.ended]

end Monitor

section Monitors

variable {ρ μ : Type} {nPipes : Nat} {s : State ρ μ} {m : Monitor}

theorem Order.setMonitor (h : Order nPipes s.counters)
    (hm : m.Ordered s.nCommitted s.nSubmitted (s.paces 0) s.stop) :
    Order nPipes (s.setMonitor m).counters :=
  { h with monitor := hm }

theorem Order.handOver (h : Order nPipes s.counters) {n : Nat} (hn : s.paces 0 ≤ n)
    (hm : m.Ordered s.nCommitted s.nSubmitted n s.stop) :
    Order nPipes ((s.setPace 0 n).setMonitor m).counters where
  monitor := by simpa [State.counters, State.setPace, State.setMonitor] using hm
  pipes q hq := by
    have hq' := h.pipes q hq
    by_cases hq0 : q = 0
    · subst hq0
      simpa [State.counters, State.setPace, State.setMonitor] using hq'.mono hn id
    · simpa [State.counters, State.setPace, State.setMonitor, hq0] using hq'
  paces q hq := by simpa [State.counters, State.setPace, State.setMonitor] using h.paces q hq
  kinds := h.kinds

end Monitors

section Steps

variable {ρ μ : Type} {K : Config ρ μ} {s : State ρ μ}

theorem Order.monitorStep (h : Order K.nPipes s.counters) :
    Order K.nPipes (monitorStep s).counters := by
  have hm : s.monitor.Ordered s.nCommitted s.nSubmitted (s.paces 0) s.stop := h.monitor
  cases hpc : s.monitor.pc <;> simp only [Concow.monitorStep, hpc]
  case test =>
      split
      · exact h.setMonitor (hm.loop hpc)
      · exact h.setMonitor (hm.leave hpc ‹_›)
  case loadStop => exact h.setMonitor (hm.loadStop hpc)
  case loadSubmitted => exact h.setMonitor (hm.loadSubmitted hpc)
  case scanInited =>
      split
      · exact h.setMonitor (hm.foundInited hpc (And.left ‹_›))
      · exact h.setMonitor (hm.endInited hpc)
  case advance =>
      split
      · exact h.handOver ((hm.handed (by simp [hpc])).trans_le (Nat.le_of_lt ‹_›)) (hm.advance hpc)
      · exact h.setMonitor (hm.keep hpc)
  case scanDone =>
      split
      · exact h.setMonitor (hm.foundDone hpc (And.left ‹_›))
      · exact h.setMonitor (hm.endDone hpc)
  case checkpoint =>
      have key : Order K.nPipes (s.setMonitor { s.monitor with pc := .scanDone }).counters :=
        h.setMonitor (hm.checkpoint hpc)
      exact key
  case publishRoot =>
      split
      · have key : Order K.nPipes (s.setMonitor
            { s.monitor with pc := .publishCommitted, nCommitted := s.monitor.next }).counters :=
          h.setMonitor (hm.publishRoot hpc ‹_›)
        exact key
      · exact h.setMonitor (hm.restart hpc)
  case publishCommitted => exact { h with monitor := hm.publishCommitted hpc }
  case bubbles =>
      -- the margin is less than two batches
      have hmargin : batchSize + (batchSize - s.monitor.nInited % batchSize) % batchSize < bufferSize := by
        have := Nat.mod_lt (batchSize - s.monitor.nInited % batchSize) (by decide : batchSize > 0)
        have : batchSize + batchSize ≤ bufferSize := by decide
        omega
      exact h.handOver ((hm.handed (by simp [hpc])).trans_le (Nat.le_add_right _ _))
        (hm.finish hpc (Nat.le_add_right _ _) hmargin)
  case finished => exact h

theorem iterExec_waited (ctx : Context ρ) : (iterExec ctx).waited = true := by
  unfold iterExec
  split
  · rfl
  · split <;> rfl

theorem iterExec_ofKind (ctx : Context ρ) {nPipes pid : Nat} (hpid : pid < nPipes) :
    (iterExec ctx).OfKind nPipes pid := by
  unfold iterExec
  split
  · exact hpid
  · split <;> exact hpid

theorem Order.start (h : Order K.nPipes s.counters) {pid : Nat} (hpid : pid ≤ K.nPipes)
    (hpc : (s.pipes pid).pc = .start) :
    Order K.nPipes (s.setPipe pid (pipeStart K s pid (s.pipes pid))).counters := by
  have hwaited : (s.pipes pid).pc.waited = true := by rw [hpc]; rfl
  unfold pipeStart
  dsimp only
  by_cases hentry : pid = 0
  · rw [if_pos hentry]
    split
    · split
      · exact h.within hpid hwaited rfl hentry
      · exact h.within hpid hwaited rfl hentry
    · refine h.within hpid hwaited ?_ ?_
      · split <;> rfl
      · split
        · exact hentry
        · exact hentry.trans_lt K.nPipes_pos
  · rw [if_neg hentry]
    by_cases hexit : pid = K.nPipes
    · rw [if_pos hexit]
      refine h.within hpid hwaited ?_ ?_
      · split <;> rfl
      · split <;> exact hexit
    · rw [if_neg hexit]
      have hlt : pid < K.nPipes := lt_of_le_of_ne hpid hexit
      refine h.within hpid hwaited ?_ ?_
      · split
        · exact iterExec_waited _
        · rfl
      · split
        · exact iterExec_ofKind _ hlt
        · exact hlt

theorem Order.pipeStep (h : Order K.nPipes s.counters) {pid : Nat} (hpid : pid ≤ K.nPipes) :
    Order K.nPipes (pipeStep K pid s).counters := by
  have hp : (s.pipes pid).Ordered (s.paces pid) s.stop := h.pipes pid hpid
  have hkind := h.kinds pid hpid
  have hwaited : (s.pipes pid).pc.waited = true → (s.counters.pipes pid).pc.waited = true := id
  cases hpc : (s.pipes pid).pc <;> simp only [Concow.pipeStep, hpc] <;>
    simp only [State.counters, hpc] at hkind <;> rw [hpc] at hwaited
  case testStop =>
      by_cases hstop : s.stop = true
      · rw [if_pos hstop]
        refine h.setPipe { hp with
          ready := by simp [PipePc.waited]
          epoch := fun _ => hp.epoch (.inl hpc)
          batch := by simp
          round := by simp [PipePc.waited]
          stopping := fun _ => hstop } rfl trivial
      · rw [if_neg hstop]
        exact h.setPipe (hp.testStop hpc) (hp.epoch (.inl hpc)).symm trivial
  case loadTasks => exact h.setPipe (hp.loadTasks hpc _) (hp.epoch (.inr hpc)).symm trivial
  case loop =>
      by_cases hlast : (s.pipes pid).tid ≤ (s.pipes pid).last
      · rw [if_pos hlast]
        refine h.setPipe { hp with
          ready := by simp [PipePc.waited]
          epoch := by simp
          batch := fun hfinal _ _ => hp.batch hfinal (by simp [hpc]) (by simp [hpc])
          round := fun _ => hlast
          stopping := fun hstop => hp.stopping (.inl (by simpa using hstop)) } rfl trivial
      · rw [if_neg hlast]
        by_cases hfinal : (s.pipes pid).final = true
        · rw [if_pos hfinal]
          refine h.setPipe { hp with
            ready := by simp [PipePc.waited]
            epoch := by simp
            batch := fun hfinal' => absurd (hfinal.symm.trans hfinal') (by decide)
            round := by simp [PipePc.waited]
            stopping := fun _ => hp.stopping (.inl hfinal) } rfl trivial
        · rw [if_neg hfinal]
          exact h.setPipe (hp.endLoop hpc hlast (by simpa using hfinal)) rfl trivial
  case wait =>
      by_cases hcache : (s.pipes pid).cache < (s.pipes pid).tid
      · rw [if_pos hcache]
        refine h.setPipe { hp with
          cache := le_rfl
          ready := by simp [PipePc.waited]
          epoch := by simp
          batch := fun hfinal _ _ => hp.batch hfinal (by simp [hpc]) (by simp [hpc])
          round := fun _ => hp.round (.inl hpc)
          stopping := fun hstop => hp.stopping (.inl (by simpa using hstop)) } rfl trivial
      · rw [if_neg hcache]
        exact h.setPipe (hp.move (not_lt.mp hcache) (hp.round (.inl hpc)) (by simp [hpc])
          (by simp [hpc]) rfl) rfl trivial
  case start => exact h.start hpid hpc
  case copyRoot => exact h.within hpid (hwaited rfl) rfl (hkind.trans_lt K.nPipes_pos)
  case cpPast => exact h.within hpid (hwaited rfl) rfl hkind
  case cpVersion =>
      split
      · exact h
      · exact h.within hpid (hwaited rfl) rfl hkind
  case cpHandle => exact h.within hpid (hwaited rfl) rfl (hkind.trans_lt K.nPipes_pos)
  case readPast => exact h.within hpid (hwaited rfl) rfl hkind
  case init => exact h.within hpid (hwaited rfl) rfl (hkind.trans_lt K.nPipes_pos)
  case retry =>
      refine h.within hpid (hwaited rfl) ?_ ?_
      · split
        · exact iterExec_waited _
        · rfl
      · split
        · exact iterExec_ofKind _ hkind
        · exact hkind
  case version =>
      split
      · exact h
      · exact h.within hpid (hwaited rfl) rfl hkind
  case handle => exact h.within hpid (hwaited rfl) rfl hkind
  case advance => exact h.passTid hkind (hp.next (hwaited rfl)) rfl trivial
  case pop =>
      refine h.within hpid (hwaited rfl) ?_ ?_
      · unfold afterPop
        split <;> rfl
      · unfold afterPop
        split <;> exact hkind
  case assign wid =>
      have hpid' : pid = K.nPipes := hkind
      subst hpid'
      exact h.exitTid (hp.next (hwaited rfl)) trivial
  case markDone =>
      have hpid' : pid = K.nPipes := hkind
      subst hpid'
      exact h.exitTid (hp.next (hwaited rfl)) trivial
  case finished => exact h

theorem Order.clientStep (h : Order K.nPipes s.counters) (hclosing : Closing K s) (c : Nat) :
    Order K.nPipes (clientStep c s).counters := by
  have hm : s.monitor.Ordered s.nCommitted s.nSubmitted (s.paces 0) s.stop := h.monitor
  unfold Concow.clientStep
  split
  case h_2 key val hc =>
      have hrun : s.stop ≠ true := by
        intro hstop
        simp [hclosing.quiet hstop c] at hc
      have key : s.monitor.Ordered s.nCommitted (1 + s.nSubmitted) (s.paces 0) s.stop :=
        { hm with
          loaded := hm.loaded.trans (Nat.le_add_left _ _)
          stopped := fun hstop => absurd (hm.stopped hstop).1 hrun }
      exact { h with monitor := key }
  case h_3 =>
      split
      · exact h
      · split <;> exact h
  case h_6 => unfold writeField; split <;> exact h
  all_goals exact h

/-- The order of the counters is kept by every step of a thread. -/
theorem Order.step (h : Order K.nPipes s.counters) (hclosing : Closing K s) {θ : Thread}
    (hθ : θ.Runs K) : Order K.nPipes (step K θ s).counters := by
  cases θ with
  | client c => exact h.clientStep hclosing c
  | monitor => exact h.monitorStep
  | pipe pid => exact h.pipeStep hθ
  | worker wid =>
      rw [Concow.step, workerStep_writes]
      exact h
  | destructor =>
      rw [Concow.step, destructorStep_writes]
      exact h

theorem pipeStep_pipes_of_ne {pid q : Nat} (hq : q ≠ pid) :
    (pipeStep K pid s).pipes q = s.pipes q := by
  cases hpc : (s.pipes pid).pc <;>
    simp only [pipeStep, hpc] <;>
    (repeat' split) <;>
    simp [State.setPipe, State.setCtx, State.setStage, State.setPace, State.call, State.loadCno, hq]

theorem pipeStep_tids {pid : Nat} (w : Nat) (hw : (pipeStep K pid s).tids w = ⊤) :
    s.tids w = ⊤ := by
  cases hpc : (s.pipes pid).pc <;> simp only [pipeStep, hpc] at hw
  case assign wid =>
      by_cases hww : w = wid
      · subst hww
        simp at hw
      · simpa [hww] using hw
  case loop =>
      split at hw
      · exact hw
      · split at hw <;> exact hw
  all_goals first | exact hw | (split at hw <;> exact hw)

theorem workerStep_workers_of_ne {wid w : Nat} (hw : w ≠ wid) :
    (workerStep K wid s).workers w = s.workers w := by
  cases hpc : (s.workers wid).pc <;>
    simp only [workerStep, hpc] <;>
    (repeat' split) <;>
    simp [State.setWorker, State.setCtx, State.setStage, State.call, State.loadCno, hw]

theorem workerStep_finished {wid : Nat}
    (hw : ((workerStep K wid s).workers wid).pc = .finished) :
    s.tids wid = ⊤ ∨ (s.workers wid).pc = .finished := by
  cases hpc : (s.workers wid).pc <;> simp only [workerStep, hpc] at hw
  case waitTid =>
      split at hw
      · exact .inl ‹_›
      · split at hw <;> simp [State.setWorker, hpc] at hw
  case finished => exact .inr rfl
  all_goals
    (repeat' split at hw) <;>
    simp [State.setWorker, State.setCtx, State.setStage, State.call, State.loadCno, workerExec,
      hpc] at hw
  all_goals (repeat' split at hw) <;> simp at hw

theorem Closing.move (h : Closing K s) (hd : s.destructor ≠ .idle) {d : Destructor} (hd' : d ≠ .idle)
    (monitor : d.pastMonitor = true → s.monitor.pc = .finished)
    (joining : ∀ pid, d = .joinPipes pid → ∀ q < pid, (s.pipes q).pc = .finished)
    (pipes : d.pastPipes = true → ∀ q ≤ K.nPipes, (s.pipes q).pc = .finished)
    (workers : s.destructor.pastPipes = true → d.pastPipes = true) :
    Closing K { s with destructor := d } where
  stop := iff_of_true (h.stop.mpr hd) hd'
  quiet := h.quiet
  monitor := monitor
  joining := joining
  pipes := pipes
  workers w hw := workers (h.workers w hw)

theorem Closing.destructorStep (h : Closing K s) : Closing K (destructorStep K s) := by
  have hmonitor := h.monitor
  have hpipes := h.pipes
  cases hd : s.destructor <;> simp only [Concow.destructorStep, hd] <;> rw [hd] at hmonitor hpipes
  case joinMonitor =>
      split
      · exact h.move (by simp [hd]) (by simp) (fun _ => ‹_›) (by simp) (by simp [Destructor.pastPipes])
          (by simp [hd, Destructor.pastPipes])
      · exact h
  case joinPipes pid =>
      have hjoined := h.joining pid hd
      split
      · have hall : ∀ q ≤ K.nPipes, (s.pipes q).pc = .finished := fun q hq => hjoined q (by omega)
        exact h.move (by simp [hd]) (by simp) (fun _ => hmonitor rfl) (by simp) (fun _ => hall)
          (by simp [hd, Destructor.pastPipes])
      · split
        · refine h.move (by simp [hd]) (by simp) hmonitor ?_ (by simp [Destructor.pastPipes])
            (by simp [hd, Destructor.pastPipes])
          rintro pid' heq q hq
          obtain rfl : pid + 1 = pid' := by simpa using heq
          rcases Nat.lt_succ_iff_lt_or_eq.mp hq with hlt | heq'
          · exact hjoined q hlt
          · rwa [heq']
        · exact h
  case storeTids wid =>
      split
      · exact h.move (by simp [hd]) (by simp) hmonitor (by simp) hpipes (fun _ => rfl)
      · have key : Closing K { s with destructor := .storeTids (wid + 1) } :=
          h.move (by simp [hd]) (by simp) hmonitor (by simp) hpipes (fun _ => rfl)
        exact { key with workers := fun _ _ => rfl }
  case joinWorkers wid =>
      split
      · exact h.move (by simp [hd]) (by simp) hmonitor (by simp) hpipes (fun _ => rfl)
      · split
        · exact h.move (by simp [hd]) (by simp) hmonitor (by simp) hpipes (fun _ => rfl)
        · exact h
  all_goals exact h

theorem Closing.step (h : Closing K s) {θ : Thread} (hθ : θ.Runs K) : Closing K (step K θ s) := by
  cases θ with
  | client c =>
      have hquiet : s.stop = true → (clientStep c s).clients = s.clients := by
        intro hstop
        simp [Concow.clientStep, h.quiet hstop c]
      rw [Concow.step, clientStep_writes]
      exact { h with quiet := fun hstop => by simpa only [hquiet hstop] using h.quiet hstop }
  | monitor =>
      have hfinished : s.monitor.pc = .finished → (monitorStep s).monitor = s.monitor := by
        intro hpc
        simp [Concow.monitorStep, hpc]
      rw [Concow.step, monitorStep_writes]
      exact { h with monitor := fun hd => by simpa only [hfinished (h.monitor hd)] using h.monitor hd }
  | pipe pid =>
      have hfinished : ∀ q, (s.pipes q).pc = .finished →
          ((pipeStep K pid s).pipes q).pc = .finished := by
        intro q hq
        by_cases hqp : q = pid
        · subst hqp
          simp [Concow.pipeStep, hq]
        · rwa [pipeStep_pipes_of_ne hqp]
      rw [Concow.step, pipeStep_writes]
      exact { h with
        joining := fun p hd q hq => hfinished q (h.joining p hd q hq)
        pipes := fun hd q hq => hfinished q (h.pipes hd q hq)
        workers := fun w hw => h.workers w (hw.imp_left (pipeStep_tids w)) }
  | worker wid =>
      have hworkers : ∀ w, ((workerStep K wid s).workers w).pc = .finished →
          s.tids w = ⊤ ∨ (s.workers w).pc = .finished := by
        intro w hw
        by_cases hww : w = wid
        · subst hww
          exact workerStep_finished hw
        · rw [workerStep_workers_of_ne hww] at hw
          exact .inr hw
      rw [Concow.step, workerStep_writes]
      exact { h with workers := fun w hw => h.workers w (hw.elim .inl (hworkers w)) }
  | destructor => exact h.destructorStep

end Steps

section Calls

variable {ρ μ : Type} {K : Config ρ μ} {s : State ρ μ}

theorem Order.initial : Order K.nPipes (initial K).counters where
  monitor := by constructor <;> simp [State.counters, Concow.initial, Monitor.inited, Monitor.ended]
  pipes _ _ := by constructor <;> simp [State.counters, Concow.initial, PipePc.waited]
  paces _ _ := rfl
  kinds _ _ := trivial

theorem Closing.initial : Closing K (initial K) where
  stop := by simp [Concow.initial]
  quiet := by simp [Concow.initial]
  monitor hd := by simp [Concow.initial, Destructor.pastMonitor] at hd
  joining _ hd := by simp [Concow.initial] at hd
  pipes hd := by simp [Concow.initial, Destructor.pastPipes] at hd
  workers _ hw := by simp [Concow.initial] at hw

theorem Closing.update (h : Closing K s) (hd : s.destructor = .idle) {c : Nat} {client : Client} :
    Closing K (s.setClient c client) :=
  { h with quiet := fun hstop => absurd hd (h.stop.mp hstop) }

theorem Order.destroy (h : Order K.nPipes s.counters) {d : Destructor} :
    Order K.nPipes { s with stop := true, destructor := d }.counters where
  monitor :=
    { h.monitor with
      stopped := fun hstop => ⟨rfl, (h.monitor.stopped hstop).2⟩ }
  pipes pid hpid := (h.pipes pid hpid).mono le_rfl fun _ => rfl
  paces := h.paces
  kinds := h.kinds

theorem Closing.destroy (h : Closing K s) (hc : ∀ c, s.clients c = .idle) (hd : s.destructor = .idle) :
    Closing K { s with stop := true, destructor := .joinMonitor } where
  stop := by simp
  quiet _ := hc
  monitor hd' := by simp [Destructor.pastMonitor] at hd'
  joining _ hd' := by simp at hd'
  pipes hd' := by simp [Destructor.pastPipes] at hd'
  workers w hw := by
    have hpast := h.workers w hw
    simp [hd, Destructor.pastPipes] at hpast

end Calls

end Contrees.Conctrl.Concow
