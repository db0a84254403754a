import Contrees.Conctrl.ConcowOrder

namespace Contrees.Conctrl.Concow

open Library.Runs MpscList

def Worker.task (w : Worker) (tid : Word) : Option Nat :=
  match w.pc with
  | .waitTid =>
      match tid with
      | ⊤ => none
      | some t => if t = w.lastTid then none else some t
  | .push | .finished => none
  | _ => some w.tid

structure Pool where
  available : MpscList.State Nat Nat
  workers : Nat → Worker
  tids : Nat → Word
  exit : Pipe

theorem Worker.pc_of_task_none {w : Worker} {tid : Word} (h : w.task tid = none) :
    w.pc = .waitTid ∨ w.pc = .push ∨ w.pc = .finished := by
  unfold Worker.task at h
  cases hpc : w.pc <;> simp [hpc] at h ⊢

def State.pool {ρ μ : Type} (K : Config ρ μ) (s : State ρ μ) : Pool :=
  ⟨s.available, s.workers, s.tids, s.pipes K.nPipes⟩

def Pool.task (p : Pool) (w : Nat) : Option Nat := (p.workers w).task (p.tids w)

/-- A worker is in the list, at the exit pipe that has popped it, pushing itself,
or busy, and only one of these. -/
structure Pool.Wf (nWorkers : Nat) (p : Pool) : Prop where
  list : Reachable MpscList.Step MpscList.initial p.available
  held : ∀ w x, (p.available.pushes (some w)).holds = some x →
    x = .item w ∧ w < nWorkers ∧ (p.workers w).pc = .push
  listed : ∀ w, InList p.available w → w < nWorkers ∧ p.task w = none ∧ p.exit.pc ≠ .assign w ∧
    ((p.workers w).pc = .push → ∃ prev x, p.available.pushes (some w) = .linking prev x)
  popped : ∀ w, p.exit.pc = .assign w →
    w < nWorkers ∧ (p.workers w).pc = .waitTid ∧ p.task w = none
  free : ∀ w < nWorkers, p.task w = none →
    InList p.available w ∨ p.exit.pc = .assign w ∨ (p.workers w).pc = .push
  busy : ∀ w t, p.task w = some t → w < nWorkers ∧ t < p.exit.tid
  last : ∀ w, (p.workers w).lastTid < p.exit.tid
  current : ∀ w, (p.workers w).pc ≠ .waitTid → (p.workers w).pc ≠ .finished →
    p.tids w = ⊤ ∨ p.tids w = some (p.workers w).tid
  pushing : ∀ w, (p.workers w).pc = .push → (p.workers w).lastTid = (p.workers w).tid

section Moves

variable {nWorkers w : Nat} {p : Pool}

theorem Pool.Wf.exitMove (h : p.Wf nWorkers) {e : Pipe} (hpc : ∀ w, p.exit.pc ≠ .assign w)
    (hpc' : ∀ w, e.pc ≠ .assign w) (htid : p.exit.tid ≤ e.tid) :
    Pool.Wf nWorkers { p with exit := e } where
  list := h.list
  held := h.held
  listed w hw := ⟨(h.listed w hw).1, (h.listed w hw).2.1, hpc' w, (h.listed w hw).2.2.2⟩
  popped w hw := absurd hw (hpc' w)
  free w hw ht := (h.free w hw ht).imp_right (.imp_left (absurd · (hpc w)))
  busy w t ht := ⟨(h.busy w t ht).1, (h.busy w t ht).2.trans_le htid⟩
  last w := (h.last w).trans_le htid
  current := h.current
  pushing := h.pushing

theorem Pool.Wf.consume (h : p.Wf nWorkers) {e : Pipe} (hpc : ∀ w, p.exit.pc ≠ .assign w)
    (hpc' : ∀ w, e.pc = .assign w ↔ MpscList.popped p.available = some (.item w))
    (htid : e.tid = p.exit.tid) (hfinished : ∀ w, (p.workers w).pc ≠ .finished) :
    Pool.Wf nWorkers { p with available := MpscList.consume p.available, exit := e } := by
  obtain ⟨L, hL⟩ := inv_of_reachable h.list
  constructor
  · exact h.list.next .consumer (step_consume _)
  · intro w x hx
    rw [consume_pushes] at hx
    exact h.held w x hx
  · intro w hw
    have hne : MpscList.popped p.available ≠ some (.item w) := by
      intro hw'
      exact (hL.popped_item hw').2.1 hw
    have hlist := h.listed w ((hL.consume_inList hne).1 hw)
    refine ⟨hlist.1, hlist.2.1, (hpc' w).not.2 hne, ?_⟩
    simpa only [consume_pushes] using hlist.2.2.2
  · intro w hw
    obtain ⟨hin, -, hlinking⟩ := hL.popped_item ((hpc' w).1 hw)
    obtain ⟨hlt, htask, -, hpush⟩ := h.listed w hin
    refine ⟨hlt, ?_, htask⟩
    rcases Worker.pc_of_task_none htask with hwait | hw' | hend
    · exact hwait
    · obtain ⟨prev, x, hx⟩ := hpush hw'
      obtain ⟨rfl, -⟩ := h.held w x (by rw [hx]; rfl)
      exact absurd hx (hlinking _ _)
    · exact absurd hend (hfinished w)
  · intro w hw ht
    rcases h.free w hw ht with hin | hassign | hpush
    · by_cases hw' : MpscList.popped p.available = some (.item w)
      · exact .inr (.inl ((hpc' w).2 hw'))
      · exact .inl ((hL.consume_inList hw').2 hin)
    · exact absurd hassign (hpc w)
    · exact .inr (.inr hpush)
  · intro w t ht
    rw [htid]
    exact h.busy w t ht
  · intro w
    rw [htid]
    exact h.last w
  · exact h.current
  · exact h.pushing

theorem Pool.Wf.task_assign (h : p.Wf nWorkers) (hpc : p.exit.pc = .assign w) (e : Pipe) :
    Pool.task { p with tids := Function.update p.tids w p.exit.tid, exit := e } =
      Function.update p.task w (some p.exit.tid) := by
  obtain ⟨-, hwait, -⟩ := h.popped w hpc
  have hlast := h.last w
  funext v
  by_cases hv : v = w
  · subst hv
    simp only [Pool.task, Worker.task, hwait, Function.update_self]
    change (if p.exit.tid = (p.workers v).lastTid then none else some p.exit.tid) = _
    rw [if_neg (by omega)]
  · simp [Pool.task, hv]

theorem Pool.Wf.assign (h : p.Wf nWorkers) (hpc : p.exit.pc = .assign w) {e : Pipe}
    (hpc' : ∀ w, e.pc ≠ .assign w) (htid : e.tid = p.exit.tid + 1) :
    Pool.Wf nWorkers { p with tids := Function.update p.tids w p.exit.tid, exit := e } := by
  obtain ⟨hlt, hwait, htask⟩ := h.popped w hpc
  have htasks := h.task_assign hpc e
  have hself : Pool.task { p with tids := Function.update p.tids w p.exit.tid, exit := e } w =
      some p.exit.tid := by rw [htasks, Function.update_self]
  have hother : ∀ v, v ≠ w →
      Pool.task { p with tids := Function.update p.tids w p.exit.tid, exit := e } v = p.task v := by
    intro v hv
    rw [htasks, Function.update_of_ne hv]
  constructor
  · exact h.list
  · exact h.held
  · intro v hv
    obtain ⟨hv', hvtask, hvpc, hvpush⟩ := h.listed v hv
    have hne : v ≠ w := by
      rintro rfl
      exact hvpc hpc
    exact ⟨hv', (hother v hne).trans hvtask, hpc' v, hvpush⟩
  · intro v hv
    exact absurd hv (hpc' v)
  · intro v hv ht
    by_cases hvw : v = w
    · subst hvw
      simp [hself] at ht
    · rw [hother v hvw] at ht
      rcases h.free v hv ht with hin | hassign | hpush
      · exact .inl hin
      · exact absurd (PipePc.assign.inj (hpc.symm.trans hassign)).symm hvw
      · exact .inr (.inr hpush)
  · intro v t ht
    rw [htid]
    by_cases hvw : v = w
    · subst hvw
      obtain rfl : p.exit.tid = t := by simpa [hself] using ht
      exact ⟨hlt, Nat.lt_succ_self _⟩
    · rw [hother v hvw] at ht
      exact ⟨(h.busy v t ht).1, (h.busy v t ht).2.trans (Nat.lt_succ_self _)⟩
  · intro v
    rw [htid]
    exact (h.last v).trans (Nat.lt_succ_self _)
  · intro v hv hv'
    have hvw : v ≠ w := by
      rintro rfl
      exact hv hwait
    simpa [hvw] using h.current v hv hv'
  · exact h.pushing

theorem Pool.Wf.giveTop (h : p.Wf nWorkers) (hidle : p.task w = none) :
    Pool.Wf nWorkers { p with tids := Function.update p.tids w ⊤ } := by
  have htask : ∀ v, Pool.task { p with tids := Function.update p.tids w ⊤ } v = p.task v := by
    intro v
    by_cases hvw : v = w
    · subst hvw
      rw [hidle]
      rcases Worker.pc_of_task_none hidle with hpc | hpc | hpc <;>
        simp [Pool.task, Worker.task, hpc]
    · simp [Pool.task, hvw]
  constructor
  · exact h.list
  · exact h.held
  · simpa only [htask] using h.listed
  · simpa only [htask] using h.popped
  · simpa only [htask] using h.free
  · simpa only [htask] using h.busy
  · exact h.last
  · intro v hv hv'
    by_cases hvw : v = w
    · subst hvw
      simp
    · simpa [hvw] using h.current v hv hv'
  · exact h.pushing

theorem Pool.Wf.workerMove (h : p.Wf nWorkers) {v : Worker}
    (htask : v.task (p.tids w) = p.task w) (hlast : v.lastTid = (p.workers w).lastTid)
    (hpc : (p.workers w).pc ≠ .push) (hpc' : v.pc ≠ .push)
    (hwait : p.exit.pc = .assign w → v.pc = .waitTid)
    (hcurrent : v.pc ≠ .waitTid → v.pc ≠ .finished → p.tids w = ⊤ ∨ p.tids w = some v.tid) :
    Pool.Wf nWorkers { p with workers := Function.update p.workers w v } := by
  have htasks : ∀ u, Pool.task { p with workers := Function.update p.workers w v } u = p.task u := by
    intro u
    by_cases huw : u = w
    · subst huw
      simpa [Pool.task] using htask
    · simp [Pool.task, huw]
  have hpush : ∀ u, (Function.update p.workers w v u).pc = .push ↔ (p.workers u).pc = .push := by
    intro u
    by_cases huw : u = w
    · subst huw
      simp [hpc, hpc']
    · simp [huw]
  constructor
  · exact h.list
  · simpa only [hpush] using h.held
  · simpa only [htasks, hpush] using h.listed
  · intro u hu
    obtain ⟨hlt, hu', ht⟩ := h.popped u hu
    refine ⟨hlt, ?_, (htasks u).trans ht⟩
    by_cases huw : u = w
    · subst huw
      simpa using hwait hu
    · simpa [huw] using hu'
  · simpa only [htasks, hpush] using h.free
  · simpa only [htasks] using h.busy
  · intro u
    by_cases huw : u = w
    · subst huw
      simpa [hlast] using h.last u
    · simpa [huw] using h.last u
  · intro u hu hu'
    by_cases huw : u = w
    · subst huw
      simp only [Function.update_self] at hu hu' ⊢
      exact hcurrent hu hu'
    · simp only [Function.update_of_ne huw] at hu hu' ⊢
      exact h.current u hu hu'
  · intro u hu
    have huw : u ≠ w := by
      rintro rfl
      exact hpc ((hpush u).1 hu)
    simpa only [Function.update_of_ne huw] using h.pushing u ((hpush u).1 hu)

theorem Pool.Wf.finish (h : p.Wf nWorkers) {t : Nat} (ht : p.task w = some t)
    (hpc : (p.workers w).pc = .finish) {v : Worker} (hpc' : v.pc = .push) (hlast : v.lastTid = t)
    (htid : v.tid = t) : Pool.Wf nWorkers { p with workers := Function.update p.workers w v } := by
  have htw : (p.workers w).tid = t := by simpa [Pool.task, Worker.task, hpc] using ht
  have hself : Pool.task { p with workers := Function.update p.workers w v } w = none := by
    simp [Pool.task, Worker.task, hpc']
  have hother : ∀ u, u ≠ w →
      Pool.task { p with workers := Function.update p.workers w v } u = p.task u := by
    intro u hu
    simp [Pool.task, hu]
  have hnot : ∀ u, p.task u = none → u ≠ w := by
    rintro u hu rfl
    simp [ht] at hu
  constructor
  · exact h.list
  · intro u x hx
    obtain ⟨hx', hlt, hu⟩ := h.held u x hx
    have huw : u ≠ w := by
      rintro rfl
      simp [hpc] at hu
    simpa [huw] using ⟨hx', hlt, hu⟩
  · intro u hu
    have hlist := h.listed u hu
    have huw := hnot u hlist.2.1
    simpa [hother u huw, huw] using hlist
  · intro u hu
    have hpop := h.popped u hu
    have huw := hnot u hpop.2.2
    simpa [hother u huw, huw] using hpop
  · intro u hlt hu
    by_cases huw : u = w
    · subst huw
      simp [hpc']
    · rw [hother u huw] at hu
      simpa [huw] using h.free u hlt hu
  · intro u t' ht'
    have huw : u ≠ w := by
      rintro rfl
      simp [hself] at ht'
    rw [hother u huw] at ht'
    exact h.busy u t' ht'
  · intro u
    by_cases huw : u = w
    · subst huw
      simpa [hlast] using (h.busy u t ht).2
    · simpa [huw] using h.last u
  · intro u hu hu'
    by_cases huw : u = w
    · subst huw
      simpa [htid, htw] using h.current u (by simp [hpc]) (by simp [hpc])
    · simp only [Function.update_of_ne huw] at hu hu' ⊢
      exact h.current u hu hu'
  · intro u hu
    by_cases huw : u = w
    · subst huw
      simp [hlast, htid]
    · simp only [Function.update_of_ne huw] at hu ⊢
      exact h.pushing u hu

theorem Pool.task_of_push (hpc : (p.workers w).pc = .push) : p.task w = none := by
  simp [Pool.task, Worker.task, hpc]

section Push

variable (h : p.Wf nWorkers) (hw : w < nWorkers) (hpc : (p.workers w).pc = .push)
include h hw hpc

theorem Pool.Wf.clearNext (hp : p.available.pushes (some w) = .idle) :
    Pool.Wf nWorkers { p with available := MpscList.clearNext p.available (some w) (.item w) } := by
  obtain ⟨L, hL⟩ := inv_of_reachable h.list
  have hnot : ¬ InList p.available w := by
    intro hin
    obtain ⟨prev, x, hx⟩ := (h.listed w hin).2.2.2 hpc
    simp [hp] at hx
  have hheld : ∀ t, (p.available.pushes t).holds ≠ some (.item w) := by
    rintro (_ | v) hv
    · have := hL.owned.consumer _ hv
      simp at this
    · obtain ⟨hvw, -⟩ := h.held v _ hv
      obtain rfl := Node.item.inj hvw
      simp [hp, Push.holds] at hv
  constructor
  · exact h.list.next (.producer w) (.clear _ w w hp hnot hheld)
  · intro v x hx
    by_cases hvw : v = w
    · subst hvw
      have hx' : Node.item v = x := by simpa [MpscList.clearNext, Push.holds] using hx
      exact ⟨hx'.symm, hw, hpc⟩
    · rw [MpscList.clearNext] at hx
      simp only [Function.update_of_ne (by simpa using hvw : some v ≠ some w)] at hx
      exact h.held v x hx
  · intro v hv
    have hin : InList p.available v := hv
    have hvw : v ≠ w := by
      rintro rfl
      exact hnot hin
    simpa [MpscList.clearNext, hvw, Pool.task] using h.listed v hin
  · exact h.popped
  · exact h.free
  · exact h.busy
  · exact h.last
  · exact h.current
  · exact h.pushing

theorem Pool.Wf.exchange {item : Node Nat} (hp : p.available.pushes (some w) = .exchanging item) :
    Pool.Wf nWorkers { p with available := MpscList.exchange p.available (some w) item } := by
  obtain ⟨L, hL⟩ := inv_of_reachable h.list
  obtain ⟨rfl, -⟩ := h.held w item (by rw [hp]; rfl)
  have htask := Pool.task_of_push hpc
  constructor
  · exact h.list.next (.producer w) (.exchange _ w _ hp)
  · intro v x hx
    by_cases hvw : v = w
    · subst hvw
      have hx' : Node.item v = x := by simpa [MpscList.exchange, Push.holds] using hx
      exact ⟨hx'.symm, hw, hpc⟩
    · rw [MpscList.exchange] at hx
      simp only [Function.update_of_ne (by simpa using hvw : some v ≠ some w)] at hx
      exact h.held v x hx
  · intro v hv
    by_cases hvw : v = w
    · subst hvw
      refine ⟨hw, htask, ?_, fun _ => ⟨p.available.head, .item v, by simp [MpscList.exchange]⟩⟩
      intro hassign
      simp [(h.popped v hassign).2.1] at hpc
    · have hin := ((hL.exchange_inList hp).1 hv).resolve_right hvw
      simpa [MpscList.exchange, hvw, Pool.task] using h.listed v hin
  · exact h.popped
  · intro v hv ht
    exact (h.free v hv ht).imp_left fun hin => (hL.exchange_inList hp).2 (.inl hin)
  · exact h.busy
  · exact h.last
  · exact h.current
  · exact h.pushing

theorem Pool.Wf.link {prev item : Node Nat} (hp : p.available.pushes (some w) = .linking prev item)
    {v : Worker} (hpc' : v.pc = .waitTid) (hlast : v.lastTid = (p.workers w).lastTid) :
    Pool.Wf nWorkers { p with
      available := MpscList.link p.available (some w) prev item
      workers := Function.update p.workers w v } := by
  obtain ⟨L, hL⟩ := inv_of_reachable h.list
  obtain ⟨rfl, -⟩ := h.held w item (by rw [hp]; rfl)
  have hin : InList p.available w := (hL.inList_iff w).2 (hL.chain.linking _ _ _ hp).right
  have htask : ∀ u, Pool.task { p with
      available := MpscList.link p.available (some w) prev (.item w)
      workers := Function.update p.workers w v } u = p.task u := by
    intro u
    by_cases huw : u = w
    · subst huw
      rw [Pool.task_of_push hpc]
      rcases h.current u (by simp [hpc]) (by simp [hpc]) with htop | hsome
      · simp [Pool.task, Worker.task, hpc', htop]
      · simp [Pool.task, Worker.task, hpc', hsome, hlast, h.pushing u hpc]
    · simp [Pool.task, huw]
  have hnot : ∀ u, p.exit.pc = .assign u → u ≠ w := by
    rintro u hu rfl
    exact (h.listed u hin).2.2.1 hu
  constructor
  · exact h.list.next (.producer w) (.link _ w _ _ hp)
  · intro u x hx
    have huw : u ≠ w := by
      rintro rfl
      simp [MpscList.link, Push.holds] at hx
    rw [MpscList.link] at hx
    simp only [Function.update_of_ne (by simpa using huw : some u ≠ some w)] at hx
    simpa [huw] using h.held u x hx
  · intro u hu
    have hu' : InList p.available u := hu
    obtain ⟨hlt, ht, hassign, hpush⟩ := h.listed u hu'
    refine ⟨hlt, (htask u).trans ht, hassign, ?_⟩
    intro hupc
    have huw : u ≠ w := by
      rintro rfl
      simp [hpc'] at hupc
    simp only [Function.update_of_ne huw] at hupc
    simpa [MpscList.link, huw] using hpush hupc
  · intro u hu
    obtain ⟨hlt, hupc, ht⟩ := h.popped u hu
    exact ⟨hlt, by simpa [hnot u hu] using hupc, (htask u).trans ht⟩
  · intro u hu ht
    by_cases huw : u = w
    · subst huw
      exact .inl hin
    · rw [htask u] at ht
      simp only [Function.update_of_ne huw]
      exact h.free u hu ht
  · intro u t ht
    rw [htask u] at ht
    exact h.busy u t ht
  · intro u
    by_cases huw : u = w
    · subst huw
      simpa [hlast] using h.last u
    · simpa [huw] using h.last u
  · intro u hu hu'
    have huw : u ≠ w := by
      rintro rfl
      simp [hpc'] at hu
    simp only [Function.update_of_ne huw] at hu hu' ⊢
    exact h.current u hu hu'
  · intro u hu
    have huw : u ≠ w := by
      rintro rfl
      simp [hpc'] at hu
    simp only [Function.update_of_ne huw] at hu ⊢
    exact h.pushing u hu

end Push

end Moves

section Steps

variable {ρ μ : Type} {K : Config ρ μ} {s : State ρ μ}

theorem Pool.Wf.setPipe (h : (s.pool K).Wf K.nWorkers) {pid : Nat} {p : Pipe}
    (hpc : ∀ w, (s.pipes pid).pc ≠ .assign w) (hpc' : ∀ w, p.pc ≠ .assign w)
    (htid : (s.pipes pid).tid ≤ p.tid) : ((s.setPipe pid p).pool K).Wf K.nWorkers := by
  by_cases hpid : pid = K.nPipes
  · subst hpid
    have hmove := h.exitMove hpc hpc' htid
    simpa [State.pool, State.setPipe] using hmove
  · simpa [State.pool, State.setPipe, Ne.symm hpid] using h

theorem afterPop_eq (w : Nat) :
    afterPop s = .assign w ↔ MpscList.popped s.available = some (.item w) := by
  unfold afterPop
  split
  · rename_i wid hwid
    simp [hwid]
  · rename_i hnone
    simpa using hnone w

theorem iterExec_ne_assign (ctx : Context ρ) (w : Nat) : iterExec ctx ≠ .assign w := by
  unfold iterExec
  split
  · simp
  · split <;> simp

theorem pipeStart_ne_assign (pid : Nat) (p : Pipe) (w : Nat) :
    (pipeStart K s pid p).pc ≠ .assign w := by
  have hiter := iterExec_ne_assign (s.ctx p.tid) w
  unfold pipeStart
  dsimp only
  repeat' split
  all_goals first | exact hiter | simp

theorem pipeStart_tid (pid : Nat) (p : Pipe) : (pipeStart K s pid p).tid = p.tid := by
  unfold pipeStart
  dsimp only
  repeat' split
  all_goals rfl

theorem Pool.Wf.pipeStep (h : (s.pool K).Wf K.nWorkers) (horder : Order K.nPipes s.counters)
    (hclosing : Closing K s) {pid : Nat} (hpid : pid ≤ K.nPipes) :
    ((pipeStep K pid s).pool K).Wf K.nWorkers := by
  have hkind := horder.kinds pid hpid
  cases hpc : (s.pipes pid).pc <;> simp only [Concow.pipeStep, hpc] <;>
    simp only [State.counters, hpc, PipePc.OfKind] at hkind
  case pop =>
      subst hkind
      have hrunning : ∀ w, (s.workers w).pc ≠ .finished := by
        intro w hw
        simp [hclosing.pipes (hclosing.workers w (.inr hw)) _ le_rfl] at hpc
      have hconsume := h.consume (e := { s.pipes K.nPipes with pc := afterPop s })
        (by simp [State.pool, hpc]) afterPop_eq rfl hrunning
      simpa [State.pool, State.setPipe] using hconsume
  case assign wid =>
      subst hkind
      have hassign := h.assign (e := { s.pipes K.nPipes with
        pc := .loop, tid := (s.pipes K.nPipes).tid + 1 }) hpc (by simp) rfl
      simpa [State.pool, State.setPipe] using hassign
  case loop =>
      split
      · exact h.setPipe (by simp [hpc]) (by simp) le_rfl
      · split <;> exact h.setPipe (by simp [hpc]) (by simp) le_rfl
  case start => exact h.setPipe (by simp [hpc]) (pipeStart_ne_assign _ _) (pipeStart_tid _ _).ge
  case retry =>
      refine h.setPipe (by simp [hpc]) ?_ le_rfl
      intro w
      split
      · exact iterExec_ne_assign _ w
      · simp
  case testStop =>
      have hepoch := (horder.pipes pid hpid).epoch (.inl hpc)
      split
      · exact h.setPipe (by simp [hpc]) (by simp) le_rfl
      · exact h.setPipe (by simp [hpc]) (by simp) hepoch.le
  case loadTasks =>
      have hepoch := (horder.pipes pid hpid).epoch (.inr hpc)
      exact h.setPipe (by simp [hpc]) (by simp) hepoch.le
  case wait => split <;> exact h.setPipe (by simp [hpc]) (by simp) le_rfl
  case cpVersion =>
      split
      · exact h
      · exact h.setPipe (by simp [hpc]) (by simp) le_rfl
  case version =>
      split
      · exact h
      · exact h.setPipe (by simp [hpc]) (by simp) le_rfl
  case finished => exact h
  case advance => exact h.setPipe (by simp [hpc]) (by simp) (Nat.le_succ _)
  case markDone => exact h.setPipe (by simp [hpc]) (by simp) (Nat.le_succ _)
  all_goals exact h.setPipe (by simp [hpc]) (by simp) le_rfl

theorem workerExec_cases (ctx : Context ρ) :
    workerExec ctx = .version ∨ workerExec ctx = .waitStage := by
  unfold workerExec
  split
  · exact .inl rfl
  · exact .inr rfl

theorem Pool.Wf.workerBusy (h : (s.pool K).Wf K.nWorkers) {wid : Nat} {w : Worker}
    (hwait : (s.workers wid).pc ≠ .waitTid)
    (htask : (s.workers wid).task (s.tids wid) = some (s.workers wid).tid)
    (htask' : w.task (s.tids wid) = some (s.workers wid).tid)
    (htid : w.tid = (s.workers wid).tid)
    (hlast : w.lastTid = (s.workers wid).lastTid) : ((s.setWorker wid w).pool K).Wf K.nWorkers := by
  have hnot : ∀ v : Worker, v.task (s.tids wid) = some (s.workers wid).tid →
      v.pc ≠ .push ∧ v.pc ≠ .finished := by
    intro v hv
    constructor <;> intro hv' <;> simp [Worker.task, hv'] at hv
  refine h.workerMove (htask'.trans htask.symm) hlast (hnot _ htask).1 (hnot _ htask').1 ?_ ?_
  · intro hassign
    exact absurd (h.popped wid hassign).2.1 hwait
  · intro _ _
    rw [htid]
    exact h.current wid hwait (hnot _ htask).2

theorem Pool.Wf.workerStep (h : (s.pool K).Wf K.nWorkers) (hclosing : Closing K s) {wid : Nat}
    (hwid : wid < K.nWorkers) : ((workerStep K wid s).pool K).Wf K.nWorkers := by
  cases hpc : (s.workers wid).pc <;> simp only [Concow.workerStep, hpc]
  case waitTid =>
      split
      · rename_i htop
        have hexit := hclosing.pipes (hclosing.workers wid (.inl htop)) _ le_rfl
        refine h.workerMove ?_ rfl ?_ ?_ ?_ ?_
        · simp [Pool.task, State.pool, Worker.task, hpc, htop]
        · simp [State.pool, hpc]
        · simp
        · intro hassign
          simp [State.pool, hexit] at hassign
        · simp
      · rename_i t ht
        split
        · exact h
        · rename_i hne
          have htask : (s.pool K).task wid = some t := by
            simp [Pool.task, State.pool, Worker.task, hpc, ht, hne]
          refine h.workerMove ?_ rfl ?_ ?_ ?_ ?_
          · rw [htask]
            rfl
          · simp [State.pool, hpc]
          · simp
          · intro hassign
            simp [(h.popped wid hassign).2.2] at htask
          · intro _ _
            exact .inr ht
  case push =>
      split
      · exact h.clearNext hwid hpc ‹_›
      · exact h.exchange hwid hpc ‹_›
      · exact h.link hwid hpc ‹_› rfl rfl
  case finish =>
      have htask : (s.pool K).task wid = some (s.workers wid).tid := by
        simp [Pool.task, State.pool, Worker.task, hpc]
      exact h.finish htask hpc rfl rfl rfl
  case finished => exact h
  case test =>
      refine h.workerBusy (by simp [hpc]) (by simp [Worker.task, hpc]) ?_ rfl rfl
      split
      · rfl
      · rcases workerExec_cases (s.ctx (s.workers wid).tid) with hexec | hexec <;> rw [hexec] <;> rfl
  case retry =>
      refine h.workerBusy (by simp [hpc]) (by simp [Worker.task, hpc]) ?_ rfl rfl
      split
      · rcases workerExec_cases (s.ctx (s.workers wid).tid) with hexec | hexec <;> rw [hexec] <;> rfl
      · rfl
  case version =>
      split
      · exact h
      · exact h.workerBusy (by simp [hpc]) (by simp [Worker.task, hpc]) rfl rfl rfl
  case waitStage =>
      split
      · split
        · exact h.workerBusy (by simp [hpc]) (by simp [Worker.task, hpc]) rfl rfl rfl
        · exact h.workerBusy (by simp [hpc]) (by simp [Worker.task, hpc]) rfl rfl rfl
      · exact h.workerBusy (by simp [hpc]) (by simp [Worker.task, hpc]) rfl rfl rfl
  case reload => exact h.workerBusy (by simp [hpc]) (by simp [Worker.task, hpc]) rfl rfl rfl
  case handle => exact h.workerBusy (by simp [hpc]) (by simp [Worker.task, hpc]) rfl rfl rfl
  case storeStage => exact h.workerBusy (by simp [hpc]) (by simp [Worker.task, hpc]) rfl rfl rfl

/-- The hand-over to the workers is kept by every step of a thread; the
destructor has to find all workers idle. -/
theorem Pool.Wf.step (h : (s.pool K).Wf K.nWorkers) (horder : Order K.nPipes s.counters)
    (hclosing : Closing K s)
    (hidle : s.destructor.pastPipes = true → ∀ w, (s.pool K).task w = none) {θ : Thread}
    (hθ : θ.Runs K) : ((step K θ s).pool K).Wf K.nWorkers := by
  cases θ with
  | client c =>
      rw [Concow.step, clientStep_writes]
      exact h
  | monitor =>
      rw [Concow.step, monitorStep_writes]
      exact h
  | pipe pid => exact h.pipeStep horder hclosing hθ
  | worker wid => exact h.workerStep hclosing hθ
  | destructor =>
      simp only [Concow.step]
      unfold destructorStep
      split
      case h_5 wid hd =>
          split
          · exact h
          · exact h.giveTop (hidle (by rw [hd]; rfl) wid)
      all_goals first | exact h | (split <;> first | exact h | (split <;> exact h))

theorem initialList_history (n : Nat) : (initialList n).returned = [] ∧
    (initialList n).exchanged = (List.range n).map .item ∧
    ∀ t, (initialList n).pushes t = .idle := by
  induction n with
  | zero => exact ⟨rfl, rfl, fun _ => rfl⟩
  | succ n ih =>
      obtain ⟨hreturned, hexchanged, hidle⟩ := ih
      refine ⟨hreturned, ?_, ?_⟩
      · simp [initialList, MpscList.push, MpscList.link, MpscList.exchange, MpscList.clearNext,
          hexchanged, List.range_succ]
      · intro t
        by_cases ht : t = some n
        · simp [initialList, MpscList.push, MpscList.link, ht]
        · simp [initialList, MpscList.push, MpscList.link, MpscList.exchange, MpscList.clearNext,
            ht, hidle]

theorem initialList_inList (n w : Nat) : InList (initialList n) w ↔ w < n := by
  obtain ⟨hreturned, hexchanged, -⟩ := initialList_history n
  rw [InList, hreturned, hexchanged, List.count_nil, List.count_pos_iff]
  simp

theorem initialList_reachable (n : Nat) :
    Reachable MpscList.Step MpscList.initial (initialList n) := by
  induction n with
  | zero => exact Reachable.start
  | succ n ih =>
      obtain ⟨-, -, hidle⟩ := initialList_history n
      refine push_reachable ih (hidle _) ?_ ?_
      · rw [initialList_inList]
        exact lt_irrefl n
      · intro t
        simp [hidle, Push.holds]

theorem Pool.Wf.initial : ((initial K).pool K).Wf K.nWorkers := by
  have hidle := (initialList_history K.nWorkers).2.2
  constructor
  · exact initialList_reachable _
  · intro w x hx
    simp [State.pool, Concow.initial, hidle, Push.holds] at hx
  · intro w hw
    have hlt := (initialList_inList _ _).1 hw
    simpa [State.pool, Concow.initial, Pool.task, Worker.task] using hlt
  · intro w hw
    simp [State.pool, Concow.initial] at hw
  · intro w hw _
    exact .inl ((initialList_inList _ _).2 hw)
  · intro w t ht
    simp [State.pool, Concow.initial, Pool.task, Worker.task] at ht
  · simp [State.pool, Concow.initial]
  · simp [State.pool, Concow.initial]
  · simp [State.pool, Concow.initial]

end Steps

end Contrees.Conctrl.Concow
