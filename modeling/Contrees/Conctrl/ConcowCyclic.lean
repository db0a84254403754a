import Contrees.Library.CyclicPipeline
import Contrees.Library.Runs
import Contrees.Conctrl.Common
import Mathlib.Tactic.Ring

namespace Contrees.Conctrl.ConcowCyclic

open Library Library.Runs

variable {ρ : Type}

inductive Kind
  | entry | inner | exit
deriving DecidableEq

def process (N pid index : Nat) : Kind :=
  if pid = index then .entry else if (pid + 1) % N = index then .exit else .inner

def batchSize (N : Nat) : Nat := bufferSize / 32 * N

inductive Pc
  | test | loop | wait | readPast | handle | advance
deriving DecidableEq

/-- The locals of a pipe thread: its epoch, the `tid` of its loop, the index in
the round and the two caches. -/
structure Pipe where
  pc : Pc
  epoch : Nat
  base : Nat
  index : Nat
  nTasks : Nat
  predPace : Nat

def Pipe.tid (p : Pipe) : Nat := p.base + p.index

structure Context (ρ : Type) where
  root : ρ
  tPast : ρ

inductive Call
  | start (kind : Kind) (pid tid : Nat)
  | finish (pid tid : Nat)
deriving DecidableEq

/-- `log` and `reads` are history: the calls of the `process_` functions, each
from the end of its wait, and the roots that the entries read. -/
structure State (ρ : Type) where
  nInited : Nat
  paces : Nat → Nat
  pipes : Nat → Pipe
  ctxs : Nat → Context ρ
  log : List Call
  reads : List (Nat × ρ)

def initial (tInit null : ρ) : State ρ where
  nInited := 0
  paces := fun _ => 0
  pipes := fun _ => ⟨.test, 0, 0, 0, 0, 0⟩
  ctxs := fun slot => ⟨if slot = 0 then tInit else null, null⟩
  log := []
  reads := []

def setPipe (s : State ρ) (pid : Nat) (p : Pipe) : State ρ :=
  { s with pipes := Function.update s.pipes pid p }

def enter (N : Nat) (s : State ρ) (pid : Nat) (pc : Pc) : State ρ :=
  let p := s.pipes pid
  { setPipe s pid { p with pc := pc } with
    log := s.log ++ [.start (process N pid p.index) pid p.tid] }

def leave (N : Nat) (s : State ρ) (pid : Nat) : State ρ :=
  let p := s.pipes pid
  let p' := if p.index + 1 < N then { p with pc := .wait, index := p.index + 1 }
    else { p with pc := .loop, base := p.base + N }
  { setPipe s pid p' with log := s.log ++ [.finish pid p.tid] }

/-- One atomic step of `pipe_main_<PID>` before shutdown; `init tid tPast` is
the root that the first handler leaves in the context of `tid`. -/
def pipeStep (init : Nat → ρ → ρ) (N pid : Nat) (s : State ρ) : State ρ :=
  let p := s.pipes pid
  let pos := p.tid % bufferSize
  match p.pc with
  | .test => setPipe s pid { p with pc := .loop, base := p.epoch * batchSize N + 1 }
  | .loop =>
      if p.base ≤ (p.epoch + 1) * batchSize N then setPipe s pid { p with pc := .wait, index := 0 }
      else setPipe s pid { p with pc := .test, epoch := p.epoch + 1 }
  | .wait =>
      if process N pid p.index = .entry then
        if p.nTasks < p.tid then setPipe s pid { p with nTasks := s.nInited }
        else enter N s pid .readPast
      else
        if p.predPace < p.tid then setPipe s pid { p with predPace := s.paces pid }
        else enter N s pid .handle
  | .readPast =>
      let past := (s.ctxs ((p.tid - 1) % bufferSize)).root
      { setPipe s pid { p with pc := .handle } with
        ctxs := Function.update s.ctxs pos { s.ctxs pos with tPast := past }
        reads := s.reads ++ [(p.tid, past)] }
  | .handle =>
      match process N pid p.index with
      | .entry =>
          let ctx := s.ctxs pos
          { setPipe s pid { p with pc := .advance } with
            ctxs := Function.update s.ctxs pos { ctx with root := init p.tid ctx.tPast } }
      | .inner => setPipe s pid { p with pc := .advance }
      | .exit => leave N s pid
  | .advance => leave N { s with paces := Function.update s.paces ((pid + 1) % N) p.tid } pid

inductive Actor
  | monitor
  | pipe (pid : Nat)

inductive Step (init : Nat → ρ → ρ) (N : Nat) : Actor → State ρ → State ρ → Prop
  | monitor (s) (n : Nat) (hn : s.nInited ≤ n) : Step init N .monitor s { s with nInited := n }
  | pipe (s) (pid : Nat) (hpid : pid < N) : Step init N (.pipe pid) s (pipeStep init N pid s)

def roots (init : Nat → ρ → ρ) (tInit : ρ) : Nat → ρ
  | 0 => tInit
  | tid + 1 => init (tid + 1) (roots init tInit tid)

def stageKind (N stage : Nat) : Kind :=
  if stage = 0 then .entry else if stage + 1 = N then .exit else .inner

def Call.event : Call → CyclicPipeline.Event
  | .start _ pid tid => .start pid tid
  | .finish pid tid => .finish pid tid

def Pipe.done (N : Nat) (p : Pipe) : Nat :=
  match p.pc with
  | .test => p.epoch * batchSize N
  | .loop => p.base - 1
  | .wait | .readPast | .handle | .advance => p.tid - 1

def Pipe.running (p : Pipe) : Bool :=
  match p.pc with
  | .test | .loop | .wait => false
  | .readPast | .handle | .advance => true

/-- The threads as the workers of a cyclic pipeline. -/
def view (N : Nat) (s : State ρ) : CyclicPipeline.State where
  done := fun i => (s.pipes i).done N
  running := fun i => (s.pipes i).running
  log := s.log.map Call.event

/-- The loop variable is the first tid of a round of the epoch, or one behind. -/
def Pipe.InBatch (N : Nat) (p : Pipe) : Prop :=
  ∃ r ≤ bufferSize / 32, p.base = p.epoch * batchSize N + r * N + 1

def Pipe.InRound (N : Nat) (p : Pipe) : Prop :=
  p.index < N ∧ ∃ r < bufferSize / 32, p.base = p.epoch * batchSize N + r * N + 1

def Pipe.Wf (N pid : Nat) (p : Pipe) : Prop :=
  match p.pc with
  | .test => True
  | .loop => p.InBatch N
  | .wait | .handle => p.InRound N
  | .readPast => p.InRound N ∧ process N pid p.index = .entry
  | .advance => p.InRound N ∧ process N pid p.index ≠ .exit

section Pipes

variable {N pid : Nat} {p : Pipe}

theorem Pipe.InRound.index_eq (h : p.InRound N) : (p.tid - 1) % N = p.index := by
  obtain ⟨hlt, r, -, hbase⟩ := h
  have hsum : p.tid - 1 = p.index + N * (p.epoch * (bufferSize / 32) + r) := by
    rw [Pipe.tid, hbase, batchSize]
    ring_nf
    omega
  rw [hsum, Nat.add_mul_mod_self_left, Nat.mod_eq_of_lt hlt]

theorem Pipe.InRound.tid_pos (h : p.InRound N) : 1 ≤ p.tid := by
  obtain ⟨-, r, -, hbase⟩ := h
  rw [Pipe.tid, hbase]
  omega

theorem Pipe.InRound.with_pc (h : p.InRound N) (pc : Pc) : { p with pc := pc }.InRound N := h

theorem Pipe.InRound.done_add_one (h : p.InRound N) (hpc : p.pc ≠ .test) (hpc' : p.pc ≠ .loop) :
    p.done N + 1 = p.tid := by
  have := h.tid_pos
  unfold Pipe.done
  split <;> first | contradiction | omega

theorem Pipe.InRound.left (h : p.InRound N) (pid : Nat) {p' : Pipe} (hp' : p' = if p.index + 1 < N then
      { p with pc := .wait, index := p.index + 1 } else { p with pc := .loop, base := p.base + N }) :
    p'.done N = p.tid ∧ p'.running = false ∧ p'.Wf N pid ∧ p'.predPace = p.predPace := by
  obtain ⟨hlt, r, hr, hbase⟩ := h
  subst hp'
  by_cases hlast : p.index + 1 < N
  · rw [if_pos hlast]
    exact ⟨by simp [Pipe.done, Pipe.tid, ← Nat.add_assoc], rfl, ⟨hlast, r, hr, hbase⟩, rfl⟩
  · rw [if_neg hlast]
    refine ⟨by simp [Pipe.done, Pipe.tid]; omega, rfl, ⟨r + 1, hr, ?_⟩, rfl⟩
    simp only [hbase]
    ring

theorem Pipe.InBatch.next_round (h : p.InBatch N) (hN : 0 < N)
    (hle : p.base ≤ (p.epoch + 1) * batchSize N) : { p with pc := .wait, index := 0 }.InRound N := by
  obtain ⟨r, hr, hbase⟩ := h
  refine ⟨hN, r, ?_, hbase⟩
  rw [hbase, Nat.succ_mul, batchSize, Nat.add_assoc, Nat.add_le_add_iff_left,
    ← Nat.lt_iff_add_one_le] at hle
  exact Nat.lt_of_mul_lt_mul_right hle

theorem Pipe.InBatch.next_epoch (h : p.InBatch N) (hlt : ¬ p.base ≤ (p.epoch + 1) * batchSize N) :
    p.base - 1 = (p.epoch + 1) * batchSize N := by
  obtain ⟨r, hr, hbase⟩ := h
  have := Nat.mul_le_mul_right N hr
  rw [Nat.succ_mul] at hlt ⊢
  rw [hbase] at hlt ⊢
  simp only [batchSize] at hlt ⊢
  omega

theorem process_eq (hpid : pid < N) {tid index : Nat} (hindex : (tid - 1) % N = index) :
    process N pid index = stageKind N (CyclicPipeline.stage N pid tid) := by
  have hlt : index < N := hindex ▸ Nat.mod_lt _ (by omega)
  unfold process stageKind CyclicPipeline.stage
  rw [hindex]
  rcases Nat.lt_or_ge pid index with hle | hle
  · rw [Nat.mod_eq_of_lt (by omega : pid + N - index < N), Nat.mod_eq_of_lt (by omega)]
    simp only [show ¬ pid = index by omega, show ¬ pid + N - index = 0 by omega, if_false]
    exact if_congr (by omega) rfl rfl
  · rw [show pid + N - index = pid - index + N by omega, Nat.add_mod_right,
      Nat.mod_eq_of_lt (by omega : pid - index < N)]
    apply if_congr (by omega) rfl
    apply if_congr _ rfl rfl
    by_cases hlast : pid + 1 = N
    · rw [hlast, Nat.mod_self]
      omega
    · rw [Nat.mod_eq_of_lt (by omega)]
      omega

theorem process_entry_iff_stage (hpid : pid < N) {tid index : Nat} (hindex : (tid - 1) % N = index) :
    process N pid index = .entry ↔ CyclicPipeline.stage N pid tid = 0 := by
  rw [process_eq hpid hindex, stageKind]
  split
  · simp_all
  · split <;> simp_all

theorem stage_of_exit (hpid : pid < N) {tid index : Nat} (hindex : (tid - 1) % N = index)
    (hexit : process N pid index = .exit) : CyclicPipeline.stage N pid tid + 1 = N := by
  rw [process_eq hpid hindex, stageKind] at hexit
  split at hexit
  · cases hexit
  · split at hexit
    · assumption
    · cases hexit

end Pipes

/-- The paces and caches of the threads never run ahead of what was processed,
and a pace stays behind only for the exit. -/
structure Inv (N : Nat) (s : State ρ) : Prop where
  wf : ∀ i < N, (s.pipes i).Wf N i
  pace : ∀ i < N, s.paces i ≤ (s.pipes (CyclicPipeline.pred N i)).done N
  published : ∀ i < N, ∀ tid, tid ≤ (s.pipes (CyclicPipeline.pred N i)).done N →
    tid ≤ s.paces i ∨ CyclicPipeline.stage N i tid = 0
  cache : ∀ i < N, (s.pipes i).predPace ≤ s.paces i
  kinds : ∀ kind i tid, .start kind i tid ∈ s.log →
    kind = stageKind N (CyclicPipeline.stage N i tid)
  ring : CyclicPipeline.Inv N (view N s)

section Steps

variable {N : Nat} {s : State ρ} {i : Nat} {p : Pipe}

theorem view_update (log : List Call) :
    view N { setPipe s i p with log := log } =
      { done := Function.update (view N s).done i (p.done N)
        running := Function.update (view N s).running i p.running
        log := log.map Call.event } := by
  have hdone := Function.comp_update (Pipe.done N) s.pipes i p
  have hrunning := Function.comp_update Pipe.running s.pipes i p
  exact congrArg₂ (CyclicPipeline.State.mk · · _) hdone hrunning

def Simulates (N i : Nat) (s s' : State ρ) : Prop :=
  view N s' = view N s ∨ CyclicPipeline.Step N i (view N s) (view N s')

theorem Simulates.done_le {s' : State ρ} (h : Simulates N i s s') (j : Nat) :
    (s.pipes j).done N ≤ (s'.pipes j).done N := by
  rcases h with hsame | hstep
  · exact (congrFun (congrArg CyclicPipeline.State.done hsame) j).ge
  · exact hstep.done_le j

theorem Inv.set (h : Inv N s) (hN : 2 ≤ N) (hi : i < N) {s' : State ρ} {log : List Call}
    (hpipes : s'.pipes = Function.update s.pipes i p) (hlog : s'.log = log)
    (hwf : p.Wf N i)
    (hpaces : ∀ j < N, s'.paces j = s.paces j ∨
      i = CyclicPipeline.pred N j ∧ s'.paces j = p.done N ∧ s.paces j ≤ s'.paces j)
    (hpublished : ∀ j < N, i = CyclicPipeline.pred N j → ∀ tid, (s.pipes i).done N < tid →
      tid ≤ p.done N → tid ≤ s'.paces j ∨ CyclicPipeline.stage N j tid = 0)
    (hcache : p.predPace ≤ s.paces i)
    (hkinds : ∀ kind j tid, .start kind j tid ∈ log →
      .start kind j tid ∈ s.log ∨ kind = stageKind N (CyclicPipeline.stage N j tid))
    (hstep : Simulates N i s { setPipe s i p with log := log }) :
    Inv N s' ∧ Simulates N i s s' := by
  have hsame : view N s' = view N { setPipe s i p with log := log } := by
    simp [view, setPipe, hpipes, hlog]
  have hsimulates : Simulates N i s s' := by
    rw [Simulates, hsame]
    exact hstep
  have hgrow := hsimulates.done_le
  have hpace : ∀ j < N, s.paces j ≤ s'.paces j := by
    intro j hj
    rcases hpaces j hj with hsame | ⟨-, -, hle⟩
    · rw [hsame]
    · exact hle
  refine ⟨⟨?_, ?_, ?_, ?_, ?_, ?_⟩, hsimulates⟩
  · intro j hj
    rw [hpipes]
    by_cases hij : j = i
    · subst hij
      rwa [Function.update_self]
    · rw [Function.update_of_ne hij]
      exact h.wf j hj
  · intro j hj
    rcases hpaces j hj with hsame | ⟨rfl, hnext, -⟩
    · rw [hsame]
      exact (h.pace j hj).trans (hgrow _)
    · rw [hnext, hpipes, Function.update_self]
  · intro j hj tid htid
    by_cases hold : tid ≤ (s.pipes (CyclicPipeline.pred N j)).done N
    · exact (h.published j hj tid hold).imp_left fun hle => hle.trans (hpace j hj)
    · rw [hpipes] at htid
      by_cases hij : CyclicPipeline.pred N j = i
      · rw [hij, Function.update_self] at htid
        rw [hij] at hold
        exact hpublished j hj hij.symm tid (not_le.mp hold) htid
      · rw [Function.update_of_ne hij] at htid
        exact absurd htid hold
  · intro j hj
    rw [hpipes]
    by_cases hij : j = i
    · subst hij
      rw [Function.update_self]
      exact hcache.trans (hpace j hj)
    · rw [Function.update_of_ne hij]
      exact (h.cache j hj).trans (hpace j hj)
  · intro kind j tid hmem
    rw [hlog] at hmem
    exact (hkinds kind j tid hmem).elim (h.kinds kind j tid) id
  · rcases hsimulates with hsame | hstep
    · rw [hsame]
      exact h.ring
    · exact h.ring.step hN hstep

theorem Inv.move (h : Inv N s) (hN : 2 ≤ N) (hi : i < N) {s' : State ρ}
    (hpipes : s'.pipes = Function.update s.pipes i p) (hlog : s'.log = s.log)
    (hpaces : s'.paces = s.paces) (hwf : p.Wf N i) (hdone : p.done N = (s.pipes i).done N)
    (hrunning : p.running = (s.pipes i).running) (hcache : p.predPace ≤ s.paces i) :
    Inv N s' ∧ Simulates N i s s' := by
  apply h.set hN hi hpipes hlog hwf (fun j _ => Or.inl (by rw [hpaces])) ?_ hcache (fun _ _ _ => Or.inl)
  · rw [Simulates, view_update, hdone, hrunning]
    exact Or.inl (congrArg₂ (CyclicPipeline.State.mk · · _) (Function.update_eq_self i _)
      (Function.update_eq_self i _))
  · intro j _ _ tid hlt hle
    omega

theorem Inv.enter (h : Inv N s) (hN : 2 ≤ N) (hi : i < N) (hpc : (s.pipes i).pc = .wait)
    {pc : Pc} (hentry : pc = .readPast ∧ process N i (s.pipes i).index = .entry ∨
      pc = .handle ∧ process N i (s.pipes i).index ≠ .entry ∧
        (s.pipes i).tid ≤ (s.pipes i).predPace) :
    Inv N (enter N s i pc) ∧ Simulates N i s (enter N s i pc) := by
  have hround : (s.pipes i).InRound N := by simpa [Pipe.Wf, hpc] using h.wf i hi
  have htid := hround.done_add_one (by simp [hpc]) (by simp [hpc])
  have hdone : Pipe.done N { s.pipes i with pc := pc } = (s.pipes i).done N := by
    rcases hentry with ⟨rfl, -⟩ | ⟨rfl, -⟩ <;> simp [Pipe.done, hpc, Pipe.tid]
  have hrunning : Pipe.running { s.pipes i with pc := pc } = true := by
    rcases hentry with ⟨rfl, -⟩ | ⟨rfl, -⟩ <;> rfl
  refine h.set (p := { s.pipes i with pc := pc }) hN hi rfl rfl ?_ (fun j _ => Or.inl rfl) ?_
    (h.cache i hi) ?_ (Or.inr ?_)
  · rcases hentry with ⟨rfl, hentry⟩ | ⟨rfl, -⟩
    · exact ⟨hround.with_pc _, hentry⟩
    · exact hround.with_pc _
  · intro j _ _ tid hlt hle
    omega
  · intro kind j tid hmem
    rcases List.mem_append.1 hmem with hmem | hmem
    · exact Or.inl hmem
    · obtain ⟨rfl, rfl, rfl⟩ := Call.start.inj (List.mem_singleton.1 hmem)
      exact Or.inr (process_eq hi hround.index_eq)
  · have hstart : view N (ConcowCyclic.enter N s i pc) =
        CyclicPipeline.start (view N s) i := by
      refine (view_update _).trans ?_
      rw [hdone, hrunning]
      have hupdate : Function.update (view N s).done i ((s.pipes i).done N) =
          (view N s).done :=
        Function.update_eq_self i _
      rw [hupdate, List.map_append, ← htid]
      rfl
    change CyclicPipeline.Step N i (view N s) (view N (ConcowCyclic.enter N s i pc))
    rw [hstart]
    refine .start _ i hi (by simp [view, Pipe.running, hpc]) ?_
    change CyclicPipeline.stage N i ((s.pipes i).done N + 1) = 0 ∨
      (s.pipes i).done N + 1 ≤ (s.pipes (CyclicPipeline.pred N i)).done N
    rw [htid]
    rcases hentry with ⟨-, hentry⟩ | ⟨-, -, hle⟩
    · exact Or.inl ((process_entry_iff_stage hi hround.index_eq).1 hentry)
    · exact Or.inr (hle.trans ((h.cache i hi).trans (h.pace i hi)))

theorem Inv.leave (h : Inv N s) (hN : 2 ≤ N) (hi : i < N) (hround : (s.pipes i).InRound N)
    (hrunning : (s.pipes i).running = true) {paces : Nat → Nat}
    (hpaces : paces = s.paces ∧ process N i (s.pipes i).index = .exit ∨
      paces = Function.update s.paces ((i + 1) % N) (s.pipes i).tid) :
    Inv N (leave N { s with paces := paces } i) ∧
      Simulates N i s (leave N { s with paces := paces } i) := by
  have hpc : (s.pipes i).pc ≠ .test ∧ (s.pipes i).pc ≠ .loop := by
    constructor <;> intro hpc <;> simp [Pipe.running, hpc] at hrunning
  have htid := hround.done_add_one hpc.1 hpc.2
  have hindex := hround.index_eq
  generalize hp : (if (s.pipes i).index + 1 < N then
    { s.pipes i with pc := .wait, index := (s.pipes i).index + 1 }
    else { s.pipes i with pc := .loop, base := (s.pipes i).base + N } : Pipe) = p
  obtain ⟨hdone, hidle, hwf, hpace⟩ := hround.left i hp.symm
  have hstate : ConcowCyclic.leave N { s with paces := paces } i =
      { setPipe { s with paces := paces } i p with
        log := s.log ++ [.finish i (s.pipes i).tid] } := by
    rw [← hp]
    rfl
  rw [hstate]
  refine h.set hN hi rfl rfl hwf ?_ ?_ (hpace ▸ h.cache i hi) ?_ (Or.inr ?_)
  · intro j hj
    rcases hpaces with ⟨rfl, -⟩ | rfl
    · exact Or.inl rfl
    · by_cases hij : j = (i + 1) % N
      · subst hij
        have := h.pace _ hj
        rw [CyclicPipeline.pred_succ hi] at this
        refine Or.inr ⟨(CyclicPipeline.pred_succ hi).symm, ?_, ?_⟩
        · simp [setPipe, hdone]
        · simp only [setPipe, Function.update_self]
          omega
      · exact Or.inl (by simp [setPipe, hij])
  · rintro j hj rfl tid hmore hle
    obtain rfl : tid = (s.pipes (CyclicPipeline.pred N j)).tid := by omega
    rcases hpaces with ⟨-, hexit⟩ | rfl
    · exact Or.inr (CyclicPipeline.stage_of_last hj (stage_of_exit hi hindex hexit))
    · rw [CyclicPipeline.succ_pred hj]
      exact Or.inl (by simp [setPipe])
  · intro kind j tid hmem
    exact Or.inl (by simpa using hmem)
  · have hfinish : view N { setPipe s i p with log := s.log ++ [.finish i (s.pipes i).tid] } =
        CyclicPipeline.finish (view N s) i := by
      rw [view_update, hdone, hidle, ← htid, List.map_append]
      rfl
    rw [hfinish]
    exact .finish _ i hi hrunning

theorem Inv.pipeStep (h : Inv N s) (hN : 2 ≤ N) (init : Nat → ρ → ρ) (hi : i < N) :
    Inv N (pipeStep init N i s) ∧ Simulates N i s (pipeStep init N i s) := by
  have hwf := h.wf i hi
  have hcache := h.cache i hi
  unfold ConcowCyclic.pipeStep
  dsimp only
  cases hpc : (s.pipes i).pc with
  | test =>
      refine h.move hN hi rfl rfl rfl ?_ ?_ ?_ hcache
      · exact ⟨0, Nat.zero_le _, by simp⟩
      · simp [Pipe.done, hpc]
      · simp [Pipe.running, hpc]
  | loop =>
      simp only [Pipe.Wf, hpc] at hwf
      dsimp only
      split
      · rename_i hle
        refine h.move hN hi rfl rfl rfl ?_ ?_ ?_ hcache
        · exact hwf.next_round (by omega) hle
        · simp [Pipe.done, hpc, Pipe.tid]
        · simp [Pipe.running, hpc]
      · rename_i hlt
        refine h.move hN hi rfl rfl rfl trivial ?_ ?_ hcache
        · simp [Pipe.done, hpc, hwf.next_epoch hlt]
        · simp [Pipe.running, hpc]
  | wait =>
      simp only [Pipe.Wf, hpc] at hwf
      by_cases hentry : process N i (s.pipes i).index = .entry
      · simp only [if_pos hentry]
        by_cases hwait : (s.pipes i).nTasks < (s.pipes i).tid
        · rw [if_pos hwait]
          refine h.move hN hi rfl rfl rfl ?_ ?_ ?_ hcache
          · exact hwf
          · simp [Pipe.done, hpc, Pipe.tid]
          · simp [Pipe.running, hpc]
        · rw [if_neg hwait]
          exact h.enter hN hi hpc (Or.inl ⟨rfl, hentry⟩)
      · simp only [if_neg hentry]
        by_cases hwait : (s.pipes i).predPace < (s.pipes i).tid
        · rw [if_pos hwait]
          refine h.move hN hi rfl rfl rfl ?_ ?_ ?_ le_rfl
          · exact hwf
          · simp [Pipe.done, hpc, Pipe.tid]
          · simp [Pipe.running, hpc]
        · rw [if_neg hwait]
          exact h.enter hN hi hpc (Or.inr ⟨rfl, hentry, Nat.le_of_not_lt hwait⟩)
  | readPast =>
      simp only [Pipe.Wf, hpc] at hwf
      refine h.move hN hi rfl rfl rfl ?_ ?_ ?_ hcache
      · exact hwf.1
      · simp [Pipe.done, hpc, Pipe.tid]
      · simp [Pipe.running, hpc]
  | handle =>
      simp only [Pipe.Wf, hpc] at hwf
      by_cases hexit : process N i (s.pipes i).index = .exit
      · simp only [hexit]
        exact h.leave hN hi hwf (by simp [Pipe.running, hpc]) (Or.inl ⟨rfl, hexit⟩)
      · have hadvance : Pipe.Wf N i { s.pipes i with pc := .advance } := ⟨hwf, hexit⟩
        have hdone : Pipe.done N { s.pipes i with pc := .advance } = (s.pipes i).done N := by
          simp [Pipe.done, hpc, Pipe.tid]
        have hrunning : Pipe.running { s.pipes i with pc := .advance } = (s.pipes i).running := by
          simp [Pipe.running, hpc]
        cases hkind : process N i (s.pipes i).index with
        | entry | inner => exact h.move hN hi rfl rfl rfl hadvance hdone hrunning hcache
        | exit => exact absurd hkind hexit
  | advance =>
      simp only [Pipe.Wf, hpc] at hwf
      exact h.leave hN hi hwf.1 (by simp [Pipe.running, hpc]) (Or.inr rfl)

theorem Inv.initial (tInit null : ρ) : Inv N (initial tInit null) where
  wf i _ := trivial
  pace i _ := Nat.zero_le _
  published i _ tid htid := Or.inl (by simpa [ConcowCyclic.initial, Pipe.done] using htid)
  cache i _ := Nat.zero_le _
  kinds kind i tid hmem := by simp [ConcowCyclic.initial] at hmem
  ring := by
    have hstart : view N (ConcowCyclic.initial tInit null) =
        CyclicPipeline.initial := by
      simp [view, ConcowCyclic.initial, CyclicPipeline.initial, Pipe.done,
        Pipe.running]
    rw [hstart]
    exact CyclicPipeline.Inv.initial

end Steps

def Entered (N : Nat) (p : Pipe) (tid : Nat) : Prop :=
  tid ≤ p.done N ∨ p.pc = .advance ∧ p.tid = tid

/-- The entries up to `w` have handed on their roots, the last through its
slot, and only the entry of the next tid may be between its read and write. -/
structure Handed (init : Nat → ρ → ρ) (tInit : ρ) (N : Nat) (s : State ρ) (w : Nat) : Prop where
  entered : ∀ tid, 1 ≤ tid → (tid ≤ w ↔ Entered N (s.pipes (CyclicPipeline.worker N tid 0)) tid)
  latest : (s.ctxs (w % bufferSize)).root = roots init tInit w
  reading : ∀ i < N, (s.pipes i).pc = .readPast → (s.pipes i).tid = w + 1
  writing : ∀ i < N, (s.pipes i).pc = .handle → process N i (s.pipes i).index = .entry →
    (s.pipes i).tid = w + 1 ∧ (s.ctxs ((w + 1) % bufferSize)).tPast = roots init tInit w
  reads : ∀ r ∈ s.reads, r.2 = roots init tInit (r.1 - 1)

section Roots

variable {init : Nat → ρ → ρ} {tInit : ρ} {N w i : Nat} {s : State ρ} {p : Pipe}

theorem process_entry_iff {pid index : Nat} : process N pid index = .entry ↔ pid = index := by
  unfold process
  split
  · simp_all
  · split <;> simp_all

theorem Pipe.InRound.worker_zero (h : p.InRound N) : CyclicPipeline.worker N p.tid 0 = p.index :=
  h.index_eq

theorem Pipe.InRound.entry_worker (h : p.InRound N) (hentry : process N i p.index = .entry) :
    CyclicPipeline.worker N p.tid 0 = i :=
  h.worker_zero.trans (process_entry_iff.1 hentry).symm

theorem Handed.entered_set (h : Handed init tInit N s w)
    (hentered : ∀ tid, 1 ≤ tid → CyclicPipeline.worker N tid 0 = i →
      (Entered N p tid ↔ Entered N (s.pipes i) tid)) (tid : Nat) (htid : 1 ≤ tid) :
    tid ≤ w ↔ Entered N (Function.update s.pipes i p (CyclicPipeline.worker N tid 0)) tid := by
  rw [h.entered tid htid]
  by_cases hi : CyclicPipeline.worker N tid 0 = i
  · rw [hi, Function.update_self, hentered tid htid hi]
  · rw [Function.update_of_ne hi]

theorem Handed.unique (h : Handed init tInit N s w) (hs : Inv N s) {j : Nat} (hj : j < N)
    (hpc : (s.pipes j).pc = .readPast ∨
      (s.pipes j).pc = .handle ∧ process N j (s.pipes j).index = .entry) :
    CyclicPipeline.worker N (w + 1) 0 = j := by
  have hwf := hs.wf j hj
  rcases hpc with hpc | ⟨hpc, hentry⟩
  · simp only [Pipe.Wf, hpc] at hwf
    rw [← h.reading j hj hpc]
    exact hwf.1.entry_worker hwf.2
  · simp only [Pipe.Wf, hpc] at hwf
    rw [← (h.writing j hj hpc hentry).1]
    exact hwf.entry_worker hentry

theorem Handed.set (h : Handed init tInit N s w) {s' : State ρ}
    (hpipes : s'.pipes = Function.update s.pipes i p) (hctxs : s'.ctxs = s.ctxs)
    (hreads : s'.reads = s.reads)
    (hentered : ∀ tid, 1 ≤ tid → CyclicPipeline.worker N tid 0 = i →
      (Entered N p tid ↔ Entered N (s.pipes i) tid))
    (hreading : p.pc = .readPast → p.tid = w + 1)
    (hwriting : p.pc = .handle → process N i p.index ≠ .entry) : Handed init tInit N s' w where
  entered := by
    rw [hpipes]
    exact h.entered_set hentered
  latest := by rw [hctxs, h.latest]
  reading j hj := by
    rw [hpipes]
    by_cases hij : j = i
    · subst hij
      rwa [Function.update_self]
    · rw [Function.update_of_ne hij]
      exact h.reading j hj
  writing j hj hpc hentry := by
    rw [hpipes] at hpc hentry ⊢
    by_cases hij : j = i
    · subst hij
      rw [Function.update_self] at hpc hentry
      exact absurd hentry (hwriting hpc)
    · rw [Function.update_of_ne hij] at hpc hentry ⊢
      rw [hctxs]
      exact h.writing j hj hpc hentry
  reads := by
    rw [hreads]
    exact h.reads

theorem Handed.next (h : Handed init tInit N s w) (hs : Inv N s) (hN : 2 ≤ N) (hi : i < N)
    (hpc : (s.pipes i).pc = .wait) (hentry : process N i (s.pipes i).index = .entry) :
    (s.pipes i).tid = w + 1 := by
  have hround : (s.pipes i).InRound N := by simpa [Pipe.Wf, hpc] using hs.wf i hi
  have htid := hround.done_add_one (by simp [hpc]) (by simp [hpc])
  have hworker := hround.entry_worker hentry
  have hnot : ¬ (s.pipes i).tid ≤ w := by
    rw [h.entered _ hround.tid_pos, hworker, Entered]
    simp only [hpc, reduceCtorEq, false_and, or_false]
    omega
  have hlast : (s.pipes i).tid - 1 ≤ w := by
    by_cases hone : (s.pipes i).tid = 1
    · omega
    · obtain ⟨t, ht⟩ : ∃ t, (s.pipes i).tid = t + 1 := ⟨(s.pipes i).tid - 1, by omega⟩
      rw [ht, CyclicPipeline.worker_succ (by omega)] at hworker
      have hdone : t ≤ (view N s).done (CyclicPipeline.worker N t (0 + 1)) := by
        rw [hworker]
        change t ≤ (s.pipes i).done N
        omega
      rw [ht, Nat.add_sub_cancel, h.entered t (by omega)]
      exact Or.inl (hs.ring.earlier (by omega) (Nat.zero_le 1) (by omega) hdone)
  omega

theorem entered_done (hpc : p.pc = .advance → CyclicPipeline.worker N p.tid 0 ≠ i) {tid : Nat}
    (hi : CyclicPipeline.worker N tid 0 = i) : Entered N p tid ↔ tid ≤ p.done N := by
  constructor
  · rintro (hle | ⟨hadvance, rfl⟩)
    · exact hle
    · exact absurd hi (hpc hadvance)
  · exact Or.inl

theorem Handed.leave (h : Handed init tInit N s w) (hround : (s.pipes i).InRound N)
    (hrunning : (s.pipes i).running = true)
    (hpc : process N i (s.pipes i).index = .entry → (s.pipes i).pc = .advance)
    {paces : Nat → Nat} :
    Handed init tInit N (leave N { s with paces := paces } i) w := by
  have htid := hround.done_add_one (p := s.pipes i) (N := N)
    (by intro hpc; simp [Pipe.running, hpc] at hrunning)
    (by intro hpc; simp [Pipe.running, hpc] at hrunning)
  have hentered : ∀ p : Pipe, p.done N = (s.pipes i).tid → p.pc ≠ .advance → ∀ tid, 1 ≤ tid →
      CyclicPipeline.worker N tid 0 = i → (Entered N p tid ↔ Entered N (s.pipes i) tid) := by
    intro p hdone hnot tid _ hi
    rw [entered_done (fun hadvance => absurd hadvance hnot) hi, hdone, Entered]
    constructor
    · intro hle
      by_cases heq : (s.pipes i).tid = tid
      · subst heq
        rw [hround.worker_zero] at hi
        exact Or.inr ⟨hpc (process_entry_iff.2 hi.symm), rfl⟩
      · exact Or.inl (by omega)
    · rintro (hle | ⟨-, rfl⟩) <;> omega
  unfold ConcowCyclic.leave
  dsimp only
  split
  · refine h.set rfl rfl rfl ?_ (by simp) (by simp)
    apply hentered
    · simp [Pipe.done, Pipe.tid, ← Nat.add_assoc]
    · simp
  · rename_i hlast
    refine h.set rfl rfl rfl ?_ (by simp) (by simp)
    apply hentered
    · obtain ⟨hlt, -⟩ := hround
      simp only [Pipe.done, Pipe.tid]
      omega
    · simp

theorem Handed.readPast (h : Handed init tInit N s w) (hs : Inv N s) (hi : i < N)
    (hpc : (s.pipes i).pc = .readPast) {s' : State ρ}
    (hpipes : s'.pipes = Function.update s.pipes i { s.pipes i with pc := .handle })
    (hctxs : s'.ctxs = Function.update s.ctxs ((s.pipes i).tid % bufferSize)
      { s.ctxs ((s.pipes i).tid % bufferSize) with
        tPast := (s.ctxs (((s.pipes i).tid - 1) % bufferSize)).root })
    (hreads : s'.reads = s.reads ++
      [((s.pipes i).tid, (s.ctxs (((s.pipes i).tid - 1) % bufferSize)).root)]) :
    Handed init tInit N s' w := by
  have htid := h.reading i hi hpc
  have hworker := h.unique hs hi (Or.inl hpc)
  rw [htid, Nat.add_sub_cancel, h.latest] at hctxs hreads
  have hother : ∀ j < N, j ≠ i → (s'.pipes j).pc ≠ .readPast ∧
      ((s'.pipes j).pc = .handle → process N j (s'.pipes j).index ≠ .entry) := by
    intro j hj hij
    rw [hpipes, Function.update_of_ne hij]
    constructor
    · intro hpc
      exact hij ((h.unique hs hj (Or.inl hpc)).symm.trans hworker)
    · intro hpc hentry
      exact hij ((h.unique hs hj (Or.inr ⟨hpc, hentry⟩)).symm.trans hworker)
  refine ⟨?_, ?_, ?_, ?_, ?_⟩
  · rw [hpipes]
    apply h.entered_set
    intro tid _ _
    simp [Entered, Pipe.done, hpc, Pipe.tid]
  · rw [hctxs, ← h.latest]
    by_cases hslot : w % bufferSize = (w + 1) % bufferSize
    · rw [hslot, Function.update_self]
    · rw [Function.update_of_ne hslot]
  · intro j hj hread
    by_cases hij : j = i
    · subst hij
      simp [hpipes] at hread
    · exact absurd hread (hother j hj hij).1
  · intro j hj hhandle hentry
    by_cases hij : j = i
    · subst hij
      rw [hpipes, Function.update_self, hctxs, Function.update_self]
      exact ⟨htid, rfl⟩
    · exact absurd hentry ((hother j hj hij).2 hhandle)
  · intro r hr
    rw [hreads] at hr
    rcases List.mem_append.1 hr with hr | hr
    · exact h.reads r hr
    · rw [List.mem_singleton.1 hr, Nat.add_sub_cancel]

theorem Handed.handOn (h : Handed init tInit N s w) (hs : Inv N s) (hi : i < N)
    (hpc : (s.pipes i).pc = .handle) (hentry : process N i (s.pipes i).index = .entry)
    {s' : State ρ}
    (hpipes : s'.pipes = Function.update s.pipes i { s.pipes i with pc := .advance })
    (hctxs : s'.ctxs = Function.update s.ctxs ((s.pipes i).tid % bufferSize)
      { s.ctxs ((s.pipes i).tid % bufferSize) with
        root := init (s.pipes i).tid (s.ctxs ((s.pipes i).tid % bufferSize)).tPast })
    (hreads : s'.reads = s.reads) : Handed init tInit N s' (w + 1) := by
  have hworker := h.unique hs hi (Or.inr ⟨hpc, hentry⟩)
  obtain ⟨htid, hpast⟩ := h.writing i hi hpc hentry
  rw [htid, hpast] at hctxs
  have hother : ∀ j < N, (s'.pipes j).pc ≠ .readPast ∧
      ((s'.pipes j).pc = .handle → process N j (s'.pipes j).index ≠ .entry) := by
    intro j hj
    by_cases hij : j = i
    · subst hij
      simp [hpipes]
    · rw [hpipes, Function.update_of_ne hij]
      constructor
      · intro hpc
        exact hij ((h.unique hs hj (Or.inl hpc)).symm.trans hworker)
      · intro hpc hentry
        exact hij ((h.unique hs hj (Or.inr ⟨hpc, hentry⟩)).symm.trans hworker)
  refine ⟨?_, ?_, ?_, ?_, ?_⟩
  · intro tid hpos
    rw [hpipes]
    by_cases hij : CyclicPipeline.worker N tid 0 = i
    · rw [hij, Function.update_self]
      have hdone : Pipe.done N { s.pipes i with pc := .advance } = w := by
        have : (s.pipes i).base + (s.pipes i).index = w + 1 := htid
        simp [Pipe.done, Pipe.tid, this]
      have hnew : Pipe.tid { s.pipes i with pc := .advance } = w + 1 := htid
      rw [Entered, hdone, hnew]
      simp only [true_and]
      omega
    · rw [Function.update_of_ne hij, ← h.entered tid hpos]
      have hne : tid ≠ w + 1 := by
        rintro rfl
        exact hij hworker
      omega
  · rw [hctxs, Function.update_self]
    rfl
  · exact fun j hj hread => absurd hread (hother j hj).1
  · exact fun j hj hhandle hentry => absurd hentry ((hother j hj).2 hhandle)
  · rw [hreads]
    exact h.reads

theorem Handed.pipeStep (h : Handed init tInit N s w) (hs : Inv N s) (hN : 2 ≤ N) (hi : i < N) :
    ∃ w', Handed init tInit N (pipeStep init N i s) w' := by
  have hwf := hs.wf i hi
  have hidle : ∀ p : Pipe, p.done N = (s.pipes i).done N → p.pc ≠ .advance →
      (s.pipes i).pc ≠ .advance → ∀ tid, 1 ≤ tid → CyclicPipeline.worker N tid 0 = i →
        (Entered N p tid ↔ Entered N (s.pipes i) tid) := by
    intro p hdone hnot hnot' tid _ hi
    rw [entered_done (fun hadvance => absurd hadvance hnot) hi,
      entered_done (fun hadvance => absurd hadvance hnot') hi, hdone]
  have hnext := h.next hs hN hi
  unfold ConcowCyclic.pipeStep
  dsimp only
  cases hpc : (s.pipes i).pc with
  | test =>
      refine ⟨w, h.set rfl rfl rfl (hidle _ ?_ (by simp) (by simp [hpc])) (by simp) (by simp)⟩
      simp [Pipe.done, hpc]
  | loop =>
      simp only [Pipe.Wf, hpc] at hwf
      dsimp only
      split
      · refine ⟨w, h.set rfl rfl rfl (hidle _ ?_ (by simp) (by simp [hpc])) (by simp) (by simp)⟩
        simp [Pipe.done, hpc, Pipe.tid]
      · rename_i hlt
        refine ⟨w, h.set rfl rfl rfl (hidle _ ?_ (by simp) (by simp [hpc])) (by simp) (by simp)⟩
        simp [Pipe.done, hpc, hwf.next_epoch hlt]
  | wait =>
      dsimp only
      split
      · rename_i hentry
        split
        · refine ⟨w, h.set rfl rfl rfl (hidle _ ?_ (by simp) (by simp [hpc])) (by simp) (by simp)⟩
          simp [Pipe.done, hpc, Pipe.tid]
        · refine ⟨w, h.set rfl rfl rfl (hidle _ ?_ (by simp) (by simp [hpc])) ?_ (by simp)⟩
          · simp [Pipe.done, hpc, Pipe.tid]
          · exact fun _ => hnext hpc hentry
      · rename_i hentry
        split
        · refine ⟨w, h.set rfl rfl rfl (hidle _ ?_ (by simp) (by simp [hpc])) (by simp) (by simp)⟩
          simp [Pipe.done, hpc, Pipe.tid]
        · refine ⟨w, h.set rfl rfl rfl (hidle _ ?_ (by simp) (by simp [hpc])) (by simp) ?_⟩
          · simp [Pipe.done, hpc, Pipe.tid]
          · exact fun _ => hentry
  | readPast => exact ⟨w, h.readPast hs hi hpc rfl rfl rfl⟩
  | handle =>
      simp only [Pipe.Wf, hpc] at hwf
      cases hkind : process N i (s.pipes i).index with
      | entry => exact ⟨w + 1, h.handOn hs hi hpc hkind rfl rfl rfl⟩
      | inner =>
          refine ⟨w, h.set rfl rfl rfl ?_ (by simp) (by simp)⟩
          intro tid _ hworker
          rw [entered_done _ hworker, entered_done _ hworker]
          · simp [Pipe.done, hpc, Pipe.tid]
          · simp [hpc]
          · rintro - hentry
            have hindex := hwf.worker_zero.symm.trans hentry
            rw [process_entry_iff.2 hindex.symm] at hkind
            simp at hkind
      | exit => exact ⟨w, h.leave hwf (by simp [Pipe.running, hpc]) (by simp [hkind])⟩
  | advance =>
      simp only [Pipe.Wf, hpc] at hwf
      exact ⟨w, h.leave hwf.1 (by simp [Pipe.running, hpc]) (fun _ => hpc)⟩

end Roots

def Call.tid : Call → Nat
  | .start _ _ tid | .finish _ tid => tid

def Call.pid : Call → Nat
  | .start _ pid _ | .finish pid _ => pid

/-- The calls for one tid, stage 0 (entry) to stage `N - 1` (exit), each on the
next thread round the ring. -/
def passage (N tid : Nat) : List Call :=
  (List.range N).flatMap fun k =>
    [.start (stageKind N k) (CyclicPipeline.worker N tid k) tid,
      .finish (CyclicPipeline.worker N tid k) tid]

/-- The calls of one thread for the first `n` tids: on the tid of index `j` of
its round the thread runs stage `(pid - j) mod N`. -/
def turns (N pid n : Nat) : List Call :=
  (List.range n).flatMap fun t =>
    [.start (stageKind N ((pid + N - t % N) % N)) pid (t + 1), .finish pid (t + 1)]

section Log

variable {init : Nat → ρ → ρ} {tInit null : ρ} {N : Nat} {s : State ρ}

def ofEvent (N : Nat) : CyclicPipeline.Event → Call
  | .start pid tid => .start (stageKind N (CyclicPipeline.stage N pid tid)) pid tid
  | .finish pid tid => .finish pid tid

theorem Inv.ofEvent_event (h : Inv N s) {c : Call} (hc : c ∈ s.log) : ofEvent N c.event = c := by
  cases c with
  | start kind pid tid => rw [Call.event, ofEvent, ← h.kinds kind pid tid hc]
  | finish pid tid => rfl

theorem Inv.log_eq (h : Inv N s) : (view N s).log.map (ofEvent N) = s.log := by
  rw [view, List.map_map]
  exact (List.map_congr_left fun c hc => h.ofEvent_event hc).trans (List.map_id s.log)

theorem Inv.filter_eq (h : Inv N s) (f : Call → Bool) (g : CyclicPipeline.Event → Bool)
    (hfg : ∀ e, f (ofEvent N e) = g e) :
    s.log.filter f = ((view N s).log.filter g).map (ofEvent N) := by
  rw [← h.log_eq, List.filter_map]
  exact congrArg _ (congrArg (List.filter · _) (funext hfg))

theorem passage_eq (tid : Nat) :
    (CyclicPipeline.calls N tid N).map (ofEvent N) = passage N tid := by
  rw [CyclicPipeline.calls, passage, List.map_flatMap]
  apply List.flatMap_congr
  intro k hk
  simp [ofEvent, CyclicPipeline.stage_worker (List.mem_range.1 hk)]

theorem Inv.passage (h : Inv N s) {tid : Nat} (htid : 1 ≤ tid) :
    s.log.filter (·.tid = tid) <+: ConcowCyclic.passage N tid := by
  rw [h.filter_eq _ (·.task = tid) (by rintro (_ | _) <;> rfl), ← passage_eq]
  exact (h.ring.passage htid).map _

theorem Inv.ordered (h : Inv N s) {tid k : Nat} (htid : 1 ≤ tid) (hk : k < N) (kind : Kind) :
    CyclicPipeline.Precedes s.log
      (.finish (CyclicPipeline.worker N tid (min (k + 1) (N - 1))) tid)
      (.start kind (CyclicPipeline.worker N (tid + 1) k) (tid + 1)) := by
  intro l r hlog
  have hview := h.ring.ordered tid htid k hk (l.map Call.event) (r.map Call.event)
    (by rw [view, hlog, List.map_append, List.map_cons]; rfl)
  obtain ⟨c, hc, hevent⟩ := List.mem_map.1 hview
  cases c with
  | start => simp [Call.event] at hevent
  | finish pid tid =>
      obtain ⟨rfl, rfl⟩ := CyclicPipeline.Event.finish.inj hevent
      exact hc

end Log

/-- A run in which every thread takes a step again and again: the calls of handlers come
back, and so do the waits of `process_exit` for a stage and for a worker. -/
structure FairRun (init : Nat → ρ → ρ) (N : Nat) (run : Nat → State ρ) : Prop where
  step : ∀ n, ∃ a, Step init N a (run n) (run (n + 1))
  fair : ∀ pid < N, ∀ n, ∃ m ≥ n, run (m + 1) = pipeStep init N pid (run m)

section Progress

variable {init : Nat → ρ → ρ} {N i : Nat} {s : State ρ} {run : Nat → State ρ}

theorem pipeStep_pipes_of_ne {j : Nat} (hij : j ≠ i) : (pipeStep init N i s).pipes j = s.pipes j := by
  unfold pipeStep
  dsimp only
  repeat' split
  all_goals simp [setPipe, enter, leave, Function.update_of_ne hij]

theorem pipeStep_nInited : (pipeStep init N i s).nInited = s.nInited := by
  unfold pipeStep
  dsimp only
  repeat' split
  all_goals rfl

theorem Inv.step {a : Actor} {s' : State ρ} (h : Inv N s) (hN : 2 ≤ N) (ha : Step init N a s s') :
    Inv N s' ∧ (∀ j, (s.pipes j).done N ≤ (s'.pipes j).done N) ∧ s.nInited ≤ s'.nInited := by
  cases ha with
  | monitor s n hn => exact ⟨⟨h.wf, h.pace, h.published, h.cache, h.kinds, h.ring⟩, fun _ => le_rfl, hn⟩
  | pipe s pid hpid =>
      obtain ⟨hinv, hsimulates⟩ := h.pipeStep hN init hpid
      exact ⟨hinv, hsimulates.done_le, pipeStep_nInited.ge⟩

theorem Step.pipes {a : Actor} {s' : State ρ} (ha : Step init N a s s') (i : Nat) :
    s'.pipes i = s.pipes i ∨ s' = pipeStep init N i s := by
  cases ha with
  | monitor => exact Or.inl rfl
  | pipe s pid hpid =>
      by_cases hi : i = pid
      · exact Or.inr (by rw [hi])
      · exact Or.inl (pipeStep_pipes_of_ne hi)

theorem FairRun.inv (h : FairRun init N run) (hN : 2 ≤ N) (h₀ : Inv N (run 0)) (n : Nat) :
    Inv N (run n) := by
  induction n with
  | zero => exact h₀
  | succ n ih =>
      obtain ⟨a, ha⟩ := h.step n
      exact (ih.step hN ha).1

end Progress

section Pipeline

variable {init : Nat → ρ → ρ} {tInit null : ρ} {N : Nat} {s : State ρ}

theorem inv_of_reachable (hN : 2 ≤ N) (hs : Reachable (Step init N) (initial tInit null) s) :
    Inv N s ∧ ∃ w, Handed init tInit N s w := by
  apply ReachableWhen.invariant (fun s => Inv N s ∧ ∃ w, Handed init tInit N s w) _ _ hs
  · refine ⟨Inv.initial tInit null, 0, ?_, rfl, ?_, ?_, ?_⟩
    · intro tid htid
      simp only [Entered, initial, Pipe.done, Nat.zero_mul, reduceCtorEq, false_and, or_false]
    · simp [initial]
    · simp [initial]
    · simp [initial]
  · rintro actor s t ⟨h, w, hw⟩ - hstep
    refine ⟨(h.step hN hstep).1, ?_⟩
    cases hstep with
    | monitor s n hn => exact ⟨w, hw.entered, hw.latest, hw.reading, hw.writing, hw.reads⟩
    | pipe s pid hpid => exact hw.pipeStep h hN hpid

def after (init : Nat → ρ → ρ) (N n : Nat) (tInit null : ρ) (pids : List Nat) : State ρ :=
  pids.foldl (fun s pid => pipeStep init N pid s) { initial tInit null with nInited := n }

end Pipeline

end Contrees.Conctrl.ConcowCyclic
