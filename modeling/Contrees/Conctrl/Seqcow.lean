import Contrees.Library.Runs
import Contrees.Conctrl.Common
import Mathlib.Data.List.Basic
import Mathlib.Logic.Function.Iterate
import Mathlib.Order.Basic

namespace Contrees.Conctrl.Seqcow

open Library.Runs

variable {ρ : Type}

structure Context (ρ : Type) where
  op : Nat
  flags : Nat
  sno : Nat
  key : Nat
  val : Nat
  root : ρ
  tPast : ρ

/-- A structure plugged into the scheduler: the root its handlers leave in a
context when they are called from INIT until DONE. -/
structure Handlers (ρ : Type) where
  run : Context ρ → ρ

inductive Field
  | op | flags | sno | key | val

inductive Client
  | idle
  | waiting (tid key val : Nat)
  | writing (tid key val : Nat) (field : Field)

def Client.call : Client → Option (Nat × Nat × Nat)
  | .idle => none
  | .waiting tid key val | .writing tid key val _ => some (tid, key, val)

inductive WorkerPc
  | test | loadStop | loadSubmitted | exec | publishRoot | publishCommitted | finished

structure Worker where
  pc : WorkerPc
  stop : Bool
  nSubmitted : Nat
  nCommitted : Nat
  next : Nat

/-- `passed` and `executed` are history: the arguments of the `update` call
that obtained a tid, and the tids in the order of their `exec_task_` calls with
the key and value each call found in its slot. -/
structure State (ρ : Type) where
  stop : Bool
  root : ρ
  nSubmitted : Nat
  nCommitted : Nat
  ctxs : Nat → Context ρ
  clients : Nat → Client
  worker : Worker
  passed : Nat → Option (Nat × Nat)
  executed : List (Nat × Nat × Nat)

def initial (tInit null : ρ) : State ρ where
  stop := false
  root := tInit
  nSubmitted := 0
  nCommitted := 0
  ctxs := fun slot => ⟨Operand.done, 0, 0, 0, 0, if slot = 0 then tInit else null, null⟩
  clients := fun _ => .idle
  worker := ⟨.test, false, 0, 0, 0⟩
  passed := fun _ => none
  executed := []

def fetchAdd (s : State ρ) (c key val : Nat) : State ρ :=
  let tid := 1 + s.nSubmitted
  { s with
    nSubmitted := tid
    clients := Function.update s.clients c (.waiting tid key val)
    passed := Function.update s.passed tid (some (key, val)) }

def leaveCheck (s : State ρ) (c tid key val : Nat) : State ρ :=
  { s with clients := Function.update s.clients c (.writing tid key val .op) }

def Context.write (ctx : Context ρ) (tid key val : Nat) : Field → Context ρ
  | .op => { ctx with op := Operand.init }
  | .flags => { ctx with flags := 0 }
  | .sno => { ctx with sno := tid % 2 ^ 32 }
  | .key => { ctx with key := key }
  | .val => { ctx with val := val }

def Client.written (tid key val : Nat) : Field → Client
  | .op => .writing tid key val .flags
  | .flags => .writing tid key val .sno
  | .sno => .writing tid key val .key
  | .key => .writing tid key val .val
  | .val => .idle

def writeField (s : State ρ) (c tid key val : Nat) (field : Field) : State ρ :=
  let pos := tid % bufferSize
  { s with
    ctxs := Function.update s.ctxs pos ((s.ctxs pos).write tid key val field)
    clients := Function.update s.clients c (Client.written tid key val field) }

def execTask (T : Handlers ρ) (s : State ρ) (tid : Nat) : State ρ :=
  let ctx := { s.ctxs (tid % bufferSize) with tPast := (s.ctxs ((tid - 1) % bufferSize)).root }
  { s with
    ctxs := Function.update s.ctxs (tid % bufferSize)
      { ctx with root := T.run ctx, op := Operand.done }
    executed := s.executed ++ [(tid, ctx.key, ctx.val)] }

/-- One round of the inner loop, which breaks off after half a ring. -/
def execNext (T : Handlers ρ) (s : State ρ) : State ρ :=
  let next := s.worker.next + 1
  let pc := if next > s.worker.nCommitted + bufferSize / 2 then .publishRoot else .exec
  { execTask T s next with worker := { s.worker with pc := pc, next := next } }

def workerStep (T : Handlers ρ) (s : State ρ) : State ρ :=
  let w := s.worker
  match w.pc with
  | .test =>
      if !w.stop || w.nCommitted < w.nSubmitted then { s with worker := { w with pc := .loadStop } }
      else { s with worker := { w with pc := .finished } }
  | .loadStop => { s with worker := { w with pc := .loadSubmitted, stop := s.stop } }
  | .loadSubmitted =>
      { s with worker := { w with pc := .exec, nSubmitted := s.nSubmitted, next := w.nCommitted } }
  | .exec =>
      if w.next < w.nSubmitted then execNext T s
      else { s with worker := { w with pc := .publishRoot } }
  | .publishRoot =>
      if w.next > w.nCommitted then
        { s with
          root := (s.ctxs (w.next % bufferSize)).root
          worker := { w with pc := .publishCommitted, nCommitted := w.next } }
      else { s with worker := { w with pc := .test } }
  | .publishCommitted =>
      { s with nCommitted := w.nCommitted, worker := { w with pc := .test } }
  | .finished => s

inductive Actor
  | client (c : Nat)
  | worker
  | destructor

/-- The destructor runs when no client is inside `update`, and no client calls
`update` on the destroyed object. -/
inductive Step (T : Handlers ρ) : Actor → State ρ → State ρ → Prop
  | fetchAdd (s) (c key val) (hc : s.clients c = .idle) (hstop : s.stop = false) :
      Step T (.client c) s (fetchAdd s c key val)
  | leaveCheck (s) (c tid key val) (hc : s.clients c = .waiting tid key val)
      (hfree : tid < s.nCommitted + bufferSize) :
      Step T (.client c) s (leaveCheck s c tid key val)
  | writeField (s) (c tid key val field) (hc : s.clients c = .writing tid key val field) :
      Step T (.client c) s (writeField s c tid key val field)
  | worker (s) : Step T .worker s (workerStep T s)
  | stop (s) (hc : ∀ c, s.clients c = .idle) : Step T .destructor s { s with stop := true }

/-- Every tid is executed exactly once and in order: the executed tids are a
prefix, committed tids are in it, and while a tid is missing the worker's own
steps reach it. -/
def ExecutedOnce (T : Handlers ρ) (s : State ρ) : Prop :=
  s.executed.map Prod.fst = List.range' 1 s.executed.length ∧
    s.nCommitted ≤ s.executed.length ∧
    (s.executed.length < s.nSubmitted →
      ∃ n, s.executed.length < ((workerStep T)^[n] s).executed.length)

def ArgumentsKept (s : State ρ) : Prop :=
  ∀ tid key val, (tid, key, val) ∈ s.executed → s.passed tid = some (key, val)

def NoLostUpdate (T : Handlers ρ) (s : State ρ) : Prop := ExecutedOnce T s ∧ ArgumentsKept s

/-- The worker is not about to execute a tid whose client is still inside `update`. -/
def SlotFilled : Actor → State ρ → Prop
  | .worker, s => s.worker.pc = .exec → s.worker.next < s.worker.nSubmitted →
      ∀ c key val, (s.clients c).call ≠ some (s.worker.next + 1, key, val)
  | _, _ => True

/-- The worker's bookkeeping, in any run at all. Its frontier is `executed.length`. -/
structure Control (s : State ρ) : Prop where
  tids : s.executed.map Prod.fst = List.range' 1 s.executed.length
  committed : s.nCommitted ≤ s.executed.length
  frontier : s.executed.length ≤ s.nSubmitted
  loaded : s.worker.nSubmitted ≤ s.nSubmitted
  start : s.worker.nCommitted ≤ s.executed.length
  position : match s.worker.pc with
    | .exec | .publishRoot => s.worker.next = s.executed.length
    | _ => s.worker.nCommitted = s.executed.length
  stopped : s.worker.stop = true → s.stop = true ∧
    (s.worker.pc ≠ .loadSubmitted → s.worker.nSubmitted = s.nSubmitted)
  ended : s.worker.pc = .finished →
    s.worker.stop = true ∧ s.worker.nSubmitted ≤ s.worker.nCommitted

theorem control_initial (tInit null : ρ) : Control (initial tInit null) := by
  constructor <;> simp [initial]

@[simp] theorem length_execNext (T : Handlers ρ) (s : State ρ) :
    (execNext T s).executed.length = s.executed.length + 1 := by
  simp [execNext, execTask]

theorem execNext_pc (T : Handlers ρ) (s : State ρ) :
    (execNext T s).worker.pc = .exec ∨ (execNext T s).worker.pc = .publishRoot := by
  simp only [execNext]
  split
  · exact Or.inr rfl
  · exact Or.inl rfl

theorem control_execNext {s : State ρ} (hs : Control s) (T : Handlers ρ)
    (hpc : s.worker.pc = .exec) (hlt : s.worker.next < s.worker.nSubmitted) :
    Control (execNext T s) := by
  have hpos : s.worker.next = s.executed.length := by simpa only [hpc] using hs.position
  have hsub : s.worker.nSubmitted ≤ s.nSubmitted := hs.loaded
  have hcom := hs.committed
  have hstart := hs.start
  have htids : (execNext T s).executed.map Prod.fst =
      s.executed.map Prod.fst ++ [s.executed.length + 1] := by
    simp [execNext, execTask, hpos]
  constructor
  · rw [htids, length_execNext, hs.tids, List.range'_concat, Nat.one_mul, Nat.add_comm 1]
  · rw [length_execNext]
    exact Nat.le_succ_of_le hcom
  · rw [length_execNext]
    exact Nat.lt_of_lt_of_le (hpos ▸ hlt) hsub
  · exact hsub
  · rw [length_execNext]
    exact Nat.le_succ_of_le hstart
  · rcases execNext_pc T s with h | h <;>
      simp only [h, length_execNext] <;> simp only [execNext, hpos]
  · intro h
    obtain ⟨h1, h2⟩ := hs.stopped h
    exact ⟨h1, fun _ => h2 (by simp [hpc])⟩
  · intro h
    rcases execNext_pc T s with h' | h' <;> simp [h'] at h

theorem control_workerStep {s : State ρ} (hs : Control s) (T : Handlers ρ) :
    Control (workerStep T s) := by
  have hpos := hs.position
  have hstart := hs.start
  cases hpc : s.worker.pc <;> simp only [hpc] at hpos
  case test =>
    by_cases h : (!s.worker.stop || decide (s.worker.nCommitted < s.worker.nSubmitted)) = true
    · simp only [workerStep, hpc, h, if_true]
      exact { hs with position := hpos, stopped := fun h => by simpa [hpc] using hs.stopped h, ended := by simp }
    · simp only [workerStep, hpc, h]
      have hend : s.worker.stop = true ∧ s.worker.nSubmitted ≤ s.worker.nCommitted := by simpa using h
      exact { hs with position := hpos, stopped := fun h => by simpa [hpc] using hs.stopped h, ended := fun _ => hend }
  case loadStop =>
    simp only [workerStep, hpc]
    exact { hs with position := hpos, stopped := fun h => ⟨h, by simp⟩, ended := by simp }
  case loadSubmitted =>
    simp only [workerStep, hpc]
    exact { hs with
      position := hpos
      loaded := Nat.le_refl _
      stopped := fun h => ⟨(hs.stopped h).1, fun _ => rfl⟩
      ended := by simp }
  case exec =>
    by_cases hlt : s.worker.next < s.worker.nSubmitted
    · simpa only [workerStep, hpc, hlt, if_true] using control_execNext hs T hpc hlt
    · simp only [workerStep, hpc, hlt, if_false]
      exact { hs with position := hpos, stopped := fun h => by simpa [hpc] using hs.stopped h, ended := by simp }
  case publishRoot =>
    by_cases hgt : s.worker.next > s.worker.nCommitted
    · simp only [workerStep, hpc, hgt, if_true]
      exact { hs with
        position := hpos
        start := Nat.le_of_eq hpos
        stopped := fun h => by simpa [hpc] using hs.stopped h
        ended := by simp }
    · simp only [workerStep, hpc, hgt, if_false]
      exact { hs with
        position := by have := hs.start; simp only; omega
        stopped := fun h => by simpa [hpc] using hs.stopped h
        ended := by simp }
  case publishCommitted =>
    simp only [workerStep, hpc]
    exact { hs with
      position := hpos
      committed := Nat.le_of_eq hpos
      stopped := fun h => by simpa [hpc] using hs.stopped h
      ended := by simp }
  case finished =>
    simpa only [workerStep, hpc] using hs

theorem control_step {T : Handlers ρ} {a : Actor} {s t : State ρ} (hs : Control s)
    (h : Step T a s t) : Control t := by
  cases h with
  | fetchAdd _ c key val hc hstop =>
      have hf := hs.frontier
      have hl := hs.loaded
      refine { hs with frontier := ?_, loaded := ?_, stopped := ?_ }
      · simp only [fetchAdd]; omega
      · simp only [fetchAdd]; omega
      · intro h
        have := (hs.stopped h).1
        simp [hstop] at this
  | leaveCheck | writeField => exact { hs with }
  | worker => exact control_workerStep hs T
  | stop => exact { hs with stopped := fun h => ⟨rfl, (hs.stopped h).2⟩ }

def Passes (T : Handlers ρ) (n : Nat) (s : State ρ) : Prop :=
  ∃ k, n < ((workerStep T)^[k] s).executed.length

theorem Passes.of_step {T : Handlers ρ} {n : Nat} {s : State ρ} (h : Passes T n (workerStep T s)) :
    Passes T n s := by
  obtain ⟨k, hk⟩ := h
  exact ⟨k + 1, by simpa only [Function.iterate_succ_apply] using hk⟩

theorem passes_of_exec (T : Handlers ρ) {s : State ρ} (hpc : s.worker.pc = .exec)
    (hlt : s.worker.next < s.worker.nSubmitted) : Passes T s.executed.length s :=
  ⟨1, by simp [workerStep, hpc, hlt]⟩

theorem passes_of_loadSubmitted (T : Handlers ρ) {s : State ρ} (hs : Control s)
    (hlt : s.executed.length < s.nSubmitted) (hpc : s.worker.pc = .loadSubmitted) :
    Passes T s.executed.length s := by
  have hpos : s.worker.nCommitted = s.executed.length := by simpa only [hpc] using hs.position
  apply Passes.of_step
  rw [show s.executed = (workerStep T s).executed by simp only [workerStep, hpc]]
  apply passes_of_exec <;> simp only [workerStep, hpc]
  simpa only [hpos] using hlt

theorem passes_of_loadStop (T : Handlers ρ) {s : State ρ} (hs : Control s)
    (hlt : s.executed.length < s.nSubmitted) (hpc : s.worker.pc = .loadStop) :
    Passes T s.executed.length s := by
  have hnext := control_workerStep hs T
  apply Passes.of_step
  simp only [workerStep, hpc] at hnext ⊢
  exact passes_of_loadSubmitted T hnext hlt rfl

/-- A stopped worker has loaded the final `n_submitted_`, so it leaves the loop
only when nothing is missing. -/
theorem passes_of_test (T : Handlers ρ) {s : State ρ} (hs : Control s)
    (hlt : s.executed.length < s.nSubmitted) (hpc : s.worker.pc = .test) :
    Passes T s.executed.length s := by
  have hpos : s.worker.nCommitted = s.executed.length := by simpa only [hpc] using hs.position
  have hloop : (!s.worker.stop || decide (s.worker.nCommitted < s.worker.nSubmitted)) = true := by
    cases hstop : s.worker.stop with
    | false => rfl
    | true =>
        have := (hs.stopped hstop).2 (by simp [hpc])
        simpa [this, hpos] using hlt
  have hnext := control_workerStep hs T
  apply Passes.of_step
  simp only [workerStep, hpc, hloop, if_true] at hnext ⊢
  exact passes_of_loadStop T hnext hlt rfl

theorem passes_of_publish (T : Handlers ρ) {s : State ρ} (hs : Control s)
    (hlt : s.executed.length < s.nSubmitted)
    (hpc : s.worker.pc = .publishRoot ∨ s.worker.pc = .publishCommitted) :
    Passes T s.executed.length s := by
  have committed : ∀ t : State ρ, Control t → t.executed.length < t.nSubmitted →
      t.worker.pc = .publishCommitted → Passes T t.executed.length t := by
    intro t ht hlt hpc
    have hnext := control_workerStep ht T
    apply Passes.of_step
    simp only [workerStep, hpc] at hnext ⊢
    exact passes_of_test T hnext hlt rfl
  rcases hpc with hpc | hpc
  · have hnext := control_workerStep hs T
    apply Passes.of_step
    by_cases hgt : s.worker.next > s.worker.nCommitted
    · simp only [workerStep, hpc, hgt, if_true] at hnext ⊢
      exact committed _ hnext hlt rfl
    · simp only [workerStep, hpc, hgt, if_false] at hnext ⊢
      exact passes_of_test T hnext hlt rfl
  · exact committed s hs hlt hpc

theorem passes_of_missing (T : Handlers ρ) {s : State ρ} (hs : Control s)
    (hlt : s.executed.length < s.nSubmitted) : Passes T s.executed.length s := by
  cases hpc : s.worker.pc with
  | test => exact passes_of_test T hs hlt hpc
  | loadStop => exact passes_of_loadStop T hs hlt hpc
  | loadSubmitted => exact passes_of_loadSubmitted T hs hlt hpc
  | exec =>
      by_cases hnext : s.worker.next < s.worker.nSubmitted
      · exact passes_of_exec T hpc hnext
      · have hstep := control_workerStep hs T
        apply Passes.of_step
        simp only [workerStep, hpc, hnext, if_false] at hstep ⊢
        exact passes_of_publish T hstep hlt (Or.inl rfl)
  | publishRoot => exact passes_of_publish T hs hlt (Or.inl hpc)
  | publishCommitted => exact passes_of_publish T hs hlt (Or.inr hpc)
  | finished =>
      obtain ⟨hstop, hend⟩ := hs.ended hpc
      have hpos : s.worker.nCommitted = s.executed.length := by simpa only [hpc] using hs.position
      have := (hs.stopped hstop).2 (by simp [hpc])
      omega

theorem Control.executedOnce {T : Handlers ρ} {s : State ρ} (hs : Control s) :
    ExecutedOnce T s := ⟨hs.tids, hs.committed, passes_of_missing T hs⟩

/-- The clients' side: beyond the frontier a tid is either held by its client
or lies complete in its slot. -/
structure Slots (s : State ρ) : Prop where
  passed : ∀ tid key val, (tid, key, val) ∈ s.executed → s.passed tid = some (key, val)
  called : ∀ c tid key val, (s.clients c).call = some (tid, key, val) →
    s.executed.length < tid ∧ tid ≤ s.nSubmitted ∧ s.passed tid = some (key, val)
  unique : ∀ c d tid key val key' val', (s.clients c).call = some (tid, key, val) →
    (s.clients d).call = some (tid, key', val') → c = d
  window : ∀ c tid key val field, s.clients c = .writing tid key val field →
    tid < s.nCommitted + bufferSize
  keyWritten : ∀ c tid key val, s.clients c = .writing tid key val .val →
    (s.ctxs (tid % bufferSize)).key = key
  filled : ∀ tid, s.executed.length < tid → tid ≤ s.nSubmitted →
    (∀ c key val, (s.clients c).call ≠ some (tid, key, val)) →
    tid < s.nCommitted + bufferSize ∧
      s.passed tid = some ((s.ctxs (tid % bufferSize)).key, (s.ctxs (tid % bufferSize)).val)

theorem slots_initial (tInit null : ρ) : Slots (initial tInit null) := by
  constructor <;> simp [initial, Client.call]
  omega

theorem slots_fetchAdd {s : State ρ} (hc : Control s) (hs : Slots s) {c : Nat}
    (hidle : s.clients c = .idle) (key val : Nat) : Slots (fetchAdd s c key val) := by
  have hf := hc.frontier
  have hcall : ∀ d t k v, ((fetchAdd s c key val).clients d).call = some (t, k, v) →
      d = c ∧ t = 1 + s.nSubmitted ∧ k = key ∧ v = val ∨
        d ≠ c ∧ (s.clients d).call = some (t, k, v) := by
    intro d t k v h
    by_cases hd : d = c
    · subst hd
      simp only [fetchAdd, Function.update_self, Client.call, Option.some.injEq, Prod.mk.injEq] at h
      exact Or.inl ⟨rfl, h.1.symm, h.2.1.symm, h.2.2.symm⟩
    · exact Or.inr ⟨hd, by simpa only [fetchAdd, Function.update_of_ne hd] using h⟩
  constructor
  · intro tid k v h
    have htid : tid ∈ s.executed.map Prod.fst := List.mem_map.mpr ⟨_, h, rfl⟩
    rw [hc.tids, List.mem_range'_1] at htid
    have hne : tid ≠ 1 + s.nSubmitted := by omega
    simpa only [fetchAdd, Function.update_of_ne hne] using hs.passed tid k v h
  · intro d t k v h
    rcases hcall d t k v h with ⟨-, rfl, rfl, rfl⟩ | ⟨-, h⟩
    · exact ⟨by simp only [fetchAdd]; omega, Nat.le_refl _, by simp [fetchAdd]⟩
    · obtain ⟨h1, h2, h3⟩ := hs.called d t k v h
      have hne : t ≠ 1 + s.nSubmitted := by omega
      exact ⟨h1, by simp only [fetchAdd]; omega,
        by simpa only [fetchAdd, Function.update_of_ne hne] using h3⟩
  · intro d e t k v k' v' hd he
    rcases hcall d t k v hd with ⟨hdc, ht, -⟩ | ⟨-, hd⟩ <;>
      rcases hcall e t k' v' he with ⟨hec, ht', -⟩ | ⟨-, he⟩
    · rw [hdc, hec]
    · have := (hs.called e t k' v' he).2.1
      omega
    · have := (hs.called d t k v hd).2.1
      omega
    · exact hs.unique d e t k v k' v' hd he
  · intro d t k v field h
    by_cases hd : d = c
    · subst hd; simp [fetchAdd] at h
    · exact hs.window d t k v field (by simpa only [fetchAdd, Function.update_of_ne hd] using h)
  · intro d t k v h
    by_cases hd : d = c
    · subst hd; simp [fetchAdd] at h
    · exact hs.keyWritten d t k v (by simpa only [fetchAdd, Function.update_of_ne hd] using h)
  · intro t h1 h2 h3
    have hne : t ≠ 1 + s.nSubmitted := by
      rintro rfl
      exact h3 c key val (by simp [fetchAdd, Client.call])
    have hfree : ∀ d k v, (s.clients d).call ≠ some (t, k, v) := by
      intro d k v hd
      by_cases hdc : d = c
      · subst hdc; simp [hidle, Client.call] at hd
      · exact h3 d k v (by simpa only [fetchAdd, Function.update_of_ne hdc] using hd)
    simp only [fetchAdd] at h2
    simpa only [fetchAdd, Function.update_of_ne hne] using hs.filled t h1 (by omega) hfree

theorem slots_leaveCheck {s : State ρ} (hs : Slots s) {c tid key val : Nat}
    (hc : s.clients c = .waiting tid key val) (hfree : tid < s.nCommitted + bufferSize) :
    Slots (leaveCheck s c tid key val) := by
  have hcall : ∀ d, ((leaveCheck s c tid key val).clients d).call = (s.clients d).call := by
    intro d
    by_cases hd : d = c
    · subst hd; simp [leaveCheck, hc, Client.call]
    · simp only [leaveCheck, Function.update_of_ne hd]
  refine { hs with called := ?_, unique := ?_, window := ?_, keyWritten := ?_, filled := ?_ }
  · exact fun d t k v h => hs.called d t k v (hcall d ▸ h)
  · exact fun d e t k v k' v' hd he => hs.unique d e t k v k' v' (hcall d ▸ hd) (hcall e ▸ he)
  · intro d t k v field h
    by_cases hd : d = c
    · subst hd
      simp only [leaveCheck, Function.update_self, Client.writing.injEq] at h ⊢
      omega
    · exact hs.window d t k v field (by simpa only [leaveCheck, Function.update_of_ne hd] using h)
  · intro d t k v h
    by_cases hd : d = c
    · subst hd; simp [leaveCheck] at h
    · exact hs.keyWritten d t k v (by simpa only [leaveCheck, Function.update_of_ne hd] using h)
  · exact fun t h1 h2 h3 => hs.filled t h1 h2 (fun d k v h => h3 d k v ((hcall d).trans h))

theorem Control.slot_ne {s : State ρ} (hs : Control s) {i j : Nat} (hne : i ≠ j)
    (hi : s.executed.length < i) (hi' : i < s.nCommitted + bufferSize)
    (hj : s.executed.length < j) (hj' : j < s.nCommitted + bufferSize) :
    i % bufferSize ≠ j % bufferSize := by
  have := hs.committed
  exact fun h => hne (slot_injective hi (by omega) hj (by omega) h)

theorem slots_writeField {s : State ρ} (hctl : Control s) (hs : Slots s) {c tid key val : Nat}
    {field : Field} (hc : s.clients c = .writing tid key val field) :
    Slots (writeField s c tid key val field) := by
  have hcall : (s.clients c).call = some (tid, key, val) := by rw [hc]; rfl
  obtain ⟨hlt, hle, hpassed⟩ := hs.called c tid key val hcall
  have hwin := hs.window c tid key val field hc
  have hsub : ∀ d t k v, ((writeField s c tid key val field).clients d).call = some (t, k, v) →
      (s.clients d).call = some (t, k, v) := by
    intro d t k v h
    by_cases hd : d = c
    · subst hd
      simp only [writeField, Function.update_self] at h
      rw [hcall, ← h]
      cases field <;> simp_all [Client.written, Client.call]
    · simpa only [writeField, Function.update_of_ne hd] using h
  refine { hs with called := ?_, unique := ?_, window := ?_, keyWritten := ?_, filled := ?_ }
  · exact fun d t k v h => hs.called d t k v (hsub d t k v h)
  · exact fun d e t k v k' v' hd he =>
      hs.unique d e t k v k' v' (hsub _ _ _ _ hd) (hsub _ _ _ _ he)
  · intro d t k v f h
    by_cases hd : d = c
    · subst hd
      have ht : t = tid := by cases field <;> simp_all [writeField, Client.written]
      exact ht ▸ hwin
    · exact hs.window d t k v f (by simpa only [writeField, Function.update_of_ne hd] using h)
  · intro d t k v h
    by_cases hd : d = c
    · subst hd
      cases field <;> simp_all [writeField, Client.written, Context.write]
    · simp only [writeField, Function.update_of_ne hd] at h ⊢
      have htc := hs.called d t k v (by rw [h]; rfl)
      have hne : t ≠ tid := fun he =>
        hd (hs.unique d c t k v key val (by rw [h]; rfl) (he ▸ hcall))
      rw [Function.update_of_ne (hctl.slot_ne hne htc.1 (hs.window d t k v _ h) hlt hwin)]
      exact hs.keyWritten d t k v h
  · intro t h1 h2 h3
    by_cases ht : t = tid
    · -- the last write completes the slot; after any other one the client still holds the tid
      subst ht
      cases field
      case val =>
        have hkey := hs.keyWritten c t key val hc
        refine ⟨hwin, ?_⟩
        simpa only [writeField, Function.update_self, Context.write, hkey] using hpassed
      all_goals
        exact absurd (by simp [writeField, Client.written, Client.call]) (h3 c key val)
    · have hfree : ∀ d k v, (s.clients d).call ≠ some (t, k, v) := by
        intro d k v hd
        by_cases hdc : d = c
        · subst hdc
          rw [hcall] at hd
          exact ht (by simpa using congrArg (Option.map Prod.fst) hd.symm)
        · exact h3 d k v (by simpa only [writeField, Function.update_of_ne hdc] using hd)
      obtain ⟨hw, hp⟩ := hs.filled t h1 h2 hfree
      refine ⟨hw, ?_⟩
      simpa only [writeField, Function.update_of_ne (hctl.slot_ne ht h1 hw hlt hwin)] using hp

theorem execNext_args (T : Handlers ρ) (s : State ρ) (slot : Nat) :
    ((execNext T s).ctxs slot).key = (s.ctxs slot).key ∧
      ((execNext T s).ctxs slot).val = (s.ctxs slot).val := by
  by_cases h : slot = (s.worker.next + 1) % bufferSize
  · subst h; simp [execNext, execTask]
  · simp [execNext, execTask, Function.update_of_ne h]

theorem slots_execNext {s : State ρ} (hctl : Control s) (hs : Slots s) (T : Handlers ρ)
    (hpc : s.worker.pc = .exec) (hlt : s.worker.next < s.worker.nSubmitted)
    (hready : ∀ c key val, (s.clients c).call ≠ some (s.worker.next + 1, key, val)) :
    Slots (execNext T s) := by
  have hpos : s.worker.next = s.executed.length := by simpa only [hpc] using hctl.position
  have hsub := hctl.loaded
  have hkey := fun slot => (execNext_args T s slot).1
  have hval := fun slot => (execNext_args T s slot).2
  obtain ⟨-, hpassed⟩ := hs.filled (s.worker.next + 1) (by omega) (by omega) hready
  constructor
  · intro tid k v h
    simp only [execNext, execTask, List.mem_append, List.mem_singleton, Prod.mk.injEq] at h
    rcases h with h | ⟨rfl, rfl, rfl⟩
    · exact hs.passed tid k v h
    · exact hpassed
  · intro c tid k v h
    obtain ⟨h1, h2, h3⟩ := hs.called c tid k v h
    have hne : tid ≠ s.worker.next + 1 := fun he => hready c k v (he ▸ h)
    exact ⟨by rw [length_execNext]; omega, h2, h3⟩
  · exact hs.unique
  · exact hs.window
  · intro c tid k v h
    rw [hkey]
    exact hs.keyWritten c tid k v h
  · intro tid h1 h2 h3
    rw [length_execNext] at h1
    rw [hkey, hval]
    exact hs.filled tid (by omega) h2 h3

theorem slots_workerStep {s : State ρ} (hctl : Control s) (hs : Slots s) (T : Handlers ρ)
    (hok : SlotFilled .worker s) : Slots (workerStep T s) := by
  cases hpc : s.worker.pc <;> simp only [workerStep, hpc]
  case exec =>
    by_cases hlt : s.worker.next < s.worker.nSubmitted
    · simpa only [hlt, if_true] using slots_execNext hctl hs T hpc hlt (hok hpc hlt)
    · simp only [hlt, if_false]
      exact { hs with }
  case publishCommitted =>
    have hpos : s.worker.nCommitted = s.executed.length := by simpa only [hpc] using hctl.position
    have hcom := hctl.committed
    refine { hs with window := ?_, filled := ?_ }
    · intro c tid key val field h
      have := hs.window c tid key val field h
      simp only; omega
    · intro tid h1 h2 h3
      obtain ⟨hw, hp⟩ := hs.filled tid h1 h2 h3
      exact ⟨by simp only; omega, hp⟩
  all_goals (try split) <;> exact { hs with }

theorem slots_step {T : Handlers ρ} {a : Actor} {s t : State ρ} (hctl : Control s) (hs : Slots s)
    (ha : SlotFilled a s) (h : Step T a s t) : Slots t := by
  cases h with
  | fetchAdd _ c key val hc hstop => exact slots_fetchAdd hctl hs hc key val
  | leaveCheck _ c tid key val hc hfree => exact slots_leaveCheck hs hc hfree
  | writeField _ c tid key val field hc => exact slots_writeField hctl hs hc
  | worker => exact slots_workerStep hctl hs T ha
  | stop => exact { hs with }

/-- As long as `exec_task_` is called only on tids whose client has left
`update`, no update is lost, over any number of rounds of the ring. -/
theorem noLostUpdate_when_filled (T : Handlers ρ) (tInit null : ρ) (s : State ρ)
    (hs : ReachableWhen (Step T) SlotFilled (initial tInit null) s) : NoLostUpdate T s := by
  have hinv := hs.invariant (fun s => Control s ∧ Slots s)
    ⟨control_initial tInit null, slots_initial tInit null⟩
    (fun a s t hs (ha : SlotFilled a s) (h : Step T a s t) =>
      ⟨control_step hs.1 h, slots_step hs.1 hs.2 ha h⟩)
  exact ⟨hinv.1.executedOnce, hinv.2.passed⟩

def recorder : Handlers (List (Nat × Nat)) := ⟨fun ctx => (ctx.key, ctx.val) :: ctx.tPast⟩

def finishUpdate (s : State ρ) (c tid key val : Nat) : State ρ :=
  [Field.op, .flags, .sno, .key, .val].foldl (fun s field => writeField s c tid key val field)
    (leaveCheck s c tid key val)

theorem finishUpdate_reachable {T : Handlers ρ} {s₀ s : State ρ}
    (h : ReachableWhen (Step T) SlotFilled s₀ s) (c tid key val : Nat)
    (hc : s.clients c = .waiting tid key val)
    (hfree : tid < s.nCommitted + bufferSize) :
    ReachableWhen (Step T) SlotFilled s₀ (finishUpdate s c tid key val) := by
  have hcheck := h.next (.client c) trivial (.leaveCheck s c tid key val hc hfree)
  have hop := hcheck.next (.client c) trivial
    (.writeField _ c tid key val .op (by simp [leaveCheck]))
  have hflags := hop.next (.client c) trivial
    (.writeField _ c tid key val .flags (by simp [writeField, Client.written]))
  have hsno := hflags.next (.client c) trivial
    (.writeField _ c tid key val .sno (by simp [writeField, Client.written]))
  have hkey := hsno.next (.client c) trivial
    (.writeField _ c tid key val .key (by simp [writeField, Client.written]))
  exact hkey.next (.client c) trivial
    (.writeField _ c tid key val .val (by simp [writeField, Client.written]))

def firstWritten : State (List (Nat × Nat)) :=
  finishUpdate (fetchAdd (fetchAdd (initial [] []) 0 5 7) 1 6 8) 0 1 5 7

theorem firstWritten_reachable :
    ReachableWhen (Step recorder) SlotFilled (initial [] []) firstWritten := by
  have hfirst : ReachableWhen (Step recorder) SlotFilled (initial [] [])
      (fetchAdd (initial [] []) 0 5 7) :=
    ReachableWhen.start.next (.client 0) trivial (.fetchAdd (initial [] []) 0 5 7 rfl rfl)
  have hsecond := hfirst.next (.client 1) trivial (.fetchAdd _ 1 6 8 rfl rfl)
  exact finishUpdate_reachable hsecond 0 1 5 7 rfl (by decide)

/-- The worker executes tid 1 while the client of tid 2 is still inside
`update`, and tid 2 once that client has left. -/
def bothExecuted : State (List (Nat × Nat)) :=
  workerStep recorder (finishUpdate ((workerStep recorder)^[4] firstWritten) 1 2 6 8)

theorem bothExecuted_reachable :
    ReachableWhen (Step recorder) SlotFilled (initial [] []) bothExecuted := by
  have htest := firstWritten_reachable.next .worker (by rintro ⟨⟩) (.worker _)
  have hstop := htest.next .worker (by rintro ⟨⟩) (.worker _)
  have hsubmitted := hstop.next .worker (by rintro ⟨⟩) (.worker _)
  have hexec := hsubmitted.next .worker (fun _ _ c key val => by
    match c with
    | 0 | 1 | _ + 2 => rintro ⟨⟩) (.worker _)
  have hwritten := finishUpdate_reachable hexec 1 2 6 8 rfl (by decide)
  exact hwritten.next .worker (fun _ _ c key val => by
    match c with
    | 0 | 1 | _ + 2 => rintro ⟨⟩) (.worker _)

theorem noLostUpdate_when_filled_bothExecuted :
    bothExecuted.executed = [(1, 5, 7), (2, 6, 8)] ∧
      (bothExecuted.ctxs 2).root = [(6, 8), (5, 7)] ∧ NoLostUpdate recorder bothExecuted :=
  ⟨by decide, by decide, noLostUpdate_when_filled recorder [] [] bothExecuted bothExecuted_reachable⟩

/-- One client that has obtained tid 1 and written nothing yet, and a worker
that has already seen this tid. -/
def overtaken : State (List (Nat × Nat)) :=
  (workerStep recorder)^[3] (fetchAdd (initial [] []) 0 5 7)

theorem overtaken_reachable : ReachableWhen (Step recorder) SlotFilled (initial [] []) overtaken := by
  have h0 : ReachableWhen (Step recorder) SlotFilled (initial [] []) (fetchAdd (initial [] []) 0 5 7) :=
    ReachableWhen.start.next (.client 0) trivial (.fetchAdd (initial [] []) 0 5 7 rfl rfl)
  have h1 := h0.next .worker (by rintro ⟨⟩) (.worker _)
  have h2 := h1.next .worker (by rintro ⟨⟩) (.worker _)
  exact h2.next .worker (by rintro ⟨⟩) (.worker _)

/-- In the full model the worker executes tid 1 before its client has written
the slot, so `update(5, 7)` runs as an update of key 0 with value 0. -/
theorem update_lost : ¬ ∀ s, Reachable (Step recorder) (initial [] []) s → NoLostUpdate recorder s := by
  intro h
  have hs := overtaken_reachable.reachable.next .worker (.worker _)
  have := (h _ hs).2 1 0 0 (by simp [overtaken, workerStep, execNext, execTask, fetchAdd, initial, Operand.done])
  simp [overtaken, workerStep, execNext, execTask, fetchAdd, initial] at this

end Contrees.Conctrl.Seqcow
