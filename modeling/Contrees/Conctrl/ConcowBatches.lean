import Contrees.Conctrl.ConcowRuns

namespace Contrees.Conctrl.Concow

open Library.Runs Library.TaskLedger

variable {ρ μ : Type} {K : Config ρ μ} {s t : State ρ μ} {φ : Nat → Phase Nat Nat} {pid n : Nat}
    {p p' : Pipe}

def PipePc.inside (pc : PipePc) : Bool :=
  match pc with
  | .testStop | .loadTasks | .finished => false
  | _ => true

/-- A pipe that has read `stop_` as not set, and is not through with its batch. -/
def Pipe.inBatch (p : Pipe) : Bool := !p.final && p.pc.inside

/-- The batches that a pipe starts begin behind submitted tids, and it returns
with the last submitted one behind it. -/
structure Pipe.Batched (p : Pipe) (nSubmitted : Nat) : Prop where
  final : p.final = true → p.last = nSubmitted ∧ p.pc ≠ .testStop ∧ p.pc ≠ .loadTasks
  finished : p.pc = .finished → p.final = true ∧ p.last < p.tid
  begun : p.epoch * batchSize < p.tid
  batch : p.inBatch = true → p.epoch * batchSize ≤ nSubmitted

theorem Pipe.Batched.move (h : p.Batched n) (hpc : p.pc.inside = true) (hpc' : p'.pc.inside = true)
    (hfinal : p'.final = p.final) (hlast : p'.last = p.last) (hepoch : p'.epoch = p.epoch)
    (htid : p.tid ≤ p'.tid) :
    p'.Batched n where
  final hf := by
    rw [hlast]
    refine ⟨(h.final (hfinal ▸ hf)).1, ?_, ?_⟩
    · rintro heq
      simp [heq, PipePc.inside] at hpc'
    · rintro heq
      simp [heq, PipePc.inside] at hpc'
  finished heq := by simp [heq, PipePc.inside] at hpc'
  begun := by
    rw [hepoch]
    exact h.begun.trans_le htid
  batch hbatch := by
    rw [hepoch]
    apply h.batch
    simp only [Pipe.inBatch, hfinal, hpc'] at hbatch
    simp only [Pipe.inBatch, hpc, hbatch]

theorem iterExec_inside (ctx : Context ρ) : (iterExec ctx).inside = true := by
  unfold iterExec
  split
  · rfl
  · split <;> rfl

theorem pipeStart_batch (pid : Nat) (p : Pipe) : (pipeStart K s pid p).pc.inside = true ∧
    (pipeStart K s pid p).final = p.final ∧ (pipeStart K s pid p).last = p.last ∧
      (pipeStart K s pid p).epoch = p.epoch := by
  have hiter := iterExec_inside (s.ctx p.tid)
  unfold pipeStart
  dsimp only
  repeat' split
  all_goals first | exact ⟨hiter, rfl, rfl, rfl⟩ | exact ⟨rfl, rfl, rfl, rfl⟩

theorem pipeStep_inside (hpc : (s.pipes pid).pc.inside = true) (hloop : (s.pipes pid).pc ≠ .loop) :
    ((pipeStep K pid s).pipes pid).pc.inside = true ∧
      ((pipeStep K pid s).pipes pid).final = (s.pipes pid).final ∧
      ((pipeStep K pid s).pipes pid).last = (s.pipes pid).last ∧
      ((pipeStep K pid s).pipes pid).epoch = (s.pipes pid).epoch ∧
      (s.pipes pid).tid ≤ ((pipeStep K pid s).pipes pid).tid := by
  have hiter := iterExec_inside (s.ctx (s.pipes pid).tid)
  have hstart := pipeStart_batch (K := K) (s := s) pid (s.pipes pid)
  cases hpc' : (s.pipes pid).pc <;> simp only [hpc', PipePc.inside] at hpc <;>
    simp only [pipeStep, hpc']
  case loop => exact absurd hpc' hloop
  case start => simpa [State.setPipe, pipeStart_tid] using hstart
  case retry =>
      split
      · simpa [State.setPipe] using hiter
      · simp [State.setPipe, PipePc.inside]
  case pop =>
      have hafter : (afterPop s).inside = true := by
        unfold afterPop
        split <;> rfl
      simpa [State.setPipe] using hafter
  case wait => split <;> simp [State.setPipe, PipePc.inside]
  case cpVersion => split <;> simp [State.setPipe, State.loadCno, State.setCtx, PipePc.inside, hpc']
  case version => split <;> simp [State.setPipe, State.loadCno, State.setCtx, PipePc.inside, hpc']
  case testStop | loadTasks | finished => exact absurd hpc Bool.false_ne_true
  all_goals simp [State.setPipe, PipePc.inside]

theorem Inv.batch_le (h : Inv K s φ) (hpid : pid ≤ K.nPipes) (hstop : s.stop = false)
    (hpc : (s.pipes pid).pc = .testStop) : (s.pipes pid).epoch * batchSize ≤ s.nSubmitted := by
  have hepoch : (s.pipes pid).tid = (s.pipes pid).epoch * batchSize + 1 :=
    (h.order.pipes pid hpid).epoch (.inl hpc)
  have hle := h.order.tid_le (Nat.zero_le _) hpid
  have hentry := h.entry_le hstop
  have : (s.pipes 0).tid ≤ s.entry := by
    rw [State.entry]
    split <;> omega
  omega

theorem batched_pipeStep (h : Inv K s φ) (hpid : pid ≤ K.nPipes)
    (hbatched : (s.pipes pid).Batched s.nSubmitted) :
    ((pipeStep K pid s).pipes pid).Batched s.nSubmitted := by
  cases hinside : (s.pipes pid).pc.inside with
  | true =>
      by_cases hloop : (s.pipes pid).pc = .loop
      · simp only [pipeStep, hloop]
        split
        · have hmove : Pipe.Batched { s.pipes pid with pc := .wait } s.nSubmitted :=
            hbatched.move hinside rfl rfl rfl rfl le_rfl
          simpa [State.setPipe] using hmove
        · rename_i hlast
          split
          · rename_i hfinal
            refine ⟨fun _ => ?_, fun _ => ?_, ?_, fun hbatch => ?_⟩
            · simpa [State.setPipe] using (hbatched.final hfinal).1
            · simpa [State.setPipe, hfinal] using hlast
            · simpa [State.setPipe] using hbatched.begun
            · simp [State.setPipe, Pipe.inBatch, PipePc.inside] at hbatch
          · rename_i hfinal
            have hordered : (s.pipes pid).Ordered (s.paces pid) s.stop := h.order.pipes pid hpid
            have hlast' :=
              (hordered.batch (by simpa using hfinal) (by simp [hloop]) (by simp [hloop])).1
            refine ⟨fun hf => ?_, fun hpc => ?_, ?_, fun hbatch => ?_⟩
            · simp [State.setPipe, hfinal] at hf
            · simp [State.setPipe] at hpc
            · simpa [State.setPipe, ← hlast'] using hlast
            · simp [State.setPipe, Pipe.inBatch, PipePc.inside] at hbatch
      · obtain ⟨hpc', hfinal, hlast, hepoch, htid⟩ := pipeStep_inside (K := K) hinside hloop
        exact hbatched.move hinside hpc' hfinal hlast hepoch htid
  | false =>
      cases hpc : (s.pipes pid).pc <;> simp only [hpc, PipePc.inside] at hinside
      case testStop =>
          have hfinal : (s.pipes pid).final = false := by
            by_contra hf
            exact (hbatched.final (by simpa using hf)).2.1 hpc
          simp only [pipeStep, hpc]
          split
          · refine ⟨fun hf => ?_, fun hpc' => ?_, ?_, fun hbatch => ?_⟩
            · simp [State.setPipe, hfinal] at hf
            · simp [State.setPipe] at hpc'
            · simpa [State.setPipe] using hbatched.begun
            · simp [State.setPipe, Pipe.inBatch, PipePc.inside] at hbatch
          · rename_i hstop
            refine ⟨fun hf => ?_, fun hpc' => ?_, ?_, fun _ => ?_⟩
            · simp [State.setPipe, hfinal] at hf
            · simp [State.setPipe] at hpc'
            · simp [State.setPipe]
            · simpa [State.setPipe] using h.batch_le hpid (by simpa using hstop) hpc
      case loadTasks =>
          simp only [pipeStep, hpc]
          refine ⟨fun _ => ?_, fun hpc' => ?_, ?_, fun hbatch => ?_⟩
          · simp [State.setPipe]
          · simp [State.setPipe] at hpc'
          · simp [State.setPipe]
          · simp [State.setPipe, Pipe.inBatch] at hbatch
      case finished =>
          simp only [pipeStep, hpc]
          exact hbatched
      all_goals exact absurd hinside (by simp)

theorem batched_fetchTid (h : Inv K s φ) {c key val : Nat} (hc : s.clients c = .fetch key val)
    (hpid : pid ≤ K.nPipes) (hbatched : (s.pipes pid).Batched s.nSubmitted) :
    (s.pipes pid).Batched (1 + s.nSubmitted) := by
  have hstop : ¬ s.stop = true := by
    intro hstop
    simp [h.closing.quiet hstop c] at hc
  have hstopping := (h.order.pipes pid hpid).stopping
  exact ⟨fun hf => absurd (hstopping (.inl hf)) hstop,
    fun hpc => absurd (hstopping (.inr (.inr hpc))) hstop,
    hbatched.begun, fun hbatch => (hbatched.batch hbatch).trans (Nat.le_add_left _ _)⟩

theorem batched_clientStep (h : Inv K s φ) (hpid : pid ≤ K.nPipes) (c : Nat)
    (hbatched : (s.pipes pid).Batched s.nSubmitted) :
    ((clientStep c s).pipes pid).Batched (clientStep c s).nSubmitted := by
  cases hc : s.clients c <;> simp only [clientStep, hc]
  case fetch key val => exact batched_fetchTid h hc hpid hbatched
  case waiting =>
      split
      · exact hbatched
      · split <;> exact hbatched
  case writing tid key val field => cases field <;> exact hbatched
  all_goals exact hbatched

theorem batched_step (h : Inv K s φ)
    (hbatched : ∀ pid ≤ K.nPipes, (s.pipes pid).Batched s.nSubmitted)
    {a : Label} (ha : Step K a s t) : ∀ pid ≤ K.nPipes, (t.pipes pid).Batched t.nSubmitted := by
  intro pid hpid
  cases ha with
  | update _ c key val hc hd => exact hbatched pid hpid
  | destroy _ hc hd => exact hbatched pid hpid
  | thread _ θ hθ =>
      cases θ with
      | client c => exact batched_clientStep h hpid c (hbatched pid hpid)
      | monitor =>
          rw [step, monitorStep_writes]
          exact hbatched pid hpid
      | pipe q =>
          have hsubmitted : (pipeStep K q s).nSubmitted = s.nSubmitted := by rw [pipeStep_writes]
          rw [step, hsubmitted]
          by_cases hq : pid = q
          · subst hq
            exact batched_pipeStep h hpid (hbatched pid hpid)
          · rw [pipeStep_pipes_of_ne hq]
            exact hbatched pid hpid
      | worker wid =>
          rw [step, workerStep_writes]
          exact hbatched pid hpid
      | destructor =>
          rw [step, destructorStep_writes]
          exact hbatched pid hpid

theorem batched_of_reachable (hs : Reachable (Step K) (initial K) s) :
    ∀ pid ≤ K.nPipes, (s.pipes pid).Batched s.nSubmitted := by
  have key : Reachable (Step K) (initial K) s ∧
      ∀ pid ≤ K.nPipes, (s.pipes pid).Batched s.nSubmitted := by
    refine hs.invariant (fun s => Reachable (Step K) (initial K) s ∧
      ∀ pid ≤ K.nPipes, (s.pipes pid).Batched s.nSubmitted) ⟨Reachable.start, ?_⟩ ?_
    · intro pid _
      constructor <;> simp [initial, Pipe.inBatch, PipePc.inside]
    · rintro a s t ⟨hs, hbatched⟩ - ha
      obtain ⟨φ, h⟩ := inv_of_reachable hs
      exact ⟨hs.next a ha, batched_step h hbatched ha⟩
  exact key.2

section Lined

def Pipe.Stopping (p : Pipe) : Prop := p.final = true ∨ p.pc = .loadTasks

/-- A pipe that reads `stop_` as set does not leave its successor behind in the
batch that it would have started itself. -/
def Lined (K : Config ρ μ) : Label → State ρ μ → Prop
  | .thread (.pipe pid), s =>
      pid < K.nPipes → (s.pipes pid).pc = .testStop → s.stop = true →
        (s.pipes (pid + 1)).inBatch = true → (s.pipes (pid + 1)).epoch = (s.pipes pid).epoch →
          ((s.pipes pid).epoch + 1) * batchSize ≤ s.nSubmitted
  | _, _ => True

def Handed (K : Config ρ μ) (s : State ρ μ) : Prop :=
  ∀ pid < K.nPipes, (s.pipes pid).Stopping → (s.pipes (pid + 1)).inBatch = true →
    ((s.pipes (pid + 1)).epoch + 1) * batchSize ≤ max ((s.pipes pid).epoch * batchSize) s.nSubmitted

theorem Handed.frame (h : Handed K s) (hpipes : t.pipes = s.pipes)
    (hsubmitted : s.nSubmitted ≤ t.nSubmitted) :
    Handed K t := by
  intro pid hpid hstopping hbatch
  rw [hpipes] at hstopping hbatch ⊢
  exact (h pid hpid hstopping hbatch).trans (max_le_max le_rfl hsubmitted)

theorem inBatch_of_pipeStep (hbatch : ((pipeStep K pid s).pipes pid).inBatch = true) :
    s.stop = false ∨
      (s.pipes pid).inBatch = true ∧
      ((pipeStep K pid s).pipes pid).epoch = (s.pipes pid).epoch := by
  cases hinside : (s.pipes pid).pc.inside with
  | true =>
      by_cases hloop : (s.pipes pid).pc = .loop
      · simp only [pipeStep, hloop] at hbatch ⊢
        split at hbatch
        · rename_i hmore
          rw [if_pos hmore]
          refine .inr ⟨?_, by simp [State.setPipe]⟩
          simpa [State.setPipe, Pipe.inBatch, PipePc.inside, hloop] using hbatch
        · split at hbatch <;> simp [State.setPipe, Pipe.inBatch, PipePc.inside] at hbatch
      · obtain ⟨hpc', hfinal, -, hepoch, -⟩ := pipeStep_inside (K := K) hinside hloop
        refine .inr ⟨?_, hepoch⟩
        simp only [Pipe.inBatch, hfinal, hpc'] at hbatch
        simp only [Pipe.inBatch, hinside, hbatch]
  | false =>
      cases hpc : (s.pipes pid).pc <;> simp only [hpc, PipePc.inside] at hinside
      case testStop =>
          simp only [pipeStep, hpc] at hbatch
          split at hbatch
          · simp [State.setPipe, Pipe.inBatch, PipePc.inside] at hbatch
          · exact .inl (by simpa using ‹¬ s.stop = true›)
      case loadTasks => simp [pipeStep, hpc, State.setPipe, Pipe.inBatch] at hbatch
      case finished => simp [pipeStep, hpc, Pipe.inBatch, PipePc.inside] at hbatch
      all_goals exact absurd hinside (by simp)

theorem stopping_of_pipeStep (h : (s.pipes pid).Batched n)
    (hstopping : ((pipeStep K pid s).pipes pid).Stopping) :
    ((pipeStep K pid s).pipes pid).epoch = (s.pipes pid).epoch ∧
      ((s.pipes pid).Stopping ∨ (s.pipes pid).pc = .testStop ∧ s.stop = true) := by
  cases hinside : (s.pipes pid).pc.inside with
  | true =>
      by_cases hloop : (s.pipes pid).pc = .loop
      · simp only [pipeStep, hloop] at hstopping ⊢
        split at hstopping
        · rename_i hmore
          rw [if_pos hmore]
          refine ⟨by simp [State.setPipe], .inl ?_⟩
          simpa [State.setPipe, Pipe.Stopping, hloop] using hstopping
        · rename_i hmore
          rw [if_neg hmore]
          split at hstopping
          · rename_i hfinal
            rw [if_pos hfinal]
            exact ⟨by simp [State.setPipe], .inl (.inl hfinal)⟩
          · rename_i hfinal
            exact absurd hstopping (by simpa [State.setPipe, Pipe.Stopping] using hfinal)
      · obtain ⟨hpc', hfinal, -, hepoch, -⟩ := pipeStep_inside (K := K) hinside hloop
        refine ⟨hepoch, .inl (.inl ?_)⟩
        rcases hstopping with hf | hload
        · rwa [hfinal] at hf
        · simp [hload, PipePc.inside] at hpc'
  | false =>
      cases hpc : (s.pipes pid).pc <;> simp only [hpc, PipePc.inside] at hinside
      case testStop =>
          simp only [pipeStep, hpc] at hstopping ⊢
          split at hstopping
          · rename_i hstop
            rw [if_pos hstop]
            exact ⟨by simp [State.setPipe], .inr ⟨trivial, hstop⟩⟩
          · rcases hstopping with hf | hload
            · simp only [State.setPipe, Function.update_self] at hf
              exact absurd hpc (h.final hf).2.1
            · simp [State.setPipe] at hload
      case loadTasks => exact ⟨by simp [pipeStep, hpc, State.setPipe], .inl (.inr hpc)⟩
      case finished => exact ⟨by simp [pipeStep, hpc], .inl (.inl (h.finished hpc).1)⟩
      all_goals exact absurd hinside (by simp)

theorem handed_pipeStep (h : Inv K s φ)
    (hbatched : ∀ pid ≤ K.nPipes, (s.pipes pid).Batched s.nSubmitted)
    (hhanded : Handed K s) (hlined : Lined K (.thread (.pipe pid)) s) :
    Handed K (pipeStep K pid s) := by
  have hsubmitted : (pipeStep K pid s).nSubmitted = s.nSubmitted := by rw [pipeStep_writes]
  intro q hq hstopping hbatch
  rw [hsubmitted]
  by_cases hpred : q = pid
  · subst hpred
    have hsucc : (pipeStep K q s).pipes (q + 1) = s.pipes (q + 1) :=
      pipeStep_pipes_of_ne (Nat.succ_ne_self q)
    rw [hsucc] at hbatch ⊢
    obtain ⟨hepoch, hstopped | ⟨htest, hstop⟩⟩ := stopping_of_pipeStep (hbatched q hq.le) hstopping
    · rw [hepoch]
      exact hhanded q hq hstopped hbatch
    · rw [hepoch]
      have hbound : (s.pipes q).tid = (s.pipes q).epoch * batchSize + 1 :=
        (h.order.pipes q hq.le).epoch (.inl htest)
      have hbegun := (hbatched (q + 1) hq).begun
      have htid := h.order.tid_le (Nat.le_add_right q 1) hq
      have hle : (s.pipes (q + 1)).epoch ≤ (s.pipes q).epoch := by
        by_contra hlt
        have hnext : ((s.pipes q).epoch + 1) * batchSize ≤ (s.pipes (q + 1)).epoch * batchSize :=
          Nat.mul_le_mul_right batchSize (not_le.mp hlt)
        have hbatch : 0 < batchSize := by decide
        rw [Nat.succ_mul] at hnext
        omega
      rcases hle.eq_or_lt with heq | hlt
      · rw [heq]
        exact (hlined hq htest hstop hbatch heq).trans (le_max_right _ _)
      · exact (Nat.mul_le_mul_right batchSize hlt).trans (le_max_left _ _)
  · rw [pipeStep_pipes_of_ne hpred] at hstopping ⊢
    by_cases hsucc : q + 1 = pid
    · subst hsucc
      rcases inBatch_of_pipeStep hbatch with hstop | ⟨hbefore, hepoch⟩
      · have hset : s.stop = true := (h.order.pipes q hq.le).stopping (by
          rcases hstopping with hf | hload
          · exact .inl hf
          · exact .inr (.inl hload))
        simp [hset] at hstop
      · rw [hepoch]
        exact hhanded q hq hstopping hbefore
    · rw [pipeStep_pipes_of_ne hsucc] at hbatch ⊢
      exact hhanded q hq hstopping hbatch

theorem clientStep_nSubmitted (c : Nat) : s.nSubmitted ≤ (clientStep c s).nSubmitted := by
  cases hc : s.clients c <;> simp only [clientStep, hc]
  case fetch => exact Nat.le_add_left _ _
  case waiting =>
      split
      · exact le_rfl
      · split <;> exact le_rfl
  case writing tid key val field => cases field <;> exact le_rfl
  all_goals exact le_rfl

theorem handed_step (h : Inv K s φ)
    (hbatched : ∀ pid ≤ K.nPipes, (s.pipes pid).Batched s.nSubmitted)
    (hhanded : Handed K s) {a : Label} (hlined : Lined K a s) (ha : Step K a s t) : Handed K t := by
  cases ha with
  | update | destroy => exact hhanded.frame rfl le_rfl
  | thread _ θ hθ =>
      cases θ with
      | client c =>
          refine hhanded.frame ?_ (clientStep_nSubmitted c)
          rw [step, clientStep_writes]
      | monitor =>
          exact hhanded.frame (by rw [step, monitorStep_writes])
            (by rw [step, monitorStep_writes])
      | pipe pid => exact handed_pipeStep h hbatched hhanded hlined
      | worker wid =>
          exact hhanded.frame (by rw [step, workerStep_writes])
            (by rw [step, workerStep_writes])
      | destructor =>
          exact hhanded.frame (by rw [step, destructorStep_writes])
            (by rw [step, destructorStep_writes])

/-- Where the pipes stay lined up, no pipe is left in a batch that its predecessor does not fill up. -/
theorem handed_of_reachable (hs : ReachableWhen (Step K) (Lined K) (initial K) s) : Handed K s := by
  have key : Reachable (Step K) (initial K) s ∧ Handed K s := by
    refine hs.invariant (fun s => Reachable (Step K) (initial K) s ∧ Handed K s)
      ⟨Reachable.start, ?_⟩ ?_
    · intro pid _ hstopping
      simp [initial, Pipe.Stopping] at hstopping
    · rintro a s t ⟨hs, hhanded⟩ hlined ha
      obtain ⟨φ, h⟩ := inv_of_reachable hs
      exact ⟨hs.next a ha, handed_step h (batched_of_reachable hs) hhanded hlined ha⟩
  exact key.2

end Lined

end Contrees.Conctrl.Concow
