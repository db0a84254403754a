import Contrees.Conctrl.ConcowBatches
import Mathlib.Data.Nat.Find

namespace Contrees.Conctrl.Concow

open Library.Runs Library.TaskLedger

variable {ρ μ : Type} {K : Config ρ μ} {s t : State ρ μ} {φ : Nat → Phase Nat Nat} {θ : Thread}

structure Shared (ρ : Type) where
  root : Option ρ
  nSubmitted : Nat
  nCommitted : Nat
  checkpoint : Nat
  paces : Nat → Nat
  stages : Nat → Word
  tids : Nat → Word
  next : MpscList.Node Nat → Option (MpscList.Node Nat)
  head : MpscList.Node Nat
  calls : List (Call ρ)

def State.shared (s : State ρ μ) : Shared ρ where
  root := s.root
  nSubmitted := s.nSubmitted
  nCommitted := s.nCommitted
  checkpoint := s.checkpoint
  paces := s.paces
  stages := s.stages
  tids := s.tids
  next := s.available.next
  head := s.available.head
  calls := s.calls

/-- A thread that spins reads the same words again and again: left alone, it
never makes a call and never writes anything that another thread could see. -/
def Spins (K : Config ρ μ) (θ : Thread) (s : State ρ μ) : Prop :=
  ∀ n, ((step K θ)^[n] s).shared = s.shared

structure Pending (K : Config ρ μ) (s : State ρ μ) : Prop where
  reached : Reachable (Step K) (initial K) s
  bounded : s.nSubmitted < 2 ^ 32
  pending : s.nCommitted < s.nSubmitted

section Spins

theorem Spins.same (h : Spins K θ s) : (step K θ s).shared = s.shared := h 1

theorem Spins.next (h : Spins K θ s) :
    Spins K θ (step K θ s) := fun n => (h (n + 1)).trans h.same.symm

theorem not_spins_of_step (hstep : step K θ s = t) (h : t.shared = s.shared → ¬ Spins K θ t) :
    ¬ Spins K θ s := by
  subst hstep
  exact fun hspins => h hspins.same hspins.next

theorem Pending.move (h : Pending K s) (θ : Thread) (hθ : θ.Runs K) (hstep : step K θ s = t)
    (hsame : t.shared = s.shared) : Pending K t := by
  have hsubmitted : t.nSubmitted = s.nSubmitted := congrArg Shared.nSubmitted hsame
  have hcommitted : t.nCommitted = s.nCommitted := congrArg Shared.nCommitted hsame
  subst hstep
  refine ⟨h.reached.next (.thread θ) (.thread s θ hθ), ?_, ?_⟩
  · rw [hsubmitted]
    exact h.bounded
  · rw [hsubmitted, hcommitted]
    exact h.pending

theorem Pending.inv (h : Pending K s) : ∃ φ, Inv K s φ := inv_of_reachable h.reached

theorem ver_le {past : Option ρ} {n : Nat} (hpast : K.tidOf past < n + 1) : K.ver past ≤ n :=
  (Nat.mod_le _ _).trans (Nat.lt_succ_iff.mp hpast)

theorem loadCno_ctx (h : s.nCommitted < 2 ^ 32) (t : Nat) :
    (s.loadCno t).ctx t = { s.ctx t with cno := s.nCommitted } := by
  have hmod : s.nCommitted % 2 ^ 32 = s.nCommitted := Nat.mod_eq_of_lt h
  rw [State.loadCno, hmod]
  exact Function.update_self _ _ _

end Spins

section Clients

variable {c tid key val : Nat}

theorem writing_not_spins {field : Field} (hc : s.clients c = .writing tid key val field)
    (hstage : s.stages (tid % bufferSize) ≠ 0) : ¬ Spins K (.client c) s := by
  have hlast : ∀ s : State ρ μ, s.clients c = .writing tid key val .stage →
      s.stages (tid % bufferSize) ≠ 0 → ¬ Spins K (.client c) s := by
    intro s hc hstage
    refine not_spins_of_step rfl fun hsame => ?_
    have hstages := congrFun (congrArg Shared.stages hsame) (tid % bufferSize)
    simp [State.shared, step, clientStep, writeField, hc, State.setClient,
      State.setStage] at hstages
    exact absurd hstages.symm hstage
  have hnext : ∀ (s t : State ρ μ) (f f' : Field), s.clients c = .writing tid key val f →
      s.stages (tid % bufferSize) ≠ 0 → writeField s c tid key val f = t →
      t.clients c = .writing tid key val f' →
      (∀ s : State ρ μ, s.clients c = .writing tid key val f' → s.stages (tid % bufferSize) ≠ 0 →
        ¬ Spins K (.client c) s) → ¬ Spins K (.client c) s := by
    intro s t f f' hc hstage hwrite hc' h
    have hstep : step K (.client c) s = t := by simp [step, clientStep, hc, hwrite]
    refine not_spins_of_step hstep fun hsame => h t hc' ?_
    have hstages : t.stages = s.stages := congrArg Shared.stages hsame
    rwa [hstages]
  have hval :=
    fun s hc hstage => hnext s _ .val .stage hc hstage rfl (Function.update_self _ _ _) hlast
  have hkey :=
    fun s hc hstage => hnext s _ .key .val hc hstage rfl (Function.update_self _ _ _) hval
  have hsno :=
    fun s hc hstage => hnext s _ .sno .key hc hstage rfl (Function.update_self _ _ _) hkey
  have hflags :=
    fun s hc hstage => hnext s _ .flags .sno hc hstage rfl (Function.update_self _ _ _) hsno
  have hop :=
    fun s hc hstage => hnext s _ .op .flags hc hstage rfl (Function.update_self _ _ _) hflags
  cases field with
  | op => exact hop s hc hstage
  | flags => exact hflags s hc hstage
  | sno => exact hsno s hc hstage
  | key => exact hkey s hc hstage
  | val => exact hval s hc hstage
  | stage => exact hlast s hc hstage

theorem bubbling_not_spins (hmod : tid % bufferSize = 0) (hstage : s.stages (tid % bufferSize) ≠ 0)
    (hc : s.clients c = .bubbleSno tid key val ∨ s.clients c = .bubbleStage tid key val) :
    ¬ Spins K (.client c) s := by
  rw [hmod] at hstage
  have hlast : ∀ s : State ρ μ, s.clients c = .bubbleStage tid key val → s.stages 0 ≠ 0 →
      ¬ Spins K (.client c) s := by
    intro s hc hstage
    refine not_spins_of_step rfl fun hsame => ?_
    have hstages := congrFun (congrArg Shared.stages hsame) 0
    simp [State.shared, step, clientStep, hc, State.setClient, State.setStage] at hstages
    exact absurd hstages.symm hstage
  rcases hc with hc | hc
  · have hstep : step K (.client c) s =
        (s.setCtx 0 { s.ctxs 0 with sno := tid % 2 ^ 32 }).setClient c
          (.bubbleStage tid key val) := by
      simp [step, clientStep, hc]
    refine not_spins_of_step hstep fun _ => hlast _ (Function.update_self _ _ _) hstage
  · exact hlast s hc hstage

theorem held_not_spins (h : Inv K s φ) (hc : (s.clients c).tid = some (s.nCommitted + 1)) :
    ¬ Spins K (.client c) s := by
  have hroom : ¬ s.nCommitted + bufferSize ≤ s.nCommitted + 1 := by
    have : 1 < bufferSize := by decide
    omega
  obtain ⟨hφ, hC, -⟩ := h.held hc
  have hcontent := h.content hC (not_le.mp hroom).le
  rw [hφ] at hcontent
  have hstage : s.stages ((s.nCommitted + 1) % bufferSize) ≠ 0 := by
    rw [hcontent.1]
    exact WithTop.top_ne_zero
  cases hclient : s.clients c with
  | idle => simp [hclient, Client.tid] at hc
  | fetch key val => simp [hclient, Client.tid] at hc
  | waiting tid key val =>
      obtain rfl : tid = s.nCommitted + 1 := by simpa [hclient, Client.tid] using hc
      by_cases hmod : (s.nCommitted + 1) % bufferSize = 0
      · have hstep : step K (.client c) s = s.setClient c
            (.bubbleSno (s.nCommitted + 1) key val) := by
          simp only [step, clientStep, hclient, if_neg hroom, if_neg (not_not.mpr hmod)]
        exact not_spins_of_step hstep fun _ =>
          bubbling_not_spins hmod hstage (.inl (Function.update_self _ _ _))
      · have hstep : step K (.client c) s = s.setClient c
            (.writing (s.nCommitted + 1) key val .op) := by
          simp only [step, clientStep, hclient, if_neg hroom, if_pos hmod]
        exact not_spins_of_step hstep fun _ => writing_not_spins (Function.update_self _ _ _) hstage
  | bubbleSno tid key val =>
      obtain rfl : tid = s.nCommitted + 1 := by simpa [hclient, Client.tid] using hc
      exact bubbling_not_spins (h.slots.bubbling c _ key val (.inl hclient)) hstage (.inl hclient)
  | bubbleStage tid key val =>
      obtain rfl : tid = s.nCommitted + 1 := by simpa [hclient, Client.tid] using hc
      exact bubbling_not_spins (h.slots.bubbling c _ key val (.inr hclient)) hstage (.inr hclient)
  | writing tid key val field =>
      obtain rfl : tid = s.nCommitted + 1 := by simpa [hclient, Client.tid] using hc
      exact writing_not_spins hclient hstage

end Clients

section Workers

variable {wid : Nat}

structure Working (K : Config ρ μ) (wid : Nat) (s : State ρ μ) : Prop extends Pending K s where
  runs : wid < K.nWorkers
  tid : (s.workers wid).tid = s.nCommitted + 1

theorem Working.move (h : Working K wid s) (hstep : step K (.worker wid) s = t)
    (hsame : t.shared = s.shared) (htid : (t.workers wid).tid = (s.workers wid).tid) :
    Working K wid t where
  toPending := h.toPending.move (.worker wid) h.runs hstep hsame
  runs := h.runs
  tid := by
    have hcommitted : t.nCommitted = s.nCommitted := congrArg Shared.nCommitted hsame
    rw [htid, h.tid, hcommitted]

theorem Working.setWorker (h : Working K wid s) {w : Worker}
    (hstep : step K (.worker wid) s = s.setWorker wid w) (htid : w.tid = (s.workers wid).tid) :
    Working K wid (s.setWorker wid w) := by
  refine h.move hstep rfl ?_
  simp [State.setWorker, htid]

theorem Working.content (h : Working K wid s)
    (hbusy : (s.workers wid).task (s.tids wid) = some (s.workers wid).tid) :
    s.stages ((s.workers wid).tid % bufferSize) ≠ ⊤ ∧
    Begun K (s.workers wid).tid (s.ctx (s.workers wid).tid) := by
  obtain ⟨φ, hinv⟩ := h.inv
  obtain ⟨hφ, hC, -, hlt⟩ := hinv.task_window (t := (s.workers wid).tid) hbusy
  have hcontent := hinv.content hC hlt.le
  rw [hφ] at hcontent
  exact ⟨hcontent.1, hcontent.2.2⟩

theorem Working.ver_le (hK : Always K (Sound K)) (h : Working K wid s)
    (hbusy : (s.workers wid).task (s.tids wid) = some (s.workers wid).tid) :
    K.ver (s.ctx (s.workers wid).tid).tPast ≤ s.nCommitted := by
  have hpast := (h.content hbusy).2.past hK
  rw [h.tid] at hpast ⊢
  exact Concow.ver_le hpast

theorem worker_handle_not_spins (hpc : (s.workers wid).pc = .handle) :
    ¬ Spins K (.worker wid) s := by
  refine not_spins_of_step rfl fun hsame => ?_
  have hcalls := congrArg Shared.calls hsame
  simp [State.shared, step, workerStep, hpc, State.call, State.setWorker] at hcalls

theorem worker_finish_not_spins (h : Working K wid s)
    (hpc : (s.workers wid).pc = .finish) : ¬ Spins K (.worker wid) s := by
  obtain ⟨hstage, hbegun⟩ := h.content (by simp [Worker.task, hpc])
  have hslot : (s.ctx (s.workers wid).tid).sno % bufferSize = (s.workers wid).tid % bufferSize := by
    rw [hbegun.sno, sno_slot]
  refine not_spins_of_step rfl fun hsame => ?_
  have hstages := congrFun (congrArg Shared.stages hsame) ((s.workers wid).tid % bufferSize)
  simp [State.shared, step, workerStep, hpc, State.setWorker, State.setStage, hslot] at hstages
  exact absurd hstages.symm hstage

theorem worker_wait_not_spins (hK : Always K (Sound K)) (h : Working K wid s)
    (hpc : (s.workers wid).pc = .version ∨ (s.workers wid).pc = .waitStage) :
    ¬ Spins K (.worker wid) s := by
  have hfresh : ∀ s : State ρ μ, (s.workers wid).pc = .version ∨ (s.workers wid).pc = .waitStage →
      K.ver (s.ctx (s.workers wid).tid).tPast ≤ (s.ctx (s.workers wid).tid).cno →
      ¬ Spins K (.worker wid) s := by
    intro s hpc hcno
    have hstep : step K (.worker wid) s = s.setWorker wid { s.workers wid with pc := .handle } := by
      rcases hpc with hpc | hpc <;> simp [step, workerStep, hpc, not_lt.mpr hcno]
    exact not_spins_of_step hstep fun _ => worker_handle_not_spins (by simp [State.setWorker])
  have hbusy : (s.workers wid).task (s.tids wid) = some (s.workers wid).tid := by
    rcases hpc with hpc | hpc <;> simp [Worker.task, hpc]
  have hver := h.ver_le hK hbusy
  by_cases hcno : (s.ctx (s.workers wid).tid).cno < K.ver (s.ctx (s.workers wid).tid).tPast
  · rcases hpc with hpc | hpc
    · have hstep : step K (.worker wid) s = s.loadCno (s.workers wid).tid := by
        simp [step, workerStep, hpc, hcno]
      refine not_spins_of_step hstep fun _ => hfresh _ (.inl hpc) ?_
      change K.ver ((s.loadCno (s.workers wid).tid).ctx (s.workers wid).tid).tPast ≤
        ((s.loadCno (s.workers wid).tid).ctx (s.workers wid).tid).cno
      rw [loadCno_ctx (h.pending.trans h.bounded)]
      exact hver
    · by_cases hstage : (((s.workers wid).stage +
        (s.ctx (s.workers wid).tid).waitChild.toNat : Nat) : Word) ≤
          s.stages (K.ver (s.ctx (s.workers wid).tid).tPast % bufferSize)
      · have hstep : step K (.worker wid) s =
          s.setWorker wid { s.workers wid with pc := .handle } := by
          simp only [step, workerStep, hpc, if_pos hcno, if_pos hstage]
        exact not_spins_of_step hstep fun _ => worker_handle_not_spins (by simp [State.setWorker])
      · have hstep : step K (.worker wid) s =
          s.setWorker wid { s.workers wid with pc := .reload } := by
          simp only [step, workerStep, hpc, if_pos hcno, if_neg hstage]
        refine not_spins_of_step hstep fun _ => ?_
        set s₁ := s.setWorker wid { s.workers wid with pc := .reload } with hs₁
        have h₁ : Working K wid s₁ := h.setWorker hstep rfl
        have hself : s₁.workers wid = { s.workers wid with pc := .reload } :=
          Function.update_self _ _ _
        have hstep₁ : step K (.worker wid) s₁ = (s₁.loadCno (s.workers wid).tid).setWorker wid
            { s.workers wid with pc := .waitStage } := by
          simp only [step, workerStep, hself]
        refine not_spins_of_step hstep₁ fun _ => hfresh _ ?_ ?_
        · simp [State.setWorker]
        · have hctx := loadCno_ctx (h₁.pending.trans h₁.bounded) (s.workers wid).tid
          simp only [State.setWorker, Function.update_self]
          change K.ver ((s₁.loadCno (s.workers wid).tid).ctx (s.workers wid).tid).tPast ≤
            ((s₁.loadCno (s.workers wid).tid).ctx (s.workers wid).tid).cno
          rw [hctx]
          exact hver
  · rcases hpc with hpc | hpc
    · exact hfresh s (.inl hpc) (not_lt.mp hcno)
    · exact hfresh s (.inr hpc) (not_lt.mp hcno)

theorem worker_test_not_spins (hK : Always K (Sound K)) (h : Working K wid s)
    (hpc : (s.workers wid).pc = .test) : ¬ Spins K (.worker wid) s := by
  by_cases hop : (s.ctx (s.workers wid).tid).op = Operand.done
  · have hstep : step K (.worker wid) s = s.setWorker wid { s.workers wid with pc := .finish } := by
      simp [step, workerStep, hpc, hop]
    exact not_spins_of_step hstep fun _ =>
      worker_finish_not_spins (h.setWorker hstep rfl) (by simp [State.setWorker])
  · have hstep : step K (.worker wid) s =
        s.setWorker wid { s.workers wid with pc := workerExec (s.ctx (s.workers wid).tid) } := by
      simp [step, workerStep, hpc, hop]
    refine not_spins_of_step hstep fun _ => worker_wait_not_spins hK (h.setWorker hstep rfl) ?_
    simpa [State.setWorker] using workerExec_cases (s.ctx (s.workers wid).tid)

theorem worker_store_not_spins (hK : Always K (Sound K)) (h : Working K wid s)
    (hpc : (s.workers wid).pc = .storeStage) : ¬ Spins K (.worker wid) s := by
  have hstep : step K (.worker wid) s =
      (s.setStage ((s.ctx (s.workers wid).tid).sno % bufferSize)
        (s.workers wid).stage).setWorker wid
        { s.workers wid with pc := .test, stage := (s.workers wid).stage + 1 } := by
    simp [step, workerStep, hpc]
  refine not_spins_of_step hstep fun hsame => worker_test_not_spins hK (h.move hstep hsame ?_) ?_
  · simp [State.setWorker]
  · simp [State.setWorker]

theorem working_not_spins (hK : Always K (Sound K)) (h : Pending K s) (hwid : wid < K.nWorkers)
    (htask : (s.pool K).task wid = some (s.nCommitted + 1)) : ¬ Spins K (.worker wid) s := by
  have hbusy : ∀ pc, (s.workers wid).pc = pc → pc ≠ .waitTid → pc ≠ .push → pc ≠ .finished →
      Working K wid s := by
    intro pc hpc h1 h2 h3
    refine ⟨h, hwid, ?_⟩
    cases pc <;> simp_all [Pool.task, State.pool, Worker.task]
  cases hpc : (s.workers wid).pc with
  | waitTid =>
      have htids : s.tids wid = some (s.nCommitted + 1) ∧
          s.nCommitted + 1 ≠ (s.workers wid).lastTid := by
        simp only [Pool.task, State.pool, Worker.task, hpc] at htask
        split at htask
        · simp at htask
        · rename_i tid htid
          by_cases hlast : tid = (s.workers wid).lastTid
          · simp [hlast] at htask
          · obtain rfl : tid = s.nCommitted + 1 := by simpa [hlast] using htask
            exact ⟨htid, hlast⟩
      have hstep : step K (.worker wid) s = s.setWorker wid
          { s.workers wid with pc := .test, tid := s.nCommitted + 1, stage := 1 } := by
        simp only [step, workerStep, hpc, htids.1, if_neg htids.2]
      refine not_spins_of_step hstep fun _ => worker_test_not_spins hK ⟨?_, hwid, ?_⟩ ?_
      · exact h.move (.worker wid) hwid hstep rfl
      · simp [State.setWorker]
      · simp [State.setWorker]
  | test => exact worker_test_not_spins hK (hbusy _ hpc (by simp) (by simp) (by simp)) hpc
  | version => exact worker_wait_not_spins hK (hbusy _ hpc (by simp) (by simp) (by simp)) (.inl hpc)
  | waitStage =>
      exact worker_wait_not_spins hK (hbusy _ hpc (by simp) (by simp) (by simp))
        (.inr hpc)
  | handle => exact worker_handle_not_spins hpc
  | finish => exact worker_finish_not_spins (hbusy _ hpc (by simp) (by simp) (by simp)) hpc
  | push => simp [Pool.task, State.pool, Worker.task, hpc] at htask
  | finished => simp [Pool.task, State.pool, Worker.task, hpc] at htask
  | reload =>
      have hworking := hbusy _ hpc (by simp) (by simp) (by simp)
      have hstep : step K (.worker wid) s = (s.loadCno (s.workers wid).tid).setWorker wid
          { s.workers wid with pc := .waitStage } := by simp [step, workerStep, hpc]
      refine not_spins_of_step hstep fun hsame => worker_wait_not_spins hK
        (hworking.move hstep hsame ?_) ?_
      · simp [State.setWorker]
      · simp [State.setWorker]
  | retry =>
      have hworking := hbusy _ hpc (by simp) (by simp) (by simp)
      by_cases hretry : (s.ctx (s.workers wid).tid).retry = true
      · have hstep : step K (.worker wid) s =
            s.setWorker wid { s.workers wid with pc := workerExec (s.ctx (s.workers wid).tid) } := by
          simp [step, workerStep, hpc, hretry]
        refine not_spins_of_step hstep fun _ => worker_wait_not_spins hK
          (hworking.setWorker hstep rfl) ?_
        simpa [State.setWorker] using workerExec_cases (s.ctx (s.workers wid).tid)
      · have hstep : step K (.worker wid) s =
          s.setWorker wid { s.workers wid with pc := .storeStage } := by
          simp [step, workerStep, hpc, hretry]
        exact not_spins_of_step hstep fun _ =>
          worker_store_not_spins hK (hworking.setWorker hstep rfl) (by simp [State.setWorker])
  | storeStage => exact worker_store_not_spins hK (hbusy _ hpc (by simp) (by simp) (by simp)) hpc

theorem push_not_spins (h : Pending K s) (hwid : wid < K.nWorkers)
    (hpc : (s.workers wid).pc = .push) : ¬ Spins K (.worker wid) s := by
  have hlinking : ∀ (s : State ρ μ) (prev item : MpscList.Node Nat), Pending K s →
    (s.workers wid).pc = .push →
      s.available.pushes (some wid) = .linking prev item → ¬ Spins K (.worker wid) s := by
    intro s prev item h hpc hpush
    obtain ⟨φ, hinv⟩ := h.inv
    obtain ⟨L, hL⟩ := MpscList.inv_of_reachable hinv.pool.list
    have hnone : s.available.next prev = none := by
      rcases hL.chain.links _ _ (hL.chain.linking _ _ _ hpush) with ⟨-, hno⟩ | ⟨hnone, -⟩
      · exact absurd hpush (hno _ _)
      · exact hnone
    refine not_spins_of_step rfl fun hsame => ?_
    have hnext := congrFun (congrArg Shared.next hsame) prev
    simp [State.shared, step, workerStep, hpc, hpush, MpscList.link, hnone] at hnext
  have hexchanging : ∀ (s : State ρ μ) (item : MpscList.Node Nat), Pending K s →
    (s.workers wid).pc = .push →
      s.available.pushes (some wid) = .exchanging item → ¬ Spins K (.worker wid) s := by
    intro s item h hpc hpush
    have hstep : step K (.worker wid) s =
        { s with available := MpscList.exchange s.available (some wid) item } := by
      simp [step, workerStep, hpc, hpush]
    refine not_spins_of_step hstep fun hsame => ?_
    exact hlinking _ s.available.head item (h.move (.worker wid) hwid hstep hsame) hpc
      (Function.update_self _ _ _)
  cases hpush : s.available.pushes (some wid) with
  | linking prev item => exact hlinking s prev item h hpc hpush
  | exchanging item => exact hexchanging s item h hpc hpush
  | idle =>
      have hstep : step K (.worker wid) s =
          { s with available := MpscList.clearNext s.available (some wid) (.item wid) } := by
        simp [step, workerStep, hpc, hpush]
      refine not_spins_of_step hstep fun hsame => ?_
      exact hexchanging _ (.item wid) (h.move (.worker wid) hwid hstep hsame) hpc
        (Function.update_self _ _ _)

end Workers

section Pipes

variable {pid : Nat}

/-- A pipe that has to handle the oldest pending tid, and may; for the exit pipe
no worker is on its way back. -/
structure Handling (K : Config ρ μ) (pid : Nat) (s : State ρ μ) : Prop extends Pending K s where
  runs : pid ≤ K.nPipes
  tid : (s.pipes pid).tid = s.nCommitted + 1
  pace : s.nCommitted + 1 ≤ s.paces pid
  back : pid = K.nPipes → ∀ w < K.nWorkers, (s.workers w).pc ≠ .push

theorem Handling.move (h : Handling K pid s) (hstep : step K (.pipe pid) s = t)
    (hsame : t.shared = s.shared) (htid : (t.pipes pid).tid = (s.pipes pid).tid) :
    Handling K pid t := by
  have hcommitted : t.nCommitted = s.nCommitted := congrArg Shared.nCommitted hsame
  have hpaces : t.paces = s.paces := congrArg Shared.paces hsame
  have hworkers : t.workers = s.workers := by
    rw [← hstep, step, pipeStep_writes]
  refine ⟨h.toPending.move (.pipe pid) h.runs hstep hsame, h.runs, ?_, ?_, ?_⟩
  · rw [htid, h.tid, hcommitted]
  · rw [hcommitted, hpaces]
    exact h.pace
  · rw [hworkers]
    exact h.back

theorem Handling.setPipe (h : Handling K pid s) {p : Pipe}
    (hstep : step K (.pipe pid) s = s.setPipe pid p)
    (htid : p.tid = (s.pipes pid).tid) : Handling K pid (s.setPipe pid p) := by
  refine h.move hstep rfl ?_
  simp [State.setPipe, htid]

theorem Handling.issued (h : Handling K pid s) : (s.pipes pid).tid ≤ s.nSubmitted := by
  rw [h.tid]
  exact h.pending

theorem call_not_spins (hpc : (s.pipes pid).pc = .init ∨ (s.pipes pid).pc = .handle) :
    ¬ Spins K (.pipe pid) s := by
  refine not_spins_of_step rfl fun hsame => ?_
  have hcalls := congrArg Shared.calls hsame
  rcases hpc with hpc | hpc
  · simp [State.shared, step, pipeStep, hpc, State.call, State.setPipe] at hcalls
  · simp [State.shared, step, pipeStep, hpc, State.call, State.setPipe] at hcalls

theorem pace_not_spins (h : Inv K s φ) (hpid : pid ≤ K.nPipes) (hpc : (s.pipes pid).pc = .advance) :
    ¬ Spins K (.pipe pid) s := by
  have hkind := h.order.kinds pid hpid
  simp only [State.counters, hpc, PipePc.OfKind] at hkind
  have hpace : s.paces (pid + 1) + 1 = (s.pipes pid).tid := h.order.paces pid hkind
  refine not_spins_of_step rfl fun hsame => ?_
  have hpaces := congrFun (congrArg Shared.paces hsame) (pid + 1)
  simp [State.shared, step, pipeStep, hpc, State.setPace, State.setPipe] at hpaces
  omega

theorem advance_not_spins (h : Handling K pid s) (hpc : (s.pipes pid).pc = .advance) :
    ¬ Spins K (.pipe pid) s := by
  obtain ⟨φ, hinv⟩ := h.inv
  exact pace_not_spins hinv h.runs hpc

theorem Handling.begun (hK : Always K (Sound K)) (h : Handling K pid s)
    (hwaited : (s.pipes pid).pc.waited = true) (hentered : pid ≠ 0 ∨ (s.pipes 0).pc.entered = true)
    (hmod : (s.pipes pid).tid % bufferSize ≠ 0) :
    Begun K (s.pipes pid).tid (s.ctx (s.pipes pid).tid) ∧
      ((s.ctx (s.pipes pid).tid).retry = true → (s.ctx (s.pipes pid).tid).waitChild = false) := by
  obtain ⟨φ, hinv⟩ := h.inv
  have hcontent := hinv.pipe_content h.runs hwaited
  rw [hinv.phase_staged h.runs hwaited hentered h.issued] at hcontent
  exact ⟨(hcontent.2 hmod).1, (hcontent.2 hmod).2 hK⟩

theorem Handling.entered (h : Handling K pid s) (hpc : (s.pipes pid).pc.entered = true) :
    pid ≠ 0 ∨ (s.pipes 0).pc.entered = true := by
  by_cases hpid : pid = 0
  · subst hpid
    exact .inr hpc
  · exact .inl hpid

theorem version_not_spins (hK : Always K (Sound K)) (h : Handling K pid s)
    (hpc : (s.pipes pid).pc = .version) : ¬ Spins K (.pipe pid) s := by
  have hfresh : ∀ s : State ρ μ, (s.pipes pid).pc = .version →
      K.ver (s.ctx (s.pipes pid).tid).tPast ≤ (s.ctx (s.pipes pid).tid).cno →
        ¬ Spins K (.pipe pid) s := by
    intro s hpc hcno
    have hstep : step K (.pipe pid) s = s.setPipe pid { s.pipes pid with pc := .handle } := by
      simp [step, pipeStep, hpc, not_lt.mpr hcno]
    exact not_spins_of_step hstep fun _ => call_not_spins (.inr (by simp [State.setPipe]))
  obtain ⟨φ, hinv⟩ := h.inv
  have hknows := hinv.slots.pipes pid h.runs
  simp only [Pipe.Knows, hpc] at hknows
  have hbegun := (h.begun hK (by rw [hpc]; rfl) (h.entered (by rw [hpc]; rfl)) hknows.1).1
  have hver : K.ver (s.ctx (s.pipes pid).tid).tPast ≤ s.nCommitted :=
    ver_le (h.tid ▸ hbegun.past hK)
  by_cases hcno : (s.ctx (s.pipes pid).tid).cno < K.ver (s.ctx (s.pipes pid).tid).tPast
  · have hstep : step K (.pipe pid) s = s.loadCno (s.pipes pid).tid := by
      simp [step, pipeStep, hpc, hcno]
    refine not_spins_of_step hstep fun _ => hfresh _ hpc ?_
    change K.ver ((s.loadCno (s.pipes pid).tid).ctx (s.pipes pid).tid).tPast ≤
      ((s.loadCno (s.pipes pid).tid).ctx (s.pipes pid).tid).cno
    rw [loadCno_ctx (h.pending.trans h.bounded)]
    exact hver
  · exact hfresh s hpc (not_lt.mp hcno)

theorem retry_not_spins (hK : Always K (Sound K)) (h : Handling K pid s)
    (hpc : (s.pipes pid).pc = .retry) : ¬ Spins K (.pipe pid) s := by
  by_cases hretry : (s.ctx (s.pipes pid).tid).retry = true
  · obtain ⟨φ, hinv⟩ := h.inv
    have hknows := hinv.slots.pipes pid h.runs
    simp only [Pipe.Knows, hpc] at hknows
    have hchild := (h.begun hK (by rw [hpc]; rfl) (h.entered (by rw [hpc]; rfl)) hknows.1).2 hretry
    have hexec : iterExec (s.ctx (s.pipes pid).tid) = .version ∨
        iterExec (s.ctx (s.pipes pid).tid) = .handle := by
      simp only [iterExec, hchild, Bool.false_eq_true, if_false]
      split
      · exact .inl rfl
      · exact .inr rfl
    have hstep : step K (.pipe pid) s =
        s.setPipe pid { s.pipes pid with pc := iterExec (s.ctx (s.pipes pid).tid) } := by
      simp [step, pipeStep, hpc, hretry]
    refine not_spins_of_step hstep fun _ => ?_
    rcases hexec with hexec | hexec
    · exact version_not_spins hK (h.setPipe hstep rfl) (by simp [State.setPipe, hexec])
    · exact call_not_spins (.inr (by simp [State.setPipe, hexec]))
  · have hstep : step K (.pipe pid) s = s.setPipe pid { s.pipes pid with pc := .advance } := by
      simp [step, pipeStep, hpc, hretry]
    exact not_spins_of_step hstep fun _ =>
      advance_not_spins (h.setPipe hstep rfl) (by simp [State.setPipe])

theorem cpHandle_not_spins (h : Handling K pid s)
    (hpc : (s.pipes pid).pc = .cpHandle ∨ (s.pipes pid).pc = .copyRoot) :
    ¬ Spins K (.pipe pid) s := by
  refine not_spins_of_step rfl fun hsame => advance_not_spins (h.move rfl hsame ?_) ?_
  · rcases hpc with hpc | hpc <;> simp [step, pipeStep, hpc, State.setPipe]
  · rcases hpc with hpc | hpc <;> simp [step, pipeStep, hpc, State.setPipe]

theorem cpVersion_not_spins (hK : Always K (Sound K)) (h : Handling K pid s)
    (hpc : (s.pipes pid).pc = .cpVersion) : ¬ Spins K (.pipe pid) s := by
  have hfresh : ∀ s : State ρ μ, Handling K pid s → (s.pipes pid).pc = .cpVersion →
      K.ver (s.ctx (s.pipes pid).tid).tPast ≤ (s.ctx (s.pipes pid).tid).cno →
        ¬ Spins K (.pipe pid) s := by
    intro s h hpc hcno
    have hstep : step K (.pipe pid) s = s.setPipe pid { s.pipes pid with pc := .cpHandle } := by
      simp [step, pipeStep, hpc, not_lt.mpr hcno]
    exact not_spins_of_step hstep fun _ =>
      cpHandle_not_spins (h.setPipe hstep rfl) (.inl (by simp [State.setPipe]))
  obtain ⟨φ, hinv⟩ := h.inv
  have hknows := hinv.slots.pipes pid h.runs
  simp only [Pipe.Knows, hpc] at hknows
  have hver : K.ver (s.ctx (s.pipes pid).tid).tPast ≤ s.nCommitted :=
    ver_le (h.tid ▸ (hknows.2 hK).1)
  by_cases hcno : (s.ctx (s.pipes pid).tid).cno < K.ver (s.ctx (s.pipes pid).tid).tPast
  · have hstep : step K (.pipe pid) s = s.loadCno (s.pipes pid).tid := by
      simp [step, pipeStep, hpc, hcno]
    refine not_spins_of_step hstep fun hsame => hfresh _ (h.move hstep hsame rfl) hpc ?_
    change K.ver ((s.loadCno (s.pipes pid).tid).ctx (s.pipes pid).tid).tPast ≤
      ((s.loadCno (s.pipes pid).tid).ctx (s.pipes pid).tid).cno
    rw [loadCno_ctx (h.pending.trans h.bounded)]
    exact hver
  · exact hfresh s h hpc (not_lt.mp hcno)

theorem past_not_spins (hK : Always K (Sound K)) (h : Handling K pid s)
    (hpc : (s.pipes pid).pc = .cpPast ∨ (s.pipes pid).pc = .readPast) :
    ¬ Spins K (.pipe pid) s := by
  refine not_spins_of_step rfl fun hsame => ?_
  rcases hpc with hpc | hpc
  · refine cpVersion_not_spins hK (h.move rfl hsame ?_) ?_
    · simp [step, pipeStep, hpc, State.setPipe]
    · simp [step, pipeStep, hpc, State.setPipe]
  · refine call_not_spins (.inl ?_)
    simp [step, pipeStep, hpc, State.setPipe]

theorem markDone_not_spins (h : Handling K K.nPipes s)
    (hpc : (s.pipes K.nPipes).pc = .markDone) : ¬ Spins K (.pipe K.nPipes) s := by
  obtain ⟨φ, hinv⟩ := h.inv
  have hwaited : (s.pipes K.nPipes).pc.waited = true := by rw [hpc]; rfl
  have hcontent := hinv.pipe_content le_rfl hwaited
  rw [hinv.phase_staged le_rfl hwaited
    (.inl (Nat.one_le_iff_ne_zero.mp K.nPipes_pos)) h.issued] at hcontent
  refine not_spins_of_step rfl fun hsame => ?_
  have hstages := congrFun (congrArg Shared.stages hsame) ((s.pipes K.nPipes).tid % bufferSize)
  simp [State.shared, step, pipeStep, hpc, State.setStage, State.setPipe, hcontent.1] at hstages

theorem assign_not_spins (h : Handling K K.nPipes s) {wid : Nat}
    (hpc : (s.pipes K.nPipes).pc = .assign wid) : ¬ Spins K (.pipe K.nPipes) s := by
  obtain ⟨φ, hinv⟩ := h.inv
  obtain ⟨-, hwait, htask⟩ := hinv.pool.popped wid hpc
  have hlast : (s.workers wid).lastTid < (s.pipes K.nPipes).tid := hinv.pool.last wid
  refine not_spins_of_step rfl fun hsame => ?_
  have htids : ((s.pipes K.nPipes).tid : Word) = s.tids wid := by
    have htids := congrFun (congrArg Shared.tids hsame) wid
    simpa [State.shared, step, pipeStep, hpc, State.setPipe] using htids
  -- the word of an idle worker is not a new tid
  change (s.workers wid).pc = .waitTid at hwait
  simp only [Pool.task, State.pool, Worker.task, hwait, ← htids] at htask
  change (if (s.pipes K.nPipes).tid = (s.workers wid).lastTid then none else some _) = none at htask
  rw [if_neg hlast.ne'] at htask
  simp at htask

theorem pop_not_spins (h : Handling K K.nPipes s)
    (hpc : (s.pipes K.nPipes).pc = .pop) : ¬ Spins K (.pipe K.nPipes) s := by
  have hpops : ∀ (n : Nat) (s : State ρ μ), Handling K K.nPipes s → (s.pipes K.nPipes).pc = .pop →
      (MpscList.consume^[n] s.available).returned ≠ s.available.returned →
      ¬ Spins K (.pipe K.nPipes) s := by
    intro n
    induction n with
    | zero => exact fun s _ _ hne => absurd rfl hne
    | succ n ih =>
        intro s h hpc hne
        have hstep : step K (.pipe K.nPipes) s =
            { s.setPipe K.nPipes { s.pipes K.nPipes with pc := afterPop s } with
              available := MpscList.consume s.available } := by
          simp [step, pipeStep, hpc]
        refine not_spins_of_step hstep fun hsame => ?_
        have h' := h.move hstep hsame (by simp [State.setPipe])
        cases hpopped : MpscList.popped s.available with
        | none =>
            have hsame' : (MpscList.consume s.available).returned = s.available.returned := by
              simp [MpscList.consume_returned, hpopped]
            refine ih _ h' ?_ ?_
            · simp [State.setPipe, afterPop, hpopped]
            · rw [Function.iterate_succ_apply] at hne
              exact fun heq => hne (heq.trans hsame')
        | some node =>
            obtain ⟨φ, hinv⟩ := h.inv
            obtain ⟨L, hL⟩ := MpscList.inv_of_reachable hinv.pool.list
            have hstub := (hL.popped_eq hpopped).2
            cases node with
            | stub => exact absurd rfl hstub
            | item wid =>
                refine assign_not_spins h' (?_ : _ = PipePc.assign wid)
                simp [State.setPipe, afterPop, hpopped]
  obtain ⟨φ, hinv⟩ := h.inv
  obtain ⟨L, hL⟩ := MpscList.inv_of_reachable hinv.pool.list
  have hquiet : ∀ w, s.available.pushes (some w) = .idle := by
    intro w
    cases hpush : s.available.pushes (some w) with
    | idle => rfl
    | exchanging x =>
        obtain ⟨-, hlt, hpush'⟩ :=
          hinv.pool.held w x (by simp [State.pool, hpush, MpscList.Push.holds])
        exact absurd hpush' (h.back rfl w hlt)
    | linking prev x =>
        obtain ⟨-, hlt, hpush'⟩ :=
          hinv.pool.held w x (by simp [State.pool, hpush, MpscList.Push.holds])
        exact absurd hpush' (h.back rfl w hlt)
  have hidle : (s.pool K).task 0 = none := by
    cases htask : (s.pool K).task 0 with
    | none => rfl
    | some tid =>
        obtain ⟨-, hC, hexit, -⟩ := hinv.task_window htask
        have := h.tid
        omega
  have hlist : MpscList.InList s.available 0 := by
    rcases hinv.pool.free 0 K.nWorkers_pos hidle with hlist | hassign | hpush
    · exact hlist
    · simp [State.pool, hpc] at hassign
    · exact absurd hpush (h.back rfl 0 K.nWorkers_pos)
  obtain ⟨n, hn⟩ := hL.pops hquiet hlist
  exact hpops n s h hpc hn

theorem start_not_spins (hK : Always K (Sound K)) (h : Handling K pid s)
    (hpc : (s.pipes pid).pc = .start) : ¬ Spins K (.pipe pid) s := by
  have hstep : step K (.pipe pid) s = s.setPipe pid (pipeStart K s pid (s.pipes pid)) := by
    simp [step, pipeStep, hpc]
  refine not_spins_of_step hstep fun _ => ?_
  have h' := h.setPipe hstep (pipeStart_tid _ _)
  have hself : (s.setPipe pid (pipeStart K s pid (s.pipes pid))).pipes pid =
      pipeStart K s pid (s.pipes pid) := Function.update_self _ _ _
  by_cases hentry : pid = 0
  · subst hentry
    by_cases hmod : (s.pipes 0).tid % bufferSize = 0
    · by_cases hcp : (s.pipes 0).lastCheckpoint < s.checkpoint
      · exact past_not_spins hK h' (.inl (by rw [hself]; simp [pipeStart, hmod, hcp]))
      · exact cpHandle_not_spins h' (.inr (by rw [hself]; simp [pipeStart, hmod, hcp]))
    · by_cases hop : (s.ctx (s.pipes 0).tid).op = Operand.init
      · exact past_not_spins hK h' (.inr (by rw [hself]; simp [pipeStart, hmod, hop]))
      · exact advance_not_spins h' (by rw [hself]; simp [pipeStart, hmod, hop])
  · by_cases hexit : pid = K.nPipes
    · subst hexit
      by_cases hop : (s.ctx (s.pipes K.nPipes).tid).op = Operand.done
      · exact markDone_not_spins h' (by rw [hself]; simp [pipeStart, hentry, hop])
      · exact pop_not_spins h' (by rw [hself]; simp [pipeStart, hentry, hop])
    · by_cases hop : (s.ctx (s.pipes pid).tid).op = Operand.done
      · exact advance_not_spins h' (by rw [hself]; simp [pipeStart, hentry, hexit, hop])
      · have hpc' : ((s.setPipe pid (pipeStart K s pid (s.pipes pid))).pipes pid).pc =
            iterExec (s.ctx (s.pipes pid).tid) := by
          rw [hself]
          simp [pipeStart, hentry, hexit, hop]
        unfold iterExec at hpc'
        split at hpc'
        · exact retry_not_spins hK h' hpc'
        · split at hpc'
          · exact version_not_spins hK h' hpc'
          · exact call_not_spins (.inr hpc')

theorem wait_not_spins (hK : Always K (Sound K)) (h : Handling K pid s)
    (hpc : (s.pipes pid).pc = .wait) : ¬ Spins K (.pipe pid) s := by
  have hready : ∀ s : State ρ μ, Handling K pid s → (s.pipes pid).pc = .wait →
      ¬ (s.pipes pid).cache < (s.pipes pid).tid → ¬ Spins K (.pipe pid) s := by
    intro s h hpc hcache
    have hstep : step K (.pipe pid) s = s.setPipe pid { s.pipes pid with pc := .start } := by
      simp [step, pipeStep, hpc, hcache]
    exact not_spins_of_step hstep fun _ => start_not_spins hK (h.setPipe hstep rfl)
      (by simp [State.setPipe])
  by_cases hcache : (s.pipes pid).cache < (s.pipes pid).tid
  · have hstep : step K (.pipe pid) s =
        s.setPipe pid { s.pipes pid with cache := s.paces pid } := by
      simp [step, pipeStep, hpc, hcache]
    refine not_spins_of_step hstep fun _ => hready _ (h.setPipe hstep rfl)
      (by simp [State.setPipe, hpc]) ?_
    simpa [State.setPipe, h.tid] using h.pace
  · exact hready s h hpc hcache

theorem handling_not_spins (hK : Always K (Sound K)) (h : Handling K pid s) :
    ¬ Spins K (.pipe pid) s := by
  have hloop : ∀ s : State ρ μ, Handling K pid s → (s.pipes pid).pc = .loop →
      (s.pipes pid).tid ≤ (s.pipes pid).last → ¬ Spins K (.pipe pid) s := by
    intro s h hpc hlast
    have hstep : step K (.pipe pid) s = s.setPipe pid { s.pipes pid with pc := .wait } := by
      simp [step, pipeStep, hpc, hlast]
    exact not_spins_of_step hstep fun _ => wait_not_spins hK (h.setPipe hstep rfl)
      (by simp [State.setPipe])
  have hload : ∀ s : State ρ μ, Handling K pid s → (s.pipes pid).pc = .loadTasks →
      ¬ Spins K (.pipe pid) s := by
    intro s h hpc
    obtain ⟨φ, hinv⟩ := h.inv
    have hepoch : (s.pipes pid).tid = _ := (hinv.order.pipes pid h.runs).epoch (.inr hpc)
    have hstep : step K (.pipe pid) s = s.setPipe pid { s.pipes pid with
        pc := .loop, tid := (s.pipes pid).epoch * batchSize + 1, last := s.nSubmitted, final :=
          true } := by
      simp [step, pipeStep, hpc]
    refine not_spins_of_step hstep fun _ => hloop _ (h.setPipe hstep hepoch.symm) ?_ ?_
    · simp [State.setPipe]
    · simp only [State.setPipe, Function.update_self]
      exact hepoch ▸ h.issued
  have htest : ∀ s : State ρ μ, Handling K pid s → (s.pipes pid).pc = .testStop →
      ¬ Spins K (.pipe pid) s := by
    intro s h hpc
    obtain ⟨φ, hinv⟩ := h.inv
    have hepoch : (s.pipes pid).tid = _ := (hinv.order.pipes pid h.runs).epoch (.inl hpc)
    by_cases hstop : s.stop = true
    · have hstep : step K (.pipe pid) s = s.setPipe pid { s.pipes pid with pc := .loadTasks } := by
        simp [step, pipeStep, hpc, hstop]
      exact not_spins_of_step hstep fun _ => hload _ (h.setPipe hstep rfl) (by simp [State.setPipe])
    · have hstep : step K (.pipe pid) s = s.setPipe pid { s.pipes pid with
          pc := .loop, tid := (s.pipes pid).epoch * batchSize + 1,
          last := ((s.pipes pid).epoch + 1) * batchSize } := by
        simp [step, pipeStep, hpc, hstop]
      refine not_spins_of_step hstep fun _ => hloop _ (h.setPipe hstep hepoch.symm) ?_ ?_
      · simp [State.setPipe]
      · have : 1 ≤ batchSize := by decide
        simp only [State.setPipe, Function.update_self, Nat.succ_mul]
        omega
  obtain ⟨φ, hinv⟩ := h.inv
  have hkind : (s.pipes pid).pc.OfKind K.nPipes pid := hinv.order.kinds pid h.runs
  -- a pipe in its last round has the pending tids before it
  have hbatched := batched_of_reachable h.reached pid h.runs
  have hfinal : (s.pipes pid).final = true → (s.pipes pid).tid ≤ (s.pipes pid).last := by
    intro hf
    rw [(hbatched.final hf).1]
    exact h.issued
  cases hpc : (s.pipes pid).pc <;> simp only [hpc, PipePc.OfKind] at hkind
  case testStop => exact htest s h hpc
  case loadTasks => exact hload s h hpc
  case finished =>
      obtain ⟨hf, hlt⟩ := hbatched.finished hpc
      exact absurd (hfinal hf) (not_le.mpr hlt)
  case loop =>
      by_cases hlast : (s.pipes pid).tid ≤ (s.pipes pid).last
      · exact hloop s h hpc hlast
      · have hnot : ¬ (s.pipes pid).final = true := fun hf => hlast (hfinal hf)
        have hstep : step K (.pipe pid) s = s.setPipe pid { s.pipes pid with
            pc := .testStop, epoch := (s.pipes pid).epoch + 1 } := by
          simp [step, pipeStep, hpc, hlast, hnot]
        exact not_spins_of_step hstep fun _ => htest _ (h.setPipe hstep rfl)
          (by simp [State.setPipe])
  case wait => exact wait_not_spins hK h hpc
  case start => exact start_not_spins hK h hpc
  case copyRoot => exact cpHandle_not_spins h (.inr hpc)
  case cpPast => exact past_not_spins hK h (.inl hpc)
  case cpVersion => exact cpVersion_not_spins hK h hpc
  case cpHandle => exact cpHandle_not_spins h (.inl hpc)
  case readPast => exact past_not_spins hK h (.inr hpc)
  case init => exact call_not_spins (.inl hpc)
  case retry => exact retry_not_spins hK h hpc
  case version => exact version_not_spins hK h hpc
  case handle => exact call_not_spins (.inr hpc)
  case advance => exact advance_not_spins h hpc
  case pop =>
      subst hkind
      exact pop_not_spins h hpc
  case assign wid =>
      subst hkind
      exact assign_not_spins h hpc
  case markDone =>
      subst hkind
      exact markDone_not_spins h hpc

end Pipes

section Monitor

structure Watching (K : Config ρ μ) (s : State ρ μ) : Prop extends Pending K s where
  found : s.paces 0 < s.nSubmitted ∧ s.stages ((s.paces 0 + 1) % bufferSize) = 0 ∨
    s.nCommitted < s.paces 0 ∧ s.stages ((s.nCommitted + 1) % bufferSize) = ⊤

theorem Watching.move (h : Watching K s) (hstep : step K .monitor s = t)
    (hsame : t.shared = s.shared) :
    Watching K t := by
  have hcommitted : t.nCommitted = s.nCommitted := congrArg Shared.nCommitted hsame
  have hsubmitted : t.nSubmitted = s.nSubmitted := congrArg Shared.nSubmitted hsame
  have hpaces : t.paces = s.paces := congrArg Shared.paces hsame
  have hstages : t.stages = s.stages := congrArg Shared.stages hsame
  refine ⟨h.toPending.move .monitor trivial hstep hsame, ?_⟩
  rw [hcommitted, hsubmitted, hpaces, hstages]
  exact h.found

theorem Watching.ordered (h : Watching K s) :
    s.monitor.Ordered s.nCommitted s.nSubmitted (s.paces 0) s.stop := by
  obtain ⟨φ, hinv⟩ := h.inv
  exact hinv.order.monitor

theorem Watching.behind (h : Watching K s) (hstop : s.monitor.stop = true)
    (hpc : s.monitor.pc ≠ .loadSubmitted) (hpc' : s.monitor.pc ≠ .publishCommitted) :
    s.monitor.nCommitted < s.monitor.nSubmitted := by
  have hm := h.ordered
  rw [(hm.stopped hstop).2 hpc, hm.published hpc']
  exact h.pending

theorem publish_not_spins (h : Watching K s)
    (hpc : s.monitor.pc = .publishRoot) (hnext : s.nCommitted < s.monitor.next) :
    ¬ Spins K .monitor s := by
  have hm := h.ordered
  have hpublished := hm.published (by simp [hpc])
  refine not_spins_of_step rfl fun hsame => not_spins_of_step rfl fun hsame' => ?_
  have hcommitted := congrArg Shared.nCommitted (hsame'.trans hsame)
  simp [State.shared, step, monitorStep, hpc, hpublished, hnext, State.setMonitor] at hcommitted
  omega

theorem scanDone_not_spins : ∀ (k : Nat) (s : State ρ μ), Watching K s →
    s.monitor.pc = .scanDone → s.nCommitted < s.monitor.next →
    s.monitor.nInited - s.monitor.next ≤ k →
    ¬ Spins K .monitor s := by
  intro k
  induction k with
  | zero =>
      intro s h hpc hnext hk
      have hstep : step K .monitor s = s.setMonitor { s.monitor with pc := .publishRoot } := by
        have hend : ¬ s.monitor.next < s.monitor.nInited := by omega
        simp [step, monitorStep, hpc, hend]
      exact not_spins_of_step hstep fun hsame => publish_not_spins (h.move hstep hsame) rfl hnext
  | succ k ih =>
      intro s h hpc hnext hk
      by_cases hmore : s.monitor.next < s.monitor.nInited ∧
          s.stages ((s.monitor.next + 1) % bufferSize) = ⊤
      · have hstep : step K .monitor s =
            s.setMonitor { s.monitor with pc := .checkpoint, next := s.monitor.next + 1 } := by
          simp only [step, monitorStep, hpc, if_pos hmore]
        refine not_spins_of_step hstep fun hsame => not_spins_of_step rfl fun hsame' => ?_
        refine ih _ ((h.move hstep hsame).move rfl hsame') rfl ?_ ?_
        · exact hnext.trans (Nat.lt_succ_self _)
        · change s.monitor.nInited - (s.monitor.next + 1) ≤ k
          omega
      · have hstep : step K .monitor s = s.setMonitor { s.monitor with pc := .publishRoot } := by
          simp only [step, monitorStep, hpc, if_neg hmore]
        exact not_spins_of_step hstep fun hsame => publish_not_spins (h.move hstep hsame) rfl hnext

theorem commit_not_spins (h : Watching K s) (hpc : s.monitor.pc = .scanDone)
    (hnext : s.monitor.next = s.nCommitted) (hlt : s.nCommitted < s.paces 0)
    (hdone : s.stages ((s.nCommitted + 1) % bufferSize) = ⊤) : ¬ Spins K .monitor s := by
  have hpace := (h.ordered).handed (by simp [hpc])
  have hstep : step K .monitor s =
      s.setMonitor { s.monitor with pc := .checkpoint, next := s.monitor.next + 1 } := by
    simp only [step, monitorStep, hpc, hnext, ← hpace, hlt, hdone, and_self, if_true]
  refine not_spins_of_step hstep fun hsame => not_spins_of_step rfl fun hsame' => ?_
  refine scanDone_not_spins _ _ ((h.move hstep hsame).move rfl hsame') rfl ?_ le_rfl
  change s.nCommitted < s.monitor.next + 1
  omega

theorem scanInited_not_spins : ∀ (k : Nat) (s : State ρ μ), Watching K s →
    s.monitor.pc = .scanInited → s.monitor.nSubmitted = s.nSubmitted →
    s.monitor.nSubmitted - s.monitor.next ≤ k → ¬ Spins K .monitor s := by
  -- what the first scan has left behind it
  have hscanned : ∀ s : State ρ μ, Watching K s → s.monitor.pc = .scanInited →
      s.monitor.nSubmitted = s.nSubmitted →
      ¬ (s.monitor.next < s.monitor.nSubmitted ∧ s.stages ((s.monitor.next + 1) % bufferSize) = 0) →
      ¬ Spins K .monitor s := by
    intro s h hpc hall hend
    have hm := h.ordered
    have hpace := hm.handed (by simp [hpc])
    have hinited := hm.inited
    simp only [Monitor.inited, hpc] at hinited
    have hstep : step K .monitor s = s.setMonitor { s.monitor with pc := .advance } := by
      simp only [step, monitorStep, hpc, if_neg hend]
    refine not_spins_of_step hstep fun hsame => ?_
    have h' := h.move hstep hsame
    by_cases hnew : s.monitor.nInited < s.monitor.next
    · refine not_spins_of_step rfl fun hsame' => ?_
      have hpaces := congrFun (congrArg Shared.paces hsame') 0
      simp [State.shared, step, monitorStep, State.setMonitor, State.setPace, hnew] at hpaces
      omega
    · have hnext : s.monitor.next = s.paces 0 := by omega
      rw [hnext, hall] at hend
      obtain ⟨hlt, hdone⟩ := h.found.resolve_left hend
      have hpublished := hm.published (by simp [hpc])
      have hstep' : step K .monitor (s.setMonitor { s.monitor with pc := .advance }) =
          s.setMonitor { s.monitor with pc := .scanDone, next := s.monitor.nCommitted } := by
        simp [step, monitorStep, State.setMonitor, hnew]
      exact not_spins_of_step hstep' fun hsame' =>
        commit_not_spins (h'.move hstep' hsame') rfl hpublished hlt hdone
  intro k
  induction k with
  | zero =>
      intro s h hpc hall hk
      exact hscanned s h hpc hall (by omega)
  | succ k ih =>
      intro s h hpc hall hk
      by_cases hmore : s.monitor.next < s.monitor.nSubmitted ∧
          s.stages ((s.monitor.next + 1) % bufferSize) = 0
      · have hstep : step K .monitor s =
          s.setMonitor { s.monitor with next := s.monitor.next + 1 } := by
          simp only [step, monitorStep, hpc, if_pos hmore]
        refine not_spins_of_step hstep fun hsame => ih _ (h.move hstep hsame) hpc hall ?_
        change s.monitor.nSubmitted - (s.monitor.next + 1) ≤ k
        omega
      · exact hscanned s h hpc hall hmore

theorem round_not_spins (h : Watching K s) (hpc : s.monitor.pc = .test) :
    ¬ Spins K .monitor s := by
  have hstep : step K .monitor s = s.setMonitor { s.monitor with pc := .loadStop } := by
    have hround : (!s.monitor.stop || decide (s.monitor.nCommitted < s.monitor.nSubmitted)) =
        true := by
      cases hstop : s.monitor.stop with
      | false => rfl
      | true => simpa using h.behind hstop (by simp [hpc]) (by simp [hpc])
    simp [step, monitorStep, hpc, hround]
  refine not_spins_of_step hstep fun hsame => not_spins_of_step rfl fun hsame' =>
    not_spins_of_step rfl fun hsame'' => ?_
  exact scanInited_not_spins _ _
    (((h.move hstep hsame).move rfl hsame').move rfl hsame'') rfl rfl le_rfl

theorem publishRoot_not_spins (h : Watching K s)
    (hpc : s.monitor.pc = .publishRoot) : ¬ Spins K .monitor s := by
  by_cases hnext : s.nCommitted < s.monitor.next
  · exact publish_not_spins h hpc hnext
  · have hpublished := (h.ordered).published (by simp [hpc])
    have hstep : step K .monitor s = s.setMonitor { s.monitor with pc := .test } := by
      simp [step, monitorStep, hpc, hpublished, hnext]
    exact not_spins_of_step hstep fun hsame => round_not_spins (h.move hstep hsame) rfl

theorem secondScan_not_spins (h : Watching K s) (hpc : s.monitor.pc = .scanDone) :
    ¬ Spins K .monitor s := by
  have hm := h.ordered
  have hended := hm.ended
  have hpublished := hm.published (by simp [hpc])
  simp only [Monitor.ended, hpc] at hended
  by_cases hmore : s.monitor.next < s.monitor.nInited ∧
    s.stages ((s.monitor.next + 1) % bufferSize) = ⊤
  · have hstep : step K .monitor s =
        s.setMonitor { s.monitor with pc := .checkpoint, next := s.monitor.next + 1 } := by
      simp only [step, monitorStep, hpc, if_pos hmore]
    refine not_spins_of_step hstep fun hsame => not_spins_of_step rfl fun hsame' => ?_
    refine scanDone_not_spins _ _ ((h.move hstep hsame).move rfl hsame') rfl ?_ le_rfl
    change s.nCommitted < s.monitor.next + 1
    omega
  · have hstep : step K .monitor s = s.setMonitor { s.monitor with pc := .publishRoot } := by
      simp only [step, monitorStep, hpc, if_neg hmore]
    exact not_spins_of_step hstep fun hsame => publishRoot_not_spins (h.move hstep hsame) rfl

theorem firstScan_not_spins : ∀ (k : Nat) (s : State ρ μ), Watching K s →
    s.monitor.pc = .scanInited ∨ s.monitor.pc = .advance →
    s.monitor.nSubmitted - s.monitor.next ≤ k →
    ¬ Spins K .monitor s := by
  have hadvance : ∀ s : State ρ μ, Watching K s → s.monitor.pc = .advance →
      ¬ Spins K .monitor s := by
    intro s h hpc
    refine not_spins_of_step rfl fun hsame => secondScan_not_spins (h.move rfl hsame) ?_
    by_cases hnew : s.monitor.nInited < s.monitor.next
    · simp [step, monitorStep, hpc, hnew, State.setMonitor]
    · simp [step, monitorStep, hpc, hnew, State.setMonitor]
  have hscanned : ∀ s : State ρ μ, Watching K s → s.monitor.pc = .scanInited →
      ¬ (s.monitor.next < s.monitor.nSubmitted ∧ s.stages ((s.monitor.next + 1) % bufferSize) = 0) →
      ¬ Spins K .monitor s := by
    intro s h hpc hend
    have hstep : step K .monitor s = s.setMonitor { s.monitor with pc := .advance } := by
      simp only [step, monitorStep, hpc, if_neg hend]
    exact not_spins_of_step hstep fun hsame => hadvance _ (h.move hstep hsame) rfl
  intro k
  induction k with
  | zero =>
      rintro s h (hpc | hpc) hk
      · exact hscanned s h hpc (by omega)
      · exact hadvance s h hpc
  | succ k ih =>
      rintro s h (hpc | hpc) hk
      · by_cases hmore : s.monitor.next < s.monitor.nSubmitted ∧
            s.stages ((s.monitor.next + 1) % bufferSize) = 0
        · have hstep : step K .monitor s =
              s.setMonitor { s.monitor with next := s.monitor.next + 1 } := by
            simp only [step, monitorStep, hpc, if_pos hmore]
          refine not_spins_of_step hstep fun hsame => ih _ (h.move hstep hsame) (.inl hpc) ?_
          change s.monitor.nSubmitted - (s.monitor.next + 1) ≤ k
          omega
        · exact hscanned s h hpc hmore
      · exact hadvance s h hpc

theorem watching_not_spins (h : Watching K s) : ¬ Spins K .monitor s := by
  have hm := h.ordered
  have hrunning : s.monitor.pc = .bubbles ∨ s.monitor.pc = .finished → False := by
    intro hpc
    have hleaving := hm.leaving hpc
    have hbehind := h.behind hleaving.1 (by rcases hpc with hpc | hpc <;> simp [hpc])
      (by rcases hpc with hpc | hpc <;> simp [hpc])
    omega
  cases hpc : s.monitor.pc with
  | test => exact round_not_spins h hpc
  | loadStop =>
      have hstep : step K .monitor s =
          s.setMonitor { s.monitor with pc := .loadSubmitted, stop := s.stop } := by
        simp only [step, monitorStep, hpc]
      refine not_spins_of_step hstep fun hsame => not_spins_of_step rfl fun hsame' => ?_
      exact scanInited_not_spins _ _ ((h.move hstep hsame).move rfl hsame') rfl rfl le_rfl
  | loadSubmitted =>
      have hstep : step K .monitor s = s.setMonitor { s.monitor with
          pc := .scanInited, nSubmitted := s.nSubmitted, next := s.monitor.nInited } := by
        simp only [step, monitorStep, hpc]
      exact not_spins_of_step hstep fun hsame =>
        scanInited_not_spins _ _ (h.move hstep hsame) rfl rfl le_rfl
  | scanInited => exact firstScan_not_spins _ s h (.inl hpc) le_rfl
  | advance => exact firstScan_not_spins _ s h (.inr hpc) le_rfl
  | scanDone => exact secondScan_not_spins h hpc
  | checkpoint =>
      refine not_spins_of_step rfl fun hsame => secondScan_not_spins (h.move rfl hsame) ?_
      simp [step, monitorStep, hpc, State.setMonitor]
  | publishRoot => exact publishRoot_not_spins h hpc
  | publishCommitted =>
      have hlt := hm.publishing hpc
      refine not_spins_of_step rfl fun hsame => ?_
      have hcommitted := congrArg Shared.nCommitted hsame
      simp [State.shared, step, monitorStep, hpc, State.setMonitor] at hcommitted
      omega
  | bubbles => exact (hrunning (.inl hpc)).elim
  | finished => exact (hrunning (.inr hpc)).elim

end Monitor

section Progress

/-- Of the pipes that have not handed on the oldest pending tid, the first may. -/
theorem Pending.first (h : Pending K s) (hinv : Inv K s φ) (hpace : s.nCommitted + 1 ≤ s.paces 0)
    (hexit : (s.pipes K.nPipes).tid = s.nCommitted + 1)
    (hback : ∀ w < K.nWorkers, (s.workers w).pc ≠ .push) : ∃ pid, Handling K pid s := by
  have hex : ∃ pid, pid ≤ K.nPipes ∧ (s.pipes pid).tid = s.nCommitted + 1 :=
    ⟨K.nPipes, le_rfl, hexit⟩
  classical
  obtain ⟨hle, htid⟩ := Nat.find_spec hex
  refine ⟨Nat.find hex, h, hle, htid, ?_, fun _ => hback⟩
  cases hfirst : Nat.find hex with
  | zero => exact hpace
  | succ pid =>
      have hpid : pid < K.nPipes := by omega
      have hbefore := hinv.committed_lt_tid hpid.le
      have hne : (s.pipes pid).tid ≠ s.nCommitted + 1 := fun heq =>
        Nat.find_min hex (by omega) ⟨hpid.le, heq⟩
      have hpaces : s.paces (pid + 1) + 1 = (s.pipes pid).tid := hinv.order.paces pid hpid
      omega

/-- No state with an uncommitted tid is a deadlock. -/
theorem Pending.not_all_spin (hK : Always K (Sound K)) (h : Pending K s) :
    ∃ θ : Thread, θ.Runs K ∧ ¬ Spins K θ s := by
  obtain ⟨φ, hinv⟩ := h.inv
  have hwindow : s.nCommitted + 1 ≤ s.nCommitted + bufferSize :=
    Nat.add_le_add_left (by decide) _
  have hcontent := hinv.content (Nat.lt_succ_self _) hwindow
  have hexited := hinv.tracks.exited (s.nCommitted + 1) h.pending
  by_cases hpace : s.nCommitted + 1 ≤ s.paces 0
  · by_cases hexit : s.nCommitted + 1 < (s.pipes K.nPipes).tid
    · have hyes := hexited.2 hexit
      cases hφ : φ (s.nCommitted + 1) with
      | working wid =>
          have htask : (s.pool K).task wid = some (s.nCommitted + 1) :=
            (hinv.tracks.working _ wid).1 hφ
          have hwid := (hinv.pool.busy wid _ htask).1
          exact ⟨.worker wid, hwid, working_not_spins hK h hwid htask⟩
      | finished =>
          rw [hφ] at hcontent
          exact ⟨.monitor, trivial, watching_not_spins ⟨h, .inr ⟨hpace, hcontent.1⟩⟩⟩
      | unissued | held c | filled | staged =>
          rw [hφ] at hyes
          exact hyes.elim
    · have htid : (s.pipes K.nPipes).tid = s.nCommitted + 1 := by
        have := hinv.committed_lt_tid (le_refl K.nPipes)
        omega
      by_cases hback : ∃ w < K.nWorkers, (s.workers w).pc = .push
      · obtain ⟨w, hw, hpc⟩ := hback
        exact ⟨.worker w, hw, push_not_spins h hw hpc⟩
      · push Not at hback
        obtain ⟨pid, hpid⟩ := h.first hinv hpace htid hback
        exact ⟨.pipe pid, hpid.runs, handling_not_spins hK hpid⟩
  · -- the monitor has not handed it on
    have hfirst : s.paces 0 = s.nCommitted := by
      have hlt := hinv.committed_lt_tid (Nat.zero_le K.nPipes)
      have hbehind : (s.pipes 0).tid ≤ s.paces 0 + 1 := (hinv.order.pipes 0 (Nat.zero_le _)).behind
      omega
    have hnot : ¬ (φ (s.nCommitted + 1)).Exited := by
      rw [hexited]
      have hle := hinv.order.tid_le (Nat.zero_le _) (le_refl K.nPipes)
      have hbehind : (s.pipes 0).tid ≤ s.paces 0 + 1 := (hinv.order.pipes 0 (Nat.zero_le _)).behind
      simp only [State.ledger]
      omega
    have hwatch : s.stages ((s.nCommitted + 1) % bufferSize) = 0 → Watching K s := fun hstage =>
      ⟨h, .inl (by rw [hfirst]; exact ⟨h.pending, hstage⟩)⟩
    cases hφ : φ (s.nCommitted + 1) with
    | unissued => exact absurd ((hinv.tracks.unissued _).1 hφ) (not_lt.mpr h.pending)
    | held c => exact ⟨.client c, trivial, held_not_spins hinv ((hinv.tracks.held _ c).1 hφ)⟩
    | filled | staged =>
        rw [hφ] at hcontent
        exact ⟨.monitor, trivial, watching_not_spins (hwatch hcontent.1)⟩
    | working w | finished =>
        rw [hφ] at hnot
        exact absurd trivial hnot

end Progress

end Contrees.Conctrl.Concow
