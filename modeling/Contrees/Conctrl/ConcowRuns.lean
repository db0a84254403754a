import Contrees.Conctrl.ConcowWorkers

namespace Contrees.Conctrl.Concow

open Library.Runs Library.TaskLedger

variable {ρ μ : Type} {K : Config ρ μ} {s t : State ρ μ} {φ : Nat → Phase Nat Nat}

section Destructor

theorem Destructor.pastMonitor_of_pastPipes {d : Destructor} (h : d.pastPipes = true) :
    d.pastMonitor = true := by
  cases d <;> simp_all [Destructor.pastPipes, Destructor.pastMonitor]

theorem Inv.idle (h : Inv K s φ) (hd : s.destructor.pastPipes = true) (w : Nat) :
    (s.pool K).task w = none := by
  have hpc := h.closing.monitor (Destructor.pastMonitor_of_pastPipes hd)
  have hm := h.order.monitor
  obtain ⟨hstop, hall⟩ := hm.leaving (.inr hpc)
  have hsubmitted := (hm.stopped hstop).2 (by simp [State.counters, hpc])
  have hended := hm.ended
  simp only [State.counters] at hall hsubmitted hended
  cases htask : (s.pool K).task w with
  | none => rfl
  | some tid =>
      obtain ⟨hφ, -⟩ := h.task_window htask
      by_cases hle : tid ≤ s.nSubmitted
      · rw [h.tracks.ended tid (show tid ≤ s.monitor.ended by omega)] at hφ
        simp at hφ
      · rw [h.phase_bubble (not_le.mp hle)] at hφ
        simp at hφ

theorem Inv.destructorStep (h : Inv K s φ) :
    Tracks bufferSize ((destructorStep K s).ledger K) φ ∧ Slots K (destructorStep K s) φ := by
  have hslots := h.slots
  cases hd : s.destructor <;> simp only [Concow.destructorStep, hd]
  case storeTids wid =>
      split
      · exact ⟨h.tracks, { hslots with }⟩
      · have hidle := h.idle (by rw [hd]; rfl) wid
        have hledger : State.ledger K { s with
            tids := Function.update s.tids wid ⊤
            destructor := .storeTids (wid + 1) } = s.ledger K := by
          simp only [State.ledger]
          congr 1
          funext v
          by_cases hv : v = wid
          · subst hv
            rw [hidle]
            rcases Worker.pc_of_task_none hidle with hpc | hpc | hpc
            · change (s.workers v).pc = _ at hpc
              simp [Pool.task, State.pool, Worker.task, hpc]
            · change (s.workers v).pc = _ at hpc
              simp [Pool.task, State.pool, Worker.task, hpc]
            · change (s.workers v).pc = _ at hpc
              simp [Pool.task, State.pool, Worker.task, hpc]
          · simp [Pool.task, State.pool, hv]
        exact ⟨by rw [hledger]; exact h.tracks, { hslots with }⟩
  case idle => exact ⟨h.tracks, h.slots⟩
  case finished => exact ⟨h.tracks, h.slots⟩
  case joinMonitor => split <;> exact ⟨h.tracks, { hslots with }⟩
  case joinPipes =>
      split
      · exact ⟨h.tracks, { hslots with }⟩
      · split <;> exact ⟨h.tracks, { hslots with }⟩
  case joinWorkers =>
      split
      · exact ⟨h.tracks, { hslots with }⟩
      · split <;> exact ⟨h.tracks, { hslots with }⟩

end Destructor

section Steps

theorem Inv.threadStep (h : Inv K s φ) {θ : Thread} (hθ : θ.Runs K)
    (hsound : Always K (Sound K) → Sound K (.thread θ) s) :
    ∃ φ', Inv K (step K θ s) φ' := by
  have horder := h.order.step h.closing hθ
  have hclosing := h.closing.step hθ
  have hpool := h.pool.step h.order h.closing h.idle hθ
  have key : ∃ φ', Tracks bufferSize ((step K θ s).ledger K) φ' ∧ Slots K (step K θ s) φ' := by
    cases θ with
    | client c => exact h.clientStep c
    | monitor => exact ⟨φ, h.monitorStep⟩
    | pipe pid => exact h.pipeStep hθ hsound
    | worker wid => exact h.workerStep hsound
    | destructor => exact ⟨φ, h.destructorStep⟩
  obtain ⟨φ', htracks, hslots⟩ := key
  exact ⟨φ', horder, hclosing, hpool, htracks, hslots⟩

theorem Inv.update (h : Inv K s φ) {c key val : Nat} (hc : s.clients c = .idle)
    (hd : s.destructor = .idle) : Inv K (s.setClient c (.fetch key val)) φ := by
  have hother : ∀ d, d ≠ c → (s.setClient c (.fetch key val)).clients d = s.clients d := fun d hd =>
    Function.update_of_ne hd _ _
  have hself : (s.setClient c (.fetch key val)).clients c = .fetch key val := Function.update_self _ _ _
  have hledger : (s.setClient c (.fetch key val)).ledger K = s.ledger K := by
    simp only [State.ledger]
    congr 1
    funext d
    by_cases hdc : d = c
    · subst hdc
      rw [hself, hc]
      rfl
    · rw [hother d hdc]
  have hslots := h.slots
  refine ⟨h.order, h.closing.update hd, h.pool, by rw [hledger]; exact h.tracks, { hslots with
    content := ?_, room := ?_, writing := ?_, bubbling := ?_, args := ?_ }⟩
  · intro t ht hle
    have hcontent := h.content ht hle
    cases hφ : φ t with
    | held d =>
        have hdc : d ≠ c := by
          rintro rfl
          have hheld := (h.tracks.held t d).1 hφ
          simp [State.ledger, hc, Client.tid] at hheld
        rw [hφ] at hcontent
        refine ⟨hcontent.1, ?_⟩
        rw [hother d hdc]
        exact hcontent.2
    | unissued | filled | staged | working w | finished =>
        rw [hφ] at hcontent
        exact hcontent
  · intro d t hd' hroom
    by_cases hdc : d = c
    · subst hdc
      rw [hself] at hroom
      simp [Client.hasRoom] at hroom
    · rw [hother d hdc] at hd' hroom
      exact hslots.room d t hd' hroom
  · intro d t k v field hd'
    by_cases hdc : d = c
    · subst hdc
      rw [hself] at hd'
      simp at hd'
    · rw [hother d hdc] at hd'
      exact hslots.writing d t k v field hd'
  · intro d t k v hd'
    by_cases hdc : d = c
    · subst hdc
      rw [hself] at hd'
      simp at hd'
    · rw [hother d hdc] at hd'
      exact hslots.bubbling d t k v hd'
  · intro d t k v hd'
    by_cases hdc : d = c
    · subst hdc
      rw [hself] at hd'
      simp at hd'
    · rw [hother d hdc] at hd'
      exact hslots.args d t k v hd'

theorem Inv.destroy (h : Inv K s φ) (hc : ∀ c, s.clients c = .idle) (hd : s.destructor = .idle) :
    Inv K { s with stop := true, destructor := .joinMonitor } φ := by
  have hslots := h.slots
  exact ⟨h.order.destroy, h.closing.destroy hc hd, h.pool, h.tracks, { hslots with }⟩

theorem Inv.step (h : Inv K s φ) {a : Label} (hsound : Always K (Sound K) → Sound K a s) (ha : Step K a s t) :
    ∃ φ', Inv K t φ' := by
  cases ha with
  | thread _ _ hθ => exact h.threadStep hθ hsound
  | update _ c key val hc hd => exact ⟨φ, h.update hc hd⟩
  | destroy _ hc hd => exact ⟨φ, h.destroy hc hd⟩

end Steps

section Initial

theorem Slots.initial : Slots K (initial K) (fun t => if t = 0 then .finished else .unissued) where
  content t ht _ := by
    have hne : t ≠ 0 := Nat.ne_of_gt ht
    simp only [if_neg hne]
    exact ⟨rfl, rfl⟩
  bubbles := rfl
  room _ _ hc := by simp [Concow.initial, Client.tid] at hc
  writing _ _ _ _ _ hc := by simp [Concow.initial] at hc
  bubbling _ _ _ _ hc := by simp [Concow.initial] at hc
  args _ _ _ _ hc := by simp [Concow.initial] at hc
  pipes _ _ := trivial
  workers _ hpc := by simp [Concow.initial] at hpc

theorem Inv.initial : Inv K (initial K) (fun t => if t = 0 then .finished else .unissued) where
  order := Order.initial
  closing := Closing.initial
  pool := Pool.Wf.initial
  tracks := by
    have hledger : (Concow.initial K).ledger K =
        ⟨0, 0, 1, 1, 0, 0, fun _ : Nat => none, fun _ : Nat => none⟩ := by
      simp [State.ledger, State.entry, Concow.initial, PipePc.entered, Monitor.inited, Monitor.ended,
        Client.tid, Pool.task, State.pool, Worker.task]
    rw [hledger]
    exact Tracks.initial bufferSize_pos
  slots := Slots.initial

/-- In every reachable state the tids are where their slots say. -/
theorem inv_of_reachable (hs : Reachable (Step K) (initial K) s) : ∃ φ, Inv K s φ := by
  have key : Reachable (Step K) (initial K) s ∧ ∃ φ, Inv K s φ := by
    refine hs.invariant (fun s => Reachable (Step K) (initial K) s ∧ ∃ φ, Inv K s φ)
      ⟨Reachable.start, _, Inv.initial⟩ ?_
    rintro a s t ⟨hs, φ, h⟩ - ha
    exact ⟨hs.next a ha, h.step (fun hK => hK a s t hs ha) ha⟩
  exact key.2

end Initial

end Contrees.Conctrl.Concow
