import Contrees.Conctrl.ConcowRoots
import Contrees.Conctrl.ConcowDeadlock

namespace Contrees.Conctrl.Concow

open Library.Runs Library.TaskLedger

variable {ρ μ : Type} {K : Config ρ μ} {s s' : State ρ μ} {φ : Nat → Phase Nat Nat} {t : Nat}

def waitForProcessing (s : State ρ μ) (n : Nat) : Bool := !decide (s.nCommitted < n)

def query {α : Type} (s : State ρ μ) (f : Option ρ → α) : α := f s.root

structure Finished (K : Config ρ μ) (s : State ρ μ) (tid : Nat) : Prop where
  exit : tid < (s.pipes K.nPipes).tid
  idle : ∀ wid, (s.pool K).task wid ≠ some tid
  update : tid % bufferSize ≠ 0 → ∃ a, Trace K.nPipes (s.callsOf tid) a ∧ a.Ends
  bubble : tid % bufferSize = 0 → s.callsOf tid = []
  stays : ∀ s', Reachable (Step K) s s' → s'.callsOf tid = s.callsOf tid

structure Chain (K : Config ρ μ) (s : State ρ μ) (x : Nat → Option ρ) (r : Nat) : Prop where
  start : x 0 = some K.tInit
  makes : ∀ t, 1 ≤ t → t ≤ r → Makes K s t (x (t - 1)) (x t)

/-- The root of a tid, or the initial tree for tid 0, when all tids up to it have finished. -/
def Recorded (K : Config ρ μ) (s : State ρ μ) (r : Nat) (root : Option ρ) : Prop :=
  (∀ t, 1 ≤ t → t ≤ r → Finished K s t) ∧ ∃ x, Chain K s x r ∧ x r = root

section Finished

theorem reachable_trans (hs : Reachable (Step K) (initial K) s) (hs' : Reachable (Step K) s s') :
    Reachable (Step K) (initial K) s' := Relation.ReflTransGen.trans hs hs'

/-- From a reachable state on, the tid behind `root_` only grows, and no handler
of a tid up to it is called. -/
theorem rootTid_mono (hs : Reachable (Step K) (initial K) s) (hs' : Reachable (Step K) s s') :
    s.rootTid ≤ s'.rootTid ∧ ∀ t ≤ s.rootTid, s'.callsOf t = s.callsOf t := by
  have key : Reachable (Step K) (initial K) s' ∧ s.rootTid ≤ s'.rootTid ∧
      ∀ t ≤ s.rootTid, s'.callsOf t = s.callsOf t := by
    refine hs'.invariant (fun s' => Reachable (Step K) (initial K) s' ∧ s.rootTid ≤ s'.rootTid ∧
      ∀ t ≤ s.rootTid, s'.callsOf t = s.callsOf t) ⟨hs, le_rfl, fun _ _ => rfl⟩ ?_
    rintro a u v ⟨hu, hle, hcalls⟩ - ha
    obtain ⟨φ, h⟩ := inv_of_reachable hu
    refine ⟨hu.next a ha, hle.trans (h.rootTid_le ha), fun t ht => ?_⟩
    rw [← hcalls t ht]
    cases ha with
    | update | destroy => rfl
    | thread _ θ hθ =>
        refine step_callsOf_of_ne fun hw => ?_
        have hended := (h.writes_window hθ hw).1
        have := h.rootTid_window.2
        omega
  exact key.2

theorem finished_of_le (hs : Reachable (Step K) (initial K) s) (hle : t ≤ s.rootTid) :
    Finished K s t := by
  obtain ⟨φ, h⟩ := inv_of_reachable hs
  have hhistory := history_of_reachable hs
  have hended : t ≤ s.monitor.ended := hle.trans h.rootTid_window.2
  have hφ := h.tracks.ended t hended
  have hexit : t < (s.pipes K.nPipes).tid := hended.trans_lt h.ended_lt_exit
  have hidle : ∀ wid, (s.pool K).task wid ≠ some t := by
    intro wid hwid
    rw [(h.task_window hwid).1] at hφ
    simp at hφ
  have hissued : t ≤ s.nSubmitted := by
    by_contra hnew
    rw [h.phase_bubble (not_le.mp hnew)] at hφ
    simp at hφ
  refine ⟨hexit, hidle, fun hmod => ?_, hhistory.bubbles t,
    fun s' hs' => (rootTid_mono hs hs').2 t hle⟩
  obtain ⟨a, htrace, hends, -⟩ := (hhistory.updates t hmod).past ⟨hissued, hexit, hidle⟩
  exact ⟨a, htrace, hends⟩

end Finished

section Chains

theorem chain_of_reachable (hs : Reachable (Step K) (initial K) s) :
    ∃ x, Chain K s x s.rootTid ∧ x s.rootTid = s.root := by
  obtain ⟨φ, h⟩ := inv_of_reachable hs
  obtain ⟨x, hx⟩ := rooted_of_reachable hs
  obtain ⟨hle, hended⟩ := h.rootTid_window
  have hm : s.monitor.Ordered s.nCommitted s.nSubmitted (s.paces 0) s.stop := h.order.monitor
  have hissued : s.rootTid ≤ s.nSubmitted :=
    hended.trans (hm.endedInited.trans (hm.inited.trans (hm.initedLoaded.trans hm.loaded)))
  have hexit := h.ended_lt_exit
  have hentry := h.exit_le_entry
  have hkept : Kept s s.rootTid := ⟨hle, hissued, by omega⟩
  have hseen : s.rootTid ≤ s.seen := by
    have htid := h.order.tid_le (Nat.zero_le _) le_rfl
    rw [State.seen]
    split <;> omega
  by_cases hzero : s.rootTid = 0
  · refine ⟨x, ⟨hx.start, fun t ht hle => by omega⟩, ?_⟩
    rw [published_of_reachable hs, hzero, hx.start]
    rcases hx.checkpoints 0 rfl (hzero ▸ hkept) with ⟨-, hroot⟩ | ⟨hpos, -⟩
    · exact hroot.symm
    · exact absurd hpos (by simp)
  · have hold : ∀ t, t < s.rootTid → Function.update x s.rootTid s.root t = x t := fun t ht =>
      Function.update_of_ne ht.ne _ _
    refine ⟨Function.update x s.rootTid s.root, ⟨?_, fun t ht hle' => ?_⟩,
      Function.update_self _ _ _⟩
    · rw [hold 0 (Nat.pos_of_ne_zero hzero)]
      exact hx.start
    · rw [hold (t - 1) (by omega)]
      rcases hle'.eq_or_lt with rfl | hlt
      · rw [Function.update_self, published_of_reachable hs]
        exact hx.makes_kept (history_of_reachable hs) hkept ht
      · rw [hold t hlt]
        exact hx.made t ht (by omega) (by omega)

theorem recorded_of_reachable (hs : Reachable (Step K) (initial K) s) :
    Recorded K s s.rootTid s.root :=
  ⟨fun _ _ hle => finished_of_le hs hle, chain_of_reachable hs⟩

end Chains

/-- Tids are committed and published in their order. -/
theorem commits_in_order {ρ μ : Type} (K : Config ρ μ) (s : State ρ μ)
    (hs : Reachable (Step K) (initial K) s) :
    (∀ t, 1 ≤ t → t ≤ s.nCommitted → Finished K s t) ∧
      (s.nCommitted ≤ s.rootTid ∧ s.root = (s.ctx s.rootTid).root ∧ Recorded K s s.rootTid s.root) ∧
      ∀ s', Reachable (Step K) s s' → s.rootTid ≤ s'.rootTid ∧
        ∀ t, waitForProcessing s t = true → ∃ r root, t ≤ r ∧ Recorded K s' r root ∧
          ∀ (α : Type) (f : Option ρ → α), query s' f = f root := by
  obtain ⟨φ, h⟩ := inv_of_reachable hs
  have hle := h.rootTid_window.1
  refine ⟨fun t _ ht => finished_of_le hs (ht.trans hle),
    ⟨hle, published_of_reachable hs, recorded_of_reachable hs⟩, fun s' hs' => ?_⟩
  have hmono := (rootTid_mono hs hs').1
  refine ⟨hmono,
    fun t ht => ⟨s'.rootTid, s'.root, ?_, recorded_of_reachable (reachable_trans hs hs'),
    fun _ _ => rfl⟩⟩
  have hcommitted : t ≤ s.nCommitted := by simpa [waitForProcessing] using ht
  exact hcommitted.trans (hle.trans hmono)

/-- The worker has made the second calls for two tids, one after the other, and both are committed. -/
def bothCommitted : State Unit Unit :=
  twoUpdates [(.monitor, 8), (.pipe 0, 16), (.pipe 1, 15), (.worker 0, 11), (.pipe 1, 9),
    (.worker 0, 11), (.monitor, 13)]

theorem bothCommitted_reachable :
    Reachable (Step (sampleConfig endsAtSecond))
    (initial (sampleConfig endsAtSecond)) bothCommitted :=
  twoUpdates_reachable (by simp [Thread.Runs, sampleConfig])

theorem commits_in_order_sample : Finished (sampleConfig endsAtSecond) bothCommitted 1 ∧
    Finished (sampleConfig endsAtSecond) bothCommitted 2 ∧
      ∃ r root, 2 ≤ r ∧ Recorded (sampleConfig endsAtSecond) bothCommitted r root ∧
        ∀ (α : Type) (f : Option Unit → α), query bothCommitted f = f root :=
  have h := commits_in_order (sampleConfig endsAtSecond) bothCommitted bothCommitted_reachable
  ⟨h.1 1 le_rfl (by decide +kernel), h.1 2 (by decide) (by decide +kernel),
    (h.2.2 bothCommitted Reachable.start).2 2 (by decide +kernel)⟩

end Contrees.Conctrl.Concow
