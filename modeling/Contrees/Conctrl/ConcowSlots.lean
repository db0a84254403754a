import Contrees.Conctrl.ConcowPool
import Contrees.Library.TaskLedger

namespace Contrees.Conctrl.Concow

open Library.Runs Library.TaskLedger

def Client.tid : Client → Option Nat
  | .idle | .fetch _ _ => none
  | .waiting tid _ _ | .bubbleSno tid _ _ | .bubbleStage tid _ _ | .writing tid _ _ _ => some tid

def Client.hasRoom : Client → Bool
  | .idle | .fetch _ _ | .waiting _ _ _ => false
  | .bubbleSno _ _ _ | .bubbleStage _ _ _ | .writing _ _ _ _ => true

def PipePc.entered : PipePc → Bool
  | .retry | .version | .handle | .advance => true
  | _ => false

section Slots

variable {ρ μ : Type}

def State.entry (s : State ρ μ) : Nat :=
  if (s.pipes 0).pc.entered then (s.pipes 0).tid + 1 else (s.pipes 0).tid

/-- The tids as tasks that clients draw and workers finish. -/
def State.ledger (K : Config ρ μ) (s : State ρ μ) : Ledger Nat Nat where
  issued := s.nSubmitted
  inited := s.monitor.inited
  entry := s.entry
  exit := (s.pipes K.nPipes).tid
  ended := s.monitor.ended
  committed := s.nCommitted
  holding := fun c => (s.clients c).tid
  task := fun w => (s.pool K).task w

structure Context.Flagless (ctx : Context ρ) : Prop where
  retry : ctx.retry = false
  waitChild : ctx.waitChild = false
  waitSubtree : ctx.waitSubtree = false
  newCheckpoint : ctx.newCheckpoint = false

structure Fresh (tid key val : Nat) (ctx : Context ρ) : Prop where
  op : ctx.op = Operand.init
  flags : ctx.Flagless
  sno : ctx.sno = tid % 2 ^ 32
  key : ctx.key = key
  val : ctx.val = val

/-- What `update` has written before the given word. -/
def Written (tid key val : Nat) (ctx : Context ρ) : Field → Prop
  | .op => ctx.op = Operand.done
  | .flags => ctx.op = Operand.init
  | .sno => ctx.op = Operand.init ∧ ctx.Flagless
  | .key => ctx.op = Operand.init ∧ ctx.Flagless ∧ ctx.sno = tid % 2 ^ 32
  | .val => ctx.op = Operand.init ∧ ctx.Flagless ∧ ctx.sno = tid % 2 ^ 32 ∧ ctx.key = key
  | .stage => Fresh tid key val ctx

def Client.Fills (client : Client) (ctx : Context ρ) : Prop :=
  match client with
  | .writing tid key val field => Written tid key val ctx field
  | _ => ctx.op = Operand.done

structure Begun (K : Config ρ μ) (tid : Nat) (ctx : Context ρ) : Prop where
  sno : ctx.sno = tid % 2 ^ 32
  past : Always K (Sound K) → K.tidOf ctx.tPast < tid

/-- What the slot and the stage word of a tid hold, by its phase. -/
def Content (K : Config ρ μ) (clients : Nat → Client) (passed : Option (Nat × Nat)) (tid : Nat)
    (stage : Word) (ctx : Context ρ) : Phase Nat Nat → Prop
  | .unissued | .finished => stage = ⊤ ∧ ctx.op = Operand.done
  | .held c => stage = ⊤ ∧ (clients c).Fills ctx
  | .filled => stage = 0 ∧ (tid % bufferSize ≠ 0 →
      ∃ key val, passed = some (key, val) ∧ Fresh tid key val ctx)
  | .staged => stage = 0 ∧ (tid % bufferSize ≠ 0 →
      Begun K tid ctx ∧ (Always K (Sound K) → ctx.retry = true → ctx.waitChild = false))
  | .working _ => stage ≠ ⊤ ∧ tid % bufferSize ≠ 0 ∧ Begun K tid ctx

def Pipe.Knows (K : Config ρ μ) (nSubmitted : Nat) (ctx : Context ρ) (p : Pipe) : Prop :=
  match p.pc with
  | .readPast | .init | .retry | .version | .handle | .pop | .assign _ =>
      p.tid % bufferSize ≠ 0 ∧ p.tid ≤ nSubmitted
  | .copyRoot | .cpPast | .cpHandle => p.tid % bufferSize = 0
  | .cpVersion => p.tid % bufferSize = 0 ∧
      (Always K (Sound K) → K.tidOf ctx.tPast < p.tid ∧ K.tidOf ctx.tPast ≤ nSubmitted)
  | .markDone => ctx.op = Operand.done
  | _ => True

/-- The ring agrees with the phases of the tids after the committed ones. -/
structure Slots (K : Config ρ μ) (s : State ρ μ) (φ : Nat → Phase Nat Nat) : Prop where
  content : ∀ t, s.nCommitted < t → t ≤ s.nCommitted + bufferSize →
    Content K s.clients (s.passed t) t (s.stages (t % bufferSize)) (s.ctx t) (φ t)
  bubbles : (s.ctxs 0).op = Operand.done
  room : ∀ c t, (s.clients c).tid = some t → (s.clients c).hasRoom = true →
    t < s.nCommitted + bufferSize
  writing : ∀ c t key val field, s.clients c = .writing t key val field → t % bufferSize ≠ 0
  bubbling : ∀ c t key val, s.clients c = .bubbleSno t key val ∨ s.clients c = .bubbleStage t key val →
    t % bufferSize = 0
  args : ∀ c t key val, s.clients c = .waiting t key val ∨ (∃ f, s.clients c = .writing t key val f) →
    s.passed t = some (key, val)
  pipes : ∀ pid ≤ K.nPipes, (s.pipes pid).Knows K s.nSubmitted (s.ctx (s.pipes pid).tid)
  workers : ∀ w, (s.workers w).pc = .finish → (s.ctx (s.workers w).tid).op = Operand.done

end Slots

/-- All that holds at any time, with the phases of the tids. -/
structure Inv {ρ μ : Type} (K : Config ρ μ) (s : State ρ μ) (φ : Nat → Phase Nat Nat) : Prop where
  order : Order K.nPipes s.counters
  closing : Closing K s
  pool : (s.pool K).Wf K.nWorkers
  tracks : Tracks bufferSize (s.ledger K) φ
  slots : Slots K s φ

section Positions

variable {ρ μ : Type} {K : Config ρ μ} {s : State ρ μ} {φ : Nat → Phase Nat Nat} {pid q t t' : Nat}

theorem Order.tid_le (h : Order K.nPipes s.counters) (hpq : pid ≤ q) (hq : q ≤ K.nPipes) :
    (s.pipes q).tid ≤ (s.pipes pid).tid := by
  induction q, hpq using Nat.le_induction with
  | base => exact le_rfl
  | succ q hle ih =>
      have hbehind := (h.pipes (q + 1) hq).behind
      have hpace := h.paces q hq
      exact (hbehind.trans hpace.le).trans (ih (by omega))

theorem Order.tid_le_pace (h : Order K.nPipes s.counters) (hpid : pid ≤ K.nPipes)
    (hwaited : (s.pipes pid).pc.waited = true) : (s.pipes pid).tid ≤ s.paces pid :=
  ((h.pipes pid hpid).ready hwaited).trans (h.pipes pid hpid).cache

theorem Order.tid_lt (h : Order K.nPipes s.counters) (hpq : pid < q) (hq : q ≤ K.nPipes)
    (hwaited : (s.pipes q).pc.waited = true) : (s.pipes q).tid < (s.pipes pid).tid := by
  obtain ⟨q, rfl⟩ : ∃ q', q = q' + 1 := ⟨q - 1, by omega⟩
  have hle := h.tid_le_pace hq hwaited
  have hpace : s.paces (q + 1) + 1 = (s.pipes q).tid := h.paces q hq
  have := h.tid_le (Nat.le_of_lt_succ hpq) (by omega)
  omega

theorem Order.committed_le_ended (h : Order K.nPipes s.counters) :
    s.nCommitted ≤ s.monitor.ended := h.monitor.committed.trans h.monitor.ended

theorem Inv.ended_lt_exit (h : Inv K s φ) : s.monitor.ended < (s.pipes K.nPipes).tid := by
  have hle : s.monitor.ended ≤ s.nSubmitted :=
    h.order.monitor.endedInited.trans (h.order.monitor.inited.trans
      (h.order.monitor.initedLoaded.trans h.order.monitor.loaded))
  have hended := h.tracks.ended _ (le_refl s.monitor.ended)
  exact (h.tracks.exited _ hle).1 (by rw [hended]; trivial)

theorem Inv.committed_lt_tid (h : Inv K s φ) (hpid : pid ≤ K.nPipes) :
    s.nCommitted < (s.pipes pid).tid :=
  (h.order.committed_le_ended.trans_lt h.ended_lt_exit).trans_le (h.order.tid_le hpid le_rfl)

theorem Order.tid_le_pace0 (h : Order K.nPipes s.counters) (hpid : pid ≤ K.nPipes)
    (hwaited : (s.pipes pid).pc.waited = true) : (s.pipes pid).tid ≤ s.paces 0 := by
  rcases Nat.eq_zero_or_pos pid with rfl | hpos
  · exact h.tid_le_pace hpid hwaited
  · have hlt := h.tid_lt hpos hpid hwaited
    have hbehind : (s.pipes 0).tid ≤ s.paces 0 + 1 := (h.pipes 0 (Nat.zero_le _)).behind
    omega

theorem Inv.waited_filled (h : Inv K s φ) (hpid : pid ≤ K.nPipes)
    (hwaited : (s.pipes pid).pc.waited = true) :
    (φ (s.pipes pid).tid).Filled ∧ (s.pipes pid).tid ≤ s.nSubmitted ∨
      s.nSubmitted < (s.pipes pid).tid ∧ s.monitor.pc = .finished := by
  have hpace := h.order.tid_le_pace0 hpid hwaited
  have hm := h.order.monitor
  by_cases hle : (s.pipes pid).tid ≤ s.nSubmitted
  · refine .inl ⟨h.tracks.inited _ ?_, hle⟩
    have hinited := hm.inited
    by_cases hpc : s.monitor.pc = .finished
    · have hstopped := (hm.stopped (hm.leaving (.inr hpc)).1).2 (by simp [State.counters, hpc])
      have hleaving := (hm.leaving (.inr hpc)).2
      have h1 := hm.ended
      have h2 := hm.endedInited
      simp only [State.counters, State.ledger] at *
      omega
    · have hhanded := hm.handed hpc
      simp only [State.counters, State.ledger] at *
      omega
  · refine .inr ⟨not_le.mp hle, ?_⟩
    by_contra hpc
    have hhanded := hm.handed hpc
    have h1 := hm.inited
    have h2 := hm.initedLoaded
    have h3 := hm.loaded
    simp only [State.counters] at *
    omega

theorem Inv.waited_lt (h : Inv K s φ) (hpid : pid ≤ K.nPipes)
    (hwaited : (s.pipes pid).pc.waited = true) :
    (s.pipes pid).tid < s.nCommitted + bufferSize := by
  rcases h.waited_filled hpid hwaited with ⟨hfilled, -⟩ | ⟨hlt, hpc⟩
  · exact h.tracks.window _ hfilled
  · have hm := h.order.monitor
    have hpace := h.order.tid_le_pace0 hpid hwaited
    have h1 := (hm.bubbles hpc).2
    have h2 := (hm.leaving (.inr hpc)).2
    have h3 := hm.published (by simp [State.counters, hpc])
    have h4 := hm.inited
    have h5 := hm.initedLoaded
    simp only [State.counters] at *
    omega

theorem slot_ne {base : Nat} (ht : base < t) (hle : t ≤ base + bufferSize) (ht' : base < t')
    (hle' : t' ≤ base + bufferSize) (hne : t ≠ t') : t % bufferSize ≠ t' % bufferSize := by
  intro heq
  have hsub := Nat.sub_mod_eq_zero_of_mod_eq heq
  have hsub' := Nat.sub_mod_eq_zero_of_mod_eq heq.symm
  rw [Nat.mod_eq_of_lt (by omega)] at hsub hsub'
  omega

theorem Inv.phase_filled (h : Inv K s φ) (hwaited : (s.pipes 0).pc.waited = true)
    (hentered : (s.pipes 0).pc.entered = false) (hle : (s.pipes 0).tid ≤ s.nSubmitted) :
    φ (s.pipes 0).tid = .filled := by
  have hfilled : (φ (s.pipes 0).tid).Filled := by
    rcases h.waited_filled (Nat.zero_le _) hwaited with ⟨hfilled, -⟩ | ⟨hlt, -⟩
    · exact hfilled
    · omega
  have hnot : ¬ (φ (s.pipes 0).tid).Entered := by
    rw [h.tracks.entered _ hle]
    simp [State.ledger, State.entry, hentered]
  cases hφ : φ (s.pipes 0).tid <;> simp_all [Phase.Filled, Phase.Entered]

theorem Inv.phase_staged (h : Inv K s φ) (hpid : pid ≤ K.nPipes)
    (hwaited : (s.pipes pid).pc.waited = true)
    (hentered : pid ≠ 0 ∨ (s.pipes 0).pc.entered = true)
    (hle : (s.pipes pid).tid ≤ s.nSubmitted) : φ (s.pipes pid).tid = .staged := by
  have hyes : (φ (s.pipes pid).tid).Entered := by
    rw [h.tracks.entered _ hle]
    simp only [State.ledger, State.entry]
    by_cases hpos : pid = 0
    · subst hpos
      simp [hentered.resolve_left (by simp)]
    · have hlt := h.order.tid_lt (Nat.pos_of_ne_zero hpos) hpid hwaited
      split <;> omega
  have hnot : ¬ (φ (s.pipes pid).tid).Exited := by
    rw [h.tracks.exited _ hle]
    exact not_lt.mpr (h.order.tid_le hpid le_rfl)
  cases hφ : φ (s.pipes pid).tid <;> simp_all [Phase.Entered, Phase.Exited]

theorem Inv.phase_bubble (h : Inv K s φ) (hlt : s.nSubmitted < t) : φ t = .unissued :=
  (h.tracks.unissued t).2 hlt

theorem Inv.content (h : Inv K s φ) (ht : s.nCommitted < t)
    (hle : t ≤ s.nCommitted + bufferSize) :
    Content K s.clients (s.passed t) t (s.stages (t % bufferSize)) (s.ctx t) (φ t) :=
  h.slots.content t ht hle

theorem Inv.pipe_content (h : Inv K s φ) (hpid : pid ≤ K.nPipes)
    (hwaited : (s.pipes pid).pc.waited = true) :
    Content K s.clients (s.passed (s.pipes pid).tid) (s.pipes pid).tid
      (s.stages ((s.pipes pid).tid % bufferSize)) (s.ctx (s.pipes pid).tid)
      (φ (s.pipes pid).tid) :=
  h.content (h.committed_lt_tid hpid) (h.waited_lt hpid hwaited).le

theorem Inv.task_window (h : Inv K s φ) {w : Nat} (ht : (s.pool K).task w = some t) :
    φ t = .working w ∧ s.nCommitted < t ∧ t < (s.pipes K.nPipes).tid ∧
      t < s.nCommitted + bufferSize := by
  have hφ : φ t = .working w := (h.tracks.working t w).2 ht
  refine ⟨hφ, ?_, (h.pool.busy w t ht).2, h.tracks.window t (by rw [hφ]; trivial)⟩
  by_contra hle
  have hended := h.tracks.ended t ((not_lt.mp hle).trans h.order.committed_le_ended)
  rw [hended] at hφ
  simp at hφ

theorem Inv.task_of_finish (_h : Inv K s φ) {w : Nat} (hpc : (s.workers w).pc = .finish) :
    (s.pool K).task w = some (s.workers w).tid := by
  simp [Pool.task, State.pool, Worker.task, hpc]

end Positions

section Frames

variable {ρ μ : Type} {K : Config ρ μ} {s s' : State ρ μ} {φ φ' : Nat → Phase Nat Nat} {t₀ : Nat}

theorem Slots.content_set (h : Slots K s φ) (ht : s.nCommitted < t₀)
    (hle : t₀ ≤ s.nCommitted + bufferSize) (hC : s'.nCommitted = s.nCommitted)
    (hφ : ∀ t, t ≠ t₀ → φ' t = φ t)
    (hstages : ∀ i, i ≠ t₀ % bufferSize → s'.stages i = s.stages i)
    (hctxs : ∀ i, i ≠ t₀ % bufferSize → s'.ctxs i = s.ctxs i)
    (hclients : ∀ t c, t ≠ t₀ → φ t = .held c → s'.clients c = s.clients c)
    (hpassed : ∀ t, t ≠ t₀ → s'.passed t = s.passed t)
    (hnew : Content K s'.clients (s'.passed t₀) t₀ (s'.stages (t₀ % bufferSize)) (s'.ctx t₀)
      (φ' t₀)) (t : Nat) (ht' : s'.nCommitted < t) (hle' : t ≤ s'.nCommitted + bufferSize) :
    Content K s'.clients (s'.passed t) t (s'.stages (t % bufferSize)) (s'.ctx t) (φ' t) := by
  rw [hC] at ht' hle'
  by_cases hne : t = t₀
  · rw [hne]
    exact hnew
  · have hslot := slot_ne ht' hle' ht hle hne
    have hcontent := h.content t ht' hle'
    rw [hφ t hne, hstages _ hslot, hpassed t hne, State.ctx, hctxs _ hslot]
    cases hphase : φ t with
    | held c =>
        rw [hphase] at hcontent
        simpa only [Content, State.ctx, hclients t c hne hphase] using hcontent
    | unissued | filled | staged | working w | finished =>
        rw [hphase] at hcontent
        exact hcontent

theorem Content.withCno {clients : Nat → Client} {passed : Option (Nat × Nat)} {tid n : Nat}
    {stage : Word} {ctx : Context ρ} {p : Phase Nat Nat}
    (h : Content K clients passed tid stage ctx p) :
    Content K clients passed tid stage { ctx with cno := n } p := by
  cases p with
  | unissued => exact h
  | held c =>
      refine ⟨h.1, ?_⟩
      have hfills := h.2
      unfold Client.Fills at hfills ⊢
      split
      · rename_i tid key val field hc
        simp only [hc] at hfills
        cases field
        case stage => exact { hfills with flags := { hfills.flags with } }
        case op => exact hfills
        case flags => exact hfills
        case sno => exact ⟨hfills.1, { hfills.2 with }⟩
        case key => exact ⟨hfills.1, { hfills.2.1 with }, hfills.2.2⟩
        case val => exact ⟨hfills.1, { hfills.2.1 with }, hfills.2.2⟩
      · rename_i hne
        split at hfills
        · exact absurd ‹_› (hne _ _ _ _)
        · exact hfills
  | filled =>
      refine ⟨h.1, fun hmod => ?_⟩
      obtain ⟨key, val, hargs, hfresh⟩ := h.2 hmod
      exact ⟨key, val, hargs, { hfresh with flags := { hfresh.flags with } }⟩
  | staged => exact ⟨h.1, fun hmod => ⟨{ (h.2 hmod).1 with }, (h.2 hmod).2⟩⟩
  | working w => exact ⟨h.1, h.2.1, { h.2.2 with }⟩
  | finished => exact h

theorem Pipe.Knows.congr {p : Pipe} {n n' : Nat} {ctx ctx' : Context ρ} (h : p.Knows K n ctx)
    (hn : n ≤ n') (hop : p.pc = .markDone → ctx'.op = ctx.op)
    (hpast : p.pc = .cpVersion → ctx'.tPast = ctx.tPast) : p.Knows K n' ctx' := by
  unfold Pipe.Knows at h ⊢
  cases hpc : p.pc <;> simp only [hpc] at h hop hpast ⊢ <;>
    first
    | exact h
    | exact ⟨h.1, h.2.trans hn⟩
    | (rw [hpast trivial]; exact ⟨h.1, fun hK => ⟨(h.2 hK).1, (h.2 hK).2.trans hn⟩⟩)
    | (rw [hop trivial]; exact h)

theorem loadCno_ctxs (s : State ρ μ) (t i : Nat) : (s.loadCno t).ctxs i = s.ctxs i ∨
    (s.loadCno t).ctxs i = { s.ctxs i with cno := s.nCommitted % 2 ^ 32 } := by
  by_cases hi : i = t % bufferSize
  · right
    rw [hi]
    exact Function.update_self _ _ _
  · exact .inl (Function.update_of_ne hi _ _)

theorem Slots.loadCno (h : Slots K s φ) (t : Nat) : Slots K (s.loadCno t) φ := by
  constructor
  · intro t' ht hle
    have hcontent := h.content t' ht hle
    rcases loadCno_ctxs s t (t' % bufferSize) with heq | heq
    · rw [State.ctx, heq]
      exact hcontent
    · rw [State.ctx, heq]
      exact hcontent.withCno
  · rcases loadCno_ctxs s t 0 with heq | heq
    · rw [heq]
      exact h.bubbles
    · rw [heq]
      exact h.bubbles
  · exact h.room
  · exact h.writing
  · exact h.bubbling
  · exact h.args
  · intro q hq
    refine (h.pipes q hq).congr le_rfl ?_ ?_
    · intro _
      rcases loadCno_ctxs s t ((s.pipes q).tid % bufferSize) with heq | heq
      · exact congrArg Context.op heq
      · exact (congrArg Context.op heq).trans rfl
    · intro _
      rcases loadCno_ctxs s t ((s.pipes q).tid % bufferSize) with heq | heq
      · exact congrArg Context.tPast heq
      · exact (congrArg Context.tPast heq).trans rfl
  · intro w hpc
    have hop := h.workers w hpc
    rcases loadCno_ctxs s t ((s.workers w).tid % bufferSize) with heq | heq
    · exact (congrArg Context.op heq).trans hop
    · exact (congrArg Context.op heq).trans hop

end Frames

end Contrees.Conctrl.Concow
