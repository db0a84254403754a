import Contrees.Conctrl.ConcowSlots

namespace Contrees.Conctrl.Concow

open Library.Runs Library.TaskLedger

variable {ρ μ : Type} {K : Config ρ μ} {s s' : State ρ μ} {φ φ' : Nat → Phase Nat Nat} {pid : Nat}
  {p : Pipe}

theorem entry_setPipe (htid : p.tid = (s.pipes pid).tid)
    (hentered : pid = 0 → p.pc.entered = (s.pipes pid).pc.entered) :
    (s.setPipe pid p).entry = s.entry := by
  by_cases hpid : pid = 0
  · subst hpid
    simp [State.entry, State.setPipe, htid, hentered rfl]
  · simp [State.entry, State.setPipe, Ne.symm hpid]

theorem ledger_setPipe (htid : p.tid = (s.pipes pid).tid)
    (hentered : pid = 0 → p.pc.entered = (s.pipes pid).pc.entered) :
    (s.setPipe pid p).ledger K = s.ledger K := by
  have hexit : ((s.setPipe pid p).pipes K.nPipes).tid = (s.pipes K.nPipes).tid := by
    by_cases hpid : pid = K.nPipes
    · subst hpid
      simp [State.setPipe, htid]
    · simp [State.setPipe, Ne.symm hpid]
  rw [State.ledger, State.ledger, entry_setPipe htid hentered, hexit]
  rfl

structure PipeWrites (s s' : State ρ μ) (pid : Nat) (p : Pipe) : Prop where
  pipes : s'.pipes = Function.update s.pipes pid p
  ctxs : ∀ i, i ≠ (s.pipes pid).tid % bufferSize → s'.ctxs i = s.ctxs i
  stages : ∀ i, i ≠ (s.pipes pid).tid % bufferSize → s'.stages i = s.stages i
  nSubmitted : s'.nSubmitted = s.nSubmitted
  nCommitted : s'.nCommitted = s.nCommitted
  clients : s'.clients = s.clients
  passed : s'.passed = s.passed
  workers : s'.workers = s.workers
  monitor : s'.monitor = s.monitor

theorem Inv.pipeSlots (h : Inv K s φ) (hpid : pid ≤ K.nPipes)
    (hwaited : (s.pipes pid).pc.waited = true) (hw : PipeWrites s s' pid p)
    (hφ : ∀ t, t ≠ (s.pipes pid).tid → φ' t = φ t)
    (hcontent : Content K s.clients (s.passed (s.pipes pid).tid) (s.pipes pid).tid
      (s'.stages ((s.pipes pid).tid % bufferSize)) (s'.ctx (s.pipes pid).tid)
      (φ' (s.pipes pid).tid))
    (hbubble : (s.pipes pid).tid % bufferSize = 0 →
      (s'.ctx (s.pipes pid).tid).op = Operand.done)
    (hknows : p.Knows K s.nSubmitted (s'.ctx p.tid)) : Slots K s' φ' := by
  have hC := h.committed_lt_tid hpid
  have hlt := h.waited_lt hpid hwaited
  -- the slots of other tids in the ring are as they were
  have hother : ∀ t, s.nCommitted < t → t ≤ s.nCommitted + bufferSize → t ≠ (s.pipes pid).tid →
      s'.ctx t = s.ctx t := by
    intro t ht hle hne
    exact hw.ctxs _ (slot_ne ht hle hC hlt.le hne)
  constructor
  · refine h.slots.content_set hC hlt.le hw.nCommitted hφ hw.stages hw.ctxs ?_ ?_ ?_
    · intro t c _ _
      rw [hw.clients]
    · intro t _
      rw [hw.passed]
    · rw [hw.clients, hw.passed]
      exact hcontent
  · by_cases hslot : (s.pipes pid).tid % bufferSize = 0
    · have hop := hbubble hslot
      rwa [State.ctx, hslot] at hop
    · rw [hw.ctxs 0 (Ne.symm hslot)]
      exact h.slots.bubbles
  · rw [hw.clients, hw.nCommitted]
    exact h.slots.room
  · rw [hw.clients]
    exact h.slots.writing
  · rw [hw.clients]
    exact h.slots.bubbling
  · rw [hw.clients, hw.passed]
    exact h.slots.args
  · intro q hq
    rw [hw.pipes, hw.nSubmitted]
    by_cases hqp : q = pid
    · subst hqp
      simpa using hknows
    · rw [Function.update_of_ne hqp]
      have hsame : (s.pipes q).pc.waited = true →
          s'.ctx (s.pipes q).tid = s.ctx (s.pipes q).tid := by
        intro hq'
        apply hother _ (h.committed_lt_tid hq) (h.waited_lt hq hq').le
        rcases Nat.lt_or_gt_of_ne hqp with hlt | hlt
        · exact (h.order.tid_lt hlt hpid hwaited).ne'
        · exact (h.order.tid_lt hlt hq hq').ne
      refine (h.slots.pipes q hq).congr le_rfl ?_ ?_
      · intro hpc
        rw [hsame (by rw [hpc]; rfl)]
      · intro hpc
        rw [hsame (by rw [hpc]; rfl)]
  · intro w hpc
    rw [hw.workers] at hpc ⊢
    obtain ⟨-, hCw, hexit, hltw⟩ := h.task_window (h.task_of_finish hpc)
    have hle := h.order.tid_le hpid le_rfl
    rw [hother _ hCw hltw.le (hexit.trans_le hle).ne]
    exact h.slots.workers w hpc

theorem Inv.pipeMove (h : Inv K s φ) (htid : p.tid = (s.pipes pid).tid)
    (hentered : pid = 0 → p.pc.entered = (s.pipes pid).pc.entered)
    (hknows : p.Knows K s.nSubmitted (s.ctx p.tid)) :
    Tracks bufferSize ((s.setPipe pid p).ledger K) φ ∧ Slots K (s.setPipe pid p) φ := by
  refine ⟨by rw [ledger_setPipe htid hentered]; exact h.tracks, ?_⟩
  have hslots := h.slots
  refine { hslots with pipes := ?_ }
  intro q hq
  by_cases hqp : q = pid
  · subst hqp
    simpa [State.setPipe, State.ctx] using hknows
  · simpa [State.setPipe, State.ctx, hqp] using hslots.pipes q hq

section Writes

theorem ctx_setCtx {t : Nat} {p : Pipe} (ctx : Context ρ) :
    ((s.setCtx (t % bufferSize) ctx).setPipe pid p).ctx t = ctx := Function.update_self _ _ _

theorem pipeWrites_setCtx (ctx : Context ρ) :
    PipeWrites s ((s.setCtx ((s.pipes pid).tid % bufferSize) ctx).setPipe pid p) pid p where
  pipes := rfl
  ctxs _ hi := Function.update_of_ne hi _ _
  stages _ _ := rfl
  nSubmitted := rfl
  nCommitted := rfl
  clients := rfl
  passed := rfl
  workers := rfl
  monitor := rfl

theorem pipeWrites_call (K : Config ρ μ) (θ : Thread) (stage op : Nat) :
    PipeWrites s ((s.call K θ (s.pipes pid).tid stage op).setPipe pid p) pid p :=
  { pipeWrites_setCtx ((s.ctx (s.pipes pid).tid).after (handled K s (s.pipes pid).tid op).1) with }

theorem PipeWrites.ledger (hw : PipeWrites s s' pid p) (htids : s'.tids = s.tids) :
    s'.ledger K = { s.ledger K with
      entry := s'.entry
      exit := (s'.pipes K.nPipes).tid } := by
  simp only [State.ledger, State.pool, Pool.task, hw.nSubmitted, hw.monitor, hw.nCommitted,
    hw.clients,
    hw.workers, htids]

theorem PipeWrites.enters (hw : PipeWrites s s' 0 p) (htids : s'.tids = s.tids)
    (hentered : (s.pipes 0).pc.entered = false) (hentered' : p.pc.entered = true)
    (htid : p.tid = (s.pipes 0).tid) :
    s.entry = (s.pipes 0).tid ∧ s'.entry = s.entry + 1 ∧
      s'.ledger K = { s.ledger K with entry := s.entry + 1 } := by
  have hentry : s.entry = (s.pipes 0).tid := by simp [State.entry, hentered]
  have hentry' : s'.entry = s.entry + 1 := by
    rw [hentry]
    simp [State.entry, hw.pipes, hentered', htid]
  have hexit : s'.pipes K.nPipes = s.pipes K.nPipes := by
    have hne : K.nPipes ≠ 0 := Nat.one_le_iff_ne_zero.mp K.nPipes_pos
    rw [hw.pipes, Function.update_of_ne hne]
  exact ⟨hentry, hentry', by rw [hw.ledger htids, hentry', hexit]; rfl⟩

end Writes

section Entry

theorem Inv.enterPipe (h : Inv K s φ) (hwaited : (s.pipes 0).pc.waited = true)
    (hentered : (s.pipes 0).pc.entered = false) (hw : PipeWrites s s' 0 p)
    (htids : s'.tids = s.tids) (hstages : s'.stages = s.stages) (hentered' : p.pc.entered = true)
    (htid : p.tid = (s.pipes 0).tid)
    (hbegun : (s.pipes 0).tid ≤ s.nSubmitted → (s.pipes 0).tid % bufferSize ≠ 0 →
      Begun K (s.pipes 0).tid (s'.ctx (s.pipes 0).tid) ∧
        (Always K (Sound K) → (s'.ctx (s.pipes 0).tid).retry = true →
          (s'.ctx (s.pipes 0).tid).waitChild = false))
    (hdone : s.nSubmitted < (s.pipes 0).tid ∨ (s.pipes 0).tid % bufferSize = 0 →
      (s'.ctx (s.pipes 0).tid).op = Operand.done)
    (hknows : p.Knows K s.nSubmitted (s'.ctx p.tid)) :
    ∃ φ', Tracks bufferSize (s'.ledger K) φ' ∧ Slots K s' φ' := by
  obtain ⟨hentry, hentry', hledger⟩ := hw.enters (K := K) htids hentered hentered' htid
  have hcontent := h.pipe_content (Nat.zero_le _) hwaited
  by_cases hle : (s.pipes 0).tid ≤ s.nSubmitted
  · have hφ := h.phase_filled hwaited hentered hle
    rw [hφ] at hcontent
    refine ⟨Function.update φ s.entry .staged, ?_, ?_⟩
    · rw [hledger]
      exact h.tracks.enter (by simpa [State.ledger, hentry] using hφ)
    · refine h.pipeSlots (Nat.zero_le _) hwaited hw ?_ ?_ (fun hmod => hdone (.inr hmod)) hknows
      · intro t ht
        rw [hentry, Function.update_of_ne ht]
      · rw [hentry, Function.update_self, hstages]
        exact ⟨hcontent.1, hbegun hle⟩
  · have hφ := h.phase_bubble (not_le.mp hle)
    rw [hφ] at hcontent
    refine ⟨φ, ?_, ?_⟩
    · rw [hledger]
      apply h.tracks.skipEntry
      simp only [State.ledger]
      omega
    · refine h.pipeSlots (Nat.zero_le _) hwaited hw (fun _ _ => rfl) ?_
        (fun hmod => hdone (.inr hmod)) hknows
      rw [hφ, hstages]
      exact ⟨hcontent.1, hdone (.inl (not_le.mp hle))⟩

theorem Inv.bubble_done (h : Inv K s φ) {t : Nat} (ht : t % bufferSize = 0) :
    (s.ctx t).op = Operand.done := by
  rw [State.ctx, ht]
  exact h.slots.bubbles

theorem Inv.unissued_done (h : Inv K s φ) {pid : Nat} (hpid : pid ≤ K.nPipes)
    (hwaited : (s.pipes pid).pc.waited = true) (hlt : s.nSubmitted < (s.pipes pid).tid) :
    (s.ctx (s.pipes pid).tid).op = Operand.done := by
  have hcontent := h.pipe_content hpid hwaited
  rw [h.phase_bubble hlt] at hcontent
  exact hcontent.2

theorem Inv.update_of_ne_done (h : Inv K s φ) {pid : Nat} (hpid : pid ≤ K.nPipes)
    (hwaited : (s.pipes pid).pc.waited = true)
    (hop : (s.ctx (s.pipes pid).tid).op ≠ Operand.done) :
    (s.pipes pid).tid % bufferSize ≠ 0 ∧ (s.pipes pid).tid ≤ s.nSubmitted := by
  constructor
  · intro hmod
    exact hop (h.bubble_done hmod)
  · by_contra hlt
    exact hop (h.unissued_done hpid hwaited (not_le.mp hlt))

end Entry

section Start

theorem iterExec_knows {n : Nat} {ctx : Context ρ} (hknows : p.tid % bufferSize ≠ 0 ∧ p.tid ≤ n) :
    Pipe.Knows K n ctx { p with pc := iterExec ctx } := by
  unfold iterExec
  split
  · exact hknows
  · split <;> exact hknows

theorem Inv.bubble_of_ne_init (h : Inv K s φ) (hwaited : (s.pipes 0).pc.waited = true)
    (hentered : (s.pipes 0).pc.entered = false) (hmod : (s.pipes 0).tid % bufferSize ≠ 0)
    (hop : (s.ctx (s.pipes 0).tid).op ≠ Operand.init) : s.nSubmitted < (s.pipes 0).tid := by
  by_contra hle
  have hcontent := h.pipe_content (Nat.zero_le _) hwaited
  rw [h.phase_filled hwaited hentered (not_lt.mp hle)] at hcontent
  obtain ⟨key, val, -, hfresh⟩ := hcontent.2 hmod
  exact hop hfresh.op

theorem Inv.startEntry (h : Inv K s φ) (hpc : (s.pipes 0).pc = .start) :
    ∃ φ', Tracks bufferSize ((s.setPipe 0 (pipeStart K s 0 (s.pipes 0))).ledger K) φ' ∧
      Slots K (s.setPipe 0 (pipeStart K s 0 (s.pipes 0))) φ' := by
  have hwaited : (s.pipes 0).pc.waited = true := by rw [hpc]; rfl
  have hentered : (s.pipes 0).pc.entered = false := by rw [hpc]; rfl
  unfold pipeStart
  dsimp only
  rw [if_pos rfl]
  by_cases hmod : (s.pipes 0).tid % bufferSize = 0
  · rw [if_pos hmod]
    split
    · exact ⟨φ, h.pipeMove rfl (fun _ => hentered.symm) hmod⟩
    · exact ⟨φ, h.pipeMove rfl (fun _ => hentered.symm) hmod⟩
  · rw [if_neg hmod]
    by_cases hop : (s.ctx (s.pipes 0).tid).op = Operand.init
    · rw [if_pos hop]
      refine ⟨φ, h.pipeMove rfl (fun _ => hentered.symm) ?_⟩
      exact h.update_of_ne_done (Nat.zero_le _) hwaited (by rw [hop]; decide)
    · rw [if_neg hop]
      have hlt := h.bubble_of_ne_init hwaited hentered hmod hop
      have hw : PipeWrites s (s.setPipe 0 { s.pipes 0 with pc := .advance }) 0
          { s.pipes 0 with pc := .advance } := by constructor <;> first | rfl | (intros; rfl)
      refine h.enterPipe hwaited hentered hw rfl rfl rfl rfl
        (fun hle => absurd hlt (not_lt.mpr hle)) ?_ trivial
      intro _
      exact h.unissued_done (Nat.zero_le _) hwaited hlt

theorem Inv.startOther (h : Inv K s φ) {pid : Nat} (hpid : pid ≤ K.nPipes) (hne : pid ≠ 0)
    (hpc : (s.pipes pid).pc = .start) :
    ∃ φ', Tracks bufferSize ((s.setPipe pid (pipeStart K s pid (s.pipes pid))).ledger K) φ' ∧
      Slots K (s.setPipe pid (pipeStart K s pid (s.pipes pid))) φ' := by
  have hwaited : (s.pipes pid).pc.waited = true := by rw [hpc]; rfl
  refine ⟨φ, h.pipeMove (pipeStart_tid _ _) (fun heq => absurd heq hne) ?_⟩
  rw [pipeStart_tid]
  unfold pipeStart
  dsimp only
  rw [if_neg hne]
  by_cases hop : (s.ctx (s.pipes pid).tid).op = Operand.done
  · rw [if_neg (not_not.mpr hop), if_neg (not_not.mpr hop)]
    split
    · exact hop
    · trivial
  · have hupdate := h.update_of_ne_done hpid hwaited hop
    rw [if_pos hop, if_pos hop]
    split
    · exact hupdate
    · exact iterExec_knows hupdate

end Start

section Body

theorem Inv.pipeStay (h : Inv K s φ) (hpid : pid ≤ K.nPipes)
    (hwaited : (s.pipes pid).pc.waited = true) (hw : PipeWrites s s' pid p)
    (htids : s'.tids = s.tids) (hstages : s'.stages = s.stages) (htid : p.tid = (s.pipes pid).tid)
    (hentered : pid = 0 → p.pc.entered = (s.pipes pid).pc.entered)
    (hcontent : Content K s.clients (s.passed (s.pipes pid).tid) (s.pipes pid).tid
      (s.stages ((s.pipes pid).tid % bufferSize)) (s'.ctx (s.pipes pid).tid) (φ (s.pipes pid).tid))
    (hbubble : (s.pipes pid).tid % bufferSize = 0 →
      (s'.ctx (s.pipes pid).tid).op = Operand.done)
    (hknows : p.Knows K s.nSubmitted (s'.ctx p.tid)) :
    Tracks bufferSize (s'.ledger K) φ ∧ Slots K s' φ := by
  have hpipes : s'.pipes = (s.setPipe pid p).pipes := hw.pipes
  have hentry : s'.entry = s.entry := by
    rw [State.entry, hpipes]
    exact entry_setPipe htid hentered
  have hledger : s'.ledger K = s.ledger K := by
    have hexit : ((s.setPipe pid p).pipes K.nPipes).tid = (s.pipes K.nPipes).tid :=
      congrArg Ledger.exit (ledger_setPipe htid hentered)
    rw [hw.ledger htids, hentry, hpipes, hexit]
    rfl
  refine ⟨by rw [hledger]; exact h.tracks, ?_⟩
  refine h.pipeSlots hpid hwaited hw (fun _ _ => rfl) ?_ hbubble hknows
  rw [hstages]
  exact hcontent

theorem Inv.setRoot (h : Inv K s φ) (hwaited : (s.pipes 0).pc.waited = true)
    (hentered : (s.pipes 0).pc.entered = false) (hmod : (s.pipes 0).tid % bufferSize = 0)
    (hw : PipeWrites s s' 0 { s.pipes 0 with pc := .advance }) (htids : s'.tids = s.tids)
    (hstages : s'.stages = s.stages)
    (hop : (s'.ctx (s.pipes 0).tid).op = (s.ctx (s.pipes 0).tid).op) :
    ∃ φ', Tracks bufferSize (s'.ledger K) φ' ∧ Slots K s' φ' := by
  refine h.enterPipe hwaited hentered hw htids hstages rfl rfl
    (fun _ hne => absurd hmod hne) ?_ trivial
  intro _
  rw [hop]
  exact h.bubble_done hmod

theorem Inv.setPast (h : Inv K s φ) (hwaited : (s.pipes 0).pc.waited = true)
    (hentered : (s.pipes 0).pc.entered = false) {past : Option ρ} {pc : PipePc}
    (hentered' : pc.entered = false)
    (hw : PipeWrites s s' 0 { s.pipes 0 with pc := pc }) (htids : s'.tids = s.tids)
    (hstages : s'.stages = s.stages)
    (hctx : s'.ctx (s.pipes 0).tid = { s.ctx (s.pipes 0).tid with tPast := past })
    (hknows : Pipe.Knows K s.nSubmitted (s'.ctx (s.pipes 0).tid) { s.pipes 0 with pc := pc }) :
    ∃ φ', Tracks bufferSize (s'.ledger K) φ' ∧ Slots K s' φ' := by
  refine ⟨φ, h.pipeStay (Nat.zero_le _) hwaited hw htids hstages rfl
    (fun _ => hentered'.trans hentered.symm) ?_ ?_ hknows⟩
  · have hcontent := h.pipe_content (Nat.zero_le _) hwaited
    rw [hctx]
    by_cases hle : (s.pipes 0).tid ≤ s.nSubmitted
    · rw [h.phase_filled hwaited hentered hle] at hcontent ⊢
      refine ⟨hcontent.1, fun hmod => ?_⟩
      obtain ⟨key, val, hpassed, hfresh⟩ := hcontent.2 hmod
      exact ⟨key, val, hpassed, { hfresh with flags := { hfresh.flags with } }⟩
    · rw [h.phase_bubble (not_le.mp hle)] at hcontent ⊢
      exact hcontent
  · intro hmod
    rw [hctx]
    exact h.bubble_done hmod

theorem Inv.initPipe (h : Inv K s φ) (hpc : (s.pipes 0).pc = .init)
    (hsound : Always K (Sound K) → Sound K (.thread (.pipe 0)) s) :
    ∃ φ', Tracks bufferSize ((pipeStep K 0 s).ledger K) φ' ∧ Slots K (pipeStep K 0 s) φ' := by
  have hwaited : (s.pipes 0).pc.waited = true := by rw [hpc]; rfl
  have hentered : (s.pipes 0).pc.entered = false := by rw [hpc]; rfl
  have hupdate : (s.pipes 0).tid % bufferSize ≠ 0 ∧ (s.pipes 0).tid ≤ s.nSubmitted := by
    have hknows := h.slots.pipes 0 (Nat.zero_le _)
    simpa only [Pipe.Knows, hpc] using hknows
  simp only [Sound, LeavesEarlier, ServesRetries, hpc] at hsound
  have hcontent := h.pipe_content (Nat.zero_le _) hwaited
  rw [h.phase_filled hwaited hentered hupdate.2] at hcontent
  obtain ⟨key, val, -, hfresh⟩ := hcontent.2 hupdate.1
  simp only [pipeStep, hpc]
  have hctx : ((s.call K (.pipe 0) (s.pipes 0).tid 0 Operand.init).setPipe 0
      { s.pipes 0 with pc := .retry }).ctx (s.pipes 0).tid =
        (s.ctx (s.pipes 0).tid).after (handled K s (s.pipes 0).tid Operand.init).1 :=
    Function.update_self _ _ _
  refine h.enterPipe hwaited hentered (pipeWrites_call K _ _ _) rfl rfl rfl rfl ?_ ?_ hupdate
  · intro _ _
    rw [hctx]
    exact ⟨⟨hfresh.sno, fun hK => (hsound hK).1⟩, fun hK => (hsound hK).2⟩
  · rintro (hlt | hmod)
    · omega
    · exact absurd hmod hupdate.1

theorem Inv.handlePipe (h : Inv K s φ) (hpid : pid ≤ K.nPipes) (hpc : (s.pipes pid).pc = .handle)
    (hsound : Always K (Sound K) → Sound K (.thread (.pipe pid)) s) :
    ∃ φ', Tracks bufferSize ((pipeStep K pid s).ledger K) φ' ∧ Slots K (pipeStep K pid s) φ' := by
  have hwaited : (s.pipes pid).pc.waited = true := by rw [hpc]; rfl
  have hentered : (s.pipes pid).pc.entered = true := by rw [hpc]; rfl
  have hupdate : (s.pipes pid).tid % bufferSize ≠ 0 ∧ (s.pipes pid).tid ≤ s.nSubmitted := by
    have hknows := h.slots.pipes pid hpid
    simpa only [Pipe.Knows, hpc] using hknows
  simp only [Sound, LeavesEarlier, ServesRetries, hpc] at hsound
  have hφ := h.phase_staged hpid hwaited
    ((eq_or_ne pid 0).elim (fun heq => .inr (heq ▸ hentered)) .inl) hupdate.2
  have hcontent := h.pipe_content hpid hwaited
  rw [hφ] at hcontent
  simp only [pipeStep, hpc]
  have hctx : ((s.call K (.pipe pid) (s.pipes pid).tid pid (s.ctx (s.pipes pid).tid).op).setPipe pid
      { s.pipes pid with pc := .retry }).ctx (s.pipes pid).tid =
        (s.ctx (s.pipes pid).tid).after
          (handled K s (s.pipes pid).tid (s.ctx (s.pipes pid).tid).op).1 :=
            Function.update_self _ _ _
  refine ⟨φ, h.pipeStay hpid hwaited (pipeWrites_call K _ _ _) rfl rfl rfl
    (fun _ => hentered.symm) ?_ ?_
    hupdate⟩
  · rw [hctx, hφ]
    refine ⟨hcontent.1, fun hmod => ⟨⟨(hcontent.2 hmod).1.sno, fun hK => (hsound hK).1⟩,
      fun hK => (hsound hK).2⟩⟩
  · intro hmod
    exact absurd hmod hupdate.1

end Body

section Exit

theorem entry_exit (hpipes : s'.pipes = Function.update s.pipes K.nPipes p) :
    s'.entry = s.entry := by
  have hne : (0 : Nat) ≠ K.nPipes := (Nat.one_le_iff_ne_zero.mp K.nPipes_pos).symm
  simp [State.entry, hpipes, hne]

theorem Inv.assignPipe (h : Inv K s φ) {wid : Nat} (hpc : (s.pipes K.nPipes).pc = .assign wid) :
    ∃ φ', Tracks bufferSize ((pipeStep K K.nPipes s).ledger K) φ' ∧
      Slots K (pipeStep K K.nPipes s) φ' := by
  have hwaited : (s.pipes K.nPipes).pc.waited = true := by rw [hpc]; rfl
  have hne : K.nPipes ≠ 0 := Nat.one_le_iff_ne_zero.mp K.nPipes_pos
  have hupdate : (s.pipes K.nPipes).tid % bufferSize ≠ 0 ∧
      (s.pipes K.nPipes).tid ≤ s.nSubmitted := by
    have hknows := h.slots.pipes _ le_rfl
    simpa only [Pipe.Knows, hpc] using hknows
  have hφ := h.phase_staged le_rfl hwaited (.inl hne) hupdate.2
  have hcontent := h.pipe_content le_rfl hwaited
  rw [hφ] at hcontent
  simp only [pipeStep, hpc]
  set s' : State ρ μ := { s.setPipe K.nPipes { s.pipes K.nPipes with
    pc := .loop, tid := (s.pipes K.nPipes).tid + 1 } with
      tids := Function.update s.tids wid (s.pipes K.nPipes).tid } with hs'
  have hw : PipeWrites s s' K.nPipes { s.pipes K.nPipes with
      pc := .loop, tid := (s.pipes K.nPipes).tid + 1 } := by
    constructor <;> first | rfl | (intros; rfl)
  have hentry : s'.entry = s.entry := entry_exit hw.pipes
  have hledger : s'.ledger K = { s.ledger K with
      exit := (s.ledger K).exit + 1
      task := Function.update (s.ledger K).task wid (some (s.ledger K).exit) } := by
    have htasks := h.pool.task_assign hpc (s'.pipes K.nPipes)
    have htask : (s'.pool K).task = Function.update (s.pool K).task wid
        (some (s.pipes K.nPipes).tid) :=
      htasks
    simp only [State.ledger, hentry, htask, hw.pipes, Function.update_self]
    rfl
  refine ⟨Function.update φ (s.pipes K.nPipes).tid (.working wid), ?_, ?_⟩
  · rw [hledger]
    exact h.tracks.assign hφ (h.pool.popped wid hpc).2.2
  · refine h.pipeSlots le_rfl hwaited hw (fun t ht => Function.update_of_ne ht _ _) ?_ ?_ trivial
    · rw [Function.update_self]
      have hzero : s.stages ((s.pipes K.nPipes).tid % bufferSize) ≠ ⊤ := by
        rw [hcontent.1]
        exact WithTop.zero_ne_top
      exact ⟨hzero, hupdate.1, (hcontent.2 hupdate.1).1⟩
    · intro hmod
      exact absurd hmod hupdate.1

theorem Inv.markPipe (h : Inv K s φ) (hpc : (s.pipes K.nPipes).pc = .markDone) :
    ∃ φ', Tracks bufferSize ((pipeStep K K.nPipes s).ledger K) φ' ∧
      Slots K (pipeStep K K.nPipes s) φ' := by
  have hwaited : (s.pipes K.nPipes).pc.waited = true := by rw [hpc]; rfl
  have hne : K.nPipes ≠ 0 := Nat.one_le_iff_ne_zero.mp K.nPipes_pos
  have hop : (s.ctx (s.pipes K.nPipes).tid).op = Operand.done := by
    have hknows := h.slots.pipes _ le_rfl
    simpa only [Pipe.Knows, hpc] using hknows
  simp only [pipeStep, hpc]
  set s' : State ρ μ := (s.setStage ((s.pipes K.nPipes).tid % bufferSize) ⊤).setPipe K.nPipes
    { s.pipes K.nPipes with pc := .loop, tid := (s.pipes K.nPipes).tid + 1 } with hs'
  have hw : PipeWrites s s' K.nPipes { s.pipes K.nPipes with
      pc := .loop, tid := (s.pipes K.nPipes).tid + 1 } := by
    constructor <;> first | rfl | (intro i hi; exact Function.update_of_ne hi _ _) | (intros; rfl)
  have hentry : s'.entry = s.entry := entry_exit hw.pipes
  have hledger : s'.ledger K = { s.ledger K with exit := (s.ledger K).exit + 1 } := by
    rw [hw.ledger rfl, hentry, hw.pipes, Function.update_self]
    rfl
  have hstage : s'.stages ((s.pipes K.nPipes).tid % bufferSize) = ⊤ := Function.update_self _ _ _
  by_cases hle : (s.pipes K.nPipes).tid ≤ s.nSubmitted
  · have hφ := h.phase_staged le_rfl hwaited (.inl hne) hle
    refine ⟨Function.update φ (s.pipes K.nPipes).tid .finished, ?_, ?_⟩
    · rw [hledger]
      exact h.tracks.leave hφ
    · refine h.pipeSlots le_rfl hwaited hw (fun t ht => Function.update_of_ne ht _ _) ?_
        (fun _ => hop) trivial
      rw [Function.update_self, hstage]
      exact ⟨rfl, hop⟩
  · refine ⟨φ, ?_, ?_⟩
    · rw [hledger]
      exact h.tracks.skipExit (not_le.mp hle)
    · refine h.pipeSlots le_rfl hwaited hw (fun _ _ => rfl) ?_ (fun _ => hop) trivial
      rw [h.phase_bubble (not_le.mp hle), hstage]
      exact ⟨rfl, hop⟩

end Exit

section Step

theorem Inv.advancePipe (h : Inv K s φ) (hpid : pid < K.nPipes)
    (hpc : (s.pipes pid).pc = .advance) :
    Tracks bufferSize ((pipeStep K pid s).ledger K) φ ∧ Slots K (pipeStep K pid s) φ := by
  simp only [pipeStep, hpc]
  set s' : State ρ μ := (s.setPace (pid + 1) (s.pipes pid).tid).setPipe pid
    { s.pipes pid with pc := .loop, tid := (s.pipes pid).tid + 1 } with hs'
  have hentry : s'.entry = s.entry := by
    by_cases hzero : pid = 0
    · subst hzero
      simp [State.entry, hs', State.setPipe, hpc, PipePc.entered]
    · simp [State.entry, hs', State.setPipe, State.setPace, Ne.symm hzero]
  have hexit : s'.pipes K.nPipes = s.pipes K.nPipes := Function.update_of_ne hpid.ne' _ _
  have hledger : s'.ledger K = s.ledger K := by
    rw [State.ledger, State.ledger, hentry, hexit]
    rfl
  have hslots := h.slots
  refine ⟨by rw [hledger]; exact h.tracks, { hslots with pipes := ?_ }⟩
  intro q hq
  by_cases hqp : q = pid
  · subst hqp
    have hself : s'.pipes q = { s.pipes q with pc := .loop, tid := (s.pipes q).tid + 1 } :=
      Function.update_self _ _ _
    rw [hself]
    trivial
  · have hother : s'.pipes q = s.pipes q := Function.update_of_ne hqp _ _
    rw [hother]
    exact hslots.pipes q hq

theorem Inv.popPipe (h : Inv K s φ) (hpc : (s.pipes K.nPipes).pc = .pop) :
    Tracks bufferSize ((pipeStep K K.nPipes s).ledger K) φ ∧ Slots K (pipeStep K K.nPipes s) φ := by
  have hne : K.nPipes ≠ 0 := Nat.one_le_iff_ne_zero.mp K.nPipes_pos
  have hknows := h.slots.pipes _ le_rfl
  simp only [Pipe.Knows, hpc] at hknows
  simp only [pipeStep, hpc]
  have hafter : Pipe.Knows K s.nSubmitted (s.ctx (s.pipes K.nPipes).tid)
      { s.pipes K.nPipes with pc := afterPop s } := by
    unfold afterPop
    split <;> exact hknows
  have hmove := h.pipeMove (p := { s.pipes K.nPipes with pc := afterPop s }) rfl
    (fun heq => absurd heq hne)
    hafter
  exact ⟨hmove.1, { hmove.2 with }⟩

theorem Inv.pipeStep (h : Inv K s φ) (hpid : pid ≤ K.nPipes)
    (hsound : Always K (Sound K) → Sound K (.thread (.pipe pid)) s) :
    ∃ φ', Tracks bufferSize ((pipeStep K pid s).ledger K) φ' ∧ Slots K (pipeStep K pid s) φ' := by
  have hkind := h.order.kinds pid hpid
  have hknows := h.slots.pipes pid hpid
  have hordered := h.order.pipes pid hpid
  cases hpc : (s.pipes pid).pc <;> simp only [State.counters, hpc, PipePc.OfKind] at hkind <;>
    simp only [Pipe.Knows, hpc] at hknows
  case init =>
      subst hkind
      exact h.initPipe hpc hsound
  case handle => exact h.handlePipe hpid hpc hsound
  case assign wid =>
      subst hkind
      exact h.assignPipe hpc
  case markDone =>
      subst hkind
      exact h.markPipe hpc
  case advance => exact ⟨φ, h.advancePipe hkind hpc⟩
  case pop =>
      subst hkind
      exact ⟨φ, h.popPipe hpc⟩
  all_goals simp only [Concow.pipeStep, hpc]
  case testStop =>
      have hepoch := hordered.epoch (.inl hpc)
      split
      · exact ⟨φ, h.pipeMove rfl (fun _ => by rw [hpc]; rfl) trivial⟩
      · exact ⟨φ, h.pipeMove hepoch.symm (fun _ => by rw [hpc]; rfl) trivial⟩
  case loadTasks =>
      have hepoch := hordered.epoch (.inr hpc)
      exact ⟨φ, h.pipeMove hepoch.symm (fun _ => by rw [hpc]; rfl) trivial⟩
  case loop =>
      split
      · exact ⟨φ, h.pipeMove rfl (fun _ => by rw [hpc]; rfl) trivial⟩
      · split
        · exact ⟨φ, h.pipeMove rfl (fun _ => by rw [hpc]; rfl) trivial⟩
        · exact ⟨φ, h.pipeMove rfl (fun _ => by rw [hpc]; rfl) trivial⟩
  case wait =>
      split
      · exact ⟨φ, h.pipeMove rfl (fun _ => by rw [hpc]) trivial⟩
      · exact ⟨φ, h.pipeMove rfl (fun _ => by rw [hpc]; rfl) trivial⟩
  case start =>
      by_cases hzero : pid = 0
      · subst hzero
        exact h.startEntry hpc
      · exact h.startOther hpid hzero hpc
  case copyRoot =>
      subst hkind
      refine h.setRoot (by rw [hpc]; rfl) (by rw [hpc]; rfl) hknows (pipeWrites_setCtx _) rfl rfl ?_
      simp [State.ctx, State.setPipe, State.setCtx]
  case cpPast =>
      subst hkind
      refine h.setPast (by rw [hpc]; rfl) (by rw [hpc]; rfl) rfl
        (pipeWrites_setCtx _) rfl rfl (ctx_setCtx _) ?_
      rw [ctx_setCtx]
      exact ⟨hknows, fun hK => by simpa only [LeavesEarlier, hpc] using (hsound hK).1⟩
  case cpVersion =>
      subst hkind
      split
      · exact ⟨φ, h.tracks, h.slots.loadCno _⟩
      · exact ⟨φ, h.pipeMove rfl (fun _ => by rw [hpc]; rfl) hknows.1⟩
  case cpHandle =>
      subst hkind
      refine h.setRoot (by rw [hpc]; rfl) (by rw [hpc]; rfl) hknows
        { pipeWrites_setCtx { s.ctx (s.pipes 0).tid with
          root := (K.checkpointHandler (s.ctx (s.pipes 0).tid) s.mem).1 } with } rfl rfl ?_
      simp [State.ctx, State.setPipe, State.setCtx]
  case readPast =>
      subst hkind
      exact h.setPast (by rw [hpc]; rfl) (by rw [hpc]; rfl) rfl
        (pipeWrites_setCtx _) rfl rfl (ctx_setCtx _) hknows
  case retry =>
      split
      · refine ⟨φ, h.pipeMove rfl (fun _ => ?_) (iterExec_knows hknows)⟩
        rw [hpc]
        unfold iterExec
        split
        · rfl
        · split <;> rfl
      · exact ⟨φ, h.pipeMove rfl (fun _ => by rw [hpc]; rfl) trivial⟩
  case version =>
      split
      · exact ⟨φ, h.tracks, h.slots.loadCno _⟩
      · exact ⟨φ, h.pipeMove rfl (fun _ => by rw [hpc]; rfl) hknows⟩
  case finished => exact ⟨φ, h.tracks, h.slots⟩

end Step

end Contrees.Conctrl.Concow
