import Contrees.Conctrl.ConcowPipes

namespace Contrees.Conctrl.Concow

open Library.Runs Library.TaskLedger

variable {ρ μ : Type} {K : Config ρ μ} {s s' : State ρ μ} {φ φ' : Nat → Phase Nat Nat} {c t : Nat}
  {client : Client}

section Clients

structure ClientWrites (s s' : State ρ μ) (c : Nat) (client : Client) (t : Nat) : Prop where
  clients : s'.clients = Function.update s.clients c client
  ctxs : ∀ i, i ≠ t % bufferSize → s'.ctxs i = s.ctxs i
  stages : ∀ i, i ≠ t % bufferSize → s'.stages i = s.stages i
  nSubmitted : s'.nSubmitted = s.nSubmitted
  nCommitted : s'.nCommitted = s.nCommitted
  passed : s'.passed = s.passed
  pipes : s'.pipes = s.pipes
  workers : s'.workers = s.workers
  tids : s'.tids = s.tids
  monitor : s'.monitor = s.monitor

theorem ClientWrites.entry (hw : ClientWrites s s' c client t) : s'.entry = s.entry := by
  rw [State.entry, State.entry, hw.pipes]

theorem ClientWrites.ledger (hw : ClientWrites s s' c client t) : s'.ledger K = { s.ledger K with
    holding := Function.update (s.ledger K).holding c client.tid } := by
  have hholding : (fun d => (s'.clients d).tid) =
      Function.update (fun d => (s.clients d).tid) c client.tid := by
    funext d
    rw [hw.clients]
    by_cases hd : d = c
    · subst hd
      simp
    · simp [hd]
  simp only [State.ledger, State.pool, Pool.task, hw.entry, hholding, hw.nSubmitted, hw.nCommitted,
    hw.pipes, hw.workers, hw.tids, hw.monitor]

theorem Inv.held (h : Inv K s φ) (ht : (s.clients c).tid = some t) :
    φ t = .held c ∧ s.nCommitted < t ∧ t ≤ s.nSubmitted := by
  have hφ : φ t = .held c := (h.tracks.held t c).2 ht
  refine ⟨hφ, ?_, ?_⟩
  · by_contra hle
    have hended := h.tracks.ended t ((not_lt.mp hle).trans h.order.committed_le_ended)
    rw [hended] at hφ
    simp at hφ
  · by_contra hlt
    rw [h.phase_bubble (not_le.mp hlt)] at hφ
    simp at hφ

theorem Inv.held_ne_pipe (h : Inv K s φ) (ht : (s.clients c).tid = some t) {q : Nat}
    (hq : q ≤ K.nPipes) (hwaited : (s.pipes q).pc.waited = true) : (s.pipes q).tid ≠ t := by
  rintro rfl
  obtain ⟨hφ, -, hle⟩ := h.held ht
  rcases h.waited_filled hq hwaited with ⟨hfilled, -⟩ | ⟨hlt, -⟩
  · rw [hφ] at hfilled
    exact hfilled
  · omega

theorem Inv.clientSlots (h : Inv K s φ) (ht : (s.clients c).tid = some t)
    (hroom : t < s.nCommitted + bufferSize) (hw : ClientWrites s s' c client t)
    (hφ : ∀ t', t' ≠ t → φ' t' = φ t')
    (hcontent : Content K s'.clients (s.passed t) t (s'.stages (t % bufferSize)) (s'.ctx t) (φ' t))
    (hbubble : t % bufferSize = 0 → (s'.ctx t).op = Operand.done)
    (htid : ∀ t', client.tid = some t' → t' = t)
    (hwriting : ∀ t' key val field, client = .writing t' key val field → t' % bufferSize ≠ 0)
    (hbubbling : ∀ t' key val, client = .bubbleSno t' key val ∨ client = .bubbleStage t' key val →
      t' % bufferSize = 0)
    (hargs : ∀ t' key val, client = .waiting t' key val ∨ (∃ f, client = .writing t' key val f) →
      s.passed t' = some (key, val)) : Slots K s' φ' := by
  obtain ⟨hheld, hC, -⟩ := h.held ht
  have hslots := h.slots
  have hself : s'.clients c = client := by rw [hw.clients, Function.update_self]
  have hother : ∀ d, d ≠ c → s'.clients d = s.clients d := by
    intro d hd
    rw [hw.clients, Function.update_of_ne hd]
  constructor
  · refine hslots.content_set hC hroom.le hw.nCommitted hφ hw.stages hw.ctxs ?_ ?_ ?_
    · intro t' d hne hd
      apply hother
      rintro rfl
      have hd' := (h.tracks.held t' d).1 hd
      exact hne (Option.some.inj (hd'.symm.trans ht))
    · intro t' _
      rw [hw.passed]
    · rw [hw.passed]
      exact hcontent
  · by_cases hslot : t % bufferSize = 0
    · have hop := hbubble hslot
      rwa [State.ctx, hslot] at hop
    · rw [hw.ctxs 0 (Ne.symm hslot)]
      exact hslots.bubbles
  · intro d t' hd hd'
    rw [hw.nCommitted]
    by_cases hdc : d = c
    · subst hdc
      rw [hself] at hd
      rw [htid t' hd]
      exact hroom
    · rw [hother d hdc] at hd hd'
      exact hslots.room d t' hd hd'
  · intro d t' key val field hd
    by_cases hdc : d = c
    · subst hdc
      exact hwriting t' key val field (hself.symm.trans hd)
    · rw [hother d hdc] at hd
      exact hslots.writing d t' key val field hd
  · intro d t' key val hd
    by_cases hdc : d = c
    · subst hdc
      rw [hself] at hd
      exact hbubbling t' key val hd
    · rw [hother d hdc] at hd
      exact hslots.bubbling d t' key val hd
  · intro d t' key val hd
    rw [hw.passed]
    by_cases hdc : d = c
    · subst hdc
      rw [hself] at hd
      exact hargs t' key val hd
    · rw [hother d hdc] at hd
      exact hslots.args d t' key val hd
  · intro q hq
    rw [hw.pipes, hw.nSubmitted]
    have hsame : (s.pipes q).pc.waited = true → s'.ctx (s.pipes q).tid = s.ctx (s.pipes q).tid := by
      intro hq'
      exact hw.ctxs _ (slot_ne (h.committed_lt_tid hq) (h.waited_lt hq hq').le hC hroom.le
        (h.held_ne_pipe ht hq hq'))
    refine (hslots.pipes q hq).congr le_rfl ?_ ?_
    · intro hpc
      rw [hsame (by rw [hpc]; rfl)]
    · intro hpc
      rw [hsame (by rw [hpc]; rfl)]
  · intro w hpc
    rw [hw.workers] at hpc ⊢
    obtain ⟨hworking, hCw, -, hltw⟩ := h.task_window (h.task_of_finish hpc)
    have hne : (s.workers w).tid ≠ t := by
      rintro rfl
      rw [hheld] at hworking
      simp at hworking
    have hsame : s'.ctx (s.workers w).tid = s.ctx (s.workers w).tid :=
      hw.ctxs _ (slot_ne hCw hltw.le hC hroom.le hne)
    rw [hsame]
    exact hslots.workers w hpc

theorem Inv.clientStay (h : Inv K s φ) (ht : (s.clients c).tid = some t)
    (hroom : t < s.nCommitted + bufferSize) (hw : ClientWrites s s' c client t)
    (htid : client.tid = some t) (hstage : s'.stages = s.stages) (hfills : client.Fills (s'.ctx t))
    (hbubble : t % bufferSize = 0 → (s'.ctx t).op = Operand.done)
    (hwriting : ∀ t' key val field, client = .writing t' key val field → t' % bufferSize ≠ 0)
    (hbubbling : ∀ t' key val, client = .bubbleSno t' key val ∨ client = .bubbleStage t' key val →
      t' % bufferSize = 0)
    (hargs : ∀ t' key val, client = .waiting t' key val ∨ (∃ f, client = .writing t' key val f) →
      s.passed t' = some (key, val)) :
    Tracks bufferSize (s'.ledger K) φ ∧ Slots K s' φ := by
  obtain ⟨hheld, hC, -⟩ := h.held ht
  have hledger : s'.ledger K = s.ledger K := by
    rw [hw.ledger, htid, ← ht]
    change { s.ledger K with holding := Function.update (s.ledger K).holding c ((s.ledger K).holding c) } = _
    rw [Function.update_eq_self]
  refine ⟨by rw [hledger]; exact h.tracks, ?_⟩
  refine h.clientSlots ht hroom hw (fun _ _ => rfl) ?_ hbubble ?_ hwriting hbubbling hargs
  · have hcontent := h.content hC hroom.le
    rw [hheld] at hcontent ⊢
    rw [hstage]
    refine ⟨hcontent.1, ?_⟩
    rwa [hw.clients, Function.update_self]
  · intro t' ht'
    exact Option.some.inj (ht'.symm.trans htid)

theorem Inv.clientFill (h : Inv K s φ) (ht : (s.clients c).tid = some t)
    (hroom : t < s.nCommitted + bufferSize) (hw : ClientWrites s s' c client t)
    (htid : client.tid = none) (hstage : s'.stages (t % bufferSize) = 0)
    (hctx : s'.ctxs = s.ctxs)
    (hfresh : t % bufferSize ≠ 0 → ∃ key val, s.passed t = some (key, val) ∧
    Fresh t key val (s.ctx t)) :
    ∃ φ', Tracks bufferSize (s'.ledger K) φ' ∧ Slots K s' φ' := by
  refine ⟨Function.update φ t .filled, ?_, ?_⟩
  · rw [hw.ledger, htid]
    exact h.tracks.fill ht hroom
  · have hsame : s'.ctx t = s.ctx t := congrFun hctx _
    refine h.clientSlots ht hroom hw (fun t' ht' => Function.update_of_ne ht' _ _) ?_ ?_ ?_ ?_ ?_ ?_
    · rw [Function.update_self, hstage, hsame]
      exact ⟨rfl, hfresh⟩
    · intro hmod
      rw [hsame]
      exact h.bubble_done hmod
    · intro t' ht'
      simp [htid] at ht'
    · rintro t' key val field rfl
      simp [Client.tid] at htid
    · rintro t' key val (rfl | rfl)
      · simp [Client.tid] at htid
      · simp [Client.tid] at htid
    · rintro t' key val (rfl | ⟨f, rfl⟩)
      · simp [Client.tid] at htid
      · simp [Client.tid] at htid

theorem Inv.entry_le (h : Inv K s φ) (hstop : s.stop = false) : s.entry ≤ s.nSubmitted + 1 := by
  have hm := h.order.monitor
  have hpc : s.monitor.pc ≠ .finished := by
    intro hpc
    have hleaving := (hm.leaving (.inr hpc)).1
    have hstopped := (hm.stopped hleaving).1
    simp [State.counters, hstop] at hstopped
  have hpace : s.paces 0 ≤ s.nSubmitted := by
    have hhanded := hm.handed hpc
    have h1 := hm.inited
    have h2 := hm.initedLoaded
    have h3 := hm.loaded
    simp only [State.counters] at *
    omega
  rw [State.entry]
  split
  · have hwaited : (s.pipes 0).pc.waited = true := by
      cases hpc' : (s.pipes 0).pc <;> simp_all [PipePc.entered, PipePc.waited]
    have := h.order.tid_le_pace (Nat.zero_le _) hwaited
    omega
  · have hbehind : (s.pipes 0).tid ≤ s.paces 0 + 1 := (h.order.pipes 0 (Nat.zero_le _)).behind
    omega

theorem Inv.exit_le_entry (h : Inv K s φ) : (s.pipes K.nPipes).tid ≤ s.entry := by
  have hle := h.order.tid_le (Nat.zero_le _) le_rfl
  rw [State.entry]
  split <;> omega

theorem fetchTid_clients {d : Nat} (hd : d ≠ c) (key val : Nat) :
    (fetchTid s c key val).clients d = s.clients d := Function.update_of_ne hd _ _

theorem fetchTid_self (s : State ρ μ) (c key val : Nat) :
    (fetchTid s c key val).clients c = .waiting (1 + s.nSubmitted) key val :=
  Function.update_self _ _ _

theorem fetchTid_passed (ht : t ≠ 1 + s.nSubmitted) (key val : Nat) :
    (fetchTid s c key val).passed t = s.passed t := Function.update_of_ne ht _ _

theorem ledger_fetchTid (key val : Nat) :
    (fetchTid s c key val).ledger K = { s.ledger K with
      issued := (s.ledger K).issued + 1
      holding := Function.update (s.ledger K).holding c (some ((s.ledger K).issued + 1)) } := by
  have hholding : (fun d => ((fetchTid s c key val).clients d).tid) =
      Function.update (fun d => (s.clients d).tid) c (some (s.nSubmitted + 1)) := by
    funext d
    by_cases hd : d = c
    · subst hd
      rw [fetchTid_self, Function.update_self, Client.tid, Nat.add_comm]
    · rw [fetchTid_clients hd, Function.update_of_ne hd]
  have hissued : (fetchTid s c key val).nSubmitted = s.nSubmitted + 1 := Nat.add_comm _ _
  simp only [State.ledger, hholding, hissued]
  rfl

theorem Inv.fetchTid_content (h : Inv K s φ) {key val : Nat} (hc : s.clients c = .fetch key val)
    (ht : s.nCommitted < t) (hle : t ≤ s.nCommitted + bufferSize) :
    Content K (fetchTid s c key val).clients ((fetchTid s c key val).passed t) t
      (s.stages (t % bufferSize)) (s.ctx t) (Function.update φ (s.nSubmitted + 1) (.held c) t) := by
  have hcontent := h.content ht hle
  by_cases heq : t = s.nSubmitted + 1
  · -- the new tid's slot is as the last tid there has left it
    subst heq
    rw [h.phase_bubble (Nat.lt_succ_self _)] at hcontent
    rw [Function.update_self]
    refine ⟨hcontent.1, ?_⟩
    rw [fetchTid_self]
    exact hcontent.2
  · rw [Function.update_of_ne heq, fetchTid_passed (by omega)]
    cases hphase : φ t with
    | held d =>
        have hd : d ≠ c := by
          rintro rfl
          have hd' := (h.tracks.held t d).1 hphase
          simp [State.ledger, hc, Client.tid] at hd'
        rw [hphase] at hcontent
        refine ⟨hcontent.1, ?_⟩
        rw [fetchTid_clients hd]
        exact hcontent.2
    | unissued | filled | staged | working w | finished =>
        rw [hphase] at hcontent
        exact hcontent

theorem Inv.fetchTid (h : Inv K s φ) {key val : Nat} (hc : s.clients c = .fetch key val) :
    ∃ φ', Tracks bufferSize ((fetchTid s c key val).ledger K) φ' ∧
    Slots K (fetchTid s c key val) φ' := by
  have hstop : s.stop = false := by
    by_contra hstop
    simp [h.closing.quiet (by simpa using hstop) c] at hc
  have hentry := h.entry_le hstop
  have hexit := h.exit_le_entry
  have hslots := h.slots
  have hself := fetchTid_self s c key val
  have hnone : (s.ledger K).holding c = none := by simp [State.ledger, hc, Client.tid]
  refine ⟨Function.update φ (s.nSubmitted + 1) (.held c), ?_, ?_⟩
  · rw [ledger_fetchTid]
    exact h.tracks.issue hnone hentry (hexit.trans hentry)
  · constructor
    · exact fun t ht hle => h.fetchTid_content hc ht hle
    · exact hslots.bubbles
    · intro d t hd hroom
      by_cases hdc : d = c
      · subst hdc
        rw [hself] at hroom
        simp [Client.hasRoom] at hroom
      · rw [fetchTid_clients hdc] at hd hroom
        exact hslots.room d t hd hroom
    · intro d t k v field hd
      by_cases hdc : d = c
      · subst hdc
        rw [hself] at hd
        simp at hd
      · rw [fetchTid_clients hdc] at hd
        exact hslots.writing d t k v field hd
    · intro d t k v hd
      by_cases hdc : d = c
      · subst hdc
        rw [hself] at hd
        simp at hd
      · rw [fetchTid_clients hdc] at hd
        exact hslots.bubbling d t k v hd
    · intro d t k v hd
      by_cases hdc : d = c
      · subst hdc
        rw [hself] at hd
        obtain ⟨rfl, rfl, rfl⟩ : 1 + s.nSubmitted = t ∧ key = k ∧ val = v := by simpa using hd
        exact Function.update_self _ _ _
      · rw [fetchTid_clients hdc] at hd
        have htid : (s.clients d).tid = some t := by
          rcases hd with hd | ⟨f, hd⟩ <;> simp [hd, Client.tid]
        have hle := (h.held htid).2.2
        rw [fetchTid_passed (by omega)]
        exact hslots.args d t k v hd
    · intro q hq
      exact (hslots.pipes q hq).congr (Nat.le_add_left _ _) (fun _ => rfl) (fun _ => rfl)
    · exact hslots.workers

theorem Inv.fills (h : Inv K s φ) (ht : (s.clients c).tid = some t)
    (hroom : t ≤ s.nCommitted + bufferSize) :
    (s.clients c).Fills (s.ctx t) := by
  obtain ⟨hheld, hC, -⟩ := h.held ht
  have hcontent := h.content hC hroom
  rw [hheld] at hcontent
  exact hcontent.2

theorem clientWrites_setCtx (ctx : Context ρ) :
    ClientWrites s ((s.setCtx (t % bufferSize) ctx).setClient c client) c client t where
  clients := rfl
  ctxs _ hi := Function.update_of_ne hi _ _
  stages _ _ := rfl
  nSubmitted := rfl
  nCommitted := rfl
  passed := rfl
  pipes := rfl
  workers := rfl
  tids := rfl
  monitor := rfl

theorem clientWrites_setStage (stage : Word) :
    ClientWrites s ((s.setStage (t % bufferSize) stage).setClient c client) c client t where
  clients := rfl
  ctxs _ _ := rfl
  stages _ hi := Function.update_of_ne hi _ _
  nSubmitted := rfl
  nCommitted := rfl
  passed := rfl
  pipes := rfl
  workers := rfl
  tids := rfl
  monitor := rfl

theorem Inv.writeField (h : Inv K s φ) {key val : Nat} {field : Field}
    (hc : s.clients c = .writing t key val field) :
    ∃ φ', Tracks bufferSize ((writeField s c t key val field).ledger K) φ' ∧
      Slots K (writeField s c t key val field) φ' := by
  have ht : (s.clients c).tid = some t := by simp [hc, Client.tid]
  have hmod : t % bufferSize ≠ 0 := h.slots.writing c t key val field hc
  have hroom := h.slots.room c t ht (by rw [hc]; rfl)
  have hargs : s.passed t = some (key, val) := h.slots.args c t key val (.inr ⟨field, hc⟩)
  have hwritten : Written t key val (s.ctx t) field := by
    have hfills := h.fills ht hroom.le
    rwa [hc] at hfills
  -- the next word is written in the slot of the tid
  have hnext : ∀ (ctx : Context ρ) (field' : Field), Written t key val ctx field' →
      Tracks bufferSize (((s.setCtx (t % bufferSize) ctx).setClient c
        (.writing t key val field')).ledger K) φ ∧
        Slots K ((s.setCtx (t % bufferSize) ctx).setClient c (.writing t key val field')) φ := by
    intro ctx field' hw
    have hctx : ((s.setCtx (t % bufferSize) ctx).setClient c (.writing t key val field')).ctx t =
        ctx :=
      Function.update_self _ _ _
    refine h.clientStay ht hroom (clientWrites_setCtx ctx) rfl rfl ?_
      (fun h0 => absurd h0 hmod) ?_ ?_ ?_
    · rw [hctx]
      exact hw
    · intro t' k v f heq
      obtain ⟨rfl, -⟩ : t = t' ∧ _ := by simpa using heq
      exact hmod
    · intro t' k v heq
      simp at heq
    · intro t' k v heq
      obtain ⟨rfl, rfl, rfl⟩ : t = t' ∧ key = k ∧ val = v := by simpa using heq
      exact hargs
  cases field with
  | op => exact ⟨φ, hnext _ .flags rfl⟩
  | flags => exact ⟨φ, hnext _ .sno ⟨hwritten, rfl, rfl, rfl, rfl⟩⟩
  | sno => exact ⟨φ, hnext _ .key ⟨hwritten.1, { hwritten.2 with }, rfl⟩⟩
  | key => exact ⟨φ, hnext _ .val ⟨hwritten.1, { hwritten.2.1 with }, hwritten.2.2, rfl⟩⟩
  | val =>
      obtain ⟨hop, hflags, hsno, hkey⟩ := hwritten
      exact ⟨φ, hnext _ .stage ⟨hop, { hflags with }, hsno, hkey, rfl⟩⟩
  | stage =>
      refine h.clientFill ht hroom (clientWrites_setStage 0) rfl (Function.update_self _ _ _) rfl ?_
      intro _
      exact ⟨key, val, hargs, hwritten⟩

theorem Inv.clientStep (h : Inv K s φ) (c : Nat) :
    ∃ φ', Tracks bufferSize ((clientStep c s).ledger K) φ' ∧ Slots K (clientStep c s) φ' := by
  cases hc : s.clients c <;> simp only [Concow.clientStep, hc]
  case idle => exact ⟨φ, h.tracks, h.slots⟩
  case fetch key val => exact h.fetchTid hc
  case waiting tid key val =>
      have ht : (s.clients c).tid = some tid := by simp [hc, Client.tid]
      have hargs : s.passed tid = some (key, val) := h.slots.args c tid key val (.inl hc)
      split
      · exact ⟨φ, h.tracks, h.slots⟩
      · rename_i hfull
        have hroom : tid < s.nCommitted + bufferSize := not_le.mp hfull
        have hfills : (s.ctx tid).op = Operand.done := by
          have hfills := h.fills ht hroom.le
          rwa [hc] at hfills
        have hw : ∀ client, ClientWrites s (s.setClient c client) c client tid := fun client =>
          ⟨rfl, fun _ _ => rfl, fun _ _ => rfl, rfl, rfl, rfl, rfl, rfl, rfl, rfl⟩
        split
        · rename_i hmod
          refine ⟨φ, h.clientStay ht hroom (hw _) rfl rfl hfills
            (fun h0 => absurd h0 hmod) ?_ ?_ ?_⟩
          · intro t' k v f heq
            obtain ⟨rfl, -⟩ : tid = t' ∧ _ := by simpa using heq
            exact hmod
          · intro t' k v heq
            simp at heq
          · intro t' k v heq
            obtain ⟨rfl, rfl, rfl⟩ : tid = t' ∧ key = k ∧ val = v := by simpa using heq
            exact hargs
        · rename_i hmod
          refine ⟨φ, h.clientStay ht hroom (hw _) rfl rfl hfills (fun _ => hfills) ?_ ?_ ?_⟩
          · intro t' k v f heq
            simp at heq
          · intro t' k v heq
            obtain ⟨rfl, -⟩ : tid = t' ∧ _ := by simpa using heq
            exact not_not.mp hmod
          · intro t' k v heq
            simp at heq
  case bubbleSno tid key val =>
      have ht : (s.clients c).tid = some tid := by simp [hc, Client.tid]
      have hroom := h.slots.room c tid ht (by rw [hc]; rfl)
      have hmod : tid % bufferSize = 0 := h.slots.bubbling c tid key val (.inl hc)
      have hctx : ∀ client,
        ((s.setCtx 0 { s.ctxs 0 with sno := tid % 2 ^ 32 }).setClient c client).ctx tid =
          { s.ctxs 0 with sno := tid % 2 ^ 32 } := by
        intro client
        simp [State.ctx, State.setClient, State.setCtx, hmod]
      have hw : ClientWrites s ((s.setCtx 0 { s.ctxs 0 with sno := tid % 2 ^ 32 }).setClient c
          (.bubbleStage tid key val)) c (.bubbleStage tid key val) tid := by
        have hset : ClientWrites s _ c (.bubbleStage tid key val) tid :=
          clientWrites_setCtx { s.ctxs 0 with sno := tid % 2 ^ 32 }
        rwa [hmod] at hset
      refine ⟨φ, h.clientStay ht hroom hw rfl rfl ?_ ?_ ?_ ?_ ?_⟩
      · rw [hctx]
        exact h.slots.bubbles
      · intro _
        rw [hctx]
        exact h.slots.bubbles
      · intro t' k v f heq
        simp at heq
      · intro t' k v heq
        obtain ⟨rfl, -⟩ : tid = t' ∧ _ := by simpa using heq
        exact hmod
      · intro t' k v heq
        simp at heq
  case bubbleStage tid key val =>
      have ht : (s.clients c).tid = some tid := by simp [hc, Client.tid]
      have hroom := h.slots.room c tid ht (by rw [hc]; rfl)
      have hmod : tid % bufferSize = 0 := h.slots.bubbling c tid key val (.inr hc)
      have hw : ClientWrites s ((s.setStage 0 0).setClient c (.fetch key val)) c
          (.fetch key val) tid := by
        have hset : ClientWrites s _ c (.fetch key val) tid := clientWrites_setStage 0
        rwa [hmod] at hset
      refine h.clientFill ht hroom hw rfl ?_ rfl (fun hne => absurd hmod hne)
      rw [hmod]
      exact Function.update_self (0 : Nat) (0 : Word) s.stages
  case writing tid key val field => exact h.writeField hc

end Clients

section Monitor

variable {m : Monitor}

theorem Inv.monitorMove (h : Inv K s φ) (hinited : m.inited = s.monitor.inited)
    (hended : m.ended = s.monitor.ended) :
    Tracks bufferSize ((s.setMonitor m).ledger K) φ ∧ Slots K (s.setMonitor m) φ := by
  have hledger : (s.setMonitor m).ledger K = s.ledger K := by
    simp only [State.ledger, State.setMonitor, hinited, hended]
    rfl
  refine ⟨by rw [hledger]; exact h.tracks, ?_⟩
  have hslots := h.slots
  exact { hslots with }

theorem Inv.scan_filled (h : Inv K s φ) (hlt : s.monitor.inited < s.nSubmitted)
    (hstage : s.stages ((s.monitor.inited + 1) % bufferSize) = 0) :
    (φ (s.monitor.inited + 1)).Filled := by
  have hC : s.nCommitted ≤ s.monitor.inited :=
    h.order.committed_le_ended.trans (h.order.monitor.endedInited.trans h.order.monitor.inited)
  have hwindow := h.tracks.window _ (h.tracks.inited _ (le_refl s.monitor.inited))
  have hcontent := h.content (t := s.monitor.inited + 1) (by omega) hwindow
  have htop : s.stages ((s.monitor.inited + 1) % bufferSize) ≠ ⊤ := by
    rw [hstage]
    exact WithTop.zero_ne_top
  cases hφ : φ (s.monitor.inited + 1) with
  | unissued =>
      have hissued : s.nSubmitted < s.monitor.inited + 1 := (h.tracks.unissued _).1 hφ
      omega
  | held c =>
      rw [hφ] at hcontent
      exact absurd hcontent.1 htop
  | filled | staged | working w | finished => trivial

theorem Inv.scan_finished (h : Inv K s φ) (hlt : s.monitor.ended < s.monitor.nInited)
    (hstage : s.stages ((s.monitor.ended + 1) % bufferSize) = ⊤) :
    φ (s.monitor.ended + 1) = .finished := by
  have hC := h.order.committed_le_ended
  have hinited : s.monitor.nInited ≤ s.monitor.inited := h.order.monitor.inited
  have hfilled := h.tracks.inited (s.monitor.ended + 1) (show _ ≤ s.monitor.inited by omega)
  have hwindow : s.monitor.ended + 1 < s.nCommitted + bufferSize := h.tracks.window _ hfilled
  have hcontent := h.content (t := s.monitor.ended + 1) (by omega) hwindow.le
  cases hφ : φ (s.monitor.ended + 1) with
  | finished => rfl
  | unissued | held c =>
      rw [hφ] at hfilled
      exact hfilled.elim
  | filled | staged =>
      rw [hφ] at hcontent
      exact absurd (hcontent.1.symm.trans hstage) WithTop.zero_ne_top
  | working w =>
      rw [hφ] at hcontent
      exact absurd hstage hcontent.1

theorem Slots.commit (h : Inv K s φ) {n : Nat} (hn : s.nCommitted ≤ n) (hn' : n ≤ s.monitor.ended)
    (hs : s'.nCommitted = n) (hstages : s'.stages = s.stages) (hctxs : s'.ctxs = s.ctxs)
    (hclients : s'.clients = s.clients) (hpassed : s'.passed = s.passed) (t : Nat)
    (ht : s'.nCommitted < t) (hle : t ≤ s'.nCommitted + bufferSize) :
    Content K s'.clients (s'.passed t) t (s'.stages (t % bufferSize)) (s'.ctx t) (φ t) := by
  rw [hs] at ht hle
  have hctx : ∀ t, s'.ctx t = s.ctx t := fun t => by rw [State.ctx, hctxs]; rfl
  rw [hclients, hpassed, hstages, hctx]
  by_cases hold : t ≤ s.nCommitted + bufferSize
  · exact h.content (hn.trans_lt ht) hold
  · -- the last tid of the slot has ended
    obtain ⟨t₀, rfl⟩ : ∃ t₀, t = t₀ + bufferSize := ⟨t - bufferSize, by omega⟩
    have hle₀ : t₀ ≤ s.monitor.ended := by omega
    have hfinished := h.tracks.ended t₀ hle₀
    have hcontent :=
      h.content (t := t₀) (by omega) (h.tracks.window _ (by rw [hfinished]; trivial)).le
    have hslot : (t₀ + bufferSize) % bufferSize = t₀ % bufferSize := Nat.add_mod_right _ _
    rw [hfinished] at hcontent
    rw [State.ctx, hslot]
    have hnot : ¬ (φ (t₀ + bufferSize)).Filled := fun hfilled => hold (h.tracks.window _ hfilled).le
    cases hφ : φ (t₀ + bufferSize) with
    | unissued => exact hcontent
    | held c =>
        refine ⟨hcontent.1, ?_⟩
        have htid : (s.clients c).tid = some (t₀ + bufferSize) := (h.tracks.held _ c).1 hφ
        have hroom : (s.clients c).hasRoom = false := by
          by_contra hroom
          have := h.slots.room c _ htid (by simpa using hroom)
          omega
        cases hc : s.clients c <;> simp only [hc, Client.hasRoom, Client.tid] at hroom htid
        case waiting => exact hcontent.2
        all_goals simp at hroom htid
    | filled | staged | working w | finished =>
        rw [hφ] at hnot
        exact absurd trivial hnot

theorem Inv.monitorStep (h : Inv K s φ) :
    Tracks bufferSize ((monitorStep s).ledger K) φ ∧ Slots K (monitorStep s) φ := by
  have hm : s.monitor.Ordered s.nCommitted s.nSubmitted (s.paces 0) s.stop := h.order.monitor
  have hslots := h.slots
  cases hpc : s.monitor.pc <;> simp only [Concow.monitorStep, hpc]
  case test =>
      split
      · exact h.monitorMove (by simp [Monitor.inited, hpc]) (by simp [Monitor.ended, hpc])
      · exact h.monitorMove (by simp [Monitor.inited, hpc]) (by simp [Monitor.ended, hpc])
  case loadStop =>
      exact h.monitorMove (by simp [Monitor.inited, hpc]) (by simp [Monitor.ended, hpc])
  case loadSubmitted =>
      exact h.monitorMove (by simp [Monitor.inited, hpc]) (by simp [Monitor.ended, hpc])
  case scanInited =>
      have hinited : s.monitor.inited = s.monitor.next := by simp [Monitor.inited, hpc]
      split
      · rename_i hnext
        have hfilled := h.scan_filled (by rw [hinited]; exact hnext.1.trans_le hm.loaded)
          (by rw [hinited]; exact hnext.2)
        have hended : s.monitor.ended = s.monitor.nCommitted := by simp [Monitor.ended, hpc]
        have hledger : (s.setMonitor { s.monitor with pc := .scanInited, next := s.monitor.next + 1 }).ledger K =
            { s.ledger K with inited := (s.ledger K).inited + 1 } := by
          simp only [State.ledger, State.setMonitor, hinited, hended]
          rfl
        refine ⟨by rw [hledger]; exact h.tracks.init hfilled, { hslots with }⟩
      · exact h.monitorMove (by simp [Monitor.inited, hpc]) (by simp [Monitor.ended, hpc])
  case advance =>
      have hinited := hm.inited
      simp only [Monitor.inited, hpc] at hinited
      split
      · have hmove := h.monitorMove
          (m := { s.monitor with pc := .scanDone, nInited := s.monitor.next, next := s.monitor.nCommitted })
          (by simp [Monitor.inited, hpc]) (by simp [Monitor.ended, hpc])
        exact ⟨hmove.1, { hmove.2 with }⟩
      · refine h.monitorMove ?_ (by simp [Monitor.ended, hpc])
        simp only [Monitor.inited, hpc]
        omega
  case scanDone =>
      have hended : s.monitor.ended = s.monitor.next := by simp [Monitor.ended, hpc]
      split
      · rename_i hnext
        have hfinished :=
          h.scan_finished (by rw [hended]; exact hnext.1) (by rw [hended]; exact hnext.2)
        have hinited : s.monitor.inited = s.monitor.nInited := by simp [Monitor.inited, hpc]
        have hledger : (s.setMonitor { s.monitor with pc := .checkpoint, next := s.monitor.next + 1 }).ledger K =
            { s.ledger K with ended := (s.ledger K).ended + 1 } := by
          simp only [State.ledger, State.setMonitor, hinited, hended]
          rfl
        refine ⟨by rw [hledger]; exact h.tracks.end hfinished, { hslots with }⟩
      · exact h.monitorMove (by simp [Monitor.inited, hpc]) (by simp [Monitor.ended, hpc])
  case checkpoint =>
      have hmove := h.monitorMove (m := { s.monitor with pc := .scanDone })
        (by simp [Monitor.inited, hpc]) (by simp [Monitor.ended, hpc])
      exact ⟨hmove.1, { hmove.2 with }⟩
  case publishRoot =>
      have hended := hm.ended
      simp only [Monitor.ended, hpc] at hended
      split
      · have hmove := h.monitorMove
          (m := { s.monitor with pc := .publishCommitted, nCommitted := s.monitor.next })
          (by simp [Monitor.inited, hpc]) (by simp [Monitor.ended, hpc])
        exact ⟨hmove.1, { hmove.2 with }⟩
      · refine h.monitorMove (by simp [Monitor.inited, hpc]) ?_
        simp only [Monitor.ended, hpc]
        omega
  case publishCommitted =>
      have hended : s.monitor.ended = s.monitor.nCommitted := by simp [Monitor.ended, hpc]
      have hinited : s.monitor.inited = s.monitor.nInited := by simp [Monitor.inited, hpc]
      have hC := hm.committed
      set s' : State ρ μ := { s.setMonitor { s.monitor with pc := .test } with
        nCommitted := s.monitor.nCommitted } with hs'
      have hledger : s'.ledger K = { s.ledger K with committed := s.monitor.nCommitted } := by
        simp only [State.ledger, hended, hinited]
        rfl
      refine ⟨by rw [hledger]; exact h.tracks.commit hC, { hslots with content := ?_, room := ?_ }⟩
      · exact Slots.commit h hC hended.ge rfl rfl rfl rfl rfl
      · intro c t hc hroom
        exact (hslots.room c t hc hroom).trans_le (Nat.add_le_add_right hC _)
  case bubbles =>
      have hmove := h.monitorMove (m := { s.monitor with pc := .finished })
        (by simp [Monitor.inited, hpc]) (by simp [Monitor.ended, hpc])
      exact ⟨hmove.1, { hmove.2 with }⟩
  case finished => exact ⟨h.tracks, h.slots⟩

end Monitor

end Contrees.Conctrl.Concow
