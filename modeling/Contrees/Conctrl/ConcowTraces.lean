import Contrees.Conctrl.ConcowRuns

namespace Contrees.Conctrl.Concow

open Library.Runs Library.TaskLedger

section Traces

variable {ρ : Type} {nPipes pid : Nat} {a b : Call ρ} {l : List (Call ρ)} {ctx : Context ρ}

/-- The stage of the next call: that of a retry is the same, and what waits for
a child is left to the workers. -/
def Call.next (nPipes : Nat) (a : Call ρ) : Nat :=
  if a.after.retry then a.stage
  else if a.after.waitChild = true ∧ a.stage < nPipes then nPipes
  else a.stage + 1

def Call.GoesOn (a : Call ρ) : Prop := a.after.retry = true ∨ a.after.op ≠ Operand.done

/-- What a call leaves in its slot, where only `cno` is loaded again. -/
def Call.Leaves (a : Call ρ) (ctx : Context ρ) : Prop :=
  ∃ cno, ctx = { a.before.after a.after with cno := cno }

/-- A call goes on from what the one before it has left. Each pipe is a stage,
and all stages after them are with one worker. -/
structure Follows (nPipes : Nat) (a b : Call ρ) : Prop where
  goesOn : a.GoesOn
  stage : b.stage = a.next nPipes
  before : a.Leaves b.before
  pipe : b.stage < nPipes → b.thread = .pipe b.stage
  worker : nPipes ≤ b.stage → ∃ wid, b.thread = .worker wid ∧
    (nPipes ≤ a.stage → a.thread = .worker wid)

inductive Trace (nPipes : Nat) : List (Call ρ) → Call ρ → Prop
  | first (a : Call ρ) (hstage : a.stage = 0) (hthread : a.thread = .pipe 0)
      (hop : a.before.op = Operand.init) :
      Trace nPipes [a] a
  | next (l : List (Call ρ)) (a b : Call ρ) (hl : Trace nPipes l a) (h : Follows nPipes a b) :
      Trace nPipes (l ++ [b]) b

def Call.Ends (a : Call ρ) : Prop := a.after.retry = false ∧ a.after.op = Operand.done

def Call.Ready (pid : Nat) (a : Call ρ) : Prop :=
  a.after.retry = false ∧ a.stage < pid ∧
    (a.after.op ≠ Operand.done → a.after.waitChild = false → a.stage + 1 = pid)

def Call.Due (nPipes stage : Nat) (a : Call ρ) : Prop := a.GoesOn ∧ a.next nPipes = stage

theorem Call.le_next : a.stage ≤ a.next nPipes := by
  unfold Call.next
  split
  · exact le_rfl
  · split
    · rename_i hleft
      exact hleft.2.le
    · exact Nat.le_succ _

theorem Call.retry_of_next (h : a.next nPipes = a.stage) : a.after.retry = true := by
  unfold Call.next at h
  split at h
  · assumption
  · split at h <;> omega

theorem Trace.last (h : Trace nPipes l a) : ∃ l', l = l' ++ [a] := by
  cases h with
  | first => exact ⟨[], rfl⟩
  | next l _ _ _ _ => exact ⟨l, rfl⟩

/-- How two calls of an update, one before the other, are related: no handler
runs twice in a stage without asking for it, and none in two threads. -/
structure InOrder (nPipes : Nat) (a b : Call ρ) : Prop where
  stage : a.stage ≤ b.stage
  once : a.stage = b.stage → a.after.retry = true ∧ a.thread = b.thread
  worker : nPipes ≤ a.stage → a.thread = b.thread

theorem Trace.thread (h : Trace nPipes l a) (hpos : 1 ≤ nPipes) :
    (a.stage < nPipes → a.thread = .pipe a.stage) ∧
    (nPipes ≤ a.stage → ∃ wid, a.thread = .worker wid) := by
  cases h with
  | first _ hstage hthread _ => exact ⟨fun _ => by rw [hthread, hstage], fun hle => by omega⟩
  | next _ _ _ _ h =>
      refine ⟨h.pipe, fun hle => ?_⟩
      obtain ⟨wid, hthread, -⟩ := h.worker hle
      exact ⟨wid, hthread⟩

theorem Trace.inOrder (h : Trace nPipes l a) (hpos : 1 ≤ nPipes) : l.Pairwise (InOrder nPipes) := by
  induction h with
  | first => exact List.pairwise_singleton _ _
  | next l a b hl h ih =>
      -- the last call and the new one
      have hlast : InOrder nPipes a b := by
        refine ⟨h.stage ▸ Call.le_next, fun heq => ?_, fun hle => ?_⟩
        · have hretry := Call.retry_of_next (h.stage.symm.trans heq.symm)
          refine ⟨hretry, ?_⟩
          by_cases hlt : a.stage < nPipes
          · rw [(hl.thread hpos).1 hlt, h.pipe (heq ▸ hlt), heq]
          · obtain ⟨wid, hthread, hsame⟩ := h.worker (heq ▸ not_lt.mp hlt)
            rw [hthread, hsame (not_lt.mp hlt)]
        · obtain ⟨wid, hthread, hsame⟩ := h.worker (hle.trans (h.stage ▸ Call.le_next))
          rw [hthread, hsame hle]
      rw [List.pairwise_append]
      refine ⟨ih, List.pairwise_singleton _ _, fun x hx y hy => ?_⟩
      rw [List.mem_singleton.mp hy]
      obtain ⟨l', rfl⟩ := hl.last
      rcases List.mem_append.mp hx with hx | hx
      · have hxa : InOrder nPipes x a :=
          (List.pairwise_append.mp ih).2.2 x hx a (List.mem_singleton_self a)
        have hstage : x.stage ≤ b.stage := hxa.stage.trans hlast.stage
        refine ⟨hstage, fun heq => ?_, fun hle => ?_⟩
        · have hxeq : x.stage = a.stage := le_antisymm hxa.stage (heq ▸ hlast.stage)
          exact ⟨(hxa.once hxeq).1, (hxa.once hxeq).2.trans (hlast.once (hxeq.symm.trans heq)).2⟩
        · exact (hxa.worker hle).trans (hlast.worker (hle.trans hxa.stage))
      · rw [List.mem_singleton.mp hx]
        exact hlast

end Traces

section Histories

variable {ρ μ : Type}

def State.callsOf (s : State ρ μ) (tid : Nat) : List (Call ρ) :=
  s.calls.filter (fun c => c.tid = tid)

def State.Left (K : Config ρ μ) (s : State ρ μ) (tid : Nat) (a : Call ρ) : Prop :=
  Trace K.nPipes (s.callsOf tid) a ∧ a.Leaves (s.ctx tid)

def Pipe.Has (nPipes pid : Nat) (p : Pipe) (a : Call ρ) : Prop :=
  match p.pc with
  | .retry => (a.after.retry = true → a.stage = pid) ∧ (a.after.retry = false → a.Ready (pid + 1))
  | .version | .handle => a.Due nPipes pid
  | .advance => a.Ready (pid + 1)
  | .pop | .assign _ => a.Ready pid ∧ a.after.op ≠ Operand.done
  | .markDone => a.Ready pid ∧ a.after.op = Operand.done
  | _ => a.Ready pid

structure Worker.Has (nPipes wid : Nat) (w : Worker) (a : Call ρ) : Prop where
  own : nPipes ≤ a.stage → a.thread = .worker wid
  stage : w.pc ≠ .waitTid → 1 ≤ w.stage
  call : match w.pc with
    | .waitTid => a.after.retry = false ∧ a.after.op ≠ Operand.done ∧ a.next nPipes = nPipes
    | .test => a.after.retry = false ∧
        (a.after.op ≠ Operand.done → a.next nPipes = nPipes + w.stage - 1)
    | .version | .waitStage | .reload | .handle => a.Due nPipes (nPipes + w.stage - 1)
    | .retry => a.stage = nPipes + w.stage - 1
    | .storeStage => a.after.retry = false ∧ a.stage = nPipes + w.stage - 1
    | .finish => a.Ends
    | .push | .finished => True

def State.upper (s : State ρ μ) : Nat → Nat
  | 0 => s.entry
  | pid + 1 => (s.pipes pid).tid

structure At (s : State ρ μ) (pid tid : Nat) : Prop where
  issued : tid ≤ s.nSubmitted
  next : (s.pipes pid).tid ≤ tid
  handed : tid < s.upper pid

def Stands (K : Config ρ μ) (s : State ρ μ) (pid tid : Nat) (a : Call ρ) : Prop :=
  if tid = (s.pipes pid).tid then (s.pipes pid).Has K.nPipes pid a else a.Ready pid

structure Past (K : Config ρ μ) (s : State ρ μ) (tid : Nat) : Prop where
  issued : tid ≤ s.nSubmitted
  exit : tid < (s.pipes K.nPipes).tid
  idle : ∀ wid, (s.pool K).task wid ≠ some tid

structure Called (K : Config ρ μ) (s : State ρ μ) (tid : Nat) : Prop where
  fresh : s.entry ≤ tid ∨ s.nSubmitted < tid → s.callsOf tid = []
  pipes : ∀ pid ≤ K.nPipes, At s pid tid → ∃ a, s.Left K tid a ∧ Stands K s pid tid a
  workers : ∀ wid, (s.pool K).task wid = some tid → ∃ a, s.Left K tid a ∧
    (s.workers wid).Has K.nPipes wid a
  past : Past K s tid → ∃ a, Trace K.nPipes (s.callsOf tid) a ∧ a.Ends ∧
    (s.nCommitted ≤ tid → a.Leaves (s.ctx tid))

/-- The history of calls agrees with where the tids are. -/
structure History (K : Config ρ μ) (s : State ρ μ) : Prop where
  updates : ∀ tid, tid % bufferSize ≠ 0 → Called K s tid
  bubbles : ∀ tid, tid % bufferSize = 0 → s.callsOf tid = []

variable {K : Config ρ μ} {s s' : State ρ μ} {φ : Nat → Phase Nat Nat} {t : Nat}

theorem Call.Leaves.withCno {a : Call ρ} {ctx : Context ρ} (h : a.Leaves ctx) (n : Nat) :
    a.Leaves { ctx with cno := n } := by
  obtain ⟨cno, rfl⟩ := h
  exact ⟨n, rfl⟩

theorem ring_ne {base t₀ : Nat} (ht : base ≤ t) (hlt : t < base + bufferSize) (ht₀ : base ≤ t₀)
    (hlt₀ : t₀ < base + bufferSize) (hne : t ≠ t₀) : t % bufferSize ≠ t₀ % bufferSize := by
  intro heq
  have hsub := Nat.sub_mod_eq_zero_of_mod_eq heq
  have hsub' := Nat.sub_mod_eq_zero_of_mod_eq heq.symm
  rw [Nat.mod_eq_of_lt (by omega)] at hsub hsub'
  omega

theorem Inv.upper_le (h : Inv K s φ) {pid : Nat} (hpid : pid ≤ K.nPipes) :
    s.upper pid ≤ s.entry := by
  cases pid with
  | zero => exact le_rfl
  | succ q =>
      have hle := h.order.tid_le (Nat.zero_le q) (Nat.le_of_succ_le hpid)
      change (s.pipes q).tid ≤ s.entry
      rw [State.entry]
      split <;> omega

theorem upper_of_pipes (hpipes : s'.pipes = s.pipes) (pid : Nat) : s'.upper pid = s.upper pid := by
  cases pid with
  | zero => rw [State.upper, State.upper, State.entry, State.entry, hpipes]
  | succ q => rw [State.upper, State.upper, hpipes]

theorem Inv.entered_lt (h : Inv K s φ) (hlt : t < s.entry) (hle : t ≤ s.nSubmitted) :
    t < s.nCommitted + bufferSize := by
  have hentered : (φ t).Entered := (h.tracks.entered t hle).2 hlt
  exact h.tracks.window t hentered.filled

structure Kept (s : State ρ μ) (tid : Nat) : Prop where
  committed : s.nCommitted ≤ tid
  issued : tid ≤ s.nSubmitted
  entered : tid < s.entry

theorem Called.frame (h : Called K s t) (hinv : Inv K s φ) (hcalls : s'.callsOf t = s.callsOf t)
    (hctx : Kept s t → ∀ a : Call ρ, a.Leaves (s.ctx t) → a.Leaves (s'.ctx t))
    (hC : s.nCommitted ≤ s'.nCommitted)
    (hfresh : s'.entry ≤ t ∨ s'.nSubmitted < t → s.entry ≤ t ∨ s.nSubmitted < t)
    (hpipes : ∀ pid ≤ K.nPipes, At s' pid t →
      At s pid t ∧ ∀ a, s.Left K t a → Stands K s pid t a → Stands K s' pid t a)
    (hworkers : ∀ wid, (s'.pool K).task wid = some t → (s.pool K).task wid = some t ∧
      ∀ a, s.Left K t a → (s.workers wid).Has K.nPipes wid a → (s'.workers wid).Has K.nPipes wid a)
    (hpast : Past K s' t → Past K s t) : Called K s' t where
  fresh hnew := by
    rw [hcalls]
    exact h.fresh (hfresh hnew)
  pipes pid hpid hat := by
    obtain ⟨hat, hstands⟩ := hpipes pid hpid hat
    obtain ⟨a, hleft, ha⟩ := h.pipes pid hpid hat
    have hkept : Kept s t := ⟨((hinv.committed_lt_tid hpid).trans_le hat.next).le, hat.issued,
      hat.handed.trans_le (hinv.upper_le hpid)⟩
    exact ⟨a, ⟨hcalls ▸ hleft.1, hctx hkept a hleft.2⟩, hstands a hleft ha⟩
  workers wid htask := by
    obtain ⟨htask, hhas⟩ := hworkers wid htask
    obtain ⟨a, hleft, ha⟩ := h.workers wid htask
    obtain ⟨hφ, hlt, hexit, -⟩ := hinv.task_window htask
    have hissued : t ≤ s.nSubmitted := by
      by_contra hnew
      rw [hinv.phase_bubble (not_le.mp hnew)] at hφ
      simp at hφ
    have hkept : Kept s t := ⟨hlt.le, hissued, hexit.trans_le hinv.exit_le_entry⟩
    exact ⟨a, ⟨hcalls ▸ hleft.1, hctx hkept a hleft.2⟩, hhas a hleft ha⟩
  past hp := by
    have hp' := hpast hp
    obtain ⟨a, htrace, hends, hleaves⟩ := h.past hp'
    refine ⟨a, hcalls ▸ htrace, hends, fun hle => ?_⟩
    exact hctx ⟨hC.trans hle, hp'.issued, hp'.exit.trans_le hinv.exit_le_entry⟩ a
      (hleaves (hC.trans hle))

theorem History.quiet (h : History K s) (hinv : Inv K s φ) (hcalls : s'.calls = s.calls)
    (hpipes : s'.pipes = s.pipes) (hworkers : s'.workers = s.workers)
    (htask : ∀ wid, (s'.pool K).task wid = (s.pool K).task wid)
    (hctx : ∀ t, Kept s t → t % bufferSize ≠ 0 → s'.ctx t = s.ctx t)
    (hC : s.nCommitted ≤ s'.nCommitted)
    (hsubmitted : s.nSubmitted ≤ s'.nSubmitted)
    (hissued : ∀ t < s.entry, t ≤ s'.nSubmitted → t ≤ s.nSubmitted) : History K s' where
  updates t hmod := by
    have hcallsOf : s'.callsOf t = s.callsOf t := by rw [State.callsOf, State.callsOf, hcalls]
    have hentry : s'.entry = s.entry := by rw [State.entry, State.entry, hpipes]
    refine (h.updates t hmod).frame hinv hcallsOf (fun hkept a ha => ?_) hC ?_ ?_ ?_ ?_
    · rw [hctx t hkept hmod]
      exact ha
    · rintro (hle | hlt)
      · exact .inl (hentry ▸ hle)
      · exact .inr (hsubmitted.trans_lt hlt)
    · rintro pid hpid ⟨hle, hnext, hhanded⟩
      rw [hpipes] at hnext
      rw [upper_of_pipes hpipes] at hhanded
      refine ⟨⟨hissued t (hhanded.trans_le (hinv.upper_le hpid)) hle, hnext, hhanded⟩,
        fun a _ ha => ?_⟩
      rw [Stands, hpipes]
      exact ha
    · intro wid hwid
      rw [htask] at hwid
      refine ⟨hwid, fun a _ ha => ?_⟩
      rw [hworkers]
      exact ha
    · rintro ⟨hle, hexit, hidle⟩
      rw [hpipes] at hexit
      exact ⟨hissued t (hexit.trans_le hinv.exit_le_entry) hle, hexit,
        fun wid => htask wid ▸ hidle wid⟩
  bubbles t hmod := by
    rw [State.callsOf, hcalls]
    exact h.bubbles t hmod

theorem Inv.held_slot_ne (h : Inv K s φ) {c t₀ : Nat} (ht : (s.clients c).tid = some t₀)
    (hroom : (s.clients c).hasRoom = true) (hkept : Kept s t) :
    t % bufferSize ≠ t₀ % bufferSize := by
  obtain ⟨hφ, hC, hle⟩ := h.held ht
  have hnew : s.entry ≤ t₀ := by
    by_contra hlt
    have hentered : (φ t₀).Entered := (h.tracks.entered t₀ hle).2 (not_le.mp hlt)
    rw [hφ] at hentered
    exact hentered
  refine ring_ne hkept.committed (h.entered_lt hkept.entered hkept.issued) hC.le
    (h.slots.room c t₀ ht hroom) ?_
  exact (hkept.entered.trans_le hnew).ne

theorem History.clientStep (h : History K s) (hinv : Inv K s φ) (c : Nat) :
    History K (clientStep c s) := by
  -- what the client writes is in a slot that nobody reads
  have hquiet : ∀ s' : State ρ μ, s'.calls = s.calls → s'.pipes = s.pipes → s'.workers = s.workers →
      s'.tids = s.tids → s'.nSubmitted = s.nSubmitted → s'.nCommitted = s.nCommitted →
      (∀ t, Kept s t → t % bufferSize ≠ 0 → s'.ctx t = s.ctx t) → History K s' := by
    intro s' hcalls hpipes hworkers htids hsubmitted hC hctx
    refine h.quiet hinv hcalls hpipes hworkers (fun wid => ?_) hctx hC.ge hsubmitted.ge
      fun t _ hle => ?_
    · simp only [Pool.task, State.pool, hworkers, htids]
    · exact hsubmitted ▸ hle
  cases hc : s.clients c <;> simp only [Concow.clientStep, hc]
  case idle => exact h
  case fetch key val =>
      have hstop : s.stop = false := by
        by_contra hstop
        simp [hinv.closing.quiet (by simpa using hstop) c] at hc
      have hentry := hinv.entry_le hstop
      refine h.quiet hinv rfl rfl rfl (fun _ => rfl) (fun _ _ _ => rfl) le_rfl ?_ ?_
      · exact Nat.le_add_left _ _
      · intro t hlt _
        omega
  case waiting tid key val =>
      split
      · exact h
      · split <;> exact hquiet _ rfl rfl rfl rfl rfl rfl fun _ _ _ => rfl
  case bubbleSno tid key val =>
      refine hquiet _ rfl rfl rfl rfl rfl rfl fun t _ hmod => ?_
      exact Function.update_of_ne hmod _ _
  case bubbleStage tid key val => exact hquiet _ rfl rfl rfl rfl rfl rfl fun _ _ _ => rfl
  case writing tid key val field =>
      have ht : (s.clients c).tid = some tid := by simp [hc, Client.tid]
      have hroom : (s.clients c).hasRoom = true := by simp [hc, Client.hasRoom]
      have hset : ∀ (ctx : Context ρ) (t : Nat), Kept s t →
          Function.update s.ctxs (tid % bufferSize) ctx (t % bufferSize) = s.ctx t :=
            fun ctx t hkept =>
        Function.update_of_ne (hinv.held_slot_ne ht hroom hkept) _ _
      cases field with
      | stage => exact hquiet _ rfl rfl rfl rfl rfl rfl fun _ _ _ => rfl
      | op | flags | sno | key | val =>
          exact hquiet _ rfl rfl rfl rfl rfl rfl
            fun t hkept _ => hset _ t hkept

theorem Inv.monitorStep_nCommitted (h : Inv K s φ) :
    s.nCommitted ≤ (Concow.monitorStep s).nCommitted := by
  have hm : s.monitor.Ordered s.nCommitted s.nSubmitted (s.paces 0) s.stop := h.order.monitor
  cases hpc : s.monitor.pc <;> simp only [Concow.monitorStep, hpc] <;> try exact le_rfl
  case publishCommitted => exact hm.committed
  all_goals split <;> exact le_rfl

theorem History.monitorStep (h : History K s) (hinv : Inv K s φ) : History K (monitorStep s) := by
  have hC := hinv.monitorStep_nCommitted
  rw [monitorStep_writes] at hC ⊢
  exact h.quiet hinv rfl rfl rfl (fun _ => rfl) (fun _ _ _ => rfl) hC le_rfl fun _ _ hle => hle

theorem History.destructorStep (h : History K s) (hinv : Inv K s φ) {φ' : Nat → Phase Nat Nat}
    (hinv' : Inv K (destructorStep K s) φ') : History K (destructorStep K s) := by
  have hquiet : ∀ d, History K { s with destructor := d } := fun d =>
    h.quiet hinv rfl rfl rfl (fun _ => rfl) (fun _ _ _ => rfl) le_rfl le_rfl fun _ _ hle => hle
  cases hd : s.destructor
  case storeTids wid =>
      by_cases hall : K.nWorkers ≤ wid
      · simp only [Concow.destructorStep, hd, if_pos hall]
        exact hquiet _
      · simp only [Concow.destructorStep, hd, if_neg hall] at hinv' ⊢
        refine h.quiet hinv rfl rfl rfl (fun w => ?_) (fun _ _ _ => rfl) le_rfl le_rfl
          fun _ _ hle => hle
        rw [hinv.idle (by rw [hd]; rfl) w, hinv'.idle rfl w]
  all_goals simp only [Concow.destructorStep, hd]
  case idle => exact h
  case finished => exact h
  case joinMonitor =>
      split
      · exact hquiet _
      · exact h
  case joinPipes =>
      split
      · exact hquiet _
      · split
        · exact hquiet _
        · exact h
  case joinWorkers =>
      split
      · exact hquiet _
      · split
        · exact hquiet _
        · exact h

end Histories

end Contrees.Conctrl.Concow
