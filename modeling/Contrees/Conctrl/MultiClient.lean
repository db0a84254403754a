import Contrees.Library.Runs
import Contrees.Conctrl.Common
import Mathlib.Algebra.BigOperators.Group.Finset.Basic

namespace Contrees.Conctrl.MultiClient

open Library.Runs

/-- `tx_context`; type 1 is an update of `arg0` to `arg1`, type 0 a query. -/
structure Tx where
  type : Nat
  arg0 : Nat
  arg1 : Nat

def batchSize : Nat := 64

inductive Scheduler
  | seqcow | concow | concowCyclic
deriving DecidableEq

/-- The locals of a client in a batch: the index, its end and `local_submitted`. -/
structure Batch where
  i : Nat
  last : Nat
  submitted : Nat
deriving DecidableEq

/-- A client of `multi_client_execute`; from `calling` to `writing` it is in
`schd->update`. -/
inductive Client
  | fetch
  | loop (b : Batch)
  | calling (b : Batch)
  | waiting (b : Batch) (tid : Nat)
  | bubble (b : Batch) (tid : Nat)
  | writing (b : Batch) (tid : Nat)
  | adding (submitted : Nat)
  | finished
deriving DecidableEq

inductive Main
  | joining
  | waiting (n : Nat)
  | returned

inductive Slot
  | empty
  | bubble
  | update (key val : Nat)

/-- `counted` is the `n_submitted` of `multi_client_execute`, `nSubmitted` the one
of the scheduler. `claims` and `returned` are history: the transactions, each with
the client that claimed it, and the tids that `update` returned. -/
structure State where
  cursor : Nat
  counted : Nat
  nSubmitted : Nat
  nCommitted : Nat
  slots : Nat → Slot
  clients : Nat → Client
  main : Main
  claims : List (Nat × Nat)
  returned : List Nat

def initial : State where
  cursor := 0
  counted := 0
  nSubmitted := 0
  nCommitted := 0
  slots := fun _ => .empty
  clients := fun _ => .fetch
  main := .joining
  claims := []
  returned := []

def setClient (s : State) (c : Nat) (client : Client) : State :=
  { s with clients := Function.update s.clients c client }

/-- Only concow takes the tids that are multiples of the size of the ring for
checkpoints, and fetches another one. -/
def Scheduler.skips (S : Scheduler) (tid : Nat) : Prop := S = .concow ∧ tid % bufferSize = 0

instance (S : Scheduler) (tid : Nat) : Decidable (S.skips tid) := instDecidableAnd

def clientStep (S : Scheduler) (txs : List Tx) (c : Nat) (s : State) : State :=
  match s.clients c with
  | .fetch =>
      let b := s.cursor
      if txs.length ≤ b then { setClient s c .finished with cursor := b + batchSize }
      else
        let last := min (b + batchSize) txs.length
        { setClient s c (.loop ⟨b, last, 0⟩) with
          cursor := b + batchSize
          claims := s.claims ++ (List.range' b (last - b)).map (·, c) }
  | .loop b =>
      if b.i < b.last then
        match txs[b.i]? with
        | some tx =>
            if tx.type = 1 then setClient s c (.calling b)
            else setClient s c (.loop { b with i := b.i + 1 })
        | none => s
      else setClient s c (.adding b.submitted)
  | .calling b =>
      { setClient s c (.waiting b (1 + s.nSubmitted)) with nSubmitted := 1 + s.nSubmitted }
  | .waiting b tid =>
      if s.nCommitted + bufferSize ≤ tid then s
      else setClient s c (if S.skips tid then .bubble b tid else .writing b tid)
  | .bubble b tid =>
      { setClient s c (.calling b) with slots := Function.update s.slots tid .bubble }
  | .writing b tid =>
      let slot := (txs[b.i]?).elim Slot.empty (fun tx => .update tx.arg0 tx.arg1)
      { setClient s c (.loop { b with i := b.i + 1, submitted := b.submitted + 1 }) with
        slots := Function.update s.slots tid slot
        returned := s.returned ++ [tid] }
  | .adding submitted => { setClient s c .fetch with counted := s.counted + submitted }
  | .finished => s

def mainStep (numClients : Nat) (s : State) : State :=
  match s.main with
  | .joining =>
      if ∀ c < numClients, s.clients c = .finished then { s with main := .waiting s.counted } else s
  | .waiting n => if s.nCommitted < n then s else { s with main := .returned }
  | .returned => s

inductive Actor
  | client (c : Nat)
  | main
  | commit (n : Nat)

/-- The threads of a scheduler commit the submitted tids in order, any number at a
time; those of concow and concow_cyclic wait for the slots to be written. -/
inductive Step (S : Scheduler) (txs : List Tx) (numClients : Nat) : Actor → State → State → Prop
  | client (s) (c : Nat) (hc : c < numClients) :
      Step S txs numClients (.client c) s (clientStep S txs c s)
  | main (s) : Step S txs numClients .main s (mainStep numClients s)
  | commit (s) (n : Nat) (hlt : s.nCommitted < n) (hle : n ≤ s.nSubmitted)
      (hslots : S = .seqcow ∨ ∀ tid, 1 ≤ tid → tid ≤ n → s.slots tid ≠ .empty) :
      Step S txs numClients (.commit n) s { s with nCommitted := n }

def updates (txs : List Tx) : Nat := txs.countP (·.type = 1)

def updatesIn (txs : List Tx) (i last : Nat) : Nat := updates ((txs.take last).drop i)

section Counting

variable {txs : List Tx} {i last n : Nat} {tx : Tx}

theorem updatesIn_step (htx : txs[i]? = some tx) (hi : i < last) :
    updatesIn txs i last = (if tx.type = 1 then 1 else 0) + updatesIn txs (i + 1) last := by
  have hget : (txs.take last)[i]? = some tx := by rw [List.getElem?_take, if_pos hi, htx]
  obtain ⟨hlt, heq⟩ := List.getElem?_eq_some_iff.mp hget
  rw [updatesIn, updatesIn, List.drop_eq_getElem_cons hlt, updates, List.countP_cons, heq,
    Nat.add_comm]
  simp [updates]

theorem updatesIn_self (h : last ≤ i) : updatesIn txs i last = 0 := by
  rw [updatesIn, List.drop_eq_nil_of_le (by rw [List.length_take]; omega)]
  rfl

theorem updates_take_add (txs : List Tx) (i n : Nat) :
    updates (txs.take (i + n)) = updates (txs.take i) + updatesIn txs i (i + n) := by
  rw [updatesIn, updates, updates, updates, ← List.countP_append]
  congr 1
  conv_lhs => rw [← List.take_append_drop i (txs.take (i + n))]
  rw [List.take_take, Nat.min_eq_left (Nat.le_add_right i n)]

theorem updatesIn_min (txs : List Tx) (i last : Nat) :
    updatesIn txs i (min last txs.length) = updatesIn txs i last := by
  rw [updatesIn, updatesIn, ← List.take_take, List.take_length]

theorem updates_take_le (txs : List Tx) (n : Nat) : updates (txs.take n) ≤ updates txs :=
  (List.take_sublist n txs).countP_le

end Counting

def Client.pending : Client → Nat
  | .fetch | .finished => 0
  | .loop b | .calling b => b.submitted
  | .waiting b _ | .bubble b _ | .writing b _ => b.submitted + 1
  | .adding submitted => submitted

def Client.todo (txs : List Tx) : Client → Nat
  | .fetch | .adding _ | .finished => 0
  | .loop b | .calling b => updatesIn txs b.i b.last
  | .waiting b _ | .bubble b _ | .writing b _ => updatesIn txs (b.i + 1) b.last

def Batch.AtUpdate (txs : List Tx) (b : Batch) : Prop :=
  b.i < b.last ∧ ∃ tx, txs[b.i]? = some tx ∧ tx.type = 1

def Client.Ok (txs : List Tx) (s : State) : Client → Prop
  | .fetch | .loop _ | .adding _ => True
  | .calling b => b.AtUpdate txs
  | .waiting b tid | .writing b tid => b.AtUpdate txs ∧ 1 ≤ tid ∧ tid ≤ s.nSubmitted
  | .bubble _ _ => False
  | .finished => txs.length ≤ s.cursor

def Main.Ok (n : Nat) (s : State) : Main → Prop
  | .joining => True
  | .waiting k => k = s.counted ∧ ∀ c < n, s.clients c = .finished
  | .returned => s.counted ≤ s.nCommitted ∧ ∀ c < n, s.clients c = .finished

structure Inv (txs : List Tx) (n : Nat) (s : State) : Prop where
  claims : s.claims.map Prod.fst = List.range (min s.cursor txs.length)
  tids : s.nSubmitted = s.counted + ∑ c ∈ Finset.range n, (s.clients c).pending
  todo : s.nSubmitted + ∑ c ∈ Finset.range n, (s.clients c).todo txs = updates (txs.take s.cursor)
  client : ∀ c < n, (s.clients c).Ok txs s
  returned : ∀ tid ∈ s.returned, tid ≤ s.nSubmitted
  main : s.main.Ok n s

section Steps

variable {S : Scheduler} {txs : List Tx} {n c : Nat} {s s' : State} {client : Client}

theorem sum_set (f : Client → Nat) (clients : Nat → Client) (client : Client) (hc : c < n) :
    ∑ i ∈ Finset.range n, f (Function.update clients c client i) + f (clients c) =
      ∑ i ∈ Finset.range n, f (clients i) + f client := by
  have hmem : c ∈ Finset.range n := Finset.mem_range.mpr hc
  rw [← Finset.add_sum_erase _ _ hmem, ← Finset.add_sum_erase _ (fun i => f (clients i)) hmem,
    Function.update_self]
  have hrest : ∑ i ∈ (Finset.range n).erase c, f (Function.update clients c client i) =
      ∑ i ∈ (Finset.range n).erase c, f (clients i) := by
    refine Finset.sum_congr rfl fun i hi => ?_
    rw [Function.update_of_ne (Finset.ne_of_mem_erase hi)]
  rw [hrest]
  omega

theorem Client.Ok.mono (h : client.Ok txs s) (hsub : s.nSubmitted ≤ s'.nSubmitted)
    (hcur : s.cursor ≤ s'.cursor) : client.Ok txs s' := by
  cases client with
  | fetch => trivial
  | loop b => trivial
  | adding k => trivial
  | calling b => exact h
  | waiting b tid => exact ⟨h.1, h.2.1, h.2.2.trans hsub⟩
  | writing b tid => exact ⟨h.1, h.2.1, h.2.2.trans hsub⟩
  | bubble b tid => exact h.elim
  | finished => exact le_trans h hcur

theorem Inv.set (client : Client) (h : Inv txs n s) (hc : c < n) (hrun : s.clients c ≠ .finished)
    (hclients : s'.clients = Function.update s.clients c client) (hmain : s'.main = s.main)
    (hclaims : s'.claims.map Prod.fst = List.range (min s'.cursor txs.length))
    (hsub : s.nSubmitted ≤ s'.nSubmitted) (hcur : s.cursor ≤ s'.cursor)
    (htids : s'.nSubmitted + s.counted + (s.clients c).pending =
      s.nSubmitted + s'.counted + client.pending)
    (htodo : s'.nSubmitted + client.todo txs + updates (txs.take s.cursor) =
      s.nSubmitted + (s.clients c).todo txs + updates (txs.take s'.cursor))
    (hok : client.Ok txs s') (hret : ∀ tid ∈ s'.returned, tid ∈ s.returned ∨ tid ≤ s'.nSubmitted) :
    Inv txs n s' where
  claims := hclaims
  tids := by
    have hsum := sum_set Client.pending s.clients client hc
    have := h.tids
    rw [hclients]
    omega
  todo := by
    have hsum := sum_set (Client.todo txs) s.clients client hc
    have := h.todo
    rw [hclients]
    omega
  client i hi := by
    rw [hclients]
    by_cases hic : i = c
    · subst hic
      rwa [Function.update_self]
    · rw [Function.update_of_ne hic]
      exact (h.client i hi).mono hsub hcur
  returned tid htid := by
    rcases hret tid htid with hmem | hle
    · exact (h.returned tid hmem).trans hsub
    · exact hle
  main := by
    rw [hmain]
    have hold := h.main
    cases hm : s.main with
    | joining => trivial
    | waiting k =>
        rw [hm] at hold
        exact absurd (hold.2 c hc) hrun
    | returned =>
        rw [hm] at hold
        exact absurd (hold.2 c hc) hrun

theorem Inv.fetchStep (h : Inv txs n s) (hc : c < n) (hcl : s.clients c = .fetch) :
    Inv txs n (clientStep S txs c s) := by
  simp only [MultiClient.clientStep, hcl]
  split
  · rename_i hle
    have htake : txs.take (s.cursor + batchSize) = txs.take s.cursor := by
      rw [List.take_of_length_le (hle.trans (Nat.le_add_right _ _)), List.take_of_length_le hle]
    refine h.set .finished hc (by simp [hcl]) rfl rfl ?_ le_rfl (Nat.le_add_right _ _)
      ?_ ?_ (hle.trans (Nat.le_add_right _ _)) fun tid htid => .inl htid
    · have := h.claims
      rw [Nat.min_eq_right hle] at this
      exact this.trans (by rw [Nat.min_eq_right (hle.trans (Nat.le_add_right _ _))])
    · simp [hcl, Client.pending, setClient]
    · simp [hcl, Client.todo, setClient, htake]
  · rename_i hlt
    rw [not_le] at hlt
    refine h.set (.loop _) hc (by simp [hcl]) rfl rfl ?_ le_rfl (Nat.le_add_right _ _)
      ?_ ?_ trivial fun tid htid => .inl htid
    · have hclaims := h.claims
      rw [Nat.min_eq_left hlt.le] at hclaims
      have hlen : s.cursor + (min (s.cursor + batchSize) txs.length - s.cursor) =
          min (s.cursor + batchSize) txs.length := by omega
      have hsnd : Prod.fst ∘ (fun i => (i, c)) = (id : Nat → Nat) := rfl
      simp only [List.map_append, List.map_map, hsnd, List.map_id, hclaims]
      have happend : List.range' 0 s.cursor ++ List.range' s.cursor
          (min (s.cursor + batchSize) txs.length - s.cursor) =
          List.range' 0 (min (s.cursor + batchSize) txs.length) := by
        conv_rhs => rw [← hlen, ← List.range'_append_1, Nat.zero_add]
      rw [List.range_eq_range', List.range_eq_range', happend]
    · simp [hcl, Client.pending, setClient]
    · simp only [hcl, Client.todo, setClient, updatesIn_min, updates_take_add]
      omega

theorem Inv.loopStep (h : Inv txs n s) (hc : c < n) {b : Batch} (hcl : s.clients c = .loop b) :
    Inv txs n (clientStep S txs c s) := by
  simp only [MultiClient.clientStep, hcl]
  split
  · rename_i hlt
    cases htx : txs[b.i]? with
    | none => exact h
    | some tx =>
        have hstep := updatesIn_step htx hlt
        dsimp only
        split
        · rename_i htype
          exact h.set (.calling b) hc (by simp [hcl]) rfl rfl h.claims le_rfl le_rfl
            (by simp [hcl, Client.pending, setClient]) (by simp [hcl, Client.todo, setClient])
            ⟨hlt, tx, htx, htype⟩ fun tid htid => .inl htid
        · rename_i htype
          rw [if_neg htype, Nat.zero_add] at hstep
          exact h.set (.loop _) hc (by simp [hcl]) rfl rfl h.claims le_rfl le_rfl
            (by simp [hcl, Client.pending, setClient])
              (by simp [hcl, Client.todo, setClient, hstep])
            trivial fun tid htid => .inl htid
  · rename_i hge
    exact h.set (.adding _) hc (by simp [hcl]) rfl rfl h.claims le_rfl le_rfl
      (by simp [hcl, Client.pending, setClient])
      (by simp [hcl, Client.todo, setClient, updatesIn_self (not_lt.mp hge)])
      trivial fun tid htid => .inl htid

theorem Inv.callingStep (h : Inv txs n s) (hc : c < n) {b : Batch}
    (hcl : s.clients c = .calling b) :
    Inv txs n (clientStep S txs c s) := by
  have hok := h.client c hc
  rw [hcl] at hok
  obtain ⟨hlt, tx, htx, htype⟩ := id hok
  have hstep := updatesIn_step htx hlt
  rw [if_pos htype] at hstep
  simp only [MultiClient.clientStep, hcl]
  refine h.set (.waiting b _) hc (by simp [hcl]) rfl rfl h.claims (Nat.le_add_left _ _)
    le_rfl ?_ ?_ ⟨hok, Nat.le_add_right 1 _, le_rfl⟩ fun tid htid => .inl htid
  · simp only [hcl, Client.pending, setClient]
    omega
  · simp only [hcl, Client.todo, setClient, hstep]
    omega

theorem Inv.waitingStep (h : Inv txs n s) (hc : c < n)
    (hfew : S = .concow → updates txs < bufferSize) {b : Batch}
    {tid : Nat} (hcl : s.clients c = .waiting b tid) : Inv txs n (clientStep S txs c s) := by
  have hok := h.client c hc
  rw [hcl] at hok
  obtain ⟨hat, hpos, hle⟩ := hok
  have hskip : ¬ S.skips tid := by
    rintro ⟨hS, hmod⟩
    have htodo := h.todo
    have hle' := updates_take_le txs s.cursor
    have hB := hfew hS
    rw [Nat.mod_eq_of_lt (by omega)] at hmod
    omega
  simp only [MultiClient.clientStep, hcl, if_neg hskip]
  split
  · exact h
  · exact h.set (.writing b tid) hc (by simp [hcl]) rfl rfl h.claims le_rfl le_rfl
      (by simp [hcl, Client.pending, setClient]) (by simp [hcl, Client.todo, setClient])
      ⟨hat, hpos, hle⟩ fun tid htid => .inl htid

theorem Inv.writingStep (h : Inv txs n s) (hc : c < n) {b : Batch} {tid : Nat}
    (hcl : s.clients c = .writing b tid) : Inv txs n (clientStep S txs c s) := by
  have hok := h.client c hc
  rw [hcl] at hok
  obtain ⟨-, -, hle⟩ := hok
  simp only [MultiClient.clientStep, hcl]
  refine h.set (.loop _) hc (by simp [hcl]) rfl rfl h.claims le_rfl le_rfl
    (by simp [hcl, Client.pending, setClient]) (by simp [hcl, Client.todo, setClient]) trivial
    fun tid' htid' => ?_
  rcases List.mem_append.mp htid' with hmem | hmem
  · exact .inl hmem
  · obtain rfl := List.mem_singleton.mp hmem
    exact .inr hle

theorem Inv.addingStep (h : Inv txs n s) (hc : c < n) {k : Nat} (hcl : s.clients c = .adding k) :
    Inv txs n (clientStep S txs c s) := by
  simp only [MultiClient.clientStep, hcl]
  refine h.set .fetch hc (by simp [hcl]) rfl rfl h.claims le_rfl le_rfl ?_ ?_ trivial
    fun tid htid => .inl htid
  · simp only [hcl, Client.pending, setClient]
    omega
  · simp [hcl, Client.todo, setClient]

theorem Inv.clientStep (h : Inv txs n s) (hc : c < n)
    (hfew : S = .concow → updates txs < bufferSize) :
    Inv txs n (clientStep S txs c s) := by
  have hok := h.client c hc
  cases hcl : s.clients c with
  | finished => simpa [MultiClient.clientStep, hcl] using h
  | fetch => exact h.fetchStep hc hcl
  | loop b => exact h.loopStep hc hcl
  | calling b => exact h.callingStep hc hcl
  | waiting b tid => exact h.waitingStep hc hfew hcl
  | bubble b tid =>
      rw [hcl] at hok
      exact hok.elim
  | writing b tid => exact h.writingStep hc hcl
  | adding k => exact h.addingStep hc hcl

theorem Inv.mainStep (h : Inv txs n s) : Inv txs n (mainStep n s) := by
  have hmain := h.main
  cases hm : s.main with
  | joining =>
      simp only [MultiClient.mainStep, hm]
      split
      · rename_i hall
        exact ⟨h.claims, h.tids, h.todo, h.client, h.returned, rfl, hall⟩
      · exact h
  | waiting k =>
      rw [hm] at hmain
      obtain ⟨rfl, hall⟩ := hmain
      simp only [MultiClient.mainStep, hm]
      split
      · exact h
      · rename_i hge
        exact ⟨h.claims, h.tids, h.todo, h.client, h.returned, not_lt.mp hge, hall⟩
  | returned => simpa [MultiClient.mainStep, hm] using h

theorem inv_step {a : Actor} (h : Inv txs n s) (hfew : S = .concow → updates txs < bufferSize)
    (hs : Step S txs n a s s') : Inv txs n s' := by
  cases hs with
  | client _ c hc => exact h.clientStep hc hfew
  | main => exact h.mainStep
  | commit _ k hlt hle hslots =>
      refine ⟨h.claims, h.tids, h.todo, h.client, h.returned, ?_⟩
      have hmain := h.main
      cases hm : s.main with
      | joining => trivial
      | waiting k =>
          rw [hm] at hmain
          exact hmain
      | returned =>
          rw [hm] at hmain
          exact ⟨hmain.1.trans hlt.le, hmain.2⟩

theorem inv_initial : Inv txs n initial where
  claims := by simp [initial]
  tids := by simp [initial, Client.pending]
  todo := by simp [initial, Client.todo, updates]
  client := fun c _ => trivial
  returned := by simp [initial]
  main := trivial

def Executed (txs : List Tx) (s : State) : Prop :=
  s.claims.map Prod.fst = List.range txs.length ∧ ∀ tid ∈ s.returned, tid ≤ s.nCommitted

theorem executed (hclients : n = 0 → txs = []) (hfew : S = .concow → updates txs < bufferSize)
    (hs : Reachable (Step S txs n) initial s) (hret : s.main = .returned) : Executed txs s := by
  have h : Inv txs n s :=
    hs.invariant (Inv txs n) inv_initial fun a s t hinv _ hstep => inv_step hinv hfew hstep
  have hmain := h.main
  rw [hret] at hmain
  obtain ⟨hle, hfinished⟩ := hmain
  constructor
  · have hcursor : txs.length ≤ s.cursor := by
      rcases Nat.eq_zero_or_pos n with hn | hn
      · simp [hclients hn]
      · have hcursor := h.client 0 hn
        rwa [hfinished 0 hn] at hcursor
    rw [h.claims, Nat.min_eq_right hcursor]
  · intro tid htid
    have hpending : ∑ c ∈ Finset.range n, (s.clients c).pending = 0 := by
      refine Finset.sum_eq_zero fun c hc => ?_
      rw [hfinished c (Finset.mem_range.mp hc)]
      rfl
    have htids := h.tids
    have := h.returned tid htid
    omega

end Steps

section Overrun

variable {txs : List Tx} {n c d k : Nat} {s : State} {b : Batch} {client : Client} {tx : Tx}

theorem reachable_clientStep {S : Scheduler} (hs : Reachable (Step S txs n) initial s) (hc : c < n)
    (k : Nat) : Reachable (Step S txs n) initial ((clientStep S txs c)^[k] s) := by
  induction k with
  | zero => exact hs
  | succ k ih =>
      rw [Function.iterate_succ_apply']
      exact ih.next (.client c) (.client _ c hc)

def commitAll (s : State) : State := { s with nCommitted := s.nSubmitted }

def skipTid (s : State) : State :=
  { s with
    nSubmitted := 1 + s.nSubmitted
    slots := Function.update s.slots (1 + s.nSubmitted) .bubble }

theorem clientStep_skip (hcl : s.clients c = .calling b) (hroom : s.nCommitted = s.nSubmitted)
    (hskip : Scheduler.concow.skips (1 + s.nSubmitted)) :
    (clientStep .concow txs c)^[3] s = skipTid s := by
  have hfree : ¬ s.nSubmitted + bufferSize ≤ 1 + s.nSubmitted := by
    have : 1 < bufferSize := by decide
    omega
  simp [clientStep, hcl, setClient, skipTid, hroom, hfree, hskip]

theorem clientStep_write (hcl : s.clients c = .calling b) (hroom : s.nCommitted = s.nSubmitted)
    (hskip : ¬ Scheduler.concow.skips (1 + s.nSubmitted)) (htx : txs[b.i]? = some tx) :
    (clientStep .concow txs c)^[3] s = { s with
      nSubmitted := 1 + s.nSubmitted
      slots := Function.update s.slots (1 + s.nSubmitted) (.update tx.arg0 tx.arg1)
      clients := Function.update s.clients c (.loop ⟨b.i + 1, b.last, b.submitted + 1⟩)
      returned := s.returned ++ [1 + s.nSubmitted] } := by
  have hfree : ¬ s.nSubmitted + bufferSize ≤ 1 + s.nSubmitted := by
    have : 1 < bufferSize := by decide
    omega
  simp [clientStep, hcl, setClient, hroom, hfree, hskip, htx]

/-- The first client has done `d` updates with concow and the others none; all
but the last tid is committed. -/
structure Alone (txs : List Tx) (n d : Nat) (client : Client) (s : State) : Prop where
  reach : Reachable (Step .concow txs n) initial s
  first : s.clients 0 = client
  others : ∀ c, c ≠ 0 → s.clients c = .fetch ∨ s.clients c = .finished
  main : s.main = .joining
  tids : s.nSubmitted = d + s.nSubmitted / bufferSize
  committed : s.nCommitted = s.nSubmitted - 1
  slots : ∀ tid, 1 ≤ tid → tid ≤ s.nSubmitted → s.slots tid ≠ .empty
  last : 0 < s.nSubmitted → s.nSubmitted ∈ s.returned
  counted : s.counted + client.pending = d

theorem slots_set (slot : Slot) (hslot : slot ≠ .empty) (m : Nat)
    (h : ∀ tid, 1 ≤ tid → tid ≤ m → s.slots tid ≠ .empty) :
    ∀ tid, 1 ≤ tid → tid ≤ 1 + m → Function.update s.slots (1 + m) slot tid ≠ .empty := by
  intro tid hpos hle
  by_cases htid : tid = 1 + m
  · rwa [htid, Function.update_self]
  · rw [Function.update_of_ne htid]
    exact h tid hpos (by omega)

theorem reachable_commit (hs : Reachable (Step .concow txs n) initial s)
    (hle : s.nCommitted ≤ s.nSubmitted)
    (hslots : ∀ tid, 1 ≤ tid → tid ≤ s.nSubmitted → s.slots tid ≠ .empty) :
    Reachable (Step .concow txs n) initial (commitAll s) := by
  rcases hle.eq_or_lt with heq | hlt
  · have hsame : commitAll s = s := by
      cases s
      simpa [commitAll] using heq.symm
    rwa [hsame]
  · exact hs.next (.commit s.nSubmitted) (.commit s s.nSubmitted hlt le_rfl (.inr hslots))

theorem write_alone (hn : 0 < n) (hs : Reachable (Step .concow txs n) initial s)
    (hcl : s.clients 0 = .calling b)
    (hothers : ∀ c, c ≠ 0 → s.clients c = .fetch ∨ s.clients c = .finished)
    (hmain : s.main = .joining) (hroom : s.nCommitted = s.nSubmitted)
    (hslots : ∀ tid, 1 ≤ tid → tid ≤ s.nSubmitted → s.slots tid ≠ .empty)
    (htx : txs[b.i]? = some tx) (hskip : ¬ Scheduler.concow.skips (1 + s.nSubmitted))
    (htids : 1 + s.nSubmitted = d + 1 + (1 + s.nSubmitted) / bufferSize)
    (hcounted : s.counted + b.submitted = d) :
    ∃ s', s'.cursor = s.cursor ∧
      Alone txs n (d + 1) (.loop ⟨b.i + 1, b.last, b.submitted + 1⟩) s' := by
  have hwrite := clientStep_write hcl hroom hskip htx
  have hreach := reachable_clientStep hs hn 3
  rw [hwrite] at hreach
  refine ⟨_, ?_, hreach, by simp, ?_, hmain, htids, ?_, ?_, ?_, ?_⟩
  · rfl
  · intro c hc
    simpa [Function.update_of_ne hc] using hothers c hc
  · simp [hroom]
  · exact slots_set _ (by simp) s.nSubmitted hslots
  · simp
  · simp only [Client.pending]
    omega

theorem kept_div {m : Nat} (h : (1 + m) % bufferSize ≠ 0) :
    (1 + m) / bufferSize = m / bufferSize := by
  rw [bufferSize] at *
  omega

theorem skipped_div {m : Nat} (h : (1 + m) % bufferSize = 0) :
    (1 + (1 + m)) % bufferSize ≠ 0 ∧ (1 + (1 + m)) / bufferSize = m / bufferSize + 1 := by
  rw [bufferSize] at *
  omega

theorem Alone.update (h : Alone txs n d (.loop b) s) (hn : 0 < n) (hi : b.i < b.last)
    (htx : txs[b.i]? = some tx) (htype : tx.type = 1) :
    ∃ s', s'.cursor = s.cursor ∧
      Alone txs n (d + 1) (.loop ⟨b.i + 1, b.last, b.submitted + 1⟩) s' := by
  have hcall : clientStep .concow txs 0 s = setClient s 0 (.calling b) := by
    simp [clientStep, h.first, hi, htx, htype]
  have hs := reachable_clientStep h.reach hn 1
  rw [Function.iterate_one, hcall] at hs
  have hothers : ∀ c, c ≠ 0 → (setClient s 0 (.calling b)).clients c = .fetch ∨
      (setClient s 0 (.calling b)).clients c = .finished := by
    intro c hc
    simpa [setClient, Function.update_of_ne hc] using h.others c hc
  have hle : s.nCommitted ≤ s.nSubmitted := by
    rw [h.committed]
    exact Nat.sub_le _ _
  have hcommitted := reachable_commit hs hle h.slots
  have hcl : (commitAll (setClient s 0 (.calling b))).clients 0 = .calling b := by
    simp [commitAll, setClient]
  have htids := h.tids
  by_cases hskip : Scheduler.concow.skips (1 + s.nSubmitted)
  · have hbubble := reachable_clientStep hcommitted hn 3
    rw [clientStep_skip (s := commitAll (setClient s 0 (.calling b))) hcl rfl hskip] at hbubble
    have hslots := slots_set .bubble (by simp) s.nSubmitted h.slots
    have hnext := reachable_commit hbubble (Nat.le_add_left _ _) hslots
    obtain ⟨hmod, hdiv⟩ := skipped_div hskip.2
    refine write_alone (s := commitAll (skipTid (commitAll (setClient s 0 (.calling b))))) hn hnext
      hcl hothers h.main rfl hslots htx ?_ ?_ h.counted
    · exact fun hskip' => hmod hskip'.2
    · change 1 + (1 + s.nSubmitted) = d + 1 + (1 + (1 + s.nSubmitted)) / bufferSize
      omega
  · have hdiv := kept_div fun hmod => hskip ⟨rfl, hmod⟩
    refine write_alone (s := commitAll (setClient s 0 (.calling b))) hn hcommitted hcl hothers
      h.main rfl h.slots htx hskip ?_ h.counted
    change 1 + s.nSubmitted = d + 1 + (1 + s.nSubmitted) / bufferSize
    omega

theorem Alone.step (h : Alone txs n d client s) (hn : 0 < n) (client' : Client)
    (counted cursor : Nat) (claims : List (Nat × Nat))
    (hstep : clientStep .concow txs 0 s = { setClient s 0 client' with
      counted := counted, cursor := cursor, claims := claims })
    (hcounted : counted + client'.pending = d) :
    ∃ s', s'.cursor = cursor ∧ Alone txs n d client' s' := by
  have hs := reachable_clientStep h.reach hn 1
  rw [Function.iterate_one, hstep] at hs
  refine ⟨_, ?_, hs, by simp [setClient], ?_, h.main, h.tids, h.committed, h.slots, h.last,
    hcounted⟩
  · rfl
  intro c hc
  simpa [setClient, Function.update_of_ne hc] using h.others c hc

theorem Alone.batch (k : Nat) (h : Alone txs n d (.loop b) s) (hn : 0 < n)
    (hlast : b.last ≤ txs.length) (hk : b.last = b.i + k) :
    ∃ s', s'.cursor = s.cursor ∧ Alone txs n (d + updatesIn txs b.i b.last) .fetch s' := by
  induction k generalizing b d s with
  | zero =>
      obtain ⟨s₁, hcur₁, h₁⟩ := h.step hn (.adding b.submitted) s.counted s.cursor s.claims
        (by simp [clientStep, h.first, hk, setClient]) h.counted
      obtain ⟨s₂, hcur₂, h₂⟩ := h₁.step hn .fetch (s₁.counted + b.submitted) s₁.cursor s₁.claims
        (by simp [clientStep, h₁.first, setClient]) h₁.counted
      rw [updatesIn_self (le_of_eq (by omega))]
      exact ⟨s₂, hcur₂.trans hcur₁, h₂⟩
  | succ k ih =>
      have hi : b.i < b.last := by omega
      have htx : txs[b.i]? = some txs[b.i] := List.getElem?_eq_getElem (by omega)
      have hnext : b.last = b.i + 1 + k := by omega
      rw [updatesIn_step htx hi]
      by_cases htype : txs[b.i].type = 1
      · obtain ⟨s₁, hcur₁, h₁⟩ := h.update hn hi htx htype
        obtain ⟨s₂, hcur₂, h₂⟩ := ih h₁ hlast hnext
        rw [if_pos htype, ← Nat.add_assoc]
        exact ⟨s₂, hcur₂.trans hcur₁, h₂⟩
      · obtain ⟨s₁, hcur₁, h₁⟩ :=
          h.step hn (.loop ⟨b.i + 1, b.last, b.submitted⟩) s.counted s.cursor
          s.claims (by simp [clientStep, h.first, hi, htx, htype, setClient]) h.counted
        obtain ⟨s₂, hcur₂, h₂⟩ := ih h₁ hlast hnext
        rw [if_neg htype, Nat.zero_add]
        exact ⟨s₂, hcur₂.trans hcur₁, h₂⟩

theorem Alone.all (k : Nat) (h : Alone txs n d .fetch s) (hn : 0 < n)
    (hd : d = updates (txs.take s.cursor)) (hk : txs.length ≤ s.cursor + k) :
    ∃ s', txs.length ≤ s'.cursor ∧ Alone txs n (updates txs) .finished s' := by
  induction k using Nat.strong_induction_on generalizing d s with
  | _ k ih =>
      by_cases hle : txs.length ≤ s.cursor
      · rw [List.take_of_length_le hle] at hd
        obtain ⟨s₁, hcur₁, h₁⟩ := h.step hn .finished s.counted (s.cursor + batchSize) s.claims
          (by simp [clientStep, h.first, hle, setClient]) h.counted
        rw [hd] at h₁
        exact ⟨s₁, hcur₁ ▸ hle.trans (Nat.le_add_right _ _), h₁⟩
      · have hbatch : 0 < batchSize := by decide
        obtain ⟨s₁, hcur₁, h₁⟩ := h.step hn
          (.loop ⟨s.cursor, min (s.cursor + batchSize) txs.length, 0⟩) s.counted
            (s.cursor + batchSize)
          _ (by simp only [clientStep, h.first, if_neg hle]; rfl) h.counted
        obtain ⟨s₂, hcur₂, h₂⟩ := h₁.batch _ hn (Nat.min_le_right _ _)
          (Nat.add_sub_of_le (by dsimp only; omega)).symm
        refine ih (k - batchSize) (by omega) h₂ ?_ (by omega)
        rw [hcur₂, hcur₁, updates_take_add, hd, updatesIn_min]

theorem Alone.join (k : Nat) (h : Alone txs n d .finished s) (hcursor : txs.length ≤ s.cursor)
    (hk : k ≤ n) :
    ∃ s', txs.length ≤ s'.cursor ∧ Alone txs n d .finished s' ∧
      ∀ c < k, s'.clients c = .finished := by
  induction k with
  | zero => exact ⟨s, hcursor, h, fun c hc => absurd hc (Nat.not_lt_zero c)⟩
  | succ k ih =>
      obtain ⟨s₁, hcursor₁, h₁, hdone⟩ := ih (by omega)
      by_cases hfin : s₁.clients k = .finished
      · refine ⟨s₁, hcursor₁, h₁, fun c hc => ?_⟩
        rcases Nat.lt_succ_iff_lt_or_eq.mp hc with hlt | rfl
        · exact hdone c hlt
        · exact hfin
      · have hk0 : k ≠ 0 := by
          rintro rfl
          exact hfin h₁.first
        have hfetch := (h₁.others k hk0).resolve_right hfin
        have hs := h₁.reach.next (.client k) (.client s₁ k hk)
        have hstep : clientStep .concow txs k s₁ =
            { setClient s₁ k .finished with cursor := s₁.cursor + batchSize } := by
          simp [clientStep, hfetch, hcursor₁]
        rw [hstep] at hs
        refine ⟨_, hcursor₁.trans (Nat.le_add_right _ batchSize), ⟨hs, ?_, ?_, h₁.main, h₁.tids,
          h₁.committed, h₁.slots, h₁.last, h₁.counted⟩, ?_⟩
        · simpa [setClient, Function.update_of_ne hk0.symm] using h₁.first
        · intro c hc
          by_cases hck : c = k
          · exact .inr (by simp [setClient, hck])
          · simpa [setClient, Function.update_of_ne hck] using h₁.others c hc
        · intro c hc
          rcases Nat.lt_succ_iff_lt_or_eq.mp hc with hlt | rfl
          · simpa [setClient, Function.update_of_ne hlt.ne] using hdone c hlt
          · simp [setClient]

theorem alone_initial (txs : List Tx) (n : Nat) : Alone txs n 0 .fetch initial where
  reach := .start
  first := rfl
  others := fun _ _ => .inl rfl
  main := rfl
  tids := rfl
  committed := rfl
  slots := fun _ hpos hle => absurd (hpos.trans hle) (Nat.not_succ_le_zero 0)
  last := fun hpos => absurd hpos (Nat.lt_irrefl 0)
  counted := rfl

/-- With as many updates as the ring has slots, concow takes a tid that no client
counts, and `multi_client_execute` can return one tid too early. -/
theorem returns_early (hn : 0 < n) (hmany : bufferSize ≤ updates txs) :
    ∃ s, Reachable (Step .concow txs n) initial s ∧ s.main = .returned ∧
      ∃ tid ∈ s.returned, s.nCommitted < tid := by
  obtain ⟨s₁, hcursor₁, h₁⟩ := (alone_initial txs n).all txs.length hn
    (by simp [initial, updates]) (Nat.le_add_left _ _)
  obtain ⟨s₂, -, h₂, hdone⟩ := h₁.join n hcursor₁ le_rfl
  have hmain := h₂.main
  have hcounted : s₂.counted = updates txs := h₂.counted
  have htids := h₂.tids
  have hdrift : 1 ≤ s₂.nSubmitted / bufferSize := by
    have hle : updates txs ≤ s₂.nSubmitted := (Nat.le_add_right _ _).trans htids.ge
    rw [Nat.le_div_iff_mul_le bufferSize_pos, Nat.one_mul]
    exact hmany.trans hle
  have hcommitted := h₂.committed
  have hwait : mainStep n s₂ = { s₂ with main := .waiting s₂.counted } := by
    rw [mainStep, hmain]
    exact if_pos hdone
  have hreturn : mainStep n { s₂ with main := .waiting s₂.counted } =
    { s₂ with main := .returned } :=
    if_neg (by dsimp only; omega)
  have hs := h₂.reach.next .main (.main s₂)
  rw [hwait] at hs
  have hs' := hs.next .main (.main _)
  rw [hreturn] at hs'
  refine ⟨_, hs', rfl, s₂.nSubmitted, h₂.last (by omega), ?_⟩
  change s₂.nCommitted < s₂.nSubmitted
  omega

theorem no_clients (S : Scheduler) (txs : List Tx) :
    ∃ s, Reachable (Step S txs 0) initial s ∧ s.main = .returned ∧ s.claims = [] := by
  have hs : Reachable (Step S txs 0) initial (mainStep 0 (mainStep 0 initial)) :=
    (Reachable.start.next .main (.main _)).next .main (.main _)
  refine ⟨_, hs, ?_, ?_⟩
  · simp [mainStep, initial]
  · simp [mainStep, initial]

end Overrun

/-- `multi_client_execute` returns with all committed if and only if there are
clients for the transactions and, with concow, fewer updates than the ring has
slots: it counts the updates, and from then on concow takes tids of its own. -/
theorem multiClientExecute_waits_iff (S : Scheduler) (txs : List Tx) (numClients : Nat) :
    (∀ s, Reachable (Step S txs numClients) initial s → s.main = .returned → Executed txs s) ↔
      (numClients = 0 → txs = []) ∧ (S = .concow → updates txs < bufferSize) := by
  constructor
  · intro h
    constructor
    · rintro rfl
      obtain ⟨s, hs, hret, hclaims⟩ := no_clients S txs
      have hall := (h s hs hret).1
      rw [hclaims] at hall
      simpa using congrArg List.length hall.symm
    · rintro rfl
      by_contra hmany
      rw [not_lt] at hmany
      rcases Nat.eq_zero_or_pos numClients with rfl | hn
      · obtain ⟨s, hs, hret, hclaims⟩ := no_clients .concow txs
        have hall := (h s hs hret).1
        rw [hclaims] at hall
        have hnil : txs = [] := by simpa using congrArg List.length hall.symm
        rw [hnil] at hmany
        exact absurd hmany (by decide)
      · obtain ⟨s, hs, hret, tid, htid, hlt⟩ := returns_early hn hmany
        exact absurd ((h s hs hret).2 tid htid) (not_le.mpr hlt)
  · rintro ⟨hclients, hfew⟩ s hs hret
    exact executed hclients hfew hs hret

theorem concow_returns_early : ¬ ∀ s,
    Reachable (Step .concow (List.replicate 65536 ⟨1, 0, 0⟩) 1) initial s → s.main = .returned →
      Executed (List.replicate 65536 ⟨1, 0, 0⟩) s := by
  intro h
  have hmany : bufferSize ≤ updates (List.replicate 65536 ⟨1, 0, 0⟩) := by
    rw [updates, List.countP_replicate]
    exact le_rfl
  obtain ⟨s, hs, hret, tid, htid, hlt⟩ := returns_early Nat.one_pos hmany
  exact absurd ((h s hs hret).2 tid htid) (not_le.mpr hlt)

end Contrees.Conctrl.MultiClient
