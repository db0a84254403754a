import Contrees.Conctrl.ConcowGates
import Contrees.Trees.ArtReaders
import Contrees.Trees.ArtSerial

namespace Contrees.Trees.Art

open Library Library.Memory Library.Interleaving Library.Runs Conctrl Conctrl.Concow

section Instance

def Operand.code : Operand → Nat
  | .init => Conctrl.Operand.init
  | .search => 0x1
  | .insert => 0x2
  | .fork => 0x3
  | .done => Conctrl.Operand.done

/-- The operand of `handlers[op]`; the rest of the table is `nullptr`. -/
def operandOf (op : Nat) : Option Operand :=
  [Operand.init, Operand.search, Operand.insert, Operand.fork].find? (fun o => o.code = op)

/-- What `art::context` adds to `conctrl::context`, and the number of calls that an
update has made, from which the names of its nodes come. -/
structure Fields where
  keyOfs : Nat
  chIdx : Nat
  calls : Nat

structure Memory where
  heap : NodeHeap
  fields : Nat → Fields
  fault : Bool

def contextOf (ctx : Concow.Context NodePtr) (op : Operand) (fields : Fields) : Context where
  op := op
  waitChild := ctx.waitChild
  newCheckpoint := ctx.newCheckpoint
  sno := ctx.sno
  root := ctx.root
  tCur := ctx.tCur
  tPast := ctx.tPast
  key := ctx.key
  val := ctx.val
  keyOfs := fields.keyOfs
  chIdx := fields.chIdx

def resultOf (ctx : Concow.Context NodePtr) (ctx' : Context) : Concow.Result NodePtr where
  op := ctx'.op.code
  retry := ctx.retry
  waitChild := ctx.waitChild
  waitSubtree := ctx.waitSubtree
  newCheckpoint := ctx.newCheckpoint
  root := ctx'.root
  tCur := ctx'.tCur
  tPast := ctx'.tPast

/-- An update starts with fields of 0: `handle_init` writes `key_ofs`, and `ch_idx` is
not read before it is written. -/
def Memory.fieldsOf (mem : Memory) (op slot : Nat) : Fields :=
  if op = Conctrl.Operand.init then ⟨0, 0, 0⟩ else mem.fields slot

def handlers (op : Nat) (ctx : Concow.Context NodePtr) (mem : Memory) :
    Concow.Result NodePtr × Memory :=
  let slot := ctx.sno % bufferSize
  let fields := mem.fieldsOf op slot
  match (operandOf op).bind
      (fun o =>
        (interface.handle (contextOf ctx o fields)).exec ctx.sno fields.calls 0 mem.heap) with
  | some (ctx', _, h) => (resultOf ctx ctx',
      ⟨h, Function.update mem.fields slot ⟨ctx'.keyOfs, ctx'.chIdx, fields.calls + 1⟩, mem.fault⟩)
  | none => (⟨Conctrl.Operand.done, ctx.retry, ctx.waitChild, ctx.waitSubtree, ctx.newCheckpoint,
      ctx.root, ctx.tCur, ctx.tPast⟩, { mem with fault := true })

/-- `concow` over an initial tree, whose nodes are by no transaction. -/
structure Setup where
  tInit : NodePtr
  heap : NodeHeap
  tree : Tree
  nPipes : Nat
  nWorkers : Nat
  nPipes_pos : 1 ≤ nPipes
  nWorkers_pos : 1 ≤ nWorkers
  denotes : Denotes (Ptr.Before 1) heap (some tInit) tree
  base : Base (some tInit) heap

/-- `checkpoint_handler` does nothing. -/
def Setup.config (S : Setup) : Concow.Config NodePtr Memory where
  handlers := handlers
  checkpointHandler := fun ctx mem => (ctx.root, mem)
  creator := fun node => node.owner
  nPipes := S.nPipes
  nWorkers := S.nWorkers
  tInit := S.tInit
  mem := ⟨S.heap, fun _ => ⟨0, 0, 0⟩, false⟩
  nPipes_pos := S.nPipes_pos
  nWorkers_pos := S.nWorkers_pos

/-- No checkpoint is ever made, so it might be of the root before as well. -/
def Setup.plain (S : Setup) : Concow.Config NodePtr Memory :=
  { S.config with checkpointHandler := fun ctx mem => (ctx.tPast, mem) }

theorem operandOf_code {o : Operand} (h : o ≠ .done) : operandOf o.code = some o := by
  cases o <;> first | decide | exact absurd rfl h

theorem code_injective {o o' : Operand} (h : o.code = o'.code) : o = o' := by
  cases o <;> cases o' <;>
    first | rfl | simp [Operand.code, Conctrl.Operand.init, Conctrl.Operand.done] at h

theorem keepsFlags (S : Setup) : Concow.KeepsFlags S.config := by
  intro op ctx mem
  change (handlers op ctx mem).1.flags = ctx.flags
  simp only [handlers]
  split <;> rfl

theorem handlers_eq {ctx : Concow.Context NodePtr} {mem : Memory} {o : Operand} {fields : Fields}
    {ctx' : Context} {k : Nat} {h : NodeHeap} (hdone : o ≠ .done)
    (hfields : mem.fieldsOf o.code (ctx.sno % bufferSize) = fields)
    (hexec : (interface.handle (contextOf ctx o fields)).exec ctx.sno fields.calls 0 mem.heap =
    some (ctx', k, h)) :
    handlers o.code ctx mem = (resultOf ctx ctx',
    ⟨h, Function.update mem.fields (ctx.sno % bufferSize)
      ⟨ctx'.keyOfs, ctx'.chIdx, fields.calls + 1⟩, mem.fault⟩) := by
  simp only [handlers, hfields, operandOf_code hdone, Option.bind_some, hexec]

theorem handlers_versioned (op : Nat) (ctx : Concow.Context NodePtr) {mem : Memory}
    (hv : Versioned mem.heap) :
    Versioned (handlers op ctx mem).2.heap := by
  simp only [handlers]
  split
  · rename_i hcall
    obtain ⟨o, -, hexec⟩ := Option.bind_eq_some_iff.mp hcall
    exact handle_versioned (t := ctx.sno) rfl hv _ hexec
  · exact hv

end Instance

section Coupling

variable {S : Setup} {s s' : Concow.State NodePtr Memory} {args : Nat → Option Context}
  {σ : Interleaving.State NodeType Cell Context} {θ : Thread} {t k op : Nat}
    {l : List (Concow.Call NodePtr)}
  {a : Concow.Call NodePtr} {ctx ctx' : Context} {h : NodeHeap} {x : Nat → Option NodePtr}

structure Agrees (s : Concow.State NodePtr Memory) (args : Nat → Option Context) : Prop where
  bubbles : ∀ t, t % bufferSize = 0 → args t = none
  first : ∀ t a, (s.callsOf t).head? = some a → args t = some (contextOf a.before .init ⟨0, 0, 0⟩)

structure Left (s : Concow.State NodePtr Memory) (t : Nat) (a : Concow.Call NodePtr)
    (ctx : Context) : Prop where
  context : ctx = contextOf (a.before.after a.after) ctx.op ⟨ctx.keyOfs, ctx.chIdx, a.stage + 1⟩
  op : ctx.op.code = a.after.op
  begun : ctx.op ≠ .init
  sno : ctx.sno = t % 2 ^ 32
  fields : a.after.op ≠ Operand.done.code → s.mem.fields (t % bufferSize) = ⟨ctx.keyOfs, ctx.chIdx,
    a.stage + 1⟩

/-- The updates in the ring are those of an interleaving that is coupled to the serial run. -/
structure Coupling (S : Setup) (s : Concow.State NodePtr Memory) (args : Nat → Option Context)
    (σ : Interleaving.State NodeType Cell Context) : Prop where
  coupled : Coupled (updates args) (some S.tInit) S.heap σ
  web : Web σ
  heap : σ.heap = s.mem.heap
  fault : s.mem.fault = false
  fresh : ∀ t, s.callsOf t = [] → σ.call t = none
  last : ∀ t l a, s.callsOf t = l ++ [a] → ∃ ctx, σ.call t = some (a.stage + 1, ctx) ∧
    Left s t a ctx
  roots : ∀ t a n ctx, a ∈ s.callsOf t → σ.call t = some (n, ctx) → a.after.root = ctx.root

theorem Left.slot (h : Left s t a ctx) (hleaves : a.Leaves (s.ctx t)) :
    ctx = contextOf (s.ctx t) ctx.op ⟨ctx.keyOfs, ctx.chIdx, a.stage + 1⟩ := by
  obtain ⟨cno, hslot⟩ := hleaves
  rw [hslot]
  exact h.context

theorem Agrees.mono (h : Agrees s' args) (hcalls : ∀ t, ∃ l, s'.callsOf t = s.callsOf t ++ l) :
    Agrees s args where
  bubbles := h.bubbles
  first t a ha := by
    obtain ⟨l, hl⟩ := hcalls t
    refine h.first t a ?_
    rw [hl, List.head?_append, ha]
    rfl

theorem Coupling.frame (hc : Coupling S s args σ) (hcalls : s'.calls = s.calls)
    (hmem : s'.mem = s.mem) :
    Coupling S s' args σ := by
  have hcallsOf : ∀ t, s'.callsOf t = s.callsOf t := fun t => by
    rw [State.callsOf, hcalls, ← State.callsOf]
  refine ⟨hc.coupled, hc.web, hmem ▸ hc.heap, hmem ▸ hc.fault,
    fun t ht => hc.fresh t (hcallsOf t ▸ ht),
    fun t l a ha => ?_, fun t a n ctx ha => hc.roots t a n ctx (hcallsOf t ▸ ha)⟩
  obtain ⟨ctx, hctx, hleft⟩ := hc.last t l a (hcallsOf t ▸ ha)
  exact ⟨ctx, hctx, hleft.context, hleft.op, hleft.begun, hleft.sno, hmem ▸ hleft.fields⟩

theorem Coupling.called (hc : Coupling S s args σ)
    (hs : Reachable (Step S.config) (initial S.config) s)
    (hθ : θ.Runs S.config) (hcalling : s.calling S.config θ = some (t, k, op))
    {σ₁ : Interleaving.State NodeType Cell Context} {fields : Fields} {o : Art.Operand}
    {ctx₀ : Context} {n : Nat}
    (hσ : ∀ u, u ≠ t → σ₁.call u = σ.call u) (hsno : (s.ctx t).sno = t % 2 ^ 32)
    (hsmall : t < 2 ^ 32) (ho : op = o.code) (hdone : o ≠ .done)
    (hfields : s.mem.fieldsOf op (t % bufferSize) = fields) (hcalls : fields.calls = k)
    (hctx₀ : ctx₀ = contextOf (s.ctx t) o fields)
    (hroots : ∀ a ∈ s.callsOf t, a.after.root = ctx'.root)
    (hexec : (interface.handle ctx₀).exec t k 0 σ.heap = some (ctx', n, h))
    (hcoupled : Coupled (updates args) (some S.tInit) S.heap (σ₁.put t (k + 1) ctx' h))
    (hweb : Web (σ₁.put t (k + 1) ctx' h)) {M : NodePtr → Prop}
    (hhandled : Handled M t k ctx₀ ctx' h) :
    Coupling S (step S.config θ s) args (σ₁.put t (k + 1) ctx' h) := by
  have hslot : (s.ctx t).sno % bufferSize = t % bufferSize := by rw [hsno, sno_slot]
  have hsno' : (s.ctx t).sno = t := by rw [hsno, Nat.mod_eq_of_lt hsmall]
  have hresult : handled S.config s t op = (resultOf (s.ctx t) ctx',
      ⟨h, Function.update s.mem.fields (t % bufferSize) ⟨ctx'.keyOfs, ctx'.chIdx, k + 1⟩,
        s.mem.fault⟩) := by
    have hfields' : s.mem.fieldsOf o.code ((s.ctx t).sno % bufferSize) = fields := by
      rw [hslot, ← ho, hfields]
    have hexec' : (interface.handle (contextOf (s.ctx t) o fields)).exec
      (s.ctx t).sno fields.calls 0 s.mem.heap =
        some (ctx', n, h) := by rw [hsno', hcalls, ← hc.heap, ← hctx₀, hexec]
    have hcall := handlers_eq hdone hfields' hexec'
    rw [hslot, hcalls] at hcall
    rw [ho]
    exact hcall
  have hmem := (step_calling hcalling).2
  rw [hresult] at hmem
  have hcallsOf := callsOf_calling hcalling
  rw [hresult] at hcallsOf
  refine ⟨hcoupled, hweb, by rw [hmem, State.put_heap], by rw [hmem]; exact hc.fault,
    fun u hu => ?_,
    fun u l a hu => ?_, fun u a m ctx ha hu => ?_⟩
  · rw [hcallsOf] at hu
    split at hu
    · simp at hu
    · rename_i hne
      rw [State.put_of_ne _ _ _ _ (Ne.symm hne), hσ u (Ne.symm hne), hc.fresh u hu]
  · rw [hcallsOf] at hu
    split at hu
    · rename_i heq
      subst heq
      obtain ⟨-, hlast⟩ := List.append_inj' hu rfl
      obtain rfl := List.singleton_inj.mp hlast
      refine ⟨ctx', State.put_self _ _ _ _ _, ?_, rfl, hhandled.op, ?_, fun _ => ?_⟩
      · rw [hhandled.same, hctx₀]
        rfl
      · rw [hhandled.same, hctx₀]
        exact hsno
      · rw [hmem]
        exact Function.update_self _ _ _
    · rename_i hne
      obtain ⟨ctx, hctx, hleft⟩ := hc.last u l a hu
      refine ⟨ctx, ?_, hleft.context, hleft.op, hleft.begun, hleft.sno, fun hop => ?_⟩
      · rw [State.put_of_ne _ _ _ _ (Ne.symm hne), hσ u (Ne.symm hne), hctx]
      · rw [hmem]
        exact (Function.update_of_ne
          (slot_ne_of_calling hs hθ hcalling hu hop (Ne.symm hne)) _ _).trans
          (hleft.fields hop)
  · rw [hcallsOf] at ha
    split at ha
    · rename_i heq
      subst heq
      rw [State.put_self] at hu
      obtain ⟨-, rfl⟩ := Prod.mk.inj (Option.some.inj hu)
      rcases List.mem_append.mp ha with ha | ha
      · exact hroots a ha
      · obtain rfl := List.mem_singleton.mp ha
        rfl
    · rename_i hne
      rw [State.put_of_ne _ _ _ _ (Ne.symm hne), hσ u (Ne.symm hne)] at hu
      exact hc.roots u a m ctx ha hu

theorem Coupling.gate (hc : Coupling S s args σ)
    (hs : Reachable (Step S.config) (initial S.config) s)
    (hcont : Continues S.config s t k op l a) (hsmall : s.nSubmitted < 2 ^ 32)
    (hcall : σ.call t = some (k, ctx))
    (hdone : ctx.op ≠ .done) (hpast : (s.ctx t).tPast = ctx.tPast) {p : NodePtr}
    (hop : ctx.op ≠ .init)
    (hp : ctx.tPast = some p) : Settled (updates args) σ (p, Field.chs) := by
  obtain ⟨q, hq, hmade, howner, hstage⟩ := (hc.web.placed t k ctx hcall).past hop hdone
  obtain rfl := Option.some.inj (hp.symm.trans hq)
  rcases hmade with hzero | ⟨n, ctx₁, hcall₁, -⟩
  · exact .inl hzero
  · have hcalls : s.callsOf p.owner ≠ [] := fun hnone => by simp [hc.fresh _ hnone] at hcall₁
    obtain ⟨l₁, b, hlast⟩ := (List.eq_nil_or_concat' _).resolve_left hcalls
    obtain ⟨hmod, hentered, hissued⟩ := entered_of_calls hs hlast
    obtain ⟨c, htrace, -⟩ := (history_of_reachable hs).called hentered hissued hmod
    obtain ⟨l₂, hlast'⟩ := htrace.last
    obtain ⟨-, heq⟩ := List.append_inj' (hlast.symm.trans hlast') rfl
    obtain rfl := List.singleton_inj.mp heq
    obtain ⟨ctx₂, hcall₂, hleft⟩ := hc.last _ l₁ b hlast
    have htid : S.config.tidOf (s.ctx t).tPast = p.owner := by rw [hpast, hp]; rfl
    have hahead := hcont.gate _ htid (hissued.trans_lt hsmall) howner hmod
    refine .inr ⟨b.stage + 1, ctx₂, hcall₂, ?_⟩
    rcases hahead.last (calls_clear_of_reachable (keepsFlags S) hs) htrace with hle | hend
    · left
      change p.stage + 1 < b.stage + 1
      omega
    · exact .inr (done_iff.mpr (code_injective (hleft.op.trans hend)))

theorem Coupling.continue (hc : Coupling S s args σ)
    (hs : Reachable (Step S.config) (initial S.config) s)
    (hθ : θ.Runs S.config) (hcalling : s.calling S.config θ = some (t, k, op))
    (hcont : Continues S.config s t k op l a) (hsmall : s.nSubmitted < 2 ^ 32) :
    ∃ σ', Coupling S (step S.config θ s) args σ' := by
  obtain ⟨ctx, hcall, hleft⟩ := hc.last t l a hcont.calls
  rw [← hcont.stage] at hcall
  have hop : op = ctx.op.code := hcont.op.trans hleft.op.symm
  have hdone : ctx.op ≠ .done := fun hop' => hcont.goesOn (by rw [← hleft.op, hop']; rfl)
  have hctx : ctx = contextOf (s.ctx t) ctx.op ⟨ctx.keyOfs, ctx.chIdx, k⟩ :=
    hcont.stage ▸ hleft.slot hcont.leaves
  have hsno : (s.ctx t).sno = t % 2 ^ 32 := by
    have := hleft.sno
    rwa [hctx] at this
  have hpast : (s.ctx t).tPast = ctx.tPast := by
    conv_rhs => rw [hctx]
    rfl
  have hfields : s.mem.fieldsOf op (t % bufferSize) = ⟨ctx.keyOfs, ctx.chIdx, k⟩ := by
    have hne : op ≠ Conctrl.Operand.init :=
      fun heq => hleft.begun (code_injective (hop.symm.trans heq))
    rw [Memory.fieldsOf, if_neg hne, hcont.stage]
    exact hleft.fields hcont.goesOn
  obtain ⟨ctx', n, h, hexec, hcoupled, hweb, hhandled⟩ :=
    hc.web.step S.base hc.coupled S.denotes hcall hdone
    fun p hop hp => hc.gate hs hcont hsmall hcall hdone hpast hop hp
  refine ⟨_, hc.called hs hθ hcalling (fun _ _ => rfl) hsno
    (hcont.issued.2.trans_lt hsmall) hop hdone hfields rfl
    hctx (fun b hb => ?_) hexec hcoupled hweb hhandled⟩
  rw [hhandled.root hleft.begun]
  exact hc.roots t b k ctx hb hcall

theorem Coupling.root_of_call (hc : Coupling S s args σ) (ha : a ∈ s.callsOf t) :
    (∃ m y, (updates args).serial (some S.tInit) S.heap m = some y ∧ y.tid = t ∧ y.call = none ∧
      y.root = a.after.root) ∧ ∀ p, a.after.root = some p → Made σ p ∧ p.owner = t ∧
      p.stage = 0 := by
  obtain ⟨l, b, hlast⟩ := (List.eq_nil_or_concat' _).resolve_left (List.ne_nil_of_mem ha)
  obtain ⟨ctx, hcall, hleft⟩ := hc.last t l b hlast
  have hroot := hc.roots t a _ ctx ha hcall
  obtain ⟨n, x, hx, hxtid, hxcall, -⟩ := hc.coupled.call _ _ _ hcall
  obtain ⟨m, y, -, hy, hytid, hynone, -⟩ := serial_ends args S.denotes t
  have hlt : x.place < y.place := by
    rw [place_lt_iff, hxtid, hytid, hxcall, hynone]
    exact .inr ⟨rfl, by simp⟩
  have hkept := (root_kept S.base hx hxcall hleft.begun (serial_order hx hy hlt).le hy
    (hytid.trans hxtid.symm)).2 hynone
  refine ⟨⟨m, y, hy, hytid, hynone, hkept.trans hroot.symm⟩, fun p hp => ?_⟩
  obtain ⟨q, hq, howner, hstage⟩ := hc.web.called t _ ctx hcall hleft.begun
  obtain rfl := Option.some.inj ((hq.symm.trans hroot.symm).trans hp)
  exact ⟨.inr ⟨b.stage + 1, ctx, howner ▸ hcall, by omega⟩, howner, hstage⟩

theorem Coupling.rooted (hc : Coupling S s args σ) (hagrees : Agrees s args) {n : Nat}
    (hchain : Chain S.plain s x n) :
    ∀ u ≤ n, (∃ m y, (updates args).serial (some S.tInit) S.heap m = some y ∧ y.tid = u ∧
    y.call = none ∧
      y.root = x u) ∧ ∀ p, x u = some p → Made σ p ∧ p.owner ≤ u ∧ p.stage = 0 := by
  intro u
  induction u with
  | zero =>
      intro _
      refine ⟨⟨0, _, rfl, rfl, rfl, hchain.start.symm⟩, fun p hp => ?_⟩
      obtain ⟨howner, hstage⟩ := S.base.root p (hchain.start.symm.trans hp)
      exact ⟨.inl howner, howner.le, hstage⟩
  | succ u ih =>
      intro hle
      obtain ⟨⟨m, y, hy, rfl, hnone, hroot⟩, hmade⟩ := ih (Nat.le_of_succ_le hle)
      have hmakes := hchain.makes (y.tid + 1) (Nat.le_add_left 1 _) hle
      rw [Nat.add_sub_cancel] at hmakes
      unfold Makes at hmakes
      split at hmakes
      · rename_i hmod
        have hsame : x (y.tid + 1) = x y.tid := by
          rcases hmakes with heq | ⟨ctx, mem, hpast, heq⟩
          · exact heq
          · exact heq.symm.trans hpast
        refine ⟨⟨m + 1, _, (serial_succ hy).trans (next_start hnone), rfl, ?_,
          hroot.trans hsame.symm⟩,
          fun p hp => ?_⟩
        · simp [updates, hagrees.bubbles _ hmod]
        · obtain ⟨hp', howner, hstage⟩ := hmade p (hsame.symm.trans hp)
          exact ⟨hp', howner.trans (Nat.le_succ _), hstage⟩
      · obtain ⟨-, a, ha, haroot⟩ := hmakes
        rw [← haroot]
        obtain ⟨hserial, hown⟩ := hc.root_of_call ha
        exact ⟨hserial, fun p hp => ⟨(hown p hp).1, (hown p hp).2.1.le, (hown p hp).2.2⟩⟩

theorem Coupling.start (hc : Coupling S s args σ)
    (hs : Reachable (Step S.config) (initial S.config) s)
    (hθ : θ.Runs S.config) (hcalling : s.calling S.config θ = some (t, k, op))
    (hstarts : Starts s θ t k op)
    (hsmall : s.nSubmitted < 2 ^ 32) (hagrees : Agrees (step S.config θ s) args) :
    ∃ σ', Coupling S (step S.config θ s) args σ' := by
  obtain ⟨-, hpc, htid, rfl, rfl, hnone, ⟨hmod, hissued⟩, key, val, -, hfresh⟩ := hstarts
  obtain ⟨x, hx⟩ := rooted_of_reachable (K := S.plain) (reachable_checkpoint (keepsFlags S) _ hs)
  have hpos : t ≠ 0 := fun heq => hmod (by rw [heq, Nat.zero_mod])
  have hseen : s.seen = t := by simp [State.seen, hpc, PipePc.looked, htid]
  have hchain : Chain S.plain s x (t - 1) :=
    ⟨hx.start, fun u hu hle => hx.made u hu (by omega) (by omega)⟩
  obtain ⟨⟨m, y, hy, hytid, hynone, hyroot⟩, hmade⟩ :=
    hc.rooted (hagrees.mono (step_callsOf θ)) hchain (t - 1) le_rfl
  have hpast : (s.ctx t).tPast = x (t - 1) := by
    have hlooks := hx.looks
    simp only [Pipe.Looks, hpc, ← htid] at hlooks
    exact hlooks hissued
  have hargs : args t = some (contextOf (s.ctx t) .init ⟨0, 0, 0⟩) := by
    refine hagrees.first t ⟨θ, t, 0, s.ctx t, (handled S.config s t Conctrl.Operand.init).1⟩ ?_
    rw [callsOf_calling hcalling, if_pos rfl, hnone]
    rfl
  have hserial := (serial_succ hy).trans (next_start hynone)
  have hnext : y.tid + 1 = t := by omega
  have hcall : ((updates args).start (y.tid + 1)).map (fun start => (0, start y.root)) =
      some (0, contextOf (s.ctx t) .init ⟨0, 0, 0⟩) := by
    simp only [updates, hnext, hargs, Option.map_some, hyroot, ← hpast]
    rfl
  obtain ⟨hcoupled, hweb⟩ :=
    hc.web.begin S.base hc.coupled (hc.fresh t hnone) hserial hnext hcall rfl
    fun p hp => by
      obtain ⟨hp', howner, hstage⟩ := hmade p (hpast.symm.trans hp)
      exact ⟨hp', by omega, hstage⟩
  obtain ⟨ctx', n, h, hexec, hcoupled', hweb', hhandled⟩ := hweb.step S.base hcoupled S.denotes
    (State.put_self _ _ _ _ _) (by simp [contextOf]) fun p hop => absurd rfl hop
  exact ⟨_, hc.called hs hθ hcalling (fun u hu => State.put_of_ne _ _ _ _ hu) hfresh.sno
    (hissued.trans_lt hsmall) rfl (by simp) rfl rfl rfl
      (by simp [hnone]) hexec hcoupled' hweb' hhandled⟩

theorem Coupling.waits (hc : Coupling S s args σ)
    (hs : Reachable (Step S.config) (initial S.config) s)
    {wid : Nat} (hpc : (s.workers wid).pc = .waitStage) :
    (s.ctx (s.workers wid).tid).tPast ≠ none := by
  obtain ⟨l, a, hcalls, hleaves, -, hgoes, -⟩ := worker_goes_on (keepsFlags S) hs wid (.inr hpc)
  obtain ⟨ctx, hcall, hleft⟩ := hc.last _ l a hcalls
  have hdone : ctx.op ≠ .done := fun hop => hgoes (by rw [← hleft.op, hop]; rfl)
  obtain ⟨p, hp, -⟩ := (hc.web.placed _ _ ctx hcall).past hleft.begun hdone
  have hpast : (s.ctx (s.workers wid).tid).tPast = some p := by
    rw [hleft.slot hleaves] at hp
    exact hp
  simp [hpast]

theorem unchecked (hs : Reachable (Step S.config) (initial S.config) s) (pid : Nat)
    (_ : θ = .pipe pid) :
    (s.pipes pid).pc ≠ .cpHandle := by
  intro hpc
  have hchecks := (unchecked_of_reachable (keepsFlags S) hs).2 pid
  simp [hpc, PipePc.checks] at hchecks

theorem Coupling.step (hc : Coupling S s args σ)
    (hs : Reachable (Step S.config) (initial S.config) s)
    (hθ : θ.Runs S.config) (hsmall : s.nSubmitted < 2 ^ 32)
    (hagrees : Agrees (step S.config θ s) args) :
    ∃ σ', Coupling S (step S.config θ s) args σ' := by
  cases hcalling : s.calling S.config θ with
  | none =>
      obtain ⟨hcalls, hmem⟩ := step_quiet hcalling (unchecked hs)
      exact ⟨σ, hc.frame hcalls hmem⟩
  | some call =>
      obtain ⟨t, k, op⟩ := call
      rcases calling_cases (keepsFlags S) hs hθ hcalling with hstarts | ⟨l, a, hcont⟩
      · exact hc.start hs hθ hcalling hstarts hsmall hagrees
      · exact hc.continue hs hθ hcalling hcont hsmall

theorem coupling_initial (S : Setup) (args : Nat → Option Context) :
    Coupling S (initial S.config) args ⟨fun _ => none, S.heap⟩ where
  coupled := by
    refine ⟨fun _ _ _ hcall => (nomatch hcall), fun t hpos _ l hl => S.base.empty l (hl ▸ hpos),
      fun _ _ => rfl⟩
  web := by
    refine ⟨fun p => (S.base.linked p).mono fun _ howner => .inl howner,
      fun _ _ _ hcall => (nomatch hcall),
      fun _ _ _ hcall => (nomatch hcall)⟩
  heap := rfl
  fault := rfl
  fresh _ _ := rfl
  last t l a ha := by simp [State.callsOf, initial] at ha
  roots t a n ctx _ hcall := (nomatch hcall)

/-- In every run the updates are coupled to their serial run. -/
theorem coupling_of_reachable (hs : Reachable (Step S.config) (initial S.config) s)
    (hsmall : s.nSubmitted < 2 ^ 32)
    (hagrees : Agrees s args) : ∃ σ, Coupling S s args σ := by
  have key : Reachable (Step S.config) (initial S.config) s ∧
      (s.nSubmitted < 2 ^ 32 → ∀ args, Agrees s args → ∃ σ, Coupling S s args σ) := by
    refine hs.invariant (fun s => Reachable (Step S.config) (initial S.config) s ∧
      (s.nSubmitted < 2 ^ 32 → ∀ args, Agrees s args → ∃ σ, Coupling S s args σ))
        ⟨Reachable.start, fun _ args _ => ⟨_, coupling_initial S args⟩⟩ ?_
    rintro a s s' ⟨hs, ih⟩ - ha
    refine ⟨hs.next a ha, fun hsmall args hagrees => ?_⟩
    cases ha with
    | update | destroy =>
        obtain ⟨σ, hc⟩ := ih hsmall args ⟨hagrees.bubbles, hagrees.first⟩
        exact ⟨σ, hc.frame rfl rfl⟩
    | thread _ θ hθ =>
        obtain ⟨φ, h⟩ := inv_of_reachable hs
        have hle := h.step_nSubmitted θ
        obtain ⟨σ, hc⟩ := ih (hle.trans_lt hsmall) args (hagrees.mono (step_callsOf θ))
        exact hc.step hs hθ (hle.trans_lt hsmall) hagrees
  exact key.2 hsmall args hagrees

theorem versioned_of_reachable (hs : Reachable (Step S.config) (initial S.config) s) :
    Versioned s.mem.heap := by
  have key : Reachable (Step S.config) (initial S.config) s ∧ Versioned s.mem.heap := by
    refine hs.invariant (fun s => Reachable (Step S.config) (initial S.config) s ∧
      Versioned s.mem.heap)
      ⟨Reachable.start, S.base.versioned⟩ ?_
    rintro a s s' ⟨hs, hv⟩ - ha
    refine ⟨hs.next a ha, ?_⟩
    cases ha with
    | update | destroy => exact hv
    | thread _ θ _ =>
        cases hcalling : s.calling S.config θ with
        | none =>
            rw [(step_quiet hcalling (unchecked hs)).2]
            exact hv
        | some call =>
            rw [(step_calling hcalling).2]
            exact handlers_versioned _ _ hv
  exact key.2

end Coupling

section Serialisable

variable {S : Setup} {s s' : Concow.State NodePtr Memory} {args : Nat → Option Context}
  {σ : Interleaving.State NodeType Cell Context} {n t u : Nat} {a : Concow.Call NodePtr}
    {x : Nat → Option NodePtr}

def submitted (s : Concow.State NodePtr Memory) (t : Nat) : List (Nat × Nat) :=
  (List.range t).filterMap (fun i => if (i + 1) % bufferSize = 0 then none else s.passed (i + 1))

def begins (s : Concow.State NodePtr Memory) (t : Nat) : Option Context :=
  (s.callsOf t).head?.map (fun a => contextOf a.before .init ⟨0, 0, 0⟩)

theorem agrees_begins (hs : Reachable (Step S.config) (initial S.config) s) :
    Agrees s (begins s) where
  bubbles t hmod := by
    rw [begins, (history_of_reachable hs).bubbles t hmod]
    rfl
  first t a ha := by
    rw [begins, ha]
    rfl

theorem nSubmitted_mono (hs : Reachable (Step S.config) (initial S.config) s)
    (hs' : Reachable (Step S.config) s s') :
    s.nSubmitted ≤ s'.nSubmitted := by
  have key : Reachable (Step S.config) (initial S.config) s' ∧ s.nSubmitted ≤ s'.nSubmitted := by
    refine hs'.invariant (fun s' => Reachable (Step S.config) (initial S.config) s' ∧
      s.nSubmitted ≤ s'.nSubmitted)
      ⟨hs, le_rfl⟩ ?_
    rintro a u v ⟨hu, hle⟩ - ha
    refine ⟨hu.next a ha, ?_⟩
    cases ha with
    | update | destroy => exact hle
    | thread _ θ hθ =>
        obtain ⟨φ, h⟩ := inv_of_reachable hu
        exact hle.trans (h.step_nSubmitted θ)
  exact key.2

theorem plain_chain (hs : Reachable (Step S.config) (initial S.config) s) :
    ∃ x, Chain S.plain s x s.rootTid ∧ x s.rootTid = s.root :=
  chain_of_reachable (K := S.plain) (reachable_checkpoint (keepsFlags S) _ hs)

theorem calls_eq_submitted (hagrees : Agrees s args) (hchain : Chain S.plain s x n) :
    calls args n = submitted s n := by
  refine List.filterMap_congr fun i hi => ?_
  rw [List.mem_range] at hi
  have hmakes := hchain.makes (i + 1) (Nat.le_add_left 1 i) hi
  unfold Makes at hmakes
  split at hmakes
  · rename_i hmod
    rw [if_pos hmod, hagrees.bubbles _ hmod]
    rfl
  · rename_i hmod
    obtain ⟨⟨a, hhead, -, hpassed⟩, -⟩ := hmakes
    rw [if_neg hmod, hagrees.first _ _ hhead, hpassed]
    rfl

theorem Agrees.of_run (hs : Reachable (Step S.config) s s') (h : Agrees s' args) :
    Agrees s args := by
  refine h.mono ?_
  refine hs.invariant (fun s' => ∀ t, ∃ l, s'.callsOf t = s.callsOf t ++ l)
    (fun t => ⟨[], by simp⟩) ?_
  rintro a u v hu - ha t
  obtain ⟨l, hl⟩ := hu t
  cases ha with
  | update | destroy => exact ⟨l, hl⟩
  | thread _ θ _ =>
      obtain ⟨l', hl'⟩ := step_callsOf (K := S.config) (s := u) θ t
      exact ⟨l ++ l', by rw [hl', hl, List.append_assoc]⟩

theorem Coupling.denotes (hc : Coupling S s args σ)
    (hs : Reachable (Step S.config) (initial S.config) s)
    (hagrees : Agrees s args) (hle : n ≤ s.rootTid) {m : Nat} {y : Moment NodeType Cell Context}
    (hy : (updates args).serial (some S.tInit) S.heap m = some y) (htid : y.tid = n)
    (hnone : y.call = none) :
    Denotes (Ptr.Before (n + 1)) s.mem.heap y.root (cowAll (calls args n) S.tree) := by
  obtain ⟨m', y', -, hy', htid', hnone', hden⟩ := serial_ends args S.denotes n
  obtain rfl : y' = y := serial_unique hy' hy (by simp [Moment.place, htid, htid', hnone, hnone'])
  have hsame := hc.coupled.agrees (timely S.base) S.base.empty hy hnone fun u hpos hu hstart => by
    have hmod : u % bufferSize ≠ 0 := fun hmod => by
      simp [updates, hagrees.bubbles u hmod] at hstart
    obtain ⟨a, htrace, hends⟩ := (finished_of_le hs (hu.trans (htid.le.trans hle))).update hmod
    obtain ⟨l, hlast⟩ := htrace.last
    obtain ⟨ctx, hcall, hleft⟩ := hc.last u l a hlast
    exact ⟨_, ctx, hcall, done_iff.mpr (code_injective (hleft.op.trans hends.2))⟩
  rw [hc.heap] at hsame
  refine hden.frame fun q hq => ⟨hq, fun f => hsame (q, f) ?_⟩
  rw [htid]
  exact Nat.le_of_lt_succ hq

theorem trees_of_reachable (hs : Reachable (Step S.config) (initial S.config) s)
    (hs' : Reachable (Step S.config) s s') (hsmall : s'.nSubmitted < 2 ^ 32) :
    Denotes (Ptr.Before (s.rootTid + 1)) s'.mem.heap s.root
    (cowAll (submitted s s.rootTid) S.tree) ∧
      ∀ t ≤ s.rootTid, ∀ a ∈ s.callsOf t,
        Denotes (Ptr.Before (t + 1)) s'.mem.heap a.after.root (cowAll (submitted s t) S.tree) := by
  have hend := reachable_trans hs hs'
  obtain ⟨hmono, hkept⟩ := rootTid_mono hs hs'
  have hagrees := agrees_begins hend
  obtain ⟨σ, hc⟩ := coupling_of_reachable hend hsmall hagrees
  obtain ⟨x, hchain, hroot⟩ := plain_chain hs
  obtain ⟨σ₀, hc₀⟩ := coupling_of_reachable hs ((nSubmitted_mono hs hs').trans_lt hsmall)
    (hagrees.of_run hs')
  have hcalls : ∀ t ≤ s.rootTid, calls (begins s') t = submitted s t := fun t ht =>
    calls_eq_submitted (hagrees.of_run hs') ⟨hchain.start,
      fun u hpos hu => hchain.makes u hpos (hu.trans ht)⟩
  have htree : ∀ t ≤ s.rootTid, ∀ root,
    (∃ m y, (updates (begins s')).serial (some S.tInit) S.heap m = some y ∧
      y.tid = t ∧ y.call = none ∧ y.root = root) →
        Denotes (Ptr.Before (t + 1)) s'.mem.heap root (cowAll (submitted s t) S.tree) := by
    rintro t ht root ⟨m, y, hy, htid, hnone, rfl⟩
    rw [← hcalls t ht]
    exact hc.denotes hend hagrees (ht.trans hmono) hy htid hnone
  refine ⟨htree _ le_rfl _ ?_, fun t ht a ha => htree t ht _ (hc.root_of_call (hkept t ht ▸ ha)).1⟩
  rw [← hroot]
  exact (hc₀.rooted (hagrees.of_run hs') hchain _ le_rfl).1

/-- Under `concow` the updates of art are serialisable: none of their calls fails, the tree
below a published root is the one that they make one after another, and so is the one
below each root that they leave on the way; and they stay. A worker waits below a node
that there is, and the versions that the waits compare are those of the nodes. -/
theorem serialisable (S : Setup) (s s' : Concow.State NodePtr Memory)
    (hs : Reachable (Step S.config) (initial S.config) s) (hs' : Reachable (Step S.config) s s')
    (hsmall : s'.nSubmitted < 2 ^ 32) :
    (Denotes (Ptr.Before (s.rootTid + 1)) s'.mem.heap s.root (cowAll (submitted s s.rootTid) S.tree) ∧
      ∀ t ≤ s.rootTid, ∀ a ∈ s.callsOf t,
        Denotes (Ptr.Before (t + 1)) s'.mem.heap a.after.root (cowAll (submitted s t) S.tree)) ∧
      s'.mem.fault = false ∧
        (∀ wid, (s'.workers wid).pc = .waitStage → (s'.ctx (s'.workers wid).tid).tPast ≠ none) ∧
          ∀ p ver hd, s'.mem.heap (p, Field.head) = some (ver, hd) → S.config.ver (some p) = ver % 2 ^ 32 := by
  have hend := reachable_trans hs hs'
  obtain ⟨σ, hc⟩ := coupling_of_reachable hend hsmall (agrees_begins hend)
  refine ⟨trees_of_reachable hs hs' hsmall, hc.fault, fun wid => hc.waits hend,
    fun p ver hd hhead => ?_⟩
  have hver : ver = p.owner := versioned_of_reachable hend p _ hhead
  rw [hver]
  rfl

def leafHeap (key val : Nat) : NodeHeap :=
  Heap.place (fun _ => none) ⟨0, 0, 0, .leaf⟩ (leafCells 0 (newNode .leaf 0 8 key) val)

theorem leafHeap_base (key val : Nat) : Base (some ⟨0, 0, 0, .leaf⟩) (leafHeap key val) where
  root p hp := Option.some.inj hp ▸ ⟨rfl, rfl⟩
  linked p ps hps := by
    by_cases heq : p = ⟨0, 0, 0, .leaf⟩
    · subst heq
      simp [leafHeap, leafCells] at hps
    · simp [leafHeap, heq] at hps
  empty l hl := Heap.place_of_ne _ _ _ fun heq => hl (by rw [heq])
  versioned := by
    apply Versioned.place_leaf (fun _ _ hx => ?_) _ _ rfl
    simp at hx

theorem leafHeap_denotes (key val : Nat) :
    Denotes (Ptr.Before 1) (leafHeap key val) (some ⟨0, 0, 0, .leaf⟩)
    (.leaf (newNode .leaf 0 8 key) val) := by
  refine ⟨_, rfl, Nat.one_pos, rfl, ⟨0, ?_⟩, ?_⟩ <;> simp [leafHeap, leafCells]

def leafSetup (key val : Nat) : Setup where
  tInit := ⟨0, 0, 0, .leaf⟩
  heap := leafHeap key val
  tree := .leaf (newNode .leaf 0 8 key) val
  nPipes := 1
  nWorkers := 1
  nPipes_pos := Nat.one_pos
  nWorkers_pos := Nat.one_pos
  denotes := leafHeap_denotes key val
  base := leafHeap_base key val

/-- Of two updates the first is committed, and the worker is about to make the last call for the second. -/
@[irreducible]
def halfway : Concow.State NodePtr Memory :=
  let K := (leafSetup 7 1).config
  takeTurns K [(.monitor, 8), (.pipe 0, 16), (.pipe 1, 15), (.worker 0, 11), (.monitor, 11),
    (.pipe 1, 9), (.worker 0, 3)]
    (submit K 1 7 5 (submit K 0 (2 ^ 56) 3 (initial K)))

@[irreducible]
def updated : Concow.State NodePtr Memory :=
  takeTurns (leafSetup 7 1).config [(.worker 0, 8), (.monitor, 10)] halfway

theorem halfway_reachable :
    Reachable (Step (leafSetup 7 1).config) (initial (leafSetup 7 1).config) halfway := by
  have hfirst : Reachable (Step (leafSetup 7 1).config) (initial (leafSetup 7 1).config)
      (submit (leafSetup 7 1).config 0 (2 ^ 56) 3 (initial (leafSetup 7 1).config)) :=
    submit_reachable Reachable.start rfl rfl (2 ^ 56) 3
  have hsecond : Reachable (Step (leafSetup 7 1).config) (initial (leafSetup 7 1).config)
      (submit (leafSetup 7 1).config 1 7 5
        (submit (leafSetup 7 1).config 0 (2 ^ 56) 3 (initial (leafSetup 7 1).config))) :=
    submit_reachable hfirst rfl rfl 7 5
  unfold halfway
  exact reachable_takeTurns hsecond (by simp [Thread.Runs, Setup.config, leafSetup])

theorem halfway_updated : Reachable (Step (leafSetup 7 1).config) halfway updated := by
  unfold updated
  exact reachable_takeTurns Reachable.start (by simp [Thread.Runs, Setup.config, leafSetup])

theorem halfway_submitted :
    halfway.rootTid = 1 ∧ submitted halfway 1 = [(2 ^ 56, 3)] := by decide +kernel

theorem updated_submitted :
    updated.rootTid = 2 ∧ submitted updated 2 = [(2 ^ 56, 3), (7, 5)] := by decide +kernel

theorem serialisable_sample : (halfway.workers 0).pc = .handle ∧
    ((updated.callsOf 2).map fun a => (a.thread, a.stage)) = [(.pipe 0, 0), (.worker 0, 1)] ∧
    Denotes (Ptr.Before 2) updated.mem.heap halfway.root
      (cowAll [(2 ^ 56, 3)] (.leaf (newNode .leaf 0 8 7) 1)) ∧
    Denotes (Ptr.Before 3) updated.mem.heap updated.root
      (cowAll [(2 ^ 56, 3), (7, 5)] (.leaf (newNode .leaf 0 8 7) 1)) := by
  have hsmall : updated.nSubmitted < 2 ^ 32 := by decide +kernel
  have hhalf :=
    (serialisable (leafSetup 7 1) halfway updated halfway_reachable halfway_updated hsmall).1.1
  have hboth :=
    (serialisable (leafSetup 7 1) updated updated
    (reachable_trans halfway_reachable halfway_updated)
    Reachable.start hsmall).1.1
  rw [halfway_submitted.1, halfway_submitted.2] at hhalf
  rw [updated_submitted.1, updated_submitted.2] at hboth
  exact ⟨by decide +kernel, by decide +kernel, hhalf, hboth⟩

end Serialisable

section Queries

open Library.OrderedMap

/-- A query finds for every key the last value that was passed for it among the updates
up to one point of time, which none precedes that a client has waited for; and what it
has loaded stays. -/
theorem query_finds (S : Setup) (elems : List (Nat × Nat)) (helems : ∀ e ∈ elems, e.1 < 2 ^ 64)
    (htree : S.tree = build elems) (s s' : Concow.State NodePtr Memory)
    (hs : Reachable (Step S.config) (initial S.config) s) (hs' : Reachable (Step S.config) s s')
    (hsmall : s'.nSubmitted < 2 ^ 32) (hkeys : ∀ u ∈ submitted s s.rootTid, u.1 < 2 ^ 64) :
    (∃ T, query s (fun root => Denotes (Ptr.Before (s.rootTid + 1)) s'.mem.heap root T) ∧
      ∀ k < 2 ^ 64, find k T = writes (submitted s s.rootTid) (writes elems (fun _ => none)) k) ∧
      ∀ t, waitForProcessing s t = true → t ≤ s.rootTid := by
  obtain ⟨φ, hinv⟩ := inv_of_reachable hs
  refine ⟨⟨_, (trees_of_reachable hs hs' hsmall).1, ?_⟩, fun t ht => ?_⟩
  · rw [htree]
    exact (cowAll_serves hkeys (build_serves helems)).find
  · have hcommitted : t ≤ s.nCommitted := by simpa [waitForProcessing] using ht
    exact hcommitted.trans hinv.rootTid_window.1

theorem query_finds_sample :
    (waitForProcessing halfway 1 = true ∧
      ∃ T, query halfway (fun root => Denotes (Ptr.Before 2) updated.mem.heap root T) ∧
        find (2 ^ 56) T = some 3 ∧ find 7 T = some 1) ∧
    ∃ T, query updated (fun root => Denotes (Ptr.Before 3) updated.mem.heap root T) ∧
      find (2 ^ 56) T = some 3 ∧ find 7 T = some 5 := by
  have hsmall : updated.nSubmitted < 2 ^ 32 := by decide +kernel
  obtain ⟨T, hT, hfind⟩ := (query_finds (leafSetup 7 1) [(7, 1)] (by simp) rfl halfway updated
    halfway_reachable halfway_updated hsmall
      (by rw [halfway_submitted.1, halfway_submitted.2]; simp)).1
  obtain ⟨T', hT', hfind'⟩ := (query_finds (leafSetup 7 1) [(7, 1)] (by simp) rfl updated updated
    (reachable_trans halfway_reachable halfway_updated) Reachable.start hsmall
    (by rw [updated_submitted.1, updated_submitted.2]; simp)).1
  rw [halfway_submitted.1] at hT hfind
  rw [updated_submitted.1] at hT' hfind'
  rw [halfway_submitted.2] at hfind
  rw [updated_submitted.2] at hfind'
  exact ⟨⟨by decide +kernel, T, hT, hfind _ (by omega), hfind 7 (by omega)⟩, T', hT',
    hfind' _ (by omega),
    hfind' 7 (by omega)⟩

end Queries

end Contrees.Trees.Art
