import Contrees.Library.Interleaving
import Contrees.Trees.ArtUpdate

namespace Contrees.Trees.Art

open Library Library.Memory Library.Slots Conctrl

/-- The children of a node come one stage after it. -/
def delay : Field → Nat
  | .chs => 1
  | .head | .val => 0

section Links

variable {M : NodePtr → Prop} {t s : Nat} {h : NodeHeap} {p : NodePtr}

/-- A child is no newer than its parent, but for the stage in which the parent gets its children. -/
structure Link (M : NodePtr → Prop) (p c : NodePtr) : Prop where
  made : M c
  owner_le : c.owner ≤ p.owner
  stage_le : c.stage ≤ p.stage + 1

def Linked (M : NodePtr → Prop) (h : NodeHeap) (p : NodePtr) : Prop :=
  ∀ ps, h (p, Field.chs) = some ps → ∀ c, some c ∈ ps → Link M p c

def Own (M : NodePtr → Prop) (t : Nat) (h : NodeHeap) : Prop := ∀ p, p.owner = t → Linked M h p

theorem Linked.congr {h' : NodeHeap} (hp : Linked M h p)
    (heq : h' (p, Field.chs) = h (p, Field.chs)) :
    Linked M h' p := fun ps hps => hp ps (heq ▸ hps)

theorem Own.set {f : Field} (hown : Own M t h) (v : Cell f) (hf : f ≠ .chs) :
    Own M t (h.set p f v) :=
  fun q hq => (hown q hq).congr (h.set_of_ne v fun heq => hf (Prod.mk.inj heq).2.symm)

theorem Own.set_chs (hown : Own M t h) {ps : List (Option NodePtr)}
    (hps : ∀ c, some c ∈ ps → Link M p c) :
    Own M t (h.set p Field.chs ps) := by
  intro q hq
  by_cases heq : q = p
  · subst heq
    intro qs hqs
    rw [Heap.set_self] at hqs
    obtain rfl := Option.some.inj hqs
    exact hps
  · exact (hown q hq).congr (h.set_of_ne _ fun hl => heq (Prod.mk.inj hl).1)

theorem Own.place (hown : Own M t h) {cells : (f : Field) → Option (Cell f)}
    (hcells : ∀ ps, cells .chs = some ps → ∀ c, some c ∈ ps → Link M p c) :
    Own M t (h.place p cells) := by
  intro q hq
  by_cases heq : q = p
  · subst heq
    intro qs hqs
    exact hcells qs (by simpa using hqs)
  · exact (hown q hq).congr (h.place_of_ne cells .chs heq)

theorem Own.place_leaf (hown : Own M t h) (ver : Nat) (hd : Head) (val : Nat) :
    Own M t (h.place p (leafCells ver hd val)) :=
    hown.place fun ps hps => by simp [leafCells] at hps

theorem Own.place_inner (hown : Own M t h) (ver : Nat) (hd : Head) {ps : List (Option NodePtr)}
    (hps : ∀ c, some c ∈ ps → Link M p c) : Own M t (h.place p (innerCells ver hd ps)) :=
  hown.place fun _ hqs => Option.some.inj hqs ▸ hps

end Links

section Members

variable {ps : List (Option NodePtr)} {c : NodePtr} {hd new : Head} {idx : Nat}

theorem mem_of_getch (hc : getch hd ps idx = some c) : some c ∈ ps := some_mem_of_getD hc

theorem mem_of_copychAt (hc : some c ∈ copychAt new hd ps idx) : some c ∈ ps := by
  have hins : some c ∈ ps.insertIdx idx default → some c ∈ ps := fun hmem =>
    (List.eq_or_mem_of_mem_insertIdx hmem).resolve_left (by simp)
  unfold copychAt at hc
  cases hn : hd.type with
  | node4 => exact hins (by simpa [hn] using hc)
  | node16 =>
      simp only [hn] at hc
      split at hc
      exacts [hins hc, hc]
  | node48 =>
      simp only [hn] at hc
      split at hc
      · exact hc
      · obtain ⟨pkey, -, heq⟩ := List.mem_map.mp hc
        split at heq
        · cases heq
        · exact some_mem_of_getD heq
  | node256 => simpa [hn] using hc
  | leaf => simp [hn] at hc

end Members

section Handlers

variable {M : NodePtr → Prop} {t s n : Nat} {h : NodeHeap} {ctx : Context}

structure Target (M : NodePtr → Prop) (t s : Nat) (p : NodePtr) : Prop where
  made : M p
  owner_lt : p.owner < t
  stage_le : p.stage ≤ s

/-- The node that the stage before has made, and the one that it stands for. -/
def Beside (M : NodePtr → Prop) (t s : Nat) (ctx : Context) : Prop :=
  ∃ q p, ctx.tCur = some q ∧ q.owner = t ∧ q.stage + 1 = s ∧ ctx.tPast = some p ∧
    Target M t q.stage p

def Placed (M : NodePtr → Prop) (t s : Nat) (ctx : Context) (h : NodeHeap) : Prop :=
  match ctx.op with
  | .init => s = 0 ∧ ∀ p, ctx.tPast = some p → Target M t 0 p
  | .search | .insert => Beside M t s ctx
  | .fork => Beside M t s ctx ∧ ∀ q ps c, ctx.tCur = some q → h (q, Field.chs) = some ps →
      some c ∈ ps →
      c.owner = t ∧ c.stage = q.stage
  | .done => True

/-- The cells that a call may read: those of its transaction, and of the nodes that
earlier ones have made; children only under `t_past`. -/
def Reads (M : NodePtr → Prop) (t : Nat) (past : Option NodePtr) (l : NodePtr × Field) : Prop :=
  l.1.owner = t ∨ l.1.owner < t ∧ M l.1 ∧ (l.2 = .chs → past = some l.1)

def Writes (t s : Nat) (l : NodePtr × Field) : Prop := l.1.owner = t ∧ s ≤ l.1.stage + delay l.2

structure Updated (M : NodePtr → Prop) (t s : Nat) (ctx : Context) (tp : NodePtr) (ctx' : Context)
    (h : NodeHeap) : Prop where
  owner : tp.owner = t
  stage : tp.stage = s
  own : Own M t h
  op : ctx'.op ≠ .init
  same : ctx' = { ctx with op := ctx'.op, keyOfs := ctx'.keyOfs, chIdx := ctx'.chIdx }
  placed : ∀ root, Placed M t (s + 1) { ctx' with root := root, tCur := some tp } h

theorem Updated.tPast {tp : NodePtr} {ctx' : Context} (hu : Updated M t s ctx tp ctx' h) :
    ctx'.tPast = ctx.tPast := by
  rw [hu.same]

theorem Updated.root {tp : NodePtr} {ctx' : Context} (hu : Updated M t s ctx tp ctx' h) :
    ctx'.root = ctx.root := by
  rw [hu.same]

variable {past : Option NodePtr} {p : NodePtr}

theorem Target.reads (hp : Target M t s p) {f : Field} (hf : f ≠ .chs) : Reads M t past (p, f) :=
  .inr ⟨hp.owner_lt, hp.made, fun heq => absurd heq hf⟩

theorem nodeCopy_within (hp : Target M t s p) (ver : Nat) (hown : Own M t h)
    {Q : NodePtr → Nat → NodeHeap → Prop}
    (hQ : ∀ site h', Own M t h' → Q ⟨t, s, n, site⟩ (n + 1) h') :
    (nodeCopy p ver).within t s (Reads M t past) (Writes t s) n h Q := by
  simp only [nodeCopy, Prog.within_bind, Prog.within_load]
  refine ⟨hp.reads (by simp), ?_⟩
  rintro ⟨v, hd⟩ -
  split
  · simp only [Prog.within_bind, Prog.within_load, Prog.within_new]
    exact ⟨hp.reads (by simp), fun val _ => hQ _ _ (hown.place_leaf ver hd val)⟩
  · exact hQ _ _ (hown.place_inner ver hd (by simp))

theorem nodeForkCow_within (hfresh : ∀ p, p.owner = t → p.stage = s → M p) (hp : Target M t s p)
    (hpast : ctx.tPast = some p) (pmlen : Nat) (hown : Own M t h) :
    (nodeForkCow ctx p pmlen).within t s (Reads M t past) (Writes t s) n h
      (fun r _ h' => Updated M t s ctx r.1 { r.2 with op := .fork } h') := by
  simp only [nodeForkCow, Prog.within_bind]
  apply nodeCopy_within hp _ hown
  intro site h₁ hown₁
  have hnew : ∀ i site f, Writes t s (⟨t, s, i, site⟩, f) :=
    fun i site f => ⟨rfl, Nat.le_add_right s _⟩
  simp only [Prog.within_load, Prog.within_store, allocLeaf, Prog.within_new, Prog.within_pure]
  refine ⟨.inl rfl, ?_⟩
  rintro ⟨ver, ch⟩ -
  refine ⟨hnew _ _ _, fun _ => ⟨hp.reads (by simp), ?_⟩⟩
  rintro ⟨v, old⟩ -
  -- the copy and the new leaf are made with their parent
  have hchs : ∀ pk0 pk1 c, some c ∈ pairUp pk0 pk1 (some (⟨t, s, n, site⟩ : NodePtr))
    (some ⟨t, s, n + 1, .leaf⟩) →
      M c ∧ c.owner = t ∧ c.stage = s := by
    intro pk0 pk1 c hc
    rcases mem_pairUp.mp hc with heq | heq <;> obtain rfl := Option.some.inj heq <;>
      exact ⟨hfresh _ rfl rfl, rfl, rfl⟩
  refine ⟨rfl, rfl, ?_, by simp, rfl, fun root => ⟨⟨_, p, rfl, rfl, rfl, hpast, hp⟩, ?_⟩⟩
  · refine ((hown₁.set _ (by simp)).place_leaf _ _ _).place_inner _ _ fun c hc => ?_
    obtain ⟨hmade, howner, hstage⟩ := hchs _ _ c hc
    exact ⟨hmade, howner.le, hstage.le.trans (Nat.le_succ s)⟩
  · rintro q ps c hq hps hc
    obtain rfl := Option.some.inj hq
    rw [Heap.place_self] at hps
    obtain rfl := Option.some.inj hps
    exact (hchs _ _ c hc).2

theorem updateCow_within (hfresh : ∀ p, p.owner = t → p.stage = s → M p)
    (htarget : ∀ p, ctx.tPast = some p → Target M t s p) (hown : Own M t h) :
    (updateCow ctx).within t s (Reads M t past) (Writes t s) n h
      (fun r _ h' => Updated M t s ctx r.1 r.2 h') := by
  obtain ⟨⟨op, waitChild, newCheckpoint, sno, root, tCur, tPast, key, val⟩, keyOfs, chIdx⟩ := ctx
  unfold updateCow
  cases tPast with
  | none =>
      simp only [allocLeaf, Prog.within_bind, Prog.within_new, Prog.within_pure]
      exact ⟨rfl, rfl, hown.place_leaf _ _ _, by simp, rfl, fun _ => trivial⟩
  | some p =>
      have hp := htarget p rfl
      simp only [Prog.within_bind, Prog.within_load]
      refine ⟨hp.reads (by simp), ?_⟩
      rintro ⟨v, hd⟩ -
      simp only
      split
      · simp only [Prog.within_bind, Prog.within_pure]
        exact nodeForkCow_within hfresh hp rfl _ hown
      · split
        · simp only [leafUpdate, Prog.within_bind, Prog.within_store, Prog.within_pure]
          exact nodeCopy_within hp _ hown fun site h₁ hown₁ => ⟨⟨rfl, Nat.le_add_right s _⟩,
            fun _ =>
            ⟨rfl, rfl, hown₁.set _ (by simp), by simp, rfl, fun _ => trivial⟩⟩
        · split
          · simp only [Prog.within_bind, Prog.within_pure]
            exact nodeCopy_within hp _ hown fun site h₁ hown₁ =>
              ⟨rfl, rfl, hown₁, by simp, rfl, fun _ => ⟨_, p, rfl, rfl, rfl, rfl, hp⟩⟩
          · simp only [Prog.within_bind, Prog.within_new, Prog.within_pure]
            exact ⟨rfl, rfl, hown.place_inner _ _ (by simp), by simp, rfl,
              fun _ => ⟨_, p, rfl, rfl, rfl, rfl, hp⟩⟩

theorem Placed.congr {h' : NodeHeap} (hplaced : Placed M t s ctx h)
    (heq : ctx.op = .fork → ∀ q, ctx.tCur = some q → h' (q, Field.chs) = h (q, Field.chs)) :
    Placed M t s ctx h' := by
  cases hop : ctx.op <;> simp only [Placed, hop] at hplaced ⊢
  case fork => exact ⟨hplaced.1, fun q ps c hq hps => hplaced.2 q ps c hq (heq hop q hq ▸ hps)⟩
  all_goals exact hplaced

structure Handled (M : NodePtr → Prop) (t s : Nat) (ctx ctx' : Context) (h : NodeHeap) : Prop where
  placed : Placed M t (s + 1) ctx' h
  own : Own M t h
  op : ctx'.op ≠ .init
  same : ctx' = { ctx with
    op := ctx'.op, root := ctx'.root, tCur := ctx'.tCur, tPast := ctx'.tPast
    keyOfs := ctx'.keyOfs, chIdx := ctx'.chIdx }
  first : ctx.op = .init → ∃ p, ctx'.root = some p ∧ p.owner = t ∧ p.stage = 0
  root : ctx.op ≠ .init → ctx'.root = ctx.root
  past : ∀ p, ctx'.tPast = some p → p.owner < t

section Copies

variable {q : NodePtr} (hq : q.owner = t) (hs : s = q.stage + 1) (hown : Own M t h)
include hq hs hown

theorem copych_within {Q : Unit → Nat → NodeHeap → Prop} (hp : Target M t q.stage p)
    (hpast : past = some p)
    (hlinked : Linked M h p) (hQ : ∀ h', Own M t h' → Linked M h' p → Q () n h') :
    (copych q p).within t s (Reads M t past) (Writes t s) n h Q := by
  have hne : p ≠ q := fun heq => absurd hp.owner_lt (by rw [heq, hq]; exact lt_irrefl t)
  simp only [copych, Prog.within_bind, Prog.within_load]
  refine ⟨.inl hq, ?_⟩
  rintro ⟨v, hd⟩ -
  split
  · exact hQ h hown hlinked
  · simp only [Prog.within_bind, Prog.within_load, Prog.within_store]
    refine ⟨.inr ⟨hp.owner_lt, hp.made, fun _ => hpast⟩, fun ps hps => ⟨⟨hq, hs.le⟩, fun _ => ?_⟩⟩
    refine hQ _ (hown.set_chs fun c hc => ?_)
      (hlinked.congr (h.set_of_ne _ fun hl => hne (Prod.mk.inj hl).1))
    obtain ⟨hmade, howner, hstage⟩ := hlinked ps hps c hc
    exact ⟨hmade, howner.trans (hq ▸ hp.owner_lt.le), hstage.trans (Nat.succ_le_succ hp.stage_le)⟩

theorem storeCh_within {Q : Unit → Nat → NodeHeap → Prop} {ch : NodePtr} (idx : Nat)
    (hch : Link M q ch)
    (hQ : ∀ ps, Own M t (h.set q Field.chs ps) → Q () n (h.set q Field.chs ps)) :
    (storeCh q idx ch).within t s (Reads M t past) (Writes t s) n h Q := by
  simp only [storeCh, Prog.within_bind, Prog.within_load, Prog.within_store]
  refine ⟨.inl hq, ?_⟩
  rintro ⟨v, hd⟩ -
  refine ⟨.inl hq, fun ps hps => ⟨⟨hq, hs.le⟩, fun _ => hQ _ (hown.set_chs fun c hc => ?_)⟩⟩
  rcases some_mem_put hc with heq | hmem
  · exact Option.some.inj heq ▸ hch
  · exact hown q hq ps hps c hmem

end Copies

section Calls

variable (hfresh : ∀ p, p.owner = t → p.stage = s → M p) (hown : Own M t h)
include hfresh hown

theorem handleInit_within (hop : ctx.op = .init) (hplaced : Placed M t s ctx h) :
    (handleInit ctx).within t s (Reads M t past) (Writes t s) n h
    (fun ctx' _ h' => Handled M t s ctx ctx' h') := by
  simp only [Placed, hop] at hplaced
  obtain ⟨rfl, htarget⟩ := hplaced
  simp only [handleInit, Prog.within_bind]
  apply Prog.within_mono (updateCow_within hfresh (by exact htarget) hown)
  intro r n' h' hupdated
  refine ⟨hupdated.placed (some r.1), hupdated.own, hupdated.op, ?_, fun _ =>
    ⟨r.1, rfl, hupdated.owner, hupdated.stage⟩, absurd hop, fun p hp => (htarget p ?_).owner_lt⟩
  · rw [hupdated.same]
  · exact hupdated.tPast.symm.trans hp

theorem handleSearch_within (hop : ctx.op = .search) (hbeside : Beside M t s ctx)
    (hpast : past = ctx.tPast)
    (hlinked : ∀ p, ctx.tPast = some p → Linked M h p) :
    (handleSearch ctx).within t s (Reads M t past) (Writes t s) n h
    (fun ctx' _ h' => Handled M t s ctx ctx' h') := by
  obtain ⟨q, p, hcur, hq, rfl, hp, htarget⟩ := hbeside
  simp only [handleSearch, Prog.within_bind, Prog.within_check]
  intro tCur htCur tPast htPast
  obtain rfl := Option.some.inj (hcur.symm.trans htCur)
  obtain rfl := Option.some.inj (hp.symm.trans htPast)
  refine copych_within hq rfl hown htarget (hpast.trans hp) (hlinked p hp)
    fun h₁ hown₁ hlinked₁ => ?_
  simp only [Prog.within_load]
  refine ⟨.inr ⟨htarget.owner_lt, htarget.made, by simp⟩, ?_⟩
  rintro ⟨v, old⟩ -
  refine ⟨.inr ⟨htarget.owner_lt, htarget.made, fun _ => hpast.trans hp⟩, fun ps hps => ?_⟩
  have hchild : ∀ c, getch old ps ctx.chIdx = some c → Target M t (q.stage + 1) c := by
    intro c hc
    obtain ⟨hmade, howner, hstage⟩ := hlinked₁ ps hps c (mem_of_getch hc)
    exact ⟨hmade, howner.trans_lt htarget.owner_lt,
      hstage.trans (Nat.succ_le_succ htarget.stage_le)⟩
  apply Prog.within_mono (updateCow_within hfresh (by exact hchild) hown₁)
  intro r n' h₂ hupdated
  have hlink : Link M q r.1 :=
    ⟨hfresh _ hupdated.owner hupdated.stage, (hupdated.owner.trans hq.symm).le, hupdated.stage.le⟩
  refine storeCh_within hq rfl hupdated.own ctx.chIdx hlink fun qs hown₃ => ?_
  rw [Prog.within_pure]
  have hne : r.1 ≠ q := fun heq => by
    have := hupdated.stage
    rw [heq] at this
    omega
  refine ⟨(hupdated.placed r.2.root).congr fun _ q' hq' => ?_, hown₃, hupdated.op, ?_,
    fun hinit => ?_, fun _ => ?_,
    fun p hp => ?_⟩
  · obtain rfl := Option.some.inj hq'
    exact h₂.set_of_ne _ fun hl => hne (Prod.mk.inj hl).1
  · rw [hupdated.same]
  · simp [hop] at hinit
  · exact hupdated.root
  · exact (hchild p (hupdated.tPast.symm.trans hp)).owner_lt

theorem handleInsert_within (hop : ctx.op = .insert) (hbeside : Beside M t s ctx)
    (hpast : past = ctx.tPast)
    (hlinked : ∀ p, ctx.tPast = some p → Linked M h p) :
    (handleInsert ctx).within t s (Reads M t past) (Writes t s) n h
    (fun ctx' _ h' => Handled M t s ctx ctx' h') := by
  obtain ⟨q, p, hcur, hq, rfl, hp, htarget⟩ := hbeside
  simp only [handleInsert, Prog.within_bind, Prog.within_check]
  intro tCur htCur tPast htPast
  obtain rfl := Option.some.inj (hcur.symm.trans htCur)
  obtain rfl := Option.some.inj (hp.symm.trans htPast)
  simp only [Prog.within_load, Prog.within_store]
  refine ⟨.inl hq, ?_⟩
  rintro ⟨v, new⟩ -
  refine ⟨.inr ⟨htarget.owner_lt, htarget.made, by simp⟩, ?_⟩
  rintro ⟨w, old⟩ -
  refine ⟨.inr ⟨htarget.owner_lt, htarget.made, fun _ => hpast.trans hp⟩, fun ps hps =>
    ⟨⟨hq, le_refl _⟩, fun _ => ?_⟩⟩
  have hown₁ : Own M t (h.set q Field.chs (copychAt new old ps ctx.chIdx)) := by
    refine hown.set_chs fun c hc => ?_
    obtain ⟨hmade, howner, hstage⟩ := hlinked p hp ps hps c (mem_of_copychAt hc)
    exact ⟨hmade, howner.trans (hq ▸ htarget.owner_lt.le),
      hstage.trans (Nat.succ_le_succ htarget.stage_le)⟩
  simp only [allocLeaf, Prog.within_new]
  have hlink : Link M q ⟨t, q.stage + 1, n, .leaf⟩ := ⟨hfresh _ rfl rfl, hq.ge, le_refl _⟩
  refine storeCh_within hq rfl (hown₁.place_leaf _ _ _) ctx.chIdx hlink fun qs hown₂ => ?_
  rw [Prog.within_pure]
  exact ⟨trivial, hown₂, by simp, rfl, fun hinit => by simp [hop] at hinit, fun _ => rfl,
    fun p' hp' =>
    Option.some.inj (hp.symm.trans hp') ▸ htarget.owner_lt⟩

omit hfresh in
theorem handleFork_within (hop : ctx.op = .fork) (hplaced : Placed M t s ctx h)
    (hpast : past = ctx.tPast)
    (hlinked : ∀ p, ctx.tPast = some p → Linked M h p) :
    (handleFork ctx).within t s (Reads M t past) (Writes t s) n h
    (fun ctx' _ h' => Handled M t s ctx ctx' h') := by
  simp only [Placed, hop] at hplaced
  obtain ⟨⟨q, p, hcur, hq, rfl, hp, htarget⟩, hchs⟩ := hplaced
  simp only [handleFork, Prog.within_bind, Prog.within_check]
  intro tCur htCur tPast htPast
  obtain rfl := Option.some.inj (hcur.symm.trans htCur)
  obtain rfl := Option.some.inj (hp.symm.trans htPast)
  simp only [Prog.within_load]
  refine ⟨.inl hq, fun ps hps c hc => ?_⟩
  obtain ⟨howner, hstage⟩ := hchs q ps c hcur hps (some_mem_of_getD hc)
  refine copych_within howner (by rw [hstage]) hown (hstage ▸ htarget) (hpast.trans hp)
    (hlinked p hp)
    fun h₁ hown₁ _ => ?_
  rw [Prog.within_pure]
  exact ⟨trivial, hown₁, by simp, rfl, fun hinit => by simp [hop] at hinit, fun _ => rfl,
    fun p' hp' =>
    Option.some.inj (hp.symm.trans hp') ▸ htarget.owner_lt⟩

/-- A call reads nodes of its transaction and made ones of those before, and writes new ones only. -/
theorem handle_within (hdone : ctx.op ≠ .done) (hplaced : Placed M t s ctx h)
    (hpast : ctx.op ≠ .init → past = ctx.tPast)
    (hlinked : ∀ p, ctx.op ≠ .init → ctx.tPast = some p → Linked M h p) :
    (interface.handle ctx).within t s (Reads M t past) (Writes t s) n h
      (fun ctx' _ h' => Handled M t s ctx ctx' h') := by
  cases hop : ctx.op with
  | init =>
      simp only [interface, hop]
      exact handleInit_within hfresh hown hop hplaced
  | search =>
      have hne : ctx.op ≠ .init := by simp [hop]
      simp only [Placed, hop] at hplaced
      simp only [interface, hop]
      exact handleSearch_within hfresh hown hop hplaced (hpast hne) fun p => hlinked p hne
  | insert =>
      have hne : ctx.op ≠ .init := by simp [hop]
      simp only [Placed, hop] at hplaced
      simp only [interface, hop]
      exact handleInsert_within hfresh hown hop hplaced (hpast hne) fun p => hlinked p hne
  | fork =>
      have hne : ctx.op ≠ .init := by simp [hop]
      simp only [interface, hop]
      exact handleFork_within hown hop hplaced (hpast hne) fun p => hlinked p hne
  | done => exact absurd hop hdone

end Calls

end Handlers

section Versions

variable {t s n : Nat} {h : NodeHeap} {p : NodePtr} {ctx : Context}

def Versioned (h : NodeHeap) : Prop := ∀ p x, h (p, Field.head) = some x → x.1 = p.owner

theorem Versioned.set (hv : Versioned h) {f : Field} (v : Cell f) (hf : f ≠ .head) :
    Versioned (h.set p f v) :=
  fun q x hx => hv q x (by rwa [h.set_of_field_ne v (Ne.symm hf)] at hx)

theorem Versioned.set_head (hv : Versioned h) {ver : Nat} {hd : Head} (hver : ver = p.owner) :
    Versioned (h.set p Field.head (ver, hd)) := by
  intro q x hx
  by_cases heq : q = p
  · subst heq
    rw [Heap.set_self] at hx
    obtain rfl := Option.some.inj hx
    exact hver
  · rw [h.set_of_ptr_ne _ heq] at hx
    exact hv q x hx

theorem Versioned.place (hv : Versioned h) {cells : (f : Field) → Option (Cell f)}
    (hcells : ∀ x, cells .head = some x → x.1 = p.owner) : Versioned (h.place p cells) := by
  intro q x hx
  by_cases heq : q = p
  · subst heq
    exact hcells x (by simpa using hx)
  · rw [h.place_of_ne cells .head heq] at hx
    exact hv q x hx

theorem Versioned.place_leaf (hv : Versioned h) {ver : Nat} (hd : Head) (val : Nat)
    (hver : ver = p.owner) :
    Versioned (h.place p (leafCells ver hd val)) := hv.place fun _ hx => Option.some.inj hx ▸ hver

theorem Versioned.place_inner (hv : Versioned h) {ver : Nat} (hd : Head)
    (ps : List (Option NodePtr))
    (hver : ver = p.owner) : Versioned (h.place p (innerCells ver hd ps)) :=
  hv.place fun _ hx => Option.some.inj hx ▸ hver

theorem nodeCopy_versioned (hv : Versioned h) :
    (nodeCopy p t).wlp t s n h (fun _ _ h' => Versioned h') := by
  simp only [nodeCopy, Prog.wlp_bind, Prog.wlp_load]
  rintro ⟨ver, hd⟩ -
  split
  · simp only [Prog.wlp_bind, Prog.wlp_load, Prog.wlp_new]
    exact fun val _ => hv.place_leaf hd val rfl
  · rw [Prog.wlp_new]
    exact hv.place_inner hd [] rfl

theorem nodeForkCow_versioned (hsno : ctx.sno = t) (hv : Versioned h) (pmlen : Nat) :
    (nodeForkCow ctx p pmlen).wlp t s n h (fun _ _ h' => Versioned h') := by
  simp only [nodeForkCow, Prog.wlp_bind, hsno]
  refine Prog.wlp_mono (nodeCopy_versioned hv) ?_
  intro q n₁ h₁ hv₁
  simp only [Prog.wlp_load, Prog.wlp_store, allocLeaf, Prog.wlp_new, Prog.wlp_pure]
  rintro ⟨ver, ch⟩ hhead - ⟨v, past⟩ -
  exact ((hv₁.set_head (hv₁ q _ hhead)).place_leaf _ _ rfl).place_inner _ _ rfl

theorem updateCow_versioned (hsno : ctx.sno = t) (hv : Versioned h) :
    (updateCow ctx).wlp t s n h (fun _ _ h' => Versioned h') := by
  unfold updateCow
  cases ctx.tPast with
  | none =>
      simp only [allocLeaf, Prog.wlp_bind, Prog.wlp_new, Prog.wlp_pure, hsno]
      exact hv.place_leaf _ _ rfl
  | some p =>
      simp only [Prog.wlp_bind, Prog.wlp_load]
      rintro ⟨ver, hd⟩ -
      simp only
      split
      · simp only [Prog.wlp_bind, Prog.wlp_pure]
        exact nodeForkCow_versioned hsno hv _
      · split
        · simp only [leafUpdate, Prog.wlp_bind, Prog.wlp_store, Prog.wlp_pure, hsno]
          exact Prog.wlp_mono (nodeCopy_versioned hv) fun _ _ _ hv₁ _ => hv₁.set _ (by simp)
        · split
          · simp only [Prog.wlp_bind, Prog.wlp_pure, hsno]
            exact nodeCopy_versioned hv
          · simp only [Prog.wlp_bind, Prog.wlp_new, Prog.wlp_pure, hsno]
            exact hv.place_inner _ _ rfl

theorem copych_versioned {q : NodePtr} (hv : Versioned h) :
    (copych q p).wlp t s n h (fun _ _ h' => Versioned h') := by
  simp only [copych, Prog.wlp_bind, Prog.wlp_load]
  rintro ⟨ver, hd⟩ -
  split
  · rwa [Prog.wlp_pure]
  · simp only [Prog.wlp_bind, Prog.wlp_load, Prog.wlp_store]
    exact fun ps _ _ => hv.set _ (by simp)

theorem storeCh_versioned {q : NodePtr} (idx : Nat) (hv : Versioned h) :
    (storeCh q idx p).wlp t s n h (fun _ _ h' => Versioned h') := by
  simp only [storeCh, Prog.wlp_bind, Prog.wlp_load, Prog.wlp_store]
  exact fun _ _ ps _ _ => hv.set _ (by simp)

/-- A call writes its `sno` to the nodes that it makes, and leaves the other versions alone. -/
theorem handle_versioned (hsno : ctx.sno = t) (hv : Versioned h) :
    (interface.handle ctx).wlp t s n h (fun _ _ h' => Versioned h') := by
  cases hop : ctx.op with
  | init =>
      simp only [interface, hop, handleInit, Prog.wlp_bind, Prog.wlp_pure]
      exact updateCow_versioned hsno hv
  | search =>
      simp only [interface, hop, handleSearch, Prog.wlp_bind, Prog.wlp_check]
      intro tCur _ tPast _
      refine Prog.wlp_mono (copych_versioned hv) ?_
      intro _ n₁ h₁ hv₁
      simp only [Prog.wlp_load]
      rintro ⟨ver, past⟩ - ps -
      refine Prog.wlp_mono (updateCow_versioned (by exact hsno) hv₁) ?_
      intro r n₂ h₂ hv₂
      refine Prog.wlp_mono (storeCh_versioned _ hv₂) ?_
      intro _ n₃ h₃ hv₃
      rwa [Prog.wlp_pure]
  | insert =>
      simp only [interface, hop, handleInsert, Prog.wlp_bind, Prog.wlp_check, Prog.wlp_load,
        Prog.wlp_store,
        Prog.wlp_pure, allocLeaf, Prog.wlp_new, hsno]
      intro tCur _ tPast _ new _ old _ ps _ _
      exact storeCh_versioned _ ((hv.set _ (by simp)).place_leaf _ _ rfl)
  | fork =>
      simp only [interface, hop, handleFork, Prog.wlp_bind, Prog.wlp_check, Prog.wlp_load,
        Prog.wlp_pure]
      intro tCur _ tPast _ ps _ ch _
      exact copych_versioned hv
  | done =>
      simp only [interface, hop]
      exact fun r hexec => by simp [Prog.exec] at hexec

end Versions

end Contrees.Trees.Art
