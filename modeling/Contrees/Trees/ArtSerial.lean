import Contrees.Trees.ArtFootprint

namespace Contrees.Trees.Art

open Library Library.Memory Library.Interleaving Conctrl

/-- Updates as transactions, with their contexts as their first calls find them, but
for the root. -/
def updates (args : Nat → Option Context) : Transactions NodeType Cell Context where
  handle := interface.handle
  done := interface.done
  root := interface.root
  start := fun tid => (args tid).map (fun ctx root => { ctx with op := .init, tPast := root })
  delay := delay

structure Base (r₀ : Option NodePtr) (h₀ : NodeHeap) : Prop where
  root : ∀ p, r₀ = some p → p.owner = 0 ∧ p.stage = 0
  linked : ∀ p, Linked (fun q => q.owner = 0) h₀ p
  empty : ∀ l, l.1.owner ≠ 0 → h₀ l = none
  versioned : Versioned h₀

theorem done_iff {args : Nat → Option Context} {ctx : Context} :
    (updates args).done ctx = true ↔ ctx.op = .done := by
  simp [updates, interface]

theorem Linked.mono {M M' : NodePtr → Prop} {h : NodeHeap} {p : NodePtr} (hp : Linked M h p)
    (hM : ∀ q, M q → M' q) : Linked M' h p := fun ps hps c hc =>
  let ⟨hmade, howner, hstage⟩ := hp ps hps c hc
  ⟨hM c hmade, howner, hstage⟩

section Serial

variable {args : Nat → Option Context} {r₀ : Option NodePtr} {h₀ : NodeHeap} {n m s t : Nat}
    {ctx : Context}
  {x y : Moment NodeType Cell Context}

/-- A serial run of updates between two calls. -/
structure Net (x : Moment NodeType Cell Context) : Prop where
  linked : ∀ p, Linked (fun _ => True) x.heap p
  root : x.call = none → ∀ p, x.root = some p → p.owner ≤ x.tid ∧ p.stage = 0
  placed : ∀ s ctx, x.call = some (s, ctx) → Placed (fun _ => True) x.tid s ctx x.heap
  called : ∀ s ctx, x.call = some (s, ctx) → ctx.op ≠ .init →
    ∃ p, ctx.root = some p ∧ p.owner = x.tid ∧ p.stage = 0

theorem Net.within (h : Net x) (hcall : x.call = some (s, ctx)) (hdone : ctx.op ≠ .done) :
    (interface.handle ctx).within x.tid s (Reads (fun _ => True) x.tid ctx.tPast)
    (Writes x.tid s) 0 x.heap
      (fun ctx' _ h' => Handled (fun _ => True) x.tid s ctx ctx' h') :=
  handle_within (M := fun _ => True) (fun _ _ _ => trivial) (fun p _ => h.linked p) hdone
    (h.placed s ctx hcall)
    (fun _ => rfl) fun p _ _ => h.linked p

theorem Net.next (h : Net x) (hnext : (updates args).next x = some y) : Net y := by
  rcases next_cases hnext with ⟨s, ctx, hcall, hdone, rfl⟩ |
    ⟨s, ctx, ctx', k, h', hcall, hdone, hexec, rfl⟩ |
    ⟨hcall, rfl⟩
  · refine ⟨h.linked, fun _ p hp => ?_, fun _ _ hnone => (nomatch hnone),
      fun _ _ hnone => (nomatch hnone)⟩
    obtain ⟨q, hq, howner, hstage⟩ := h.called s ctx hcall (by simp [done_iff.mp hdone])
    obtain rfl := Option.some.inj (hq.symm.trans hp)
    exact ⟨howner.le, hstage⟩
  · have hdone' : ctx.op ≠ .done := fun hop => by simp [done_iff.mpr hop] at hdone
    have hwithin := h.within hcall hdone'
    have hhandled := hwithin.ends hexec
    refine ⟨fun p => ?_, fun hnone => (nomatch hnone), fun s₁ ctx₁ hcall₁ => ?_,
      fun s₁ ctx₁ hcall₁ _ => ?_⟩
    · by_cases howner : p.owner = x.tid
      · exact hhandled.own p howner
      · refine (h.linked p).congr (hwithin.frame hexec ?_ ?_)
        exacts [fun hw => howner hw.1, fun hf => howner hf.1]
    · obtain ⟨rfl, rfl⟩ := Prod.mk.inj (Option.some.inj hcall₁)
      exact hhandled.placed
    · obtain ⟨rfl, rfl⟩ := Prod.mk.inj (Option.some.inj hcall₁)
      by_cases hop : ctx.op = .init
      · exact hhandled.first hop
      · rw [hhandled.root hop]
        exact h.called s ctx hcall hop
  · refine ⟨h.linked, fun hnone p hp => ?_, fun s₁ ctx₁ hcall₁ => ?_, fun s₁ ctx₁ hcall₁ hop => ?_⟩
    · obtain ⟨howner, hstage⟩ := h.root hcall p hp
      exact ⟨howner.trans (Nat.le_succ _), hstage⟩
    · obtain ⟨start, hstart, heq⟩ := Option.map_eq_some_iff.mp hcall₁
      obtain ⟨ctx, -, rfl⟩ := Option.map_eq_some_iff.mp hstart
      obtain ⟨rfl, rfl⟩ := Prod.mk.inj heq
      refine ⟨rfl, fun p hp => ?_⟩
      obtain ⟨howner, hstage⟩ := h.root hcall p hp
      exact ⟨trivial, Nat.lt_succ_of_le howner, hstage.le⟩
    · obtain ⟨start, hstart, heq⟩ := Option.map_eq_some_iff.mp hcall₁
      obtain ⟨ctx, -, rfl⟩ := Option.map_eq_some_iff.mp hstart
      obtain ⟨rfl, rfl⟩ := Prod.mk.inj heq
      exact absurd rfl hop

theorem net_of_serial (hbase : Base r₀ h₀) (hx : (updates args).serial r₀ h₀ n = some x) :
    Net x := by
  induction n generalizing x with
  | zero =>
      obtain rfl := Option.some.inj hx
      refine ⟨fun p => (hbase.linked p).mono fun _ _ => trivial, fun _ p hp => ?_,
        fun _ _ hnone => (nomatch hnone), fun _ _ hnone => (nomatch hnone)⟩
      exact ⟨(hbase.root p hp).1.le, (hbase.root p hp).2⟩
  | succ n ih =>
      obtain ⟨z, hz, hnext⟩ := Option.bind_eq_some_iff.mp hx
      exact (ih hz).next hnext

theorem timely (hbase : Base r₀ h₀) : (updates args).Timely r₀ h₀ := fun n x s ctx hx hcall hdone =>
  ⟨_, _, (net_of_serial hbase hx).within hcall fun hop => by simp [done_iff.mpr hop] at hdone⟩

theorem root_kept (hbase : Base r₀ h₀) (hx : (updates args).serial r₀ h₀ n = some x)
    (hcall : x.call = some (s, ctx))
    (hop : ctx.op ≠ .init) (hle : n ≤ m) (hy : (updates args).serial r₀ h₀ m = some y)
    (htid : y.tid = x.tid) :
    (∀ s' ctx', y.call = some (s', ctx') → ctx'.op ≠ .init ∧ ctx'.root = ctx.root) ∧
      (y.call = none → y.root = ctx.root) := by
  induction m generalizing y with
  | zero =>
      obtain rfl := Nat.le_zero.mp hle
      obtain rfl := Option.some.inj (hx.symm.trans hy)
      refine ⟨fun s' ctx' hcall' => ?_, fun hnone => ?_⟩
      · obtain ⟨rfl, rfl⟩ := Prod.mk.inj (Option.some.inj (hcall.symm.trans hcall'))
        exact ⟨hop, rfl⟩
      · simp [hcall] at hnone
  | succ m ih =>
      rcases hle.eq_or_lt with rfl | hlt
      · obtain rfl := Option.some.inj (hx.symm.trans hy)
        refine ⟨fun s' ctx' hcall' => ?_, fun hnone => ?_⟩
        · obtain ⟨rfl, rfl⟩ := Prod.mk.inj (Option.some.inj (hcall.symm.trans hcall'))
          exact ⟨hop, rfl⟩
        · simp [hcall] at hnone
      · obtain ⟨z, hz, hnext⟩ := Option.bind_eq_some_iff.mp hy
        have hxz := serial_tid_le (Nat.le_of_lt_succ hlt) hx hz
        have hzy := serial_tid_le (Nat.le_succ m) hz hy
        obtain ⟨hroot, -⟩ := ih (Nat.le_of_lt_succ hlt) hz (by omega)
        rcases next_cases hnext with ⟨s₁, ctx₁, hcall₁, -, rfl⟩ |
          ⟨s₁, ctx₁, ctx', k, h', hcall₁, hdone, hexec, rfl⟩ |
          ⟨-, rfl⟩
        · exact ⟨fun _ _ hnone => (nomatch hnone), fun _ => (hroot s₁ ctx₁ hcall₁).2⟩
        · obtain ⟨hop₁, hroot₁⟩ := hroot s₁ ctx₁ hcall₁
          have hdone' : ctx₁.op ≠ .done := fun hop => by simp [done_iff.mpr hop] at hdone
          have hhandled := ((net_of_serial hbase hz).within hcall₁ hdone').ends hexec
          refine ⟨fun s₂ ctx₂ hcall₂ => ?_, fun hnone => (nomatch hnone)⟩
          obtain ⟨rfl, rfl⟩ := Prod.mk.inj (Option.some.inj hcall₂)
          exact ⟨hhandled.op, (hhandled.root hop₁).trans hroot₁⟩
        · simp only at htid hxz hzy
          omega

theorem init_ends (ctx : Context) {h : NodeHeap} {T : Tree} (hop : ctx.op = .init)
    (hr : Denotes (Ptr.Before t) h ctx.tPast T) :
    interface.Ends next t 0 ctx h (fun ctx' h' =>
      Denotes (Ptr.Before (t + 1)) h' ctx'.root (cowUpdate ctx.key ctx.val T 0)) := by
  have hhandle : interface.handle ctx = handleInit ctx := by simp only [interface, hop]
  apply Handlers.Ends.step (by simp [interface, hop])
  rw [hhandle, handleInit]
  simp only [Prog.wp_bind]
  apply Prog.wp_mono (enters (fun s _ => Nat.lt_succ_self s) T 0 { ctx with keyOfs := 0 } hr rfl)
  rintro ⟨tp, ctx'⟩ n' h' ⟨-, -, -, hfin⟩
  rw [Prog.wp_pure]
  apply (hfin (Nat.lt_succ_self 0) (fun _ _ _ => rfl) (some tp)).mono
  rintro ctx'' h'' ⟨hroot, hdenotes, -⟩
  rw [hroot]
  exact hdenotes

theorem serial_of_run {fuel : Nat} {r : Context × NodeHeap}
    (hx : (updates args).serial r₀ h₀ n = some x)
    (hcall : x.call = some (s, ctx)) (hrun : interface.run next x.tid fuel s ctx x.heap = some r) :
    ∃ m, n < m ∧ (updates args).serial r₀ h₀ m =
      some { x with call := none, root := r.1.root, heap := r.2 } := by
  induction fuel generalizing n x s ctx with
  | zero => simp [Handlers.run] at hrun
  | succ fuel ih =>
      rw [Handlers.run] at hrun
      split at hrun
      · rename_i hdone
        obtain rfl := Option.some.inj hrun
        exact ⟨n + 1, Nat.lt_succ_self n, (serial_succ hx).trans (next_done hcall hdone)⟩
      · rename_i hdone
        split at hrun
        · rename_i ctx' k h' hexec
          have hnext := (serial_succ hx).trans (next_call hcall (Bool.eq_false_iff.mpr hdone) hexec)
          obtain ⟨m, hlt, hm⟩ := ih hnext rfl hrun
          exact ⟨m, (Nat.lt_succ_self n).trans hlt, hm⟩
        · simp at hrun

def calls (args : Nat → Option Context) (t : Nat) : List (Nat × Nat) :=
  (List.range t).filterMap (fun i => (args (i + 1)).map (fun ctx => (ctx.key, ctx.val)))

theorem cowAll_calls_succ (T : Tree) : cowAll (calls args (t + 1)) T =
    (args (t + 1)).elim (cowAll (calls args t) T)
    (fun ctx => cowUpdate ctx.key ctx.val (cowAll (calls args t) T) 0) := by
  rw [calls, List.range_succ, List.filterMap_append, cowAll, List.foldl_append]
  cases hargs : args (t + 1) <;> simp [hargs, calls, cowAll]

/-- The serial run comes to the end of every update, with the tree that it makes. -/
theorem serial_ends (args : Nat → Option Context) {T : Tree} (hr : Denotes (Ptr.Before 1) h₀ r₀ T)
    (t : Nat) :
    ∃ m y, t ≤ m ∧ (updates args).serial r₀ h₀ m = some y ∧ y.tid = t ∧ y.call = none ∧
      Denotes (Ptr.Before (t + 1)) y.heap y.root (cowAll (calls args t) T) := by
  induction t with
  | zero => exact ⟨0, _, le_refl 0, rfl, rfl, rfl, hr⟩
  | succ t ih =>
      obtain ⟨m, x, hle, hx, rfl, hcall, hden⟩ := ih
      have hy := (serial_succ hx).trans (next_start hcall)
      rw [cowAll_calls_succ]
      cases hargs : args (x.tid + 1) with
      | none =>
          refine ⟨m + 1, _, Nat.succ_le_succ hle, hy, rfl, by simp [updates, hargs], ?_⟩
          exact hden.frame fun q hq => ⟨hq.succ, fun _ => rfl⟩
      | some ctx =>
          obtain ⟨fuel, r, hrun, hden'⟩ :=
            init_ends { ctx with op := .init, tPast := x.root } rfl hden
          obtain ⟨m', hlt, hm'⟩ :=
            serial_of_run hy (by simp only [updates, hargs, Option.map_some]) hrun
          exact ⟨m', _, by omega, hm', rfl, rfl, hden'⟩

theorem serial_goes {T : Tree} (hr : Denotes (Ptr.Before 1) h₀ r₀ T) (n : Nat) :
    ∃ x, (updates args).serial r₀ h₀ n = some x := by
  obtain ⟨m, y, hle, hy, -⟩ := serial_ends args hr n
  exact serial_le hle hy

end Serial

section Interleaved

variable {M M' : NodePtr → Prop} {args : Nat → Option Context} {r₀ : Option NodePtr}
    {h₀ h h' : NodeHeap}
  {n s t : Nat} {ctx ctx' : Context} {x : Moment NodeType Cell Context}
    {σ : State NodeType Cell Context}

def Made (σ : State NodeType Cell Context) (p : NodePtr) : Prop :=
  p.owner = 0 ∨ ∃ s ctx, σ.call p.owner = some (s, ctx) ∧ p.stage < s

/-- Updates in the midst of their calls, and the nodes that they have made. -/
structure Web (σ : State NodeType Cell Context) : Prop where
  linked : ∀ p, Linked (Made σ) σ.heap p
  placed : ∀ t s ctx, σ.call t = some (s, ctx) → Placed (Made σ) t s ctx σ.heap
  called : ∀ t s ctx, σ.call t = some (s, ctx) → ctx.op ≠ .init →
    ∃ p, ctx.root = some p ∧ p.owner = t ∧ p.stage = 0

theorem Placed.mono (hplaced : Placed M t s ctx h) (hM : ∀ q, M q → M' q) :
    Placed M' t s ctx h := by
  have htarget : ∀ {s p}, Target M t s p → Target M' t s p := fun ⟨hmade, howner, hstage⟩ =>
    ⟨hM _ hmade, howner, hstage⟩
  have hbeside : Beside M t s ctx → Beside M' t s ctx := fun ⟨q, p, hcur, hq, hs, hp, hpast⟩ =>
    ⟨q, p, hcur, hq, hs, hp, htarget hpast⟩
  cases hop : ctx.op <;> simp only [Placed, hop] at hplaced ⊢
  case init => exact ⟨hplaced.1, fun p hp => htarget (hplaced.2 p hp)⟩
  case fork => exact ⟨hbeside hplaced.1, hplaced.2⟩
  all_goals exact hbeside hplaced

theorem Placed.own (hplaced : Placed M t s ctx h) (hop : ctx.op = .fork) {q : NodePtr}
    (hq : ctx.tCur = some q) :
    q.owner = t := by
  simp only [Placed, hop] at hplaced
  obtain ⟨⟨q', p, hcur, howner, -⟩, -⟩ := hplaced
  exact Option.some.inj (hcur.symm.trans hq) ▸ howner

theorem Placed.past (hplaced : Placed M t s ctx h) (hop : ctx.op ≠ .init) (hdone : ctx.op ≠ .done) :
    ∃ p, ctx.tPast = some p ∧ M p ∧ p.owner < t ∧ p.stage + 1 ≤ s := by
  have hbeside : Beside M t s ctx → ∃ p, ctx.tPast = some p ∧ M p ∧ p.owner < t ∧
    p.stage + 1 ≤ s := by
    rintro ⟨q, p, -, -, rfl, hp, hmade, howner, hstage⟩
    exact ⟨p, hp, hmade, howner, Nat.succ_le_succ hstage⟩
  cases hop' : ctx.op <;> simp only [Placed, hop'] at hplaced
  case init => exact absurd hop' hop
  case done => exact absurd hop' hdone
  case fork => exact hbeside hplaced.1
  all_goals exact hbeside hplaced

theorem Handled.congr (hh : Handled M t s ctx ctx' h) (heq : ∀ l, l.1.owner = t → h' l = h l) :
    Handled M t s ctx ctx' h' where
  placed := hh.placed.congr fun hop q hq => heq (q, Field.chs) (hh.placed.own hop hq)
  own p hp := (hh.own p hp).congr (heq (p, Field.chs) hp)
  op := hh.op
  same := hh.same
  first := hh.first
  root := hh.root
  past := hh.past

theorem made_put (ctx' : Context) (h' : NodeHeap) (hcall : σ.call t = some (s, ctx)) :
    Made (σ.put t (s + 1) ctx' h') =
    fun p => Made σ p ∨ p.owner = t ∧ p.stage ≤ s := by
  funext p
  by_cases howner : p.owner = t
  · subst howner
    simp only [Made, State.put_self, hcall, Option.some.injEq, Prod.mk.injEq, eq_iff_iff, true_and]
    constructor
    · rintro (hzero | ⟨s', c, ⟨rfl, -⟩, hlt⟩)
      exacts [.inl (.inl hzero), .inr (Nat.le_of_lt_succ hlt)]
    · rintro ((hzero | ⟨s', c, ⟨rfl, -⟩, hlt⟩) | hle)
      exacts [.inl hzero, .inr ⟨_, _, ⟨rfl, rfl⟩, Nat.lt_succ_of_lt hlt⟩,
        .inr ⟨_, _, ⟨rfl, rfl⟩, Nat.lt_succ_of_le hle⟩]
  · simp [Made, State.put_of_ne _ _ _ _ howner, howner]

variable {T : Tree} (hbase : Base r₀ h₀) (hcoupled : Coupled (updates args) r₀ h₀ σ) (hweb : Web σ)
include hbase hcoupled hweb

theorem Web.begin (hnone : σ.call t = none) (hx : (updates args).serial r₀ h₀ n = some x)
    (htid : x.tid = t)
    (hcall : x.call = some (0, ctx)) (hop : ctx.op = .init)
    (hroot : ∀ p, ctx.tPast = some p → Made σ p ∧ p.owner < t ∧ p.stage = 0) :
    Coupled (updates args) r₀ h₀ (σ.put t 0 ctx σ.heap) ∧ Web (σ.put t 0 ctx σ.heap) := by
  have hmade : ∀ p, Made σ p → Made (σ.put t 0 ctx σ.heap) p := by
    rintro p (hzero | ⟨s, c, hcall', hlt⟩)
    · exact .inl hzero
    · refine .inr ⟨s, c, ?_, hlt⟩
      rw [State.put_of_ne _ _ _ _ fun heq => by simp [heq, hnone] at hcall', hcall']
  refine ⟨hcoupled.begin (timely hbase) hbase.empty hnone hx htid hcall,
    fun p => (hweb.linked p).mono hmade,
    fun t' s' c' hcall' => ?_, fun t' s' c' hcall' hop' => ?_⟩
  · by_cases heq : t' = t
    · subst heq
      rw [State.put_self] at hcall'
      obtain ⟨rfl, rfl⟩ := Prod.mk.inj (Option.some.inj hcall')
      simp only [Placed, hop]
      refine ⟨trivial, fun p hp => ?_⟩
      obtain ⟨hp, howner, hstage⟩ := hroot p hp
      exact ⟨hmade p hp, howner, hstage.le⟩
    · rw [State.put_of_ne _ _ _ _ heq] at hcall'
      exact (hweb.placed t' s' c' hcall').mono hmade
  · by_cases heq : t' = t
    · subst heq
      rw [State.put_self] at hcall'
      obtain ⟨rfl, rfl⟩ := Prod.mk.inj (Option.some.inj hcall')
      exact absurd hop hop'
    · rw [State.put_of_ne _ _ _ _ heq] at hcall'
      exact hweb.called t' s' c' hcall' hop'

/-- A call does what it does in the serial run if the children that it copies are there to stay. -/
theorem Web.step (hr : Denotes (Ptr.Before 1) h₀ r₀ T) (hcall : σ.call t = some (s, ctx))
    (hdone : ctx.op ≠ .done)
    (hgate : ∀ p, ctx.op ≠ .init → ctx.tPast = some p → Settled (updates args) σ (p, Field.chs)) :
    ∃ ctx' k h', (interface.handle ctx).exec t s 0 σ.heap = some (ctx', k, h') ∧
      Coupled (updates args) r₀ h₀ (σ.put t (s + 1) ctx' h') ∧ Web (σ.put t (s + 1) ctx' h') ∧
      Handled (Made (σ.put t (s + 1) ctx' h')) t s ctx ctx' h' := by
  have hplaced := hweb.placed t s ctx hcall
  obtain ⟨N, hN⟩ : ∃ N : NodePtr → Prop, N = fun p => Made σ p ∨ p.owner = t ∧ p.stage ≤ s :=
    ⟨_, rfl⟩
  have hmade : ∀ p, Made σ p → N p := fun p hp => hN ▸ .inl hp
  let past := if ctx.op = .init then none else ctx.tPast
  obtain ⟨ctx', k, h', hexec, hcoupled', hother, g, hhandled, hown⟩ := hcoupled.step (timely hbase)
    (serial_goes hr) hcall (Bool.eq_false_iff.mpr fun hd => hdone (done_iff.mp hd))
      (R := Reads N t past)
    (Q := fun ctx' _ h' => Handled N t s ctx ctx' h')
    (fun n x hx htid hxcall hsame => by
      refine handle_within (fun p howner hstage => hN ▸ .inr ⟨howner, hstage.le⟩)
        (fun p hp => ?_) hdone
        ((hplaced.mono hmade).congr fun hop q hq => hsame _ (.inl (hplaced.own hop hq)))
        (fun hop => if_neg hop) fun p hop hp => ?_
      · exact ((hweb.linked p).mono hmade).congr (hsame _ (.inl hp))
      · obtain ⟨q, hq, hmade', howner, -⟩ := hplaced.past hop hdone
        obtain rfl := Option.some.inj (hp.symm.trans hq)
        exact ((hweb.linked p).mono hmade).congr
          (hsame _ (.inr ⟨howner, hmade p hmade', fun _ => (if_neg hop).trans hp⟩)))
    (fun l hl => .inl hl.1)
    (fun l hl => by
      refine hl.imp_right fun ⟨hlt, hl', hchs⟩ => ⟨hlt, ?_⟩
      rw [hN] at hl'
      rcases hl' with hl' | ⟨howner, -⟩
      · cases hf : l.2 with
        | chs =>
            have hpast := hchs hf
            have hop : ctx.op ≠ .init := fun hop => by simp [past, hop] at hpast
            have heq : l = (l.1, Field.chs) := by rw [← hf]
            exact heq ▸ hgate l.1 hop ((if_neg hop).symm.trans hpast)
        | head | val =>
            refine hl'.imp_right fun ⟨s', c, hcall', hlt'⟩ => ⟨s', c, hcall', .inl ?_⟩
            simpa [updates, delay, hf] using hlt'
      · exact absurd howner hlt.ne)
  have hhandled := hhandled.congr hown
  rw [hN, ← made_put ctx' h' hcall] at hhandled
  have hmade' : ∀ p, Made σ p → Made (σ.put t (s + 1) ctx' h') p := fun p hp => by
    rw [made_put ctx' h' hcall]
    exact .inl hp
  refine ⟨ctx', k, h', hexec, hcoupled',
    ⟨fun p => ?_, fun t' s' c' hcall' => ?_, fun t' s' c' hcall' hop' => ?_⟩,
    hhandled⟩
  · by_cases howner : p.owner = t
    · exact hhandled.own p howner
    · exact ((hweb.linked p).mono hmade').congr (hother (p, Field.chs) howner)
  · by_cases heq : t' = t
    · subst heq
      rw [State.put_self] at hcall'
      obtain ⟨rfl, rfl⟩ := Prod.mk.inj (Option.some.inj hcall')
      exact hhandled.placed
    · rw [State.put_of_ne _ _ _ _ heq] at hcall'
      have hplaced' := hweb.placed t' s' c' hcall'
      exact (hplaced'.mono hmade').congr fun hop q hq => hother (q, Field.chs)
        ((hplaced'.own hop hq).trans_ne heq)
  · by_cases heq : t' = t
    · subst heq
      rw [State.put_self] at hcall'
      obtain ⟨rfl, rfl⟩ := Prod.mk.inj (Option.some.inj hcall')
      by_cases hop : ctx.op = .init
      · exact hhandled.first hop
      · rw [hhandled.root hop]
        exact hweb.called t' s ctx hcall hop
    · rw [State.put_of_ne _ _ _ _ heq] at hcall'
      exact hweb.called t' s' c' hcall' hop'

end Interleaved

end Contrees.Trees.Art
