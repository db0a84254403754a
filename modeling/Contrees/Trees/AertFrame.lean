import Contrees.Library.Footprint
import Contrees.Trees.AertHandlers

namespace Contrees.Trees.Aert.Cow

open Library Library.Memory Library.Slots Conctrl

variable {t s n : Nat} {h h' : NodeHeap} {ctx : Context} {p q u : Address} {c : NodePtr}
  {ps : List (Option NodePtr)}

section Members

theorem mem_of_insertch {hd : Head} {i : Nat} {x : Option NodePtr}
    (hc : some c ∈ Aert.insertch hd ps i x) :
    some c = x ∨ some c ∈ ps := by
  unfold Aert.insertch at hc
  split at hc
  · exact List.eq_or_mem_of_mem_insertIdx hc
  · exact List.eq_or_mem_of_mem_insertIdx hc
  · exact List.eq_or_mem_of_mem_insertIdx hc
  · exact some_mem_put hc
  · exact .inr hc

theorem mem_of_findch {hd : Head} {pkey : Nat} (hc : Aert.findch hd ps pkey = some c) :
    some c ∈ ps := by
  unfold Aert.findch at hc
  split at hc
  · exact some_mem_of_getD hc
  · exact nomatch hc

end Members

section Marks

def Offspring (t : Nat) (h : NodeHeap) (q : Address) : Prop :=
  ∀ ps c, h (q, Field.chs) = some ps → some c ∈ ps → c.addr.owner = t

def Upper (t : Nat) (h : NodeHeap) (u : Address) : Prop :=
  ∀ ps p, h (u, Field.chs) = some ps → some (plain p) ∈ ps → p.owner = t ∧ p ≠ u

def Inside (t s : Nat) (ctx : Context) (h : NodeHeap) : Prop :=
  match ctx.op with
  | .init | .done => True
  | .search | .insert => ∀ q, ctx.tCur = some q → q.addr.owner = t ∧ q.addr.stage < s
  | .fork => ∀ q, ctx.tCur = some q → q.addr.owner = t ∧ Offspring t h q.addr
  | .split => ∀ q, ctx.tCur = some q → q.addr.owner = t ∧ Upper t h q.addr

theorem Offspring.congr (hoff : Offspring t h q) (hsame : h' (q, Field.chs) = h (q, Field.chs)) :
    Offspring t h' q := fun ps c hps => hoff ps c (hsame ▸ hps)

theorem Upper.mono (hup : Upper t h u)
    (hold : ∀ ps, h' (u, Field.chs) = some ps → h (u, Field.chs) = some ps) :
    Upper t h' u := fun ps p hps => hup ps p (hold ps hps)

theorem Upper.congr (hup : Upper t h u) (hsame : h' (u, Field.chs) = h (u, Field.chs)) :
    Upper t h' u :=
  hup.mono fun _ hps => hsame ▸ hps

theorem Inside.congr (hin : Inside t s ctx h) (hsame : ∀ l, l.1.owner = t → h' l = h l) :
    Inside t s ctx h' := by
  cases hop : ctx.op <;> simp only [Inside, hop] at hin ⊢
  case search | insert => exact hin
  case fork =>
      exact fun q hq => (hin q hq).imp_right (·.congr (hsame (q.addr, Field.chs) (hin q hq).1))
  case split =>
      exact fun q hq => (hin q hq).imp_right (·.congr (hsame (q.addr, Field.chs) (hin q hq).1))

end Marks

section Nodes

theorem inside_deref {o : Option NodePtr} {Q : Address → Nat → NodeHeap → Prop} :
    (deref o).inside t s n h Q ↔ ∀ p, o = some (plain p) → Q p n h := by
  rcases o with - | ⟨p, - | lo⟩ <;> simp [deref, plain]

theorem of_extractPtr {o : Option NodePtr} (ho : extractPtr o = some (plain p)) :
    ∃ q, o = some q ∧ q.addr = p := by
  obtain ⟨q, hq, heq⟩ := Option.map_eq_some_iff.mp ho
  exact ⟨q, hq, congrArg NodePtr.addr heq⟩

theorem allocLeaf_inside {ver pfxOfs key val : Nat} {Q : NodePtr → Nat → NodeHeap → Prop}
    (hQ : ∀ q n' h', q.addr.owner = t → q.addr.stage = s →
      (∀ r ps, h' (r, Field.chs) = some ps → h (r, Field.chs) = some ps) → Q q n' h') :
    (allocLeaf ver pfxOfs key val).inside t s n h Q := by
  have hplace : ∀ (q : Address) hd r ps, h.place q (leafCells ver hd val) (r, Field.chs) = some ps →
      h (r, Field.chs) = some ps := by
    intro q hd r ps hps
    by_cases heq : r = q
    · rw [heq, Heap.place_self] at hps
      exact nomatch hps
    · rwa [h.place_of_ne _ _ heq] at hps
  unfold allocLeaf
  split
  all_goals
    simp only [Prog.inside_bind, Prog.inside_new, Prog.inside_pure]
    exact hQ _ _ _ rfl rfl (hplace _ _)

theorem nodeCopy_inside {ver : Nat} {Q : Address → Nat → NodeHeap → Prop}
    (hQ : ∀ q n' h', q.owner = t → q.stage = s → Q q n' h') :
    (nodeCopy p ver).inside t s n h Q := by
  simp only [nodeCopy, Prog.inside_bind, Prog.inside_load]
  intro hd _
  split
  · simp only [Prog.inside_bind, Prog.inside_load, Prog.inside_new]
    exact fun val _ => hQ _ _ _ rfl rfl
  · rw [Prog.inside_new]
    exact hQ _ _ _ rfl rfl

theorem copych_inside (hq : q.owner = t) {Q : Unit → Nat → NodeHeap → Prop} (hQ : ∀ h', Q () n h') :
    (copych q p).inside t s n h Q := by
  simp only [copych, Prog.inside_bind, Prog.inside_load]
  intro new _ old _
  split
  · exact hQ h
  · simp only [Prog.inside_bind, Prog.inside_load, Prog.inside_store]
    exact fun ps _ => ⟨hq, fun _ => hQ _⟩

theorem append_inside (hq : q.owner = t) {pkey : Nat} {Q : Nat → Nat → NodeHeap → Prop}
    (hQ : ∀ i h', (∀ r, h' (r, Field.chs) = h (r, Field.chs)) → Q i n h') :
    (append q pkey).inside t s n h Q := by
  simp only [append, Prog.inside_bind, Prog.inside_load, Prog.inside_store, Prog.inside_pure]
  exact fun hd _ => ⟨hq, fun _ => hQ _ _ fun r => h.set_of_ne _ (by simp)⟩

/-- The children of `q` are those before and `c`, all other nodes keep theirs. -/
def Receives (h h' : NodeHeap) (q : Address) (c : NodePtr) : Prop :=
  (∀ r, r ≠ q → h' (r, Field.chs) = h (r, Field.chs)) ∧
    ∀ ps' c', h' (q, Field.chs) = some ps' → some c' ∈ ps' →
      c' = c ∨ ∃ ps, h (q, Field.chs) = some ps ∧ some c' ∈ ps

theorem Receives.set {ps' : List (Option NodePtr)} (hps : h (q, Field.chs) = some ps)
    (hmem : ∀ c', some c' ∈ ps' → some c' = some c ∨ some c' ∈ ps) :
    Receives h (h.set q Field.chs ps') q c := by
  refine ⟨fun r hr => h.set_of_ptr_ne _ hr, fun qs c' hqs hc => ?_⟩
  rw [Heap.set_self] at hqs
  obtain rfl := Option.some.inj hqs
  exact (hmem c' hc).imp Option.some.inj fun hold => ⟨ps, hps, hold⟩

theorem storeCh_inside (hq : q.owner = t) {i : Nat} {Q : Unit → Nat → NodeHeap → Prop}
    (hQ : ∀ h', Receives h h' q c → Q () n h') : (storeCh q i c).inside t s n h Q := by
  simp only [storeCh, Prog.inside_bind, Prog.inside_load, Prog.inside_store]
  exact fun ps hps => ⟨hq, fun _ => hQ _ (.set hps fun _ => some_mem_put)⟩

theorem insertch_inside (hq : q.owner = t) {i : Nat} {Q : Unit → Nat → NodeHeap → Prop}
    (hQ : ∀ h', Receives h h' q c → Q () n h') : (insertch q i c).inside t s n h Q := by
  simp only [insertch, Prog.inside_bind, Prog.inside_load, Prog.inside_store]
  exact fun hd _ ps hps => ⟨hq, fun _ => hQ _ (.set hps fun _ => mem_of_insertch)⟩

theorem Receives.offspring (hrec : Receives h h' q c) (hc : c.addr.owner = t) {r : Address}
    (hr : Offspring t h r) : Offspring t h' r := by
  by_cases heq : r = q
  · subst heq
    intro ps' c' hps' hc'
    rcases hrec.2 ps' c' hps' hc' with rfl | ⟨ps, hps, hold⟩
    · exact hc
    · exact hr ps c' hps hold
  · exact hr.congr (hrec.1 r heq)

theorem Receives.upper (hrec : Receives h h' q c)
    (hc : q = u → ∀ p, c = plain p → p.owner = t ∧ p ≠ u)
    (hup : Upper t h u) : Upper t h' u := by
  by_cases heq : u = q
  · intro ps' p hps' hp
    rw [heq] at hps'
    rcases hrec.2 ps' _ hps' hp with hnew | ⟨ps, hps, hold⟩
    · exact hc heq.symm p hnew.symm
    · exact hup ps p (heq ▸ hps) hold
  · exact hup.congr (hrec.1 u heq)

end Nodes

section Halves

theorem upperStep_inside {old : Head} {ver pkey idx : Nat} (hu : u.owner = t)
    (hI : Upper t h u ∧ u.serial < n) :
    (upperStep u old ver pkey idx).inside t s n h
      (fun _ n' h' => Upper t h' u ∧ u.serial < n') := by
  unfold upperStep
  split
  · simp only [Prog.inside_bind]
    apply append_inside hu
    intro i h₁ hsame
    simp only [Prog.inside_new]
    set new : Address :=
      ⟨t, s, n, (newNodeh (chSz old pkey idx) (old.pfxOfs + old.pfxLen + 4) 0 0).type⟩
    have hne : new ≠ u := fun heq => hI.2.ne (heq ▸ rfl)
    apply storeCh_inside hu
    intro h₂ hrec
    have hup : Upper t h₁ u := hI.1.congr (hsame u)
    refine ⟨hrec.upper (fun _ p hp => ?_) (hup.congr (h₁.place_of_ne _ _ hne.symm)),
      hI.2.trans (Nat.lt_succ_self n)⟩
    obtain rfl : new = p := congrArg NodePtr.addr hp
    exact ⟨rfl, hne⟩
  · exact hI

theorem createUpperHalf_inside {ver pkey : Nat} {Q : Address → Nat → NodeHeap → Prop}
    (hQ : ∀ u n' h', u.owner = t → u.stage = s → Upper t h' u → Q u n' h') :
    (createUpperHalf p ver pkey).inside t s n h Q := by
  simp only [createUpperHalf, Prog.inside_bind, Prog.inside_load, Prog.inside_new, Prog.inside_pure]
  intro hd _
  refine Prog.inside_mono (Prog.inside_forM _ (I := fun n' h' => Upper t h' _ ∧ _ < n')
    (fun idx n' h' hI => upperStep_inside rfl hI) ⟨fun ps p hps hp => ?_, Nat.lt_succ_self n⟩)
    fun _ n' h' hI => hQ _ _ _ rfl rfl hI.1
  rw [Heap.place_self] at hps
  obtain rfl := Option.some.inj hps
  simp at hp

/-- The pointer to the upper half, if it is one that `deref` takes. -/
def Split (t : Nat) (cur : Option NodePtr) (h : NodeHeap) : Prop :=
  ∀ u, cur = some (plain u) → u.owner = t ∧ Upper t h u

theorem createLowerHalf_inside {cur old : Option NodePtr} {pkey : Nat} (hcur : Split t cur h) :
    (createLowerHalf cur old pkey).inside t s n h (fun _ _ h' => Split t cur h') := by
  simp only [createLowerHalf, Prog.inside_bind, inside_deref, Prog.inside_check, Prog.inside_load]
  rintro u rfl c hc hd _ ps hps
  obtain ⟨hu, hup⟩ := hcur u rfl
  have hsplit : ∀ h', Upper t h' u → Split t (some (plain u)) h' := by
    intro h' hup' u' hu'
    obtain rfl : u = u' := congrArg NodePtr.addr (Option.some.inj hu')
    exact ⟨hu, hup'⟩
  split
  · simp only [Prog.inside_bind]
    apply append_inside hu
    intro i h₁ hsame
    apply insertch_inside hu
    exact fun h₂ hrec =>
      hsplit h₂ (hrec.upper (fun _ p hp => by simp [embedPtr, plain] at hp) (hup.congr (hsame u)))
  · rename_i low hlow
    simp only [Prog.inside_bind, inside_deref]
    intro l hl
    obtain rfl := Option.some.inj hl
    obtain ⟨howner, hne⟩ := hup ps l hps (mem_of_findch hlow)
    apply append_inside howner
    intro i h₁ hsame
    apply insertch_inside howner
    exact fun h₂ hrec => hsplit h₂ (hrec.upper (fun heq => absurd heq hne) (hup.congr (hsame u)))

end Halves

section Handlers

theorem nodeForkCow_inside (pmlen : Nat) {Q : Address × Context → Nat → NodeHeap → Prop}
    (hQ : ∀ q ctx' n' h', q.owner = t → q.stage = s → Offspring t h' q → Q (q, ctx') n' h') :
    (nodeForkCow ctx p pmlen).inside t s n h Q := by
  simp only [nodeForkCow, Prog.inside_bind, Prog.inside_new]
  apply nodeCopy_inside
  intro ch n₁ h₁ hch _
  simp only [Prog.inside_load, Prog.inside_store]
  intro hd _
  refine ⟨hch, fun _ past _ => ?_⟩
  apply allocLeaf_inside
  intro leaf n₂ h₂ hleaf _ _
  simp only [Prog.inside_pure]
  refine ⟨trivial, fun _ => ⟨trivial, fun _ => hQ _ _ _ _ rfl rfl fun ps c hps hc => ?_⟩⟩
  rw [Heap.set_self] at hps
  obtain rfl := Option.some.inj hps
  rcases mem_pairUp.mp hc with heq | heq
  · exact Option.some.inj heq ▸ hch
  · exact Option.some.inj heq ▸ hleaf

theorem nodehForkCow_inside (lo : Nat) {Q : Address × Context → Nat → NodeHeap → Prop}
    (hQ : ∀ q ctx' n' h', q.owner = t → q.stage = s → Q (q, ctx') n' h') :
    (nodehForkCow ctx p lo).inside t s n h Q := by
  simp only [nodehForkCow, Prog.inside_bind, Prog.inside_new]
  apply allocLeaf_inside
  intro leaf n₁ h₁ _ _ _
  simp only [Prog.inside_store, Prog.inside_pure]
  exact ⟨trivial, fun _ => ⟨trivial, fun _ => hQ _ _ _ _ rfl rfl⟩⟩

theorem updateNode_inside {Q : Address × Context → Nat → NodeHeap → Prop}
    (hQ : ∀ q ctx' n' h', q.owner = t → q.stage = s →
      (∀ root tag, Inside t (s + 1) { ctx' with root := root, tCur := some ⟨q, tag⟩ } h') →
      Q (q, ctx') n' h') :
    (updateNode ctx p).inside t s n h Q := by
  simp only [updateNode, Prog.inside_bind, Prog.inside_load]
  intro hd _
  split
  · simp only [Prog.inside_bind]
    apply nodeForkCow_inside
    intro q ctx' n' h' hq hstage hoff
    exact hQ _ _ _ _ hq hstage fun _ _ q' hq' => Option.some.inj hq' ▸ ⟨hq, hoff⟩
  · split
    · simp only [leafUpdate, Prog.inside_bind]
      apply nodeCopy_inside
      intro q n' h' hq hstage
      simp only [Prog.inside_store, Prog.inside_pure]
      exact ⟨hq, fun _ => hQ _ _ _ _ hq hstage fun _ _ => trivial⟩
    · split
      · simp only [Prog.inside_bind]
        apply nodeCopy_inside
        intro q n' h' hq hstage
        exact hQ _ _ _ _ hq hstage fun _ _ q' hq' => Option.some.inj hq' ▸ ⟨hq,
          Nat.lt_succ_of_le hstage.le⟩
      · split
        · simp only [Prog.inside_bind]
          apply createUpperHalf_inside
          intro u n' h' hu hstage hup
          exact hQ _ _ _ _ hu hstage fun _ _ q' hq' => Option.some.inj hq' ▸ ⟨hu, hup⟩
        · simp only [Prog.inside_bind, Prog.inside_new, Prog.inside_pure]
          exact hQ _ _ _ _ rfl rfl fun _ _ q' hq' => Option.some.inj hq' ▸ ⟨rfl, Nat.lt_succ_self s⟩

theorem updateCow_inside {Q : NodePtr × Context → Nat → NodeHeap → Prop}
    (hQ : ∀ q ctx' n' h', q.addr.owner = t → q.addr.stage = s →
      (∀ root, Inside t (s + 1) { ctx' with root := root, tCur := some q } h') →
      Q (q, ctx') n' h') :
    (updateCow ctx).inside t s n h Q := by
  unfold updateCow
  split
  · simp only [Prog.inside_bind]
    apply allocLeaf_inside
    exact fun q n' h' hq hstage _ => hQ _ _ _ _ hq hstage fun _ => trivial
  · simp only [Prog.inside_bind]
    apply updateNode_inside
    exact fun q ctx' n' h' hq hstage hin => hQ _ _ _ _ hq hstage fun root => hin root none
  · rename_i past lo _
    simp only [Prog.inside_bind, Prog.inside_load]
    intro hd _
    split
    · simp only [Prog.inside_bind]
      apply nodehForkCow_inside
      exact fun q ctx' n' h' hq hstage => hQ _ _ _ _ hq hstage fun _ => trivial
    · simp only [Prog.inside_bind]
      apply updateNode_inside
      exact fun q ctx' n' h' hq hstage hin => hQ _ _ _ _ hq hstage fun root => hin root _

theorem Inside.receives (hin : Inside t s ctx h) (hrec : Receives h h' q c) (hc : c.addr.owner = t)
    (hcur : ∀ q', ctx.tCur = some q' → q'.addr ≠ q) : Inside t s ctx h' := by
  cases hop : ctx.op <;> simp only [Inside, hop] at hin ⊢
  case search | insert => exact hin
  case fork => exact fun q' hq' => (hin q' hq').imp_right (hrec.offspring hc)
  case split => exact fun q' hq' => (hin q' hq').imp_right (·.congr (hrec.1 _ (hcur q' hq')))

theorem handleSplit_inside (hcur : Split t ctx.tCur h) :
    (handleSplit ctx).inside t s n h (fun ctx' _ h' => Inside t (s + 1) ctx' h') := by
  simp only [handleSplit, Prog.inside_bind, inside_deref, Prog.inside_load]
  intro past _ hd _ ps _
  refine Prog.inside_mono (Prog.inside_forM (I := fun _ h' => Split t ctx.tCur h') _
    (fun e n' h' hcur' => createLowerHalf_inside hcur') hcur) fun _ n₁ h₁ hcur₁ => ?_
  apply allocLeaf_inside
  intro leaf n₂ h₂ _ _ hold
  refine Prog.inside_mono (createLowerHalf_inside fun u hu => ?_) fun _ _ _ _ => trivial
  exact (hcur₁ u hu).imp_right (·.mono (hold u))

theorem handle_inside (hin : Inside t s ctx h) :
    (handlers.handle ctx).inside t s n h (fun ctx' _ h' => Inside t (s + 1) ctx' h') := by
  cases hop : ctx.op <;> simp only [Inside, hop] at hin <;> simp only [handlers, hop]
  case init =>
      simp only [handleInit, Prog.inside_bind, Prog.inside_pure]
      exact updateCow_inside fun q ctx' n' h' _ _ hin' => hin' _
  case search =>
      simp only [handleSearch, Prog.inside_bind, inside_deref, Prog.inside_load]
      intro q' hext p _
      obtain ⟨q, hq, rfl⟩ := of_extractPtr hext
      obtain ⟨howner, hstage⟩ := hin q hq
      apply copych_inside howner
      intro h₁ ps _
      apply updateCow_inside
      intro c next n₂ h₂ hc hcstage hin'
      apply storeCh_inside howner
      intro h₃ hrec
      refine (hin' next.root).receives hrec hc fun c' hc' heq => ?_
      obtain rfl := Option.some.inj hc'
      exact hstage.ne (heq ▸ hcstage)
  case insert =>
      simp only [handleInsert, Prog.inside_bind, inside_deref, Prog.inside_load, Prog.inside_store]
      intro q' hext p _ new _ old _ ps _
      obtain ⟨q, hq, rfl⟩ := of_extractPtr hext
      have howner := (hin q hq).1
      refine ⟨howner, fun _ => ?_⟩
      split
      all_goals
        simp only [Prog.inside_bind]
        apply allocLeaf_inside
        intro leaf n₁ h₁ _ _ _
        apply storeCh_inside howner
        exact fun _ _ => trivial
  case fork =>
      simp only [handleFork, Prog.inside_bind, inside_deref, Prog.inside_load]
      intro q' hext ps hps c' hext' p _
      obtain ⟨q, hq, rfl⟩ := of_extractPtr hext
      obtain ⟨c, hc, rfl⟩ := of_extractPtr hext'
      apply copych_inside ((hin q hq).2 ps c hps (some_mem_of_getD hc))
      exact fun _ => trivial
  case split => exact handleSplit_inside fun u hu => hin _ hu
  case done => simp only [Prog.inside_fault]

end Handlers

end Contrees.Trees.Aert.Cow
