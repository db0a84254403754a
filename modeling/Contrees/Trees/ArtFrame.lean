import Contrees.Trees.ArtFootprint

namespace Contrees.Trees.Art

open Library Library.Memory Library.Slots Conctrl

variable {t s n : Nat} {h h' : NodeHeap} {ctx : Context} {p q : NodePtr}

def Offspring (t : Nat) (h : NodeHeap) (q : NodePtr) : Prop :=
  ∀ ps c, h (q, Field.chs) = some ps → some c ∈ ps → c.owner = t

/-- The next call of the transaction writes its own nodes. -/
def Inside (t : Nat) (ctx : Context) (h : NodeHeap) : Prop :=
  match ctx.op with
  | .init | .done => True
  | .search | .insert => ∀ q, ctx.tCur = some q → q.owner = t
  | .fork => ∀ q, ctx.tCur = some q → q.owner = t ∧ Offspring t h q

theorem Inside.mono (hin : Inside t ctx h) (hh : ∀ q, Offspring t h q → Offspring t h' q) :
    Inside t ctx h' := by
  cases hop : ctx.op <;> simp only [Inside, hop] at hin ⊢
  case fork => exact fun q hq => (hin q hq).imp_right (hh q)
  all_goals exact hin

theorem Inside.congr (hin : Inside t ctx h) (hsame : ∀ l, l.1.owner = t → h' l = h l) :
    Inside t ctx h' := by
  cases hop : ctx.op <;> simp only [Inside, hop] at hin ⊢
  case search | insert => exact hin
  case fork =>
      refine fun q hq => (hin q hq).imp_right fun hoff ps c hps => hoff ps c ?_
      exact (hsame (q, Field.chs) (hin q hq).1) ▸ hps

theorem allocLeaf_inside {ver pfxOfs key val : Nat} {Q : NodePtr → Nat → NodeHeap → Prop}
    (hQ : ∀ q n' h', q.owner = t → Q q n' h') :
    (allocLeaf ver pfxOfs key val).inside t s n h Q := by
  simp only [allocLeaf, Prog.inside_new]
  exact hQ _ _ _ rfl

theorem nodeCopy_inside {ver : Nat} {Q : NodePtr → Nat → NodeHeap → Prop}
    (hQ : ∀ q n' h', q.owner = t → Q q n' h') : (nodeCopy p ver).inside t s n h Q := by
  simp only [nodeCopy, Prog.inside_bind, Prog.inside_load]
  intro hd _
  split
  · simp only [Prog.inside_bind, Prog.inside_load, Prog.inside_new]
    exact fun val _ => hQ _ _ _ rfl
  · rw [Prog.inside_new]
    exact hQ _ _ _ rfl

theorem copych_inside (hq : q.owner = t) {Q : Unit → Nat → NodeHeap → Prop} (hQ : ∀ h', Q () n h') :
    (copych q p).inside t s n h Q := by
  simp only [copych, Prog.inside_bind, Prog.inside_load]
  intro hd _
  split
  · exact hQ h
  · simp only [Prog.inside_bind, Prog.inside_load, Prog.inside_store]
    exact fun ps _ => ⟨hq, fun _ => hQ _⟩

theorem storeCh_inside (hq : q.owner = t) (hp : p.owner = t) {idx : Nat}
    {Q : Unit → Nat → NodeHeap → Prop}
    (hQ : ∀ h', (∀ r, Offspring t h r → Offspring t h' r) → Q () n h') :
    (storeCh q idx p).inside t s n h Q := by
  simp only [storeCh, Prog.inside_bind, Prog.inside_load, Prog.inside_store]
  intro hd _ ps hps
  refine ⟨hq, fun _ => hQ _ fun r hr qs c hqs hc => ?_⟩
  by_cases heq : r = q
  · subst heq
    rw [Heap.set_self] at hqs
    obtain rfl := Option.some.inj hqs
    rcases some_mem_put hc with hnew | hold
    · exact Option.some.inj hnew ▸ hp
    · exact hr ps c hps hold
  · rw [h.set_of_ptr_ne _ heq] at hqs
    exact hr qs c hqs hc

theorem nodeForkCow_inside (pmlen : Nat) {Q : NodePtr × Context → Nat → NodeHeap → Prop}
    (hQ : ∀ q ctx' n' h', q.owner = t → Offspring t h' q → Q (q, ctx') n' h') :
    (nodeForkCow ctx p pmlen).inside t s n h Q := by
  simp only [nodeForkCow, Prog.inside_bind]
  apply nodeCopy_inside
  intro ch n₁ h₁ hch
  simp only [Prog.inside_load, Prog.inside_store]
  intro hd _
  refine ⟨hch, fun _ past _ => ?_⟩
  apply allocLeaf_inside
  intro leaf n₂ h₂ hleaf
  simp only [Prog.inside_new, Prog.inside_pure]
  refine hQ _ _ _ _ rfl fun ps c hps hc => ?_
  rw [Heap.place_self] at hps
  obtain rfl := Option.some.inj hps
  rcases mem_pairUp.mp hc with heq | heq
  · exact Option.some.inj heq ▸ hch
  · exact Option.some.inj heq ▸ hleaf

theorem updateCow_inside {Q : NodePtr × Context → Nat → NodeHeap → Prop}
    (hQ : ∀ q ctx' n' h', q.owner = t →
      (∀ root, Inside t { ctx' with root := root, tCur := some q } h') → Q (q, ctx') n' h') :
    (updateCow ctx).inside t s n h Q := by
  unfold updateCow
  cases ctx.tPast with
  | none =>
      simp only [Prog.inside_bind]
      apply allocLeaf_inside
      exact fun q n' h' hq => hQ _ _ _ _ hq fun _ => trivial
  | some p =>
      simp only [Prog.inside_bind, Prog.inside_load]
      intro hd _
      split
      · simp only [Prog.inside_bind]
        apply nodeForkCow_inside
        exact fun q ctx' n' h' hq hown => hQ _ _ _ _ hq fun _ q' hq' => Option.some.inj hq' ▸ ⟨hq,
          hown⟩
      · split
        · simp only [leafUpdate, Prog.inside_bind]
          apply nodeCopy_inside
          intro q n' h' hq
          simp only [Prog.inside_store, Prog.inside_pure]
          exact ⟨hq, fun _ => hQ _ _ _ _ hq fun _ => trivial⟩
        · split
          · simp only [Prog.inside_bind]
            apply nodeCopy_inside
            exact fun q n' h' hq => hQ _ _ _ _ hq fun _ q' hq' => Option.some.inj hq' ▸ hq
          · simp only [Prog.inside_bind, Prog.inside_new, Prog.inside_pure]
            exact hQ _ _ _ _ rfl fun _ q' hq' => Option.some.inj hq' ▸ rfl

theorem handle_inside (hin : Inside t ctx h) :
    (interface.handle ctx).inside t s n h (fun ctx' _ h' => Inside t ctx' h') := by
  cases hop : ctx.op <;> simp only [Inside, hop] at hin <;> simp only [interface, hop]
  case init =>
      simp only [handleInit, Prog.inside_bind, Prog.inside_pure]
      exact updateCow_inside fun q ctx' n' h' _ hin' => hin' _
  case search =>
      simp only [handleSearch, Prog.inside_bind, Prog.inside_check]
      intro q hq p _
      apply copych_inside (hin q hq)
      intro h₁
      simp only [Prog.inside_load]
      intro past _ ps _
      apply updateCow_inside
      intro q' ctx' n₁ h₂ hq' hin'
      apply storeCh_inside (hin q hq) hq'
      exact fun h₃ hkeeps => (hin' ctx'.root).mono hkeeps
  case insert =>
      simp only [handleInsert, Prog.inside_bind, Prog.inside_check, Prog.inside_load,
        Prog.inside_store]
      intro q hq p _ new _ old _ ps _
      refine ⟨hin q hq, fun _ => ?_⟩
      apply allocLeaf_inside
      intro leaf n₁ h₁ hleaf
      apply storeCh_inside (hin q hq) hleaf
      exact fun _ _ => trivial
  case fork =>
      simp only [handleFork, Prog.inside_bind, Prog.inside_check, Prog.inside_load]
      intro q hq p _ ps hps c hc
      apply copych_inside ((hin q hq).2 ps c hps (some_mem_of_getD hc))
      exact fun _ => trivial
  case done => simp only [Prog.inside_fault]

end Contrees.Trees.Art
