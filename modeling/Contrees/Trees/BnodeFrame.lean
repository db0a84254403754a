import Contrees.Library.Footprint
import Contrees.Trees.Betree
import Contrees.Trees.Btree

namespace Contrees.Trees.Bnode

open Library Library.Memory Library.SearchTree Conctrl

variable {ι : Type} [DecidableEq ι] {K : Kind ι} {t s n ver key val : Nat} {h : NodeHeap ι}
  {p q l r : NodePtr ι}

section Nodes

variable {Q : Unit → Nat → NodeHeap ι → Prop}

theorem copych_inside (hq : q.owner = t) (hQ : ∀ h', Q () n h') :
    (copych q p).inside t s n h Q := by
  simp only [copych, Prog.inside_bind, Prog.inside_load, Prog.inside_store]
  exact fun ps _ => ⟨hq, fun _ => hQ _⟩

theorem copychSplit_inside (hl : l.owner = t) (hr : r.owner = t) (hQ : ∀ h', Q () n h') :
    (copychSplit l r p).inside t s n h Q := by
  simp only [copychSplit, Prog.inside_bind, Prog.inside_load, Prog.inside_store]
  exact fun ps _ => ⟨hl, fun _ => ⟨hr, fun _ => hQ _⟩⟩

theorem setChild_inside (hq : q.owner = t) {i : Nat} {c : NodePtr ι} (hQ : ∀ h', Q () n h') :
    (setChild q i c).inside t s n h Q := by
  simp only [setChild, Prog.inside_bind, Prog.inside_load, Prog.inside_check, Prog.inside_store]
  exact fun ps _ _ _ => ⟨hq, fun _ => hQ _⟩

theorem insertChild_inside (hq : q.owner = t) {i : Nat}
    (hQ : ∀ h', (∀ ps, h' (q, Field.chs) = some ps → ps[i]? = some l ∧ ps[i + 1]? = some r) →
    Q () n h') :
    (insertChild q key l r i).inside t s n h Q := by
  simp only [insertChild, Prog.inside_bind, Prog.inside_load, Prog.inside_check]
  intro hd _ ps _ c hc
  have hlt : i < ps.length := (List.getElem?_eq_some_iff.mp hc).1
  split
  · simp only [Prog.inside_bind, Prog.inside_store]
    refine ⟨hq, fun _ => ⟨hq, fun _ => hQ _ fun qs hqs => ?_⟩⟩
    rw [Heap.set_self] at hqs
    obtain rfl := Option.some.inj hqs
    constructor
    · rw [List.getElem?_insertIdx_of_lt (Nat.lt_succ_self i)]
      simp [hlt]
    · rw [List.getElem?_insertIdx_self, if_pos (by rw [List.length_set]; exact hlt)]
  · exact Prog.inside_fault _

end Nodes

section Leaves

variable {Q : NodePtr ι → Nat → NodeHeap ι → Prop}

theorem copyLeaf_inside (hQ : ∀ q n' h', q.owner = t → Q q n' h') :
    (copyLeaf ver p).inside t s n h Q := by
  simp only [copyLeaf, newLeaf, Prog.inside_bind, Prog.inside_load, Prog.inside_new]
  exact fun hd _ => hQ _ _ _ rfl

theorem copyInternal_inside (hQ : ∀ q n' h', q.owner = t → Q q n' h') :
    (copyInternal K ver p).inside t s n h Q := by
  simp only [copyInternal, newInternal, Prog.inside_bind, Prog.inside_load, Prog.inside_new]
  exact fun hd _ => hQ _ _ _ rfl

theorem newRoot_inside {a : ι} (hQ : ∀ q n' h', q.owner = t → Q q n' h') :
    (newRoot ver a key l r).inside t s n h Q := by
  simp only [newRoot, newInternal, Prog.inside_new]
  exact hQ _ _ _ rfl

end Leaves

section Halves

variable {Q : Nat × NodePtr ι × NodePtr ι → Nat → NodeHeap ι → Prop}

theorem split_inside (hQ : ∀ k l r n' h', l.owner = t → r.owner = t → Q (k, l, r) n' h') :
    (split K ver p).inside t s n h Q := by
  simp only [split, newInternal, Prog.inside_bind, Prog.inside_load, Prog.inside_new,
    Prog.inside_check,
    Prog.inside_pure]
  exact fun hd _ k _ => hQ _ _ _ _ _ rfl rfl

theorem updateLeafCow_inside {Q : Nat × NodePtr ι × Option (NodePtr ι) → Nat → NodeHeap ι → Prop}
    (hQ : ∀ k l r n' h', l.owner = t → Q (k, l, r) n' h') :
    (updateLeafCow K ver key val p).inside t s n h Q := by
  simp only [updateLeafCow, Prog.inside_bind, Prog.inside_load]
  intro hd _
  split
  · simp only [Prog.inside_bind]
    apply copyLeaf_inside
    intro q n₁ h₁ hq
    simp only [setVal, Prog.inside_bind, Prog.inside_load, Prog.inside_store, Prog.inside_pure]
    exact fun _ _ => ⟨hq, fun _ => hQ _ _ _ _ _ hq⟩
  · split
    · simp only [newLeaf, Prog.inside_bind, Prog.inside_new, Prog.inside_pure]
      exact hQ _ _ _ _ _ rfl
    · split
      all_goals
        simp only [newLeaf, Prog.inside_bind, Prog.inside_new, Prog.inside_check, Prog.inside_pure]
        exact fun _ _ => hQ _ _ _ _ _ rfl

end Halves

section Descents

/-- The node that the next call writes below, and the halves that it fills. -/
def Descent.Own (t : Nat) (h : NodeHeap ι) (q : NodePtr ι) : Descent ι → Prop
  | .done => True
  | .down q' => q'.owner = t
  | .split i => ∀ ps c, h (q, Field.chs) = some ps → ps[i]? = some c ∨ ps[i + 1]? = some c →
    c.owner = t

omit [DecidableEq ι] in
theorem Descent.Own.congr {h' : NodeHeap ι} {d : Descent ι} (hown : d.Own t h q)
    (hsame : h' (q, Field.chs) = h (q, Field.chs)) : d.Own t h' q := by
  cases d with
  | done => trivial
  | down q' => exact hown
  | split i => exact fun ps c hps => hown ps c (hsame ▸ hps)

theorem descend_inside (hq : q.owner = t) {Q : NodePtr ι × Descent ι → Nat → NodeHeap ι → Prop}
    (hQ : ∀ p d n' h', d.Own t h' q → Q (p, d) n' h') :
    (descend K ver key val q).inside t s n h Q := by
  simp only [descend, Prog.inside_bind, Prog.inside_load, Prog.inside_check]
  intro hd _ ps _ p _ past _
  split
  · simp only [Prog.inside_bind]
    apply updateLeafCow_inside
    intro k l r n₁ h₁ _
    cases r with
    | none => exact setChild_inside hq fun h₂ => hQ _ _ _ _ trivial
    | some r => exact insertChild_inside hq fun h₂ _ => hQ _ _ _ _ trivial
  · split
    · simp only [Prog.inside_bind]
      apply split_inside
      intro k l r n₁ h₁ hl hr
      apply insertChild_inside hq
      intro h₂ hchs
      refine hQ _ _ _ _ fun qs c hqs hc => ?_
      obtain ⟨hfst, hsnd⟩ := hchs qs hqs
      rcases hc with hc | hc
      · exact Option.some.inj (hfst.symm.trans hc) ▸ hl
      · exact Option.some.inj (hsnd.symm.trans hc) ▸ hr
    · simp only [Prog.inside_bind]
      apply copyInternal_inside
      intro q' n₁ h₁ hq'
      exact setChild_inside hq fun h₂ => hQ _ _ _ _ hq'

theorem enterHalf_inside {i : Nat} {Q : NodePtr ι → Nat → NodeHeap ι → Prop}
    (hown : (Descent.split i).Own t h q) (hQ : ∀ q' n' h', q'.owner = t → Q q' n' h') :
    (enterHalf key q p i).inside t s n h Q := by
  simp only [enterHalf, Prog.inside_bind, Prog.inside_load, Prog.inside_check]
  intro ps hps l hl r hr
  have hl' : l.owner = t := hown ps l hps (.inl hl)
  have hr' : r.owner = t := hown ps r hps (.inr hr)
  apply copychSplit_inside hl' hr'
  intro h₁ hd _ k _
  apply hQ
  split
  exacts [hr', hl']

end Descents

end Contrees.Trees.Bnode

namespace Contrees.Trees.Btree

open Library Library.Memory Conctrl Bnode

variable {t s n : Nat} {h : NodeHeap NodeType} {ctx : Context}

def Inside (t : Nat) (ctx : Context) (h : NodeHeap NodeType) : Prop :=
  match ctx.op with
  | .init | .done => True
  | .searchDown => ∀ q, ctx.tCur = some q → q.owner = t
  | .searchSplit => ∀ q, ctx.tCur = some q → q.owner = t ∧ (Descent.split ctx.splitIdx).Own t h q

theorem Inside.congr {h' : NodeHeap NodeType} (hin : Inside t ctx h)
    (hsame : ∀ l, l.1.owner = t → h' l = h l) : Inside t ctx h' := by
  cases hop : ctx.op <;> simp only [Inside, hop] at hin ⊢
  case searchDown => exact hin
  case searchSplit =>
      exact fun q hq => (hin q hq).imp_right (·.congr (hsame (q, Field.chs) (hin q hq).1))

theorem updateCow_inside (hcur : ∀ q, ctx.tCur = some q → q.owner = t) :
    (updateCow ctx).inside t s n h (fun ctx' _ h' => Inside t ctx' h') := by
  simp only [updateCow, Prog.inside_bind, Prog.inside_check]
  intro q hq
  apply descend_inside (hcur q hq)
  intro p d n₁ h₁ hown
  cases d with
  | done => exact trivial
  | down q' => exact fun q'' hq'' => Option.some.inj hq'' ▸ hown
  | split i =>
      intro q' hq'
      obtain rfl := Option.some.inj (hq.symm.trans hq')
      exact ⟨hcur q hq, hown⟩

theorem initInternal_inside (p : NodePtr NodeType) :
    (initInternal ctx p).inside t s n h (fun ctx' _ h' => Inside t ctx' h') := by
  simp only [initInternal, Prog.inside_bind, Prog.inside_load]
  intro past _
  split
  · simp only [Prog.inside_bind]
    apply copyInternal_inside
    intro q n₁ h₁ hq
    apply copych_inside hq
    intro h₂
    exact updateCow_inside fun q' hq' => Option.some.inj hq' ▸ hq
  · simp only [Prog.inside_bind]
    apply split_inside
    intro k l r n₁ h₁ hl hr
    apply newRoot_inside
    intro q n₂ h₂ _
    apply copychSplit_inside hl hr
    intro h₃
    refine updateCow_inside fun q' hq' => Option.some.inj hq' ▸ ?_
    split
    exacts [hl, hr]

theorem handle_inside (hin : Inside t ctx h) :
    (interface.handle ctx).inside t s n h (fun ctx' _ h' => Inside t ctx' h') := by
  cases hop : ctx.op <;> simp only [Inside, hop] at hin <;> simp only [interface, hop]
  case init =>
      simp only [handleInit, Prog.inside_bind, Prog.inside_check, Prog.inside_load]
      intro p _ past _
      split
      · simp only [Prog.inside_bind]
        apply updateLeafCow_inside
        intro k l r n₁ h₁ _
        cases r with
        | none => exact initInternal_inside p
        | some r =>
            simp only [Prog.inside_bind]
            apply newRoot_inside
            exact fun _ _ _ _ => trivial
      · exact initInternal_inside p
  case searchDown =>
      simp only [handleSearchDown, Prog.inside_bind, Prog.inside_check]
      intro q hq p _
      apply copych_inside (hin q hq)
      intro h₁
      exact updateCow_inside hin
  case searchSplit =>
      simp only [handleSearchSplit, Prog.inside_bind, Prog.inside_check]
      intro q hq p _
      apply enterHalf_inside (hin q hq).2
      intro q' n₁ h₁ hq'
      exact updateCow_inside fun q'' hq'' => Option.some.inj hq'' ▸ hq'
  case done => simp only [Prog.inside_fault]

end Contrees.Trees.Btree

namespace Contrees.Trees.Betree

open Library Library.Memory Conctrl Bnode

variable {t s n : Nat} {h : NodeHeap Ann} {ctx : Context}

def Inside (t : Nat) (ctx : Context) (h : NodeHeap Ann) : Prop :=
  match ctx.op with
  | .init | .done => True
  | .searchUpper | .searchElastic | .searchLower => ∀ q, ctx.tCur = some q → q.owner = t
  | .searchSplit => ∀ q, ctx.tCur = some q → q.owner = t ∧ (Descent.split ctx.splitIdx).Own t h q

theorem Inside.congr {h' : NodeHeap Ann} (hin : Inside t ctx h)
    (hsame : ∀ l, l.1.owner = t → h' l = h l) : Inside t ctx h' := by
  cases hop : ctx.op <;> simp only [Inside, hop] at hin ⊢
  case searchUpper | searchElastic | searchLower => exact hin
  case searchSplit =>
      exact fun q hq => (hin q hq).imp_right (·.congr (hsame (q, Field.chs) (hin q hq).1))

theorem updateUpperCow_inside {Q : NodePtr Ann × Context → Nat → NodeHeap Ann → Prop}
    (hQ : ∀ q ctx' n' h', q.owner = t →
      (∀ root h'', Inside t { ctx' with root := root, tCur := some q } h'') → Q (q, ctx') n' h') :
    (updateUpperCow ctx).inside t s n h Q := by
  simp only [updateUpperCow, Prog.inside_bind, Prog.inside_check, Prog.inside_load]
  intro p _ past _
  split
  · simp only [Prog.inside_bind]
    apply updateLeafCow_inside
    intro k l r n₁ h₁ hl
    cases r with
    | none => exact hQ _ _ _ _ hl fun _ _ => trivial
    | some r =>
        simp only [Prog.inside_bind, Prog.inside_pure]
        exact newRoot_inside fun q _ _ hq => hQ _ _ _ _ hq fun _ _ => trivial
  · simp only [Prog.inside_bind]
    apply copyInternal_inside
    intro q n₁ h₁ hq
    split
    all_goals exact hQ _ _ _ _ hq fun _ _ q' hq' => Option.some.inj hq' ▸ hq

theorem updateLowerCow_inside (hcur : ∀ q, ctx.tCur = some q → q.owner = t) :
    (updateLowerCow ctx).inside t s n h (fun ctx' _ h' => Inside t ctx' h') := by
  simp only [updateLowerCow, Prog.inside_bind, Prog.inside_check]
  intro q hq
  apply descend_inside (hcur q hq)
  intro p d n₁ h₁ hown
  cases d with
  | done => exact trivial
  | down q' => exact fun q'' hq'' => Option.some.inj hq'' ▸ hown
  | split i =>
      intro q' hq'
      obtain rfl := Option.some.inj (hq.symm.trans hq')
      exact ⟨hcur q hq, hown⟩

theorem handleElastic_inside (hcur : ∀ q, ctx.tCur = some q → q.owner = t) :
    (handleElastic ctx).inside t s n h (fun ctx' _ h' => Inside t ctx' h') := by
  simp only [handleElastic, Prog.inside_bind, Prog.inside_check]
  intro q hq p _
  apply copych_inside (hcur q hq)
  intro h₁
  simp only [Prog.inside_load]
  intro past _ ps _ p' _ past' _
  split
  · simp only [Prog.inside_bind]
    apply updateLeafCow_inside
    intro k l r n₁ h₂ _
    cases r with
    | none =>
        simp only [Prog.inside_bind]
        apply setChild_inside (hcur q hq)
        exact fun _ => trivial
    | some r =>
        simp only [Prog.inside_bind]
        apply newRoot_inside
        intro q' n₂ h₃ _
        apply setChild_inside (hcur q hq)
        exact fun _ => trivial
  · split
    · simp only [Prog.inside_bind]
      apply copyInternal_inside
      intro q' n₁ h₂ hq'
      apply setChild_inside (hcur q hq)
      intro h₃
      apply copych_inside hq'
      intro h₄
      exact updateLowerCow_inside fun q'' hq'' => Option.some.inj hq'' ▸ hq'
    · simp only [Prog.inside_bind]
      apply split_inside
      intro k l r n₁ h₂ hl hr
      apply newRoot_inside
      intro q' n₂ h₃ _
      apply setChild_inside (hcur q hq)
      intro h₄
      apply copychSplit_inside hl hr
      intro h₅
      refine updateLowerCow_inside fun q'' hq'' => Option.some.inj hq'' ▸ ?_
      split
      exacts [hl, hr]

theorem handle_inside (hin : Inside t ctx h) :
    (interface.handle ctx).inside t s n h (fun ctx' _ h' => Inside t ctx' h') := by
  cases hop : ctx.op <;> simp only [Inside, hop] at hin <;> simp only [interface, hop]
  case init =>
      simp only [handleInit, Prog.inside_bind, Prog.inside_pure]
      exact updateUpperCow_inside fun q ctx' n' h' _ hin' => hin' _ _
  case searchUpper =>
      simp only [handleUpper, Prog.inside_bind, Prog.inside_check]
      intro q hq p _
      apply copych_inside (hin q hq)
      intro h₁
      simp only [Prog.inside_load]
      intro past _ ps _ p' _
      apply updateUpperCow_inside
      intro q' ctx' n₁ h₂ _ hin'
      exact setChild_inside (hin q hq) fun h₃ => hin' _ _
  case searchElastic => exact handleElastic_inside hin
  case searchLower =>
      simp only [handleLower, Prog.inside_bind, Prog.inside_check]
      intro q hq p _
      apply copych_inside (hin q hq)
      intro h₁
      exact updateLowerCow_inside hin
  case searchSplit =>
      simp only [handleSplit, Prog.inside_bind, Prog.inside_check]
      intro q hq p _
      apply enterHalf_inside (hin q hq).2
      intro q' n₁ h₁ hq'
      exact updateLowerCow_inside fun q'' hq'' => Option.some.inj hq'' ▸ hq'
  case done => simp only [Prog.inside_fault]

end Contrees.Trees.Betree
