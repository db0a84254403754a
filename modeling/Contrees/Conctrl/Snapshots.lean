import Contrees.Conctrl.Context
import Contrees.Library.Interleaving

namespace Contrees.Conctrl

open Library.Memory Library.Interleaving

variable {Site Field Ctx : Type} {V : Field → Type} [DecidableEq Site] [DecidableEq Field]
  {ρ τ : Type} {T : Handlers Site V Ctx} {begins : Ctx → Prop} {σ σ' : State Site V Ctx} {t : Nat}

/-- A transaction begins or makes its next call; no order is kept among them, and no wait.
The blocks that were there before are those of 0. -/
inductive Handlers.Step (T : Handlers Site V Ctx) (begins : Ctx → Prop) :
    State Site V Ctx → State Site V Ctx → Prop
  | begin (σ : State Site V Ctx) (t : Nat) (ctx : Ctx) (hpos : t ≠ 0) (hnone : σ.call t = none)
      (hctx : begins ctx) :
      T.Step begins σ (σ.put t 0 ctx σ.heap)
  | call (σ : State Site V Ctx) (t s : Nat) (ctx ctx' : Ctx) (k : Nat) (h' : Heap Site V)
      (hcall : σ.call t = some (s, ctx)) (hdone : T.done ctx = false)
      (hexec : (T.handle ctx).exec t s 0 σ.heap = some (ctx', k, h')) :
      T.Step begins σ (σ.put t (s + 1) ctx' h')

def Handlers.Run (T : Handlers Site V Ctx) (begins : Ctx → Prop) :
    State Site V Ctx → State Site V Ctx → Prop := Relation.ReflTransGen (T.Step begins)

def Handlers.advance (T : Handlers Site V Ctx) (σ : State Site V Ctx) (t : Nat) :
    State Site V Ctx :=
  match σ.call t with
  | some (s, ctx) =>
      if T.done ctx then σ
      else
        match (T.handle ctx).exec t s 0 σ.heap with
        | some (ctx', _, h') => σ.put t (s + 1) ctx' h'
        | none => σ
  | none => σ

theorem Handlers.run_advance (σ : State Site V Ctx) (t : Nat) : T.Run begins σ (T.advance σ t) := by
  unfold Handlers.advance
  split
  · rename_i s ctx hcall
    split
    · exact .refl
    · rename_i hdone
      split
      · rename_i ctx' k h' hexec
        exact .single (.call σ t s ctx ctx' k h' hcall (by simpa using hdone) hexec)
      · exact .refl
  · exact .refl

def Handlers.Past (T : Handlers Site V Ctx) (σ : State Site V Ctx) (p : Ptr Site) : Prop :=
  p.owner = 0 ∨ ∃ s ctx, σ.call p.owner = some (s, ctx) ∧ T.done ctx = true

/-- From any memory and in any interleaving, blocks change in calls of their own
transaction only, so that those of the past stay as they are, and so does a tree
whose nodes are of the past. -/
def Handlers.Snapshots (T : Handlers Site V Ctx) (begins : Ctx → Prop)
    (denotes : (Ptr Site → Prop) → Heap Site V → ρ → τ → Prop) : Prop :=
  ∀ σ₀ σ σ' : State Site V Ctx, (∀ t, σ₀.call t = none) → T.Run begins σ₀ σ → T.Run begins σ σ' →
    (∀ l : Ptr Site × Field, σ'.call l.1.owner = σ.call l.1.owner → σ'.heap l = σ.heap l) ∧
      (∀ l : Ptr Site × Field, T.Past σ l.1 → σ'.heap l = σ.heap l) ∧
        ∀ r tree, denotes (T.Past σ) σ.heap r tree → denotes (T.Past σ) σ'.heap r tree

section Calls

def nCalls (σ : State Site V Ctx) (t : Nat) : Nat := (σ.call t).elim 0 (·.1 + 1)

omit [DecidableEq Site] [DecidableEq Field] in
theorem nCalls_congr (hsame : σ'.call t = σ.call t) : nCalls σ' t = nCalls σ t := by
  rw [nCalls, hsame, nCalls]

theorem Handlers.Step.calls (hstep : T.Step begins σ σ') (t : Nat) :
    σ'.call t = σ.call t ∨ nCalls σ t < nCalls σ' t := by
  cases hstep with
  | begin t' ctx hpos hnone hctx =>
      by_cases heq : t = t'
      · subst heq
        exact .inr (by simp [nCalls, hnone])
      · exact .inl (σ.put_of_ne _ _ _ heq)
  | call t' s ctx ctx' k h' hcall hdone hexec =>
      by_cases heq : t = t'
      · subst heq
        exact .inr (by simp [nCalls, hcall])
      · exact .inl (σ.put_of_ne _ _ _ heq)

theorem Handlers.Run.calls_le (hrun : T.Run begins σ σ') (t : Nat) :
    nCalls σ t ≤ nCalls σ' t := by
  induction hrun with
  | refl => exact le_rfl
  | tail _ hstep ih =>
      rcases hstep.calls t with heq | hlt
      · exact ih.trans (nCalls_congr heq).ge
      · exact ih.trans hlt.le

theorem Handlers.Step.zero (hstep : T.Step begins σ σ') (hzero : σ.call 0 = none) :
    σ'.call 0 = none := by
  cases hstep with
  | begin t ctx hpos hnone hctx => exact (σ.put_of_ne _ _ _ hpos.symm).trans hzero
  | call t s ctx ctx' k h' hcall hdone hexec =>
      have hpos : t ≠ 0 := fun heq => by simp [heq, hzero] at hcall
      exact (σ.put_of_ne _ _ _ hpos.symm).trans hzero

theorem Handlers.Run.zero (hrun : T.Run begins σ σ') (hzero : σ.call 0 = none) :
    σ'.call 0 = none := by
  induction hrun with
  | refl => exact hzero
  | tail _ hstep ih => exact hstep.zero ih

theorem Handlers.Step.past {p : Ptr Site} (hstep : T.Step begins σ σ') (hp : T.Past σ p)
    (hzero : σ.call 0 = none) : σ'.call p.owner = σ.call p.owner := by
  cases hstep with
  | begin t ctx hpos hnone hctx =>
      refine σ.put_of_ne _ _ _ ?_
      rintro rfl
      rcases hp with heq | ⟨s, ctx', hcall, -⟩
      · exact hpos heq
      · simp [hnone] at hcall
  | call t s ctx ctx' k h' hcall hdone hexec =>
      refine σ.put_of_ne _ _ _ ?_
      rintro rfl
      rcases hp with heq | ⟨s', ctx'', hcall', hdone'⟩
      · simp [heq, hzero] at hcall
      · obtain ⟨rfl, rfl⟩ := Prod.mk.inj (Option.some.inj (hcall.symm.trans hcall'))
        simp [hdone] at hdone'

theorem Handlers.Run.past {p : Ptr Site} (hrun : T.Run begins σ σ') (hp : T.Past σ p)
    (hzero : σ.call 0 = none) : σ'.call p.owner = σ.call p.owner := by
  induction hrun with
  | refl => rfl
  | tail hrun hstep ih =>
      have hp' : T.Past _ p := hp.imp_right fun ⟨s, ctx, hs, hdone⟩ => ⟨s, ctx, ih.trans hs, hdone⟩
      exact (hstep.past hp' (Handlers.Run.zero hrun hzero)).trans ih

end Calls

section Blocks

variable {inside : Nat → Nat → Ctx → Heap Site V → Prop}

/-- What a transaction keeps among its calls so that each writes blocks of its own: it
holds at the start, and says nothing of other blocks. -/
structure Handlers.Frame (T : Handlers Site V Ctx) (begins : Ctx → Prop)
    (inside : Nat → Nat → Ctx → Heap Site V → Prop) : Prop where
  start : ∀ t ctx h, begins ctx → inside t 0 ctx h
  handle : ∀ t s ctx h, inside t s ctx h →
    (T.handle ctx).inside t s 0 h (fun ctx' _ h' => inside t (s + 1) ctx' h')
  congr : ∀ t s ctx h h', inside t s ctx h → (∀ l : Ptr Site × Field, l.1.owner = t → h' l = h l) →
    inside t s ctx h'

def Framed (inside : Nat → Nat → Ctx → Heap Site V → Prop) (σ : State Site V Ctx) : Prop :=
  ∀ t s ctx, σ.call t = some (s, ctx) → inside t s ctx σ.heap

theorem Handlers.Frame.put {s : Nat} {ctx : Ctx} {h' : Heap Site V} (F : T.Frame begins inside)
    (hin : Framed inside σ) (hself : inside t s ctx h')
    (hother : ∀ l, l.1.owner ≠ t → h' l = σ.heap l) :
    Framed inside (σ.put t s ctx h') := by
  intro t' s' ctx' hcall
  by_cases heq : t' = t
  · subst heq
    rw [State.put_self] at hcall
    obtain ⟨rfl, rfl⟩ := Prod.mk.inj (Option.some.inj hcall)
    exact hself
  · rw [State.put_of_ne _ _ _ _ heq] at hcall
    exact F.congr _ _ _ _ _ (hin t' s' ctx' hcall) fun l hl => hother l (hl ▸ heq)

theorem Handlers.Frame.step (F : T.Frame begins inside) (hin : Framed inside σ)
    (hstep : T.Step begins σ σ') :
    Framed inside σ' ∧ ∀ l, σ'.call l.1.owner = σ.call l.1.owner → σ'.heap l = σ.heap l := by
  cases hstep with
  | begin t ctx hpos hnone hctx =>
      exact ⟨F.put hin (F.start t ctx _ hctx) fun _ _ => rfl, fun _ _ => rfl⟩
  | call t s ctx ctx' k h' hcall hdone hexec =>
      have hcalls := F.handle t s ctx σ.heap (hin t s ctx hcall)
      have hother : ∀ l, l.1.owner ≠ t → h' l = σ.heap l := fun l hl => hcalls.frame hexec hl
      refine ⟨F.put hin (Prog.within.ends hcalls hexec) hother, fun l hsame => hother l ?_⟩
      rintro rfl
      rw [State.put_self, hcall] at hsame
      simp at hsame

/-- The blocks of a transaction change only while it makes calls. -/
theorem Handlers.Frame.run (F : T.Frame begins inside) (hin : Framed inside σ)
    (hrun : T.Run begins σ σ') :
    Framed inside σ' ∧ ∀ l, σ'.call l.1.owner = σ.call l.1.owner → σ'.heap l = σ.heap l := by
  induction hrun with
  | refl => exact ⟨hin, fun _ _ => rfl⟩
  | tail hrun hstep ih =>
      obtain ⟨hin', hmade⟩ := ih
      obtain ⟨hin'', hmakes⟩ := F.step hin' hstep
      refine ⟨hin'', fun l hsame => ?_⟩
      -- a transaction that moves moves on, and never comes back
      rcases hstep.calls l.1.owner with heq | hlt
      · exact (hmakes l heq).trans (hmade l (heq.symm.trans hsame))
      · have hle := Handlers.Run.calls_le hrun l.1.owner
        have heq := nCalls_congr hsame
        omega

theorem Handlers.Frame.snapshots (F : T.Frame begins inside)
    {denotes : (Ptr Site → Prop) → Heap Site V → ρ → τ → Prop}
    (hframe : ∀ S h h' r tree, denotes S h r tree → (∀ q, S q → S q ∧ ∀ f, h' (q, f) = h (q, f)) →
      denotes S h' r tree) :
    T.Snapshots begins denotes := by
  intro σ₀ σ σ' hnone hrun hrun'
  have hin₀ : Framed inside σ₀ := fun t s ctx hcall => by simp [hnone t] at hcall
  obtain ⟨hin, -⟩ := F.run hin₀ hrun
  obtain ⟨-, hkeep⟩ := F.run hin hrun'
  have hzero := Handlers.Run.zero hrun (hnone 0)
  have hpast : ∀ l : Ptr Site × Field, T.Past σ l.1 → σ'.heap l = σ.heap l := fun l hl =>
    hkeep l (Handlers.Run.past hrun' hl hzero)
  exact ⟨hkeep, hpast, fun r tree hr => hframe _ _ _ r tree hr
    fun q hq => ⟨hq, fun f => hpast (q, f) hq⟩⟩

end Blocks

end Contrees.Conctrl
