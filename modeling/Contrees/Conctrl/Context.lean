import Contrees.Library.Memory

namespace Contrees.Conctrl

open Library.Memory

/-- `conctrl::context`: `ω` are the operands of a structure, `ρ` its node
pointers, of which `none` is `nullptr`. No handler sets `retry` or
`wait_subtree`, and `cno` is a cache of the scheduler. -/
structure Context (ω ρ : Type) where
  op : ω
  waitChild : Bool
  newCheckpoint : Bool
  sno : Nat
  root : Option ρ
  tCur : Option ρ
  tPast : Option ρ
  key : Nat
  val : Nat

structure Handlers (Site : Type) {Field : Type} (V : Field → Type) (Ctx : Type) where
  handle : Ctx → Prog Site V Ctx
  done : Ctx → Bool

/-- A structure as a scheduler sees it: `start` is the context of a submitted
update once `t_past` is set. -/
structure Interface (Site : Type) {Field : Type} (V : Field → Type) (Ctx : Type)
    extends Handlers Site V Ctx where
  start : (tid key val : Nat) → (tPast : Option (Ptr Site)) → Ctx
  root : Ctx → Option (Ptr Site)

section Transactions

variable {Site Field : Type} {V : Field → Type} {Ctx : Type} [DecidableEq Site] [DecidableEq Field]

/-- Call the handlers of transaction `tid` from stage `s` on until DONE, the
stage after `s` being `next s`. -/
def Handlers.run (T : Handlers Site V Ctx) (next : Nat → Ctx → Nat) (tid : Nat) :
    Nat → Nat → Ctx → Heap Site V → Option (Ctx × Heap Site V)
  | 0, _, _, _ => none
  | fuel + 1, s, ctx, h =>
      if T.done ctx then some (ctx, h)
      else
        match (T.handle ctx).exec tid s 0 h with
        | some (ctx', _, h') => T.run next tid fuel (next s ctx') ctx' h'
        | none => none

variable {T : Handlers Site V Ctx} {next : Nat → Ctx → Nat} {tid s : Nat} {ctx : Ctx}
  {h : Heap Site V} {Q : Ctx → Heap Site V → Prop}

/-- The handlers reach DONE, in a state that `Q` describes. -/
def Handlers.Ends (T : Handlers Site V Ctx) (next : Nat → Ctx → Nat) (tid s : Nat) (ctx : Ctx)
    (h : Heap Site V) (Q : Ctx → Heap Site V → Prop) : Prop :=
  ∃ fuel r, T.run next tid fuel s ctx h = some r ∧ Q r.1 r.2

theorem Handlers.Ends.done (hd : T.done ctx = true) (hQ : Q ctx h) : T.Ends next tid s ctx h Q :=
  ⟨1, (ctx, h), by simp [Handlers.run, hd], hQ⟩

theorem Handlers.Ends.step (hd : T.done ctx = false)
    (hs : (T.handle ctx).wp tid s 0 h (fun ctx' _ h' => T.Ends next tid (next s ctx') ctx' h' Q)) :
    T.Ends next tid s ctx h Q := by
  obtain ⟨⟨ctx', n', h'⟩, hexec, fuel, r, hrun, hQ⟩ := hs
  exact ⟨fuel + 1, r, by simpa [Handlers.run, hd, hexec] using hrun, hQ⟩

theorem Handlers.Ends.mono {R : Ctx → Heap Site V → Prop} (he : T.Ends next tid s ctx h Q)
    (hQ : ∀ c h, Q c h → R c h) : T.Ends next tid s ctx h R := by
  obtain ⟨fuel, r, hrun, hq⟩ := he
  exact ⟨fuel, r, hrun, hQ _ _ hq⟩

theorem Handlers.run_succ {fuel : Nat} {r : Ctx × Heap Site V}
    (hr : T.run next tid fuel s ctx h = some r) : T.run next tid (fuel + 1) s ctx h = some r := by
  induction fuel generalizing s ctx h with
  | zero => simp [Handlers.run] at hr
  | succ fuel ih =>
      rw [Handlers.run] at hr ⊢
      split at hr
      · rename_i hd
        rw [if_pos hd, hr]
      · rename_i hd
        rw [if_neg hd]
        split at hr
        · exact ih hr
        · simp at hr

theorem Handlers.run_le {fuel fuel' : Nat} {r : Ctx × Heap Site V} (hle : fuel ≤ fuel')
    (hr : T.run next tid fuel s ctx h = some r) : T.run next tid fuel' s ctx h = some r := by
  induction hle with
  | refl => exact hr
  | step _ ih => exact Handlers.run_succ ih

theorem Handlers.Ends.and {R : Ctx → Heap Site V → Prop} (he : T.Ends next tid s ctx h Q)
    (he' : T.Ends next tid s ctx h R) : T.Ends next tid s ctx h (fun c h => Q c h ∧ R c h) := by
  obtain ⟨fuel, r, hrun, hq⟩ := he
  obtain ⟨fuel', r', hrun', hq'⟩ := he'
  have h₁ := Handlers.run_le (Nat.le_max_left fuel fuel') hrun
  have h₂ := Handlers.run_le (Nat.le_max_right fuel fuel') hrun'
  obtain rfl : r = r' := Option.some.inj (h₁.symm.trans h₂)
  exact ⟨_, r, h₁, hq, hq'⟩

theorem Handlers.Ends.handled (hd : T.done ctx = false) (he : T.Ends next tid s ctx h Q) :
    (T.handle ctx).wp tid s 0 h (fun _ _ _ => True) := by
  obtain ⟨fuel, r, hrun, -⟩ := he
  cases fuel with
  | zero => simp [Handlers.run] at hrun
  | succ fuel =>
      simp only [Handlers.run, hd, Bool.false_eq_true, if_false] at hrun
      split at hrun
      · rename_i r' hexec
        exact ⟨_, hexec, trivial⟩
      · simp at hrun

theorem Handlers.Ends.tail (hd : T.done ctx = false) (he : T.Ends next tid s ctx h Q) :
    (T.handle ctx).wp tid s 0 h (fun ctx' _ h' => T.Ends next tid (next s ctx') ctx' h' Q) := by
  obtain ⟨fuel, r, hrun, hQ⟩ := he
  cases fuel with
  | zero => simp [Handlers.run] at hrun
  | succ fuel =>
      simp only [Handlers.run, hd, Bool.false_eq_true, if_false] at hrun
      split at hrun
      · rename_i ctx' n' h' hexec
        exact ⟨(ctx', n', h'), hexec, fuel, r, hrun, hQ⟩
      · simp at hrun

/-- The handlers reach DONE, in a state that the predicate describes; without a
predicate they never do. -/
def Handlers.Goes (T : Handlers Site V Ctx) (next : Nat → Ctx → Nat) (tid s : Nat) (ctx : Ctx)
    (h : Heap Site V) : Option (Ctx → Heap Site V → Prop) → Prop
  | some Q => T.Ends next tid s ctx h Q
  | none => ∀ Q, ¬ T.Ends next tid s ctx h Q

theorem Handlers.goes_some : T.Goes next tid s ctx h (some Q) ↔ T.Ends next tid s ctx h Q := Iff.rfl

theorem Handlers.Goes.step {o : Option (Ctx → Heap Site V → Prop)} (hd : T.done ctx = false)
    (hs : (T.handle ctx).wp tid s 0 h (fun ctx' _ h' => T.Goes next tid (next s ctx') ctx' h' o)) :
    T.Goes next tid s ctx h o := by
  cases o with
  | some Q => exact Handlers.Ends.step hd hs
  | none =>
      intro Q he
      obtain ⟨r, -, hgoes, hends⟩ := Prog.wp_and hs (he.tail hd)
      exact hgoes Q hends

theorem Handlers.run_map {Ctx' : Type} {T' : Handlers Site V Ctx'} {next' : Nat → Ctx' → Nat}
    (f : Ctx → Ctx') (hdone : ∀ c, T'.done (f c) = T.done c)
    (hnext : ∀ s c, next' s (f c) = next s c)
    (hhandle : ∀ c s h, T.done c = false → (T'.handle (f c)).exec tid s 0 h =
      ((T.handle c).exec tid s 0 h).map (fun r => (f r.1, r.2)))
    (fuel s : Nat) (c : Ctx) (h : Heap Site V) :
    T'.run next' tid fuel s (f c) h = (T.run next tid fuel s c h).map (fun r => (f r.1, r.2)) := by
  induction fuel generalizing s c h with
  | zero => rfl
  | succ fuel ih =>
      simp only [Handlers.run, hdone]
      by_cases hd : T.done c = true
      · simp [hd]
      · rw [if_neg hd, if_neg hd, hhandle c s h (by simpa using hd)]
        cases (T.handle c).exec tid s 0 h with
        | none => rfl
        | some r =>
            simp only [Option.map_some, hnext]
            exact ih _ _ _

theorem Handlers.Ends.map {Ctx' : Type} {T' : Handlers Site V Ctx'} {next' : Nat → Ctx' → Nat}
    (f : Ctx → Ctx') (hdone : ∀ c, T'.done (f c) = T.done c)
    (hnext : ∀ s c, next' s (f c) = next s c)
    (hhandle : ∀ c s h, T.done c = false → (T'.handle (f c)).exec tid s 0 h =
      ((T.handle c).exec tid s 0 h).map (fun r => (f r.1, r.2)))
    (he : T.Ends next tid s ctx h Q) :
    T'.Ends next' tid s (f ctx) h (fun c' h' => ∃ c, c' = f c ∧ Q c h') := by
  obtain ⟨fuel, r, hrun, hq⟩ := he
  refine ⟨fuel, (f r.1, r.2), ?_, r.1, rfl, hq⟩
  rw [Handlers.run_map f hdone hnext hhandle, hrun]
  rfl

/-- The updates run one after another, each until DONE, from the root of the
one before it; the end is a state that `Q` describes. -/
def Interface.EndsAll (T : Interface Site V Ctx) (next : Nat → Ctx → Nat)
    (Q : Option (Ptr Site) → Heap Site V → Prop) :
    Nat → Option (Ptr Site) → Heap Site V → List (Nat × Nat) → Prop
  | _, root, h, [] => Q root h
  | tid, root, h, (key, val) :: us =>
      T.Ends next tid 0 (T.start tid key val root) h
        (fun ctx h' => T.EndsAll next Q (tid + 1) (T.root ctx) h' us)

end Transactions

end Contrees.Conctrl
