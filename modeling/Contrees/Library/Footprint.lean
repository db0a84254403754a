import Contrees.Library.Memory

namespace Contrees.Library.Memory

variable {Site Field : Type} {V : Field → Type} {α β : Type} [DecidableEq Site] [DecidableEq Field]
  {t s n : Nat} {h h' : Heap Site V} {R W : Ptr Site × Field → Prop}

section Rules

/-- Run from `h`, the program reads cells in `R` and writes cells in `W` only; where
it ends, it does so in a state that `Q` describes. -/
def Prog.within (t s : Nat) (R W : Ptr Site × Field → Prop) :
    Prog Site V α → Nat → Heap Site V → (α → Nat → Heap Site V → Prop) → Prop
  | .pure a, n, h, Q => Q a n h
  | .fault, _, _, _ => True
  | .read p f next, n, h, Q => R (p, f) ∧ ∀ v, h (p, f) = some v → (next v).within t s R W n h Q
  | .write p f v next, n, h, Q =>
      W (p, f) ∧ ((h (p, f)).isSome → next.within t s R W n (h.set p f v) Q)
  | .alloc site cells next, n, h, Q =>
      (next ⟨t, s, n, site⟩).within t s R W (n + 1) (h.place ⟨t, s, n, site⟩ cells) Q

@[simp] theorem Prog.within_pure (a : α) (Q : α → Nat → Heap Site V → Prop) :
    (Pure.pure a : Prog Site V α).within t s R W n h Q ↔ Q a n h := Iff.rfl

@[simp] theorem Prog.within_fault (Q : α → Nat → Heap Site V → Prop) :
    (Prog.fault : Prog Site V α).within t s R W n h Q := trivial

@[simp] theorem Prog.within_load (p : Ptr Site) (f : Field) (Q : V f → Nat → Heap Site V → Prop) :
    (Prog.load p f : Prog Site V (V f)).within t s R W n h Q ↔ R (p, f) ∧ ∀ v, h (p, f) = some v →
    Q v n h :=
  Iff.rfl

@[simp] theorem Prog.within_store (p : Ptr Site) (f : Field) (v : V f)
    (Q : Unit → Nat → Heap Site V → Prop) :
    (Prog.store p f v).within t s R W n h Q ↔ W (p, f) ∧
    ((h (p, f)).isSome → Q () n (h.set p f v)) := Iff.rfl

@[simp] theorem Prog.within_new (site : Site) (cells : (f : Field) → Option (V f))
    (Q : Ptr Site → Nat → Heap Site V → Prop) :
    (Prog.new site cells : Prog Site V (Ptr Site)).within t s R W n h Q ↔
      Q ⟨t, s, n, site⟩ (n + 1) (h.place ⟨t, s, n, site⟩ cells) := Iff.rfl

@[simp] theorem Prog.within_check (o : Option α) (Q : α → Nat → Heap Site V → Prop) :
    (Prog.check o : Prog Site V α).within t s R W n h Q ↔ ∀ a, o = some a → Q a n h := by
  cases o with
  | none => simp [Prog.check]
  | some a => simp [Prog.check, Prog.within]

@[simp] theorem Prog.within_bind (m : Prog Site V α) (k : α → Prog Site V β)
    (Q : β → Nat → Heap Site V → Prop) :
    (m >>= k).within t s R W n h Q ↔
    m.within t s R W n h (fun a n' h' => (k a).within t s R W n' h' Q) := by
  change (m.bind k).within t s R W n h Q ↔ _
  induction m generalizing n h with
  | pure a => exact Iff.rfl
  | fault => exact Iff.rfl
  | read p f next ih =>
      simp only [Prog.bind, Prog.within]
      exact and_congr_right' (forall_congr' fun v => imp_congr_right fun _ => ih v)
  | write p f v next ih =>
      simp only [Prog.bind, Prog.within]
      exact and_congr_right' (imp_congr_right fun _ => ih)
  | alloc site cells next ih => exact ih _

theorem Prog.within_mono {m : Prog Site V α} {Q Q' : α → Nat → Heap Site V → Prop}
    (hm : m.within t s R W n h Q)
    (hQ : ∀ a n' h', Q a n' h' → Q' a n' h') : m.within t s R W n h Q' := by
  induction m generalizing n h with
  | pure a => exact hQ _ _ _ hm
  | fault => trivial
  | read p f next ih => exact ⟨hm.1, fun v hv => ih v (hm.2 v hv)⟩
  | write p f v next ih => exact ⟨hm.1, fun hp => ih (hm.2 hp)⟩
  | alloc site cells next ih => exact ih _ hm

end Rules

section Locality

variable {m : Prog Site V α} {Q : α → Nat → Heap Site V → Prop} {r : α × Nat × Heap Site V}

theorem Prog.within.ends (hm : m.within t s R W n h Q) (hexec : m.exec t s n h = some r) :
    Q r.1 r.2.1 r.2.2 := by
  induction m generalizing n h with
  | pure a =>
      obtain rfl := Option.some.inj hexec
      exact hm
  | fault => simp [Prog.exec] at hexec
  | read p f next ih =>
      cases hv : h (p, f) with
      | none => simp [Prog.exec, hv] at hexec
      | some v => exact ih v (hm.2 v hv) (by simpa [Prog.exec, hv] using hexec)
  | write p f v next ih =>
      by_cases hp : (h (p, f)).isSome
      · exact ih (hm.2 hp) (by simpa [Prog.exec, hp] using hexec)
      · simp [Prog.exec, hp] at hexec
  | alloc site cells next ih => exact ih _ hm hexec

theorem Prog.within.frame (hm : m.within t s R W n h Q) (hexec : m.exec t s n h = some r)
    {l : Ptr Site × Field} (hW : ¬ W l) (hnew : ¬ l.1.Fresh t s n) : r.2.2 l = h l := by
  induction m generalizing n h with
  | pure a =>
      obtain rfl := Option.some.inj hexec
      rfl
  | fault => simp [Prog.exec] at hexec
  | read p f next ih =>
      cases hv : h (p, f) with
      | none => simp [Prog.exec, hv] at hexec
      | some v => exact ih v (hm.2 v hv) (by simpa [Prog.exec, hv] using hexec) hnew
  | write p f v next ih =>
      by_cases hp : (h (p, f)).isSome
      · rw [ih (hm.2 hp) (by simpa [Prog.exec, hp] using hexec) hnew]
        exact h.set_of_ne v fun heq => hW (heq ▸ hm.1)
      · simp [Prog.exec, hp] at hexec
  | alloc site cells next ih =>
      rw [ih _ hm hexec fun hf => hnew (hf.mono (.inr ⟨rfl, Nat.le_succ n⟩))]
      exact h.place_of_ne cells l.2 (Ptr.Fresh.ne (by simp) hnew)

/-- A program runs alike in a heap with the same cells to read, and changes the same cells. -/
theorem Prog.within.exec_congr (hm : m.within t s R W n h Q) (hexec : m.exec t s n h = some r)
    (hread : ∀ l, R l → h' l = h l) (hwrite : ∀ l, W l → R l) :
    ∃ h₁, m.exec t s n h' = some (r.1, r.2.1, h₁) ∧
      ∀ l, (W l ∨ l.1.Fresh t s n) ∧ h₁ l = r.2.2 l ∨ h₁ l = h' l ∧ r.2.2 l = h l := by
  induction m generalizing n h h' with
  | pure a =>
      obtain rfl := Option.some.inj hexec
      exact ⟨h', rfl, fun l => .inr ⟨rfl, rfl⟩⟩
  | fault => simp [Prog.exec] at hexec
  | read p f next ih =>
      cases hv : h (p, f) with
      | none => simp [Prog.exec, hv] at hexec
      | some v =>
          obtain ⟨h₁, hexec', hl⟩ := ih v (hm.2 v hv) (by simpa [Prog.exec, hv] using hexec) hread
          exact ⟨h₁, by simpa [Prog.exec, hread _ hm.1, hv] using hexec', hl⟩
  | write p f v next ih =>
      by_cases hp : (h (p, f)).isSome
      · have hsame : ∀ l, l ≠ (p, f) → h'.set p f v l = h' l ∧ h.set p f v l = h l := fun l hl =>
          ⟨h'.set_of_ne v hl, h.set_of_ne v hl⟩
        have hself : h'.set p f v (p, f) = h.set p f v (p, f) := by
          rw [Heap.set_self, Heap.set_self]
        have hread' : ∀ l, R l → h'.set p f v l = h.set p f v l := by
          intro l hR
          by_cases heq : l = (p, f)
          · rw [heq, hself]
          · rw [(hsame l heq).1, (hsame l heq).2, hread l hR]
        obtain ⟨h₁, hexec', hl⟩ := ih (hm.2 hp) (by simpa [Prog.exec, hp] using hexec) hread'
        refine ⟨h₁, ?_, fun l => ?_⟩
        · rw [← hread _ (hwrite _ hm.1)] at hp
          simpa [Prog.exec, hp] using hexec'
        · rcases hl l with hnew | ⟨heq, heq'⟩
          · exact .inl hnew
          · by_cases hl : l = (p, f)
            · exact .inl ⟨.inl (hl ▸ hm.1), by rw [heq, heq', hl, hself]⟩
            · exact .inr ⟨heq.trans (hsame l hl).1, heq'.trans (hsame l hl).2⟩
      · simp [Prog.exec, hp] at hexec
  | alloc site cells next ih =>
      have hself : ∀ l : Ptr Site × Field, l.1 = ⟨t, s, n, site⟩ →
          h'.place ⟨t, s, n, site⟩ cells l = h.place ⟨t, s, n, site⟩ cells l := fun l hl => by
        simp only [Heap.place, if_pos hl]
      have hsame : ∀ l : Ptr Site × Field, l.1 ≠ ⟨t, s, n, site⟩ →
          h'.place ⟨t, s, n, site⟩ cells l = h' l ∧ h.place ⟨t, s, n, site⟩ cells l = h l :=
            fun l hl =>
        ⟨h'.place_of_ne cells l.2 hl, h.place_of_ne cells l.2 hl⟩
      have hread' : ∀ l, R l →
        h'.place ⟨t, s, n, site⟩ cells l = h.place ⟨t, s, n, site⟩ cells l := by
        intro l hR
        by_cases heq : l.1 = ⟨t, s, n, site⟩
        · exact hself l heq
        · rw [(hsame l heq).1, (hsame l heq).2, hread l hR]
      obtain ⟨h₁, hexec', hl⟩ := ih _ hm hexec hread'
      refine ⟨h₁, hexec', fun l => ?_⟩
      rcases hl l with ⟨hnew, heq⟩ | ⟨heq, heq'⟩
      · exact .inl ⟨hnew.imp_right fun hf => hf.mono (.inr ⟨rfl, Nat.le_succ n⟩), heq⟩
      · by_cases hl : l.1 = ⟨t, s, n, site⟩
        · refine .inl ⟨.inr ?_, by rw [heq, heq', hself l hl]⟩
          rw [hl]
          simp
        · exact .inr ⟨heq.trans (hsame l hl).1, heq'.trans (hsame l hl).2⟩

end Locality

section Inside

/-- The program writes blocks of its own transaction only; where it ends, it does so
in a state that `Q` describes. -/
def Prog.inside (t s : Nat) (m : Prog Site V α) (n : Nat) (h : Heap Site V)
    (Q : α → Nat → Heap Site V → Prop) : Prop :=
  m.within t s (fun _ => True) (fun l => l.1.owner = t) n h Q

@[simp] theorem Prog.inside_pure (a : α) (Q : α → Nat → Heap Site V → Prop) :
    (Pure.pure a : Prog Site V α).inside t s n h Q ↔ Q a n h := Iff.rfl

@[simp] theorem Prog.inside_fault (Q : α → Nat → Heap Site V → Prop) :
    (Prog.fault : Prog Site V α).inside t s n h Q := trivial

@[simp] theorem Prog.inside_load (p : Ptr Site) (f : Field) (Q : V f → Nat → Heap Site V → Prop) :
    (Prog.load p f : Prog Site V (V f)).inside t s n h Q ↔ ∀ v, h (p, f) = some v → Q v n h := by
  simp [Prog.inside]

@[simp] theorem Prog.inside_store (p : Ptr Site) (f : Field) (v : V f)
    (Q : Unit → Nat → Heap Site V → Prop) :
    (Prog.store p f v).inside t s n h Q ↔
      p.owner = t ∧ ((h (p, f)).isSome → Q () n (h.set p f v)) := by
  simp [Prog.inside]

@[simp] theorem Prog.inside_new (site : Site) (cells : (f : Field) → Option (V f))
    (Q : Ptr Site → Nat → Heap Site V → Prop) :
    (Prog.new site cells : Prog Site V (Ptr Site)).inside t s n h Q ↔
      Q ⟨t, s, n, site⟩ (n + 1) (h.place ⟨t, s, n, site⟩ cells) := Iff.rfl

@[simp] theorem Prog.inside_check (o : Option α) (Q : α → Nat → Heap Site V → Prop) :
    (Prog.check o : Prog Site V α).inside t s n h Q ↔ ∀ a, o = some a → Q a n h := by
  simp [Prog.inside]

@[simp] theorem Prog.inside_bind (m : Prog Site V α) (k : α → Prog Site V β)
    (Q : β → Nat → Heap Site V → Prop) :
    (m >>= k).inside t s n h Q ↔ m.inside t s n h (fun a n' h' => (k a).inside t s n' h' Q) := by
  simp [Prog.inside]

theorem Prog.inside_mono {m : Prog Site V α} {Q Q' : α → Nat → Heap Site V → Prop}
    (hm : m.inside t s n h Q) (hQ : ∀ a n' h', Q a n' h' → Q' a n' h') : m.inside t s n h Q' :=
  Prog.within_mono hm hQ

theorem Prog.inside_forM {ε : Type} {I : Nat → Heap Site V → Prop} (xs : List ε)
    {m : ε → Prog Site V Unit}
    (hm : ∀ x n h, I n h → (m x).inside t s n h (fun _ n' h' => I n' h')) (hI : I n h) :
    (xs.forM m).inside t s n h (fun _ n' h' => I n' h') := by
  induction xs generalizing n h with
  | nil => exact hI
  | cons x xs ih =>
      have hcons : (x :: xs).forM m = m x >>= fun _ => xs.forM m := rfl
      rw [hcons, Prog.inside_bind]
      exact Prog.inside_mono (hm x n h hI) fun _ n' h' hI' => ih hI'

theorem Prog.inside.frame {m : Prog Site V α} {Q : α → Nat → Heap Site V → Prop}
    {r : α × Nat × Heap Site V} (hm : m.inside t s n h Q) (hexec : m.exec t s n h = some r)
    {l : Ptr Site × Field} (hl : l.1.owner ≠ t) : r.2.2 l = h l :=
  Prog.within.frame hm hexec hl fun hf => hl hf.1

end Inside

end Contrees.Library.Memory
