import Mathlib.Algebra.Order.Ring.Nat

namespace Contrees.Library.Memory

/-- An address, named by the transaction and the stage that allocated it, the
number of earlier allocations of that stage, and the allocation site. The
programs compare no addresses, so any allocator of fresh blocks is a renaming. -/
structure Ptr (Site : Type) where
  owner : Nat
  stage : Nat
  serial : Nat
  site : Site
deriving DecidableEq

/-- The addresses that stage `s` of transaction `t` and its later stages
allocate, `n` allocations into the stage. -/
def Ptr.Fresh {Site : Type} (t s n : Nat) (p : Ptr Site) : Prop :=
  p.owner = t ∧ (s < p.stage ∨ p.stage = s ∧ n ≤ p.serial)

theorem Ptr.Fresh.ne {Site : Type} {t s n : Nat} {p q : Ptr Site} (hp : p.Fresh t s n)
    (hq : ¬ q.Fresh t s n) : q ≠ p := fun h => hq (h ▸ hp)

theorem Ptr.Fresh.mono {Site : Type} {t s n s' n' : Nat} {p : Ptr Site} (hp : p.Fresh t s' n')
    (h : s < s' ∨ s = s' ∧ n ≤ n') : p.Fresh t s n := by
  obtain ⟨ho, hp⟩ := hp
  exact ⟨ho, by omega⟩

@[simp] theorem Ptr.fresh_mk {Site : Type} {t s n t' s' n' : Nat} {site : Site} :
    Ptr.Fresh t s n ⟨t', s', n', site⟩ ↔ t' = t ∧ (s < s' ∨ s' = s ∧ n ≤ n') := Iff.rfl

def Ptr.Before {Site : Type} (t : Nat) (p : Ptr Site) : Prop := p.owner < t

theorem Ptr.Before.not_fresh {Site : Type} {t : Nat} {p : Ptr Site} (hp : p.Before t) (s n : Nat) :
    ¬ p.Fresh t s n := fun hf => absurd hf.1 (Nat.ne_of_lt hp)

theorem Ptr.Fresh.before {Site : Type} {t s n : Nat} {p : Ptr Site} (hp : p.Fresh t s n) :
    p.Before (t + 1) := Nat.lt_succ_of_le (Nat.le_of_eq hp.1)

theorem Ptr.Before.succ {Site : Type} {t : Nat} {p : Ptr Site} (hp : p.Before t) :
    p.Before (t + 1) := Nat.lt_succ_of_lt hp

def Ptr.Between {Site : Type} (t s n n' : Nat) (p : Ptr Site) : Prop :=
  p.owner = t ∧ p.stage = s ∧ n ≤ p.serial ∧ p.serial < n'

theorem Ptr.Between.fresh {Site : Type} {t s n n' : Nat} {p : Ptr Site} (hp : p.Between t s n n') :
    p.Fresh t s n := ⟨hp.1, .inr ⟨hp.2.1, hp.2.2.1⟩⟩

theorem Ptr.Between.passed {Site : Type} {t s n n' : Nat} {p : Ptr Site} (hp : p.Between t s n n') :
    ¬ p.Fresh t s n' := by
  obtain ⟨-, hs, -, hn⟩ := hp
  rintro ⟨-, hf⟩
  omega

theorem Ptr.Between.mono {Site : Type} {t s n m m' : Nat} {p : Ptr Site} (hp : p.Between t s n m)
    (h : m ≤ m') : p.Between t s n m' := by
  obtain ⟨ho, hs, hn, hm⟩ := hp
  exact ⟨ho, hs, hn, by omega⟩

@[simp] theorem Ptr.between_mk {Site : Type} {t s n n' t' s' m : Nat} {site : Site} :
    Ptr.Between t s n n' ⟨t', s', m, site⟩ ↔ t' = t ∧ s' = s ∧ n ≤ m ∧ m < n' := Iff.rfl

variable {Site Field : Type} {V : Field → Type} {α β : Type}

/-- Every allocated block has one cell per field it uses. -/
abbrev Heap (Site : Type) {Field : Type} (V : Field → Type) :=
  (l : Ptr Site × Field) → Option (V l.2)

/-- Straight-line memory programs; `write` and `read` fault on a cell that the
block does not have. -/
inductive Prog (Site : Type) {Field : Type} (V : Field → Type) (α : Type) : Type
  | pure (a : α)
  | fault
  | read (p : Ptr Site) (f : Field) (next : V f → Prog Site V α)
  | write (p : Ptr Site) (f : Field) (v : V f) (next : Prog Site V α)
  | alloc (site : Site) (cells : (f : Field) → Option (V f)) (next : Ptr Site → Prog Site V α)

namespace Prog

def bind : Prog Site V α → (α → Prog Site V β) → Prog Site V β
  | .pure a, k => k a
  | .fault, _ => .fault
  | .read p f next, k => .read p f (fun v => (next v).bind k)
  | .write p f v next, k => .write p f v (next.bind k)
  | .alloc site cells next, k => .alloc site cells (fun p => (next p).bind k)

instance : Monad (Prog Site V) where
  pure := .pure
  bind := .bind

def load (p : Ptr Site) (f : Field) : Prog Site V (V f) := .read p f .pure

def store (p : Ptr Site) (f : Field) (v : V f) : Prog Site V Unit := .write p f v (.pure ())

def new (site : Site) (cells : (f : Field) → Option (V f)) : Prog Site V (Ptr Site) :=
  .alloc site cells .pure

def check : Option α → Prog Site V α
  | some a => .pure a
  | none => .fault

end Prog

section Execution

variable [DecidableEq Site] [DecidableEq Field]

def Heap.set (h : Heap Site V) (p : Ptr Site) (f : Field) (v : V f) : Heap Site V :=
  Function.update h (p, f) (some v)

def Heap.place (h : Heap Site V) (p : Ptr Site) (cells : (f : Field) → Option (V f)) :
    Heap Site V := fun l => if l.1 = p then cells l.2 else h l

@[simp] theorem Heap.set_self (h : Heap Site V) (p : Ptr Site) (f : Field) (v : V f) :
    h.set p f v (p, f) = some v := Function.update_self _ _ _

theorem Heap.set_of_ne (h : Heap Site V) {p : Ptr Site} {f : Field} (v : V f)
    {l : Ptr Site × Field} (hne : l ≠ (p, f)) : h.set p f v l = h l :=
  Function.update_of_ne hne _ _

@[simp] theorem Heap.set_of_ptr_ne (h : Heap Site V) {p q : Ptr Site} {f g : Field} (v : V f)
    (hne : q ≠ p) : h.set p f v (q, g) = h (q, g) :=
  h.set_of_ne v (by simp [hne])

@[simp] theorem Heap.set_of_field_ne (h : Heap Site V) {p q : Ptr Site} {f g : Field} (v : V f)
    (hne : g ≠ f) : h.set p f v (q, g) = h (q, g) :=
  h.set_of_ne v (by simp [hne])

omit [DecidableEq Field] in
@[simp] theorem Heap.place_self (h : Heap Site V) (p : Ptr Site)
    (cells : (f : Field) → Option (V f)) (f : Field) : h.place p cells (p, f) = cells f := by
  simp [Heap.place]

omit [DecidableEq Field] in
@[simp] theorem Heap.place_of_ne (h : Heap Site V) {p q : Ptr Site}
    (cells : (f : Field) → Option (V f)) (f : Field) (hne : q ≠ p) :
    h.place p cells (q, f) = h (q, f) := by
  simp [Heap.place, hne]

/-- Run a program as one handler call: stage `s` of transaction `t`, after `n`
allocations of this call. -/
def Prog.exec (t s : Nat) : Prog Site V α → Nat → Heap Site V → Option (α × Nat × Heap Site V)
  | .pure a, n, h => some (a, n, h)
  | .fault, _, _ => none
  | .read p f next, n, h =>
      match h (p, f) with
      | some v => (next v).exec t s n h
      | none => none
  | .write p f v next, n, h => if (h (p, f)).isSome then next.exec t s n (h.set p f v) else none
  | .alloc site cells next, n, h =>
      let p := ⟨t, s, n, site⟩
      (next p).exec t s (n + 1) (h.place p cells)

@[simp] theorem Prog.exec_pure (t s n : Nat) (a : α) (h : Heap Site V) :
    (Pure.pure a : Prog Site V α).exec t s n h = some (a, n, h) := rfl

theorem Prog.exec_bind (t s n : Nat) (m : Prog Site V α) (k : α → Prog Site V β)
    (h : Heap Site V) :
    (m >>= k).exec t s n h = (m.exec t s n h).bind (fun r => (k r.1).exec t s r.2.1 r.2.2) := by
  change (m.bind k).exec t s n h = _
  induction m generalizing n h with
  | pure a => rfl
  | fault => rfl
  | read p f next ih =>
      cases hv : h (p, f) with
      | none => simp [Prog.bind, Prog.exec, hv]
      | some v => simpa [Prog.bind, Prog.exec, hv] using ih v n h
  | write p f v next ih =>
      by_cases hp : (h (p, f)).isSome
      · simpa [Prog.bind, Prog.exec, hp] using ih n (h.set p f v)
      · simp [Prog.bind, Prog.exec, hp]
  | alloc site cells next ih =>
      simpa [Prog.bind, Prog.exec] using ih _ (n + 1) _

@[simp] theorem Prog.exec_load (t s n : Nat) (p : Ptr Site) (f : Field) (h : Heap Site V) :
    (Prog.load p f : Prog Site V (V f)).exec t s n h = (h (p, f)).map (fun v => (v, n, h)) := by
  cases hv : h (p, f) <;> simp [Prog.load, Prog.exec, hv]

@[simp] theorem Prog.exec_new (t s n : Nat) (site : Site) (cells : (f : Field) → Option (V f))
    (h : Heap Site V) : (Prog.new site cells : Prog Site V (Ptr Site)).exec t s n h =
      some (⟨t, s, n, site⟩, n + 1, h.place ⟨t, s, n, site⟩ cells) := rfl

@[simp] theorem Prog.exec_check (t s n : Nat) (o : Option α) (h : Heap Site V) :
    (Prog.check o : Prog Site V α).exec t s n h = o.map (fun a => (a, n, h)) := by
  cases o <;> rfl

/-- The program ends without a fault, in a state that `Q` describes. -/
def Prog.wp (t s : Nat) (m : Prog Site V α) (n : Nat) (h : Heap Site V)
    (Q : α → Nat → Heap Site V → Prop) : Prop :=
  ∃ r, m.exec t s n h = some r ∧ Q r.1 r.2.1 r.2.2

variable {t s n : Nat} {h : Heap Site V}

theorem Prog.wp_mono {m : Prog Site V α} {Q R : α → Nat → Heap Site V → Prop}
    (hm : m.wp t s n h Q) (hQ : ∀ a n' h', Q a n' h' → R a n' h') : m.wp t s n h R := by
  obtain ⟨r, hexec, hq⟩ := hm
  exact ⟨r, hexec, hQ _ _ _ hq⟩

theorem Prog.wp_and {m : Prog Site V α} {Q R : α → Nat → Heap Site V → Prop}
    (hq : m.wp t s n h Q) (hr : m.wp t s n h R) :
    m.wp t s n h (fun a n' h' => Q a n' h' ∧ R a n' h') := by
  obtain ⟨r, hexec, hq⟩ := hq
  obtain ⟨r', hexec', hr⟩ := hr
  obtain rfl : r = r' := Option.some.inj (hexec.symm.trans hexec')
  exact ⟨r, hexec, hq, hr⟩

@[simp] theorem Prog.wp_pure (a : α) (Q : α → Nat → Heap Site V → Prop) :
    (Pure.pure a : Prog Site V α).wp t s n h Q ↔ Q a n h := by
  simp [Prog.wp]

@[simp] theorem Prog.wp_fault (Q : α → Nat → Heap Site V → Prop) :
    ¬ (Prog.fault : Prog Site V α).wp t s n h Q := by
  simp [Prog.wp, Prog.exec]

@[simp] theorem Prog.wp_bind (m : Prog Site V α) (k : α → Prog Site V β)
    (Q : β → Nat → Heap Site V → Prop) :
    (m >>= k).wp t s n h Q ↔ m.wp t s n h (fun a n' h' => (k a).wp t s n' h' Q) := by
  simp only [Prog.wp, Prog.exec_bind]
  constructor
  · rintro ⟨r, hexec, hq⟩
    obtain ⟨r₁, hm, hk⟩ := Option.bind_eq_some_iff.mp hexec
    exact ⟨r₁, hm, r, hk, hq⟩
  · rintro ⟨r₁, hm, r, hk, hq⟩
    exact ⟨r, by rw [hm]; exact hk, hq⟩

@[simp] theorem Prog.wp_load (p : Ptr Site) (f : Field) (Q : V f → Nat → Heap Site V → Prop) :
    (Prog.load p f : Prog Site V (V f)).wp t s n h Q ↔ ∃ v, h (p, f) = some v ∧ Q v n h := by
  cases hv : h (p, f) <;> simp [Prog.wp, hv]

@[simp] theorem Prog.wp_store (p : Ptr Site) (f : Field) (v : V f)
    (Q : Unit → Nat → Heap Site V → Prop) :
    (Prog.store p f v).wp t s n h Q ↔ (h (p, f)).isSome ∧ Q () n (h.set p f v) := by
  by_cases hp : (h (p, f)).isSome <;> simp [Prog.wp, Prog.store, Prog.exec, hp]

@[simp] theorem Prog.wp_new (site : Site) (cells : (f : Field) → Option (V f))
    (Q : Ptr Site → Nat → Heap Site V → Prop) :
    (Prog.new site cells : Prog Site V (Ptr Site)).wp t s n h Q ↔
      Q ⟨t, s, n, site⟩ (n + 1) (h.place ⟨t, s, n, site⟩ cells) := by
  simp [Prog.wp]

@[simp] theorem Prog.wp_check (o : Option α) (Q : α → Nat → Heap Site V → Prop) :
    (Prog.check o : Prog Site V α).wp t s n h Q ↔ ∃ a, o = some a ∧ Q a n h := by
  cases o <;> simp [Prog.wp]

def Prog.wlp (t s : Nat) (m : Prog Site V α) (n : Nat) (h : Heap Site V)
    (Q : α → Nat → Heap Site V → Prop) : Prop :=
  ∀ r, m.exec t s n h = some r → Q r.1 r.2.1 r.2.2

theorem Prog.wlp_mono {m : Prog Site V α} {Q R : α → Nat → Heap Site V → Prop}
    (hm : m.wlp t s n h Q) (hQ : ∀ a n' h', Q a n' h' → R a n' h') : m.wlp t s n h R :=
  fun r hexec => hQ _ _ _ (hm r hexec)

@[simp] theorem Prog.wlp_pure (a : α) (Q : α → Nat → Heap Site V → Prop) :
    (Pure.pure a : Prog Site V α).wlp t s n h Q ↔ Q a n h := by
  simp [Prog.wlp]

@[simp] theorem Prog.wlp_bind (m : Prog Site V α) (k : α → Prog Site V β)
    (Q : β → Nat → Heap Site V → Prop) :
    (m >>= k).wlp t s n h Q ↔ m.wlp t s n h (fun a n' h' => (k a).wlp t s n' h' Q) := by
  simp only [Prog.wlp, Prog.exec_bind]
  constructor
  · intro hall r₁ hm r hk
    exact hall r (by rw [hm]; exact hk)
  · intro hall r hexec
    obtain ⟨r₁, hm, hk⟩ := Option.bind_eq_some_iff.mp hexec
    exact hall r₁ hm r hk

@[simp] theorem Prog.wlp_load (p : Ptr Site) (f : Field) (Q : V f → Nat → Heap Site V → Prop) :
    (Prog.load p f : Prog Site V (V f)).wlp t s n h Q ↔ ∀ v, h (p, f) = some v → Q v n h := by
  cases hv : h (p, f) <;> simp [Prog.wlp, hv]

@[simp] theorem Prog.wlp_store (p : Ptr Site) (f : Field) (v : V f)
    (Q : Unit → Nat → Heap Site V → Prop) :
    (Prog.store p f v).wlp t s n h Q ↔ ((h (p, f)).isSome → Q () n (h.set p f v)) := by
  by_cases hp : (h (p, f)).isSome <;> simp [Prog.wlp, Prog.store, Prog.exec, hp]

@[simp] theorem Prog.wlp_new (site : Site) (cells : (f : Field) → Option (V f))
    (Q : Ptr Site → Nat → Heap Site V → Prop) :
    (Prog.new site cells : Prog Site V (Ptr Site)).wlp t s n h Q ↔
      Q ⟨t, s, n, site⟩ (n + 1) (h.place ⟨t, s, n, site⟩ cells) := by
  simp [Prog.wlp]

@[simp] theorem Prog.wlp_check (o : Option α) (Q : α → Nat → Heap Site V → Prop) :
    (Prog.check o : Prog Site V α).wlp t s n h Q ↔ ∀ a, o = some a → Q a n h := by
  cases o <;> simp [Prog.wlp]

def Heap.Keeps (t : Nat) (h h' : Heap Site V) : Prop :=
  ∀ p : Ptr Site, p.Before t → ∀ f, h' (p, f) = h (p, f)

omit [DecidableEq Site] [DecidableEq Field] in
theorem Heap.Keeps.refl (t : Nat) (h : Heap Site V) : h.Keeps t h := fun _ _ _ => rfl

omit [DecidableEq Site] [DecidableEq Field] in
theorem Heap.Keeps.trans {h' h'' : Heap Site V} (hk : h.Keeps t h') (hk' : h'.Keeps t h'') :
    h.Keeps t h'' := fun p hp f => (hk' p hp f).trans (hk p hp f)

theorem Heap.Keeps.set {h' : Heap Site V} (hk : h.Keeps t h') {p : Ptr Site} (hp : ¬ p.Before t)
    (f : Field) (v : V f) : h.Keeps t (h'.set p f v) := by
  intro q hq g
  have hne : q ≠ p := fun heq => hp (heq ▸ hq)
  rw [Heap.set_of_ptr_ne h' v hne]
  exact hk q hq g

omit [DecidableEq Field] in
theorem Heap.Keeps.place {h' : Heap Site V} (hk : h.Keeps t h') {p : Ptr Site}
    (hp : ¬ p.Before t) (cells : (f : Field) → Option (V f)) : h.Keeps t (h'.place p cells) := by
  intro q hq g
  have hne : q ≠ p := fun heq => hp (heq ▸ hq)
  rw [Heap.place_of_ne h' cells g hne]
  exact hk q hq g

omit [DecidableEq Site] in
@[simp] theorem Ptr.not_before (site : Site) : ¬ Ptr.Before t ⟨t, s, n, site⟩ := Nat.lt_irrefl t

end Execution

end Contrees.Library.Memory
