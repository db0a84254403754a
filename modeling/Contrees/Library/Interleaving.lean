import Contrees.Library.Footprint
import Mathlib.Data.Prod.Lex
import Mathlib.Data.ENat.Basic

namespace Contrees.Library.Interleaving

open Memory

/-- Transactions that make their calls one by one. Where there is no transaction of a
number, `start` is `none`; else it makes the first context of the root before it. A cell
is written by the call that allocates it, and by `delay` later ones at most. -/
structure Transactions (Site : Type) {Field : Type} (V : Field → Type) (Ctx : Type) where
  handle : Ctx → Prog Site V Ctx
  done : Ctx → Bool
  root : Ctx → Option (Ptr Site)
  start : Nat → Option (Option (Ptr Site) → Ctx)
  delay : Field → Nat

/-- A serial run before its next step: the last transaction with its next call, or the
root that it has left. -/
structure Moment (Site : Type) {Field : Type} (V : Field → Type) (Ctx : Type) where
  tid : Nat
  call : Option (Nat × Ctx)
  root : Option (Ptr Site)
  heap : Heap Site V

structure State (Site : Type) {Field : Type} (V : Field → Type) (Ctx : Type) where
  call : Nat → Option (Nat × Ctx)
  heap : Heap Site V

variable {Site Field Ctx : Type} {V : Field → Type} [DecidableEq Site] [DecidableEq Field]

section Serial

def Transactions.next (T : Transactions Site V Ctx) (x : Moment Site V Ctx) :
    Option (Moment Site V Ctx) :=
  match x.call with
  | some (s, c) =>
      if T.done c then some { x with call := none, root := T.root c }
      else
        match (T.handle c).exec x.tid s 0 x.heap with
        | some (c', _, h') => some { x with call := some (s + 1, c'), heap := h' }
        | none => none
  | none => some { x with
      tid := x.tid + 1
      call := (T.start (x.tid + 1)).map (fun start => (0, start x.root)) }

def Transactions.serial (T : Transactions Site V Ctx) (r₀ : Option (Ptr Site)) (h₀ : Heap Site V) :
    Nat → Option (Moment Site V Ctx)
  | 0 => some ⟨0, none, r₀, h₀⟩
  | n + 1 => (T.serial r₀ h₀ n).bind T.next

def Moment.place (x : Moment Site V Ctx) : ℕ ×ₗ ℕ∞ :=
  toLex (x.tid, x.call.elim ⊤ (fun call => call.1))

variable {T : Transactions Site V Ctx} {r₀ : Option (Ptr Site)} {h₀ : Heap Site V} {n m t s : Nat}
    {c : Ctx}
  {x y : Moment Site V Ctx}

theorem next_done (hcall : x.call = some (s, c)) (hdone : T.done c = true) :
    T.next x = some { x with call := none, root := T.root c } := by
  simp [Transactions.next, hcall, hdone]

theorem next_call {c' : Ctx} {k : Nat} {h' : Heap Site V} (hcall : x.call = some (s, c))
    (hdone : T.done c = false)
    (hexec : (T.handle c).exec x.tid s 0 x.heap = some (c', k, h')) :
    T.next x = some { x with call := some (s + 1, c'), heap := h' } := by
  simp [Transactions.next, hcall, hdone, hexec]

theorem next_start (hcall : x.call = none) : T.next x = some { x with
    tid := x.tid + 1
    call := (T.start (x.tid + 1)).map (fun start => (0, start x.root)) } := by
  simp [Transactions.next, hcall]

theorem next_cases (h : T.next x = some y) :
    (∃ s c, x.call = some (s, c) ∧ T.done c = true ∧
    y = { x with call := none, root := T.root c }) ∨
      (∃ s c c' k h', x.call = some (s, c) ∧ T.done c = false ∧
        (T.handle c).exec x.tid s 0 x.heap = some (c', k, h') ∧
        y = { x with call := some (s + 1, c'), heap := h' }) ∨
      x.call = none ∧ y = { x with
        tid := x.tid + 1
        call := (T.start (x.tid + 1)).map (fun start => (0, start x.root)) } := by
  cases hcall : x.call with
  | none =>
      rw [next_start hcall] at h
      exact .inr (.inr ⟨rfl, (Option.some.inj h).symm⟩)
  | some call =>
      obtain ⟨s, c⟩ := call
      by_cases hdone : T.done c = true
      · rw [next_done hcall hdone] at h
        exact .inl ⟨s, c, rfl, hdone, (Option.some.inj h).symm⟩
      · cases hexec : (T.handle c).exec x.tid s 0 x.heap with
        | none => simp [Transactions.next, hcall, hdone, hexec] at h
        | some r =>
            rw [next_call hcall (by simpa using hdone) hexec] at h
            exact .inr (.inl ⟨s, c, r.1, r.2.1, r.2.2, rfl, by simpa using hdone, hexec,
              (Option.some.inj h).symm⟩)

omit [DecidableEq Site] [DecidableEq Field] in
theorem place_lt_iff : x.place < y.place ↔ x.tid < y.tid ∨ x.tid = y.tid ∧
    x.call.elim ⊤ (fun call => (call.1 : ℕ∞)) < y.call.elim ⊤ (fun call => (call.1 : ℕ∞)) :=
    Prod.Lex.toLex_lt_toLex

theorem next_lt (h : T.next x = some y) : x.place < y.place := by
  rw [place_lt_iff]
  rcases next_cases h with ⟨s, c, hcall, -, rfl⟩ | ⟨s, c, c', k, h', hcall, -, -, rfl⟩ | ⟨-, rfl⟩
  · exact .inr ⟨rfl, by simp [hcall]⟩
  · refine .inr ⟨rfl, ?_⟩
    simp only [hcall, Option.elim_some]
    exact_mod_cast Nat.lt_succ_self s
  · exact .inl (Nat.lt_succ_self _)

theorem serial_succ (hx : T.serial r₀ h₀ n = some x) : T.serial r₀ h₀ (n + 1) = T.next x := by
  rw [Transactions.serial, hx]
  rfl

theorem serial_le (hle : n ≤ m) (hy : T.serial r₀ h₀ m = some y) :
    ∃ x, T.serial r₀ h₀ n = some x := by
  induction m generalizing y with
  | zero =>
      obtain rfl := Nat.le_zero.mp hle
      exact ⟨y, hy⟩
  | succ m ih =>
      rcases hle.eq_or_lt with rfl | hlt
      · exact ⟨y, hy⟩
      · obtain ⟨z, hz, -⟩ := Option.bind_eq_some_iff.mp hy
        exact ih (Nat.le_of_lt_succ hlt) hz

theorem serial_lt (hx : T.serial r₀ h₀ n = some x) (hy : T.serial r₀ h₀ m = some y) (hlt : n < m) :
    x.place < y.place := by
  induction m generalizing y with
  | zero => exact absurd hlt (Nat.not_lt_zero n)
  | succ m ih =>
      obtain ⟨z, hz, hnext⟩ := Option.bind_eq_some_iff.mp hy
      rcases (Nat.le_of_lt_succ hlt).eq_or_lt with rfl | hlt
      · obtain rfl := Option.some.inj (hx.symm.trans hz)
        exact next_lt hnext
      · exact (ih hz hlt).trans (next_lt hnext)

theorem serial_tid_le (hle : n ≤ m) (hx : T.serial r₀ h₀ n = some x)
    (hy : T.serial r₀ h₀ m = some y) :
    x.tid ≤ y.tid := by
  rcases hle.eq_or_lt with rfl | hlt
  · obtain rfl := Option.some.inj (hx.symm.trans hy)
    exact le_refl _
  · have hplace := serial_lt hx hy hlt
    rw [place_lt_iff] at hplace
    omega

theorem serial_order (hx : T.serial r₀ h₀ n = some x) (hy : T.serial r₀ h₀ m = some y)
    (hlt : x.place < y.place) :
    n < m := by
  by_contra hle
  rcases (not_lt.mp hle).eq_or_lt with rfl | hlt'
  · obtain rfl := Option.some.inj (hx.symm.trans hy)
    exact lt_irrefl _ hlt
  · exact lt_asymm hlt (serial_lt hy hx hlt')

theorem serial_unique (hx : T.serial r₀ h₀ n = some x) (hy : T.serial r₀ h₀ m = some y)
    (heq : x.place = y.place) :
    x = y := by
  rcases lt_trichotomy n m with hlt | rfl | hlt
  · exact absurd heq (serial_lt hx hy hlt).ne
  · exact Option.some.inj (hx.symm.trans hy)
  · exact absurd heq (serial_lt hy hx hlt).ne'

theorem serial_over (hx : T.serial r₀ h₀ n = some x) (hcall : x.call = some (s, c))
    (hdone : T.done c = true)
    (hy : T.serial r₀ h₀ m = some y) (hlt : n < m) (htid : y.tid = x.tid) : y.call = none := by
  obtain ⟨z, hz⟩ := serial_le hlt hy
  have hnext := hz
  rw [serial_succ hx, next_done hcall hdone] at hnext
  obtain rfl := Option.some.inj hnext
  rcases (Nat.succ_le_of_lt hlt).eq_or_lt with rfl | hlt
  · rw [← Option.some.inj (hz.symm.trans hy)]
  · have hplace := serial_lt hz hy hlt
    rw [place_lt_iff, htid] at hplace
    simp at hplace

theorem serial_start (hx : T.serial r₀ h₀ n = some x) (hcall : x.call ≠ none) :
    1 ≤ x.tid ∧ T.start x.tid ≠ none := by
  induction n generalizing x with
  | zero =>
      obtain rfl := Option.some.inj hx
      exact absurd rfl hcall
  | succ n ih =>
      obtain ⟨z, hz, hnext⟩ := Option.bind_eq_some_iff.mp hx
      rcases next_cases hnext with ⟨s, c, -, -, rfl⟩ | ⟨s, c, c', k, h', hz', -, -, rfl⟩ | ⟨-, rfl⟩
      · exact absurd rfl hcall
      · exact ih (x := z) hz (by simp [hz'])
      · exact ⟨Nat.succ_pos _, by simpa using hcall⟩

end Serial

section Stability

variable {T : Transactions Site V Ctx} {r₀ : Option (Ptr Site)} {h₀ : Heap Site V} {n m t s : Nat}
    {c : Ctx}
  {x y : Moment Site V Ctx} {l : Ptr Site × Field}

/-- What a call may write: the cells of its own transaction that are new enough. -/
def Transactions.Open (T : Transactions Site V Ctx) (t s : Nat) (l : Ptr Site × Field) : Prop :=
  l.1.owner = t ∧ s ≤ l.1.stage + T.delay l.2

def Transactions.Timely (T : Transactions Site V Ctx) (r₀ : Option (Ptr Site)) (h₀ : Heap Site V) :
    Prop :=
  ∀ n x s c, T.serial r₀ h₀ n = some x → x.call = some (s, c) → T.done c = false →
    ∃ R Q, (T.handle c).within x.tid s R (T.Open x.tid s) 0 x.heap Q

omit [DecidableEq Site] [DecidableEq Field] in
theorem open_of_fresh (h : l.1.Fresh t s 0) : T.Open t s l := ⟨h.1, by
  have := h.2
  omega⟩

variable (htimely : T.Timely r₀ h₀)
include htimely

theorem Transactions.Timely.next (hx : T.serial r₀ h₀ n = some x) (hnext : T.next x = some y)
    (hl : ∀ s c, x.call = some (s, c) → T.done c = false → ¬ T.Open x.tid s l) :
    y.heap l = x.heap l := by
  rcases next_cases hnext with ⟨s, c, -, -, rfl⟩ | ⟨s, c, c', k, h', hcall, hdone, hexec, rfl⟩ |
    ⟨-, rfl⟩
  · rfl
  · obtain ⟨R, Q, hwithin⟩ := htimely n x s c hx hcall hdone
    exact hwithin.frame hexec (hl s c hcall hdone) fun hf => hl s c hcall hdone (open_of_fresh hf)
  · rfl

theorem Transactions.Timely.stable (hle : n ≤ m) (hx : T.serial r₀ h₀ n = some x)
    (hy : T.serial r₀ h₀ m = some y)
    (hl : ∀ k z s c, n ≤ k → k < m → T.serial r₀ h₀ k = some z → z.call = some (s, c) →
    T.done c = false →
      ¬ T.Open z.tid s l) : y.heap l = x.heap l := by
  induction m generalizing y with
  | zero =>
      obtain rfl := Nat.le_zero.mp hle
      obtain rfl := Option.some.inj (hx.symm.trans hy)
      rfl
  | succ m ih =>
      rcases hle.eq_or_lt with rfl | hlt
      · obtain rfl := Option.some.inj (hx.symm.trans hy)
        rfl
      · obtain ⟨z, hz, hnext⟩ := Option.bind_eq_some_iff.mp hy
        have hlast := htimely.next hz hnext fun s c hcall hdone =>
          hl m z s c (Nat.le_of_lt_succ hlt) (Nat.lt_succ_self m) hz hcall hdone
        rw [hlast, ih (Nat.le_of_lt_succ hlt) hz fun k z s c hk hkm =>
          hl k z s c hk (Nat.lt_succ_of_lt hkm)]

theorem Transactions.Timely.unborn (hempty : ∀ l, l.1.owner ≠ 0 → h₀ l = none)
    (hx : T.serial r₀ h₀ n = some x)
    (hpos : l.1.owner ≠ 0)
    (hl : x.tid < l.1.owner ∨ x.tid = l.1.owner ∧ ∃ c, x.call = some (0, c)) :
    x.heap l = none := by
  refine (htimely.stable (Nat.zero_le n) rfl hx ?_).trans (hempty l hpos)
  rintro k z s c - hk hz hcall - ⟨howner, -⟩
  have hlt := serial_lt hz hx hk
  rw [place_lt_iff] at hlt
  rcases hl with hl | ⟨htid, c', hx'⟩
  · omega
  · rw [hx', hcall] at hlt
    simp only [Option.elim_some, Nat.cast_zero, not_lt_zero, and_false, or_false] at hlt
    omega

theorem Transactions.Timely.skipped (hempty : ∀ l, l.1.owner ≠ 0 → h₀ l = none)
    (hx : T.serial r₀ h₀ n = some x)
    (hpos : l.1.owner ≠ 0) (hstart : T.start l.1.owner = none) : x.heap l = none := by
  refine (htimely.stable (Nat.zero_le n) rfl hx ?_).trans (hempty l hpos)
  rintro k z s c - - hz hcall - ⟨howner, -⟩
  exact (serial_start hz (by simp [hcall])).2 (howner ▸ hstart)

end Stability

section Coupled

def State.put (σ : State Site V Ctx) (t s : Nat) (c : Ctx) (h : Heap Site V) : State Site V Ctx :=
  ⟨Function.update σ.call t (some (s, c)), h⟩

omit [DecidableEq Site] [DecidableEq Field] in
@[simp] theorem State.put_self (σ : State Site V Ctx) (t s : Nat) (c : Ctx) (h : Heap Site V) :
    (σ.put t s c h).call t = some (s, c) := Function.update_self _ _ _

omit [DecidableEq Site] [DecidableEq Field] in
theorem State.put_of_ne (σ : State Site V Ctx) {t t' : Nat} (s : Nat) (c : Ctx) (h : Heap Site V)
    (hne : t' ≠ t) :
    (σ.put t s c h).call t' = σ.call t' := Function.update_of_ne hne _ _

omit [DecidableEq Site] [DecidableEq Field] in
@[simp] theorem State.put_heap (σ : State Site V Ctx) (t s : Nat) (c : Ctx) (h : Heap Site V) :
    (σ.put t s c h).heap = h := rfl

variable {T : Transactions Site V Ctx} {r₀ : Option (Ptr Site)} {h₀ : Heap Site V} {n m t s : Nat}
    {c : Ctx}
  {x y : Moment Site V Ctx} {l : Ptr Site × Field} {σ : State Site V Ctx}

/-- Each transaction is where it is in the serial run at some moment, with the cells that it has there. -/
structure Coupled (T : Transactions Site V Ctx) (r₀ : Option (Ptr Site)) (h₀ : Heap Site V)
    (σ : State Site V Ctx) : Prop where
  call : ∀ t s c, σ.call t = some (s, c) → ∃ n x, T.serial r₀ h₀ n = some x ∧ x.tid = t ∧
    x.call = some (s, c) ∧ ∀ l, l.1.owner = t → σ.heap l = x.heap l
  new : ∀ t, t ≠ 0 → σ.call t = none → ∀ l, l.1.owner = t → σ.heap l = none
  old : ∀ l, l.1.owner = 0 → σ.heap l = h₀ l

def Settled (T : Transactions Site V Ctx) (σ : State Site V Ctx) (l : Ptr Site × Field) : Prop :=
  l.1.owner = 0 ∨ ∃ s c, σ.call l.1.owner = some (s, c) ∧
    (l.1.stage + T.delay l.2 < s ∨ T.done c = true)

variable (htimely : T.Timely r₀ h₀)
include htimely

theorem Coupled.settled (h : Coupled T r₀ h₀ σ) (hl : Settled T σ l)
    (hy : T.serial r₀ h₀ m = some y)
    (hlt : l.1.owner < y.tid ∨ l.1.owner = y.tid ∧ y.call = none) : y.heap l = σ.heap l := by
  rcases hl with hzero | ⟨s, c, hcall, hclosed⟩
  · rw [h.old l hzero]
    refine htimely.stable (Nat.zero_le m) (by rfl) hy ?_
    rintro k z s c - - hz hcall - ⟨howner, -⟩
    have := (serial_start hz (by simp [hcall])).1
    omega
  · obtain ⟨n, x, hx, htid, hxcall, hheap⟩ := h.call _ s c hcall
    have hplace : x.place < y.place := by
      rw [place_lt_iff, htid]
      rcases hlt with hlt | ⟨heq, hnone⟩
      · exact .inl hlt
      · exact .inr ⟨heq, by simp [hxcall, hnone]⟩
    rw [hheap l rfl]
    refine htimely.stable (serial_order hx hy hplace).le hx hy ?_
    rintro k z s' c' hnk - hz hzcall hnot ⟨howner, hopen⟩
    -- a later call of the same transaction
    rcases hnk.eq_or_lt with rfl | hnk
    · obtain rfl := Option.some.inj (hx.symm.trans hz)
      rw [hxcall] at hzcall
      obtain ⟨rfl, rfl⟩ := Prod.mk.inj (Option.some.inj hzcall)
      rcases hclosed with hclosed | hdone
      · omega
      · simp [hdone] at hnot
    · rcases hclosed with hclosed | hdone
      · have hlt := serial_lt hx hz hnk
        rw [place_lt_iff, htid, howner, hxcall, hzcall] at hlt
        simp only [lt_irrefl, Option.elim_some, Nat.cast_lt, true_and, false_or] at hlt
        omega
      · simp [serial_over hx hxcall hdone hz hnk (howner.symm.trans htid.symm)] at hzcall

theorem Coupled.begin (h : Coupled T r₀ h₀ σ) (hempty : ∀ l, l.1.owner ≠ 0 → h₀ l = none)
    (hnone : σ.call t = none)
    (hx : T.serial r₀ h₀ n = some x) (htid : x.tid = t) (hcall : x.call = some (0, c)) :
    Coupled T r₀ h₀ (σ.put t 0 c σ.heap) where
  call t' s' c' hcall' := by
    by_cases heq : t' = t
    · subst heq
      rw [State.put_self] at hcall'
      obtain ⟨rfl, rfl⟩ := Prod.mk.inj (Option.some.inj hcall')
      refine ⟨n, x, hx, htid, hcall, fun l hl => ?_⟩
      have hpos : l.1.owner ≠ 0 := by
        have := (serial_start hx (by simp [hcall])).1
        omega
      rw [State.put_heap, h.new t' (hl ▸ hpos) hnone l hl]
      exact (htimely.unborn hempty hx hpos (.inr ⟨htid.trans hl.symm, c, hcall⟩)).symm
    · rw [State.put_of_ne _ _ _ _ heq] at hcall'
      exact h.call t' s' c' hcall'
  new t' hpos hnone' := by
    have hne : t' ≠ t := by
      rintro rfl
      simp at hnone'
    rw [State.put_of_ne _ _ _ _ hne] at hnone'
    exact h.new t' hpos hnone'
  old := h.old

/-- A call that reads its own cells and settled ones does what it does in the serial run. -/
theorem Coupled.step (h : Coupled T r₀ h₀ σ) (hgoes : ∀ n, ∃ x, T.serial r₀ h₀ n = some x)
    (hcall : σ.call t = some (s, c)) (hdone : T.done c = false) {R : Ptr Site × Field → Prop}
    {Q : Ctx → Nat → Heap Site V → Prop}
    (hwithin : ∀ n x, T.serial r₀ h₀ n = some x → x.tid = t → x.call = some (s, c) →
      (∀ l, R l → x.heap l = σ.heap l) → (T.handle c).within t s R (T.Open t s) 0 x.heap Q)
    (hopen : ∀ l, T.Open t s l → R l)
    (hread : ∀ l, R l → l.1.owner = t ∨ l.1.owner < t ∧ Settled T σ l) :
    ∃ c' k h', (T.handle c).exec t s 0 σ.heap = some (c', k, h') ∧
      Coupled T r₀ h₀ (σ.put t (s + 1) c' h') ∧
      (∀ l, l.1.owner ≠ t → h' l = σ.heap l) ∧ ∃ g, Q c' k g ∧ ∀ l, l.1.owner = t → h' l = g l := by
  obtain ⟨n, x, hx, htid, hxcall, hown⟩ := h.call t s c hcall
  have hsame : ∀ l, R l → x.heap l = σ.heap l := by
    intro l hl
    rcases hread l hl with howner | ⟨hlt, hsettled⟩
    · exact (hown l howner).symm
    · exact h.settled htimely hsettled hx (.inl (htid ▸ hlt))
  have hm := hwithin n x hx htid hxcall hsame
  -- the serial run makes the same call
  obtain ⟨y, hy⟩ := hgoes (n + 1)
  have hnext : T.next x = some y := (serial_succ hx).symm.trans hy
  rcases next_cases hnext with ⟨s', c', hcall', hdone', -⟩ |
    ⟨s', c₀, c', k, g, hcall', -, hexec, rfl⟩ | ⟨hcall', -⟩
  · rw [hxcall] at hcall'
    obtain ⟨rfl, rfl⟩ := Prod.mk.inj (Option.some.inj hcall')
    simp [hdone] at hdone'
  · rw [hxcall] at hcall'
    obtain ⟨rfl, rfl⟩ := Prod.mk.inj (Option.some.inj hcall')
    rw [htid] at hexec
    obtain ⟨h', hexec', hcells⟩ := hm.exec_congr hexec (fun l hl => (hsame l hl).symm) hopen
    have hother : ∀ l, l.1.owner ≠ t → h' l = σ.heap l := by
      intro l hl
      rcases hcells l with ⟨hnew | hnew, -⟩ | ⟨heq, -⟩
      exacts [absurd hnew.1 hl, absurd hnew.1 hl, heq]
    have hnew : ∀ l, l.1.owner = t → h' l = g l := by
      intro l hl
      rcases hcells l with ⟨-, heq⟩ | ⟨heq, heq'⟩
      · exact heq
      · rw [heq, hown l hl]
        exact heq'.symm
    refine ⟨c', k, h', hexec', ⟨fun t' s' c₁ hcall₁ => ?_, fun t' hpos hnone l hl => ?_,
      fun l hl => ?_⟩, hother,
      g, hm.ends hexec, hnew⟩
    · by_cases heq : t' = t
      · subst heq
        rw [State.put_self] at hcall₁
        obtain ⟨rfl, rfl⟩ := Prod.mk.inj (Option.some.inj hcall₁)
        exact ⟨n + 1, _, hy, htid, rfl, hnew⟩
      · rw [State.put_of_ne _ _ _ _ heq] at hcall₁
        obtain ⟨m, z, hz, hztid, hzcall, hzown⟩ := h.call t' s' c₁ hcall₁
        refine ⟨m, z, hz, hztid, hzcall, fun l hl => ?_⟩
        rw [State.put_heap, hother l (hl ▸ heq), hzown l hl]
    · have hne : t' ≠ t := by
        rintro rfl
        simp at hnone
      rw [State.put_of_ne _ _ _ _ hne] at hnone
      rw [State.put_heap, hother l (hl ▸ hne), h.new t' hpos hnone l hl]
    · have hpos := (serial_start hx (by simp [hxcall])).1
      rw [State.put_heap, hother l (by omega), h.old l hl]
  · simp [hxcall] at hcall'

/-- When all transactions are done the heap is that of the serial run. -/
theorem Coupled.agrees (h : Coupled T r₀ h₀ σ) (hempty : ∀ l, l.1.owner ≠ 0 → h₀ l = none)
    (hy : T.serial r₀ h₀ m = some y) (hnone : y.call = none)
    (hall : ∀ u, 1 ≤ u → u ≤ y.tid → T.start u ≠ none → ∃ s c, σ.call u = some (s, c) ∧
    T.done c = true) :
    ∀ l, l.1.owner ≤ y.tid → σ.heap l = y.heap l := by
  intro l hle
  have hlast : l.1.owner < y.tid ∨ l.1.owner = y.tid ∧ y.call = none := by
    rcases hle.lt_or_eq with hlt | heq
    exacts [.inl hlt, .inr ⟨heq, hnone⟩]
  by_cases hzero : l.1.owner = 0
  · exact (h.settled htimely (.inl hzero) hy hlast).symm
  · by_cases hstart : T.start l.1.owner = none
    · rw [htimely.skipped hempty hy hzero hstart]
      refine h.new _ hzero ?_ l rfl
      cases hcall : σ.call l.1.owner with
      | none => rfl
      | some call =>
          obtain ⟨n, x, hx, htid, hxcall, -⟩ := h.call _ call.1 call.2 hcall
          exact absurd (htid ▸ hstart) (serial_start hx (by simp [hxcall])).2
    · obtain ⟨s, c, hcall, hdone⟩ := hall _ (Nat.pos_of_ne_zero hzero) hle hstart
      exact (h.settled htimely (.inr ⟨s, c, hcall, .inr hdone⟩) hy hlast).symm

end Coupled

end Contrees.Library.Interleaving
