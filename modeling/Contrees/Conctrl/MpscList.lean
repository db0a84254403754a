import Contrees.Library.Runs
import Mathlib.Data.List.Infix
import Mathlib.Data.List.Nodup
import Mathlib.Logic.Function.Basic

namespace Contrees.Conctrl.MpscList

open Library.Runs

inductive Node (α : Type)
  | stub
  | item (a : α)
deriving DecidableEq

variable {ι α : Type} [DecidableEq ι] [DecidableEq α]

/-- Where a thread is inside `push`: the item's `next` is null, or `head_` is
exchanged and the link from the previous head is still to be written. -/
inductive Push (α : Type)
  | idle
  | exchanging (item : Node α)
  | linking (prev item : Node α)

/-- Where the consumer is inside `pop`, whose local `tail` is kept. -/
inductive Pop (α : Type)
  | idle
  | second (tail : Node α)
  | loadHead (tail : Node α)
  | pushing (tail : Node α)

/-- `pushes none` is the consumer's own `push(&stub_)`. `exchanged`, `returned`
and `gap` are history: the items in the order of their exchanges, the nodes that
`pop` returned, and whether some push was exchanged but not linked at a moment
of the `pop` that runs. -/
structure State (ι α : Type) where
  next : Node α → Option (Node α)
  head : Node α
  tail : Node α
  pushes : Option ι → Push α
  pop : Pop α
  exchanged : List (Node α)
  returned : List (Node α)
  gap : Prop

def initial : State ι α where
  next := fun _ => none
  head := .stub
  tail := .stub
  pushes := fun _ => .idle
  pop := .idle
  exchanged := []
  returned := []
  gap := False

def clearNext (s : State ι α) (t : Option ι) (item : Node α) : State ι α :=
  { s with
    next := Function.update s.next item none
    pushes := Function.update s.pushes t (.exchanging item) }

def exchange (s : State ι α) (t : Option ι) (item : Node α) : State ι α :=
  { s with
    head := item
    pushes := Function.update s.pushes t (.linking s.head item)
    exchanged := if item = .stub then s.exchanged else s.exchanged ++ [item]
    gap := s.gap ∨ t ≠ none }

def link (s : State ι α) (t : Option ι) (prev item : Node α) : State ι α :=
  { s with
    next := Function.update s.next prev (some item)
    pushes := Function.update s.pushes t .idle }

def Unlinked (s : State ι α) : Prop := ∃ p prev item, s.pushes (some p) = .linking prev item

/-- `tail_ = next; return tail`. -/
def take (s : State ι α) (tail next : Node α) : State ι α :=
  { s with tail := next, pop := .idle, returned := s.returned ++ [tail] }

/-- Each step of `pop` up to its `push(&stub_)` reads `next` or `head_` once. -/
def popStep (s : State ι α) : State ι α :=
  match s.pop with
  | .idle =>
      let s := { s with gap := Unlinked s }
      match s.tail, s.next s.tail with
      | .stub, none => s
      | .stub, some next => { s with tail := next, pop := .second next }
      | .item _, none => { s with pop := .loadHead s.tail }
      | .item _, some next => take s s.tail next
  | .second tail =>
      match s.next tail with
      | some next => take s tail next
      | none => { s with pop := .loadHead tail }
  | .loadHead tail =>
      if tail = s.head then { clearNext s none .stub with pop := .pushing tail }
      else { s with pop := .idle }
  | .pushing tail =>
      match s.next tail with
      | some next => take s tail next
      | none => { s with pop := .idle }

def consume (s : State ι α) : State ι α :=
  match s.pushes none with
  | .idle => popStep s
  | .exchanging item => exchange s none item
  | .linking prev item => link s none prev item

def popped (s : State ι α) : Option (Node α) :=
  match s.pushes none, s.pop with
  | .idle, .idle => if s.tail ≠ .stub ∧ (s.next s.tail).isSome then some s.tail else none
  | .idle, .second tail | .idle, .pushing tail => if (s.next tail).isSome then some tail else none
  | _, _ => none

def PopsNull (s : State ι α) : Prop :=
  match s.pop with
  | .idle => s.tail = .stub ∧ s.next s.tail = none
  | .second _ => False
  | .loadHead tail => tail ≠ s.head
  | .pushing tail => s.pushes none = .idle ∧ s.next tail = none

/-- An item is in the list from its exchange until `pop` returns it. -/
def InList (s : State ι α) (a : α) : Prop :=
  s.returned.count (.item a) < s.exchanged.count (.item a)

instance (s : State ι α) (a : α) : Decidable (InList s a) :=
  inferInstanceAs (Decidable (_ < _))

def Push.holds : Push α → Option (Node α)
  | .idle => none
  | .exchanging item | .linking _ item => some item

inductive Actor (ι : Type)
  | producer (p : ι)
  | consumer

/-- A producer pushes an item that is not in the list and that no other
producer is pushing. -/
inductive Step : Actor ι → State ι α → State ι α → Prop
  | clear (s) (p a) (hp : s.pushes (some p) = .idle) (hlist : ¬ InList s a)
      (hheld : ∀ t, (s.pushes t).holds ≠ some (.item a)) :
      Step (.producer p) s (clearNext s (some p) (.item a))
  | exchange (s) (p item) (hp : s.pushes (some p) = .exchanging item) :
      Step (.producer p) s (exchange s (some p) item)
  | link (s) (p prev item) (hp : s.pushes (some p) = .linking prev item) :
      Step (.producer p) s (link s (some p) prev item)
  | pop (s) (hp : s.pushes none = .idle) : Step .consumer s (popStep s)
  | exchangeStub (s) (item) (hp : s.pushes none = .exchanging item) :
      Step .consumer s (MpscList.exchange s none item)
  | linkStub (s) (prev item) (hp : s.pushes none = .linking prev item) :
      Step .consumer s (MpscList.link s none prev item)

def Adjacent {β : Type} (L : List β) (x y : β) : Prop := ∃ l r, L = l ++ x :: y :: r

def Link (s : State ι α) (x y : Node α) : Prop :=
  (s.next x = some y ∧ ∀ t z, s.pushes t ≠ .linking x z) ∨
    (s.next x = none ∧ ∃ t, s.pushes t = .linking x y)

/-- `L` are the nodes from `tail_` to `head_`. -/
structure Chain (s : State ι α) (L : List (Node α)) : Prop where
  tail : L.head? = some s.tail
  head : L.getLast? = some s.head
  nodup : L.Nodup
  links : ∀ x y, Adjacent L x y → Link s x y
  ended : s.next s.head = none ∧ ∀ t z, s.pushes t ≠ .linking s.head z
  linking : ∀ t x y, s.pushes t = .linking x y → Adjacent L x y
  items : s.exchanged = s.returned ++ L.filter (· ≠ .stub)

namespace Adjacent

variable {β : Type} {L : List β} {x y z b : β}

theorem left (h : Adjacent L x y) : x ∈ L := by
  obtain ⟨l, r, rfl⟩ := h
  simp

theorem right (h : Adjacent L x y) : y ∈ L := by
  obtain ⟨l, r, rfl⟩ := h
  simp

theorem cons_iff : Adjacent (b :: L) x y ↔ (b = x ∧ L.head? = some y) ∨ Adjacent L x y := by
  constructor
  · rintro ⟨l, r, h⟩
    cases l with
    | nil =>
        simp only [List.nil_append, List.cons.injEq] at h
        exact Or.inl ⟨h.1, by simp [h.2]⟩
    | cons c l =>
        simp only [List.cons_append, List.cons.injEq] at h
        exact Or.inr ⟨l, r, h.2⟩
  · rintro (⟨rfl, h⟩ | ⟨l, r, rfl⟩)
    · obtain ⟨r, rfl⟩ := List.head?_eq_some_iff.1 h
      exact ⟨[], r, rfl⟩
    · exact ⟨b :: l, r, rfl⟩

theorem snoc_iff : Adjacent (L ++ [b]) x y ↔ Adjacent L x y ∨ (L.getLast? = some x ∧ b = y) := by
  induction L with
  | nil =>
      rw [List.nil_append, cons_iff]
      simp [Adjacent]
  | cons c L ih =>
      rw [List.cons_append, cons_iff, ih, cons_iff]
      cases L with
      | nil => simp [Adjacent]
      | cons d L => simp [or_assoc]

theorem unique (hL : L.Nodup) (hy : Adjacent L x y) (hz : Adjacent L x z) : y = z := by
  induction L with
  | nil => simp [Adjacent] at hy
  | cons c L ih =>
      rw [List.nodup_cons] at hL
      rw [cons_iff] at hy hz
      rcases hy with ⟨rfl, hy⟩ | hy
      · rcases hz with ⟨-, hz⟩ | hz
        · exact Option.some.inj (hy.symm.trans hz)
        · exact absurd hz.left hL.1
      · rcases hz with ⟨rfl, hz⟩ | hz
        · exact absurd hy.left hL.1
        · exact ih hL.2 hy hz

theorem ne_last (hL : L.Nodup) (hy : Adjacent L x y) : L.getLast? ≠ some x := by
  obtain ⟨l, r, rfl⟩ := hy
  intro h
  have hx : x ∈ (y :: r : List β) := by
    apply List.mem_of_getLast?
    simpa [List.getLast?_append, List.getLast?_cons_cons] using h
  have := (List.nodup_append.1 hL).2.1
  exact (List.nodup_cons.1 this).1 hx

end Adjacent

def Pop.tail : Pop α → Option (Node α)
  | .idle => none
  | .second tail | .loadHead tail | .pushing tail => some tail

structure Owned (pushes : Option ι → Push α) : Prop where
  unique : ∀ t t' x, (pushes t).holds = some x → (pushes t').holds = some x → t = t'
  producer : ∀ p x, (pushes (some p)).holds = some x → x ≠ .stub
  consumer : ∀ x, (pushes none).holds = some x → x = .stub

/-- The invariant: `L` is the list, a thread that has not exchanged yet holds a
node outside of it, and the consumer's locals describe its first node. -/
structure Inv (s : State ι α) (L : List (Node α)) : Prop where
  chain : Chain s L
  owned : Owned s.pushes
  exchanging : ∀ t x, s.pushes t = .exchanging x → x ∉ L ∧ s.next x = none
  waiting : s.pushes none ≠ .idle → ∃ tail, s.pop = .pushing tail
  kept : ∀ tail, s.pop.tail = some tail → s.tail = tail ∧ tail ≠ .stub
  loaded : ∀ tail, s.pop = .loadHead tail → s.gap ∨ L = [tail]
  pushed : ∀ tail, s.pop = .pushing tail → (∀ x, s.pushes none ≠ .exchanging x) → .stub ∈ L
  gap : s.pop ≠ .idle → Unlinked s → s.gap

section Chains

variable {s s' : State ι α} {L : List (Node α)}

omit [DecidableEq ι] in
theorem Chain.next_some (h : Chain s L) {y : Node α} (hy : s.next s.tail = some y) :
    ∃ r, L = s.tail :: y :: r ∧ ∀ t z, s.pushes t ≠ .linking s.tail z := by
  obtain ⟨r, rfl⟩ := List.head?_eq_some_iff.1 h.tail
  cases r with
  | nil =>
      have hhead : s.tail = s.head := by simpa using h.head
      have := h.ended.1
      rw [← hhead, hy] at this
      simp at this
  | cons z r =>
      rcases h.links s.tail z ⟨[], r, rfl⟩ with ⟨hz, hpushes⟩ | ⟨hz, -⟩
      · obtain rfl : z = y := Option.some.inj (hz.symm.trans hy)
        exact ⟨r, rfl, hpushes⟩
      · rw [hz] at hy
        simp at hy

omit [DecidableEq ι] in
theorem Chain.next_none (h : Chain s L) (hnone : s.next s.tail = none) :
    L = [s.tail] ∨ ∃ t y, s.pushes t = .linking s.tail y := by
  obtain ⟨r, rfl⟩ := List.head?_eq_some_iff.1 h.tail
  cases r with
  | nil => exact Or.inl rfl
  | cons z r =>
      rcases h.links s.tail z ⟨[], r, rfl⟩ with ⟨hz, -⟩ | ⟨-, t, ht⟩
      · rw [hnone] at hz
        simp at hz
      · exact Or.inr ⟨t, z, ht⟩

omit [DecidableEq ι] in
theorem Chain.congr (h : Chain s L) (htail : s'.tail = s.tail) (hhead : s'.head = s.head)
    (hnext : ∀ x ∈ L, s'.next x = s.next x)
    (hpushes : ∀ t x y, s'.pushes t = .linking x y ↔ s.pushes t = .linking x y)
    (hitems : s'.exchanged = s'.returned ++ L.filter (· ≠ .stub)) : Chain s' L where
  tail := by rw [htail, h.tail]
  head := by rw [hhead, h.head]
  nodup := h.nodup
  links x y hxy := by
    simp only [Link, ne_eq, hpushes, hnext x hxy.left]
    exact h.links x y hxy
  ended := by
    simp only [hhead, ne_eq, hpushes, hnext _ (List.mem_of_getLast? h.head)]
    exact h.ended
  linking t x y hxy := h.linking t x y ((hpushes t x y).1 hxy)
  items := hitems

omit [DecidableEq ι] in
theorem Chain.rest {y : Node α} {r : List (Node α)} (h : Chain s (s.tail :: y :: r))
    (hfree : ∀ t z, s.pushes t ≠ .linking s.tail z) (htail : s'.tail = y)
    (hhead : s'.head = s.head) (hnext : s'.next = s.next) (hpushes : s'.pushes = s.pushes)
    (hitems : s'.exchanged = s'.returned ++ (y :: r).filter (· ≠ .stub)) :
    Chain s' (y :: r) where
  tail := by rw [htail]; rfl
  head := by
    have := h.head
    rw [List.getLast?_cons_cons] at this
    rw [this, hhead]
  nodup := (List.nodup_cons.1 h.nodup).2
  links x z hxz := by
    simp only [Link, hnext, hpushes]
    exact h.links x z (Adjacent.cons_iff.2 (Or.inr hxz))
  ended := by
    rw [hhead, hnext, hpushes]
    exact h.ended
  linking t x z hxz := by
    rw [hpushes] at hxz
    rcases Adjacent.cons_iff.1 (h.linking t x z hxz) with ⟨rfl, -⟩ | hxz'
    · exact absurd hxz (hfree t z)
    · exact hxz'
  items := hitems

theorem Chain.clearNext (h : Chain s L) (t : Option ι) {item : Node α} (hitem : item ∉ L)
    (hidle : ∀ x y, s.pushes t ≠ .linking x y) : Chain (clearNext s t item) L := by
  refine h.congr rfl rfl ?_ ?_ ?_
  · intro x hx
    exact Function.update_of_ne (by rintro rfl; exact hitem hx) _ _
  · intro t' x y
    by_cases ht : t' = t
    · subst ht
      simp [MpscList.clearNext, hidle]
    · simp [MpscList.clearNext, ht]
  · exact h.items

theorem exchange_linking {t t' : Option ι} {item x y : Node α}
    (hp : s.pushes t = .exchanging item) :
    (exchange s t item).pushes t' = .linking x y ↔
      s.pushes t' = .linking x y ∨ (t' = t ∧ s.head = x ∧ item = y) := by
  by_cases ht : t' = t
  · subst ht
    simp [exchange, hp]
  · simp [exchange, ht]

theorem Chain.exchange (h : Chain s L) {t : Option ι} {item : Node α}
    (hp : s.pushes t = .exchanging item) (hitem : item ∉ L) (hnext : s.next item = none) :
    Chain (exchange s t item) (L ++ [item]) where
  tail := by rw [List.head?_append, h.tail]; rfl
  head := by simp [MpscList.exchange]
  nodup := List.nodup_append.2 ⟨h.nodup, List.nodup_singleton _, by
    rintro x hx y hy rfl
    exact hitem (List.mem_singleton.1 hy ▸ hx)⟩
  links x y hxy := by
    simp only [Link, ne_eq, exchange_linking hp]
    rcases Adjacent.snoc_iff.1 hxy with hxy | ⟨hx, rfl⟩
    · have hne : s.head ≠ x := by
        rintro rfl
        exact hxy.ne_last h.nodup h.head
      rcases h.links x y hxy with ⟨hy, hfree⟩ | ⟨hy, t', ht'⟩
      · exact Or.inl ⟨hy, fun t' z => by simp [hfree t' z, hne]⟩
      · exact Or.inr ⟨hy, t', Or.inl ht'⟩
    · obtain rfl : s.head = x := Option.some.inj (h.head.symm.trans hx)
      exact Or.inr ⟨h.ended.1, t, Or.inr ⟨rfl, rfl, rfl⟩⟩
  ended := by
    refine ⟨hnext, fun t' z hz => ?_⟩
    rcases (exchange_linking hp).1 hz with hz | ⟨-, hz, -⟩
    · exact hitem (h.linking t' item z hz).left
    · have hhead : s.head = item := hz
      exact hitem (hhead ▸ List.mem_of_getLast? h.head)
  linking t' x y hxy := by
    rcases (exchange_linking hp).1 hxy with hxy | ⟨-, rfl, rfl⟩
    · exact Adjacent.snoc_iff.2 (Or.inl (h.linking t' x y hxy))
    · exact Adjacent.snoc_iff.2 (Or.inr ⟨h.head, rfl⟩)
  items := by
    by_cases hstub : item = .stub
    · simp [MpscList.exchange, hstub, h.items]
    · simp [MpscList.exchange, hstub, h.items]

theorem Chain.link (h : Chain s L) {t : Option ι} {prev item : Node α}
    (hp : s.pushes t = .linking prev item)
    (howner : ∀ t', (s.pushes t').holds = some item → t' = t) :
    Chain (link s t prev item) L := by
  have hadj := h.linking t prev item hp
  have hpushes : ∀ t' x y, (MpscList.link s t prev item).pushes t' = .linking x y ↔
      s.pushes t' = .linking x y ∧ x ≠ prev := by
    intro t' x y
    by_cases ht : t' = t
    · subst ht
      simp [MpscList.link, hp]
      rintro rfl rfl
      rfl
    · simp only [MpscList.link, ne_eq, ht, not_false_eq_true, Function.update_of_ne,
        iff_self_and]
      rintro hxy rfl
      obtain rfl : y = item := Adjacent.unique h.nodup (h.linking t' x y hxy) hadj
      exact ht (howner t' (by rw [hxy]; rfl))
  have hnext : ∀ x, x ≠ prev → (MpscList.link s t prev item).next x = s.next x :=
    fun x hx => Function.update_of_ne hx _ _
  have hlast : s.head ≠ prev := by
    rintro rfl
    exact hadj.ne_last h.nodup h.head
  refine ⟨h.tail, h.head, h.nodup, ?_, ?_, ?_, h.items⟩
  · intro x y hxy
    simp only [Link, ne_eq, hpushes]
    by_cases hx : x = prev
    · subst hx
      obtain rfl := Adjacent.unique h.nodup hxy hadj
      exact Or.inl ⟨Function.update_self .., by simp⟩
    · rw [hnext x hx]
      simpa [Link, hx] using h.links x y hxy
  · refine ⟨(hnext s.head hlast).trans h.ended.1, fun t' z hz => ?_⟩
    exact h.ended.2 t' z ((hpushes t' _ z).1 hz).1
  · intro t' x y hxy
    exact h.linking t' x y ((hpushes t' x y).1 hxy).1

end Chains

section Ownership

variable {pushes pushes' : Option ι → Push α}

omit [DecidableEq ι] [DecidableEq α] in
theorem Owned.mono (h : Owned pushes)
    (hle : ∀ t x, (pushes' t).holds = some x → (pushes t).holds = some x) : Owned pushes' where
  unique t t' x ht ht' := h.unique t t' x (hle t x ht) (hle t' x ht')
  producer p x hx := h.producer p x (hle _ x hx)
  consumer x hx := h.consumer x (hle _ x hx)

omit [DecidableEq α] in
theorem Owned.acquire (h : Owned pushes) {t : Option ι} {item : Node α}
    (hfree : ∀ t', (pushes t').holds ≠ some item) (hstub : item = .stub ↔ t = none) :
    Owned (Function.update pushes t (.exchanging item)) where
  unique t₁ t₂ x h₁ h₂ := by
    by_cases e₁ : t₁ = t <;> by_cases e₂ : t₂ = t
    · rw [e₁, e₂]
    · subst e₁
      rw [Function.update_self] at h₁
      rw [Function.update_of_ne e₂, ← h₁] at h₂
      exact absurd h₂ (hfree t₂)
    · subst e₂
      rw [Function.update_self] at h₂
      rw [Function.update_of_ne e₁, ← h₂] at h₁
      exact absurd h₁ (hfree t₁)
    · rw [Function.update_of_ne e₁] at h₁
      rw [Function.update_of_ne e₂] at h₂
      exact h.unique t₁ t₂ x h₁ h₂
  producer p x hx := by
    by_cases e : some p = t
    · subst e
      obtain rfl : item = x := by simpa [Push.holds] using hx
      simpa using hstub
    · rw [Function.update_of_ne e] at hx
      exact h.producer p x hx
  consumer x hx := by
    by_cases e : none = t
    · subst e
      obtain rfl : item = x := by simpa [Push.holds] using hx
      simpa using hstub
    · rw [Function.update_of_ne e] at hx
      exact h.consumer x hx

end Ownership

section Steps

variable {s : State ι α} {L : List (Node α)}

omit [DecidableEq ι] in
theorem Inv.inList_iff (h : Inv s L) (a : α) : InList s a ↔ .item a ∈ L := by
  simp only [InList, h.chain.items, List.count_append]
  rw [← List.count_pos_iff (a := Node.item a) (l := L), List.count_filter (by simp)]
  omega

theorem Inv.exchange (h : Inv s L) {t : Option ι} {item : Node α}
    (hp : s.pushes t = .exchanging item) : Inv (exchange s t item) (L ++ [item]) where
  chain := h.chain.exchange hp (h.exchanging t item hp).1 (h.exchanging t item hp).2
  owned := by
    apply h.owned.mono
    intro t' x hx
    by_cases ht : t' = t
    · subst ht
      simpa [MpscList.exchange, hp, Push.holds] using hx
    · simpa [MpscList.exchange, ht] using hx
  exchanging t' x hx := by
    have ht : t' ≠ t := by
      rintro rfl
      simp [MpscList.exchange] at hx
    replace hx : s.pushes t' = .exchanging x := by simpa [MpscList.exchange, ht] using hx
    have hne : x ≠ item := by
      rintro rfl
      exact ht (h.owned.unique t' t x (by rw [hx]; rfl) (by rw [hp]; rfl))
    obtain ⟨hmem, hnext⟩ := h.exchanging t' x hx
    exact ⟨by simp [hmem, hne], hnext⟩
  waiting hne := by
    apply h.waiting
    rintro hidle
    have ht : none ≠ t := by
      rintro rfl
      rw [hidle] at hp
      simp at hp
    exact hne (by simp [MpscList.exchange, Function.update_of_ne ht, hidle])
  kept := h.kept
  loaded tail htail := by
    cases t with
    | some p => exact Or.inl (Or.inr (by simp))
    | none =>
        obtain ⟨tail', htail'⟩ := h.waiting (by rw [hp]; simp)
        rw [show s.pop = .loadHead tail from htail] at htail'
        simp at htail'
  pushed tail htail hnot := by
    cases t with
    | some p =>
        apply List.mem_append_left
        exact h.pushed tail htail (by simpa [MpscList.exchange] using hnot)
    | none => simp [h.owned.consumer item (by rw [hp]; rfl)]
  gap hpop hun := by
    cases t with
    | some p => exact Or.inr (by simp)
    | none =>
        apply Or.inl
        apply h.gap hpop
        simpa [Unlinked, MpscList.exchange] using hun

theorem Inv.link (h : Inv s L) {t : Option ι} {prev item : Node α}
    (hp : s.pushes t = .linking prev item) : Inv (link s t prev item) L where
  chain := by
    apply h.chain.link hp
    intro t' ht'
    exact h.owned.unique t' t item ht' (by rw [hp]; rfl)
  owned := by
    apply h.owned.mono
    intro t' x hx
    by_cases ht : t' = t
    · subst ht
      simp [MpscList.link, Push.holds] at hx
    · simpa [MpscList.link, ht] using hx
  exchanging t' x hx := by
    have ht : t' ≠ t := by
      rintro rfl
      simp [MpscList.link] at hx
    replace hx : s.pushes t' = .exchanging x := by simpa [MpscList.link, ht] using hx
    obtain ⟨hmem, hnext⟩ := h.exchanging t' x hx
    refine ⟨hmem, ?_⟩
    have hne : x ≠ prev := by
      rintro rfl
      exact hmem (h.chain.linking t x item hp).left
    exact (Function.update_of_ne hne _ _).trans hnext
  waiting hne := by
    apply h.waiting
    intro hidle
    apply hne
    by_cases ht : none = t
    · subst ht
      simp [MpscList.link]
    · simp [MpscList.link, Function.update_of_ne ht, hidle]
  kept := h.kept
  loaded := h.loaded
  pushed tail htail hnot := by
    apply h.pushed tail htail
    intro x hx
    have ht : none ≠ t := by
      rintro rfl
      rw [hp] at hx
      simp at hx
    exact hnot x (by simp [MpscList.link, Function.update_of_ne ht, hx])
  gap hpop hun := by
    apply h.gap hpop
    obtain ⟨p, x, y, hun⟩ := hun
    have ht : some p ≠ t := by
      rintro rfl
      simp [MpscList.link] at hun
    exact ⟨p, x, y, by simpa [MpscList.link, ht] using hun⟩

theorem Inv.clearNext_exchanging (h : Inv s L) {t t' : Option ι} {item x : Node α}
    (hitem : item ∉ L) (hx : (clearNext s t item).pushes t' = .exchanging x) :
    x ∉ L ∧ (clearNext s t item).next x = none := by
  by_cases ht : t' = t
  · subst ht
    obtain rfl : item = x := by simpa [clearNext] using hx
    exact ⟨hitem, Function.update_self ..⟩
  · replace hx : s.pushes t' = .exchanging x := by simpa [clearNext, ht] using hx
    obtain ⟨hmem, hnext⟩ := h.exchanging t' x hx
    refine ⟨hmem, ?_⟩
    by_cases hne : x = item
    · rw [hne]
      exact Function.update_self ..
    · exact (Function.update_of_ne hne _ _).trans hnext

theorem Inv.clear (h : Inv s L) {p : ι} {a : α} (hp : s.pushes (some p) = .idle)
    (ha : .item a ∉ L) (hfree : ∀ t, (s.pushes t).holds ≠ some (.item a)) :
    Inv (clearNext s (some p) (.item a)) L where
  chain := h.chain.clearNext (some p) ha (by simp [hp])
  owned := h.owned.acquire hfree (by simp)
  exchanging t x hx := h.clearNext_exchanging ha hx
  waiting := by simpa [clearNext] using h.waiting
  kept := h.kept
  loaded := h.loaded
  pushed := by simpa [clearNext] using h.pushed
  gap hpop hun := by
    apply h.gap hpop
    obtain ⟨q, x, y, hun⟩ := hun
    have hq : q ≠ p := by
      rintro rfl
      simp [clearNext] at hun
    exact ⟨q, x, y, by simpa [clearNext, hq] using hun⟩

omit [DecidableEq ι] in
theorem Inv.stub_free (h : Inv s L) (hp : s.pushes none = .idle) (t : Option ι) :
    (s.pushes t).holds ≠ some .stub := by
  cases t with
  | none => simp [hp, Push.holds]
  | some p => exact fun ht => h.owned.producer p .stub ht rfl

theorem Inv.pushStub (h : Inv s L) (hp : s.pushes none = .idle) (htail : s.tail ≠ .stub)
    (hhead : s.tail = s.head) (hgap : Unlinked s → s.gap) :
    Inv { clearNext s none .stub with pop := .pushing s.tail } L := by
  have hL : L = [s.tail] := by
    obtain ⟨r, rfl⟩ := List.head?_eq_some_iff.1 h.chain.tail
    cases r with
    | nil => rfl
    | cons y r =>
        have hlast := Adjacent.ne_last h.chain.nodup ⟨[], r, rfl⟩
        exact absurd (h.chain.head.trans (congrArg some hhead.symm)) hlast
  have hstub : .stub ∉ L := by simp [hL, htail.symm]
  have hchain := h.chain.clearNext none hstub (by simp [hp])
  exact
    { chain := ⟨hchain.tail, hchain.head, hchain.nodup, hchain.links, hchain.ended,
        hchain.linking, hchain.items⟩
      owned := h.owned.acquire (h.stub_free hp) (by simp)
      exchanging := fun t x hx => h.clearNext_exchanging hstub hx
      waiting := fun _ => ⟨_, rfl⟩
      kept := by
        rintro tail ⟨⟩
        exact ⟨rfl, htail⟩
      loaded := by simp
      pushed := fun _ _ hnot => absurd (Function.update_self none _ s.pushes) (hnot .stub)
      gap := fun _ hun => hgap (by simpa [Unlinked, clearNext] using hun) }

omit [DecidableEq ι] in
theorem Inv.move (h : Inv s L) (hp : s.pushes none = .idle) {q : Pop α} {g : Prop}
    (hkept : ∀ tail, q.tail = some tail → s.tail = tail ∧ tail ≠ .stub)
    (hloaded : ∀ tail, q = .loadHead tail → g ∨ L = [tail])
    (hpushed : ∀ tail, q ≠ .pushing tail) (hgap : Unlinked s → g) :
    Inv { s with pop := q, gap := g } L where
  chain := h.chain.congr rfl rfl (fun _ _ => rfl) (fun _ _ _ => Iff.rfl) h.chain.items
  owned := h.owned
  exchanging := h.exchanging
  waiting hne := absurd hp hne
  kept := hkept
  loaded := hloaded
  pushed tail htail := absurd htail (hpushed tail)
  gap _ := hgap

omit [DecidableEq ι] in
theorem Inv.advance (h : Inv s L) (hp : s.pushes none = .idle) {y : Node α}
    (hy : s.next s.tail = some y) {q : Pop α} {g : Prop} {returned : List (Node α)}
    (hreturned : returned = s.returned ++ [s.tail].filter (· ≠ .stub))
    (hq : q = .idle ∨ s.tail = .stub ∧ q = .second y) (hgap : Unlinked s → g) :
    ∃ L', Inv { s with tail := y, pop := q, returned := returned, gap := g } L' := by
  obtain ⟨r, rfl, hfree⟩ := h.chain.next_some hy
  refine ⟨y :: r, ?_, h.owned, ?_, fun hne => absurd hp hne, ?_, ?_, ?_, fun _ => hgap⟩
  · apply h.chain.rest hfree <;> try rfl
    rw [h.chain.items, hreturned, List.append_assoc, ← List.filter_append, List.singleton_append]
  · intro t x hx
    have := h.exchanging t x hx
    exact ⟨fun hmem => this.1 (List.mem_cons_of_mem _ hmem), this.2⟩
  · intro tail htail
    rcases hq with rfl | ⟨hstub, rfl⟩
    · simp [Pop.tail] at htail
    · obtain rfl : y = tail := by simpa [Pop.tail] using htail
      refine ⟨rfl, ?_⟩
      rintro rfl
      have := h.chain.nodup
      simp [hstub] at this
  · rintro tail rfl
    simp at hq
  · rintro tail rfl
    simp at hq

omit [DecidableEq ι] in
theorem Inv.take (h : Inv s L) (hp : s.pushes none = .idle) (hstub : s.tail ≠ .stub)
    {y : Node α} (hy : s.next s.tail = some y) (hgap : Unlinked s → s.gap) :
    ∃ L', Inv (take s s.tail y) L' :=
  h.advance hp hy (by simp [hstub]) (Or.inl rfl) hgap

omit [DecidableEq ι] in
theorem Inv.read_null (h : Inv s L) (hp : s.pushes none = .idle)
    (hnext : s.next s.tail = none) : L = [s.tail] ∨ Unlinked s := by
  rcases h.chain.next_none hnext with hL | ⟨t, y, ht⟩
  · exact Or.inl hL
  · cases t with
    | none => simp [hp] at ht
    | some p => exact Or.inr ⟨p, s.tail, y, ht⟩

theorem Inv.popStep (h : Inv s L) (hp : s.pushes none = .idle) :
    ∃ L', Inv (popStep s) L' := by
  have hnone := fun hnext => h.read_null hp hnext
  unfold MpscList.popStep
  cases hpop : s.pop with
  | idle =>
      cases hnext : s.next s.tail with
      | none =>
          cases htail : s.tail with
          | stub =>
              have key : Inv { s with pop := .idle, gap := Unlinked s } L :=
                h.move hp (by simp [Pop.tail]) (by simp) (by simp) id
              exact ⟨L, by simpa [htail ▸ hnext, hpop, htail] using key⟩
          | item a =>
              have key : Inv { s with pop := .loadHead s.tail, gap := Unlinked s } L := by
                refine h.move hp ?_ ?_ (by simp) id
                · rintro tail ⟨⟩
                  simp [htail]
                · rintro tail ⟨⟩
                  exact (hnone hnext).symm
              exact ⟨L, by simpa [htail ▸ hnext, htail] using key⟩
      | some y =>
          cases htail : s.tail with
          | stub =>
              have key := h.advance hp hnext (q := .second y)
                (by simp [htail] : s.returned = _) (Or.inr ⟨htail, rfl⟩) id
              simpa [htail ▸ hnext] using key
          | item a =>
              have key := h.advance hp hnext (q := .idle)
                (by simp [htail] : s.returned ++ [s.tail] = _) (Or.inl rfl) id
              simpa [htail ▸ hnext, MpscList.take, htail] using key
  | second tail =>
      obtain ⟨rfl, hstub⟩ := h.kept tail (by rw [hpop]; rfl)
      have hgap := h.gap (by simp [hpop])
      cases hnext : s.next s.tail with
      | some y =>
          simp only [hnext]
          exact h.take hp hstub hnext hgap
      | none =>
          simp only [hnext]
          refine ⟨L, h.move hp ?_ ?_ (by simp) hgap⟩
          · rintro tail ⟨⟩
            exact ⟨rfl, hstub⟩
          · rintro tail ⟨⟩
            exact (hnone hnext).symm.imp hgap id
  | loadHead tail =>
      obtain ⟨rfl, hstub⟩ := h.kept tail (by rw [hpop]; rfl)
      have hgap := h.gap (by simp [hpop])
      by_cases hhead : s.tail = s.head
      · simp only [if_pos hhead]
        exact ⟨L, h.pushStub hp hstub hhead hgap⟩
      · simp only [if_neg hhead]
        exact ⟨L, h.move hp (by simp [Pop.tail]) (by simp) (by simp) hgap⟩
  | pushing tail =>
      obtain ⟨rfl, hstub⟩ := h.kept tail (by rw [hpop]; rfl)
      have hgap := h.gap (by simp [hpop])
      cases hnext : s.next s.tail with
      | some y =>
          simp only [hnext]
          exact h.take hp hstub hnext hgap
      | none =>
          simp only [hnext]
          exact ⟨L, h.move hp (by simp [Pop.tail]) (by simp) (by simp) hgap⟩

omit [DecidableEq ι] in
theorem Inv.initial : Inv (initial : State ι α) [.stub] where
  chain :=
    { tail := rfl
      head := rfl
      nodup := List.nodup_singleton _
      links := by
        intro x y hxy
        rcases Adjacent.cons_iff.1 hxy with ⟨-, hy⟩ | hxy
        · simp at hy
        · simp [Adjacent] at hxy
      ended := by simp [MpscList.initial]
      linking := by simp [MpscList.initial]
      items := by simp [MpscList.initial] }
  owned := ⟨by simp [MpscList.initial, Push.holds], by simp [MpscList.initial, Push.holds],
    by simp [MpscList.initial, Push.holds]⟩
  exchanging := by simp [MpscList.initial]
  waiting := by simp [MpscList.initial]
  kept := by simp [MpscList.initial, Pop.tail]
  loaded := by simp [MpscList.initial]
  pushed := by simp [MpscList.initial]
  gap := by simp [MpscList.initial]

theorem Inv.step (h : Inv s L) {actor : Actor ι} {s' : State ι α} (hs : Step actor s s') :
    ∃ L', Inv s' L' := by
  cases hs with
  | clear s p a hp hlist hheld =>
      exact ⟨L, h.clear hp (fun ha => hlist ((h.inList_iff a).2 ha)) hheld⟩
  | exchange s p item hp => exact ⟨_, h.exchange hp⟩
  | link s p prev item hp => exact ⟨L, h.link hp⟩
  | pop s hp => exact h.popStep hp
  | exchangeStub s item hp => exact ⟨_, h.exchange hp⟩
  | linkStub s prev item hp => exact ⟨L, h.link hp⟩

theorem inv_of_reachable (hs : Reachable Step initial s) : ∃ L, Inv s L := by
  apply ReachableWhen.invariant (fun s => ∃ L, Inv s L) ⟨_, Inv.initial⟩ _ hs
  rintro actor s t ⟨L, h⟩ - hstep
  exact h.step hstep

theorem Inv.empty_or_gap (h : Inv s L) (hnull : PopsNull s) :
    (∀ a, ¬ InList s a) ∨ (MpscList.popStep s).gap := by
  have hp : s.pushes none = .idle := by
    by_contra hne
    obtain ⟨tail, hpop⟩ := h.waiting hne
    simp only [PopsNull, hpop] at hnull
    exact hne hnull.1
  unfold PopsNull at hnull
  cases hpop : s.pop with
  | idle =>
      simp only [hpop] at hnull
      rcases h.read_null hp hnull.2 with hL | hun
      · apply Or.inl
        intro a ha
        rw [h.inList_iff, hL, hnull.1] at ha
        simp at ha
      · apply Or.inr
        have hnext := hnull.2
        rw [hnull.1] at hnext
        simpa [MpscList.popStep, hpop, hnull.1, hnext] using hun
  | second tail => simp [hpop] at hnull
  | loadHead tail =>
      simp only [hpop] at hnull
      obtain ⟨rfl, hstub⟩ := h.kept tail (by rw [hpop]; rfl)
      rcases h.loaded s.tail hpop with hgap | hL
      · exact Or.inr (by simpa [MpscList.popStep, hpop, hnull] using hgap)
      · have := h.chain.head
        rw [hL] at this
        exact absurd (Option.some.inj this) hnull
  | pushing tail =>
      simp only [hpop] at hnull
      obtain ⟨rfl, hstub⟩ := h.kept tail (by rw [hpop]; rfl)
      rcases h.read_null hp hnull.2 with hL | hun
      · have hmem := h.pushed s.tail hpop (by simp [hp])
        rw [hL, List.mem_singleton] at hmem
        exact absurd hmem.symm hstub
      · apply Or.inr
        simpa [MpscList.popStep, hpop, hnull.2] using h.gap (by simp [hpop]) hun

end Steps

theorem popStep_exchanged (s : State ι α) : (popStep s).exchanged = s.exchanged := by
  unfold popStep
  split
  · dsimp only
    split <;> rfl
  · split <;> rfl
  · split <;> rfl
  · split <;> rfl

theorem stub_not_exchanged {s : State ι α} (hs : Reachable Step initial s) :
    .stub ∉ s.exchanged := by
  apply ReachableWhen.invariant (fun s => Node.stub ∉ s.exchanged) (by simp [initial]) _ hs
  rintro actor s t h - hstep
  cases hstep with
  | clear s p a => exact h
  | link s p prev item => exact h
  | linkStub s prev item => exact h
  | pop s => rwa [popStep_exchanged]
  | exchange s p item =>
      by_cases hitem : item = .stub
      · simpa [exchange, hitem] using h
      · simpa [exchange, hitem, eq_comm] using h
  | exchangeStub s item =>
      by_cases hitem : item = .stub
      · simpa [exchange, hitem] using h
      · simpa [exchange, hitem, eq_comm] using h

section Consumer

variable {s : State ι α} {L : List (Node α)}

theorem step_consume (s : State ι α) : Step .consumer s (consume s) := by
  unfold consume
  split
  · exact .pop s ‹_›
  · exact .exchangeStub s _ ‹_›
  · exact .linkStub s _ _ ‹_›

theorem consume_pushes (s : State ι α) (p : ι) :
    (consume s).pushes (some p) = s.pushes (some p) := by
  unfold consume popStep
  split
  · split
    · dsimp only
      split <;> rfl
    · split <;> rfl
    · split
      · simp [clearNext]
      · rfl
    · split <;> rfl
  · simp [exchange]
  · simp [link]

theorem consume_returned (s : State ι α) :
    (consume s).returned = s.returned ++ (popped s).toList := by
  unfold consume popped
  cases hp : s.pushes none with
  | idle =>
      unfold popStep
      cases hpop : s.pop with
      | idle =>
          cases htail : s.tail with
          | stub => cases hnext : s.next .stub <;> simp [hnext]
          | item a => cases hnext : s.next (.item a) <;> simp [hnext, take]
      | second tail => cases hnext : s.next tail <;> simp [hnext, take]
      | loadHead tail =>
          by_cases hhead : tail = s.head <;> simp [hhead, clearNext]
      | pushing tail => cases hnext : s.next tail <;> simp [hnext, take]
  | exchanging item => simp [exchange]
  | linking prev item => simp [link]

theorem Inv.consume_exchanged (h : Inv s L) : (consume s).exchanged = s.exchanged := by
  unfold consume
  cases hp : s.pushes none with
  | idle => exact popStep_exchanged s
  | exchanging item =>
      obtain rfl : item = .stub := h.owned.consumer item (by rw [hp]; rfl)
      rfl
  | linking prev item => rfl

omit [DecidableEq ι] in
theorem Inv.popped_eq (h : Inv s L) {x : Node α} (hx : popped s = some x) :
    x = s.tail ∧ x ≠ .stub := by
  unfold popped at hx
  split at hx
  · split at hx
    · rename_i htail
      obtain rfl := Option.some.inj hx
      exact ⟨rfl, htail.1⟩
    · simp at hx
  all_goals
    first
    | simp at hx; done
    | rename_i tail _ hpop
      split at hx
      · obtain rfl := Option.some.inj hx
        have hkept := h.kept tail (by rw [hpop]; rfl)
        exact ⟨hkept.1.symm, hkept.2⟩
      · simp at hx

omit [DecidableEq ι] in
theorem Inv.count_exchanged (h : Inv s L) (a : α) :
    s.exchanged.count (.item a) ≤ s.returned.count (.item a) + 1 := by
  rw [h.chain.items, List.count_append, List.count_filter (by simp)]
  have := List.nodup_iff_count_le_one.1 h.chain.nodup (.item a)
  omega

theorem Inv.popped_item (h : Inv s L) {a : α} (ha : popped s = some (.item a)) :
    InList s a ∧ ¬ InList (consume s) a ∧ ∀ t prev, s.pushes t ≠ .linking prev (.item a) := by
  obtain ⟨htail, -⟩ := h.popped_eq ha
  obtain ⟨r, hL⟩ := List.head?_eq_some_iff.1 h.chain.tail
  refine ⟨?_, ?_, ?_⟩
  · rw [h.inList_iff, hL, htail]
    exact List.mem_cons_self
  · have := h.count_exchanged a
    simp only [InList, h.consume_exchanged, consume_returned, ha, Option.toList_some,
      List.count_append, List.count_singleton_self]
    omega
  · intro t prev hp
    obtain ⟨l, r', hadj⟩ := h.chain.linking t _ _ hp
    have hnodup := h.chain.nodup
    rw [hL, ← htail] at hadj
    rw [hL, ← htail, hadj] at hnodup
    cases l with
    | nil =>
        obtain ⟨rfl, -⟩ := List.cons.inj hadj
        simp at hnodup
    | cons b l =>
        obtain ⟨rfl, -⟩ := List.cons.inj hadj
        simp at hnodup

theorem Inv.exchange_inList (h : Inv s L) {t : Option ι} {a b : α}
    (hp : s.pushes t = .exchanging (.item a)) :
    InList (MpscList.exchange s t (.item a)) b ↔ InList s b ∨ b = a := by
  rw [(h.exchange hp).inList_iff, h.inList_iff]
  simp

theorem Inv.consume_inList (h : Inv s L) {b : α} (hb : popped s ≠ some (.item b)) :
    InList (consume s) b ↔ InList s b := by
  have hcount : (popped s).toList.count (.item b) = 0 := by
    rw [List.count_eq_zero]
    intro hmem
    exact hb (Option.mem_toList.1 hmem)
  simp [InList, h.consume_exchanged, consume_returned, hcount]

def Pops (s : State ι α) : Prop := ∃ n, (consume^[n] s).returned ≠ s.returned

theorem Pops.of_step (hsame : (consume s).returned = s.returned) (h : Pops (consume s)) :
    Pops s := by
  obtain ⟨n, hn⟩ := h
  exact ⟨n + 1, by simpa [Function.iterate_succ_apply, hsame] using hn⟩

theorem Inv.consume (h : Inv s L) : ∃ L', Inv (consume s) L' := h.step (step_consume s)

omit [DecidableEq ι] in
theorem Inv.quiet_next (h : Inv s L) (hquiet : ∀ p, s.pushes (some p) = .idle)
    (hp : s.pushes none = .idle) (hnext : s.next s.tail = none) : L = [s.tail] := by
  rcases h.read_null hp hnext with hL | ⟨p, prev, item, hun⟩
  · exact hL
  · simp [hquiet p] at hun

theorem pops_take (htake : (MpscList.consume s).returned = s.returned ++ [s.tail]) : Pops s := by
  refine ⟨1, ?_⟩
  rw [Function.iterate_one, htake]
  simp

theorem Inv.pops_pushing (h : Inv s L) (hquiet : ∀ p, s.pushes (some p) = .idle)
    (hp : s.pushes none = .idle) {tail : Node α} (hpop : s.pop = .pushing tail) : Pops s := by
  obtain ⟨rfl, hstub⟩ := h.kept tail (by rw [hpop]; rfl)
  have hmem := h.pushed _ hpop (by simp [hp])
  cases hnext : s.next s.tail with
  | none =>
      rw [h.quiet_next hquiet hp hnext, List.mem_singleton] at hmem
      exact absurd hmem.symm hstub
  | some y =>
      apply pops_take
      simp [MpscList.consume, MpscList.popStep, hp, hpop, hnext, MpscList.take]

theorem Inv.pops_linking (h : Inv s L) (hquiet : ∀ p, s.pushes (some p) = .idle)
    {prev item : Node α} (hp : s.pushes none = .linking prev item) : Pops s := by
  obtain ⟨L', h'⟩ := h.consume
  obtain ⟨tail, hpop⟩ := h.waiting (by simp [hp])
  apply Pops.of_step
  · simp [MpscList.consume, hp, MpscList.link]
  · refine h'.pops_pushing (fun p => by rw [consume_pushes, hquiet]) ?_
      (?_ : (MpscList.consume s).pop = .pushing tail)
    · simp [MpscList.consume, hp, MpscList.link]
    · simpa [MpscList.consume, hp, MpscList.link] using hpop

theorem Inv.pops_exchanging (h : Inv s L) (hquiet : ∀ p, s.pushes (some p) = .idle)
    {item : Node α} (hp : s.pushes none = .exchanging item) : Pops s := by
  obtain ⟨L', h'⟩ := h.consume
  apply Pops.of_step
  · simp [MpscList.consume, hp, MpscList.exchange]
  · refine h'.pops_linking (fun p => by rw [consume_pushes, hquiet])
      (?_ : (MpscList.consume s).pushes none = .linking s.head item)
    simp [MpscList.consume, hp, MpscList.exchange]

theorem Inv.pops_last (h : Inv s L) (hquiet : ∀ p, s.pushes (some p) = .idle)
    (hp : s.pushes none = .idle) {tail : Node α} (hpop : s.pop = .loadHead tail)
    (hhead : tail = s.head) : Pops s := by
  obtain ⟨L', h'⟩ := h.consume
  have hstep : MpscList.consume s = { clearNext s none .stub with pop := .pushing tail } := by
    simp [MpscList.consume, MpscList.popStep, hp, hpop, hhead]
  apply Pops.of_step
  · rw [hstep]
    rfl
  · refine h'.pops_exchanging (fun p => by rw [consume_pushes, hquiet])
      (?_ : (MpscList.consume s).pushes none = .exchanging .stub)
    simp [hstep, clearNext]

theorem Inv.pops_alone (h : Inv s L) (hquiet : ∀ p, s.pushes (some p) = .idle)
    (hp : s.pushes none = .idle) (hnext : s.next s.tail = none) {g : Prop}
    (hstep : MpscList.consume s = { s with pop := .loadHead s.tail, gap := g }) : Pops s := by
  obtain ⟨L', h'⟩ := h.consume
  have hhead := h.chain.head
  rw [h.quiet_next hquiet hp hnext] at hhead
  apply Pops.of_step
  · rw [hstep]
  · refine h'.pops_last (fun p => by rw [consume_pushes, hquiet]) ?_
      (?_ : (MpscList.consume s).pop = .loadHead s.tail) ?_
    · rw [hstep]
      exact hp
    · rw [hstep]
    · rw [hstep]
      exact Option.some.inj hhead

theorem Inv.pops_second (h : Inv s L) (hquiet : ∀ p, s.pushes (some p) = .idle)
    (hp : s.pushes none = .idle) {tail : Node α} (hpop : s.pop = .second tail) : Pops s := by
  obtain ⟨rfl, hstub⟩ := h.kept tail (by rw [hpop]; rfl)
  cases hnext : s.next s.tail with
  | none =>
      apply h.pops_alone hquiet hp hnext (g := s.gap)
      simp [MpscList.consume, MpscList.popStep, hp, hpop, hnext]
  | some y =>
      apply pops_take
      simp [MpscList.consume, MpscList.popStep, hp, hpop, hnext, MpscList.take]

theorem Inv.pops_idle (h : Inv s L) (hquiet : ∀ p, s.pushes (some p) = .idle)
    (hp : s.pushes none = .idle) (hpop : s.pop = .idle) {a : α} (ha : InList s a) : Pops s := by
  cases htail : s.tail with
  | item b =>
      cases hnext : s.next s.tail with
      | none =>
          apply h.pops_alone hquiet hp hnext (g := Unlinked s)
          rw [htail] at hnext
          simp [MpscList.consume, MpscList.popStep, hp, hpop, htail, hnext]
      | some y =>
          apply pops_take
          rw [htail] at hnext
          simp [MpscList.consume, MpscList.popStep, hp, hpop, htail, hnext, MpscList.take]
  | stub =>
      cases hnext : s.next s.tail with
      | none =>
          rw [h.inList_iff, h.quiet_next hquiet hp hnext, htail] at ha
          simp at ha
      | some y =>
          have hstep : MpscList.consume s =
              { s with tail := y, pop := .second y, gap := Unlinked s } := by
            rw [htail] at hnext
            simp [MpscList.consume, MpscList.popStep, hp, hpop, htail, hnext]
          obtain ⟨L', h'⟩ := h.consume
          apply Pops.of_step
          · rw [hstep]
          · refine h'.pops_second (fun p => by rw [consume_pushes, hquiet]) ?_
              (?_ : (MpscList.consume s).pop = .second y)
            · rw [hstep]
              exact hp
            · rw [hstep]

theorem Inv.pops (h : Inv s L) (hquiet : ∀ p, s.pushes (some p) = .idle) {a : α}
    (ha : InList s a) : Pops s := by
  cases hp : s.pushes none with
  | exchanging item => exact h.pops_exchanging hquiet hp
  | linking prev item => exact h.pops_linking hquiet hp
  | idle =>
      cases hpop : s.pop with
      | idle => exact h.pops_idle hquiet hp hpop ha
      | second tail => exact h.pops_second hquiet hp hpop
      | pushing tail => exact h.pops_pushing hquiet hp hpop
      | loadHead tail =>
          by_cases hhead : tail = s.head
          · exact h.pops_last hquiet hp hpop hhead
          · have hstep : MpscList.consume s = { s with pop := .idle } := by
              simp [MpscList.consume, MpscList.popStep, hp, hpop, hhead]
            have hpopped : popped s ≠ some (.item a) := by simp [popped, hp, hpop]
            obtain ⟨L', h'⟩ := h.consume
            apply Pops.of_step
            · rw [hstep]
            · refine h'.pops_idle (fun p => by rw [consume_pushes, hquiet]) ?_ ?_
                ((h.consume_inList hpopped).2 ha)
              · rw [hstep]
                exact hp
              · rw [hstep]

end Consumer

/-- The queue is first in, first out: `pop` has returned the first of the items
exchanged, the others are linked from `tail_` to `head_`, no pending link writes
an item outside of the list, and `pop` returns null only if the list is empty or
some push was exchanged but not linked at a moment of this `pop`. -/
theorem fifo (s : State ι α) (hs : Reachable Step initial s) :
    s.returned <+: s.exchanged ∧ .stub ∉ s.returned ∧
      (∃ L, Chain s L ∧ (∀ a, .item a ∈ L ↔ InList s a) ∧
        ∀ t x, s.pushes t = .exchanging x → x ∉ L) ∧
      (∀ t prev item, s.pushes t = .linking prev item →
        prev = .stub ∨ ∃ a, prev = .item a ∧ InList s a) ∧
      (PopsNull s → (∀ a, ¬ InList s a) ∨ (popStep s).gap) := by
  obtain ⟨L, h⟩ := inv_of_reachable hs
  refine ⟨⟨_, h.chain.items.symm⟩, ?_, ⟨L, h.chain, fun a => (h.inList_iff a).symm,
    fun t x hx => (h.exchanging t x hx).1⟩, ?_, h.empty_or_gap⟩
  · intro hstub
    apply stub_not_exchanged hs
    rw [h.chain.items]
    exact List.mem_append_left _ hstub
  · intro t prev item hp
    cases prev with
    | stub => exact Or.inl rfl
    | item a => exact Or.inr ⟨a, rfl, (h.inList_iff a).2 (h.chain.linking t _ item hp).left⟩

def push (s : State ι α) (p : ι) (a : α) : State ι α :=
  link (exchange (clearNext s (some p) (.item a)) (some p) (.item a)) (some p) s.head (.item a)

theorem push_reachable {s : State ι α} (hs : Reachable Step initial s) {p : ι} {a : α}
    (hp : s.pushes (some p) = .idle) (hlist : ¬ InList s a)
    (hheld : ∀ t, (s.pushes t).holds ≠ some (.item a)) : Reachable Step initial (push s p a) := by
  apply Reachable.next _ (.producer p)
  · exact .link _ p s.head (.item a) (by simp [exchange, clearNext])
  · apply Reachable.next _ (.producer p)
    · exact .exchange _ p (.item a) (by simp [clearNext])
    · exact hs.next (.producer p) (.clear s p a hp hlist hheld)

/-- One item is popped up to the load of `head_`, then a second push runs whole. -/
def overtaken : State Unit Bool := push (popStep (popStep (push initial () false))) () true

theorem overtaken_reachable : Reachable Step initial overtaken := by
  apply push_reachable
  · apply Reachable.next _ .consumer
    · exact .pop _ rfl
    · apply Reachable.next _ .consumer
      · exact .pop _ rfl
      · apply push_reachable Reachable.start rfl
        · simp [InList, initial]
        · simp [initial, Push.holds]
  · rfl
  · decide
  · rintro (_ | p) <;> simp [popStep, push, link, exchange, clearNext, initial, Push.holds]

theorem overtaken_popsNull : PopsNull overtaken := by
  simp [PopsNull, overtaken, popStep, push, link, exchange, clearNext, initial]

theorem fifo_overtaken : overtaken.returned <+: overtaken.exchanged ∧
    ((∀ a, ¬ InList overtaken a) ∨ (popStep overtaken).gap) :=
  ⟨(fifo overtaken overtaken_reachable).1,
    (fifo overtaken overtaken_reachable).2.2.2.2 overtaken_popsNull⟩

/-- `pop` may return null with an item in the list and every push linked. -/
theorem pop_null_after_push : ¬ ∀ s : State Unit Bool, Reachable Step initial s → PopsNull s →
    (∀ a, ¬ InList s a) ∨ Unlinked s := by
  intro h
  rcases h overtaken overtaken_reachable overtaken_popsNull with hempty | ⟨p, prev, item, hun⟩
  · exact hempty false (by decide)
  · simp [overtaken, popStep, push, link, exchange, clearNext, initial] at hun

end Contrees.Conctrl.MpscList
