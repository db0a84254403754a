import Mathlib.Logic.Function.Basic
import Mathlib.Order.Basic

namespace Contrees.Library.TaskLedger

/-- Where a task is: producers `κ` draw tasks and fill them, the filled ones
pass a pipeline in order, and executors `ω` finish those that leave it undone. -/
inductive Phase (κ ω : Type)
  | unissued
  | held (c : κ)
  | filled
  | staged
  | working (w : ω)
  | finished

namespace Phase

variable {κ ω : Type}

def Filled : Phase κ ω → Prop
  | unissued | held _ => False
  | filled | staged | working _ | finished => True

def Entered : Phase κ ω → Prop
  | unissued | held _ | filled => False
  | staged | working _ | finished => True

def Exited : Phase κ ω → Prop
  | unissued | held _ | filled | staged => False
  | working _ | finished => True

theorem Entered.filled {p : Phase κ ω} (h : p.Entered) : p.Filled := by
  cases p <;> first | exact h | trivial

attribute [grind =] Filled Entered Exited

end Phase

/-- The tasks up to `issued`, `inited`, `ended` and `committed`, and those below
`entry` and `exit`, are past these points. -/
structure Ledger (κ ω : Type) where
  issued : Nat
  inited : Nat
  entry : Nat
  exit : Nat
  ended : Nat
  committed : Nat
  holding : κ → Option Nat
  task : ω → Option Nat

/-- The phases of all tasks agree with the ledger, and no task is filled that is
a whole window ahead of the committed ones. -/
structure Tracks {κ ω : Type} (window : Nat) (l : Ledger κ ω) (φ : Nat → Phase κ ω) : Prop where
  unissued : ∀ t, φ t = .unissued ↔ l.issued < t
  held : ∀ t c, φ t = .held c ↔ l.holding c = some t
  entered : ∀ t ≤ l.issued, (φ t).Entered ↔ t < l.entry
  exited : ∀ t ≤ l.issued, (φ t).Exited ↔ t < l.exit
  working : ∀ t w, φ t = .working w ↔ l.task w = some t
  inited : ∀ t ≤ l.inited, (φ t).Filled
  ended : ∀ t ≤ l.ended, φ t = .finished
  window : ∀ t, (φ t).Filled → t < l.committed + window

variable {κ ω : Type} {window : Nat} {l : Ledger κ ω}
  {φ : Nat → Phase κ ω} {c : κ} {w : ω} {t : Nat}

theorem Tracks.initial (hwindow : 0 < window) :
    Tracks window ⟨0, 0, 1, 1, 0, 0, fun _ : κ => none, fun _ : ω => none⟩
      (fun t => if t = 0 then .finished else .unissued) := by
  constructor <;> grind

theorem Tracks.issue [DecidableEq κ] (h : Tracks window l φ) (hc : l.holding c = none)
    (hentry : l.entry ≤ l.issued + 1) (hexit : l.exit ≤ l.issued + 1) :
    Tracks window
      { l with
        issued := l.issued + 1
        holding := Function.update l.holding c (some (l.issued + 1)) }
      (Function.update φ (l.issued + 1) (.held c)) := by
  have ht : φ (l.issued + 1) = .unissued := (h.unissued _).2 (Nat.lt_succ_self _)
  obtain ⟨h1, h2, h3, h4, h5, h6, h7, h8⟩ := h
  constructor <;> grind [Function.update_apply]

theorem Tracks.fill [DecidableEq κ] (h : Tracks window l φ) (hc : l.holding c = some t)
    (ht : t < l.committed + window) :
    Tracks window { l with holding := Function.update l.holding c none }
      (Function.update φ t .filled) := by
  have hφ : φ t = .held c := (h.held t c).2 hc
  obtain ⟨h1, h2, h3, h4, h5, h6, h7, h8⟩ := h
  constructor <;> grind [Function.update_apply]

theorem Tracks.init (h : Tracks window l φ) (ht : (φ (l.inited + 1)).Filled) :
    Tracks window { l with inited := l.inited + 1 } φ := by
  obtain ⟨h1, h2, h3, h4, h5, h6, h7, h8⟩ := h
  constructor <;> grind

theorem Tracks.enter (h : Tracks window l φ) (ht : φ l.entry = .filled) :
    Tracks window { l with entry := l.entry + 1 } (Function.update φ l.entry .staged) := by
  obtain ⟨h1, h2, h3, h4, h5, h6, h7, h8⟩ := h
  constructor <;> grind [Function.update_apply]

theorem Tracks.skipEntry (h : Tracks window l φ) (ht : l.issued < l.entry) :
    Tracks window { l with entry := l.entry + 1 } φ := by
  obtain ⟨h1, h2, h3, h4, h5, h6, h7, h8⟩ := h
  constructor <;> grind

theorem Tracks.assign [DecidableEq ω] (h : Tracks window l φ) (ht : φ l.exit = .staged) (hw : l.task w = none) :
    Tracks window
      { l with exit := l.exit + 1, task := Function.update l.task w (some l.exit) }
      (Function.update φ l.exit (.working w)) := by
  obtain ⟨h1, h2, h3, h4, h5, h6, h7, h8⟩ := h
  constructor <;> grind [Function.update_apply]

theorem Tracks.leave (h : Tracks window l φ) (ht : φ l.exit = .staged) :
    Tracks window { l with exit := l.exit + 1 } (Function.update φ l.exit .finished) := by
  obtain ⟨h1, h2, h3, h4, h5, h6, h7, h8⟩ := h
  constructor <;> grind [Function.update_apply]

theorem Tracks.skipExit (h : Tracks window l φ) (ht : l.issued < l.exit) :
    Tracks window { l with exit := l.exit + 1 } φ := by
  obtain ⟨h1, h2, h3, h4, h5, h6, h7, h8⟩ := h
  constructor <;> grind

theorem Tracks.finish [DecidableEq ω] (h : Tracks window l φ) (hw : l.task w = some t) :
    Tracks window { l with task := Function.update l.task w none }
      (Function.update φ t .finished) := by
  have hφ : φ t = .working w := (h.working t w).2 hw
  obtain ⟨h1, h2, h3, h4, h5, h6, h7, h8⟩ := h
  constructor <;> grind [Function.update_apply]

theorem Tracks.end (h : Tracks window l φ) (ht : φ (l.ended + 1) = .finished) :
    Tracks window { l with ended := l.ended + 1 } φ := by
  obtain ⟨h1, h2, h3, h4, h5, h6, h7, h8⟩ := h
  constructor <;> grind

theorem Tracks.commit (h : Tracks window l φ) {n : Nat} (hn : l.committed ≤ n) :
    Tracks window { l with committed := n } φ := by
  obtain ⟨h1, h2, h3, h4, h5, h6, h7, h8⟩ := h
  constructor <;> grind

end Contrees.Library.TaskLedger
