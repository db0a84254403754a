import Mathlib.Logic.Relation

namespace Contrees.Library.Runs

variable {Label State : Type} {Step : Label → State → State → Prop} {init s t : State}
  {allowed : Label → State → Prop}

/-- One step of a labelled system, taken from a state in which a run
condition allows its label. -/
def AllowedStep (Step : Label → State → State → Prop) (allowed : Label → State → Prop)
    (s t : State) : Prop := ∃ a, allowed a s ∧ Step a s t

/-- The states reached by runs all of whose steps meet the condition. -/
def ReachableWhen (Step : Label → State → State → Prop) (allowed : Label → State → Prop)
    (init s : State) : Prop := Relation.ReflTransGen (AllowedStep Step allowed) init s

def Reachable (Step : Label → State → State → Prop) (init s : State) : Prop :=
  ReachableWhen Step (fun _ _ => True) init s

theorem ReachableWhen.start : ReachableWhen Step allowed init init := Relation.ReflTransGen.refl

theorem ReachableWhen.next (hs : ReachableWhen Step allowed init s) (a : Label)
    (ha : allowed a s) (h : Step a s t) : ReachableWhen Step allowed init t :=
  Relation.ReflTransGen.tail hs ⟨a, ha, h⟩

/-- What holds at the start and is kept by every allowed step holds in every
state of the run. -/
theorem ReachableWhen.invariant (Inv : State → Prop) (hinit : Inv init)
    (hstep : ∀ a s t, Inv s → allowed a s → Step a s t → Inv t)
    (hs : ReachableWhen Step allowed init s) : Inv s := by
  induction hs with
  | refl => exact hinit
  | tail _ h ih =>
      obtain ⟨a, ha, h⟩ := h
      exact hstep a _ _ ih ha h

theorem Reachable.start : Reachable Step init init := ReachableWhen.start

theorem Reachable.next (hs : Reachable Step init s) (a : Label) (h : Step a s t) :
    Reachable Step init t := ReachableWhen.next hs a trivial h

theorem ReachableWhen.reachable (hs : ReachableWhen Step allowed init s) :
    Reachable Step init s := by
  refine Relation.ReflTransGen.mono ?_ _ _ hs
  rintro s t ⟨a, -, h⟩
  exact ⟨a, trivial, h⟩

section Eventually

variable {run : Nat → State} {P Q : State → Prop} {act : State → State}

end Eventually

end Contrees.Library.Runs
