import Contrees.Conctrl.Snapshots
import Contrees.Trees.AertFrame
import Contrees.Trees.AertHalves
import Contrees.Trees.ArtFrame
import Contrees.Trees.ArtUpdate
import Contrees.Trees.BnodeDenote
import Contrees.Trees.BnodeFrame

namespace Contrees.Trees

open Library.Memory Library.Interleaving Conctrl

theorem Btree.frame : Btree.interface.Frame (·.op = .init) (fun t _ => Btree.Inside t) where
  start t ctx h hop := by simp [Btree.Inside, hop]
  handle _ _ _ _ := Btree.handle_inside
  congr _ _ _ _ _ := Btree.Inside.congr

theorem Betree.frame : Betree.interface.Frame (·.op = .init) (fun t _ => Betree.Inside t) where
  start t ctx h hop := by simp [Betree.Inside, hop]
  handle _ _ _ _ := Betree.handle_inside
  congr _ _ _ _ _ := Betree.Inside.congr

theorem Art.frame : Art.interface.Frame (·.op = .init) (fun t _ => Art.Inside t) where
  start t ctx h hop := by simp [Art.Inside, hop]
  handle _ _ _ _ := Art.handle_inside
  congr _ _ _ _ _ := Art.Inside.congr

theorem Aert.Cow.frame : Aert.Cow.handlers.Frame (·.op = .init) Aert.Cow.Inside where
  start t ctx h hop := by simp [Aert.Cow.Inside, hop]
  handle _ _ _ _ := Aert.Cow.handle_inside
  congr _ _ _ _ _ := Aert.Cow.Inside.congr

/-- A call writes nodes of its own transaction only, in each of the four structures, so
that the trees that there were, and those of transactions that are done, stay as they
are, in whatever order the calls of all others are made. -/
theorem old_versions_stay :
    Btree.interface.Snapshots (·.op = .init) (Bnode.Denotes Btree.kind) ∧
      Betree.interface.Snapshots (·.op = .init) (Bnode.Denotes Betree.kind) ∧
        Art.interface.Snapshots (·.op = .init) Art.Denotes ∧
          Aert.Cow.handlers.Snapshots (·.op = .init) Aert.Cow.Denotes :=
  ⟨Btree.frame.snapshots fun _ _ _ _ _ hr => hr.frame,
    Betree.frame.snapshots fun _ _ _ _ _ hr => hr.frame,
    Art.frame.snapshots fun _ _ _ _ _ hr => hr.frame,
    Aert.Cow.frame.snapshots fun _ _ _ _ _ hr => hr.frame⟩

namespace Aert.Cow

def written : State NodeType Cell Context :=
  handlers.advance (State.put ⟨fun _ => none, fun _ => none⟩ 1 0 (start 1 1 10 none)
    fun _ => none) 1

def forked : State NodeType Cell Context :=
  handlers.advance (handlers.advance
    (written.put 2 0 (start 2 2 20 (some (plain ⟨1, 0, 0, .leaf⟩))) written.heap) 2) 2

theorem old_versions_stay_sample :
    (∃ s ctx, forked.call 2 = some (s, ctx) ∧ handlers.done ctx = true) ∧
      Denotes (handlers.Past written) forked.heap (some (plain ⟨1, 0, 0, .leaf⟩))
        (newLeaf 0 1 10) := by
  have hrun : handlers.Run (·.op = .init) ⟨fun _ => none, fun _ => none⟩ written :=
    .head (.begin _ 1 _ (by decide) rfl rfl) (Handlers.run_advance _ 1)
  have hrun' : handlers.Run (·.op = .init) written forked :=
    .head (.begin _ 2 _ (by decide) rfl rfl)
      ((Handlers.run_advance _ 2).trans (Handlers.run_advance _ 2))
  obtain ⟨-, -, -, hstay⟩ := old_versions_stay
  obtain ⟨-, -, htree⟩ := hstay _ written forked (fun _ => rfl) hrun hrun'
  have hleaf : Denotes (handlers.Past written) written.heap (some (plain ⟨1, 0, 0, .leaf⟩))
      (newLeaf 0 1 10) :=
    denotes_leaf.mpr ⟨.inr ⟨1, _, rfl, rfl⟩, rfl, ⟨1, rfl⟩, rfl⟩
  exact ⟨⟨2, _, rfl, rfl⟩, htree _ _ hleaf⟩

end Aert.Cow

end Contrees.Trees
