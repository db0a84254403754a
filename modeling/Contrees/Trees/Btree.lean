import Contrees.Trees.BnodeBuild

namespace Contrees.Trees.Btree

open Library Library.Memory Library.SearchTree Conctrl Bnode

inductive NodeType
  | internal | leaf
deriving DecidableEq

def kind : Kind NodeType where
  isLeaf := fun a => a = .leaf
  newLeaf := .leaf
  grownLeaf := fun _ => .leaf
  copied := fun _ => .internal
  half := fun _ => .internal
  isLeaf_newLeaf := rfl
  isLeaf_grownLeaf := fun _ => rfl
  isLeaf_half := fun _ => rfl
  copied_internal := fun a ha => by cases a <;> simp_all

inductive Operand
  | init | searchDown | searchSplit | done
deriving DecidableEq

structure Context extends Conctrl.Context Operand (NodePtr NodeType) where
  splitIdx : Nat

abbrev BtreeProg := NodeProg NodeType

def updateCow (ctx : Context) : BtreeProg Context := do
  let tCur ← Prog.check ctx.tCur
  let (tPast, next) ← descend kind ctx.sno ctx.key ctx.val tCur
  match next with
  | .done => pure { ctx with tPast := some tPast, op := .done }
  | .split i => pure { ctx with tPast := some tPast, splitIdx := i, op := .searchSplit }
  | .down tCur => pure { ctx with tPast := some tPast, tCur := some tCur, op := .searchDown }

/-- The part of `handle_init` below its test for a LEAF root. -/
def initInternal (ctx : Context) (tPast : NodePtr NodeType) : BtreeProg Context := do
  let past ← Prog.load tPast Field.head
  if past.keys.length < 2 * B - 1 then
    let tp ← copyInternal kind ctx.sno tPast
    copych tp tPast
    updateCow { ctx with root := some tp, tCur := some tp }
  else
    let (key, l, r) ← split kind ctx.sno tPast
    let tp ← newRoot ctx.sno .internal key l r
    copychSplit l r tPast
    updateCow { ctx with root := some tp, tCur := some (if ctx.key < key then l else r) }

/-- The `return` belongs to the `else` branch only: after a LEAF root that does
not split, the code goes on as for an INTERNAL root. -/
def handleInit (ctx : Context) : BtreeProg Context := do
  let tPast ← Prog.check ctx.tPast
  let past ← Prog.load tPast Field.head
  if kind.isLeaf past.ann then
    let (key, l, r) ← updateLeafCow kind ctx.sno ctx.key ctx.val tPast
    match r with
    | none => initInternal { ctx with root := some l } tPast
    | some r =>
        let tp ← newRoot ctx.sno .internal key l r
        pure { ctx with root := some tp, op := .done }
  else initInternal ctx tPast

def handleSearchDown (ctx : Context) : BtreeProg Context := do
  let tCur ← Prog.check ctx.tCur
  let tPast ← Prog.check ctx.tPast
  copych tCur tPast
  updateCow ctx

def handleSearchSplit (ctx : Context) : BtreeProg Context := do
  let tCur ← Prog.check ctx.tCur
  let tPast ← Prog.check ctx.tPast
  let tCur ← enterHalf ctx.key tCur tPast ctx.splitIdx
  updateCow { ctx with tCur := some tCur }

def interface : Interface NodeType (Cell NodeType) Context where
  handle := fun ctx =>
    match ctx.op with
    | .init => handleInit ctx
    | .searchDown => handleSearchDown ctx
    | .searchSplit => handleSearchSplit ctx
    | .done => .fault
  done := fun ctx => ctx.op = .done
  start := fun tid key val tPast =>
    ⟨⟨.init, false, false, tid % 2 ^ 32, none, none, tPast, key, val⟩, 0⟩
  root := fun ctx => ctx.root

def next (s : Nat) (_ : Context) : Nat := s + 1

def build (elems : List (Nat × Nat)) : Option (NodeTree NodeType) :=
  buildSorted (fun _ => .internal) .leaf .leaf (sorted elems)

/-- The node an entry is added to in place stays a LEAF. -/
def updateLeafInplace (a : NodeType) (ks : List Nat) (vs : List (Option Nat)) (k v : Nat) :
    Updated NodeType Nat (Option Nat) :=
  let i := findval ks k
  if ks[i]? = some k then .one (.leaf a ks (vs.set i (some v)))
  else if ks.length < 2 * B - 1 then .one (.leaf .leaf (ks.insertIdx i k) (vs.insertIdx i (some v)))
  else if i < B then
    .two ((ks.drop (B - 1)).getD 0 k)
      (.leaf .leaf ((ks.take (B - 1)).insertIdx i k) ((vs.take (B - 1)).insertIdx i (some v)))
      (.leaf .leaf (ks.drop (B - 1)) (vs.drop (B - 1)))
  else
    .two (((ks.drop B).insertIdx (i - B) k).getD 0 k) (.leaf .leaf (ks.take B) (vs.take B))
      (.leaf .leaf ((ks.drop B).insertIdx (i - B) k) ((vs.drop B).insertIdx (i - B) (some v)))

def halves (ks : List Nat) (cs : List (NodeTree NodeType)) : NodeTree NodeType × NodeTree NodeType :=
  (.node .internal (ks.take (B - 1)) (cs.take B), .node .internal (ks.drop B) (cs.drop B))

/-- The update of a tree that no one shares: assignments to its nodes are
replacements of subtrees, and `none` is a read outside an array. -/
def updateInternalInplace (k v : Nat) : NodeTree NodeType → Option (NodeTree NodeType)
  | .leaf _ _ _ => none
  | .node a ks cs =>
      let i := findch ks k
      match _hc : cs[i]? with
      | none => none
      | some (.leaf b lks lvs) => some (Updated.absorb a ks cs i (updateLeafInplace b lks lvs k v))
      | some (.node b cks ccs) =>
          if cks.length < 2 * B - 1 then
            (updateInternalInplace k v (.node b cks ccs)).map (fun c => Updated.absorb a ks cs i (.one c))
          else
            match cks[B - 1]? with
            | none => none
            | some p =>
                if p ≤ k then
                  (updateInternalInplace k v (halves cks ccs).2).map (fun r =>
                    Updated.absorb a ks cs i (.two p (halves cks ccs).1 r))
                else
                  (updateInternalInplace k v (halves cks ccs).1).map (fun l =>
                    Updated.absorb a ks cs i (.two p l (halves cks ccs).2))
  termination_by t => t.height
  decreasing_by
    all_goals
      have hlt : (Multiway.node b cks ccs).height < (Multiway.node a ks cs).height :=
        Multiway.height_lt (List.mem_of_getElem? _hc)
      have htake : Multiway.heights (ccs.take B) ≤ Multiway.heights ccs :=
        Multiway.heights_mono fun c h => List.mem_of_mem_take h
      have hdrop : Multiway.heights (ccs.drop B) ≤ Multiway.heights ccs :=
        Multiway.heights_mono fun c h => List.mem_of_mem_drop h
      simp only [Multiway.height, halves] at hlt ⊢
      omega

def updateRootInplace (k v : Nat) : NodeTree NodeType → Option (NodeTree NodeType)
  | .leaf a ks vs =>
      match updateLeafInplace a ks vs k v with
      | .one t => some t
      | .two p l r => some (.node .internal [p] [l, r])
  | .node a ks cs =>
      if ks.length < 2 * B - 1 then updateInternalInplace k v (.node a ks cs)
      else
        match ks[B - 1]? with
        | none => none
        | some p =>
            if p ≤ k then
              (updateInternalInplace k v (halves ks cs).2).map (fun r =>
                .node .internal [p] [(halves ks cs).1, r])
            else
              (updateInternalInplace k v (halves ks cs).1).map (fun l =>
                .node .internal [p] [l, (halves ks cs).2])

end Contrees.Trees.Btree
