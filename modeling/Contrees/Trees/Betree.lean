import Contrees.Trees.BnodeBuild

namespace Contrees.Trees.Betree

open Library Library.Memory Library.SearchTree Conctrl Bnode

/-- The height of an elastic part from which on the tree is rebuilt. -/
def E : Nat := 3

inductive NodeType
  | upper | lower | boundary | leaf
deriving DecidableEq

/-- What a node records beside its keys; `verge` and `height` are bytes. -/
structure Ann where
  type : NodeType
  verge : Nat
  height : Nat
deriving DecidableEq

/-- `copy_leaf` and `copy_internal` copy all of a node's first bytes, and a leaf
that grows passes on its `verge` only. -/
def kind : Kind Ann where
  isLeaf := fun a => a.type = .leaf
  newLeaf := ⟨.leaf, 0, 0⟩
  grownLeaf := fun a => ⟨.leaf, a.verge, 0⟩
  copied := fun a => a
  half := fun a => ⟨.lower, 0, a.height⟩
  isLeaf_newLeaf := rfl
  isLeaf_grownLeaf := fun _ => rfl
  isLeaf_half := fun _ => rfl
  copied_internal := fun _ _ => rfl

inductive Operand
  | init | searchUpper | searchElastic | searchLower | searchSplit | done
deriving DecidableEq

structure Context extends Conctrl.Context Operand (NodePtr Ann) where
  splitIdx : Nat

abbrev BetreeProg := NodeProg Ann

/-- The new node goes to `*tp`, which the callers write. -/
def updateUpperCow (ctx : Context) : BetreeProg (NodePtr Ann × Context) := do
  let tPast ← Prog.check ctx.tPast
  let past ← Prog.load tPast Field.head
  if kind.isLeaf past.ann then
    let (key, l, r) ← updateLeafCow kind ctx.sno ctx.key ctx.val tPast
    match r with
    | none => pure (l, { ctx with op := .done })
    | some r =>
        let tp ← newRoot ctx.sno ⟨.boundary, past.ann.verge, 0⟩ key l r
        pure (tp, { ctx with op := .done })
  else
    let tp ← copyInternal kind ctx.sno tPast
    if past.ann.type = .boundary then pure (tp, { ctx with waitChild := true, op := .searchElastic })
    else pure (tp, { ctx with op := .searchUpper })

def updateLowerCow (ctx : Context) : BetreeProg Context := do
  let tCur ← Prog.check ctx.tCur
  let (tPast, next) ← descend kind ctx.sno ctx.key ctx.val tCur
  match next with
  | .done => pure { ctx with tPast := some tPast, op := .done }
  | .split i => pure { ctx with tPast := some tPast, splitIdx := i, op := .searchSplit }
  | .down tCur => pure { ctx with tPast := some tPast, tCur := some tCur, op := .searchLower }

def handleInit (ctx : Context) : BetreeProg Context := do
  let (tp, ctx) ← updateUpperCow ctx
  pure { ctx with root := some tp, tCur := some tp }

def handleUpper (ctx : Context) : BetreeProg Context := do
  let tCur ← Prog.check ctx.tCur
  let tPast ← Prog.check ctx.tPast
  copych tCur tPast
  let past ← Prog.load tPast Field.head
  let i := findch past.keys ctx.key
  let ps ← Prog.load tPast Field.chs
  let tPast ← Prog.check ps[i]?
  let (tp, ctx) ← updateUpperCow { ctx with tPast := some tPast }
  setChild tCur i tp
  pure { ctx with tCur := some tp }

/-- `height + 1` of a root that splits, and whether it calls for a rebuild. -/
def grow (height : Nat) : Nat := (height + 1) % 256

def handleElastic (ctx : Context) : BetreeProg Context := do
  let tCur ← Prog.check ctx.tCur
  let tPast ← Prog.check ctx.tPast
  copych tCur tPast
  let past ← Prog.load tPast Field.head
  let i := findch past.keys ctx.key
  let ps ← Prog.load tPast Field.chs
  let tPast ← Prog.check ps[i]?
  let past ← Prog.load tPast Field.head
  if kind.isLeaf past.ann then
    let (key, l, r) ← updateLeafCow kind ctx.sno ctx.key ctx.val tPast
    match r with
    | none =>
        setChild tCur i l
        pure { ctx with tPast := some tPast, op := .done }
    | some r =>
        let tp ← newRoot ctx.sno ⟨.lower, 0, 1⟩ key l r
        setChild tCur i tp
        pure { ctx with
          tPast := some tPast, newCheckpoint := ctx.newCheckpoint || decide (E < 1), op := .done }
  else if past.keys.length < 2 * B - 1 then
    let tp ← copyInternal kind ctx.sno tPast
    setChild tCur i tp
    copych tp tPast
    updateLowerCow { ctx with tPast := some tPast, tCur := some tp }
  else
    let (key, l, r) ← split kind ctx.sno tPast
    let tp ← newRoot ctx.sno ⟨.lower, 0, grow past.ann.height⟩ key l r
    setChild tCur i tp
    copychSplit l r tPast
    updateLowerCow { ctx with
      tPast := some tPast
      newCheckpoint := ctx.newCheckpoint || decide (E < grow past.ann.height)
      tCur := some (if ctx.key < key then l else r) }

def handleLower (ctx : Context) : BetreeProg Context := do
  let tCur ← Prog.check ctx.tCur
  let tPast ← Prog.check ctx.tPast
  copych tCur tPast
  updateLowerCow ctx

def handleSplit (ctx : Context) : BetreeProg Context := do
  let tCur ← Prog.check ctx.tCur
  let tPast ← Prog.check ctx.tPast
  let tCur ← enterHalf ctx.key tCur tPast ctx.splitIdx
  updateLowerCow { ctx with tCur := some tCur }

def interface : Interface Ann (Cell Ann) Context where
  handle := fun ctx =>
    match ctx.op with
    | .init => handleInit ctx
    | .searchUpper => handleUpper ctx
    | .searchElastic => handleElastic ctx
    | .searchLower => handleLower ctx
    | .searchSplit => handleSplit ctx
    | .done => .fault
  done := fun ctx => ctx.op = .done
  start := fun tid key val tPast =>
    ⟨⟨.init, false, false, tid % 2 ^ 32, none, none, tPast, key, val⟩, 0⟩
  root := fun ctx => ctx.root

/-- What `build_internal` records in the nodes at a distance from the root. -/
def annAt (h : Nat) : Nat → Ann
  | 0 => ⟨if h = 0 then .boundary else .upper, h, 0⟩
  | d + 1 => ⟨if d + 1 < h then .upper else if d + 1 = h then .boundary else .lower, 0, 0⟩

def build (h : Nat) (elems : List (Nat × Nat)) : Option (NodeTree Ann) :=
  buildSorted (annAt h) ⟨.leaf, 0, 0⟩ ⟨.leaf, h, 0⟩ (sorted elems)

end Contrees.Trees.Betree
