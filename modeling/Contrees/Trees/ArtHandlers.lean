import Contrees.Conctrl.Context
import Contrees.Trees.Art

namespace Contrees.Trees.Art

open Library Library.Memory Library.Slots Conctrl

/-- The parts of a node's memory that are copied apart; a LEAF has a `val` in
the place of its children. -/
inductive Field
  | head | val | chs
deriving DecidableEq

abbrev NodePtr := Ptr NodeType

abbrev Cell : Field → Type
  | .head => Nat × Head
  | .val => Nat
  | .chs => List (Option NodePtr)

abbrev NodeHeap := Heap NodeType Cell
abbrev ArtProg := Prog NodeType Cell

def leafCells (ver : Nat) (hd : Head) (val : Nat) : (f : Field) → Option (Cell f)
  | .head => some (ver, hd)
  | .val => some val
  | .chs => none

def innerCells (ver : Nat) (hd : Head) (chs : List (Option NodePtr)) : (f : Field) → Option (Cell f)
  | .head => some (ver, hd)
  | .val => none
  | .chs => some chs

def allocLeaf (ver pfxOfs key val : Nat) : ArtProg NodePtr :=
  Prog.new .leaf (leafCells ver (newNode .leaf pfxOfs (8 - pfxOfs) key) val)

def nodeCopy (t : NodePtr) (ver : Nat) : ArtProg NodePtr := do
  let (_, hd) ← Prog.load t Field.head
  if hd.type = .leaf then
    let val ← Prog.load t Field.val
    Prog.new .leaf (leafCells ver hd val)
  else Prog.new hd.type (innerCells ver hd [])

def leafUpdate (ver : Nat) (t : NodePtr) (val : Nat) : ArtProg NodePtr := do
  let tNew ← nodeCopy t ver
  Prog.store tNew Field.val val
  pure tNew

inductive Operand
  | init | search | insert | fork | done
deriving DecidableEq

structure Context extends Conctrl.Context Operand NodePtr where
  keyOfs : Nat
  chIdx : Nat

/-- `shorten` without the exception for a LEAF. -/
def shortenCow (hd : Head) (pmlen : Nat) : Head :=
  { hd with
    pfxOfs := hd.pfxOfs + (pmlen + 1)
    pfxLen := hd.pfxLen - (pmlen + 1)
    pfx := hd.pfx &&& prefixMask (hd.pfxOfs + (pmlen + 1)) (hd.pfxLen - (pmlen + 1)) }

/-- `t_par` is allocated last, with its entries in place. -/
def nodeForkCow (ctx : Context) (tPast : NodePtr) (pmlen : Nat) : ArtProg (NodePtr × Context) := do
  let tCh ← nodeCopy tPast ctx.sno
  let (ver, ch) ← Prog.load tCh Field.head
  Prog.store tCh Field.head (ver, shortenCow ch pmlen)
  let (_, past) ← Prog.load tPast Field.head
  let pk0 := partialKey past.pfx (past.pfxOfs + pmlen)
  let pk1 := partialKey ctx.key (ctx.keyOfs + pmlen)
  let leaf ← allocLeaf ctx.sno (ctx.keyOfs + pmlen + 1) ctx.key ctx.val
  let tPar ← Prog.new .node4 (innerCells ctx.sno (forkHead ctx.keyOfs pmlen ctx.key pk0 pk1)
    (pairUp pk0 pk1 (some tCh) (some leaf)))
  pure (tPar, { ctx with keyOfs := ctx.keyOfs + pmlen, chIdx := if pk1 < pk0 then 1 else 0 })

/-- The new node goes to `*tp`, which the callers write. -/
def updateCow (ctx : Context) : ArtProg (NodePtr × Context) :=
  match ctx.tPast with
  | none => do
      let tp ← allocLeaf ctx.sno ctx.keyOfs ctx.key ctx.val
      pure (tp, { ctx with op := .done })
  | some tPast => do
      let (_, past) ← Prog.load tPast Field.head
      let pmlen := prefixMatch past ctx.key
      if pmlen < past.pfxLen then
        let (tp, ctx) ← nodeForkCow ctx tPast pmlen
        pure (tp, { ctx with op := .fork })
      else if past.type = .leaf then
        let tp ← leafUpdate ctx.sno tPast ctx.val
        pure (tp, { ctx with op := .done })
      else
        let pkey := partialKey ctx.key (ctx.keyOfs + past.pfxLen)
        let keyOfs := ctx.keyOfs + past.pfxLen + 1
        match findIdx past pkey with
        | some idx =>
            let tp ← nodeCopy tPast ctx.sno
            pure (tp, { ctx with keyOfs := keyOfs, chIdx := idx, op := .search })
        | none =>
            let (idx, new) := append (if isFull past then nodeExtend past else past) pkey
            let tp ← Prog.new new.type (innerCells ctx.sno new [])
            pure (tp, { ctx with keyOfs := keyOfs, chIdx := idx, op := .insert })

def copych (tNew tOld : NodePtr) : ArtProg Unit := do
  let (_, new) ← Prog.load tNew Field.head
  if new.type = .leaf then pure ()
  else
    let ps ← Prog.load tOld Field.chs
    Prog.store tNew Field.chs ps

def storeCh (t : NodePtr) (idx : Nat) (ch : NodePtr) : ArtProg Unit := do
  let (_, hd) ← Prog.load t Field.head
  let ps ← Prog.load t Field.chs
  Prog.store t Field.chs (setch hd ps idx (some ch))

def handleInit (ctx : Context) : ArtProg Context := do
  let (tp, ctx) ← updateCow { ctx with keyOfs := 0 }
  pure { ctx with root := some tp, tCur := some tp }

def handleSearch (ctx : Context) : ArtProg Context := do
  let tCur ← Prog.check ctx.tCur
  let tPast ← Prog.check ctx.tPast
  copych tCur tPast
  let (_, past) ← Prog.load tPast Field.head
  let ps ← Prog.load tPast Field.chs
  let (tp, next) ← updateCow { ctx with tPast := getch past ps ctx.chIdx }
  storeCh tCur ctx.chIdx tp
  pure { next with tCur := some tp }

def handleInsert (ctx : Context) : ArtProg Context := do
  let tCur ← Prog.check ctx.tCur
  let tPast ← Prog.check ctx.tPast
  let (_, new) ← Prog.load tCur Field.head
  let (_, old) ← Prog.load tPast Field.head
  let ps ← Prog.load tPast Field.chs
  Prog.store tCur Field.chs (copychAt new old ps ctx.chIdx)
  let leaf ← allocLeaf ctx.sno ctx.keyOfs ctx.key ctx.val
  storeCh tCur ctx.chIdx leaf
  pure { ctx with op := .done }

def handleFork (ctx : Context) : ArtProg Context := do
  let tCur ← Prog.check ctx.tCur
  let tPast ← Prog.check ctx.tPast
  let ps ← Prog.load tCur Field.chs
  let tCur ← Prog.check (ps.getD ctx.chIdx none)
  copych tCur tPast
  pure { ctx with tCur := some tCur, op := .done }

def interface : Interface NodeType Cell Context where
  handle := fun ctx =>
    match ctx.op with
    | .init => handleInit ctx
    | .search => handleSearch ctx
    | .insert => handleInsert ctx
    | .fork => handleFork ctx
    | .done => .fault
  done := fun ctx => ctx.op = .done
  start := fun tid key val tPast =>
    ⟨⟨.init, false, false, tid % 2 ^ 32, none, none, tPast, key, val⟩, 0, 0⟩
  root := fun ctx => ctx.root

def next (s : Nat) (_ : Context) : Nat := s + 1

end Contrees.Trees.Art
