import Contrees.Conctrl.Context
import Contrees.Trees.Aert

namespace Contrees.Trees.Aert.Cow

open Library Library.Memory Library.Slots Conctrl

/-- The parts of a node's memory that are copied apart; a LEAF has a `val` in
the place of its children. -/
inductive Field
  | head | val | chs
deriving DecidableEq

abbrev Address := Ptr NodeType

/-- An address and the four bits of the key that the pointer embeds with the
mark `0x10`, if any. A pointer with a tag is no address of a node. -/
structure NodePtr where
  addr : Address
  tag : Option Nat
deriving DecidableEq

abbrev Cell : Field → Type
  | .head => Nat × Head
  | .val => Nat
  | .chs => List (Option NodePtr)

abbrev NodeHeap := Heap NodeType Cell
abbrev AertProg := Prog NodeType Cell

def leafCells (ver : Nat) (hd : Head) (val : Nat) : (f : Field) → Option (Cell f)
  | .head => some (ver, hd)
  | .val => some val
  | .chs => none

/-- `chs` is empty until it is copied; where it is zeroed, that is a null array. -/
def innerCells (ver : Nat) (hd : Head) (chs : List (Option NodePtr)) : (f : Field) → Option (Cell f)
  | .head => some (ver, hd)
  | .val => none
  | .chs => some chs

def plain (p : Address) : NodePtr := ⟨p, none⟩

def extractPtr (t : Option NodePtr) : Option NodePtr := t.map (fun t => plain t.addr)

def embedPtr (t : NodePtr) (lo : Nat) : NodePtr := ⟨t.addr, some (t.tag.getD 0 ||| lo)⟩

/-- The node of a pointer that the code dereferences as it is. -/
def deref : Option NodePtr → AertProg Address
  | some ⟨p, none⟩ => pure p
  | _ => .fault

section Nodes

def allocLeaf (ver pfxOfs key val : Nat) : AertProg NodePtr :=
  if pfxOfs % 8 = 4 then do
    let t ← Prog.new .leaf (leafCells ver (newNode .leaf (pfxOfs + 4) (64 - 4 - pfxOfs) key) val)
    pure (embedPtr (plain t) (partialKey key pfxOfs 4))
  else do
    let t ← Prog.new .leaf (leafCells ver (newNode .leaf pfxOfs (64 - pfxOfs) key) val)
    pure (plain t)

def nodeCopy (t : Address) (ver : Nat) : AertProg Address := do
  let (_, hd) ← Prog.load t Field.head
  if hd.type = .leaf then
    let val ← Prog.load t Field.val
    Prog.new .leaf (leafCells ver hd val)
  else Prog.new hd.type (innerCells ver hd [])

def leafUpdate (ver : Nat) (t : Address) (val : Nat) : AertProg Address := do
  let tNew ← nodeCopy t ver
  Prog.store tNew Field.val val
  pure tNew

def append (t : Address) (pkey : Nat) : AertProg Nat := do
  let (ver, hd) ← Prog.load t Field.head
  Prog.store t Field.head (ver, (Aert.append hd pkey).2)
  pure (Aert.append hd pkey).1

def insertch (t : Address) (idx : Nat) (ch : NodePtr) : AertProg Unit := do
  let (_, hd) ← Prog.load t Field.head
  let ps ← Prog.load t Field.chs
  Prog.store t Field.chs (Aert.insertch hd ps idx (some ch))

def storeCh (t : Address) (idx : Nat) (ch : NodePtr) : AertProg Unit := do
  let ps ← Prog.load t Field.chs
  Prog.store t Field.chs (setch ps idx (some ch))

def copych (tNew tOld : Address) : AertProg Unit := do
  let (_, new) ← Prog.load tNew Field.head
  let (_, old) ← Prog.load tOld Field.head
  if old.type = .leaf then pure ()
  else
    let ps ← Prog.load tOld Field.chs
    Prog.store tNew Field.chs
      (if old.type = .nodeh4 ∧ new.type ≠ .nodeh4 then spread 16 old.keys ps else ps)

/-- The loop body of `create_upper_half`. -/
def upperStep (tUh : Address) (old : Head) (ver pkey idx : Nat) : AertProg Unit :=
  if chSz old pkey idx > 1 then do
    let i ← append tUh idx
    let new := newNodeh (chSz old pkey idx) (old.pfxOfs + old.pfxLen + 4) 0 0
    let tLh ← Prog.new new.type (innerCells ver new [])
    storeCh tUh i (plain tLh)
  else pure ()

def createUpperHalf (tOld : Address) (ver pkey : Nat) : AertProg Address := do
  let (_, old) ← Prog.load tOld Field.head
  let cnt := (List.range 16).countP (chSz old pkey · ≠ 0)
  let new := newNodeh cnt old.pfxOfs old.pfxLen old.pfx
  let tUh ← Prog.new new.type (innerCells ver new [])
  (List.range 16).forM (upperStep tUh old ver pkey)
  pure tUh

/-- A NODE16 has no null children, whose pointers cannot embed bits. -/
def createLowerHalf (tUh : Option NodePtr) (oldCh : Option NodePtr) (pkey : Nat) : AertProg Unit := do
  let hi := pkey >>> 4
  let lo := pkey &&& 0x0F
  let tUh ← deref tUh
  let oldCh ← Prog.check oldCh
  let (_, uh) ← Prog.load tUh Field.head
  let ps ← Prog.load tUh Field.chs
  match findch uh ps hi with
  | none =>
      let i ← append tUh hi
      insertch tUh i (embedPtr oldCh lo)
  | some tLh =>
      let tLh ← deref (some tLh)
      let i ← append tLh lo
      insertch tLh i oldCh

end Nodes

inductive Operand
  | init | search | insert | fork | split | done
deriving DecidableEq

/-- `aert::context`; `embed_pfx` is written and never read. -/
structure Context where
  op : Operand
  sno : Nat
  root : Option NodePtr
  tCur : Option NodePtr
  tPast : Option NodePtr
  key : Nat
  val : Nat
  keyOfs : Nat
  chIdx : Nat

section Handlers

def nodeForkCow (ctx : Context) (tPast : Address) (pmlen : Nat) : AertProg (Address × Context) := do
  let tPar ← Prog.new .node4 (innerCells ctx.sno (newNode .node4 ctx.keyOfs pmlen ctx.key) [])
  let tCh ← nodeCopy tPast ctx.sno
  let (ver, ch) ← Prog.load tCh Field.head
  Prog.store tCh Field.head (ver, shorten ch pmlen)
  let (_, past) ← Prog.load tPast Field.head
  let pk0 := partialKey past.pfx (past.pfxOfs + pmlen) 8
  let keyOfs := ctx.keyOfs + pmlen
  let pk1 := partialKey ctx.key keyOfs 8
  let leaf ← allocLeaf ctx.sno (keyOfs + 8) ctx.key ctx.val
  Prog.store tPar Field.head (ctx.sno, forkHead .node4 ctx.keyOfs pmlen ctx.key pk0 pk1)
  Prog.store tPar Field.chs (pairUp pk0 pk1 (some (plain tCh)) (some leaf))
  pure (tPar, { ctx with keyOfs := keyOfs, chIdx := if pk1 < pk0 then 1 else 0 })

def nodehForkCow (ctx : Context) (tPast : Address) (lo : Nat) : AertProg (Address × Context) := do
  let tPar ← Prog.new .nodeh4 (innerCells ctx.sno (newNode .nodeh4 ctx.keyOfs 0 ctx.key) [])
  let pk1 := partialKey ctx.key ctx.keyOfs 4
  let leaf ← allocLeaf ctx.sno (ctx.keyOfs + 4) ctx.key ctx.val
  Prog.store tPar Field.head (ctx.sno, forkHead .nodeh4 ctx.keyOfs 0 ctx.key lo pk1)
  Prog.store tPar Field.chs (pairUp lo pk1 (some (plain tPast)) (some leaf))
  pure (tPar, { ctx with chIdx := if pk1 < lo then 1 else 0 })

/-- `update_cow` at a node, once the bits of its pointer match. The new node goes
to `*tp`, which the callers write. -/
def updateNode (ctx : Context) (tPast : Address) : AertProg (Address × Context) := do
  let (_, past) ← Prog.load tPast Field.head
  if pmlen past ctx.key < past.pfxLen then
    let (tp, ctx) ← nodeForkCow ctx tPast (pmlen past ctx.key)
    pure (tp, { ctx with op := .fork })
  else if past.type = .leaf then
    let tp ← leafUpdate ctx.sno tPast ctx.val
    pure (tp, { ctx with op := .done })
  else
    let pkey := partialKey ctx.key (ctx.keyOfs + past.pfxLen) (nodeKeyLen past.type)
    let keyOfs := ctx.keyOfs + past.pfxLen + nodeKeyLen past.type
    match findidx past pkey with
    | some idx =>
        let tp ← nodeCopy tPast ctx.sno
        pure (tp, { ctx with keyOfs := keyOfs, chIdx := idx, op := .search })
    | none =>
        if past.size = 16 then
          let tp ← createUpperHalf tPast ctx.sno pkey
          pure (tp, { ctx with keyOfs := keyOfs, op := .split })
        else
          let (idx, new) := if isFull past then extendAppend past pkey else Aert.append past pkey
          let tp ← Prog.new new.type (innerCells ctx.sno new [])
          pure (tp, { ctx with keyOfs := keyOfs, chIdx := idx, op := .insert })

def updateCow (ctx : Context) : AertProg (NodePtr × Context) :=
  match ctx.tPast with
  | none => do
      let tp ← allocLeaf ctx.sno ctx.keyOfs ctx.key ctx.val
      pure (tp, { ctx with op := .done })
  | some ⟨tPast, none⟩ => do
      let (tp, ctx) ← updateNode ctx tPast
      pure (plain tp, ctx)
  | some ⟨tPast, some lo⟩ => do
      let (_, past) ← Prog.load tPast Field.head
      if ptrPfxMatch lo past.pfxOfs ctx.key < 4 then
        let (tp, ctx) ← nodehForkCow ctx tPast lo
        pure (plain tp, { ctx with op := .done })
      else
        let (tp, ctx) ← updateNode { ctx with keyOfs := ctx.keyOfs + 4 } tPast
        pure (embedPtr (plain tp) lo, ctx)

def handleInit (ctx : Context) : AertProg Context := do
  let (tp, ctx) ← updateCow { ctx with keyOfs := 0 }
  pure { ctx with root := some tp, tCur := some tp }

def handleSearch (ctx : Context) : AertProg Context := do
  let tCur ← deref (extractPtr ctx.tCur)
  let tPast ← deref ctx.tPast
  copych tCur tPast
  let ps ← Prog.load tPast Field.chs
  let (tp, next) ← updateCow { ctx with tPast := getch ps ctx.chIdx }
  storeCh tCur ctx.chIdx tp
  pure { next with tCur := some tp, tPast := extractPtr next.tPast }

/-- `t_cur` is taken as it is, with its tag. -/
def handleSplit (ctx : Context) : AertProg Context := do
  let tPast ← deref ctx.tPast
  let (_, past) ← Prog.load tPast Field.head
  let ps ← Prog.load tPast Field.chs
  (past.keys.zip ps).forM (fun e => createLowerHalf ctx.tCur e.2 e.1)
  let leaf ← allocLeaf ctx.sno ctx.keyOfs ctx.key ctx.val
  createLowerHalf ctx.tCur (some leaf) (partialKey ctx.key (ctx.keyOfs - 8) 8)
  pure { ctx with op := .done }

def handleInsert (ctx : Context) : AertProg Context := do
  let tCur ← deref (extractPtr ctx.tCur)
  let tPast ← deref ctx.tPast
  let (_, new) ← Prog.load tCur Field.head
  let (_, old) ← Prog.load tPast Field.head
  let ps ← Prog.load tPast Field.chs
  Prog.store tCur Field.chs (copychAt new old ps ctx.chIdx)
  if ctx.keyOfs % 8 = 0 then
    let leaf ← allocLeaf ctx.sno ctx.keyOfs ctx.key ctx.val
    storeCh tCur ctx.chIdx leaf
  else
    let leaf ← allocLeaf ctx.sno (ctx.keyOfs + 4) ctx.key ctx.val
    storeCh tCur ctx.chIdx (embedPtr leaf (partialKey ctx.key ctx.keyOfs 4))
  pure { ctx with op := .done }

def handleFork (ctx : Context) : AertProg Context := do
  let tCur ← deref (extractPtr ctx.tCur)
  let ps ← Prog.load tCur Field.chs
  let tCh := ps.getD ctx.chIdx none
  let tCur ← deref (extractPtr tCh)
  let tPast ← deref ctx.tPast
  copych tCur tPast
  pure { ctx with tCur := tCh, op := .done }

def handlers : Handlers NodeType Cell Context where
  handle := fun ctx =>
    match ctx.op with
    | .init => handleInit ctx
    | .search => handleSearch ctx
    | .insert => handleInsert ctx
    | .fork => handleFork ctx
    | .split => handleSplit ctx
    | .done => .fault
  done := fun ctx => ctx.op = .done

def start (tid key val : Nat) (tPast : Option NodePtr) : Context :=
  ⟨.init, tid % 2 ^ 32, none, none, tPast, key, val, 0, 0⟩

end Handlers

end Contrees.Trees.Aert.Cow
