import Contrees.Conctrl.Context
import Contrees.Library.SearchTreeInsert

namespace Contrees.Trees.Bnode

open Library Library.Memory Library.SearchTree Conctrl

def B : Nat := 8

theorem B_pos : 0 < B := by decide

variable {ι : Type}

/-- The two halves of a node's memory: `copy_internal` copies the first and
`copych` the second. -/
inductive Field
  | head | chs
deriving DecidableEq

/-- A node below its `size`, so that `size` is `keys.length`; `ann` holds `type`
and what else a node records. A value that no one wrote is `none`. -/
structure Head (ι : Type) where
  ver : Nat
  ann : ι
  keys : List Nat
  vals : List (Option Nat)

/-- A LEAF has no `chs`, and `chs` is empty until it is copied. -/
abbrev Cell (ι : Type) : Field → Type
  | .head => Head ι
  | .chs => List (Ptr ι)

abbrev NodePtr (ι : Type) := Ptr ι
abbrev NodeHeap (ι : Type) := Heap ι (Cell ι)
abbrev NodeProg (ι : Type) := Prog ι (Cell ι)

structure Kind (ι : Type) where
  isLeaf : ι → Bool
  newLeaf : ι
  grownLeaf : ι → ι
  copied : ι → ι
  half : ι → ι
  isLeaf_newLeaf : isLeaf newLeaf = true
  isLeaf_grownLeaf : ∀ a, isLeaf (grownLeaf a) = true
  isLeaf_half : ∀ a, isLeaf (half a) = false
  copied_internal : ∀ a, isLeaf a = false → copied a = a

def cells (hd : Head ι) (chs : Option (List (NodePtr ι))) : (f : Field) → Option (Cell ι f)
  | .head => some hd
  | .chs => chs

@[simp] theorem cells_head (hd : Head ι) (chs : Option (List (NodePtr ι))) :
    cells hd chs .head = some hd := rfl

@[simp] theorem cells_chs (hd : Head ι) (chs : Option (List (NodePtr ι))) :
    cells hd chs .chs = chs := rfl

def newLeaf (ver : Nat) (ann : ι) (keys : List Nat) (vals : List (Option Nat)) :
    NodeProg ι (NodePtr ι) := Prog.new ann (cells ⟨ver, ann, keys, vals⟩ none)

def newInternal (ver : Nat) (ann : ι) (keys : List Nat) (chs : List (NodePtr ι)) :
    NodeProg ι (NodePtr ι) := Prog.new ann (cells ⟨ver, ann, keys, []⟩ (some chs))

def newRoot (ver : Nat) (ann : ι) (key : Nat) (ch0 ch1 : NodePtr ι) : NodeProg ι (NodePtr ι) :=
  newInternal ver ann [key] [ch0, ch1]

/-- `memcpy(t_new, t, 128)` ends right before `vals`. -/
def copyLeaf (ver : Nat) (t : NodePtr ι) : NodeProg ι (NodePtr ι) := do
  let hd ← Prog.load t Field.head
  newLeaf ver hd.ann hd.keys (hd.vals.map (fun _ => none))

def setVal (t : NodePtr ι) (i val : Nat) : NodeProg ι Unit := do
  let hd ← Prog.load t Field.head
  Prog.store t Field.head { hd with vals := hd.vals.set i (some val) }

def copyInternal (K : Kind ι) (ver : Nat) (t : NodePtr ι) : NodeProg ι (NodePtr ι) := do
  let hd ← Prog.load t Field.head
  newInternal ver (K.copied hd.ann) hd.keys []

/-- The children of the halves are copied at the next stage. -/
def split (K : Kind ι) (ver : Nat) (t : NodePtr ι) :
    NodeProg ι (Nat × NodePtr ι × NodePtr ι) := do
  let hd ← Prog.load t Field.head
  let l ← newInternal ver (K.half hd.ann) (hd.keys.take (B - 1)) []
  let r ← newInternal ver (K.half hd.ann) (hd.keys.drop B) []
  let key ← Prog.check hd.keys[B - 1]?
  pure (key, l, r)

def copych (tNew tOld : NodePtr ι) : NodeProg ι Unit := do
  let ps ← Prog.load tOld Field.chs
  Prog.store tNew Field.chs ps

def copychSplit (l r tOld : NodePtr ι) : NodeProg ι Unit := do
  let ps ← Prog.load tOld Field.chs
  Prog.store l Field.chs (ps.take B)
  Prog.store r Field.chs (ps.drop B)

def setChild (t : NodePtr ι) (i : Nat) (c : NodePtr ι) : NodeProg ι Unit := do
  let ps ← Prog.load t Field.chs
  let _ ← Prog.check ps[i]?
  Prog.store t Field.chs (ps.set i c)

def insertChild (t : NodePtr ι) (key : Nat) (l r : NodePtr ι) (pos : Nat) : NodeProg ι Unit := do
  let hd ← Prog.load t Field.head
  let ps ← Prog.load t Field.chs
  let _ ← Prog.check ps[pos]?
  if hd.keys.length < 2 * B - 1 then
    Prog.store t Field.head { hd with keys := hd.keys.insertIdx pos key }
    Prog.store t Field.chs ((ps.set pos l).insertIdx (pos + 1) r)
  else Prog.fault

def replaceChild (t : NodePtr ι) (i p : Nat) (l : NodePtr ι) : Option (NodePtr ι) → NodeProg ι Unit
  | none => setChild t i l
  | some r => insertChild t p l r i

def updateLeafCow (K : Kind ι) (ver key val : Nat) (t : NodePtr ι) :
    NodeProg ι (Nat × NodePtr ι × Option (NodePtr ι)) := do
  let hd ← Prog.load t Field.head
  let i := findval hd.keys key
  if hd.keys[i]? = some key then
    let tNew ← copyLeaf ver t
    setVal tNew i val
    pure (key, tNew, none)
  else if hd.keys.length < 2 * B - 1 then
    let tNew ← newLeaf ver (K.grownLeaf hd.ann) (hd.keys.insertIdx i key)
      (hd.vals.insertIdx i (some val))
    pure (key, tNew, none)
  else if i < B then
    let l ← newLeaf ver K.newLeaf ((hd.keys.take (B - 1)).insertIdx i key)
      ((hd.vals.take (B - 1)).insertIdx i (some val))
    let r ← newLeaf ver K.newLeaf (hd.keys.drop (B - 1)) (hd.vals.drop (B - 1))
    let p ← Prog.check (hd.keys.drop (B - 1))[0]?
    pure (p, l, some r)
  else
    let keysR := (hd.keys.drop B).insertIdx (i - B) key
    let l ← newLeaf ver K.newLeaf (hd.keys.take B) (hd.vals.take B)
    let r ← newLeaf ver K.newLeaf keysR ((hd.vals.drop B).insertIdx (i - B) (some val))
    let p ← Prog.check keysR[0]?
    pure (p, l, some r)

inductive Descent (ι : Type)
  | done
  | down (tCur : NodePtr ι)
  | split (splitIdx : Nat)

/-- The body that `btree::update_cow` and `betree::update_lower_cow` share: the
child on the path becomes `t_past` and a copy of it, or two halves, its place. -/
def descend (K : Kind ι) (ver key val : Nat) (tCur : NodePtr ι) :
    NodeProg ι (NodePtr ι × Descent ι) := do
  let hd ← Prog.load tCur Field.head
  let ps ← Prog.load tCur Field.chs
  let i := findch hd.keys key
  let tPast ← Prog.check ps[i]?
  let past ← Prog.load tPast Field.head
  if K.isLeaf past.ann then
    let (p, l, r) ← updateLeafCow K ver key val tPast
    replaceChild tCur i p l r
    pure (tPast, .done)
  else if past.keys.length = 2 * B - 1 then
    let (p, l, r) ← split K ver tPast
    insertChild tCur p l r i
    pure (tPast, .split i)
  else
    let tNew ← copyInternal K ver tPast
    setChild tCur i tNew
    pure (tPast, .down tNew)

/-- `copych_split(t_cur->chs+split_idx, t_past)` and the choice of a half. -/
def enterHalf (key : Nat) (tCur tPast : NodePtr ι) (splitIdx : Nat) : NodeProg ι (NodePtr ι) := do
  let ps ← Prog.load tCur Field.chs
  let l ← Prog.check ps[splitIdx]?
  let r ← Prog.check ps[splitIdx + 1]?
  copychSplit l r tPast
  let hd ← Prog.load tCur Field.head
  let p ← Prog.check hd.keys[splitIdx]?
  pure (if p ≤ key then r else l)

inductive Phase
  | down | split | done
deriving DecidableEq

structure Lower (ι : Type) where
  phase : Phase
  tCur : NodePtr ι
  tPast : NodePtr ι
  splitIdx : Nat

def Lower.next (low : Lower ι) (tPast : NodePtr ι) : Descent ι → Lower ι
  | .done => { low with phase := .done, tPast := tPast }
  | .down tCur => { low with phase := .down, tCur := tCur, tPast := tPast }
  | .split i => { low with phase := .split, tPast := tPast, splitIdx := i }

def handleDown (K : Kind ι) (ver key val : Nat) (low : Lower ι) : NodeProg ι (Lower ι) := do
  copych low.tCur low.tPast
  let (tPast, d) ← descend K ver key val low.tCur
  pure (low.next tPast d)

def handleSplit (K : Kind ι) (ver key val : Nat) (low : Lower ι) : NodeProg ι (Lower ι) := do
  let tCur ← enterHalf key low.tCur low.tPast low.splitIdx
  let (tPast, d) ← descend K ver key val tCur
  pure (Lower.next { low with tCur := tCur } tPast d)

def lower (K : Kind ι) (ver key val : Nat) : Handlers ι (Cell ι) (Lower ι) where
  handle := fun low =>
    match low.phase with
    | .down => handleDown K ver key val low
    | .split => handleSplit K ver key val low
    | .done => .fault
  done := fun low => low.phase = .done

end Contrees.Trees.Bnode
