import Contrees.Library.Slots
import Contrees.Trees.Word

namespace Contrees.Trees.Aert

open Library Library.Slots Word

inductive NodeType
  | node4 | node16 | nodeh4 | nodeh16 | leaf
deriving DecidableEq

/-- The part of a node that `node_copy` copies, but for `ver`. `pfxOfs` and
`pfxLen` count bits, `keys` are those below `size` and the array is zeroed
above. -/
structure Head where
  type : NodeType
  size : Nat
  pfxOfs : Nat
  pfxLen : Nat
  pfx : Nat
  keys : List Nat

def partialKey (key pos len : Nat) : Nat := shr key (64 - len - pos : Int) &&& (0xFF >>> (8 - len))

def prefixMask (ofs len : Nat) : Nat :=
  if len = 0 then 0 else shl (shr ones (64 - len : Int)) (64 - len - ofs : Int)

/-- For the four bits `lo` that a pointer embeds. -/
def ptrPfxMatch (lo ofs key : Nat) : Nat :=
  let mask := shl lo (64 - ofs : Int)
  clzll (shl (key ^^^ mask) (ofs - 4 : Int) ||| shl 1 (64 - 5))

def prefixMatch (hd : Head) (key : Nat) : Nat :=
  let d := shl ((key ^^^ hd.pfx) &&& prefixMask hd.pfxOfs hd.pfxLen) hd.pfxOfs
  if d = 0 then hd.pfxLen else clzll d &&& 0xFC

/-- `prefix_match(t, key) & 0xf8`, which every caller takes. -/
def pmlen (hd : Head) (key : Nat) : Nat := prefixMatch hd key &&& 0xF8

def nodeKeyLen (type : NodeType) : Nat :=
  match type with
  | .node4 | .node16 => 8
  | .nodeh4 | .nodeh16 | .leaf => 4

/-- The keys, which are zeroed, are left to the callers. -/
def newNode (type : NodeType) (pfxOfs pfxLen key : Nat) : Head where
  type := type
  size := match type with
    | .node4 => 2
    | .node16 => 4
    | .nodeh4 => 2
    | .nodeh16 => 0
    | .leaf => 1
  pfxOfs := pfxOfs
  pfxLen := pfxLen
  pfx := if type = .leaf then key else key &&& prefixMask pfxOfs pfxLen
  keys := []

def newNodeh (size pfxOfs pfxLen key : Nat) : Head :=
  { newNode (if size > 4 then .nodeh16 else .nodeh4) pfxOfs pfxLen key with size := 0 }

/-- `node4_find` and `nodeh4_find`, which return 0 for `none` and `i + 1` for
`some i`. -/
def node4Find (hd : Head) (pkey : Nat) : Option Nat :=
  if hd.keys.getD 0 0 = pkey then some 0
  else if hd.keys.getD 1 0 = pkey then some 1
  else if hd.size = 2 then none
  else if hd.keys.getD 2 0 = pkey then some 2
  else if hd.size = 3 then none
  else if hd.keys.getD 3 0 = pkey then some 3
  else none

def findidx (hd : Head) (pkey : Nat) : Option Nat :=
  match hd.type with
  | .node4 | .nodeh4 => node4Find hd pkey
  | .node16 => hd.keys.findIdx? (· = pkey)
  | .nodeh16 => some pkey
  | .leaf => none

def findgt (hd : Head) (pkey : Nat) : Nat := SearchTree.findch hd.keys pkey

def grow (hd : Head) (keys : List Nat) : Head := { hd with keys := keys, size := hd.size + 1 }

@[simp] theorem grow_type (hd : Head) (keys : List Nat) : (grow hd keys).type = hd.type := rfl
@[simp] theorem grow_size (hd : Head) (keys : List Nat) : (grow hd keys).size = hd.size + 1 := rfl
@[simp] theorem grow_keys (hd : Head) (keys : List Nat) : (grow hd keys).keys = keys := rfl

/-- The index of the new key and the node with it, or its copy: `append` and
`copy_append`. -/
def append (hd : Head) (pkey : Nat) : Nat × Head :=
  match hd.type with
  | .node4 | .node16 | .nodeh4 =>
      (findgt hd pkey, grow hd (hd.keys.insertIdx (findgt hd pkey) pkey))
  | .nodeh16 => (pkey, hd)
  | .leaf => (0, hd)

def isFull (hd : Head) : Bool :=
  match hd.type with
  | .node4 | .nodeh4 => hd.size = 4
  | .node16 => hd.size = 16
  | .nodeh16 => false
  | .leaf => true

/-- No caller extends any other node. -/
def extendAppend (hd : Head) (pkey : Nat) : Nat × Head :=
  match hd.type with
  | .node4 => (findgt hd pkey, grow (newNode .node16 hd.pfxOfs hd.pfxLen hd.pfx)
      (hd.keys.insertIdx (findgt hd pkey) pkey))
  | .nodeh4 => (pkey, newNode .nodeh16 hd.pfxOfs hd.pfxLen hd.pfx)
  | .node16 | .nodeh16 | .leaf => (0, hd)

section Children

variable {ρ : Type} [Inhabited ρ]

/-- An array of children whose unused places are null, which is `default`. -/
def getch (chs : List ρ) (idx : Nat) : ρ := chs.getD idx default

def findch (hd : Head) (chs : List ρ) (pkey : Nat) : ρ :=
  match findidx hd pkey with
  | some idx => getch chs idx
  | none => default

def setch (chs : List ρ) (idx : Nat) (ch : ρ) : List ρ := put idx ch chs

def insertch (hd : Head) (chs : List ρ) (idx : Nat) (ch : ρ) : List ρ :=
  match hd.type with
  | .node4 | .node16 | .nodeh4 => chs.insertIdx idx ch
  | .nodeh16 => setch chs idx ch
  | .leaf => chs

def copychAt (new old : Head) (chs : List ρ) (idx : Nat) : List ρ :=
  match old.type with
  | .node4 | .node16 => chs.insertIdx idx default
  | .nodeh4 =>
      if new.type = .nodeh4 then chs.insertIdx idx default
      else spread 16 old.keys chs
  | .nodeh16 => chs
  | .leaf => []

end Children

/-- A pointer by value: `null` for `nullptr`, and `tagged` for a pointer to a
node that embeds four bits of the key. -/
inductive Tree
  | null
  | leaf (hd : Head) (val : Nat)
  | node (hd : Head) (chs : List Tree)
  | tagged (lo : Nat) (t : Tree)

instance : Inhabited Tree := ⟨.null⟩

def Tree.pfxOfs : Tree → Nat
  | .leaf hd _ | .node hd _ => hd.pfxOfs
  | .null | .tagged _ _ => 0

def newLeaf (pfxOfs key val : Nat) : Tree :=
  if pfxOfs % 8 = 4 then
    .tagged (partialKey key pfxOfs 4)
      (.leaf (newNode .leaf (pfxOfs + 4) (64 - 4 - pfxOfs) key) val)
  else .leaf (newNode .leaf pfxOfs (64 - pfxOfs) key) val

mutual

def find (key : Nat) : Tree → Option Nat
  | .null => none
  | .tagged lo t => if ptrPfxMatch lo t.pfxOfs key < 4 then none else find key t
  | .leaf hd val => if hd.pfxLen > pmlen hd key then none else some val
  | .node hd chs =>
      if hd.pfxLen > pmlen hd key then none
      else
        match findidx hd (partialKey key (hd.pfxOfs + hd.pfxLen) (nodeKeyLen hd.type)) with
        | some idx => findAt key chs idx
        | none => none

def findAt (key : Nat) : List Tree → Nat → Option Nat
  | [], _ => none
  | t :: _, 0 => find key t
  | _ :: ts, i + 1 => findAt key ts i

end

def digits : Option Nat → List Nat
  | none => List.range 16
  | some pkey => List.range' (pkey + 1) (16 - (pkey + 1))

def isNull : Tree → Bool
  | .null => true
  | _ => false

def visited (hd : Head) (chs : List Tree) (pkey : Option Nat) : List Nat :=
  match hd.type with
  | .node4 | .node16 | .nodeh4 =>
      let idx := pkey.elim 0 (findgt hd)
      List.range' idx (hd.size - idx)
  | .nodeh16 => (digits pkey).filter (fun d => !isNull (chs.getD d .null))
  | .leaf => []

/-- A scan of a subtree extends `ret`, or faults. -/
abbrev Scan := List (Nat × Nat) → Option (List (Nat × Nat))

def scanLoop (n : Nat) (scans : List Scan) (idxs : List Nat) (ret : List (Nat × Nat)) :
    Option (List (Nat × Nat)) :=
  idxs.foldlM (fun ret idx =>
    if ret.length < n then (scans.getD idx (fun _ => none)) ret else some ret) ret

mutual

def scanAppend (n : Nat) : Tree → Option Nat → Scan
  | .null, _, _ => none
  | .tagged _ t, pkey, ret => scanAppend n t pkey ret
  | .leaf hd val, _, ret => some (ret ++ [(hd.pfx, val)])
  | .node hd chs, pkey, ret => scanLoop n (scanEach n chs) (visited hd chs pkey) ret

def scanEach (n : Nat) : List Tree → List Scan
  | [] => []
  | t :: ts => scanAppend n t none :: scanEach n ts

end

mutual

def scanSearch (key n : Nat) : Tree → Scan
  | .null, ret => some ret
  | .tagged lo t, ret =>
      if ptrPfxMatch lo t.pfxOfs key < 4 then
        if lo < partialKey key t.pfxOfs 4 then some ret else scanAppend n t none ret
      else scanSearch key n t ret
  | .leaf hd val, ret =>
      if hd.pfxLen > pmlen hd key then
        if partialKey hd.pfx (hd.pfxOfs + pmlen hd key) 8 <
          partialKey key (hd.pfxOfs + pmlen hd key) 8 then some ret
        else scanAppend n (.leaf hd val) none ret
      else some (ret ++ [(hd.pfx, val)])
  | .node hd chs, ret =>
      if hd.pfxLen > pmlen hd key then
        if partialKey hd.pfx (hd.pfxOfs + pmlen hd key) 8 <
          partialKey key (hd.pfxOfs + pmlen hd key) 8 then some ret
        else scanAppend n (.node hd chs) none ret
      else
        let pkey := partialKey key (hd.pfxOfs + hd.pfxLen) (nodeKeyLen hd.type)
        let ret := match findidx hd pkey with
          | some idx => scanSearchAt key n chs idx ret
          | none => some ret
        ret.bind (scanAppend n (.node hd chs) (some pkey))

def scanSearchAt (key n : Nat) : List Tree → Nat → Scan
  | [], _, ret => some ret
  | t :: _, 0, ret => scanSearch key n t ret
  | _ :: ts, i + 1, ret => scanSearchAt key n ts i ret

end

def scan (t : Tree) (key n : Nat) : Option (List (Nat × Nat)) := scanSearch key n t []

/-- `t_par` of a fork, for the old node's key `pk0` and the new one's `pk1`. -/
def forkHead (type : NodeType) (ofs pmlen key pk0 pk1 : Nat) : Head :=
  { newNode type ofs pmlen key with keys := pairUp pk0 pk1 pk0 pk1 }

def shorten (hd : Head) (pmlen : Nat) : Head :=
  let pfxOfs := hd.pfxOfs + (pmlen + 8)
  let pfxLen := hd.pfxLen - (pmlen + 8)
  { hd with
    pfxOfs := pfxOfs
    pfxLen := pfxLen
    pfx := if hd.type = .leaf then hd.pfx else hd.pfx &&& prefixMask pfxOfs pfxLen }

def nodeForkInplace (hd : Head) (old : Head → Tree) (pmlen ofs key val : Nat) : Tree :=
  let pk0 := partialKey hd.pfx (hd.pfxOfs + pmlen) 8
  let pk1 := partialKey key (ofs + pmlen) 8
  .node (forkHead .node4 ofs pmlen key pk0 pk1)
    (pairUp pk0 pk1 (old (shorten hd pmlen)) (newLeaf (ofs + pmlen + 8) key val))

def nodehForkInplace (t : Tree) (lo ofs key val : Nat) : Tree :=
  let pk1 := partialKey key ofs 4
  .node (forkHead .nodeh4 ofs 0 key lo pk1) (pairUp lo pk1 t (newLeaf (ofs + 4) key val))

/-- `ch_sz[idx]`: the keys of a NODE16 and the new one with high bits `idx`. -/
def chSz (hd : Head) (pkey idx : Nat) : Nat := (pkey :: hd.keys).countP (· >>> 4 = idx)

def createUpperHalf (hd : Head) (pkey : Nat) : Head × List Tree :=
  let cnt := (List.range 16).countP (chSz hd pkey · ≠ 0)
  (List.range 16).foldl (fun uh idx =>
    if chSz hd pkey idx > 1 then
      let (i, new) := append uh.1 idx
      (new, setch uh.2 i (.node (newNodeh (chSz hd pkey idx) (hd.pfxOfs + hd.pfxLen + 4) 0 0) []))
    else uh) (newNodeh cnt hd.pfxOfs hd.pfxLen hd.pfx, [])

/-- The children of `t_uh` that a second key meets are lower halves. -/
def createLowerHalf (uh : Head × List Tree) (oldCh : Tree) (pkey : Nat) : Head × List Tree :=
  let hi := pkey >>> 4
  let lo := pkey &&& 0x0F
  match findch uh.1 uh.2 hi with
  | .null =>
      let (i, new) := append uh.1 hi
      (new, insertch new uh.2 i (.tagged lo oldCh))
  | .node lh chs =>
      let (i, new) := append lh lo
      (uh.1, setch uh.2 ((findidx uh.1 hi).getD 0) (.node new (insertch new chs i oldCh)))
  | .leaf _ _ | .tagged _ _ => uh

def nodeSplitInplace (hd : Head) (chs : List Tree) (pkey ofs key val : Nat) : Tree :=
  let uh := (hd.keys.zip chs).foldl (fun uh e => createLowerHalf uh e.2 e.1) (createUpperHalf hd pkey)
  let uh := createLowerHalf uh (newLeaf ofs key val) (partialKey key (ofs - 8) 8)
  .node uh.1 uh.2

mutual

/-- The rest of the body at a tagged pointer is that of a call on its node. -/
def updateInplace (key val : Nat) : Tree → Nat → Tree
  | .null, ofs => newLeaf ofs key val
  | .tagged lo t, ofs =>
      if ptrPfxMatch lo t.pfxOfs key < 4 then nodehForkInplace t lo ofs key val
      else .tagged lo (updateInplace key val t (ofs + 4))
  | .leaf hd old, ofs =>
      if pmlen hd key < hd.pfxLen then nodeForkInplace hd (.leaf · old) (pmlen hd key) ofs key val
      else .leaf hd val
  | .node hd chs, ofs =>
      if pmlen hd key < hd.pfxLen then nodeForkInplace hd (.node · chs) (pmlen hd key) ofs key val
      else
        let pkey := partialKey key (ofs + hd.pfxLen) (nodeKeyLen hd.type)
        let ofs := ofs + hd.pfxLen + nodeKeyLen hd.type
        match findidx hd pkey with
        | some idx => .node hd (setch chs idx (updateAt key val chs idx ofs))
        | none =>
            if hd.size = 16 then nodeSplitInplace hd chs pkey ofs key val
            else if isFull hd then
              let (i, new) := extendAppend hd pkey
              .node new (setch (copychAt new hd chs i) i (newLeaf ofs key val))
            else
              let (i, new) := append hd pkey
              .node new (insertch new chs i (newLeaf ofs key val))

def updateAt (key val : Nat) : List Tree → Nat → Nat → Tree
  | [], _, ofs => newLeaf ofs key val
  | t :: _, 0, ofs => updateInplace key val t ofs
  | _ :: ts, i + 1, ofs => updateAt key val ts i ofs

end

def build (elems : List (Nat × Nat)) : Tree :=
  elems.foldl (fun t e => updateInplace e.1 e.2 t 0) .null

def inplaceAll (us : List (Nat × Nat)) (t : Tree) : Tree :=
  us.foldl (fun t u => updateInplace u.1 u.2 t 0) t

end Contrees.Trees.Aert
