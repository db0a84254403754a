import Contrees.Library.Slots
import Contrees.Trees.Word

namespace Contrees.Trees.Art

open Library Library.Slots Word

inductive NodeType
  | node4 | node16 | node48 | node256 | leaf
deriving DecidableEq

/-- The part of a node that `node_copy` copies, but for `ver`. `keys` are those
below `size`, and the 256 `slts` in a NODE48. -/
structure Head where
  type : NodeType
  size : Nat
  pfxOfs : Nat
  pfxLen : Nat
  pfx : Nat
  keys : List Nat

def partialKey (key pos : Nat) : Nat := shr key (56 - 8 * (pos : Int)) &&& 0xFF

def prefixMask (ofs len : Nat) : Nat :=
  shl (shr ones (8 * (8 - (len : Int)))) (8 * (8 - (len : Int) - ofs))

def prefixMatch (hd : Head) (key : Nat) : Nat :=
  let d := shl (key ^^^ hd.pfx) (8 * hd.pfxOfs)
  if d = 0 then hd.pfxLen else clzll d / 8

/-- The keys, which are zeroed, are left to the callers. -/
def newNode (type : NodeType) (pfxOfs pfxLen key : Nat) : Head where
  type := type
  size := match type with
    | .node4 => 2
    | .node16 => 4
    | .node48 => 16
    | .node256 => 48
    | .leaf => 1
  pfxOfs := pfxOfs
  pfxLen := pfxLen
  pfx := if type = .leaf then key else key &&& prefixMask pfxOfs pfxLen
  keys := []

def noSlot : Nat := 255

def node4Find (hd : Head) (pkey : Nat) : Option Nat :=
  if hd.keys.getD 0 0 = pkey then some 0
  else if hd.keys.getD 1 0 = pkey then some 1
  else if hd.size = 2 then none
  else if hd.keys.getD 2 0 = pkey then some 2
  else if hd.size = 3 then none
  else if hd.keys.getD 3 0 = pkey then some 3
  else none

def findIdx (hd : Head) (pkey : Nat) : Option Nat :=
  match hd.type with
  | .node4 => node4Find hd pkey
  | .node16 => hd.keys.findIdx? (· = pkey)
  | .node48 => if hd.keys.getD pkey noSlot = noSlot then none else some pkey
  | .node256 => some pkey
  | .leaf => none

/-- The place in `chs` that `getch` points to. -/
def slot (hd : Head) (idx : Nat) : Nat :=
  if hd.type = .node48 then hd.keys.getD idx noSlot else idx

def findgt (hd : Head) (pkey : Nat) : Nat := SearchTree.findch hd.keys pkey

def grow (hd : Head) (keys : List Nat) : Head := { hd with keys := keys, size := hd.size + 1 }

@[simp] theorem grow_type (hd : Head) (keys : List Nat) : (grow hd keys).type = hd.type := rfl
@[simp] theorem grow_size (hd : Head) (keys : List Nat) : (grow hd keys).size = hd.size + 1 := rfl
@[simp] theorem grow_keys (hd : Head) (keys : List Nat) : (grow hd keys).keys = keys := rfl

def append (hd : Head) (pkey : Nat) : Nat × Head :=
  match hd.type with
  | .node4 | .node16 => (findgt hd pkey, grow hd (hd.keys.insertIdx (findgt hd pkey) pkey))
  | .node48 => (pkey, grow hd (hd.keys.set pkey hd.size))
  | .node256 => (pkey, hd)
  | .leaf => (0, hd)

def isFull (hd : Head) : Bool :=
  match hd.type with
  | .node4 => hd.size = 4
  | .node16 => hd.size = 16
  | .node48 => hd.size = 48
  | .node256 => false
  | .leaf => true

def slots (keys : List Nat) : List Nat :=
  keys.zipIdx.foldl (fun slts k => slts.set k.1 k.2) (List.replicate 256 noSlot)

/-- No caller extends a NODE256 or a LEAF. -/
def nodeExtend (hd : Head) : Head :=
  match hd.type with
  | .node4 => { newNode .node16 hd.pfxOfs hd.pfxLen hd.pfx with keys := hd.keys }
  | .node16 => { newNode .node48 hd.pfxOfs hd.pfxLen hd.pfx with keys := slots hd.keys }
  | .node48 => newNode .node256 hd.pfxOfs hd.pfxLen hd.pfx
  | .node256 | .leaf => hd

section Children

variable {ρ : Type} [Inhabited ρ]

/-- An array of children whose unused places are null, which is `default`. -/
def getch (hd : Head) (chs : List ρ) (idx : Nat) : ρ := chs.getD (slot hd idx) default

def findch (hd : Head) (chs : List ρ) (pkey : Nat) : ρ :=
  match findIdx hd pkey with
  | some idx => getch hd chs idx
  | none => default

def setch (hd : Head) (chs : List ρ) (idx : Nat) (ch : ρ) : List ρ := put (slot hd idx) ch chs

def insertch (hd : Head) (chs : List ρ) (idx : Nat) (ch : ρ) : List ρ :=
  match hd.type with
  | .node4 | .node16 => chs.insertIdx idx ch
  | .node48 | .node256 => setch hd chs idx ch
  | .leaf => chs

def copychAt (new old : Head) (chs : List ρ) (idx : Nat) : List ρ :=
  match old.type with
  | .node4 => chs.insertIdx idx default
  | .node16 => if new.type = .node16 then chs.insertIdx idx default else chs
  | .node48 =>
      if new.type = .node48 then chs
      else (List.range 256).map (fun pkey =>
        if old.keys.getD pkey noSlot = noSlot then default
        else chs.getD (old.keys.getD pkey noSlot) default)
  | .node256 => chs
  | .leaf => []

end Children

/-- A node by value, `null` for `nullptr`; a LEAF is a `leaf`. -/
inductive Tree
  | null
  | leaf (hd : Head) (val : Nat)
  | node (hd : Head) (chs : List Tree)

instance : Inhabited Tree := ⟨.null⟩

def newLeaf (pfxOfs key val : Nat) : Tree := .leaf (newNode .leaf pfxOfs (8 - pfxOfs) key) val

mutual

def find (key : Nat) : Tree → Option Nat
  | .null => none
  | .leaf hd val => if prefixMatch hd key < hd.pfxLen then none else some val
  | .node hd chs =>
      if prefixMatch hd key < hd.pfxLen then none
      else
        match findIdx hd (partialKey key (hd.pfxOfs + hd.pfxLen)) with
        | some idx => findAt key chs (slot hd idx)
        | none => none

def findAt (key : Nat) : List Tree → Nat → Option Nat
  | [], _ => none
  | t :: _, 0 => find key t
  | _ :: ts, i + 1 => findAt key ts i

end

def digits : Option Nat → List Nat
  | none => List.range 256
  | some pkey => List.range' (pkey + 1) (256 - (pkey + 1))

def isNull : Tree → Bool
  | .null => true
  | _ => false

def visited (hd : Head) (chs : List Tree) (pkey : Option Nat) : List Nat :=
  match hd.type with
  | .node4 | .node16 =>
      let idx := pkey.elim 0 (findgt hd)
      List.range' idx (hd.size - idx)
  | .node48 => (digits pkey).filterMap (fun d =>
      if hd.keys.getD d noSlot = noSlot then none else some (hd.keys.getD d noSlot))
  | .node256 => (digits pkey).filter (fun d => !isNull (chs.getD d .null))
  | .leaf => []

/-- A scan of a subtree extends `ret`, or faults. -/
abbrev Scan := List (Nat × Nat) → Option (List (Nat × Nat))

def scanLoop (n : Nat) (scans : List Scan) (idxs : List Nat) (ret : List (Nat × Nat)) :
    Option (List (Nat × Nat)) :=
  idxs.foldlM (fun ret idx =>
    if ret.length < n then (scans.getD idx (fun _ => none)) ret else some ret) ret

mutual

def scanAppend (n : Nat) : Tree → Option Nat → Scan
  | .null, _, _ => none
  | .leaf hd val, _, ret => some (ret ++ [(hd.pfx, val)])
  | .node hd chs, pkey, ret => scanLoop n (scanEach n chs) (visited hd chs pkey) ret

def scanEach (n : Nat) : List Tree → List Scan
  | [] => []
  | t :: ts => scanAppend n t none :: scanEach n ts

end

mutual

def scanSearch (key n : Nat) : Tree → Scan
  | .null, ret => some ret
  | .leaf hd val, ret =>
      let pmlen := prefixMatch hd key
      if pmlen < hd.pfxLen then
        if partialKey hd.pfx (hd.pfxOfs + pmlen) < partialKey key (hd.pfxOfs + pmlen) then some ret
        else scanAppend n (.leaf hd val) none ret
      else some (ret ++ [(hd.pfx, val)])
  | .node hd chs, ret =>
      let pmlen := prefixMatch hd key
      if pmlen < hd.pfxLen then
        if partialKey hd.pfx (hd.pfxOfs + pmlen) < partialKey key (hd.pfxOfs + pmlen) then some ret
        else scanAppend n (.node hd chs) none ret
      else
        let pkey := partialKey key (hd.pfxOfs + hd.pfxLen)
        let ret := match findIdx hd pkey with
          | some idx => scanSearchAt key n chs (slot hd idx) ret
          | none => some ret
        ret.bind (scanAppend n (.node hd chs) (some pkey))

def scanSearchAt (key n : Nat) : List Tree → Nat → Scan
  | [], _, ret => some ret
  | t :: _, 0, ret => scanSearch key n t ret
  | _ :: ts, i + 1, ret => scanSearchAt key n ts i ret

end

def scan (t : Tree) (key n : Nat) : Option (List (Nat × Nat)) := scanSearch key n t []

/-- `t_par` of a fork, for the old node's byte `pk0` and the key's `pk1`. -/
def forkHead (ofs pmlen key pk0 pk1 : Nat) : Head :=
  { newNode .node4 ofs pmlen key with keys := pairUp pk0 pk1 pk0 pk1 }

def shorten (hd : Head) (pmlen : Nat) : Head :=
  let pfxOfs := hd.pfxOfs + (pmlen + 1)
  let pfxLen := hd.pfxLen - (pmlen + 1)
  { hd with
    pfxOfs := pfxOfs
    pfxLen := pfxLen
    pfx := if hd.type = .leaf then hd.pfx else hd.pfx &&& prefixMask pfxOfs pfxLen }

def nodeForkInplace (hd : Head) (old : Head → Tree) (ofs pmlen key val : Nat) : Tree :=
  let pk0 := partialKey hd.pfx (hd.pfxOfs + pmlen)
  let pk1 := partialKey key (ofs + pmlen)
  .node (forkHead ofs pmlen key pk0 pk1)
    (pairUp pk0 pk1 (old (shorten hd pmlen)) (newLeaf (ofs + pmlen + 1) key val))

mutual

def updateInplace (key val : Nat) : Tree → Nat → Tree
  | .null, ofs => newLeaf ofs key val
  | .leaf hd old, ofs =>
      let pmlen := prefixMatch hd key
      if pmlen < hd.pfxLen then nodeForkInplace hd (.leaf · old) ofs pmlen key val
      else .leaf hd val
  | .node hd chs, ofs =>
      let pmlen := prefixMatch hd key
      if pmlen < hd.pfxLen then nodeForkInplace hd (.node · chs) ofs pmlen key val
      else
        let pkey := partialKey key (ofs + hd.pfxLen)
        let ofs := ofs + hd.pfxLen + 1
        match findIdx hd pkey with
        | some idx => .node hd (setch hd chs idx (updateAt key val chs (slot hd idx) ofs))
        | none =>
            if isFull hd then
              let (idx, new) := append (nodeExtend hd) pkey
              .node new (setch new (copychAt new hd chs idx) idx (newLeaf ofs key val))
            else
              let (idx, new) := append hd pkey
              .node new (insertch new chs idx (newLeaf ofs key val))

def updateAt (key val : Nat) : List Tree → Nat → Nat → Tree
  | [], _, ofs => newLeaf ofs key val
  | t :: _, 0, ofs => updateInplace key val t ofs
  | _ :: ts, i + 1, ofs => updateAt key val ts i ofs

end

def build (elems : List (Nat × Nat)) : Tree :=
  elems.foldl (fun t e => updateInplace e.1 e.2 t 0) .null

end Contrees.Trees.Art
