import Contrees.Library.ByteFormat
import Mathlib.Data.List.TakeWhile

namespace Contrees.Ycsbc

open Library.ByteFormat

structure TxContext where
  type : UInt8
  arg0 : UInt64
  arg1 : UInt64
deriving DecidableEq

def opQuery : UInt8 := 0
def opInsert : UInt8 := 1

/-- The memory of a `tx_context`: seven bytes of padding follow the type. -/
def record (pad : Vector UInt8 7) (tx : TxContext) : List UInt8 :=
  tx.type :: pad.toList ++ bytes 8 tx.arg0.toNat ++ bytes 8 tx.arg1.toNat

def isSpace (c : Char) : Bool := c ∈ [' ', '\t', '\n', '\x0b', '\x0c', '\r']

def strtoull (str : List Char) : UInt64 :=
  let magnitude (str : List Char) : Nat := Nat.ofDigitChars 10 (str.takeWhile Char.isDigit) 0
  let clamp (n : Nat) (x : UInt64) : UInt64 := if n < 2 ^ 64 then x else UInt64.ofNat (2 ^ 64 - 1)
  match str.dropWhile isSpace with
  | '-' :: str => clamp (magnitude str) (-UInt64.ofNat (magnitude str))
  | '+' :: str => clamp (magnitude str) (UInt64.ofNat (magnitude str))
  | str => clamp (magnitude str) (UInt64.ofNat (magnitude str))

def str2key (str : List Char) : UInt64 := strtoull (str.drop 4)

/-- `CoreWorkload::BuildKeyName` once the key number is hashed or not. -/
def buildKeyName (zeroPadding : Int) (keyNum : UInt64) : List Char :=
  let keyNumStr := Nat.toDigits 10 keyNum.toNat
  let zeros := (zeroPadding - keyNumStr.length).toNat
  ['u', 's', 'e', 'r'] ++ List.replicate zeros '0' ++ keyNumStr

/-- `fs` is the file written so far. -/
structure Export where
  fs : List UInt8
  running : Bool
  inited : Bool
  numRecords : UInt64
  numTransactions : UInt64

def Export.new (numRecords numTransactions : UInt64) : Export :=
  ⟨[], false, false, numRecords, numTransactions⟩

def Export.write (e : Export) (bs : List UInt8) : Export := { e with fs := e.fs ++ bs }

def Export.init (e : Export) : Option Export :=
  if e.running then none
  else
    let e := { e with running := true }
    if !e.inited then
      some ((e.write (bytes 8 e.numRecords.toNat)).write (bytes 8 e.numTransactions.toNat))
    else some e

def Export.close (e : Export) : Export := { e with inited := true, running := false }

section Calls

variable (pad : Nat → Vector UInt8 7) (zeroPadding : Int)

/-- The padding of a written `tx_context` is whatever its memory held. -/
def Export.writeTx (e : Export) (tx : TxContext) : Export := e.write (record (pad e.fs.length) tx)

def Export.exportInsert (e : Export) (key : UInt64) : Export := e.writeTx pad ⟨opInsert, key, key⟩

def Export.exportQuery (e : Export) (l n : UInt64) : Export := e.writeTx pad ⟨opQuery, l, n⟩

def Export.read (e : Export) (key : List Char) : Option Export :=
  if !e.inited then none else some (e.exportQuery pad (str2key key) 0)

def Export.scan (e : Export) (key : List Char) (len : Nat) : Option Export :=
  if !e.inited then none else some (e.exportQuery pad (str2key key) (UInt64.ofNat len))

def Export.update (e : Export) (key : List Char) : Option Export :=
  if !e.inited then none else some (e.exportInsert pad (str2key key))

def Export.insert (e : Export) (key : List Char) : Option Export :=
  if e.inited then some (e.exportInsert pad (str2key key))
  else some (e.write (bytes 8 (str2key key).toNat))

/-- A client transaction with the key number and the scan length that the
workload chose for it. -/
inductive Transaction
  | read (key : UInt64)
  | update (key : UInt64)
  | insert (key : UInt64)
  | scan (key : UInt64) (len : Nat)
  | readModifyWrite (key : UInt64)

def doInsert (e : Export) (key : UInt64) : Option Export :=
  e.insert pad (buildKeyName zeroPadding key)

def doTransaction (e : Export) : Transaction → Option Export
  | .read key => e.read pad (buildKeyName zeroPadding key)
  | .update key => e.update pad (buildKeyName zeroPadding key)
  | .insert key => e.insert pad (buildKeyName zeroPadding key)
  | .scan key len => e.scan pad (buildKeyName zeroPadding key) len
  | .readModifyWrite key =>
      (e.read pad (buildKeyName zeroPadding key)).bind
        (·.update pad (buildKeyName zeroPadding key))

def delegateClient {α : Type} (op : Export → α → Option Export) (ops : List α) (e : Export) :
    Option Export :=
  e.init.bind fun e => (ops.foldlM op e).map Export.close

def exportRun (loaded : List UInt64) (txs : List Transaction) : Option (List UInt8) :=
  let e := Export.new (UInt64.ofNat loaded.length) (UInt64.ofNat txs.length)
  (delegateClient (doInsert pad zeroPadding) loaded e).bind fun e =>
    (delegateClient (doTransaction pad zeroPadding) txs e).map Export.fs

end Calls

/-- What `main` reads, and the part of the file it leaves unread. -/
structure Dataset where
  n : Nat
  m : Nat
  elems : List UInt64
  txs : List TxContext
  unread : List UInt8

def readKey (bs : List UInt8) : Option (UInt64 × List UInt8) :=
  (readWord 8 bs).map fun r => (UInt64.ofNat r.1, r.2)

def readTx (bs : List UInt8) : Option (TxContext × List UInt8) :=
  (readWord 1 bs).bind fun type =>
    (readWord 7 type.2).bind fun padding =>
      (readKey padding.2).bind fun arg0 =>
        (readKey arg0.2).map fun arg1 => (⟨UInt8.ofNat type.1, arg0.1, arg1.1⟩, arg1.2)

/-- The reads of `main`; `none` where the file ends early. -/
def readDataset (bs : List UInt8) : Option Dataset :=
  (readWord 8 bs).bind fun n =>
    (readWord 8 n.2).bind fun m =>
      (readMany readKey n.1 m.2).bind fun elems =>
        (readMany readTx m.1 elems.2).map fun txs => ⟨n.1, m.1, elems.1, txs.1, txs.2⟩

inductive Action
  | find (key : UInt64)
  | scan (key len : UInt64)
  | update (key val : UInt64)
deriving DecidableEq

def dispatch (tx : TxContext) : Option Action :=
  if tx.type = 0 then
    if tx.arg1 = 0 then some (.find tx.arg0) else some (.scan tx.arg0 tx.arg1)
  else if tx.type = 1 then some (.update tx.arg0 tx.arg1)
  else none

def Transaction.operations : Transaction → List Action
  | .read key => [.find key]
  | .update key | .insert key => [.update key key]
  | .scan key len => [.scan key (UInt64.ofNat len)]
  | .readModifyWrite key => [.find key, .update key key]

def Decodes (file : List UInt8) (loaded : List UInt64) (txs : List Transaction) : Prop :=
  ∃ d, readDataset file = some d ∧ d.n = loaded.length ∧ d.elems = loaded ∧
    d.m = d.txs.length ∧ d.txs.map dispatch = (txs.flatMap Transaction.operations).map some ∧
    d.unread = []

/-- The exporter reads back the number that the workload put into a key name. -/
theorem str2key_buildKeyName (zeroPadding : Int) (key : UInt64) :
    str2key (buildKeyName zeroPadding key) = key := by
  generalize hzeros : (zeroPadding - (Nat.toDigits 10 key.toNat).length).toNat = zeros
  have hdrop : (buildKeyName zeroPadding key).drop 4 =
      List.replicate zeros '0' ++ Nat.toDigits 10 key.toNat := by
    simp [buildKeyName, hzeros]
  generalize hstr : List.replicate zeros '0' ++ Nat.toDigits 10 key.toNat = str at hdrop
  have hdigits : ∀ c ∈ str, c.isDigit = true := by
    intro c hc
    rw [← hstr] at hc
    rcases List.mem_append.1 hc with hc | hc
    · rw [(List.mem_replicate.1 hc).2]
      rfl
    · exact Nat.isDigit_of_mem_toDigits (by decide) (by decide) hc
  have hspace : str.dropWhile isSpace = str := by
    cases str with
    | nil => rfl
    | cons c str =>
        have hc := hdigits c List.mem_cons_self
        have hne : isSpace c = false := by
          by_contra hspace
          simp only [isSpace, Bool.not_eq_false, List.mem_cons, List.not_mem_nil, or_false,
            decide_eq_true_eq] at hspace
          rcases hspace with rfl | rfl | rfl | rfl | rfl | rfl <;> simp at hc
        simp [hne]
  have hvalue : Nat.ofDigitChars 10 (str.takeWhile Char.isDigit) 0 = key.toNat := by
    rw [List.takeWhile_eq_self_iff.2 hdigits, ← hstr, Nat.ofDigitChars_append,
      Nat.ofDigitChars_replicate_zero, Nat.mul_zero, Nat.ofDigitChars_ten_toDigits]
  unfold str2key strtoull
  rw [hdrop, hspace]
  dsimp only
  split
  · exact absurd (hdigits '-' List.mem_cons_self) (by decide)
  · exact absurd (hdigits '+' List.mem_cons_self) (by decide)
  · rw [hvalue, if_pos key.toNat_lt, UInt64.ofNat_toNat]

theorem readKey_bytes (key : UInt64) (rest : List UInt8) :
    readKey (bytes 8 key.toNat ++ rest) = some (key, rest) := by
  rw [readKey, readWord_bytes (by simpa using key.toNat_lt)]
  simp

theorem readTx_record (pad : Vector UInt8 7) (tx : TxContext) (rest : List UInt8) :
    readTx (record pad tx ++ rest) = some (tx, rest) := by
  have htype : readWord 1 (record pad tx ++ rest) =
      some (tx.type.toNat, pad.toList ++ (bytes 8 tx.arg0.toNat ++ (bytes 8 tx.arg1.toNat ++ rest))) := by
    simp [readWord, record, value]
  have hpad : ∀ bs, readWord 7 (pad.toList ++ bs) = some (value pad.toList, bs) := by
    intro bs
    have hlen : pad.toList.length = 7 := by simp
    rw [readWord, if_pos (by simp), List.take_left' hlen, List.drop_left' hlen]
  rw [readTx, htype]
  simp only [Option.bind_some, hpad, readKey_bytes, Option.map_some, UInt8.ofNat_toNat]

def records (ptxs : List (Vector UInt8 7 × TxContext)) : List UInt8 :=
  ptxs.flatMap fun ptx => record ptx.1 ptx.2

theorem records_eq_nil {ptxs : List (Vector UInt8 7 × TxContext)} :
    records ptxs = [] ↔ ptxs = [] := by
  cases ptxs with
  | nil => simp [records]
  | cons ptx ptxs => simp [records, record]

theorem readMany_records (ptxs : List (Vector UInt8 7 × TxContext)) (rest : List UInt8) :
    readMany readTx ptxs.length (records ptxs ++ rest) = some (ptxs.map Prod.snd, rest) := by
  induction ptxs with
  | nil => rfl
  | cons ptx ptxs ih =>
      have hcons : records (ptx :: ptxs) ++ rest = record ptx.1 ptx.2 ++ (records ptxs ++ rest) := by
        simp [records]
      rw [hcons, List.length_cons, readMany, readTx_record]
      simp only [ih, List.map_cons]

theorem readDataset_file {loaded : List UInt64} {m : Nat}
    {ptxs : List (Vector UInt8 7 × TxContext)} (hn : loaded.length < 2 ^ 64) (hm : m < 2 ^ 64)
    (hle : m ≤ ptxs.length) :
    readDataset (bytes 8 loaded.length ++ (bytes 8 m ++
      (loaded.flatMap (fun key => bytes 8 key.toNat) ++ records ptxs))) =
      some ⟨loaded.length, m, loaded, (ptxs.take m).map Prod.snd, records (ptxs.drop m)⟩ := by
  have hkeys : readMany readKey loaded.length
      (loaded.flatMap (fun key => bytes 8 key.toNat) ++ records ptxs) =
      some (loaded, records ptxs) :=
    readMany_encode (fun key _ rest => readKey_bytes key rest) (records ptxs)
  have hsplit : records ptxs = records (ptxs.take m) ++ records (ptxs.drop m) := by
    rw [records, records, records, ← List.flatMap_append, List.take_append_drop]
  have htxs := readMany_records (ptxs.take m) (records (ptxs.drop m))
  rw [List.length_take, Nat.min_eq_left hle, ← hsplit] at htxs
  rw [readDataset, readWord_bytes (by omega)]
  simp only [Option.bind_some]
  rw [readWord_bytes (by omega)]
  simp only [Option.bind_some, hkeys, htxs, Option.map_some]

def Action.tx : Action → TxContext
  | .find key => ⟨opQuery, key, 0⟩
  | .scan key len => ⟨opQuery, key, len⟩
  | .update key val => ⟨opInsert, key, val⟩

def Wrote (e e' : Export) (txs : List TxContext) : Prop :=
  ∃ ptxs, e' = e.write (records ptxs) ∧ ptxs.map Prod.snd = txs

section Runs

variable (pad : Nat → Vector UInt8 7) (zeroPadding : Int) {e e' e'' : Export}

theorem Wrote.one (e : Export) (tx : TxContext) : Wrote e (e.writeTx pad tx) [tx] :=
  ⟨[(pad e.fs.length, tx)], by simp [Export.writeTx, records], rfl⟩

theorem Wrote.trans {txs txs' : List TxContext} (h : Wrote e e' txs) (h' : Wrote e' e'' txs') :
    Wrote e e'' (txs ++ txs') := by
  obtain ⟨ptxs, rfl, rfl⟩ := h
  obtain ⟨ptxs', rfl, rfl⟩ := h'
  exact ⟨ptxs ++ ptxs', by simp [Export.write, records], List.map_append⟩

theorem Wrote.inited {txs : List TxContext} (h : Wrote e e' txs) (he : e.inited = true) :
    e'.inited = true := by
  obtain ⟨ptxs, rfl, -⟩ := h
  exact he

theorem doTransaction_wrote (he : e.inited = true) (tx : Transaction) :
    ∃ e', doTransaction pad zeroPadding e tx = some e' ∧
      Wrote e e' (tx.operations.map Action.tx) := by
  cases tx with
  | read key =>
      refine ⟨_, ?_, Wrote.one pad e _⟩
      simp [doTransaction, Export.read, Export.exportQuery, he, str2key_buildKeyName, Action.tx]
  | update key =>
      refine ⟨_, ?_, Wrote.one pad e _⟩
      simp [doTransaction, Export.update, Export.exportInsert, he, str2key_buildKeyName, Action.tx]
  | insert key =>
      refine ⟨_, ?_, Wrote.one pad e _⟩
      simp [doTransaction, Export.insert, Export.exportInsert, he, str2key_buildKeyName, Action.tx]
  | scan key len =>
      refine ⟨_, ?_, Wrote.one pad e _⟩
      simp [doTransaction, Export.scan, Export.exportQuery, he, str2key_buildKeyName, Action.tx]
  | readModifyWrite key =>
      have hread := Wrote.one pad e (Action.tx (.find key))
      have hupdate := Wrote.one pad (e.writeTx pad (Action.tx (.find key)))
        (Action.tx (.update key key))
      refine ⟨_, ?_, hread.trans hupdate⟩
      have he' := hread.inited he
      simp only [doTransaction, Export.read, Export.update, Export.exportQuery,
        Export.exportInsert, he, str2key_buildKeyName, Bool.not_true, Bool.false_eq_true,
        if_false, Option.bind_some]
      simp only [Action.tx] at he' ⊢
      simp [he']

theorem transactions_wrote (he : e.inited = true) (txs : List Transaction) :
    ∃ e', txs.foldlM (doTransaction pad zeroPadding) e = some e' ∧
      Wrote e e' ((txs.flatMap Transaction.operations).map Action.tx) := by
  induction txs generalizing e with
  | nil => exact ⟨e, rfl, [], by simp [Export.write, records], rfl⟩
  | cons tx txs ih =>
      obtain ⟨e₁, h₁, hwrote₁⟩ := doTransaction_wrote pad zeroPadding he tx
      obtain ⟨e₂, h₂, hwrote₂⟩ := ih (hwrote₁.inited he)
      refine ⟨e₂, by simp [List.foldlM_cons, h₁, h₂], ?_⟩
      rw [List.flatMap_cons, List.map_append]
      exact hwrote₁.trans hwrote₂

theorem inserts_wrote (he : e.inited = false) (loaded : List UInt64) :
    loaded.foldlM (doInsert pad zeroPadding) e =
      some (e.write (loaded.flatMap fun key => bytes 8 key.toNat)) := by
  induction loaded generalizing e with
  | nil => simp [Export.write]
  | cons key loaded ih =>
      have hone : doInsert pad zeroPadding e key = some (e.write (bytes 8 key.toNat)) := by
        simp [doInsert, Export.insert, he, str2key_buildKeyName]
      rw [List.foldlM_cons, hone]
      simp only [Option.bind_eq_bind, Option.bind_some]
      rw [ih (show (e.write (bytes 8 key.toNat)).inited = false from he)]
      simp [Export.write]

theorem exportRun_eq (loaded : List UInt64) (txs : List Transaction)
    (hn : loaded.length < 2 ^ 64) (hm : txs.length < 2 ^ 64) :
    ∃ ptxs, ptxs.map Prod.snd = (txs.flatMap Transaction.operations).map Action.tx ∧
      exportRun pad zeroPadding loaded txs = some (bytes 8 loaded.length ++ (bytes 8 txs.length ++
        (loaded.flatMap (fun key => bytes 8 key.toNat) ++ records ptxs))) := by
  generalize hbs : bytes 8 loaded.length ++ (bytes 8 txs.length ++
    loaded.flatMap (fun key => bytes 8 key.toNat)) = bs
  have hload : delegateClient (doInsert pad zeroPadding) loaded
      (Export.new (UInt64.ofNat loaded.length) (UInt64.ofNat txs.length)) =
      some ⟨bs, false, true, UInt64.ofNat loaded.length, UInt64.ofNat txs.length⟩ := by
    have hn' : (UInt64.ofNat loaded.length).toNat = loaded.length := UInt64.toNat_ofNat_of_lt' hn
    have hm' : (UInt64.ofNat txs.length).toNat = txs.length := UInt64.toNat_ofNat_of_lt' hm
    rw [delegateClient]
    simp only [Export.init, Export.new, Bool.false_eq_true, if_false, Bool.not_false, if_true,
      Option.bind_some]
    rw [inserts_wrote pad zeroPadding rfl]
    simp [Export.write, Export.close, hn', hm', ← hbs]
  obtain ⟨e, hrun, ptxs, rfl, hptxs⟩ := transactions_wrote pad zeroPadding
    (show Export.inited ⟨bs, true, true, UInt64.ofNat loaded.length, UInt64.ofNat txs.length⟩ = true
      from rfl) txs
  refine ⟨ptxs, hptxs, ?_⟩
  rw [exportRun, hload]
  simp only [Option.bind_some, delegateClient, Export.init, Bool.false_eq_true, if_false,
    Bool.not_true, hrun, Option.map_some, Export.close, Export.write]
  simp [← hbs]

end Runs

def Transaction.Valid : Transaction → Prop
  | .scan _ len => 1 ≤ len ∧ len < 2 ^ 31
  | _ => True

def Transaction.isReadModifyWrite : Transaction → Bool
  | .readModifyWrite _ => true
  | _ => false

theorem dispatch_tx {tx : Transaction} (h : tx.Valid) {op : Action} (hop : op ∈ tx.operations) :
    dispatch op.tx = some op := by
  cases tx with
  | scan key len =>
      obtain rfl := List.mem_singleton.1 hop
      obtain ⟨hpos, hlt⟩ := h
      have hsize : len < UInt64.size := hlt.trans (by decide)
      have hlen : UInt64.ofNat len ≠ 0 := by
        intro hzero
        have hnat := congrArg UInt64.toNat hzero
        rw [UInt64.toNat_ofNat_of_lt' hsize, UInt64.toNat_zero] at hnat
        omega
      simp [dispatch, Action.tx, opQuery, hlen]
  | read key | update key | insert key =>
      obtain rfl := List.mem_singleton.1 hop
      rfl
  | readModifyWrite key =>
      simp only [Transaction.operations, List.mem_cons, List.not_mem_nil, or_false] at hop
      rcases hop with rfl | rfl <;> rfl

theorem length_operations (txs : List Transaction) :
    (txs.flatMap Transaction.operations).length =
      txs.length + txs.countP Transaction.isReadModifyWrite := by
  induction txs with
  | nil => rfl
  | cons tx txs ih =>
      rw [List.flatMap_cons, List.length_append, ih, List.countP_cons, List.length_cons]
      cases tx <;> simp [Transaction.operations, Transaction.isReadModifyWrite] <;> omega

section Decoding

variable (pad : Nat → Vector UInt8 7) (zeroPadding : Int) {loaded : List UInt64}
  {txs : List Transaction}

theorem exportRun_read (hn : loaded.length < 2 ^ 31) (hm : txs.length < 2 ^ 31) :
    ∃ file, ∃ ptxs : List (Vector UInt8 7 × TxContext),
      exportRun pad zeroPadding loaded txs = some file ∧
      ptxs.map Prod.snd = (txs.flatMap Transaction.operations).map Action.tx ∧
      ptxs.length = txs.length + txs.countP Transaction.isReadModifyWrite ∧
      readDataset file = some ⟨loaded.length, txs.length, loaded,
        (ptxs.take txs.length).map Prod.snd, records (ptxs.drop txs.length)⟩ := by
  obtain ⟨ptxs, hptxs, hfile⟩ := exportRun_eq pad zeroPadding loaded txs (by omega) (by omega)
  have hlen : ptxs.length = txs.length + txs.countP Transaction.isReadModifyWrite := by
    rw [← length_operations, ← List.length_map Action.tx, ← hptxs, List.length_map]
  exact ⟨_, ptxs, hfile, hptxs, hlen, readDataset_file (by omega) (by omega) (by omega)⟩

theorem no_readModifyWrite (hn : loaded.length < 2 ^ 31) (hm : txs.length < 2 ^ 31)
    (h : ∃ file, exportRun pad zeroPadding loaded txs = some file ∧ Decodes file loaded txs) :
    ∀ tx ∈ txs, tx.isReadModifyWrite = false := by
  obtain ⟨file, ptxs, hfile, -, hlen, hread⟩ := exportRun_read pad zeroPadding hn hm
  obtain ⟨file', hrun, d, hd, -, -, -, -, hunread⟩ := h
  obtain rfl := Option.some.inj (hfile.symm.trans hrun)
  obtain rfl := Option.some.inj (hread.symm.trans hd)
  have hdrop := records_eq_nil.1 hunread
  rw [List.drop_eq_nil_iff] at hdrop
  have hzero : txs.countP Transaction.isReadModifyWrite = 0 := by omega
  simpa [List.countP_eq_zero] using hzero

/-- The reader recovers what was exported exactly when no transaction is a
read-modify-write, which writes two records and is counted once. -/
theorem export_decodes_iff (hn : loaded.length < 2 ^ 31) (hm : txs.length < 2 ^ 31)
    (hvalid : ∀ tx ∈ txs, tx.Valid) :
    (∃ file, exportRun pad zeroPadding loaded txs = some file ∧ Decodes file loaded txs) ↔
      ∀ tx ∈ txs, tx.isReadModifyWrite = false := by
  refine ⟨no_readModifyWrite pad zeroPadding hn hm, fun hnone => ?_⟩
  obtain ⟨file, ptxs, hfile, hptxs, hlen, hread⟩ := exportRun_read pad zeroPadding hn hm
  have hzero : txs.countP Transaction.isReadModifyWrite = 0 := by
    simpa [List.countP_eq_zero] using hnone
  have hall : ptxs.take txs.length = ptxs := List.take_of_length_le (by omega)
  refine ⟨file, hfile, _, hread, rfl, rfl, ?_, ?_, ?_⟩
  · dsimp only
    rw [hall, List.length_map]
    omega
  · dsimp only
    rw [hall, hptxs, List.map_map]
    apply List.map_congr_left
    intro op hop
    obtain ⟨tx, htx, hop⟩ := List.mem_flatMap.1 hop
    exact dispatch_tx (hvalid tx htx) hop
  · rw [records_eq_nil, List.drop_eq_nil_iff]
    omega

theorem export_decodes_read_scan : ∃ file,
    exportRun (fun _ => Vector.replicate 7 0) 1 [7] [.read 7, .scan 7 3] = some file ∧
      Decodes file [7] [.read 7, .scan 7 3] := by
  refine (export_decodes_iff _ 1 (by decide) (by decide) ?_).2 (by decide)
  intro tx htx
  simp only [List.mem_cons, List.not_mem_nil, or_false] at htx
  rcases htx with rfl | rfl <;> simp [Transaction.Valid]

/-- One read-modify-write: the header counts one record of two. -/
theorem readModifyWrite_unread : ¬ ∀ (loaded : List UInt64) (txs : List Transaction),
    loaded.length < 2 ^ 31 → txs.length < 2 ^ 31 → (∀ tx ∈ txs, tx.Valid) →
      ∃ file, exportRun (fun _ => Vector.replicate 7 0) 1 loaded txs = some file ∧
        Decodes file loaded txs := by
  intro h
  have hdecodes := h [7] [.readModifyWrite 7] (by decide) (by decide) (by
    intro tx htx
    rw [List.mem_singleton.1 htx]
    trivial)
  have := no_readModifyWrite _ 1 (by decide) (by decide) hdecodes (.readModifyWrite 7)
    List.mem_cons_self
  simp [Transaction.isReadModifyWrite] at this

end Decoding

end Contrees.Ycsbc
