import GaiaKernel.Fat.Name
import GaiaKernel.Lib.Trace

/-! # One directory

Lookup, creation and removal of entries as in fs/fat/fat_directory.c and fat.c, over the records of
one directory in the order of its cursor. The clusters that are still free and the time come with
each operation.
-/
namespace GaiaKernel.Fat
open Bytes

/-! ## Records -/

def entryIsLfn (entry : Slot) : Bool := entry attrAt &&& fatAttrLfn == fatAttrLfn
def entryIsFree (entry : Slot) : Bool := entry 0 == 0 || entry 0 == erased

def entryIsUsable (entry : Slot) : Bool :=
  !entryIsFree entry && !entryIsLfn entry && entry attrAt &&& 0x08#8 == 0

def storedName (entry : Slot) : List Byte := slice entry 0 11
def word (n : ℕ) : List Byte := [BitVec.ofNat 8 n, BitVec.ofNat 8 (n / 256)]

/-- `fat_impl_entry_set_cluster`; FAT16 has no high word. -/
def entrySetCluster (wide : Bool) (entry : Slot) (cluster : ℕ) : Slot :=
  blit (blit entry 26 (word cluster)) 20 (word (if wide then cluster / 65536 else 0))

def entrySetSize (entry : Slot) (size : ℕ) : Slot := blit entry 28 (word size ++ word (size / 65536))

def entryGetCluster (wide : Bool) (entry : Slot) : ℕ :=
  if wide then le16 entry 26 + 65536 * le16 entry 20 else le16 entry 26

def setTimestamp (clock : Option (ℕ × ℕ)) (entry : Slot) : Slot :=
  match clock with
  | none => entry
  | some (date, time) =>
    let entry := blit entry 22 (word time ++ word date)
    let entry := blit entry 18 (word date)
    if le16 entry 16 = 0 ∧ le16 entry 14 = 0 then
      blit entry 13 (0 :: word time ++ word date)
    else entry

/-! ## Lookup -/

def shortNameTaken : List Slot → List Byte → Bool
  | [], _ => false
  | entry :: rest, name =>
    if entry 0 = 0 then false
    else if entryIsUsable entry ∧ storedName entry = name then true
    else shortNameTaken rest name

structure Found where
  index : ℕ
  indexEnd : ℕ
  entry : Slot

def answers (long : Option (List Byte)) (entry : Slot) (name : List Byte) : Bool :=
  long.any (sameName · name) || sameName (entryShortName entry) name

def findLoop (name : List Byte) : List Slot → ℕ → LfnState → Option Found
  | [], _, _ => none
  | entry :: rest, index, lfn =>
    if entry 0 = 0 then none
    else if entryIsLfn entry then findLoop name rest (index + 1) (lfnFeed lfn entry index)
    else if ¬ entryIsUsable entry then findLoop name rest (index + 1) lfn.reset
    else
      let long := lfnTake lfn entry
      if answers long entry name then
        some ⟨if long.isSome then lfn.startIndex else index,index,entry⟩
      else findLoop name rest (index + 1) lfn.reset

/-- The state before the first record; what the buffer holds does not matter. -/
def lfnStart : LfnState := ⟨fun _ => 0,0,0,0,0,false⟩

def findEntry (slots : List Slot) (name : List Byte) : Option Found :=
  findLoop name slots 0 lfnStart

/-! ## Allocation -/

/-- The search for `count` free records in a row; `run` of them have been seen. -/
def findRun (count : ℕ) : List Slot → ℕ → ℕ → ℕ → Option ℕ
  | [], _, _, _ => none
  | entry :: rest, i, run, start =>
    if entryIsFree entry then
      let start := if run = 0 then i else start
      if run + 1 = count then some start else findRun count rest (i + 1) (run + 1) start
    else findRun count rest (i + 1) 0 start

def zeroSlot : Slot := fun _ => 0

/-- A directory: its records, and for one that is not a fixed root, how many records a cluster
adds to it. -/
structure Dir where
  slots : List Slot
  perCluster : Option ℕ

/-- `alloc_dir_slots` with `free` clusters left. A directory that is too small grows by a
cluster at a time, and keeps what it has got when there are no more. -/
def allocDirSlots (count : ℕ) (d : Dir) : ℕ → Dir × Option ℕ
  | 0 => (d, findRun count d.slots 0 0 0)
  | free + 1 =>
    match findRun count d.slots 0 0 0, d.perCluster with
    | some start, _ => (d, some start)
    | none, none => (d, none)
    | none, some n =>
      allocDirSlots count { d with slots := d.slots ++ List.replicate n zeroSlot } free

def putSlots (slots : List Slot) (start : ℕ) (new : List Slot) : List Slot :=
  slots.take start ++ new ++ slots.drop (start + new.length)

structure NewEntry where
  directory : Bool
  cluster : ℕ
  wide : Bool
  clock : Option (ℕ × ℕ)

def NewEntry.attr (e : NewEntry) : Byte := if e.directory then fatAttrDirectory else fatAttrArchive

def NewEntry.record (e : NewEntry) (short : List Byte) (ntCase : Byte) : Slot :=
  let entry := blit (blit (blit (fun _ => 0) 0 short) attrAt [e.attr]) ntCaseAt [ntCase]
  let entry := entrySetCluster e.wide entry (if e.directory then e.cluster else 0)
  setTimestamp e.clock (entrySetSize entry 0)

def lfnSlots (name : List Byte) (checksum : Byte) : ℕ → List Slot
  | 0 => []
  | seq + 1 =>
    writeLfnSlot name (seq + 1) (seq + 1 == (name.length + 12) / 13) checksum ::
      lfnSlots name checksum seq

def createEntry (d : Dir) (name : List Byte) (e : NewEntry) (free : ℕ) : Dir × Option Found :=
  if name.isEmpty ∨ name.length > fatLfnMax then (d, none)
  else
    let put := fun (lfn : List Slot) (entry : Slot) =>
      match allocDirSlots (lfn.length + 1) d free with
      | (d, none) => (d, none)
      | (d, some start) =>
        ({ d with slots := putSlots d.slots start (lfn ++ [entry]) },
          some ⟨start,start + lfn.length,entry⟩)
    match shortNameExact name with
    | some (short, ntCase) => put [] (e.record short ntCase)
    | none =>
      match shortNameAlias (shortNameTaken d.slots) name with
      | none => (d, none)
      | some short =>
        put (lfnSlots name (lfnChecksum short) ((name.length + 12) / 13)) (e.record short 0)

def eraseEntry (slots : List Slot) (f : Found) : List Slot :=
  slots.mapIdx fun i entry =>
    if f.index ≤ i ∧ i ≤ f.indexEnd then blit entry 0 [erased] else entry

def dotRecord (wide : Bool) (dots : List Byte) (cluster : ℕ) (clock : Option (ℕ × ℕ)) : Slot :=
  let entry := blit (blit (fun _ => 0) 0 (padTo 11 dots)) attrAt [fatAttrDirectory]
  setTimestamp clock (entrySetCluster wide entry cluster)

/-- `fat_impl_init_dir_cluster`: the records of a new directory of one cluster. -/
def initDirCluster (wide : Bool) (cluster parent : ℕ) (clock : Option (ℕ × ℕ)) (perCluster : ℕ) :
    List Slot :=
  dotRecord wide [period] cluster clock :: dotRecord wide [period, period] parent clock ::
    List.replicate (perCluster - 2) zeroSlot

/-! ## Operations -/

/-- `fat_create_at`, and `fat_mkdir_at` once it has a cluster for the new directory. -/
def createAt (d : Dir) (name : List Byte) (e : NewEntry) (free : ℕ) : Dir × Option Found :=
  if (findEntry d.slots name).isSome then (d, none) else createEntry d name e free

/-- `fat_remove_at`; `empty` is whether a directory has no entries left. -/
def removeAt (d : Dir) (name : List Byte) (isDirectory empty : Bool) : Dir × Bool :=
  match findEntry d.slots name with
  | none => (d, false)
  | some f =>
    if (f.entry attrAt &&& fatAttrDirectory != 0) != isDirectory then (d, false)
    else if isDirectory ∧ ¬ empty then (d, false)
    else ({ d with slots := eraseEntry d.slots f }, true)

inductive DirOp where
  | create (name : List Byte) (e : NewEntry) (free : ℕ)
  | remove (name : List Byte) (isDirectory empty : Bool)

def step (d : Dir) : DirOp → Dir
  | .create name e free => (createAt d name e free).1
  | .remove name isDirectory empty => (removeAt d name isDirectory empty).1

end GaiaKernel.Fat
