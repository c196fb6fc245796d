import GaiaKernel.Fat.Disk

/-! # Directories on a volume

Cursors, record allocation and the entry operations of fs/fat/fat_directory.c and fat.c on the
image. Lookup and the name codec work on the records a cursor visits.
-/
namespace GaiaKernel.Fat
open Bytes

structure FatDir where
  firstCluster : ℕ
  isRoot : Bool
  deriving DecidableEq

/-- `struct dir_cursor`; one that has ended is no cursor any more. -/
structure Cursor where
  dir : FatDir
  cluster : ℕ
  slot : ℕ
  index : ℕ
  clustersSeen : ℕ

namespace Disk
variable (v : Volume) (s : Disk)

def dirIsFixedRoot (dir : FatDir) : Prop := dir.isRoot ∧ v.type = .fat16
instance (dir : FatDir) : Decidable (dirIsFixedRoot v dir) := inferInstanceAs (Decidable (_ ∧ _))
def rootDirectory : FatDir := ⟨if v.type = .fat16 then 0 else v.rootCluster,true⟩
def perCluster : ℕ := v.clusterBytes / 32

def skipClusters : ℕ → Cursor → Option Cursor
  | 0, cursor => some cursor
  | skip + 1, cursor =>
    match s.nextCluster v cursor.cluster with
    | .next next =>
      if cursor.clustersSeen + 1 ≥ v.clusterLimit then none
      else skipClusters skip { cursor with cluster := next, clustersSeen := cursor.clustersSeen + 1 }
    | _ => none

def cursorInit (dir : FatDir) (startIndex : ℕ) : Option Cursor :=
  if dirIsFixedRoot v dir then
    if startIndex ≤ v.rootEntries then some ⟨dir,0,startIndex,startIndex,0⟩ else none
  else if ¬ v.clusterIsValid dir.firstCluster then none
  else
    skipClusters v s (startIndex / perCluster v)
      ⟨dir,dir.firstCluster,startIndex % perCluster v,startIndex,1⟩

/-- The offset of a record, and the cursor behind it. -/
def cursorNext (cursor : Cursor) : Option (ℕ × Cursor) :=
  if dirIsFixedRoot v cursor.dir then
    if cursor.slot ≥ v.rootEntries then none
    else some (v.sector v.rootStartSector + cursor.slot * 32,
      { cursor with slot := cursor.slot + 1, index := cursor.index + 1 })
  else
    let at? :=
      if cursor.slot ≥ perCluster v then
        match s.nextCluster v cursor.cluster with
        | .next next =>
          if cursor.clustersSeen + 1 ≥ v.clusterLimit then none
          else some { cursor with cluster := next, slot := 0, clustersSeen := cursor.clustersSeen + 1 }
        | _ => none
      else some cursor
    match at? with
    | none => none
    | some cursor =>
      match v.clusterData cursor.cluster with
      | none => none
      | some data => some (data + cursor.slot * 32,
          { cursor with slot := cursor.slot + 1, index := cursor.index + 1 })

def visits : ℕ → Cursor → List ℕ
  | 0, _ => []
  | fuel + 1, cursor =>
    match s.cursorNext v cursor with
    | none => []
    | some (off, cursor) => off :: visits fuel cursor

def mostRecords : ℕ := v.rootEntries + v.clusterLimit * perCluster v

def dirOffsets (dir : FatDir) : List ℕ :=
  match s.cursorInit v dir 0 with
  | none => []
  | some cursor => visits v s (mostRecords v) cursor

def dirRecords (dir : FatDir) : List Slot := (s.dirOffsets v dir).map s.record

/-! ## Allocation -/

structure FreeRun where
  out : List ℕ
  start : ℕ

/-- One pass of `alloc_dir_slots` over records in a row, the first with the index `i`. -/
def scanRun (count : ℕ) : List ℕ → ℕ → FreeRun → FreeRun × Bool
  | [], _, run => (run, false)
  | off :: rest, i, run =>
    if entryIsFree (s.record off) then
      let run := ⟨run.out ++ [off],if run.out = [] then i else run.start⟩
      if run.out.length = count then (run, true) else scanRun count rest (i + 1) run
    else scanRun count rest (i + 1) ⟨[],run.start⟩

def allocLoop (count : ℕ) : ℕ → Disk → ℕ → ℕ → FreeRun → Disk × Option FreeRun
  | 0, s, _, _, _ => (s, none)
  | fuel + 1, s, current, visited, run =>
    match v.clusterData current with
    | none => (s, none)
    | some data =>
      let offsets := (List.range (perCluster v)).map fun i => data + i * 32
      match s.scanRun count offsets (visited * perCluster v) run with
      | (run, true) => (s, some run)
      | (run, false) =>
        if visited + 1 ≥ v.clusterLimit then (s, none)
        else
          match s.nextCluster v current with
          | .broken => (s, none)
          | .next next => allocLoop count fuel s next (visited + 1) run
          | .last =>
            match s.allocCluster v with
            | (s, none) => (s, none)
            | (s, some next) => allocLoop count fuel (s.fatSet v current next) next (visited + 1) run

def allocDirSlots (dir : FatDir) (count : ℕ) : Disk × Option FreeRun :=
  if dirIsFixedRoot v dir then
    let offsets := (List.range v.rootEntries).map fun i => v.sector v.rootStartSector + i * 32
    match s.scanRun count offsets 0 ⟨[],0⟩ with
    | (run, true) => (s, some run)
    | (_, false) => (s, none)
  else allocLoop v count v.clusterLimit s dir.firstCluster 0 ⟨[],0⟩

/-! ## Entries -/

/-- `struct found_entry`: where an entry is among the records of its directory, and where its
own record is in the image. -/
structure Located where
  index : ℕ
  indexEnd : ℕ
  raw : ℕ

def findEntry (dir : FatDir) (name : List Byte) : Option Located :=
  (Fat.findEntry (s.dirRecords v dir) name).map fun f =>
    ⟨f.index,f.indexEnd,(s.dirOffsets v dir).getD f.indexEnd 0⟩

def putEntry (dir : FatDir) (lfn : List Slot) (short : List Byte) (ntCase : Byte) (directory : Bool)
    (cluster : ℕ) : Disk × Option Located :=
  match s.allocDirSlots v dir (lfn.length + 1) with
  | (s, none) => (s, none)
  | (s, some run) =>
    let entry := NewEntry.record ⟨directory,cluster,wide v,s.clock 0⟩ short ntCase
    let s := (run.out.zip (lfn ++ [entry])).foldl (fun (s : Disk) w => s.setRecord w.1 w.2) s
    let s := run.out.foldl (fun (s : Disk) off => s.flushBytes v off 32) s
    ({ s with clock := fun i => s.clock (i + 1) },
      some ⟨run.start,run.start + lfn.length,run.out.getD lfn.length 0⟩)

def createEntry (dir : FatDir) (name : List Byte) (directory : Bool) (cluster : ℕ) :
    Disk × Option Located :=
  if name.isEmpty ∨ name.length > fatLfnMax then (s, none)
  else
    match shortNameExact name with
    | some (short, ntCase) => s.putEntry v dir [] short ntCase directory cluster
    | none =>
      match shortNameAlias (shortNameTaken (s.dirRecords v dir)) name with
      | none => (s, none)
      | some short =>
        let lfn := lfnSlots name (lfnChecksum short) ((name.length + 12) / 13)
        s.putEntry v dir lfn short 0 directory cluster

def eraseLoop : ℕ → Disk → Cursor → Disk
  | 0, s, _ => s
  | left + 1, s, cursor =>
    match s.cursorNext v cursor with
    | none => s
    | some (off, cursor) => eraseLoop left ((s.store off [erased]).flushBytes v off 32) cursor

def eraseEntry (dir : FatDir) (e : Located) : Disk :=
  match s.cursorInit v dir e.index with
  | none => s
  | some cursor => eraseLoop v (e.indexEnd + 1 - e.index) s cursor

def initDirCluster (cluster : ℕ) (parent : FatDir) : Option Disk :=
  (v.clusterData cluster).map fun data =>
    let s := s.store data (List.replicate v.clusterBytes 0)
    let s := s.setRecord data (dotRecord (wide v) [period] cluster (s.clock 0))
    let s := s.setRecord (data + 32) (dotRecord (wide v) [period, period]
      (if parent.isRoot then 0 else parent.firstCluster) (s.clock 1))
    { s.flushBytes v data v.clusterBytes with clock := fun i => s.clock (i + 2) }

def isDotEntry (entry : Slot) : Bool := entry 0 == period && (entry 1 == space || entry 1 == period)

def noEntries : List Slot → Bool
  | [] => true
  | entry :: rest =>
    if entry 0 = 0 then true
    else if ¬ entryIsUsable entry ∨ isDotEntry entry then noEntries rest
    else false

def dirIsEmpty (cluster : ℕ) : Bool :=
  v.clusterIsValid cluster && noEntries (s.dirRecords v ⟨cluster,false⟩)

/-! ## Names in directories -/

def createAt (parent : FatDir) (name : List Byte) : Disk × Option Located :=
  match s.findEntry v parent name with
  | some _ => (s, none)
  | none => s.createEntry v parent name false 0

def removeAt (parent : FatDir) (name : List Byte) (isDirectory : Bool) : Disk × Bool :=
  match s.findEntry v parent name with
  | none => (s, false)
  | some e =>
    let entry := s.record e.raw
    let cluster := entryGetCluster (wide v) entry
    if (entry attrAt &&& fatAttrDirectory != 0) != isDirectory then (s, false)
    else if isDirectory ∧ ¬ s.dirIsEmpty v cluster then (s, false)
    else
      let s := if cluster = 0 then s else s.freeChain v cluster
      (s.eraseEntry v parent e, true)

def mkdirAt (parent : FatDir) (name : List Byte) : Disk × Bool :=
  match s.findEntry v parent name with
  | some _ => (s, false)
  | none =>
    match s.allocCluster v with
    | (s, none) => (s, false)
    | (s, some cluster) =>
      match s.initDirCluster v cluster parent with
      | none => (s.freeChain v cluster, false)
      | some s =>
        match s.createEntry v parent name true cluster with
        | (s, none) => (s.freeChain v cluster, false)
        | (s, some _) => (s, true)

end Disk

end GaiaKernel.Fat
